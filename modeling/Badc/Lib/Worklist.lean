import Badc.Lib.Loop
import Mathlib.Data.List.Sort

/-!
# Sweep and worklist

The iteration that settles a table of facts: one sweep visits every key in a fixed order, and a
visit that changes the table queues the keys that read the changed entry, unless the sweep has yet
to reach them.  The queue yields the key that comes first in the order.

`Sweep.Rule.settled` is the rule for it: what a visit that changes nothing establishes of its key, and
what only a change of an entry the key reads can break, holds of every key at the end.  It asks
for a potential of each key that every change of its entry lowers, which bounds the rounds
(`Sweep.Rule.ends`) and the changes of an entry (`Sweep.Rule.changes_le`).
-/

namespace Badc

/-- An iteration over keys `α` and tables `σ`. -/
structure Sweep (α σ : Type*) where
  /-- Every key, in the order of the sweep. -/
  order : List α
  /-- The keys whose entry is computed from a key's. -/
  readers : α → List α
  /-- The table after a visit of a key, where the visit changes it. -/
  visit : σ → α → Option σ

namespace Sweep

/-- The state of the iteration. -/
structure Progress (α σ : Type*) where
  table : σ
  queued : α → Bool
  /-- Positions in the order, ascending. -/
  queue : List ℕ
  /-- The position the sweep goes on from. -/
  start : ℕ

variable {α σ : Type*} [DecidableEq α] (it : Sweep α σ)

/-- The place of a key in the order. -/
def pos (a : α) : ℕ := it.order.idxOf a

/-- Queue a key the sweep is past, unless it is queued. -/
def push (s : Progress α σ) (a : α) : Progress α σ :=
  if it.pos a < s.start ∧ s.queued a = false then
    { s with
      queued := Function.update s.queued a true
      queue := s.queue.orderedInsert (· ≤ ·) (it.pos a) }
  else s

/-- Visit a key. -/
def visited (s : Progress α σ) (a : α) : Progress α σ :=
  let s := { s with queued := Function.update s.queued a false }
  match it.visit s.table a with
  | none => s
  | some table => (it.readers a).foldl it.push { s with table }

/-- One round: the sweep's next key, or past the sweep the first of the queue. -/
def round (s : Progress α σ) : Option (Progress α σ) :=
  match it.order[s.start]? with
  | some a => some (it.visited { s with start := s.start + 1 } a)
  | none =>
    match s.queue with
    | [] => none
    | p :: queue => (it.order[p]?).map (it.visited { s with queue })

/-- The iteration from a table on. -/
def run (fuel : ℕ) (table : σ) : Progress α σ :=
  whileSome it.round fuel { table, queued := fun _ => false, queue := [], start := 0 }

/-! ## Queueing -/

section Queue

variable {it} {s : Progress α σ} {a b : α}

lemma eq_of_pos (h : it.order[it.pos b]? = some a) : a = b := by
  have hb : b ∈ it.order := by
    by_contra hb
    rw [pos, List.idxOf_eq_length hb, List.getElem?_eq_none le_rfl] at h
    cases h
  rw [pos, List.getElem?_idxOf hb] at h
  exact (Option.some.inj h).symm

/-- What the queue says of itself: its places are behind the sweep, and every queued key but `a`
is in it. -/
structure Queued (it : Sweep α σ) (s : Progress α σ) (a : Option α) : Prop where
  behind : ∀ p ∈ s.queue, p < s.start
  mem : ∀ b, s.queued b = true → some b ≠ a → it.pos b ∈ s.queue

/-- Queueing keys leaves the table, queues those behind the sweep, drops none, and adds at most
one entry for each. -/
lemma push_foldl (l : List α) (h : Queued it s none) :
    Queued it (l.foldl it.push s) none ∧ (l.foldl it.push s).table = s.table ∧
      (l.foldl it.push s).start = s.start ∧
      (∀ b, s.queued b = true ∨ b ∈ l ∧ it.pos b < s.start →
        (l.foldl it.push s).queued b = true) ∧
      (l.foldl it.push s).queue.length ≤ s.queue.length + l.length := by
  induction l generalizing s with
  | nil => exact ⟨h, rfl, rfl, fun b hb => by simpa using hb, le_rfl⟩
  | cons c l ih =>
    have hone : Queued it (it.push s c) none ∧ (it.push s c).table = s.table ∧
        (it.push s c).start = s.start ∧
        (∀ b, s.queued b = true ∨ b = c ∧ it.pos b < s.start → (it.push s c).queued b = true) ∧
        (it.push s c).queue.length ≤ s.queue.length + 1 := by
      unfold push
      split
      · rename_i hc
        refine ⟨⟨fun p hp => ?_, fun b hb _ => ?_⟩, rfl, rfl, fun b hb => ?_, ?_⟩
        · rcases (List.mem_orderedInsert _).mp hp with rfl | hp
          · exact hc.1
          · exact h.behind p hp
        · rw [List.mem_orderedInsert]
          by_cases hbc : b = c
          · exact Or.inl (by rw [hbc])
          · dsimp only at hb
            rw [Function.update_of_ne hbc] at hb
            exact Or.inr (h.mem b hb (by simp))
        · dsimp only
          by_cases hbc : b = c
          · rw [hbc, Function.update_self]
          · rw [Function.update_of_ne hbc]
            exact hb.resolve_right fun hb => hbc hb.1
        · exact (List.orderedInsert_length _ _ _).le
      · rename_i hc
        refine ⟨h, rfl, rfl, fun b hb => ?_, Nat.le_succ _⟩
        rcases hb with hb | ⟨rfl, hb⟩
        · exact hb
        · exact Bool.eq_true_of_not_eq_false fun hq => hc ⟨hb, hq⟩
    obtain ⟨hq, htable, hstart, hqueued, hlen⟩ := hone
    obtain ⟨hq', htable', hstart', hqueued', hlen'⟩ := ih hq
    refine ⟨hq', htable'.trans htable, hstart'.trans hstart, fun b hb => ?_, ?_⟩
    · apply hqueued'
      rcases hb with hb | ⟨hb, hlt⟩
      · exact Or.inl (hqueued b (Or.inl hb))
      · rcases List.mem_cons.mp hb with rfl | hb
        · exact Or.inl (hqueued b (Or.inr ⟨rfl, hlt⟩))
        · exact Or.inr ⟨hb, hstart ▸ hlt⟩
    · rw [List.foldl_cons, List.length_cons]
      omega

end Queue

/-! ## The rule -/

/-- What the iteration is told of its tables: an invariant, when a key is settled, and how often
its entry may still change. -/
structure Rule (it : Sweep α σ) (I : σ → Prop) (Ok : σ → α → Prop) (pot : σ → α → ℕ) : Prop where
  keeps : ∀ {t a t'}, I t → it.visit t a = some t' → I t'
  idle : ∀ {t a}, I t → it.visit t a = none → Ok t a
  own : ∀ {t a t'}, I t → it.visit t a = some t' → a ∉ it.readers a → Ok t' a
  frame : ∀ {t a t' b}, I t → it.visit t a = some t' → b ≠ a → b ∉ it.readers a → Ok t b → Ok t' b
  lower : ∀ {t a t'}, I t → it.visit t a = some t' → pot t' a < pot t a
  still : ∀ {t a t' b}, I t → it.visit t a = some t' → b ≠ a → pot t' b = pot t b

/-- The queue entries that visits may still add. -/
def load (it : Sweep α σ) (pot : σ → α → ℕ) (t : σ) : ℕ :=
  (it.order.map fun a => pot t a * (it.readers a).length).sum

section Rule

variable {it} {I : σ → Prop} {Ok : σ → α → Prop} {pot : σ → α → ℕ} {s s' : Progress α σ} {a : α}

/-- What holds between rounds; a key about to be visited is excepted. -/
structure Inv (it : Sweep α σ) (I : σ → Prop) (Ok : σ → α → Prop) (s : Progress α σ)
    (a : Option α) : Prop where
  table : I s.table
  inside : s.start ≤ it.order.length
  queued : Queued it s a
  settled : ∀ b ∈ it.order, it.pos b < s.start → s.queued b = true ∨ Ok s.table b ∨ some b = a

/-- A change of an entry pays for its readers. -/
lemma Rule.load_add_le (h : Rule it I Ok pot) {t t' : σ} (ht : I t)
    (hv : it.visit t a = some t') (ha : a ∈ it.order) :
    it.load pot t' + (it.readers a).length ≤ it.load pot t := by
  have hle : ∀ b, pot t' b ≤ pot t b := by
    intro b
    by_cases hb : b = a
    · exact hb ▸ (h.lower ht hv).le
    · exact (h.still ht hv hb).le
  have hsum : ∀ l : List α, (l.map fun b => pot t' b * (it.readers b).length).sum ≤
      (l.map fun b => pot t b * (it.readers b).length).sum := fun l =>
    List.sum_le_sum fun b _ => Nat.mul_le_mul_right _ (hle b)
  have hown : pot t' a * (it.readers a).length + (it.readers a).length ≤
      pot t a * (it.readers a).length := by
    have := Nat.mul_le_mul_right (it.readers a).length (h.lower ht hv)
    rwa [Nat.succ_mul] at this
  unfold load
  obtain ⟨l₁, l₂, hl⟩ := List.append_of_mem ha
  rw [hl]
  simp only [List.map_append, List.map_cons, List.sum_append, List.sum_cons]
  have h1 := hsum l₁
  have h2 := hsum l₂
  omega

/-- A visit settles its key, and adds no more to the queue than it takes off the load. -/
lemma Rule.visited (h : Rule it I Ok pot) (hs : Inv it I Ok s (some a)) (ha : a ∈ it.order) :
    Inv it I Ok (it.visited s a) none ∧ (it.visited s a).start = s.start ∧
      (it.visited s a).queue.length + it.load pot (it.visited s a).table ≤
        s.queue.length + it.load pot s.table := by
  have hoff : Queued it { s with queued := Function.update s.queued a false } none := by
    refine ⟨hs.queued.behind, fun b hb _ => ?_⟩
    by_cases hba : b = a
    · simp [hba] at hb
    · dsimp only at hb
      rw [Function.update_of_ne hba] at hb
      exact hs.queued.mem b hb (by simpa using hba)
  unfold Sweep.visited
  dsimp only
  split
  · rename_i hv
    refine ⟨⟨hs.table, hs.inside, hoff, fun b hb hlt => ?_⟩, rfl, le_rfl⟩
    by_cases hba : b = a
    · subst hba
      exact Or.inr (Or.inl (h.idle hs.table hv))
    · dsimp only
      rw [Function.update_of_ne hba]
      exact (hs.settled b hb hlt).imp_right fun hb => Or.inl (hb.resolve_right (by simpa using hba))
  · rename_i t' hv
    obtain ⟨hq, htable, hstart, hqueued, hlen⟩ :=
      push_foldl (s := { s with queued := Function.update s.queued a false, table := t' })
        (it.readers a) ⟨hoff.behind, hoff.mem⟩
    refine ⟨⟨?_, hstart.le.trans hs.inside, hq, fun b hb hlt => ?_⟩, hstart, ?_⟩
    · rw [htable]
      exact h.keeps hs.table hv
    · rw [hstart] at hlt
      rw [htable]
      by_cases hread : b ∈ it.readers a
      · exact Or.inl (hqueued b (Or.inr ⟨hread, hlt⟩))
      · by_cases hba : b = a
        · subst hba
          exact Or.inr (Or.inl (h.own hs.table hv hread))
        · rcases hs.settled b hb hlt with hsb | hsb | hsb
          · left
            apply hqueued
            dsimp only
            rw [Function.update_of_ne hba]
            exact Or.inl hsb
          · exact Or.inr (Or.inl (h.frame hs.table hv hba hread hsb))
          · exact absurd (Option.some.inj hsb) hba
    · have := h.load_add_le hs.table hv ha
      rw [htable]
      dsimp only at hlen ⊢
      omega

/-- A round keeps the invariant and leaves less to do. -/
lemma Rule.round (h : Rule it I Ok pot) (hs : Inv it I Ok s none) (hround : it.round s = some s') :
    Inv it I Ok s' none ∧
      (it.order.length - s'.start) + s'.queue.length + it.load pot s'.table <
        (it.order.length - s.start) + s.queue.length + it.load pot s.table := by
  unfold Sweep.round at hround
  split at hround
  · rename_i a ha
    obtain rfl := Option.some.inj hround
    have hlt := (List.getElem?_eq_some_iff.mp ha).1
    have hpre : Inv it I Ok { s with start := s.start + 1 } (some a) := by
      refine ⟨hs.table, hlt, ⟨fun p hp => Nat.lt_succ_of_lt (hs.queued.behind p hp), fun b hb _ =>
        hs.queued.mem b hb (by simp)⟩, fun b hb hpos => ?_⟩
      by_cases hlast : it.pos b = s.start
      · rw [← hlast] at ha
        exact Or.inr (Or.inr (by rw [eq_of_pos ha]))
      · exact (hs.settled b hb (by dsimp only at hpos; omega)).imp_right fun hb => Or.inl
          (hb.resolve_right (by simp))
    obtain ⟨hinv, hstart, hle⟩ := h.visited hpre (List.mem_of_getElem? ha)
    refine ⟨hinv, ?_⟩
    rw [hstart]
    dsimp only at hle ⊢
    omega
  · split at hround
    · cases hround
    · rename_i p queue hqueue
      obtain ⟨a, ha, rfl⟩ := Option.map_eq_some_iff.mp hround
      have hpre : Inv it I Ok { s with queue } (some a) := by
        refine ⟨hs.table, hs.inside,
          ⟨fun q hq => hs.queued.behind q (by simp [hqueue, hq]), fun b hb hba => ?_⟩,
          fun b hb hpos => (hs.settled b hb hpos).imp_right fun hb => Or.inl
            (hb.resolve_right (by simp))⟩
        have hmem := hs.queued.mem b hb (by simp)
        rw [hqueue] at hmem
        rcases List.mem_cons.mp hmem with hp | hmem
        · rw [← hp] at ha
          exact absurd (by rw [eq_of_pos ha]) hba
        · exact hmem
      obtain ⟨hinv, hstart, hle⟩ := h.visited hpre (List.mem_of_getElem? ha)
      refine ⟨hinv, ?_⟩
      rw [hstart]
      rw [hqueue, List.length_cons]
      dsimp only at hle ⊢
      omega

lemma Rule.run (h : Rule it I Ok pot) {t : σ} (ht : I t) (fuel : ℕ) :
    Inv it I Ok (it.run fuel t) none := by
  refine whileSome_invariant (fun s => Inv it I Ok s none) (fun s s' hs hr => (h.round hs hr).1) fuel
    ⟨ht, Nat.zero_le _, ⟨fun p hp => (nomatch hp), fun b hb => ?_⟩, fun b _ hlt => ?_⟩
  · cases hb
  · exact absurd hlt (Nat.not_lt_zero _)

/-- With fuel for the sweep and the load, the sweep is over at the end and the queue empty. -/
theorem Rule.ends (h : Rule it I Ok pot) {t : σ} (ht : I t) {fuel : ℕ}
    (hfuel : it.order.length + it.load pot t ≤ fuel) :
    (it.run fuel t).start = it.order.length ∧ (it.run fuel t).queue = [] := by
  have hinv := h.run ht fuel
  have hdone : it.round (it.run fuel t) = none := by
    refine whileSome_done (fun s => Inv it I Ok s none)
      (fun s => (it.order.length - s.start) + s.queue.length + it.load pot s.table)
      (fun s s' hs hr => h.round hs hr) (h.run ht 0) ?_
    simpa [Sweep.run] using hfuel
  unfold Sweep.round at hdone
  split at hdone
  · cases hdone
  · rename_i hover
    refine ⟨hinv.inside.antisymm (List.getElem?_eq_none_iff.mp hover), ?_⟩
    split at hdone
    · assumption
    · rename_i p queue hqueue
      have hp := hinv.queued.behind p (by simp [hqueue])
      rw [Option.map_eq_none_iff, List.getElem?_eq_none_iff] at hdone
      exact absurd (hp.trans_le hinv.inside) (Nat.not_lt.mpr hdone)

/-- Every key is settled at the end. -/
theorem Rule.settled (h : Rule it I Ok pot) {t : σ} (ht : I t) {fuel : ℕ}
    (hfuel : it.order.length + it.load pot t ≤ fuel) :
    I (it.run fuel t).table ∧ ∀ b ∈ it.order, Ok (it.run fuel t).table b := by
  have hinv := h.run ht fuel
  obtain ⟨hstart, hqueue⟩ := h.ends ht hfuel
  refine ⟨hinv.table, fun b hb => ?_⟩
  rcases hinv.settled b hb (hstart ▸ List.idxOf_lt_length_of_mem hb) with hq | hok | hnone
  · have := hinv.queued.mem b hq (by simp)
    rw [hqueue] at this
    cases this
  · exact hok
  · cases hnone

/-- One more round leaves the table or visits a key. -/
lemma run_succ (fuel : ℕ) (t : σ) : (it.run (fuel + 1) t).table = (it.run fuel t).table ∨
    ∃ a, it.visit (it.run fuel t).table a = some (it.run (fuel + 1) t).table := by
  have hpush : ∀ (l : List α) (s : Progress α σ), (l.foldl it.push s).table = s.table := fun l s =>
    List.foldlRecOn (motive := fun s' => s'.table = s.table) l it.push rfl fun s' hs c _ => by
      unfold push
      split
      · exact hs
      · exact hs
  have hvisited : ∀ s : Progress α σ, ∀ a, (it.visited s a).table = s.table ∨
      it.visit s.table a = some (it.visited s a).table := by
    intro s a
    unfold Sweep.visited
    dsimp only
    split
    · exact .inl rfl
    · rename_i t' hv
      exact .inr (by rw [hv, hpush])
  rw [Sweep.run, Sweep.run, whileSome_succ]
  generalize whileSome it.round fuel _ = s
  cases hround : it.round s with
  | none => exact .inl rfl
  | some s' =>
    rw [Option.getD_some]
    unfold Sweep.round at hround
    split at hround
    · obtain rfl := Option.some.inj hround
      exact (hvisited _ _).imp_right fun h => ⟨_, h⟩
    · split at hround
      · cases hround
      · obtain ⟨a, -, rfl⟩ := Option.map_eq_some_iff.mp hround
        exact (hvisited _ _).imp_right fun h => ⟨_, h⟩

/-- Its potential pays for every change of an entry. -/
theorem Rule.changes_le {β : Type*} [DecidableEq β] (h : Rule it I Ok pot) {t : σ} (ht : I t)
    (entry : σ → α → β)
    (hentry : ∀ {t a t' b}, it.visit t a = some t' → b ≠ a → entry t' b = entry t b) (b : α) (n : ℕ) :
    ((List.range n).countP fun k => entry (it.run (k + 1) t).table b ≠ entry (it.run k t).table b) +
      pot (it.run n t).table b ≤ pot t b := by
  induction n with
  | zero => exact (Nat.zero_add _).le
  | succ n ih =>
    rw [List.range_succ, List.countP_append, List.countP_singleton]
    rcases it.run_succ n t with heq | ⟨a, hv⟩
    · rw [heq, if_neg (by simp)]
      exact ih
    · by_cases hb : b = a
      · have := hb ▸ h.lower (h.run ht n).table hv
        split <;> omega
      · rw [hentry hv hb, if_neg (by simp), h.still (h.run ht n).table hv hb]
        exact ih

end Rule

end Sweep

end Badc
