import Mathlib.Data.List.Nodup
import Mathlib.Data.Finset.Card
import Mathlib.Data.Finset.Range
import Badc.Lib.Loop

/-!
# Marking what a worklist reaches

A node is marked when it is first met and then waits on a stack; a round takes the top of the
stack and meets its neighbours.  What is marked at the end is closed under `next`, apart from the
nodes that were marked without ever waiting.
-/

namespace Badc

/-- The marked nodes, in the order they were met, and those still to be looked at. -/
structure Mark (α : Type*) where
  seen : List α
  stack : List α

namespace Mark

variable {α : Type*} [DecidableEq α]

/-- Meet a node. -/
def insert (m : Mark α) (x : α) : Mark α :=
  if x ∈ m.seen then m else ⟨m.seen ++ [x], x :: m.stack⟩

/-- Take a node off the stack and meet its neighbours. -/
def round (next : α → List α) (m : Mark α) : Option (Mark α) :=
  match m.stack with
  | [] => none
  | x :: rest => some ((next x).foldl insert { m with stack := rest })

/-- Go on until no node waits. -/
def run (next : α → List α) (fuel : ℕ) (m : Mark α) : Mark α := whileSome (round next) fuel m

/-- Meeting a node marks it and forgets none. -/
lemma mem_seen_insert {m : Mark α} {x y : α} : y ∈ (m.insert x).seen ↔ y ∈ m.seen ∨ y = x := by
  unfold insert
  split
  · rename_i hx
    constructor
    · exact Or.inl
    · rintro (h | rfl)
      · exact h
      · exact hx
  · simp

lemma mem_seen_foldl {m : Mark α} {l : List α} {y : α} :
    y ∈ (l.foldl insert m).seen ↔ y ∈ m.seen ∨ y ∈ l := by
  induction l generalizing m with
  | nil => simp
  | cons x l ih =>
    rw [List.foldl_cons, ih, mem_seen_insert, List.mem_cons]
    tauto

/-- A node that waits is one that waited, or one just marked. -/
lemma mem_stack_foldl {m : Mark α} {l : List α} {y : α} :
    y ∈ (l.foldl insert m).stack ↔ y ∈ m.stack ∨ y ∈ l ∧ y ∉ m.seen := by
  induction l generalizing m with
  | nil => simp
  | cons x l ih =>
    rw [List.foldl_cons, ih, mem_seen_insert, List.mem_cons, insert]
    by_cases hx : x ∈ m.seen
    · rw [if_pos hx]
      by_cases hyx : y = x
      · subst hyx
        simp [hx]
      · simp [hyx]
    · rw [if_neg hx]
      by_cases hyx : y = x
      · subst hyx
        simp [hx]
      · simp [hyx]

/-- What a run keeps: nodes are marked once, a waiting node is marked, and the neighbours of a
marked node are marked unless it waits or was never to be looked at. -/
structure Inv (next : α → List α) (skip : α → Prop) (m : Mark α) : Prop where
  nodup : m.seen.Nodup
  waiting : ∀ x ∈ m.stack, x ∈ m.seen
  closed : ∀ x ∈ m.seen, x ∈ m.stack ∨ skip x ∨ ∀ y ∈ next x, y ∈ m.seen

/-- Meeting a node keeps it marked once. -/
lemma nodup_insert {m : Mark α} (h : m.seen.Nodup) (x : α) : (m.insert x).seen.Nodup := by
  unfold insert
  split
  · exact h
  · rename_i hx
    rw [List.nodup_append]
    refine ⟨h, by simp, ?_⟩
    rintro a ha b hb rfl
    rw [List.mem_singleton] at hb
    exact hx (hb ▸ ha)

lemma nodup_foldl {m : Mark α} (h : m.seen.Nodup) (l : List α) :
    (l.foldl insert m).seen.Nodup := by
  induction l generalizing m with
  | nil => exact h
  | cons x l ih => exact ih (nodup_insert h x)

/-- Meeting nodes keeps the invariant. -/
lemma Inv.foldl {next : α → List α} {skip : α → Prop} {m : Mark α} (h : Inv next skip m)
    (l : List α) : Inv next skip (l.foldl insert m) where
  nodup := nodup_foldl h.nodup l
  waiting x hx := by
    rw [mem_seen_foldl]
    rcases mem_stack_foldl.mp hx with hx | hx
    · exact Or.inl (h.waiting x hx)
    · exact Or.inr hx.1
  closed x hx := by
    rw [mem_stack_foldl]
    by_cases hseen : x ∈ m.seen
    · rcases h.closed x hseen with hst | hskip | hall
      · exact Or.inl (Or.inl hst)
      · exact Or.inr (Or.inl hskip)
      · exact Or.inr (Or.inr fun y hy => mem_seen_foldl.mpr (Or.inl (hall y hy)))
    · exact Or.inl (Or.inr ⟨(mem_seen_foldl.mp hx).resolve_left hseen, hseen⟩)

/-- A round keeps the invariant. -/
lemma Inv.round {next : α → List α} {skip : α → Prop} {m m' : Mark α} (h : Inv next skip m)
    (hr : m.round next = some m') : Inv next skip m' := by
  unfold Mark.round at hr
  split at hr
  · cases hr
  · rename_i x rest hst
    obtain rfl := Option.some.inj hr
    refine ⟨@nodup_foldl _ _ ⟨m.seen, rest⟩ h.nodup _, ?_, ?_⟩
    · intro y hy
      rw [mem_seen_foldl]
      rcases mem_stack_foldl.mp hy with hy | hy
      · exact Or.inl (h.waiting y (by simp [hst, show y ∈ rest from hy]))
      · exact Or.inr hy.1
    · intro y hy
      rw [mem_stack_foldl]
      by_cases hseen : y ∈ m.seen
      · rcases h.closed y hseen with hys | hskip | hall
        · rw [hst, List.mem_cons] at hys
          rcases hys with rfl | hys
          · exact Or.inr (Or.inr fun z hz => mem_seen_foldl.mpr (Or.inr hz))
          · exact Or.inl (Or.inl hys)
        · exact Or.inr (Or.inl hskip)
        · exact Or.inr (Or.inr fun z hz => mem_seen_foldl.mpr (Or.inl (hall z hz)))
      · exact Or.inl (Or.inr ⟨(mem_seen_foldl.mp hy).resolve_left hseen, hseen⟩)

/-- Meeting nodes lengthens the list of marked nodes and the stack by the same amount. -/
lemma length_foldl (m : Mark α) (l : List α) :
    (l.foldl insert m).stack.length + m.seen.length =
      (l.foldl insert m).seen.length + m.stack.length := by
  induction l generalizing m with
  | nil => exact Nat.add_comm _ _
  | cons x l ih =>
    rw [List.foldl_cons]
    have hstep : (m.insert x).stack.length + m.seen.length =
        (m.insert x).seen.length + m.stack.length := by
      unfold insert
      split
      · omega
      · simp
        omega
    have := ih (m.insert x)
    omega

/-- A round preserves a property of the marked nodes that neighbours of waiting nodes have. -/
lemma round_forall {next : α → List α} {P : α → Prop} {m m' : Mark α}
    (hr : m.round next = some m') (hP : ∀ x ∈ m.seen, P x)
    (hnext : ∀ x ∈ m.stack, ∀ y ∈ next x, P y) : ∀ x ∈ m'.seen, P x := by
  unfold Mark.round at hr
  split at hr
  · cases hr
  · rename_i x rest hst
    obtain rfl := Option.some.inj hr
    intro y hy
    rcases mem_seen_foldl.mp hy with hy | hy
    · exact hP y hy
    · exact hnext x (by simp [hst]) y hy

lemma length_seen_le {m : Mark ℕ} {n : ℕ} (hnd : m.seen.Nodup) (hlt : ∀ x ∈ m.seen, x < n) :
    m.seen.length ≤ n := by
  have hsub : m.seen.toFinset ⊆ Finset.range n := fun x hx => by
    simpa using hlt x (by simpa using hx)
  have := Finset.card_le_card hsub
  rwa [List.toFinset_card_of_nodup hnd, Finset.card_range] at this

/-- On nodes below `n`, a round marks only such nodes, and lowers the number of those still to be marked
or looked at. -/
lemma round_lt {next : ℕ → List ℕ} {skip : ℕ → Prop} {s s' : Mark ℕ} {n : ℕ}
    (hnext : ∀ x < n, ∀ y ∈ next x, y < n) (hs : Inv next skip s) (hlt : ∀ x ∈ s.seen, x < n)
    (hr : s.round next = some s') : (Inv next skip s' ∧ ∀ x ∈ s'.seen, x < n) ∧
      n - s'.seen.length + s'.stack.length < n - s.seen.length + s.stack.length := by
  have hlt' := round_forall hr hlt fun x hx y hy => hnext x (hlt x (hs.waiting x hx)) y hy
  have hs' := hs.round hr
  refine ⟨⟨hs', hlt'⟩, ?_⟩
  have hle := length_seen_le hs'.nodup hlt'
  unfold Mark.round at hr
  split at hr
  · cases hr
  · rename_i x rest hst
    obtain rfl := Option.some.inj hr
    have := length_foldl ⟨s.seen, rest⟩ (next x)
    simp only [hst, List.length_cons] at this ⊢
    omega

/-- On nodes below `n`, a run of `n` rounds ends with nothing waiting. -/
theorem round_run {next : ℕ → List ℕ} {skip : ℕ → Prop} {m : Mark ℕ} {n : ℕ}
    (h : Inv next skip m) (hlen : m.stack.length ≤ m.seen.length) (hn : ∀ x ∈ m.seen, x < n)
    (hnext : ∀ x < n, ∀ y ∈ next x, y < n) : (m.run next n).round next = none :=
  whileSome_done (fun s => Inv next skip s ∧ ∀ x ∈ s.seen, x < n)
    (fun s => n - s.seen.length + s.stack.length) (fun _ _ hs => round_lt hnext hs.1 hs.2) ⟨h, hn⟩ (by
      have := length_seen_le h.nodup hn
      omega)

/-- On nodes below `n`, a run of `n` rounds marks what it starts with, and what it marks is closed. -/
theorem run_spec {next : ℕ → List ℕ} {skip : ℕ → Prop} {m : Mark ℕ} {n : ℕ}
    (h : Inv next skip m) (hlen : m.stack.length ≤ m.seen.length) (hn : ∀ x ∈ m.seen, x < n)
    (hnext : ∀ x < n, ∀ y ∈ next x, y < n) :
    (∀ x ∈ m.seen, x ∈ (m.run next n).seen) ∧ (∀ x ∈ (m.run next n).seen, x < n) ∧
      (m.run next n).seen.Nodup ∧
      ∀ x ∈ (m.run next n).seen, skip x ∨ ∀ y ∈ next x, y ∈ (m.run next n).seen := by
  have hend := round_run h hlen hn hnext
  have hinv : Inv next skip (m.run next n) ∧ ∀ x ∈ (m.run next n).seen, x < n :=
    whileSome_invariant (fun s => Inv next skip s ∧ ∀ x ∈ s.seen, x < n)
      (fun _ _ hs hr => (round_lt hnext hs.1 hs.2 hr).1) n ⟨h, hn⟩
  have hkeep : ∀ x ∈ m.seen, x ∈ (m.run next n).seen := by
    refine whileSome_invariant (fun s : Mark ℕ => ∀ x ∈ m.seen, x ∈ s.seen) ?_ n fun _ hx => hx
    intro s s' hs hr x hx
    unfold Mark.round at hr
    split at hr
    · cases hr
    · obtain rfl := Option.some.inj hr
      exact mem_seen_foldl.mpr (Or.inl (hs x hx))
  refine ⟨hkeep, hinv.2, hinv.1.nodup, fun x hx => ?_⟩
  have hstack : (m.run next n).stack = [] := by
    unfold Mark.round at hend
    split at hend
    · assumption
    · cases hend
  have := hinv.1.closed x hx
  rw [hstack] at this
  simpa using this

/-- A property of the marked nodes that goes from a node other than `root` to its neighbours, where
`root` is marked and never waits. -/
theorem run_forall {next : α → List α} {P : α → Prop} {m : Mark α} {root : α} (fuel : ℕ)
    (hroot : root ∈ m.seen) (hstack : root ∉ m.stack) (hwait : ∀ x ∈ m.stack, x ∈ m.seen)
    (hP : ∀ x ∈ m.seen, P x) (hnext : ∀ x, P x → x ≠ root → ∀ y ∈ next x, P y) :
    ∀ x ∈ (m.run next fuel).seen, P x := by
  refine (whileSome_invariant (fun s : Mark α => root ∈ s.seen ∧ root ∉ s.stack ∧
    (∀ x ∈ s.stack, x ∈ s.seen) ∧ ∀ x ∈ s.seen, P x) ?_ fuel ⟨hroot, hstack, hwait, hP⟩).2.2.2
  rintro s s' ⟨hroot, hstack, hwait, hP⟩ hr
  have hall := round_forall hr hP fun x hx => hnext x (hP x (hwait x hx)) fun he => hstack (he ▸ hx)
  unfold Mark.round at hr
  split at hr
  · cases hr
  · rename_i x rest hst
    obtain rfl := Option.some.inj hr
    rw [hst] at hstack hwait
    refine ⟨mem_seen_foldl.mpr (Or.inl hroot), fun hmem => ?_, fun y hy => ?_, hall⟩
    · rcases mem_stack_foldl.mp hmem with hmem | ⟨-, hno⟩
      · exact hstack (.tail _ hmem)
      · exact hno hroot
    · rcases mem_stack_foldl.mp hy with hy | hy
      · exact mem_seen_foldl.mpr (Or.inl (hwait y (.tail _ hy)))
      · exact mem_seen_foldl.mpr (Or.inr hy.1)

end Mark

end Badc
