import Badc.Ssa.Liveness

/-!
# Liveness by walks

`SparseLive::solve` finds the least solution of the backward equations.  A walk marks for an element
just the blocks it is live before and after; the marks of an element are fresh, as every mark made
before is for a smaller one.
-/

namespace Badc

namespace Liveness

/-- What the marks for an element, made after those for smaller ones, say. -/
structure Stamped.Inv (e : ℕ) (s : Stamped) : Prop where
  mem_iff : ∀ b, (b, e) ∈ s.pairs ↔ s.stamp b = some e
  pairs_le : ∀ b x, (b, x) ∈ s.pairs → x ≤ e
  stamp_le : ∀ b x, s.stamp b = some x → x ≤ e
  sorted : s.pairs.Pairwise fun p q => p.1 = q.1 → p.2 < q.2

/-- A block that is not marked for the element can be. -/
lemma Stamped.Inv.record {e b : ℕ} {s : Stamped} (h : s.Inv e) (hb : s.stamp b ≠ some e) :
    (s.record e b).Inv e := by
  refine ⟨fun c => ?_, fun c x hx => ?_, fun c x hx => ?_, ?_⟩
  · unfold Stamped.record
    rw [List.mem_append, List.mem_singleton, h.mem_iff]
    by_cases hc : c = b
    · simp [hc]
    · simp [hc]
  · rcases List.mem_append.mp hx with hx | hx
    · exact h.pairs_le c x hx
    · rw [List.mem_singleton] at hx
      exact le_of_eq (congrArg Prod.snd hx)
  · simp only [Stamped.record] at hx
    by_cases hc : c = b
    · rw [hc, Function.update_self] at hx
      exact le_of_eq (Option.some.inj hx).symm
    · rw [Function.update_of_ne hc] at hx
      exact h.stamp_le c x hx
  · refine List.pairwise_append.mpr ⟨h.sorted, List.pairwise_singleton _ _, ?_⟩
    rintro ⟨c, x⟩ hc q hq hcq
    obtain rfl := List.mem_singleton.mp hq
    dsimp only at hcq ⊢
    subst hcq
    refine lt_of_le_of_ne (h.pairs_le c x hc) fun hx => hb ?_
    exact (h.mem_iff c).mp (hx ▸ hc)

/-- The marks are fresh for the next element. -/
lemma Stamped.Inv.next {e : ℕ} {s : Stamped} (h : s.Inv e) : s.Inv (e + 1) where
  mem_iff b := by
    constructor
    · intro hb
      have := h.pairs_le b _ hb
      omega
    · intro hb
      have := h.stamp_le b _ hb
      omega
  pairs_le b x hx := (h.pairs_le b x hx).trans e.le_succ
  stamp_le b x hx := (h.stamp_le b x hx).trans e.le_succ
  sorted := h.sorted

lemma mem_rowByBlock {pairs : List (ℕ × ℕ)} {b r : ℕ} : r ∈ rowByBlock pairs b ↔ (b, r) ∈ pairs := by
  simp [rowByBlock]

lemma mem_rowOfElem {pairs : List (ℕ × ℕ)} {e b : ℕ} : b ∈ rowOfElem pairs e ↔ (e, b) ∈ pairs := by
  simp [rowOfElem]

section

variable {g : SuccGraph} {F : BackwardFlow ℕ} {e b : ℕ} {old s s' : Sparse} {exc : ℕ → Prop}

/-- What a walk keeps: marked blocks are live, and what follows from a mark is marked, but for
blocks on the stack and those of `exc`. -/
structure WalkInv (g : SuccGraph) (F : BackwardFlow ℕ) (e : ℕ) (old : Sparse) (exc : ℕ → Prop)
    (s : Sparse) : Prop where
  ins : s.ins.Inv e
  outs : s.outs.Inv e
  kill : ∀ b, s.killStamp b = some e ↔ F.kill b
  killLe : ∀ b x, s.killStamp b = some x → x ≤ e
  soundIn : ∀ b, s.ins.stamp b = some e → F.LiveIn b ∧ b < g.size
  soundOut : ∀ b, s.outs.stamp b = some e → F.LiveOut b
  stack : ∀ b ∈ s.stack, s.ins.stamp b = some e
  closed : ∀ b, s.ins.stamp b = some e → b ∈ s.stack ∨ exc b ∨
    ∀ p ∈ g.predsOf b, s.outs.stamp p = some e
  through : ∀ p, s.outs.stamp p = some e → ¬ F.kill p → s.ins.stamp p = some e
  oldIn : ∀ b x, x ≠ e → ((b, x) ∈ s.ins.pairs ↔ (b, x) ∈ old.ins.pairs)
  oldOut : ∀ b x, x ≠ e → ((b, x) ∈ s.outs.pairs ↔ (b, x) ∈ old.outs.pairs)

/-- Marks stay, and a block that is marked goes on the stack. -/
structure Grows (g : SuccGraph) (e : ℕ) (s s' : Sparse) : Prop where
  ins : ∀ b, s.ins.stamp b = some e → s'.ins.stamp b = some e
  outs : ∀ b, s.outs.stamp b = some e → s'.outs.stamp b = some e
  count : ((Finset.range g.size).filter fun b => s'.ins.stamp b ≠ some e).card + s'.stack.length =
    ((Finset.range g.size).filter fun b => s.ins.stamp b ≠ some e).card + s.stack.length

lemma Grows.refl (g : SuccGraph) (e : ℕ) (s : Sparse) : Grows g e s s :=
  ⟨fun _ h => h, fun _ h => h, rfl⟩

lemma Grows.trans {s'' : Sparse} (h : Grows g e s s') (h' : Grows g e s' s'') : Grows g e s s'' :=
  ⟨fun b hb => h'.ins b (h.ins b hb), fun b hb => h'.outs b (h.outs b hb), h'.count.trans h.count⟩

/-- A block the element is live before is marked. -/
lemma WalkInv.markIn (h : WalkInv g F e old exc s) (hlive : F.LiveIn b) (hb : b < g.size) :
    WalkInv g F e old exc (markIn e s b) ∧ (markIn e s b).ins.stamp b = some e ∧
      Grows g e s (markIn e s b) := by
  unfold Liveness.markIn
  split
  · next hmark => exact ⟨h, hmark, Grows.refl g e s⟩
  · next hnew =>
    have hstamp : ∀ c, (s.ins.record e b).stamp c = some e ↔ c = b ∨ s.ins.stamp c = some e := by
      intro c
      unfold Stamped.record
      by_cases hc : c = b
      · simp [hc]
      · simp [hc]
    refine ⟨⟨h.ins.record hnew, h.outs, h.kill, h.killLe, fun c hc => ?_, h.soundOut, fun c hc => ?_,
      fun c hc => ?_, fun p hp hkill => (hstamp p).mpr (Or.inr (h.through p hp hkill)),
      fun c x hx => ?_, h.oldOut⟩, (hstamp b).mpr (Or.inl rfl),
      ⟨fun c hc => (hstamp c).mpr (Or.inr hc), fun _ hc => hc, ?_⟩⟩
    · rcases (hstamp c).mp hc with rfl | hc
      · exact ⟨hlive, hb⟩
      · exact h.soundIn c hc
    · rcases List.mem_cons.mp hc with rfl | hc
      · exact (hstamp c).mpr (Or.inl rfl)
      · exact (hstamp c).mpr (Or.inr (h.stack c hc))
    · rcases (hstamp c).mp hc with rfl | hc
      · exact Or.inl (.head _)
      · exact (h.closed c hc).imp_left (List.mem_cons_of_mem b)
    · rw [← h.oldIn c x hx]
      unfold Stamped.record
      simp [hx]
    · have hinsert : (Finset.range g.size).filter (fun c => s.ins.stamp c ≠ some e) =
          insert b ((Finset.range g.size).filter
            fun c => (s.ins.record e b).stamp c ≠ some e) := by
        ext c
        simp only [Finset.mem_filter, Finset.mem_range, Finset.mem_insert, ne_eq, hstamp, not_or]
        constructor
        · rintro ⟨hc, hcm⟩
          by_cases hcb : c = b
          · exact Or.inl hcb
          · exact Or.inr ⟨hc, hcb, hcm⟩
        · rintro (rfl | ⟨hc, -, hcm⟩)
          · exact ⟨hb, hnew⟩
          · exact ⟨hc, hcm⟩
      rw [hinsert, Finset.card_insert_of_notMem (by simp [hstamp]), List.length_cons]
      dsimp only
      omega

/-- A block the element is live after is marked, and the element is live before it too where it is
not killed. -/
lemma WalkInv.markOut (h : WalkInv g F e old exc s) (hlive : F.LiveOut b) (hb : b < g.size) :
    WalkInv g F e old exc (markOut e s b) ∧ (markOut e s b).outs.stamp b = some e ∧
      Grows g e s (markOut e s b) := by
  have hrecord : ∀ t : Sparse, WalkInv g F e old exc t → t.outs.stamp b ≠ some e →
      (¬ F.kill b → t.ins.stamp b = some e) →
      WalkInv g F e old exc { t with outs := t.outs.record e b } ∧
        (t.outs.record e b).stamp b = some e ∧ Grows g e t { t with outs := t.outs.record e b } := by
    intro t ht hnew hin
    have hstamp : ∀ c, (t.outs.record e b).stamp c = some e ↔ c = b ∨ t.outs.stamp c = some e := by
      intro c
      unfold Stamped.record
      by_cases hc : c = b
      · simp [hc]
      · simp [hc]
    refine ⟨⟨ht.ins, ht.outs.record hnew, ht.kill, ht.killLe, ht.soundIn, fun c hc => ?_, ht.stack,
      fun c hc => (ht.closed c hc).imp_right fun hor => hor.imp_right fun hall p hp =>
        (hstamp p).mpr (Or.inr (hall p hp)), fun p hp hkill => ?_, ht.oldIn, fun c x hx => ?_⟩,
      (hstamp b).mpr (Or.inl rfl), ⟨fun _ hc => hc, fun c hc => (hstamp c).mpr (Or.inr hc), rfl⟩⟩
    · rcases (hstamp c).mp hc with rfl | hc
      · exact hlive
      · exact ht.soundOut c hc
    · rcases (hstamp p).mp hp with rfl | hp
      · exact hin hkill
      · exact ht.through p hp hkill
    · rw [← ht.oldOut c x hx]
      unfold Stamped.record
      simp [hx]
  unfold Liveness.markOut
  split
  · next hmark => exact ⟨h, hmark, Grows.refl g e s⟩
  · next hnew =>
    dsimp only
    split
    · next hkill => exact hrecord s h hnew fun hnot => absurd ((h.kill b).mp hkill) hnot
    · next hkill =>
      have hnot : ¬ F.kill b := fun hk => hkill ((h.kill b).mpr hk)
      obtain ⟨hin, hstamp, hgrows⟩ := h.markIn (BackwardFlow.liveIn_iff.mpr (Or.inr ⟨hnot, hlive⟩)) hb
      have hcomm : Liveness.markIn e { s with outs := s.outs.record e b } b =
          { Liveness.markIn e s b with outs := (Liveness.markIn e s b).outs.record e b } := by
        unfold Liveness.markIn
        split <;> rfl
      have houts : (Liveness.markIn e s b).outs = s.outs := by
        unfold Liveness.markIn
        split <;> rfl
      rw [hcomm]
      obtain ⟨hw, hmark, hgrows'⟩ := hrecord _ hin (by rwa [houts]) fun _ => hstamp
      exact ⟨hw, hmark, hgrows.trans hgrows'⟩

/-- Marking one block after another. -/
lemma WalkInv.foldl (mark : Sparse → ℕ → Sparse) (P : ℕ → Prop) (Q : Sparse → ℕ → Prop)
    (hmark : ∀ t b, WalkInv g F e old exc t → P b →
      WalkInv g F e old exc (mark t b) ∧ Q (mark t b) b ∧ Grows g e t (mark t b))
    (hQ : ∀ t t' b, Grows g e t t' → Q t b → Q t' b)
    (h : WalkInv g F e old exc s) (l : List ℕ) (hl : ∀ b ∈ l, P b) :
    WalkInv g F e old exc (l.foldl mark s) ∧ (∀ b ∈ l, Q (l.foldl mark s) b) ∧
      Grows g e s (l.foldl mark s) := by
  induction l generalizing s with
  | nil => exact ⟨h, by simp, Grows.refl g e s⟩
  | cons c l ih =>
    obtain ⟨hone, hc, hgrows⟩ := hmark s c h (hl c (.head _))
    obtain ⟨hrest, hall, hgrows'⟩ := ih hone fun b hb => hl b (List.mem_cons_of_mem c hb)
    refine ⟨hrest, fun b hb => ?_, hgrows.trans hgrows'⟩
    rcases List.mem_cons.mp hb with rfl | hb
    · exact hQ _ _ b hgrows' hc
    · exact hall b hb

/-- Going back from a block marks its predecessors. -/
lemma WalkInv.step (hsucc : F.succ = g.Edge) (h : WalkInv g F e old (fun _ => False) s)
    (hs : sparseStep g e s = some s') : WalkInv g F e old (fun _ => False) s' ∧
      (∀ b, s.ins.stamp b = some e → s'.ins.stamp b = some e) ∧
      (∀ b, s.outs.stamp b = some e → s'.outs.stamp b = some e) ∧
      ((Finset.range g.size).filter fun b => s'.ins.stamp b ≠ some e).card + s'.stack.length <
        ((Finset.range g.size).filter fun b => s.ins.stamp b ≠ some e).card + s.stack.length := by
  unfold sparseStep at hs
  split at hs
  · cases hs
  · next b rest hst =>
    obtain rfl := Option.some.inj hs
    have hb : s.ins.stamp b = some e := h.stack b (by rw [hst]; exact .head _)
    have hpop : WalkInv g F e old (fun c => c = b) { s with stack := rest } := by
      refine ⟨h.ins, h.outs, h.kill, h.killLe, h.soundIn, h.soundOut, fun c hc => h.stack c ?_,
        fun c hc => ?_, h.through, h.oldIn, h.oldOut⟩
      · rw [hst]
        exact List.mem_cons_of_mem b hc
      · rcases h.closed c hc with hmem | hno | hall
        · rw [hst] at hmem
          rcases List.mem_cons.mp hmem with rfl | hmem
          · exact Or.inr (Or.inl rfl)
          · exact Or.inl hmem
        · exact hno.elim
        · exact Or.inr (Or.inr hall)
    obtain ⟨hw, hall, hgrows⟩ := hpop.foldl (Liveness.markOut e) (fun p => g.Edge p b)
      (fun t p => t.outs.stamp p = some e)
      (fun t p ht hp => ht.markOut (Or.inr ⟨b, hsucc ▸ hp, (h.soundIn b hb).1⟩) hp.lt_size)
      (fun t t' p hg hp => hg.outs p hp) (g.predsOf b) fun p hp => SuccGraph.mem_predsOf.mp hp
    refine ⟨⟨hw.ins, hw.outs, hw.kill, hw.killLe, hw.soundIn, hw.soundOut, hw.stack, fun c hc => ?_,
      hw.through, hw.oldIn, hw.oldOut⟩, hgrows.ins, hgrows.outs, ?_⟩
    · rcases hw.closed c hc with hmem | rfl | hpreds
      · exact Or.inl hmem
      · exact Or.inr (Or.inr hall)
      · exact Or.inr (Or.inr hpreds)
    · have hcount := hgrows.count
      rw [hst, List.length_cons]
      dsimp only at hcount
      omega

/-- What the walks so far leave: the pairs of the elements below `k`. -/
structure WalksInv (g : SuccGraph) (flow : ℕ → BackwardFlow ℕ) (k : ℕ) (s : Sparse) : Prop where
  ins : s.ins.Inv k
  outs : s.outs.Inv k
  freshIn : ∀ b, s.ins.stamp b ≠ some k
  freshOut : ∀ b, s.outs.stamp b ≠ some k
  killLt : ∀ b x, s.killStamp b = some x → x < k
  stack : s.stack = []
  liveIn : ∀ e < k, ∀ b, (b, e) ∈ s.ins.pairs ↔ (flow e).LiveIn b
  liveOut : ∀ e < k, ∀ b, (b, e) ∈ s.outs.pairs ↔ (flow e).LiveOut b

lemma foldl_killStamp (l : List ℕ) (st : ℕ → Option ℕ) (e c : ℕ) :
    l.foldl (fun st b => Function.update st b (some e)) st c = if c ∈ l then some e else st c := by
  induction l generalizing st with
  | nil => simp
  | cons b l ih =>
    rw [List.foldl_cons, ih]
    by_cases hcl : c ∈ l
    · simp [hcl]
    · by_cases hcb : c = b <;> simp [hcb, hcl]

/-- The flow of an element given by seeds of element and block. -/
def seedFlow (g : SuccGraph) (use exit kill : List (ℕ × ℕ)) (e : ℕ) : BackwardFlow ℕ where
  succ := g.Edge
  use b := (e, b) ∈ use
  exit b := (e, b) ∈ exit
  kill b := (e, b) ∈ kill

/-- **A walk finds where its element is live.** -/
lemma WalksInv.walkElem {use exit kill : List (ℕ × ℕ)}
    (hexit : ∀ e b, (e, b) ∈ exit → b < g.size) (huse : ∀ e b, (e, b) ∈ use → b < g.size) {k : ℕ}
    (h : WalksInv g (seedFlow g use exit kill) k s) :
    WalksInv g (seedFlow g use exit kill) (k + 1) (walkElem g use exit kill s k) := by
  set F := seedFlow g use exit kill k with hF
  set s₀ : Sparse := { s with
    killStamp := (rowOfElem kill k).foldl (fun st b => Function.update st b (some k)) s.killStamp }
    with hs₀
  have hkill : ∀ b, s₀.killStamp b = some k ↔ F.kill b := by
    intro b
    have hmem : F.kill b ↔ b ∈ rowOfElem kill k := mem_rowOfElem.symm
    rw [hmem, hs₀]
    dsimp only
    rw [foldl_killStamp]
    by_cases hb : b ∈ rowOfElem kill k
    · simp [hb]
    · rw [if_neg hb]
      refine iff_of_false (fun hst => ?_) hb
      have := h.killLt b k hst
      omega
  have hstart : WalkInv g F k s (fun _ => False) s₀ := by
    refine ⟨h.ins, h.outs, hkill, fun b x hx => ?_, fun b hb => absurd hb (h.freshIn b),
      fun b hb => absurd hb (h.freshOut b), ?_, fun b hb => absurd hb (h.freshIn b),
      fun b hb => absurd hb (h.freshOut b), fun _ _ _ => Iff.rfl, fun _ _ _ => Iff.rfl⟩
    · rw [hs₀] at hx
      dsimp only at hx
      rw [foldl_killStamp] at hx
      split at hx
      · exact le_of_eq (Option.some.inj hx).symm
      · exact le_of_lt (h.killLt b x hx)
    · intro b hb
      rw [show s₀.stack = [] from h.stack] at hb
      cases hb
  obtain ⟨hw₁, huses, hgrows₁⟩ := hstart.foldl (markIn k) (fun b => F.use b)
    (fun t b => t.ins.stamp b = some k)
    (fun t b ht hb => ht.markIn (BackwardFlow.liveIn_iff.mpr (Or.inl hb)) (huse k b hb))
    (fun t t' b hg hb => hg.ins b hb) (rowOfElem use k) fun b hb => mem_rowOfElem.mp hb
  obtain ⟨hw₂, hexits, hgrows₂⟩ := hw₁.foldl (markOut k) (fun b => F.exit b)
    (fun t b => t.outs.stamp b = some k)
    (fun t b ht hb => ht.markOut (Or.inl hb) (hexit k b hb))
    (fun t t' b hg hb => hg.outs b hb) (rowOfElem exit k) fun b hb => mem_rowOfElem.mp hb
  set s₂ := (rowOfElem exit k).foldl (markOut k) ((rowOfElem use k).foldl (markIn k) s₀) with hs₂
  have hcount : ((Finset.range g.size).filter fun b => s₂.ins.stamp b ≠ some k).card +
      s₂.stack.length ≤ g.size := by
    rw [hgrows₂.count, hgrows₁.count, show s₀.stack = [] from h.stack]
    have hle := Finset.card_filter_le (Finset.range g.size) fun b => s₀.ins.stamp b ≠ some k
    rw [Finset.card_range] at hle
    simpa using hle
  let I : Sparse → Prop := fun t => WalkInv g F k s (fun _ => False) t ∧
    (∀ b, F.use b → t.ins.stamp b = some k) ∧ ∀ b, F.exit b → t.outs.stamp b = some k
  have hI : I s₂ := ⟨hw₂, fun b hb => hgrows₂.ins b (huses b (mem_rowOfElem.mpr hb)),
    fun b hb => hexits b (mem_rowOfElem.mpr hb)⟩
  have hstep : ∀ t t', I t → sparseStep g k t = some t' → I t' ∧
      ((Finset.range g.size).filter fun b => t'.ins.stamp b ≠ some k).card + t'.stack.length <
        ((Finset.range g.size).filter fun b => t.ins.stamp b ≠ some k).card + t.stack.length := by
    rintro t t' ⟨ht, htuse, htexit⟩ hstep
    obtain ⟨ht', hin, hout, hlt⟩ := ht.step rfl hstep
    exact ⟨⟨ht', fun b hb => hin b (htuse b hb), fun b hb => hout b (htexit b hb)⟩, hlt⟩
  have hend := whileSome_invariant I (fun t t' ht h => (hstep t t' ht h).1) g.size hI
  have hdone := whileSome_done I _ hstep hI hcount
  have heq : Liveness.walkElem g use exit kill s k = whileSome (sparseStep g k) g.size s₂ := rfl
  rw [heq]
  generalize whileSome (sparseStep g k) g.size s₂ = t at hend hdone
  have hstack : t.stack = [] := by
    unfold sparseStep at hdone
    split at hdone
    · assumption
    · cases hdone
  obtain ⟨hw, htuse, htexit⟩ := hend
  have hin : ∀ b, F.LiveIn b → t.ins.stamp b = some k := by
    intro b hlive
    refine hlive.least (fun b => t.ins.stamp b = some k) fun a ha => ?_
    rcases ha with huse | ⟨hnot, hexit | ⟨c, hac, hc⟩⟩
    · exact htuse a huse
    · exact hw.through a (htexit a hexit) hnot
    · refine hw.through a ?_ hnot
      rcases hw.closed c hc with hmem | hno | hpreds
      · rw [hstack] at hmem
        cases hmem
      · exact hno.elim
      · exact hpreds a (SuccGraph.mem_predsOf.mpr hac)
  have hout : ∀ b, F.LiveOut b → t.outs.stamp b = some k := by
    rintro b (hexit | ⟨c, hbc, hc⟩)
    · exact htexit b hexit
    · rcases hw.closed c (hin c hc) with hmem | hno | hpreds
      · rw [hstack] at hmem
        cases hmem
      · exact hno.elim
      · exact hpreds b (SuccGraph.mem_predsOf.mpr hbc)
  refine ⟨hw.ins.next, hw.outs.next, fun b hb => ?_, fun b hb => ?_,
    fun b x hx => Nat.lt_succ_of_le (hw.killLe b x hx), hstack, fun e he b => ?_, fun e he b => ?_⟩
  · have := hw.ins.stamp_le b _ hb
    omega
  · have := hw.outs.stamp_le b _ hb
    omega
  · by_cases hek : e = k
    · subst hek
      rw [hw.ins.mem_iff]
      exact ⟨fun hb => (hw.soundIn b hb).1, hin b⟩
    · rw [hw.oldIn b e hek]
      exact h.liveIn e (by omega) b
  · by_cases hek : e = k
    · subst hek
      rw [hw.outs.mem_iff]
      exact ⟨hw.soundOut b, hout b⟩
    · rw [hw.oldOut b e hek]
      exact h.liveOut e (by omega) b

/-- **The walks find the least solution.** -/
theorem SparseLive.solve_spec {use exit kill : List (ℕ × ℕ)}
    (hexit : ∀ e b, (e, b) ∈ exit → b < g.size) (huse : ∀ e b, (e, b) ∈ use → b < g.size)
    (nelems : ℕ) : WalksInv g (seedFlow g use exit kill) nelems
      (SparseLive.solve nelems g use exit kill) := by
  unfold SparseLive.solve
  induction nelems with
  | zero =>
    have hempty : Stamped.Inv 0 ⟨fun _ => none, []⟩ :=
      ⟨by simp, by simp, by simp, List.Pairwise.nil⟩
    exact ⟨hempty, hempty, by simp, by simp, by simp, rfl, by simp, by simp⟩
  | succ k ih =>
    rw [List.range_succ, List.foldl_append]
    exact ih.walkElem hexit huse

end

/-- Uses seeded once are the uses. -/
lemma mem_dedupUses {pairs : List (ℕ × ℕ)} {e b : ℕ} : (e, b) ∈ dedupUses pairs ↔ (b, e) ∈ pairs := by
  have hfold : ∀ (l : List (ℕ × ℕ)) (s : (ℕ → Option ℕ) × List (ℕ × ℕ)),
      (∀ e b, s.1 e = some b → (e, b) ∈ s.2) →
      ((e, b) ∈ (l.foldl (fun (s : (ℕ → Option ℕ) × List (ℕ × ℕ)) p =>
        if s.1 p.2 = some p.1 then s
        else (Function.update s.1 p.2 (some p.1), s.2 ++ [(p.2, p.1)])) s).2 ↔
        (e, b) ∈ s.2 ∨ (b, e) ∈ l) := by
    intro l
    induction l with
    | nil => simp
    | cons p l ih =>
      obtain ⟨c, x⟩ := p
      intro s hs
      rw [List.foldl_cons, ih, List.mem_cons]
      · split
        · next hseen =>
          have hmem := hs x c hseen
          constructor
          · exact Or.imp_right Or.inr
          · rintro (h | h | h)
            · exact Or.inl h
            · obtain ⟨rfl, rfl⟩ := Prod.mk.inj h
              exact Or.inl hmem
            · exact Or.inr h
        · simp only [List.mem_append, List.mem_singleton, Prod.mk.injEq, or_assoc, and_comm]
      · split
        · exact hs
        · intro e' b' h
          rw [List.mem_append, List.mem_singleton]
          dsimp only at h
          by_cases he : e' = x
          · subst he
            rw [Function.update_self] at h
            obtain rfl := Option.some.inj h
            exact Or.inr rfl
          · rw [Function.update_of_ne he] at h
            exact Or.inl (hs e' b' h)
  rw [dedupUses, hfold _ _ (by simp)]
  simp

/-- **The walks find the least solution of the pairs of block and element.** -/
theorem solveSparse_spec {g : SuccGraph} {use exit kill : List (ℕ × ℕ)}
    (hexit : ∀ b r, (b, r) ∈ exit → b < g.size) (huse : ∀ b r, (b, r) ∈ use → b < g.size)
    {nelems r : ℕ} (hr : r < nelems) (b : ℕ) :
    ((b, r) ∈ (solveSparse g nelems use exit kill).ins.pairs ↔
        (flowOf g use exit kill r).LiveIn b) ∧
      ((b, r) ∈ (solveSparse g nelems use exit kill).outs.pairs ↔
        (flowOf g use exit kill r).LiveOut b) := by
  have hswap : ∀ (l : List (ℕ × ℕ)) e b, (e, b) ∈ l.map Prod.swap ↔ (b, e) ∈ l := by
    intro l e b
    simp
  have hflow : seedFlow g (dedupUses use) (exit.map Prod.swap) (kill.map Prod.swap) r =
      flowOf g use exit kill r := by
    simp only [seedFlow, flowOf, mem_dedupUses, hswap]
  have hspec := @SparseLive.solve_spec g (dedupUses use) (exit.map Prod.swap)
    (kill.map Prod.swap) (fun e b h => hexit b e ((hswap _ _ _).mp h))
    (fun e b h => huse b e (mem_dedupUses.mp h)) nelems
  rw [← hflow]
  exact ⟨hspec.liveIn r hr b, hspec.liveOut r hr b⟩

end Liveness

end Badc
