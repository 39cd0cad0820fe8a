import Badc.Ssa.Liveness

/-!
# Liveness over bit rows

`solve_dense` finds the least solution of the backward equations.  A block that is not on the
worklist satisfies its equations, as only the growth of a successor's row can break them, and that
puts it back; a row never holds more than its equation gives, so rows only grow.
-/

namespace Badc

namespace Liveness

/-! ## Bit rows -/

/-- A bit of a row is a bit of its word. -/
lemma Row.isSet_eq (row : Row) (r : ℕ) : row.isSet r = (row (r / 64)).getLsbD (r % 64) := by
  have hlt : r % 64 < 64 := Nat.mod_lt _ (by norm_num)
  unfold Row.isSet
  by_cases hbit : (row (r / 64)).getLsbD (r % 64) = true
  · rw [hbit, bne_iff_ne]
    intro hzero
    have hand := congrArg (fun x : BitVec 64 => x.getLsbD (r % 64)) hzero
    simp only [BitVec.getLsbD_and, BitVec.getLsbD_shiftLeft, BitVec.getLsbD_one, hbit] at hand
    simp [hlt] at hand
  · simp only [Bool.not_eq_true] at hbit
    rw [hbit, bne_eq_false_iff_eq]
    refine BitVec.eq_of_getLsbD_eq fun i hi => ?_
    simp only [BitVec.getLsbD_and, BitVec.getLsbD_shiftLeft, BitVec.getLsbD_one]
    by_cases hir : i = r % 64
    · simp [hir, hbit]
    · simp only [hi, decide_true, Bool.true_and, BitVec.ofNat_eq_ofNat, BitVec.getLsbD_zero,
        Bool.and_eq_false_iff, decide_eq_false_iff_not, Bool.not_eq_false', decide_eq_true_eq]
      omega

/-- Setting a bit sets that one. -/
lemma Row.isSet_set {row : Row} {r r' : ℕ} :
    (row.set r).isSet r' = true ↔ row.isSet r' = true ∨ r' = r := by
  simp only [Row.isSet_eq, Row.set]
  have hlt' : r' % 64 < 64 := Nat.mod_lt _ (by norm_num)
  by_cases hw : r' / 64 = r / 64
  · rw [hw, Function.update_self]
    have hiff : r' = r ↔ r' % 64 = r % 64 := by omega
    simp only [BitVec.getLsbD_or, BitVec.getLsbD_shiftLeft, BitVec.getLsbD_one, Bool.or_eq_true, hiff]
    refine or_congr_right ?_
    simp [hlt']
    omega
  · rw [Function.update_of_ne hw]
    have hne : r' ≠ r := fun h => hw (by rw [h])
    simp [hne]

lemma Row.isSet_zero (r : ℕ) : Row.isSet (fun _ => 0) r = false := by
  simp [Row.isSet]

/-- The bits of the rows are the pairs. -/
lemma isSet_rowsOf {pairs : List (ℕ × ℕ)} {b r : ℕ} :
    (rowsOf pairs b).isSet r = true ↔ (b, r) ∈ pairs := by
  have hfold : ∀ (l : List (ℕ × ℕ)) (rows : ℕ → Row),
      (l.foldl (fun rows p => Function.update rows p.1 ((rows p.1).set p.2)) rows b).isSet r = true ↔
        (rows b).isSet r = true ∨ (b, r) ∈ l := by
    intro l
    induction l with
    | nil => simp
    | cons p l ih =>
      intro rows
      rw [List.foldl_cons, ih, List.mem_cons]
      by_cases hb : b = p.1
      · rw [hb, Function.update_self, Row.isSet_set, or_assoc]
        refine or_congr_right (or_congr_left ?_)
        constructor
        · rintro rfl
          rfl
        · exact fun h => congrArg Prod.snd h
      · rw [Function.update_of_ne hb]
        have hne : (b, r) ≠ p := fun h => hb (congrArg Prod.fst h)
        simp [hne]
  rw [rowsOf, hfold, Row.isSet_zero]
  simp

/-- A bit of the rows of some blocks put together. -/
lemma isSet_foldl_or {l : List ℕ} {live : ℕ → Row} {r : ℕ} :
    Row.isSet (fun w => l.foldl (fun acc t => acc ||| live t w) 0) r = true ↔
      ∃ t ∈ l, (live t).isSet r = true := by
  have hfold : ∀ (l : List ℕ) (acc : BitVec 64),
      (l.foldl (fun acc t => acc ||| live t (r / 64)) acc).getLsbD (r % 64) = true ↔
        acc.getLsbD (r % 64) = true ∨ ∃ t ∈ l, (live t (r / 64)).getLsbD (r % 64) = true := by
    intro l
    induction l with
    | nil => simp
    | cons t l ih =>
      intro acc
      simp only [List.foldl_cons, ih, BitVec.getLsbD_or, Bool.or_eq_true, List.mem_cons,
        exists_eq_or_imp, or_assoc]
  simp only [Row.isSet_eq, hfold]
  simp

/-! ## The worklist -/

/-- The worklist holds the queued blocks, each once. -/
structure Queue (n : ℕ) (s : Dense) : Prop where
  nodup : s.worklist.Nodup
  bound : ∀ b ∈ s.worklist, b < n
  mem_iff : ∀ b < n, b ∈ s.worklist ↔ s.queued b = true

/-- Queueing blocks queues them and nothing else, and leaves the rows. -/
lemma Queue.push_foldl {n : ℕ} {l : List ℕ} {s : Dense} (h : Queue n s) (hl : ∀ p ∈ l, p < n) :
    Queue n (l.foldl Dense.push s) ∧ (l.foldl Dense.push s).liveIn = s.liveIn ∧
      (l.foldl Dense.push s).liveOut = s.liveOut ∧
      ∀ b, (l.foldl Dense.push s).queued b = true ↔ s.queued b = true ∨ b ∈ l := by
  induction l generalizing s with
  | nil => exact ⟨h, rfl, rfl, by simp⟩
  | cons p l ih =>
    have hp := hl p (.head _)
    have hone : Queue n (s.push p) ∧ (s.push p).liveIn = s.liveIn ∧ (s.push p).liveOut = s.liveOut ∧
        ∀ b, (s.push p).queued b = true ↔ s.queued b = true ∨ b = p := by
      unfold Dense.push
      split
      · next hq =>
        refine ⟨h, rfl, rfl, fun b => ⟨Or.inl, ?_⟩⟩
        rintro (hb | rfl)
        · exact hb
        · exact hq
      · next hq =>
        have hnot : p ∉ s.worklist := fun hmem => hq ((h.mem_iff p hp).mp hmem)
        have hiff : ∀ b, Function.update s.queued p true b = true ↔ s.queued b = true ∨ b = p := by
          intro b
          by_cases hb : b = p
          · simp [hb]
          · simp [hb]
        refine ⟨⟨List.nodup_cons.mpr ⟨hnot, h.nodup⟩, ?_, fun b hb => ?_⟩, rfl, rfl, hiff⟩
        · intro b hb
          rcases List.mem_cons.mp hb with rfl | hb
          · exact hp
          · exact h.bound b hb
        · rw [hiff, List.mem_cons, h.mem_iff b hb, or_comm]
    obtain ⟨hq, hin, hout, hqueued⟩ := hone
    obtain ⟨hq', hin', hout', hqueued'⟩ := ih hq fun q hq => hl q (List.mem_cons_of_mem p hq)
    refine ⟨hq', hin'.trans hin, hout'.trans hout, fun b => ?_⟩
    rw [List.foldl_cons, hqueued', hqueued, List.mem_cons, or_assoc]

section

variable {g : SuccGraph} {words : ℕ} {use exit kill : List (ℕ × ℕ)} {s s' : Dense}

/-- What a block's rows are computed from. -/
def OutEq (g : SuccGraph) (exit : List (ℕ × ℕ)) (s : Dense) (b r : ℕ) : Prop :=
  (b, r) ∈ exit ∨ ∃ t ∈ g.of b, (s.liveIn t).isSet r = true

/-- What one visit does. -/
structure Visit (g : SuccGraph) (words : ℕ) (use exit kill : List (ℕ × ℕ)) (s s' : Dense) (b : ℕ)
    (changed : Bool) : Prop where
  out : ∀ r < 64 * words, (s'.liveOut b).isSet r = true ↔ OutEq g exit s b r
  live : ∀ r < 64 * words, (s'.liveIn b).isSet r = true ↔
    (b, r) ∈ use ∨ (b, r) ∉ kill ∧ OutEq g exit s b r
  beyond : ∀ r, 64 * words ≤ r → (s'.liveIn b).isSet r = (s.liveIn b).isSet r ∧
    (s'.liveOut b).isSet r = (s.liveOut b).isSet r
  others : ∀ c, c ≠ b → s'.liveIn c = s.liveIn c ∧ s'.liveOut c = s.liveOut c
  same : changed = false → s'.liveIn = s.liveIn
  grew : changed = true → ∃ r < 64 * words, (s'.liveIn b).isSet r ≠ (s.liveIn b).isSet r
  queue : Queue g.size s'
  queued : ∀ c, s'.queued c = true ↔
    c ≠ b ∧ s.queued c = true ∨ changed = true ∧ c ∈ g.predsOf b

/-- A visit is made of the block in front of the worklist. -/
lemma denseStep_visit (hq : Queue g.size s)
    (h : denseStep g words (rowsOf use) (rowsOf kill) (rowsOf exit) s = some s') :
    ∃ b rest changed, s.worklist = b :: rest ∧ Visit g words use exit kill s s' b changed ∧
      (changed = false → s'.worklist = rest) := by
  unfold denseStep at h
  split at h
  · cases h
  · next b rest hwl =>
    dsimp only at h
    set out : Row := fun w =>
      (g.of b).foldl (fun acc t => acc ||| s.liveIn t w) 0 ||| rowsOf exit b w with hout
    set ni : Row := fun w => rowsOf use b w ||| out w &&& ~~~ rowsOf kill b w with hni
    set changed := (List.range words).any fun w => ni w ≠ s.liveIn b w with hchanged
    set s₀ : Dense :=
      { liveIn := Function.update s.liveIn b fun w => if w < words then ni w else s.liveIn b w
        liveOut := Function.update s.liveOut b fun w => if w < words then out w else s.liveOut b w
        worklist := rest
        queued := Function.update s.queued b false } with hs₀
    have hword : ∀ r, r < 64 * words ↔ r / 64 < words := fun r => by omega
    have hnd := hq.nodup
    rw [hwl, List.nodup_cons] at hnd
    have hqueue₀ : Queue g.size s₀ := by
      refine ⟨hnd.2, fun c hc => hq.bound c (by rw [hwl]; exact List.mem_cons_of_mem b hc),
        fun c hc => ?_⟩
      by_cases hcb : c = b
      · subst hcb
        simpa [hs₀] using hnd.1
      · have hmem := hq.mem_iff c hc
        rw [hwl, List.mem_cons, or_iff_right hcb] at hmem
        simpa [hs₀, hcb] using hmem
    have hqueued₀ : ∀ c, s₀.queued c = true ↔ c ≠ b ∧ s.queued c = true := by
      intro c
      by_cases hcb : c = b <;> simp [hs₀, hcb]
    have houtBit : ∀ r, out.isSet r = true ↔ OutEq g exit s b r := by
      intro r
      have hor : out.isSet r = (Row.isSet (fun w => (g.of b).foldl
          (fun acc t => acc ||| s.liveIn t w) 0) r || (rowsOf exit b).isSet r) := by
        simp only [Row.isSet_eq, hout, BitVec.getLsbD_or]
      rw [hor, Bool.or_eq_true, isSet_foldl_or, isSet_rowsOf, or_comm, OutEq]
    have hniBit : ∀ r, ni.isSet r = true ↔ (b, r) ∈ use ∨ (b, r) ∉ kill ∧ OutEq g exit s b r := by
      intro r
      have hlt : r % 64 < 64 := Nat.mod_lt _ (by norm_num)
      have hor : ni.isSet r = ((rowsOf use b).isSet r ||
          (out.isSet r && !(rowsOf kill b).isSet r)) := by
        simp only [Row.isSet_eq, hni, BitVec.getLsbD_or, BitVec.getLsbD_and, BitVec.getLsbD_not, hlt,
          decide_true, Bool.true_and]
      rw [hor, Bool.or_eq_true, Bool.and_eq_true, houtBit, isSet_rowsOf, Bool.not_eq_true',
        ← Bool.not_eq_true, isSet_rowsOf, and_comm]
    have hbase : (∀ r < 64 * words, (s₀.liveOut b).isSet r = true ↔ OutEq g exit s b r) ∧
        (∀ r < 64 * words, (s₀.liveIn b).isSet r = true ↔
          (b, r) ∈ use ∨ (b, r) ∉ kill ∧ OutEq g exit s b r) ∧
        (∀ r, 64 * words ≤ r → (s₀.liveIn b).isSet r = (s.liveIn b).isSet r ∧
          (s₀.liveOut b).isSet r = (s.liveOut b).isSet r) ∧
        (∀ c, c ≠ b → s₀.liveIn c = s.liveIn c ∧ s₀.liveOut c = s.liveOut c) ∧
        (changed = false → s₀.liveIn = s.liveIn) ∧
        (changed = true → ∃ r < 64 * words, (s₀.liveIn b).isSet r ≠ (s.liveIn b).isSet r) := by
      refine ⟨fun r hr => ?_, fun r hr => ?_, fun r hr => ?_, fun c hc => ?_, fun hno => ?_,
        fun hyes => ?_⟩
      · rw [← houtBit, Row.isSet_eq, Row.isSet_eq, hs₀]
        simp only [Function.update_self, (hword r).mp hr, if_true]
      · rw [← hniBit, Row.isSet_eq, Row.isSet_eq, hs₀]
        simp only [Function.update_self, (hword r).mp hr, if_true]
      · have hge : ¬ r / 64 < words := fun h => absurd ((hword r).mpr h) (by omega)
        simp only [Row.isSet_eq, hs₀, Function.update_self, hge, if_false, and_self]
      · simp only [hs₀, Function.update_of_ne hc, and_self]
      · rw [hchanged, List.any_eq_false] at hno
        have hrow : (fun w => if w < words then ni w else s.liveIn b w) = s.liveIn b := by
          funext w
          split
          · next hw => simpa using hno w (List.mem_range.mpr hw)
          · rfl
        simp only [hs₀, hrow, Function.update_eq_self]
      · rw [hchanged, List.any_eq_true] at hyes
        obtain ⟨w, hw, hne⟩ := hyes
        rw [List.mem_range] at hw
        -- words that differ do in a bit
        obtain ⟨i, hi, hbit⟩ : ∃ i < 64, (ni w).getLsbD i ≠ (s.liveIn b w).getLsbD i := by
          by_contra hall
          push Not at hall
          exact (of_decide_eq_true hne) (BitVec.eq_of_getLsbD_eq hall)
        refine ⟨64 * w + i, by omega, ?_⟩
        have hdiv : (64 * w + i) / 64 = w := by omega
        have hmod : (64 * w + i) % 64 = i := by omega
        simpa only [Row.isSet_eq, hs₀, Function.update_self, hdiv, hmod, hw, if_true] using hbit
    obtain ⟨hbOut, hbIn, hbBeyond, hbOthers, hbSame, hbGrew⟩ := hbase
    cases hchg : changed with
    | false =>
      rw [hchg] at h
      obtain rfl := Option.some.inj h
      refine ⟨b, rest, false, hwl, ⟨hbOut, hbIn, hbBeyond, hbOthers, fun _ => hbSame hchg,
        (fun hc => by cases hc), hqueue₀, fun c => ?_⟩, fun _ => rfl⟩
      simp only [hqueued₀, Bool.false_eq_true, if_false, false_and, or_false]
    | true =>
      rw [hchg] at h
      obtain rfl := Option.some.inj h
      obtain ⟨hqueue, hin, hout', hqueued⟩ := hqueue₀.push_foldl (l := g.predsOf b)
        fun p hp => (SuccGraph.mem_predsOf.mp hp).lt_size
      refine ⟨b, rest, true, hwl, ⟨?_, ?_, ?_, ?_, (fun hc => by cases hc), fun _ => ?_, hqueue,
        fun c => ?_⟩, (fun hc => by cases hc)⟩
      · simpa only [if_true, hout'] using hbOut
      · simpa only [if_true, hin] using hbIn
      · simpa only [if_true, hin, hout'] using hbBeyond
      · simpa only [if_true, hin, hout'] using hbOthers
      · simpa only [if_true, hin] using hbGrew hchg
      · simp only [if_true, hqueued, hqueued₀, true_and]

/-- What the worklist keeps: rows hold live elements only, no more than their equations give, and
the rows of a block that is not queued all of it. -/
structure DenseInv (g : SuccGraph) (words : ℕ) (use exit kill : List (ℕ × ℕ)) (s : Dense) :
    Prop where
  queue : Queue g.size s
  soundIn : ∀ b r, (s.liveIn b).isSet r = true → (flowOf g use exit kill r).LiveIn b
  soundOut : ∀ b r, (s.liveOut b).isSet r = true → (flowOf g use exit kill r).LiveOut b
  below : ∀ b r, (s.liveIn b).isSet r = true → (b, r) ∈ use ∨ (b, r) ∉ kill ∧ OutEq g exit s b r
  settledIn : ∀ b < g.size, s.queued b = false → ∀ r < 64 * words,
    (b, r) ∈ use ∨ (b, r) ∉ kill ∧ OutEq g exit s b r → (s.liveIn b).isSet r = true
  settledOut : ∀ b < g.size, s.queued b = false → ∀ r < 64 * words,
    OutEq g exit s b r → (s.liveOut b).isSet r = true

/-- Rounds to come: visits of queued blocks, and of all blocks for each bit not set. -/
def denseMeasure (g : SuccGraph) (words : ℕ) (s : Dense) : ℕ :=
  ((Finset.range g.size ×ˢ Finset.range (64 * words)).filter
    fun p => (s.liveIn p.1).isSet p.2 = false).card * (g.size + 1) + s.worklist.length

lemma OutEq.liveOut {b r : ℕ} (h : OutEq g exit s b r)
    (hsound : ∀ b r, (s.liveIn b).isSet r = true → (flowOf g use exit kill r).LiveIn b) :
    (flowOf g use exit kill r).LiveOut b :=
  h.imp_right fun ⟨t, ht, hlive⟩ => ⟨t, ht, hsound t r hlive⟩

/-- Rows grow in a visit. -/
lemma Visit.mono (hs : DenseInv g words use exit kill s) {b : ℕ} {changed : Bool}
    (hv : Visit g words use exit kill s s' b changed) {c r : ℕ} (h : (s.liveIn c).isSet r = true) :
    (s'.liveIn c).isSet r = true := by
  by_cases hc : c = b
  · subst hc
    by_cases hr : r < 64 * words
    · exact (hv.live r hr).mpr (hs.below c r h)
    · rw [(hv.beyond r (by omega)).1]
      exact h
  · rw [(hv.others c hc).1]
    exact h

/-- A visit of a queued block keeps the invariant. -/
lemma DenseInv.visit (hs : DenseInv g words use exit kill s) {b : ℕ} {changed : Bool}
    (hv : Visit g words use exit kill s s' b changed) : DenseInv g words use exit kill s' := by
  have hmono : ∀ c r, OutEq g exit s c r → OutEq g exit s' c r := fun c r h =>
    h.imp_right fun ⟨t, ht, hlive⟩ => ⟨t, ht, hv.mono hs hlive⟩
  -- the row of a successor can only grow if the block is queued for it
  have hback : ∀ c, s'.queued c = false → ∀ r, OutEq g exit s' c r → OutEq g exit s c r := by
    intro c hc r h
    refine h.imp_right fun ⟨t, ht, hlive⟩ => ⟨t, ht, ?_⟩
    by_cases htb : t = b
    · cases hchg : changed with
      | false => rwa [hv.same hchg] at hlive
      | true =>
        subst htb
        have hqueued := (hv.queued c).mpr (Or.inr ⟨hchg, SuccGraph.mem_predsOf.mpr ht⟩)
        rw [hc] at hqueued
        cases hqueued
    · rwa [(hv.others t htb).1] at hlive
  have hbefore : ∀ c, c ≠ b → s'.queued c = false → s.queued c = false := by
    intro c hcb hc
    by_contra hne
    have hqueued := (hv.queued c).mpr (Or.inl ⟨hcb, by simpa using hne⟩)
    rw [hc] at hqueued
    cases hqueued
  refine ⟨hv.queue, fun c r h => ?_, fun c r h => ?_, fun c r h => ?_, fun c hc hcq r hr h => ?_,
    fun c hc hcq r hr h => ?_⟩
  · by_cases hcb : c = b
    · subst hcb
      by_cases hr : r < 64 * words
      · exact BackwardFlow.liveIn_iff.mpr (((hv.live r hr).mp h).imp_right fun ⟨hkill, hout⟩ =>
          ⟨hkill, hout.liveOut hs.soundIn⟩)
      · exact hs.soundIn c r (by rwa [(hv.beyond r (by omega)).1] at h)
    · exact hs.soundIn c r (by rwa [(hv.others c hcb).1] at h)
  · by_cases hcb : c = b
    · subst hcb
      by_cases hr : r < 64 * words
      · exact ((hv.out r hr).mp h).liveOut hs.soundIn
      · exact hs.soundOut c r (by rwa [(hv.beyond r (by omega)).2] at h)
    · exact hs.soundOut c r (by rwa [(hv.others c hcb).2] at h)
  · by_cases hcb : c = b
    · subst hcb
      by_cases hr : r < 64 * words
      · exact ((hv.live r hr).mp h).imp_right fun ⟨hkill, hout⟩ => ⟨hkill, hmono c r hout⟩
      · rw [(hv.beyond r (by omega)).1] at h
        exact (hs.below c r h).imp_right fun ⟨hkill, hout⟩ => ⟨hkill, hmono c r hout⟩
    · rw [(hv.others c hcb).1] at h
      exact (hs.below c r h).imp_right fun ⟨hkill, hout⟩ => ⟨hkill, hmono c r hout⟩
  · have h' : (c, r) ∈ use ∨ (c, r) ∉ kill ∧ OutEq g exit s c r :=
      h.imp_right fun ⟨hkill, hout⟩ => ⟨hkill, hback c hcq r hout⟩
    by_cases hcb : c = b
    · subst hcb
      exact (hv.live r hr).mpr h'
    · rw [(hv.others c hcb).1]
      exact hs.settledIn c hc (hbefore c hcb hcq) r hr h'
  · by_cases hcb : c = b
    · subst hcb
      exact (hv.out r hr).mpr (hback c hcq r h)
    · rw [(hv.others c hcb).2]
      exact hs.settledOut c hc (hbefore c hcb hcq) r hr (hback c hcq r h)

/-- A visit lowers the measure. -/
lemma Visit.measure_lt (hs : DenseInv g words use exit kill s) {b : ℕ} {rest : List ℕ}
    {changed : Bool} (hwl : s.worklist = b :: rest)
    (hv : Visit g words use exit kill s s' b changed)
    (hrest : changed = false → s'.worklist = rest) :
    denseMeasure g words s' < denseMeasure g words s := by
  cases hchg : changed with
  | false =>
    unfold denseMeasure
    rw [hv.same hchg, hrest hchg, hwl, List.length_cons]
    omega
  | true =>
    obtain ⟨r, hr, hne⟩ := hv.grew hchg
    have hlen : s'.worklist.length ≤ g.size := by
      have hsub : s'.worklist.Subperm (List.range g.size) := hv.queue.nodup.subperm
        fun c hc => List.mem_range.mpr (hv.queue.bound c hc)
      simpa using hsub.length_le
    have hb : b < g.size := hs.queue.bound b (by rw [hwl]; exact .head _)
    have hunset : (s.liveIn b).isSet r = false := by
      by_contra hset
      simp only [Bool.not_eq_false] at hset
      exact hne ((hv.mono hs hset).trans hset.symm)
    have hcard : ((Finset.range g.size ×ˢ Finset.range (64 * words)).filter
        fun p => (s'.liveIn p.1).isSet p.2 = false).card <
          ((Finset.range g.size ×ˢ Finset.range (64 * words)).filter
            fun p => (s.liveIn p.1).isSet p.2 = false).card := by
      refine Finset.card_lt_card ((Finset.ssubset_iff_of_subset fun p hp => ?_).mpr ⟨(b, r), ?_, ?_⟩)
      · rw [Finset.mem_filter] at hp ⊢
        refine ⟨hp.1, ?_⟩
        by_contra hset
        have hset' := hv.mono hs (by simpa using hset)
        rw [hp.2] at hset'
        cases hset'
      · simp [hb, hr, hunset]
      · rw [Finset.mem_filter]
        rintro ⟨-, hstill⟩
        exact hne (hstill.trans hunset.symm)
    unfold denseMeasure
    have hmul := Nat.mul_le_mul_right (g.size + 1) hcard
    rw [Nat.succ_mul] at hmul
    omega

/-- The order of a backward sweep lists every block once. -/
lemma backwardOrder_spec (hg : g.Closed) :
    (backwardOrder g).Nodup ∧ ∀ b, b ∈ backwardOrder g ↔ b < g.size := by
  rcases Nat.eq_zero_or_pos g.size with h0 | h0
  · simp [backwardOrder, SuccGraph.postorder, h0]
  · obtain ⟨hnd, hmem, -⟩ := SuccGraph.postorder_spec hg h0
    refine ⟨List.nodup_append.mpr ⟨hnd, List.nodup_range.filter _, ?_⟩, fun b => ?_⟩
    · rintro a ha b hb rfl
      have hnot := (List.mem_filter.mp hb).2
      simp [ha] at hnot
    · rw [backwardOrder, List.mem_append, List.mem_filter, List.mem_range]
      constructor
      · rintro (hb | hb)
        · exact ((hmem b).mp hb).lt_size hg h0
        · exact hb.1
      · intro hb
        by_cases hpost : b ∈ g.postorder
        · exact Or.inl hpost
        · exact Or.inr ⟨hb, by simpa using hpost⟩

/-- **The worklist finds the least solution over bit rows.** -/
theorem solveDense_spec (hg : g.Closed) (hexit : ∀ b r, (b, r) ∈ exit → b < g.size)
    (huse : ∀ b r, (b, r) ∈ use → b < g.size) {b r : ℕ} (hb : b < g.size) (hr : r < 64 * words) :
    (((solveDense g words use exit kill).liveIn b).isSet r = true ↔
        (flowOf g use exit kill r).LiveIn b) ∧
      (((solveDense g words use exit kill).liveOut b).isSet r = true ↔
        (flowOf g use exit kill r).LiveOut b) := by
  obtain ⟨hnd, hmem⟩ := backwardOrder_spec hg
  have hstart : DenseInv g words use exit kill
      ⟨fun _ _ => 0, fun _ _ => 0, backwardOrder g, fun _ => true⟩ := by
    refine ⟨⟨hnd, fun b hb => (hmem b).mp hb, fun b hb => ?_⟩, ?_, ?_, ?_, ?_, ?_⟩
    · simpa using (hmem b).mpr hb
    · intro b r h
      rw [Row.isSet_zero] at h
      cases h
    · intro b r h
      rw [Row.isSet_zero] at h
      cases h
    · intro b r h
      rw [Row.isSet_zero] at h
      cases h
    · intro b _ hq
      cases hq
    · intro b _ hq
      cases hq
  have hstep : ∀ s s', DenseInv g words use exit kill s →
      denseStep g words (rowsOf use) (rowsOf kill) (rowsOf exit) s = some s' →
      DenseInv g words use exit kill s' ∧ denseMeasure g words s' < denseMeasure g words s := by
    intro s s' hs h
    obtain ⟨b, rest, changed, hwl, hv, hrest⟩ := denseStep_visit hs.queue h
    exact ⟨hs.visit hv, hv.measure_lt hs hwl hrest⟩
  have hfuel : denseMeasure g words
      ⟨fun _ _ => 0, fun _ _ => 0, backwardOrder g, fun _ => true⟩ ≤ denseFuel g words := by
    have hlen : (backwardOrder g).length ≤ g.size := by
      have hsub : (backwardOrder g).Subperm (List.range g.size) := hnd.subperm
        fun c hc => List.mem_range.mpr ((hmem c).mp hc)
      simpa using hsub.length_le
    have hcard := Finset.card_filter_le (Finset.range g.size ×ˢ Finset.range (64 * words))
      fun _ => Row.isSet (fun _ => 0) 0 = false
    have hprod : (Finset.range g.size ×ˢ Finset.range (64 * words)).card = g.size * (64 * words) := by
      simp
    unfold denseMeasure denseFuel
    simp only [Row.isSet_zero, hprod, Finset.filter_true] at hcard ⊢
    omega
  have hinv := whileSome_invariant (DenseInv g words use exit kill)
    (fun s s' hs h => (hstep s s' hs h).1) (denseFuel g words) hstart
  have hdone := whileSome_done (DenseInv g words use exit kill) (denseMeasure g words) hstep hstart
    hfuel
  have hempty : (solveDense g words use exit kill).worklist = [] := by
    unfold denseStep at hdone
    split at hdone
    · assumption
    · cases hdone
  change DenseInv g words use exit kill (solveDense g words use exit kill) at hinv
  generalize solveDense g words use exit kill = s at hinv hempty
  have hidle : ∀ c < g.size, s.queued c = false := by
    intro c hc
    by_contra hne
    have := (hinv.queue.mem_iff c hc).mpr (by simpa using hne)
    rw [hempty] at this
    cases this
  have hin : ∀ c, (flowOf g use exit kill r).LiveIn c → c < g.size ∧ (s.liveIn c).isSet r = true := by
    intro c hlive
    refine hlive.least (fun c => c < g.size ∧ (s.liveIn c).isSet r = true) fun c h => ?_
    have hc : c < g.size := by
      rcases h with h | ⟨-, h | ⟨t, ht, -⟩⟩
      · exact huse c r h
      · exact hexit c r h
      · exact SuccGraph.Edge.lt_size ht
    refine ⟨hc, hinv.settledIn c hc (hidle c hc) r hr (h.imp_right fun h =>
      ⟨h.1, h.2.imp_right fun h => ?_⟩)⟩
    obtain ⟨t, ht, hlive⟩ := h
    exact ⟨t, ht, hlive.2⟩
  refine ⟨⟨hinv.soundIn b r, fun h => (hin b h).2⟩, ⟨hinv.soundOut b r, fun h => ?_⟩⟩
  refine hinv.settledOut b hb (hidle b hb) r hr (h.imp_right fun h => ?_)
  obtain ⟨t, ht, hlive⟩ := h
  exact ⟨t, ht, (hin t hlive).2⟩

end

end Liveness

end Badc
