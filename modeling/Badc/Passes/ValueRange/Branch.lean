import Badc.Passes.ValueRange.Meaning

/-!
# Facts on a branch edge

The facts `apply_edge` of `src/c5/codegen/passes/value_range.rs` gains from a branch condition are
true where the edge was taken (`Known.applyEdge`): the bounds of the edge, the comparison the
condition is and its negation, and the bounds of the values under it, as far as `peel` rewrites
the comparison into one on the value its operand was built from (`Tested.peel`).
-/

namespace Badc

open ValueRange

lemma truth_of_ite {A B P : Prop} [Decidable A] [Decidable B] [Decidable P] {c t : Bool}
    (hA : A → decide P = c) (hB : B → decide P = !c)
    (h : (if A then some c else if B then some (!c) else none) = some t) : decide P = t := by
  split at h
  · exact (hA ‹_›).trans (Option.some.inj h)
  · obtain ⟨hb, h⟩ := Option.ite_none_right_eq_some.mp h
    exact (hB hb).trans (Option.some.inj h)

namespace Range

/-- What the operand ranges decide, the comparison computes. -/
theorem applyBinop_of_decide {op : BinOp} {a b : Range} {t : Bool} {x y : Word} (ha : a.Has x)
    (hb : b.Has y) (h : Range.decide op a b = some t) : applyBinop op x y = some (boolWord t) := by
  obtain ⟨ha1, ha2⟩ := id ha
  obtain ⟨hb1, hb2⟩ := id hb
  have heq : x.toInt = y.toInt ↔ x = y := BitVec.toInt_inj
  unfold Range.decide at h
  cases hop : comparison op with
  | none => simp [hop] at h
  | some unsigned =>
    simp only [hop] at h
    obtain ⟨hsign, hite⟩ := Option.ite_none_left_eq_some.mp h
    have hnat : unsigned = true → x.toInt = x.toNat ∧ y.toInt = y.toNat := by
      rintro rfl
      simp only [Bool.true_and, Bool.not_eq_true', Bool.not_eq_false, Bool.and_eq_true] at hsign
      exact ⟨(toNat_of_nonneg (nonneg_of_has hsign.1 ha)).symm,
        (toNat_of_nonneg (nonneg_of_has hsign.2 hb)).symm⟩
    cases op with
    | eq | ne | lt | gt | le | ge =>
      simp only [applyBinop]
      refine congrArg (fun t => some (boolWord t)) (truth_of_ite (fun hA => ?_) (fun hB => ?_) hite)
      all_goals
        simp only [Bool.not_true, Bool.not_false, Bool.and_eq_true, decide_eq_true_eq,
          Bool.or_eq_true, decide_eq_false_iff_not,
          ne_eq, not_not, ← heq] at *
        omega
    | ult | ugt | ule | uge =>
      obtain rfl := Option.some.inj hop
      obtain ⟨hx, hy⟩ := hnat rfl
      simp only [applyBinop]
      refine congrArg (fun t => some (boolWord t)) (truth_of_ite (fun hA => ?_) (fun hB => ?_) hite)
      all_goals
        simp only [Bool.not_true, decide_eq_true_eq, decide_eq_false_iff_not] at *
        omega
    | _ => cases hop

end Range

namespace ValueRange

variable {op op' : BinOp} {x y : Word} {t : Bool}

lemma applyBinop_negate (h : negate op = some op') (hcmp : applyBinop op x y = some (boolWord t)) :
    comparison op' = comparison op ∧ applyBinop op' x y = some (boolWord !t) := by
  cases op with
  | eq | ne | lt | gt | le | ge | ult | ugt | ule | uge =>
    obtain rfl := Option.some.inj h
    obtain rfl := boolWord_inj (Option.some.inj hcmp)
    refine ⟨rfl, ?_⟩
    simp only [applyBinop, ← decide_not, not_le, not_lt, ne_eq, not_not]
  | _ => cases h

/-- What the walk's reasoning rests on: a verified function whose widths agree, and parameters in
their ranges. -/
structure Setting (m : Machine) (f : FunctionSsa) (params : List Range) : Prop where
  verified : Verified f
  widths : WidthsAgree f
  params : m.ParamsIn params
  loads : FpLoadsAgree f

section Run

variable {m : Machine} {f : FunctionSsa} {params : List Range} {w : World m.Ext} {s : State m.Ext}
  {blk : Block} {facts : Facts}

lemma inWord_held (f : FunctionSsa) (params : List Range) (facts : Facts) (v : ℕ) :
    ((Tables.of f params).held facts v).InWord := by
  have := Range.inWord_iff.mp (Ranges.inWord_ofDef f params v)
  exact Range.inWord_iff.mpr ⟨this.1.trans (le_max_right _ _), (min_le_right _ _).trans this.2⟩

lemma Known.has_held (hc : Setting m f params) (hs : m.Reaches f w s)
    (hblk : f.blocks[s.block]? = some blk) (hk : Known m f (Point.of f s) facts) {v : ℕ} {x : Word}
    (hv : Held f s.block s.pc v) (hx : s.regs v = some (.word x)) :
    ((Tables.of f params).held facts v).Has x := by
  have hden := den_keyOf hc.verified hc.widths.marks hs hblk hv
  rw [hx] at hden
  exact Range.has_meet.mpr
    ⟨hk.has hc.loads (agrees_of hc.verified hc.widths.marks hs) hden,
      Ranges.has_ofDef hc.verified hc.widths hc.params hs hv hx⟩

/-- The comparison of a held value with a word has the given truth. -/
def Tested (m : Machine) (f : FunctionSsa) (s : State m.Ext) (op : BinOp) (lhs : ℕ) (k : Word)
    (narrow holds : Bool) : Prop :=
  (comparison op).isSome ∧ ∃ x, Held f s.block s.pc lhs ∧ s.regs lhs = some (.word x) ∧
    m.intBinop op narrow x k = some (boolWord holds)

/-- The reading of a comparison at a width. -/
def cmpWidth (op : BinOp) (narrow : Bool) : Width :=
  if !narrow then .full else if comparison op = some true then .zext32 else .sext32

/-- A comparison compares what its width reads. -/
lemma intBinop_of_comparison (hop : (comparison op).isSome) (narrow : Bool) (x y : Word) :
    m.intBinop op narrow x y =
      applyBinop op ((cmpWidth op narrow).read x) ((cmpWidth op narrow).read y) := by
  cases op with
  | eq | ne | lt | gt | le | ge | ult | ugt | ule | uge =>
    cases narrow <;>
      simp [Machine.intBinop, isDivmodOp, isIntComparisonOp, Machine.divTraps, foldAtWidth,
        foldBinop, isFpOp, isFpArithOp, isFpComparisonOp, isUnsignedCmp, cmpWidth, comparison,
        Width.read]
  | _ => cases hop

/-- A comparison settled on an edge, and its negation, hold there. -/
lemma Known.settleCompare (hc : Setting m f params) (hs : m.Reaches f w s)
    (hk : Known m f (Point.of f s) facts) {lhs : ℕ} {k : Word} {narrow holds : Bool}
    (ht : Tested m f s op lhs k narrow holds) :
    Known m f (Point.of f s) ((Tables.of f params).settleCompare op lhs k narrow holds facts) := by
  obtain ⟨hop, x, hheld, hx, hcmp⟩ := ht
  have hagree := agrees_of hc.verified hc.widths.marks hs
  have hone : ∀ {facts : Facts} {op : BinOp} {t : Bool}, Known m f (Point.of f s) facts →
      m.intBinop op narrow x k = some (boolWord t) → Known m f (Point.of f s)
        (facts.narrow (cmpKey (valueNumbers f) lhs op k narrow) (.exact (boolWord t))) := by
    intro facts op t hk hcmp
    refine hk.narrow hc.loads hagree ⟨_, ⟨x, names_of hheld hx, rfl⟩, fun y hy => ?_⟩
    rw [hcmp] at hy
    obtain rfl := Val.word.inj (Option.some.inj hy)
    exact Range.has_exact _
  unfold Tables.settleCompare
  simp only [List.foldl_cons, List.foldl_nil, hop, if_true]
  have hfirst := hone hk hcmp
  cases hneg : negate op with
  | none => exact hfirst
  | some op' =>
    rw [intBinop_of_comparison hop] at hcmp
    obtain ⟨hsame, hcmp'⟩ := applyBinop_negate hneg hcmp
    have hop' : (comparison op').isSome := hsame ▸ hop
    have hwidth : cmpWidth op' narrow = cmpWidth op narrow := by simp [cmpWidth, hsame]
    simp only [hop', if_true]
    refine hone hfirst ?_
    rw [intBinop_of_comparison hop', hwidth]
    exact hcmp'

/-- Masking what lies below a low mask changes nothing. -/
lemma and_of_isLowMask {a c : Word} (hc : Range.isLowMask c = true)
    (ha : (⟨0, c.toInt⟩ : Range).Has a) : a &&& c = a := by
  obtain ⟨ha0, hac⟩ : 0 ≤ a.toInt ∧ a.toInt ≤ c.toInt := ha
  simp only [Range.isLowMask, Bool.and_eq_true, decide_eq_true_eq] at hc
  obtain ⟨hpos, hmask⟩ := hc
  have hcn := Range.toNat_of_nonneg hpos.le
  have han := Range.toNat_of_nonneg ha0
  have hlt := (Range.toInt_mem c).2
  have hsucc : (c + 1).toNat = c.toNat + 1 := by
    rw [BitVec.toNat_add, Nat.mod_eq_of_lt]
    · rfl
    · have : (1 : Word).toNat = 1 := rfl
      omega
  have hand : (c.toNat + 1) &&& (c.toNat + 1 - 1) = 0 := by
    have := congrArg BitVec.toNat hmask
    rw [BitVec.toNat_and, hsucc] at this
    rw [Nat.and_comm]
    exact this
  obtain ⟨k, hk⟩ := (Nat.and_sub_one_eq_zero_iff_isPowerOfTwo (Nat.succ_ne_zero _)).mp hand
  apply BitVec.eq_of_toNat_eq
  rw [BitVec.toNat_and, show c.toNat = 2 ^ k - 1 by omega, Nat.and_two_pow_sub_one_eq_mod,
    Nat.mod_eq_of_lt]
  omega

/-- Undoing a step under a comparison keeps its truth. -/
lemma Tested.peel (hc : Setting m f params) (hs : m.Reaches f w s)
    (hblk : f.blocks[s.block]? = some blk) {lhs inner : ℕ} {k next : Word} {holds : Bool}
    (ht : Tested m f s op lhs k false holds)
    (hpeel : (Tables.of f params).peel op lhs k = some (inner, next)) :
    Tested m f s op inner next false holds := by
  obtain ⟨hop, x, hheld, hx, hcmp⟩ := ht
  refine ⟨hop, ?_⟩
  simp only [intBinop_of_comparison hop] at hcmp ⊢
  change applyBinop op x k = _ at hcmp
  change ∃ x, _ ∧ _ ∧ applyBinop op x next = _
  unfold Tables.peel at hpeel
  split at hpeel
  · rename_i step inner' c hinst
    obtain ⟨a, ⟨hin, ha⟩, hstep⟩ := hs.binopI_eq hc.verified hblk hheld hinst hx
    -- An equality with the result is one with the operand that gives it.
    have hiff : ∀ {k' : Word}, (x = k ↔ a = k') → op = .eq ∨ op = .ne →
        applyBinop op a k' = applyBinop op x k := by
      rintro k' h (rfl | rfl) <;> simp [applyBinop, h]
    cases step with
    | and =>
      rw [Machine.binop_plain rfl rfl rfl] at hstep
      obtain ⟨hmask, heq⟩ := Option.ite_none_right_eq_some.mp hpeel
      obtain ⟨rfl, rfl⟩ := Prod.mk.inj (Option.some.inj heq)
      rw [Bool.and_eq_true] at hmask
      have hdef := Ranges.has_ofDef hc.verified hc.widths hc.params hs hin ha
      rw [applyBinop, and_of_isLowMask hmask.1 (Range.has_of_contains hmask.2 hdef)] at hstep
      obtain rfl := Option.some.inj hstep
      exact ⟨a, hin, ha, hcmp⟩
    | xor | add | sub =>
      rw [Machine.binop_plain rfl rfl rfl] at hstep
      obtain rfl := Option.some.inj hstep
      obtain ⟨heq, hnext⟩ := Option.ite_none_right_eq_some.mp hpeel
      obtain ⟨rfl, rfl⟩ := Prod.mk.inj (Option.some.inj hnext)
      refine ⟨a, hin, ha, (hiff ?_ (by simpa using heq)).trans hcmp⟩
      first
      | exact BitVec.sub_eq_iff_eq_add
      | exact ⟨fun h => (BitVec.sub_eq_iff_eq_add.mpr h.symm).symm,
          fun h => (BitVec.sub_eq_iff_eq_add.mp h.symm).symm⟩
      | exact ⟨fun h => by rw [← h, BitVec.xor_assoc, BitVec.xor_self, BitVec.xor_zero],
          fun h => by rw [h, BitVec.xor_assoc, BitVec.xor_self, BitVec.xor_zero]⟩
    | _ => cases hpeel
  · cases hpeel

/-- The facts are true in a state, and so are the loads of the current epoch: a load of the shape
would read what they hold. -/
structure Sound (m : Machine) (f : FunctionSsa) (env : Env) (s : State m.Ext) : Prop where
  known : Known m f (Point.of f s) env.facts
  current : ∀ v ek, Held f s.block s.pc v → loadExprKey f (valueNumbers f) v = some ek →
    env.loadEpoch v = env.epoch → Den m f (Point.of f s) ek (s.regs v)

/-- The bound a comparison implies is true, on its operand and on the load that is. -/
lemma Sound.boundFacts (hc : Setting m f params) (hs : m.Reaches f w s)
    (hblk : f.blocks[s.block]? = some blk) {env : Env} (henv : Sound m f env s)
    {holds : Bool} {lhs : ℕ} {k : Word} (hk : Known m f (Point.of f s) facts)
    (ht : Tested m f s op lhs k false holds) : Known m f (Point.of f s)
      ((Tables.of f params).boundFacts env op holds lhs k facts) := by
  have hagree := agrees_of hc.verified hc.widths.marks hs
  obtain ⟨hop, x, hheld, hx, hcmp⟩ := ht
  rw [intBinop_of_comparison hop] at hcmp
  unfold Tables.boundFacts
  split
  · rename_i r hr
    have hhas : r.Has x := has_implied (Range.has_exact k)
      (hk.has_held hc hs hblk hheld hx) hcmp hr
    have hholds : ∀ {key}, Den m f (Point.of f s) key (s.regs lhs) →
        Holds m f (Point.of f s) key r := by
      refine fun hden => ⟨_, hden, fun y hy => ?_⟩
      rw [hx] at hy
      obtain rfl := Val.word.inj (Option.some.inj hy)
      exact hhas
    have hown := hk.narrow hc.loads hagree
      (hholds (den_keyOf hc.verified hc.widths.marks hs hblk hheld))
    dsimp only
    split
    · rename_i ek hek
      split
      · exact hown.narrow hc.loads hagree (hholds (henv.current lhs ek hheld hek ‹_›))
      · exact hown
    · exact hown
  · exact hk

/-- Walking down the expression a comparison was built from keeps the facts true. -/
lemma Sound.peelFacts (hc : Setting m f params) (hs : m.Reaches f w s)
    (hblk : f.blocks[s.block]? = some blk) {env : Env} (henv : Sound m f env s)
    {narrow holds : Bool} {fuel lhs : ℕ} {k : Word} (hk : Known m f (Point.of f s) facts)
    (ht : Tested m f s op lhs k narrow holds) : Known m f (Point.of f s)
      ((Tables.of f params).peelFacts env op narrow holds fuel lhs k facts) := by
  induction fuel generalizing lhs k facts with
  | zero => exact hk
  | succ fuel ih =>
    unfold Tables.peelFacts
    have hk := hk.settleCompare hc hs ht
    generalize (Tables.of f params).settleCompare op lhs k narrow holds facts = facts₁ at hk
    cases narrow with
    | true => exact hk
    | false =>
      simp only [Bool.false_eq_true, if_false]
      have hk₂ := henv.boundFacts hc hs hblk hk ht
      split
      · rename_i inner next hpeel
        exact ih hk₂ (ht.peel hc hs hblk hpeel)
      · exact hk₂

/-- No condition of a two-way branch other than a comparison is marked for 32-bit operands. -/
def TestMarks (f : FunctionSsa) : Prop :=
  ∀ (b : ℕ) blk cond target other, f.blocks[b]? = some blk →
    blk.terminator = .bz cond target other ∨ blk.terminator = .bnz cond target other →
    isCmp32 f cond = true →
    ∃ inst op, f.insts[cond]? = some inst ∧ inst.op? = some op ∧ (comparison op).isSome

lemma eq_boolWord_of_applyBinop {x y z : Word} (hop : (comparison op).isSome)
    (h : applyBinop op x y = some z) : z = boolWord (decide (z ≠ 0)) := by
  have hbool : ∃ t : Bool, z = boolWord t := by
    cases op with
    | eq | ne | lt | gt | le | ge | ult | ugt | ule | uge =>
      exact ⟨_, (Option.some.inj h).symm⟩
    | _ => cases hop
  obtain ⟨t, rfl⟩ := hbool
  cases t <;> rfl

lemma cmpWidth_widthOf (f : FunctionSsa) (v : ℕ) (op : BinOp) :
    cmpWidth op (widthOf f v op ≠ .full) = widthOf f v op := by
  unfold cmpWidth widthOf
  cases isCmp32 f v with
  | false => rfl
  | true => by_cases h : comparison op = some true <;> simp [h]

lemma Tested.of_comparison {op : BinOp} {v lhs : ℕ} {x y z : Word}
    (hop : (comparison op).isSome) (hheld : Held f s.block s.pc lhs)
    (hx : s.regs lhs = some (.word x)) (h : m.binop f v op x y = some z) :
    Tested m f s op lhs y (widthOf f v op ≠ .full) (decide (z ≠ 0)) := by
  refine ⟨hop, x, hheld, hx, ?_⟩
  have hcmp := Machine.binop_of_comparison hop h
  rw [intBinop_of_comparison hop, cmpWidth_widthOf, hcmp]
  exact congrArg some (eq_boolWord_of_applyBinop hop hcmp)

lemma Tested.of_condition {cond : ℕ} {x : Word} (hmark : isCmp32 f cond = false)
    (hheld : Held f s.block s.pc cond) (hx : s.regs cond = some (.word x)) :
    Tested m f s .ne cond 0 (widthOf f cond .ne ≠ .full) (decide (x ≠ 0)) := by
  refine ⟨rfl, x, hheld, hx, ?_⟩
  rw [intBinop_of_comparison rfl, cmpWidth_widthOf]
  simp [widthOf, hmark, Width.read, applyBinop]

/-- The comparison a condition settles has the condition's truth. -/
lemma Tested.of_settledCompare (hc : Setting m f params) (hs : m.Reaches f w s)
    (hblk : f.blocks[s.block]? = some blk) (hk : Known m f (Point.of f s) facts) {cond lhs : ℕ}
    {k x : Word} (hheld : Held f s.block s.pc cond) (hx : s.regs cond = some (.word x))
    (hmark : isCmp32 f cond = true →
      ∃ inst op, f.insts[cond]? = some inst ∧ inst.op? = some op ∧ (comparison op).isSome)
    (h : (Tables.of f params).settledCompare facts cond = some (op, lhs, k)) :
    Tested m f s op lhs k (widthOf f cond op ≠ .full) (decide (x ≠ 0)) := by
  have hzero : ∀ {inst}, f.insts[cond]? = some inst →
      (∀ op, inst.op? = some op → (comparison op).isSome = false) →
      Tested m f s .ne cond 0 (widthOf f cond .ne ≠ .full) (decide (x ≠ 0)) := by
    intro inst hinst hno
    refine .of_condition (Bool.eq_false_iff.mpr fun hm => ?_) hheld hx
    obtain ⟨inst', op', hinst', hop', hcmp⟩ := hmark hm
    obtain rfl := Option.some.inj (hinst.symm.trans hinst')
    rw [hno op' hop'] at hcmp
    cases hcmp
  unfold Tables.settledCompare at h
  split at h
  · rename_i op' lhs' k' hinst
    split at h
    · rename_i hop
      obtain ⟨rfl, rfl, rfl⟩ : op' = op ∧ lhs' = lhs ∧ k' = k := by simpa using h
      obtain ⟨a, ⟨hheld', ha⟩, hbin⟩ := hs.binopI_eq hc.verified hblk hheld hinst hx
      exact .of_comparison hop hheld' ha hbin
    · rename_i hop
      obtain ⟨rfl, rfl, rfl⟩ : BinOp.ne = op ∧ cond = lhs ∧ 0 = k := by simpa using h
      refine hzero hinst fun op'' hop'' => ?_
      obtain rfl := Option.some.inj hop''
      simpa using hop
  · rename_i op' lhs' rhs hinst
    split at h
    · rename_i hop
      obtain ⟨hone, heq⟩ := Option.ite_none_right_eq_some.mp h
      simp only [Option.some.injEq, Prod.mk.injEq] at heq
      obtain ⟨rfl, rfl, rfl⟩ := heq
      obtain ⟨a, b, ⟨hheld', ha⟩, ⟨hheldr, hb⟩, hbin⟩ :=
        hs.binop_eq hc.verified hblk hheld hinst hx
      -- The right operand's range is one word.
      have hhas := hk.has_held hc hs hblk hheldr hb
      have hlo : ((Tables.of f params).held facts rhs).lo = b.toInt :=
        le_antisymm hhas.1 (hone.1 ▸ hhas.2)
      rw [hlo, BitVec.ofInt_toInt]
      exact .of_comparison hop hheld' ha hbin
    · rename_i hop
      obtain ⟨rfl, rfl, rfl⟩ : BinOp.ne = op ∧ cond = lhs ∧ 0 = k := by simpa using h
      refine hzero hinst fun op'' hop'' => ?_
      obtain rfl := Option.some.inj hop''
      simpa using hop
  · rename_i inst hnoI hno hinst
    obtain ⟨rfl, rfl, rfl⟩ : BinOp.ne = op ∧ cond = lhs ∧ 0 = k := by simpa using h
    refine hzero hinst fun op hop => ?_
    cases inst with
    | binopI op lhs k => exact absurd rfl (hnoI op lhs k)
    | binop op lhs rhs => exact absurd rfl (hno op lhs rhs)
    | _ => cases hop
  · cases h

/-- Walking down the comparison a condition settles keeps the facts true. -/
lemma Sound.peelSettled (hc : Setting m f params) (hs : m.Reaches f w s)
    (hblk : f.blocks[s.block]? = some blk) {env : Env} (henv : Sound m f env s)
    (hk : Known m f (Point.of f s) facts) {cond : ℕ} {x : Word}
    (hheld : Held f s.block s.pc cond) (hx : s.regs cond = some (.word x))
    (hmark : isCmp32 f cond = true →
      ∃ inst op, f.insts[cond]? = some inst ∧ inst.op? = some op ∧ (comparison op).isSome) :
    Known m f (Point.of f s) (match (Tables.of f params).settledCompare facts cond with
      | some (op, lhs, k) => (Tables.of f params).peelFacts env op (widthOf f cond op ≠ .full)
          (decide (x ≠ 0)) (min f.insts.length 8) lhs k facts
      | none => facts) := by
  split
  · rename_i op lhs k hset
    exact henv.peelFacts hc hs hblk hk (.of_settledCompare hc hs hblk hk hheld hx hmark hset)
  · exact hk

/-- Where a run takes a conditional edge, the facts the edge carries are true. -/
lemma Sound.applyEdge (hc : Setting m f params) (hmarks : TestMarks f) (hs : m.Reaches f w s)
    (hblk : f.blocks[s.block]? = some blk) (hpc : blk.instRange.stop ≤ s.pc) {env : Env}
    (henv : Sound m f env s) {b cond : ℕ} {holds : Bool}
    (hb : m.branchTo f s blk.terminator = some b)
    (hedge : edgeCondition f s.block b = some (cond, holds)) :
    Known m f (Point.of f s) ((Tables.of f params).applyEdge env s.block holds) := by
  have hagree := agrees_of hc.verified hc.widths.marks hs
  obtain ⟨x, hx, rfl⟩ := Machine.edgeCondition_truth hc.widths.tests hblk hb hedge
  obtain ⟨hheld, hreg⟩ := hs.held_condition hc.verified hblk hpc
    (Machine.mem_operands_of_edgeCondition hedge hblk) hx
  -- The bounds of the edge.
  have hbounds : Known m f (Point.of f s)
      ((edgeBounds f (valueNumbers f) params cond (decide (x ≠ 0))).foldl (fun facts e =>
        let key := keyOf f (valueNumbers f) e.1
        facts.set key (e.2.narrow (facts.get key))) env.facts) := by
    refine List.foldlRecOn (motive := fun facts => Known m f (Point.of f s) facts) _ _ henv.known
      fun facts hk e he => ?_
    have hsat := hs.bounded_edge hc.verified hc.widths hc.params hblk hedge hheld hreg rfl he
    obtain ⟨y, hden, hsat⟩ := den_of_bounded hc.verified hc.widths.marks hs hblk hsat
    refine hk.set ⟨_, hden, fun z hz => ?_⟩
    obtain rfl := Val.word.inj (Option.some.inj hz)
    exact Bound.has_narrow (hk.has hc.loads hagree hden) hsat
  have hmark : isCmp32 f cond = true →
      ∃ inst op, f.insts[cond]? = some inst ∧ inst.op? = some op ∧ (comparison op).isSome := by
    obtain ⟨blk', target, other, hblk', -, hterm⟩ := edgeCondition_spec hedge
    exact hmarks _ blk' cond target other hblk' (hterm.imp And.left And.left)
  obtain ⟨blk', target, other, hblk', -, hterm⟩ := edgeCondition_spec hedge
  obtain rfl := Option.some.inj (hblk.symm.trans hblk')
  unfold Tables.applyEdge
  rcases hterm with ⟨hterm, -⟩ | ⟨hterm, -⟩
  all_goals
    simp only [Tables.of, hblk, Option.map_some, hterm]
    exact henv.peelSettled hc hs hblk hbounds hheld hreg hmark

end Run

end ValueRange

end Badc
