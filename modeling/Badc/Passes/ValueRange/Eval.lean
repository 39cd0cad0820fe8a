import Badc.Passes.ValueRange.Transfer
import Badc.Ssa.Held

/-!
# Bounds of an instruction

`eval` of `src/c5/codegen/passes/value_range.rs`: the bounds an instruction's own shape gives
its result from bounds on its operands.  The reader of operand bounds is monadic, since the rules
of the fixed point give up where an operand has none yet.

`has_eval` is its soundness on one executed instruction, and `inWord_eval` says that it keeps to
the register's bounds.
-/

namespace Badc

/-! ## Extensions as numbers -/

lemma toInt_setWidth_signExtend {k : ℕ} (hk : k ≤ 64) (x : Word) :
    ((x.setWidth k).signExtend 64).toInt = x.toInt.bmod (2 ^ k) := by
  rw [BitVec.toInt_signExtend_of_le hk, BitVec.toInt_setWidth, BitVec.toInt_eq_toNat_bmod,
    Int.bmod_bmod_of_dvd (pow_dvd_pow 2 hk)]

/-- A zero extension from `k` bits as a number. -/
lemma toInt_setWidth_setWidth {k : ℕ} (hk : k < 64) (x : Word) :
    ((x.setWidth k).setWidth 64).toInt = x.toInt % 2 ^ k := by
  have hlt : x.toNat % 2 ^ k < 2 ^ k := Nat.mod_lt _ (by positivity)
  have hpow : 2 ^ k ≤ 2 ^ 63 := Nat.pow_le_pow_right two_pos (by omega)
  have hnat : ((x.setWidth k).setWidth 64).toNat = x.toNat % 2 ^ k := by
    rw [BitVec.toNat_setWidth, BitVec.toNat_setWidth]
    exact Nat.mod_eq_of_lt (by omega)
  have hdvd : (2 : ℤ) ^ k ∣ ((2 ^ 64 : ℕ) : ℤ) := by
    rw [Nat.cast_pow]
    exact pow_dvd_pow 2 hk.le
  rw [Range.toInt_of_lt (by omega), hnat, BitVec.toInt_eq_toNat_bmod, ← Int.emod_emod_of_dvd _ hdvd,
    Int.bmod_emod, Int.emod_emod_of_dvd _ hdvd]
  push_cast
  rfl

/-- Bounds an extension's result takes from the width it reads. -/
def extendRange : LoadKind → Option Range
  | .i64 | .f32 | .f64 | .f80 | .f128 | .v128 => none
  | .u8 => some ⟨0, 0xff⟩
  | .i8 => some ⟨-0x80, 0x7f⟩
  | .u16 => some ⟨0, 0xffff⟩
  | .i16 => some ⟨-0x8000, 0x7fff⟩
  | .u32 => some ⟨0, 0xffffffff⟩
  | .i32 => some ⟨-0x80000000, 0x7fffffff⟩

/-- A load of a narrow kind as a number. -/
lemma toInt_extendLoad {kind : LoadKind} {w : Range} (h : extendRange kind = some w) (x : Word) :
    (extendLoad x kind).toInt =
      if w.lo = 0 then x.toInt % (w.hi + 1) else x.toInt.bmod (2 * (w.hi + 1).toNat) := by
  cases kind with
  | u8 | u16 | u32 =>
    obtain rfl := Option.some.inj h
    rw [if_pos rfl]
    exact toInt_setWidth_setWidth (by norm_num) x
  | i8 | i16 | i32 =>
    obtain rfl := Option.some.inj h
    rw [if_neg (by norm_num)]
    exact toInt_setWidth_signExtend (by norm_num) x
  | _ => cases h

lemma has_extendLoad {kind : LoadKind} {w : Range} (h : extendRange kind = some w) (x : Word) :
    w.Has (extendLoad x kind) := by
  rw [Range.Has, toInt_extendLoad h]
  cases kind with
  | u8 | u16 | u32 | i8 | i16 | i32 =>
    obtain rfl := Option.some.inj h
    norm_num [Int.bmod]
    omega
  | _ => cases h

/-- A load of a narrow kind keeps what already lies in the kind's bounds. -/
lemma extendLoad_of_has {kind : LoadKind} {w : Range} (h : extendRange kind = some w) {x : Word}
    (hx : w.Has x) : extendLoad x kind = x := by
  apply BitVec.eq_of_toInt_eq
  rw [toInt_extendLoad h]
  obtain ⟨h1, h2⟩ := hx
  cases kind with
  | u8 | u16 | u32 | i8 | i16 | i32 =>
    obtain rfl := Option.some.inj h
    norm_num [Int.bmod] at h1 h2 ⊢
    omega
  | _ => cases h

/-! ## The bounds of an instruction -/

lemma has_sext32 (x : Word) : (⟨-0x80000000, 0x7fffffff⟩ : Range).Has (sext32 x) :=
  has_extendLoad (show extendRange .i32 = some _ from rfl) x

lemma has_zext32 (x : Word) : (⟨0, 0xffffffff⟩ : Range).Has (zext32 x) :=
  has_extendLoad (show extendRange .u32 = some _ from rfl) x

lemma sext32_of_has {x : Word} (h : (⟨-0x80000000, 0x7fffffff⟩ : Range).Has x) : sext32 x = x :=
  extendLoad_of_has (show extendRange .i32 = some _ from rfl) h

lemma zext32_of_has {x : Word} (h : (⟨0, 0xffffffff⟩ : Range).Has x) : zext32 x = x :=
  extendLoad_of_has (show extendRange .u32 = some _ from rfl) h

/-- The load kind of an atomic access. -/
def atomicKind : ℕ → LoadKind
  | 1 => .u8
  | 2 => .u16
  | 4 => .u32
  | _ => .i64

/-- Forward bounds for an instruction, given its operands' ranges and the entry range of each
parameter. -/
def eval {M : Type → Type} [Monad M] (inst : Inst) (params : List Range)
    (rangeOf : ℕ → M Range) : M Range :=
  match inst with
  | .imm k => pure (.exact k)
  | .extend value kind _ => do
      let src ← rangeOf value
      return match extendRange kind.loadKind with
        | some w => if w.contains src then src else w
        | none => src
  | .bswap _ width => pure <| match width with
      | 2 => ⟨0, 0xffff⟩
      | 4 => ⟨0, 0xffffffff⟩
      | _ => .univ
  | .neg value => do return (Range.exact 0).arith (← rangeOf value) true
  | .bitCount _ _ width => pure ⟨0, 8 * width.bytes⟩
  | .binopI op lhs k =>
      if (comparison op).isSome then pure ⟨0, 1⟩
      else match op with
        | .and =>
            if 0 ≤ k.toInt then do
              let l ← rangeOf lhs
              return ⟨0, if l.nonNegative then min k.toInt l.hi else k.toInt⟩
            else pure .univ
        | .add => do return (← rangeOf lhs).arith (.exact k) false
        | .sub => do return (← rangeOf lhs).arith (.exact k) true
        | .or => do return (← rangeOf lhs).bitwise (.exact k) true
        | .xor => do return (← rangeOf lhs).bitwise (.exact k) false
        | .shl | .shr | .shru => do return (← rangeOf lhs).shift k op
        | .div | .divu | .mod | .modu => do return .divmod op (← rangeOf lhs) (.exact k)
        | _ => pure .univ
  | .binop op lhs rhs => do return .binop op (← rangeOf lhs) (← rangeOf rhs)
  | .shiftOp op lhs rhs sh amount => do
      let shifted := (← rangeOf rhs).shift (BitVec.ofNat 64 amount) sh.binop
      return .binop op.binop (← rangeOf lhs) shifted
  | .bitField _ span signed => pure <|
      let values : ℤ := 2 ^ span.width
      if signed then ⟨-(values / 2), values / 2 - 1⟩ else ⟨0, values - 1⟩
  | .load _ _ kind .. => pure ((extendRange kind).getD .univ)
  | .loadLocal _ disp kind _ => pure (if disp = 0 then (extendRange kind).getD .univ else .univ)
  | .atomicCas16 .. => pure ((extendRange .u8).getD .univ)
  | .atomicLoad _ width _ | .atomicCas _ _ _ width _ =>
      pure ((extendRange (atomicKind width)).getD .univ)
  | .paramRef idx kind => pure <|
      if kind = .f32 ∨ kind = .f64 then .univ
      else
        let w := (extendRange kind).getD .univ
        match params[idx]? with
        | some r => if w.contains r then r else w
        | none => w
  | .inlineAsm asm _ => pure (if asm.flagValue then ⟨0, 1⟩ else .univ)
  | .asmOut _ kind => pure ((extendRange kind).getD .univ)
  | _ => pure .univ

/-- Where every operand has bounds, the monadic reading is the plain one. -/
lemma eval_some (inst : Inst) (params : List Range) (rangeOf : ℕ → Range) :
    eval inst params (fun o => some (rangeOf o)) =
      some (eval (M := Id) inst params rangeOf) := by
  cases inst with
  | binopI op lhs k =>
    simp only [eval]
    split
    · rfl
    · cases op with
      | and =>
        dsimp only
        split <;> rfl
      | _ => rfl
  | _ => rfl

namespace Machine

/-- The list bounds the incoming argument words. -/
def ParamsIn (m : Machine) (params : List Range) : Prop :=
  ∀ (idx : ℕ) (r : Range), params[idx]? = some r → r.Has (m.arg idx)

variable {m : Machine} {f : FunctionSsa}

/-- A binary operation outside the 32-bit division form is floating-point, a comparison, or the
operator on the two words. -/
lemma binop_cases {v : ℕ} {op : BinOp} {x y z : Word}
    (hdiv : (isDivmodOp op && isDiv32 f v) = false) (h : m.binop f v op x y = some z) :
    isFpOp op = true ∨ (comparison op).isSome ∧ (⟨0, 1⟩ : Range).Has z ∨
      applyBinop op x y = some z := by
  unfold binop at h
  split at h
  · exact Or.inl ‹_›
  · right
    rw [if_neg (by simp [hdiv])] at h
    split at h
    · rename_i hcmp
      left
      have hop : (comparison op).isSome := by
        cases op <;> first | rfl | simp [isIntComparisonOp] at hcmp
      exact ⟨hop, Range.has_comparison hop (applyBinop_of_foldBinop h).2⟩
    · right
      split at h
      · cases h
      · exact h

/-- What an atomic access zero-extends, as a load of its kind. -/
lemma zextBytes_eq (x : Word) (width : ℕ) : zextBytes x width = extendLoad x (atomicKind width) := by
  by_cases h1 : width = 1
  · rw [h1]
    rfl
  by_cases h2 : width = 2
  · rw [h2]
    rfl
  by_cases h4 : width = 4
  · rw [h4]
    rfl
  · simp [zextBytes, atomicKind, extendLoad]

lemma has_extendLoad_getD (x : Word) (kind : LoadKind) :
    ((extendRange kind).getD .univ).Has (extendLoad x kind) := by
  cases h : extendRange kind with
  | none => exact Range.has_univ _
  | some w => exact has_extendLoad h x

lemma evalExtend_eq (x : Word) (kind : ExtendKind) :
    evalExtend x kind = extendLoad x kind.loadKind := by
  cases kind <;> rfl

/-- A count of bits lies below the width. -/
lemma evalBitCount_le (op : BitCountOp) (x : Word) (width : CountWidth) :
    (⟨0, 8 * width.bytes⟩ : Range).Has (evalBitCount op x width) := by
  have hw : 8 * width.bytes ≤ 64 := by cases width <;> decide
  have hcount : ∀ n : ℕ, n ≤ 8 * width.bytes →
      (⟨0, 8 * width.bytes⟩ : Range).Has (BitVec.ofNat 64 n) := by
    intro n hn
    have hval : (BitVec.ofNat 64 n).toNat = n := by
      rw [BitVec.toNat_ofNat]
      exact Nat.mod_eq_of_lt (by omega)
    rw [Range.Has, Range.toInt_of_lt (by omega), hval]
    refine ⟨Int.natCast_nonneg n, ?_⟩
    dsimp only
    exact_mod_cast hn
  unfold evalBitCount
  dsimp only
  apply hcount
  cases op with
  | clz | clrsb => exact Nat.sub_le _ _
  | ctz =>
    simp only [trailingZeros]
    cases h : (List.range (8 * width.bytes)).find?
        fun i => (x.toNat % 2 ^ (8 * width.bytes)).testBit i with
    | none => exact le_rfl
    | some i =>
      have := List.mem_of_find?_eq_some h
      rw [List.mem_range] at this
      exact this.le
  | popcount =>
    refine (List.countP_le_length).trans ?_
    rw [List.length_range]

/-- A bit field lies in the values of its width. -/
lemma has_evalBitField (x : Word) (span : FieldSpan) (signed : Bool) :
    (if signed then (⟨-(2 ^ span.width / 2), 2 ^ span.width / 2 - 1⟩ : Range)
      else ⟨0, 2 ^ span.width - 1⟩).Has (evalBitField x span signed) := by
  have hone := span.one_le
  have hle := span.width_le
  have hpos : (0 : ℤ) < 2 ^ (64 - span.width) := by positivity
  have hsplit : (2 : ℤ) ^ 64 = 2 ^ span.width * 2 ^ (64 - span.width) := by
    rw [← pow_add]
    congr 1
    omega
  have hhalf : (2 : ℤ) ^ span.width = 2 * 2 ^ (span.width - 1) := by
    rw [← pow_succ']
    congr 1
    omega
  unfold evalBitField
  dsimp only
  generalize x <<< (64 - span.lsb - span.width) = y
  cases signed with
  | true =>
    rw [if_pos rfl, if_pos rfl, Range.Has, BitVec.toInt_sshiftRight, Int.shiftRight_eq_div_pow,
      hhalf, Int.mul_ediv_cancel_left _ (by norm_num)]
    obtain ⟨h1, h2⟩ := Range.toInt_mem y
    push_cast
    constructor
    · refine (Int.le_ediv_iff_mul_le hpos).mpr ?_
      nlinarith
    · refine Int.le_of_lt_add_one (Int.ediv_lt_of_lt_mul hpos ?_)
      nlinarith
  | false =>
    have hlt := y.isLt
    have hval : ((y >>> (64 - span.width)).toNat : ℤ) = y.toNat / 2 ^ (64 - span.width) := by
      rw [BitVec.toNat_ushiftRight, Nat.shiftRight_eq_div_pow]
      push_cast
      rfl
    have hbound : (y.toNat : ℤ) / 2 ^ (64 - span.width) < 2 ^ span.width := by
      refine Int.ediv_lt_of_lt_mul hpos ?_
      rw [← hsplit]
      omega
    have hpow : (2 : ℤ) ^ span.width ≤ 2 ^ 63 := pow_le_pow_right₀ (by norm_num) hle
    rw [if_neg (by decide), if_neg (by decide), Range.Has, Range.toInt_of_lt (by omega), hval]
    refine ⟨Int.ediv_nonneg (Int.natCast_nonneg _) hpos.le, ?_⟩
    dsimp only
    omega

/-- Reversed bytes fill no more bytes. -/
lemma revBytes_lt (x : Word) (n : ℕ) (hn : n ≤ 8) : (revBytes x n).toNat < 2 ^ (8 * n) := by
  induction n with
  | zero => simp [revBytes]
  | succ n ih =>
    have hrec : revBytes x (n + 1) =
        revBytes x n <<< 8 ||| ((x >>> (8 * n)).setWidth 8).setWidth 64 := by
      simp [revBytes, List.range_succ]
    have hih := ih (by omega)
    have hpow : 2 ^ (8 * (n + 1)) = 2 ^ (8 * n) * 2 ^ 8 := by rw [← pow_add]; congr 1
    rw [hrec, BitVec.toNat_or]
    apply Nat.or_lt_two_pow
    · rw [BitVec.toNat_shiftLeft, Nat.shiftLeft_eq]
      refine (Nat.mod_le _ _).trans_lt ?_
      rw [hpow]
      exact (Nat.mul_lt_mul_right (by norm_num)).mpr hih
    · have hbyte : (((x >>> (8 * n)).setWidth 8).setWidth 64).toNat < 2 ^ 8 := by
        rw [BitVec.toNat_setWidth]
        exact (Nat.mod_le _ _).trans_lt (BitVec.isLt _)
      refine hbyte.trans_le (Nat.pow_le_pow_right two_pos (by omega))

/-- Reversed bytes of a narrow width lie in the width's bounds. -/
lemma has_evalBswap (x : Word) (width : ℕ) :
    (match width with
      | 2 => (⟨0, 0xffff⟩ : Range)
      | 4 => ⟨0, 0xffffffff⟩
      | _ => .univ).Has (evalBswap x width) := by
  split
  · have := revBytes_lt x 2 (by norm_num)
    rw [Range.Has, evalBswap, Range.toInt_of_lt (by omega)]
    dsimp only
    omega
  · have := revBytes_lt x 4 (by norm_num)
    rw [Range.Has, evalBswap, Range.toInt_of_lt (by omega)]
    dsimp only
    omega
  · exact Range.has_univ _

/-- A parameter read lies in the bounds its kind and its entry range give. -/
lemma has_paramRef {params : List Range} {idx : ℕ} (kind : LoadKind)
    (hpar : m.ParamsIn params) :
    (if kind = .f32 ∨ kind = .f64 then .univ
      else match params[idx]? with
        | some r => if ((extendRange kind).getD .univ).contains r then r
            else (extendRange kind).getD .univ
        | none => (extendRange kind).getD .univ : Range).Has (extendLoad (m.arg idx) kind) := by
  split
  · exact Range.has_univ _
  · split
    · rename_i r hr
      split
      · rename_i hcon
        have harg := hpar idx r hr
        cases hw : extendRange kind with
        | none =>
          have : extendLoad (m.arg idx) kind = m.arg idx := by
            cases kind <;> first | rfl | cases hw
          rw [this]
          exact harg
        | some w =>
          rw [hw, Option.getD_some] at hcon
          rw [extendLoad_of_has hw (Range.has_of_contains hcon harg)]
          exact harg
      · exact has_extendLoad_getD _ kind
    · exact has_extendLoad_getD _ kind

/-- The bounds of an operation by an immediate. -/
lemma has_eval_binopI {op : BinOp} {lhs : ℕ} {k x y : Word} {params : List Range}
    {seen : ℕ → Option Range} {a : Range} (ha : seen lhs = some a) (haw : a.InWord)
    (hah : a.Has y) (hx : isFpOp op = true ∨ (comparison op).isSome ∧ (⟨0, 1⟩ : Range).Has x ∨
      applyBinop op y k = some x) :
    ∃ b, eval (.binopI op lhs k) params seen = some b ∧ b.Has x := by
  simp only [eval]
  split
  · rename_i hcmp
    rcases hx with hfp | ⟨-, hbit⟩ | hx
    · simp [comparison_of_fp hfp] at hcmp
    · exact ⟨_, rfl, hbit⟩
    · exact ⟨_, rfl, Range.has_comparison hcmp hx⟩
  · rename_i hcmp
    rcases hx with hfp | ⟨hcmp', -⟩ | hx
    · cases op <;> first | exact ⟨_, rfl, Range.has_univ _⟩ | cases hfp
    · exact absurd hcmp' hcmp
    · have hk := Range.has_exact k
      have hkw := Range.inWord_exact k
      cases op with
      | and =>
        obtain rfl := Option.some.inj hx
        dsimp only
        split
        · rename_i hk0
          obtain ⟨h1, h2, h3⟩ := Range.and_bounds (x := y) hk0
          simp only [ha, bind, Option.bind_some, pure, Option.some.injEq, exists_eq_left']
          refine ⟨h1, ?_⟩
          dsimp only
          split
          · rename_i hna
            exact le_min h2 ((h3 (Range.nonneg_of_has hna hah)).trans hah.2)
          · exact h2
        · exact ⟨_, rfl, Range.has_univ _⟩
      | add | sub | or | xor =>
        simp only [ha, bind, Option.bind_some, pure, Option.some.injEq, exists_eq_left']
        exact Range.has_binop haw hkw hah hk hx
      | shl =>
        simp only [ha, bind, Option.bind_some, pure, Option.some.injEq, exists_eq_left']
        exact Range.has_shift .shl hah hx
      | shr =>
        simp only [ha, bind, Option.bind_some, pure, Option.some.injEq, exists_eq_left']
        exact Range.has_shift .shr hah hx
      | shru =>
        simp only [ha, bind, Option.bind_some, pure, Option.some.injEq, exists_eq_left']
        exact Range.has_shift .shru hah hx
      | div | divu | mod | modu =>
        simp only [ha, bind, Option.bind_some, pure, Option.some.injEq, exists_eq_left']
        exact Range.has_divmod rfl haw hkw hah hk hx
      | _ => exact ⟨_, rfl, Range.has_univ _⟩

/-- The bounds of a pure instruction, outside the 32-bit division form. -/
lemma has_eval_pure {v : ℕ} {regs : Regs} {inst : Inst} {x : Word} {params : List Range}
    {seen : ℕ → Option Range} (hx : m.pureWord f v regs inst = some x)
    (hinst : f.insts[v]? = some inst) (hdiv : isNarrowDiv f v = false)
    (hpar : m.ParamsIn params)
    (hops : ∀ o ∈ inst.operands, ∀ y, regs.word o = some y →
      ∃ a, seen o = some a ∧ a.InWord ∧ a.Has y) :
    ∃ b, eval inst params seen = some b ∧ b.Has x := by
  cases inst with
  | imm k =>
    obtain rfl := Option.some.inj hx
    exact ⟨_, rfl, Range.has_exact _⟩
  | paramRef idx kind =>
    obtain rfl := Option.some.inj hx
    exact ⟨_, rfl, has_paramRef kind hpar⟩
  | extend a kind nsw =>
    obtain ⟨y, hy, rfl⟩ := Option.map_eq_some_iff.mp hx
    obtain ⟨src, hsrc, -, hhas⟩ := hops a (by simp [Inst.operands]) y hy
    simp only [eval, hsrc, bind, Option.bind_some, pure, Option.some.injEq, exists_eq_left']
    rw [evalExtend_eq]
    cases hw : extendRange kind.loadKind with
    | none => cases kind <;> cases hw
    | some w =>
      dsimp only
      split
      · rename_i hcon
        rw [extendLoad_of_has hw (Range.has_of_contains hcon hhas)]
        exact hhas
      · exact has_extendLoad hw y
  | bswap a width =>
    obtain ⟨y, -, rfl⟩ := Option.map_eq_some_iff.mp hx
    exact ⟨_, rfl, has_evalBswap y width⟩
  | neg a =>
    obtain ⟨y, hy, rfl⟩ := Option.map_eq_some_iff.mp hx
    obtain ⟨src, hsrc, -, hhas⟩ := hops a (by simp [Inst.operands]) y hy
    simp only [eval, hsrc, bind, Option.bind_some, pure, Option.some.injEq, exists_eq_left']
    rw [← BitVec.zero_sub]
    exact Range.has_sub (Range.has_exact 0) hhas
  | bitCount op a width =>
    obtain ⟨y, -, rfl⟩ := Option.map_eq_some_iff.mp hx
    exact ⟨_, rfl, evalBitCount_le op y width⟩
  | bitField a span signed =>
    obtain ⟨y, -, rfl⟩ := Option.map_eq_some_iff.mp hx
    exact ⟨_, rfl, has_evalBitField y span signed⟩
  | shiftOp op lhs rhs sh amount =>
    simp only [pureWord, bind, Option.bind_eq_some_iff, pure, Option.some.injEq] at hx
    obtain ⟨y, hy, z, hz, rfl⟩ := hx
    obtain ⟨a, ha, haw, hah⟩ := hops rhs (by simp [Inst.operands]) y hy
    obtain ⟨b, hb, hbw, hbh⟩ := hops lhs (by simp [Inst.operands]) z hz
    simp only [eval, ha, hb, bind, Option.bind_some, pure, Option.some.injEq, exists_eq_left']
    have hsome : ∃ y', applyBinop sh.binop y (BitVec.ofNat 64 amount) = some y' := by
      cases sh <;> exact ⟨_, rfl⟩
    obtain ⟨y', hy'⟩ := hsome
    have hsome' : ∃ z', applyBinop op.binop z y' = some z' := by
      cases op <;> exact ⟨_, rfl⟩
    obtain ⟨z', hz'⟩ := hsome'
    rw [hy', Option.getD_some, hz', Option.getD_some]
    exact Range.has_binop hbw (Range.inWord_shift _ _ _) hbh (Range.has_shift sh hah hy') hz'
  | binop op lhs rhs =>
    simp only [pureWord, bind, Option.bind_eq_some_iff] at hx
    obtain ⟨y, hy, z, hz, hx⟩ := hx
    obtain ⟨a, ha, haw, hah⟩ := hops lhs (by simp [Inst.operands]) y hy
    obtain ⟨b, hb, hbw, hbh⟩ := hops rhs (by simp [Inst.operands]) z hz
    simp only [eval, ha, hb, bind, Option.bind_some, pure, Option.some.injEq, exists_eq_left']
    rcases binop_cases (by simpa [isNarrowDiv, hinst] using hdiv) hx with hfp | ⟨hcmp, hbit⟩ | hx
    · rw [Range.binop_of_fp hfp]
      exact Range.has_univ _
    · rw [Range.binop_of_comparison hcmp]
      exact hbit
    · exact Range.has_binop haw hbw hah hbh hx
  | binopI op lhs k =>
    simp only [pureWord, bind, Option.bind_eq_some_iff] at hx
    obtain ⟨y, hy, hx⟩ := hx
    obtain ⟨a, ha, haw, hah⟩ := hops lhs (by simp [Inst.operands]) y hy
    refine has_eval_binopI ha haw hah ?_
    exact binop_cases (by simpa [isNarrowDiv, hinst] using hdiv) hx
  | _ => first | exact ⟨_, rfl, Range.has_univ _⟩ | cases hx

/-- What an instruction the environment performs leaves lies in its bounds. -/
lemma has_eval_fixVal {inst : Inst} {x : Word} {y : Val} {params : List Range}
    {seen : ℕ → Option Range} (hrole : inst.role = .quiet ∨ inst.role = .effect)
    (hx : fixVal inst y = .word x) : ∃ b, eval inst params seen = some b ∧ b.Has x := by
  cases y with
  | vec y => cases hx
  | word y =>
    obtain rfl := Val.word.inj hx
    cases inst with
    | load addr disp kind vol align pcRel => exact ⟨_, rfl, has_extendLoad_getD y kind⟩
    | loadLocal off disp kind vol =>
      refine ⟨_, rfl, ?_⟩
      split
      · exact has_extendLoad_getD y kind
      · exact Range.has_univ _
    | asmOut op kind => exact ⟨_, rfl, has_extendLoad_getD y kind⟩
    | atomicLoad addr width order | atomicCas addr e d width order =>
      refine ⟨_, rfl, ?_⟩
      rw [fixWord, zextBytes_eq]
      exact has_extendLoad_getD y _
    | atomicCas16 addr e d order =>
      refine ⟨_, rfl, Range.has_of_contains ?_ (Range.has_boolWord _)⟩
      decide
    | inlineAsm asm args =>
      refine ⟨_, rfl, ?_⟩
      rw [fixWord]
      split
      · exact Range.has_boolWord _
      · exact Range.has_univ _
    | imm k | immData k | immCode k | immExtCode k | blockAddr k | localAddr k | paramRef i k
    | binop o a b | binopI o a b | neg a | fneg a | fma a b c d e | mulAdd a b c d
    | shiftOp a b c d e | bitField a b c | udiv128 a b c | extend a b c | bswap a b
    | bitCount a b c | fpCast a b => rcases hrole with h | h <;> cases h
    | _ => exact ⟨_, rfl, Range.has_univ _⟩

/-- What a load leaves lies in its bounds. -/
lemma has_eval_loaded {inst : Inst} {kind : LoadKind} {x : Word} {params : List Range}
    {seen : ℕ → Option Range} {single : Bool} {mem : Mem} {a : Word}
    (hrole : inst.role = .load kind) (hx : m.loaded single mem a kind = .word x) :
    ∃ b, eval inst params seen = some b ∧ b.Has x := by
  have hkind : ((extendRange kind).getD .univ).Has x := by
    cases hw : extendRange kind with
    | none => exact Range.has_univ _
    | some w =>
      cases kind with
      | u8 | i8 | u16 | i16 | u32 | i32 =>
        obtain rfl := Val.word.inj hx
        exact has_extendLoad hw _
      | _ => cases hw
  cases inst with
  | load addr disp k vol align pcRel =>
    simp only [Inst.role] at hrole
    split at hrole
    · cases hrole
    · obtain rfl := Role.load.inj hrole
      exact ⟨_, rfl, hkind⟩
  | loadLocal off disp k vol =>
    simp only [Inst.role] at hrole
    split at hrole
    · cases hrole
    · obtain rfl := Role.load.inj hrole
      refine ⟨_, rfl, ?_⟩
      split
      · exact hkind
      · exact Range.has_univ _
  | loadIndexed b i e s k ab => exact ⟨_, rfl, Range.has_univ _⟩
  | _ => cases hrole

/-- An instruction that neither computes nor reads nor is performed by the environment carries no
bounds. -/
lemma eval_of_role {inst : Inst} {params : List Range} {seen : ℕ → Option Range}
    (hpure : inst.role ≠ .pure) (hload : ∀ kind, inst.role ≠ .load kind)
    (hquiet : inst.role ≠ .quiet) (heffect : inst.role ≠ .effect) :
    eval inst params seen = some .univ := by
  cases inst with
  | load addr disp kind vol align pcRel | loadLocal off disp kind vol =>
    cases vol
    · exact absurd rfl (hload kind)
    · exact absurd rfl hquiet
  | _ =>
    first
    | rfl
    | exact absurd rfl hpure
    | exact absurd rfl hquiet
    | exact absurd rfl heffect

/-- An executed instruction leaves a word in the bounds its shape gives, from operands in the
bounds they are seen with. -/
theorem has_eval {v : ℕ} {regs : Regs} {world : World m.Ext} {inst : Inst}
    {r : Regs × World m.Ext} {x : Word} {params : List Range} {seen : ℕ → Option Range}
    (hr : m.exec f v regs world inst = some r) (hx : r.1 v = some (.word x))
    (hinst : f.insts[v]? = some inst) (hdiv : isNarrowDiv f v = false) (hpar : m.ParamsIn params)
    (hops : ∀ o ∈ inst.operands, ∀ y, regs.word o = some y →
      ∃ a, seen o = some a ∧ a.InWord ∧ a.Has y) :
    ∃ b, eval inst params seen = some b ∧ b.Has x := by
  cases hrole : inst.role with
  | load kind =>
    rw [exec, hrole] at hr
    obtain ⟨a, -, rfl⟩ := execLoad_eq_some.mp hr
    simp only [Regs.set_self, Option.some.injEq] at hx
    exact has_eval_loaded hrole hx
  | quiet =>
    rw [exec, hrole] at hr
    obtain ⟨vals, y, ext, -, -, rfl⟩ := execQuiet_eq_some.mp hr
    simp only [Regs.set_self, Option.some.injEq] at hx
    exact has_eval_fixVal (Or.inl hrole) hx
  | effect =>
    rw [exec, hrole] at hr
    obtain ⟨vals, y, world', -, -, rfl⟩ := execEffect_eq_some.mp hr
    simp only [Regs.set_self] at hx
    obtain ⟨y', -, hy'⟩ := Option.map_eq_some_iff.mp hx
    exact has_eval_fixVal (Or.inr hrole) hy'
  | pure =>
    obtain ⟨y, hy, rfl⟩ := exec_pure hrole hr
    simp only [Regs.set_self, Option.some.injEq] at hx
    obtain rfl := Val.word.inj hx
    exact has_eval_pure hy hinst hdiv hpar hops
  | _ =>
    refine ⟨_, eval_of_role ?_ (fun kind => ?_) ?_ ?_, Range.has_univ _⟩
    all_goals
      rw [hrole]
      intro h
      cases h

end Machine

/-- The bounds of an instruction keep to the register's. -/
lemma inWord_eval {inst : Inst} {params : List Range} {seen : ℕ → Option Range} {r : Range}
    (hseen : ∀ o a, seen o = some a → a.InWord) (h : eval inst params seen = some r) :
    r.InWord := by
  have hkind : ∀ kind, ((extendRange kind).getD .univ).InWord := by
    intro kind
    cases kind <;> decide
  cases inst with
  | imm k =>
    obtain rfl := Option.some.inj h
    exact Range.inWord_exact k
  | extend a kind nsw =>
    simp only [eval, bind, Option.bind_eq_some_iff, pure, Option.some.injEq] at h
    obtain ⟨src, hsrc, rfl⟩ := h
    have := hkind kind.loadKind
    cases hw : extendRange kind.loadKind with
    | none => exact hseen a src hsrc
    | some w =>
      rw [hw] at this
      dsimp only
      split
      · exact hseen a src hsrc
      · exact this
  | bswap a width =>
    obtain rfl := Option.some.inj h
    split <;> decide
  | neg a =>
    simp only [eval, bind, Option.bind_eq_some_iff, pure, Option.some.injEq] at h
    obtain ⟨src, -, rfl⟩ := h
    exact Range.inWord_arith _ _ _
  | bitCount op a width =>
    obtain rfl := Option.some.inj h
    cases width <;> decide
  | bitField a span signed =>
    obtain rfl := Option.some.inj h
    have hpow : (2 : ℤ) ^ span.width ≤ 2 ^ 63 := pow_le_pow_right₀ (by norm_num) span.width_le
    rw [Range.inWord_iff]
    dsimp only
    split
    · dsimp only
      omega
    · dsimp only
      omega
  | shiftOp op lhs rhs sh amount =>
    simp only [eval, bind, Option.bind_eq_some_iff, pure, Option.some.injEq] at h
    obtain ⟨a, -, b, hb, rfl⟩ := h
    exact Range.inWord_binop _ (hseen lhs b hb) (Range.inWord_shift _ _ _)
  | binop op lhs rhs =>
    simp only [eval, bind, Option.bind_eq_some_iff, pure, Option.some.injEq] at h
    obtain ⟨a, ha, b, hb, rfl⟩ := h
    exact Range.inWord_binop _ (hseen lhs a ha) (hseen rhs b hb)
  | binopI op lhs k =>
    have hk := Range.inWord_exact k
    simp only [eval] at h
    split at h
    · obtain rfl := Option.some.inj h
      decide
    · cases op with
      | and =>
        dsimp only at h
        split at h
        · simp only [bind, Option.bind_eq_some_iff, pure, Option.some.injEq] at h
          obtain ⟨a, -, rfl⟩ := h
          have := Range.toInt_mem k
          rw [Range.inWord_iff]
          dsimp only
          split <;> omega
        · obtain rfl := Option.some.inj h
          exact Range.inWord_univ
      | add | sub =>
        simp only [bind, Option.bind_eq_some_iff, pure, Option.some.injEq] at h
        obtain ⟨a, -, rfl⟩ := h
        exact Range.inWord_arith _ _ _
      | or | xor =>
        simp only [bind, Option.bind_eq_some_iff, pure, Option.some.injEq] at h
        obtain ⟨a, ha, rfl⟩ := h
        exact Range.inWord_bitwise (hseen lhs a ha) hk _
      | shl | shr | shru =>
        simp only [bind, Option.bind_eq_some_iff, pure, Option.some.injEq] at h
        obtain ⟨a, -, rfl⟩ := h
        exact Range.inWord_shift _ _ _
      | div | divu | mod | modu =>
        simp only [bind, Option.bind_eq_some_iff, pure, Option.some.injEq] at h
        obtain ⟨a, ha, rfl⟩ := h
        exact Range.inWord_divmod _ (hseen lhs a ha) hk
      | _ =>
        obtain rfl := Option.some.inj h
        exact Range.inWord_univ
  | load addr disp kind vol align pcRel | asmOut op kind =>
    obtain rfl := Option.some.inj h
    exact hkind kind
  | loadLocal off disp kind vol =>
    obtain rfl := Option.some.inj h
    split
    · exact hkind kind
    · exact Range.inWord_univ
  | atomicLoad addr width order | atomicCas addr e d width order =>
    obtain rfl := Option.some.inj h
    exact hkind _
  | atomicCas16 addr e d order =>
    obtain rfl := Option.some.inj h
    decide
  | paramRef idx kind =>
    obtain rfl := Option.some.inj h
    have hw := hkind kind
    dsimp only
    split
    · exact Range.inWord_univ
    · split
      · split
        · rename_i hcon
          rw [Range.inWord_iff] at hw ⊢
          rw [Range.contains_iff] at hcon
          omega
        · exact hw
      · exact hw
  | inlineAsm asm args =>
    obtain rfl := Option.some.inj h
    split
    · decide
    · exact Range.inWord_univ
  | _ =>
    obtain rfl := Option.some.inj h
    exact Range.inWord_univ

/-! ## The 32-bit division form -/

/-- What the 32-bit form of a division reads of an operand. -/
def lowWord (op : BinOp) (x : Word) : Word :=
  if op = .divu ∨ op = .modu then zext32 x else sext32 x

/-- The bounds of what the 32-bit form of a division reads. -/
def lowWindow : BinOp → Range
  | .div | .mod => ⟨-0x80000000, 0x7fffffff⟩
  | _ => ⟨0, 0xffffffff⟩

section Narrow

variable {op : BinOp} {lhs rhs : ℕ} {a d r : Range} {x y z k : Word}

lemma has_lowWindow (hop : isDivmodOp op = true) (x : Word) :
    (lowWindow op).Has (lowWord op x) := by
  cases op with
  | div | mod => exact has_sext32 x
  | divu | modu => exact has_zext32 x
  | _ => cases hop

lemma lowWord_of_has (hop : isDivmodOp op = true) (h : (lowWindow op).Has x) :
    lowWord op x = x := by
  cases op with
  | div | mod => exact sext32_of_has h
  | divu | modu => exact zext32_of_has h
  | _ => cases hop

lemma has_clamp {w : Range} {ext : Word → Word} (hw : ∀ x, w.Has (ext x))
    (hid : ∀ x, w.Has x → ext x = x) (hx : a.Has x) :
    (if w.contains a then a else w).Has (ext x) := by
  split
  · rename_i hcon
    rw [hid x (Range.has_of_contains hcon hx)]
    exact hx
  · exact hw x

/-- An immediate quotient's divisor is read as it stands. -/
def ImmFits (op : BinOp) (k : Word) : Prop :=
  match op with
  | .div => -2 ^ 31 ≤ k.toInt ∧ k.toInt < 2 ^ 31
  | .divu => k.toInt < 2 ^ 32
  | _ => True

/-- A division of low words by an immediate lies in the bounds taken with the whole immediate,
where a quotient's immediate fits. -/
lemma has_divmod_lowWord (hop : isDivmodOp op = true) (ha : a.InWord)
    (haw : (lowWindow op).contains a = true) (hx : a.Has (lowWord op x)) (hk : ImmFits op k)
    (hz : applyBinop op (lowWord op x) (lowWord op k) = some z) :
    (Range.divmod op a (.exact k)).Has z := by
  by_cases hfit : (lowWindow op).Has k
  · rw [lowWord_of_has hop hfit] at hz
    exact Range.has_divmod hop ha (Range.inWord_exact k) hx (Range.has_exact k) hz
  · -- The bounds do not use the immediate, or use less of it than the low word gives.
    have hlow := has_lowWindow hop k
    have hne : ¬ (a.hi < a.lo ∨ (Range.exact k).hi < (Range.exact k).lo) := by
      have := hx.1.trans hx.2
      simp only [Range.exact]
      omega
    rw [Range.contains_iff] at haw
    unfold Range.divmod
    rw [if_neg hne]
    cases op with
    | div =>
      simp only [ImmFits] at hk
      exact absurd ⟨hk.1, by simp only [lowWindow]; omega⟩ hfit
    | divu =>
      simp only [ImmFits] at hk
      obtain ⟨hy0, hz⟩ := Option.ite_none_left_eq_some.mp hz
      obtain rfl := Option.some.inj hz
      have hneg : ¬ 0 < (Range.exact k).lo := fun h =>
        hfit ⟨h.le, by simp only [lowWindow, Range.exact] at h ⊢; omega⟩
      have h0 : ¬ 0 < (lowWindow .divu).lo := by decide
      have hna : a.nonNegative = true := by
        simp only [lowWindow] at haw
        simpa [Range.nonNegative] using haw.1
      have hq := Range.has_quotient_unsigned hx hlow ha hy0
      simp only [Range.quotient, hna, hneg, h0, decide_false, if_true] at hq ⊢
      exact hq
    | modu =>
      obtain ⟨hy0, hz⟩ := Option.ite_none_left_eq_some.mp hz
      obtain rfl := Option.some.inj hz
      have h0 : ¬ 0 < (lowWindow .modu).lo := by decide
      have hr := Range.has_remainder_unsigned hx hlow ha (by decide) hy0
      have hna : a.nonNegative = true := by
        simp only [lowWindow] at haw
        simpa [Range.nonNegative] using haw.1
      simp only [Range.remainder, hna, h0, if_true, if_false] at hr ⊢
      by_cases hpos : 0 < (Range.exact k).lo
      · simp only [hpos, if_true]
        refine ⟨hr.1, le_min hr.2 (hr.2.trans ?_)⟩
        have : ¬ k.toInt ≤ 0xffffffff := fun h => hfit ⟨hpos.le, h⟩
        simp only [lowWindow, Range.exact] at haw ⊢
        omega
      · simp only [hpos, if_false]
        exact hr
    | mod =>
      obtain ⟨hy0, hz⟩ := Option.ite_none_left_eq_some.mp hz
      obtain rfl := Option.some.inj hz
      have hr := Range.has_remainder_signed hx hlow hy0
      have hspan : (lowWindow .mod).lo ≤ 0 ∧ 0 ≤ (lowWindow .mod).hi := by decide
      have hout : k.toInt < -2 ^ 31 ∨ 2 ^ 31 ≤ k.toInt := by
        by_contra hcon
        exact hfit ⟨by simp only [lowWindow]; omega, by simp only [lowWindow]; omega⟩
      have hspan' : ¬ ((Range.exact k).lo ≤ 0 ∧ 0 ≤ (Range.exact k).hi) := by
        simp only [Range.exact]
        omega
      simp only [Range.remainder, Bool.false_eq_true, hspan, hspan', and_self, if_true,
        if_false] at hr ⊢
      rw [Range.has_meet]
      refine ⟨hr, ?_⟩
      -- The remainder is below the low word's magnitude, which is below the immediate's.
      have hne : (lowWord .mod k).toInt ≠ 0 := fun h =>
        hy0 (BitVec.eq_of_toInt_eq (by simpa using h))
      have hlt : ((lowWord .mod x).toInt.tmod (lowWord .mod k).toInt).natAbs <
          (lowWord .mod k).toInt.natAbs := by
        rw [Int.natAbs_tmod]
        exact Nat.mod_lt _ (Int.natAbs_pos.mpr hne)
      obtain ⟨h1, h2⟩ := hlow
      simp only [lowWindow] at h1 h2
      rw [Range.Has, BitVec.toInt_srem]
      simp only [Range.magnitude, Range.exact, max_self, Int.abs_eq_natAbs]
      omega
    | _ => cases hop

lemma Machine.binop_narrow {m : Machine} {f : FunctionSsa} {v : ℕ} (hop : isDivmodOp op = true)
    (hdiv : isDiv32 f v = true) (h : m.binop f v op x y = some z) :
    ∃ z₀, applyBinop op (lowWord op x) (lowWord op y) = some z₀ ∧ z = zext32 z₀ := by
  have hfp : isFpOp op = false := by cases op <;> first | rfl | cases hop
  rw [Machine.binop, if_neg (by simp [hfp]), if_pos (by simp [hop, hdiv])] at h
  obtain ⟨-, h⟩ := Option.ite_none_left_eq_some.mp h
  obtain ⟨z₀, hz₀, rfl⟩ := Option.map_eq_some_iff.mp h
  exact ⟨z₀, (applyBinop_of_foldBinop hz₀).2, rfl⟩

/-- A result of a division of low words that is not negative is its own low word. -/
lemma zext32_of_narrow (hop : isDivmodOp op = true)
    (hz : applyBinop op (lowWord op x) (lowWord op y) = some z) (h0 : 0 ≤ z.toInt) :
    zext32 z = z := by
  -- The bounds over the whole window.
  have hwin : (lowWindow op).InWord := by
    cases op <;> decide
  have hz := Range.has_divmod hop hwin hwin (has_lowWindow hop x) (has_lowWindow hop y) hz
  have hle : z.toInt ≤ 0xffffffff := by
    refine hz.2.trans ?_
    cases op <;> decide
  exact zext32_of_has ⟨h0, hle⟩

/-- The bounds of the 32-bit division form, taken over operands read through its window, hold of
the result where they leave out negative values. -/
lemma has_eval_narrow {m : Machine} {f : FunctionSsa} {v : ℕ} {regs : Regs} {inst : Inst}
    {params : List Range} {seen : ℕ → Option Range} (hx : m.pureWord f v regs inst = some x)
    (hinst : inst = .binop op lhs rhs ∨ inst = .binopI op lhs k ∧ ImmFits op k)
    (hop : isDivmodOp op = true) (hdiv : isDiv32 f v = true)
    (hops : ∀ o ∈ inst.operands, ∀ y, regs.word o = some y →
      ∃ a, seen o = some a ∧ a.InWord ∧ a.Has y) :
    ∃ b, eval inst params (fun o => (seen o).map fun a =>
        if (lowWindow op).contains a then a else lowWindow op) = some b ∧
      (if b.lo < 0 then .univ else b : Range).Has x := by
  -- Of a division of low words in the bounds, the result is in them once extended.
  have hfinish : ∀ (y z z₀ : Word) (b : Range),
      applyBinop op (lowWord op y) (lowWord op z) = some z₀ → b.Has z₀ → x = zext32 z₀ →
      (if b.lo < 0 then .univ else b : Range).Has x := by
    rintro y z z₀ b hz hb rfl
    split
    · exact Range.has_univ _
    · rename_i hlo
      have hb1 := hb.1
      rw [zext32_of_narrow hop hz (by omega)]
      exact hb
  have hclamp : ∀ {o : ℕ} {y : Word}, o ∈ inst.operands → regs.word o = some y →
      ∃ a, seen o = some a ∧ (if (lowWindow op).contains a then a else lowWindow op).InWord ∧
        (if (lowWindow op).contains a then a else lowWindow op).Has (lowWord op y) := by
    intro o y ho hy
    obtain ⟨a, ha, haw, hah⟩ := hops o ho y hy
    refine ⟨a, ha, ?_, has_clamp (has_lowWindow hop) (fun _ => lowWord_of_has hop) hah⟩
    split
    · exact haw
    · cases op <;> decide
  have hcmp : comparison op = none := by cases op <;> first | rfl | cases hop
  rcases hinst with rfl | ⟨rfl, hfit⟩
  · simp only [Machine.pureWord, bind, Option.bind_eq_some_iff] at hx
    obtain ⟨y, hy, z, hz, hx⟩ := hx
    obtain ⟨a, ha, haw, hah⟩ := hclamp (by simp [Inst.operands]) hy
    obtain ⟨d, hd, hdw, hdh⟩ := hclamp (by simp [Inst.operands]) hz
    obtain ⟨z₀, hz₀, hx⟩ := Machine.binop_narrow hop hdiv hx
    simp only [eval, ha, hd, Option.map_some, bind, Option.bind_some, pure, Option.some.injEq,
      exists_eq_left']
    exact hfinish y z z₀ _ hz₀ (Range.has_binop haw hdw hah hdh hz₀) hx
  · simp only [Machine.pureWord, bind, Option.bind_eq_some_iff] at hx
    obtain ⟨y, hy, hx⟩ := hx
    obtain ⟨a, ha, haw, hah⟩ := hclamp (by simp [Inst.operands]) hy
    obtain ⟨z₀, hz₀, hx⟩ := Machine.binop_narrow hop hdiv hx
    have hcon : (lowWindow op).contains
        (if (lowWindow op).contains a then a else lowWindow op) = true := by
      split
      · assumption
      · exact Range.contains_iff.mpr ⟨le_rfl, le_rfl⟩
    have hb := has_divmod_lowWord hop haw hcon hah hfit hz₀
    refine ⟨_, ?_, hfinish y k z₀ _ hz₀ hb hx⟩
    simp only [eval, hcmp, Option.isSome_none, Bool.false_eq_true, if_false]
    cases op with
    | div | divu | mod | modu => simp [ha]
    | _ => cases hop

end Narrow

end Badc
