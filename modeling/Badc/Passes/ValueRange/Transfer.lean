import Badc.Passes.ValueRange.Range

/-!
# Bounds of the integer operations

The transfer functions of `src/c5/codegen/passes/value_range.rs`: what bounds an operation's
result carries from bounds on its operands.  Each is sound on words (`has_arith`, `has_bitwise`,
`has_shift`, `has_divmod`, and together `has_binop`), and keeps to the register's bounds.
-/

namespace Badc

/-- Integer comparison operators, with whether they read their operands as unsigned. -/
def comparison : BinOp → Option Bool
  | .eq | .ne | .lt | .gt | .le | .ge => some false
  | .ult | .ugt | .ule | .uge => some true
  | _ => none

lemma comparison_of_fp {op : BinOp} (h : isFpOp op = true) : comparison op = none := by
  cases op <;> first | rfl | cases h

namespace Range

/-- The range lies in the register's bounds. -/
def InWord (r : Range) : Prop := univ.contains r = true

instance : DecidablePred InWord := fun r => inferInstanceAs (Decidable (univ.contains r = true))

variable {a b d r : Range} {x y : Word}

lemma inWord_iff : r.InWord ↔ -2 ^ 63 ≤ r.lo ∧ r.hi ≤ 2 ^ 63 - 1 := by
  rw [InWord, contains_iff, univ]

@[simp] lemma inWord_univ : univ.InWord := inWord_iff.mpr ⟨le_rfl, le_rfl⟩

@[simp] lemma inWord_exact (k : Word) : (exact k).InWord :=
  inWord_iff.mpr ⟨(toInt_mem k).1, (toInt_mem k).2⟩

@[simp] lemma inWord_representable (r : Range) : r.representable.InWord := by
  unfold representable
  split
  · assumption
  · exact inWord_univ

lemma toNat_of_nonneg (h : 0 ≤ x.toInt) : (x.toNat : ℤ) = x.toInt := by
  rw [BitVec.toInt_eq_toNat_cond] at h ⊢
  have := x.isLt
  split at h
  · rw [if_pos ‹_›]
  · omega

lemma toInt_of_lt (h : x.toNat < 2 ^ 63) : x.toInt = x.toNat := by
  rw [BitVec.toInt_eq_toNat_cond, if_pos (by omega)]

lemma nonneg_of_has (hr : r.nonNegative = true) (h : r.Has x) : 0 ≤ x.toInt := by
  have : 0 ≤ r.lo := by simpa [nonNegative] using hr
  exact this.trans h.1

/-! ## Addition and subtraction -/

/-- Interval addition and subtraction on the 64-bit register reading. -/
def arith (a b : Range) (sub : Bool) : Range :=
  let r : Range := if sub then ⟨a.lo - b.hi, a.hi - b.lo⟩ else ⟨a.lo + b.lo, a.hi + b.hi⟩
  if r.lo < univ.lo ∨ univ.hi < r.hi then univ else r

/-- Two spellings of the check for a register's bounds. -/
lemma ite_eq_representable (r : Range) :
    (if r.lo < univ.lo ∨ univ.hi < r.hi then univ else r) = r.representable := by
  unfold representable
  by_cases h : r.lo < univ.lo ∨ univ.hi < r.hi
  · rw [if_pos h, if_neg]
    rw [contains_iff]
    omega
  · rw [if_neg h, if_pos]
    rw [contains_iff]
    omega

lemma has_representable_of_bmod {z : ℤ} (hx : x.toInt = z.bmod (2 ^ 64)) (hlo : r.lo ≤ z)
    (hhi : z ≤ r.hi) : r.representable.Has x := by
  have : x = BitVec.ofInt 64 z := BitVec.eq_of_toInt_eq (by rw [hx, BitVec.toInt_ofInt])
  rw [this]
  exact has_representable hlo hhi

lemma has_add (hx : a.Has x) (hy : b.Has y) : (a.arith b false).Has (x + y) := by
  rw [arith, ite_eq_representable]
  exact has_representable_of_bmod (BitVec.toInt_add x y) (add_le_add hx.1 hy.1)
    (add_le_add hx.2 hy.2)

lemma has_sub (hx : a.Has x) (hy : b.Has y) : (a.arith b true).Has (x - y) := by
  rw [arith, ite_eq_representable]
  exact has_representable_of_bmod BitVec.toInt_sub (sub_le_sub hx.1 hy.2)
    (sub_le_sub hx.2 hy.1)

@[simp] lemma inWord_arith (a b : Range) (sub : Bool) : (a.arith b sub).InWord := by
  rw [arith, ite_eq_representable]
  exact inWord_representable _

/-! ## Bitwise operations -/

/-- Smallest `2^k - 1` that is at least `x`. -/
def lowMaskAbove (x : ℤ) : ℤ :=
  whileSome (fun m => if m < x then some (m * 2 + 1) else none) 128 0

/-- The mask of a register's upper bound has at most 63 bits and covers it. -/
lemma lowMaskAbove_spec {z : ℤ} (hz : z ≤ 2 ^ 63 - 1) :
    ∃ k : ℕ, k ≤ 63 ∧ lowMaskAbove z = 2 ^ k - 1 ∧ z ≤ 2 ^ k - 1 := by
  let step : ℤ → Option ℤ := fun m => if m < z then some (m * 2 + 1) else none
  let bits : ℤ → ℕ := fun m => Nat.log 2 (m + 1).toNat
  have hbits : ∀ k : ℕ, bits (2 ^ k - 1) = k := by
    intro k
    have : ((2 : ℤ) ^ k - 1 + 1).toNat = 2 ^ k := by
      rw [sub_add_cancel]
      exact Int.toNat_pow_of_nonneg (by norm_num) k
    simp only [bits, this]
    exact Nat.log_pow (by norm_num) k
  -- After `k` rounds the mask has `k` bits, and another round needs `k < 63`.
  have hstep : ∀ s s' : ℤ, (∃ k : ℕ, k ≤ 63 ∧ s = 2 ^ k - 1) → step s = some s' →
      (∃ k : ℕ, k ≤ 63 ∧ s' = 2 ^ k - 1) ∧ 63 - bits s' < 63 - bits s := by
    rintro s s' ⟨k, hk, rfl⟩ h
    simp only [step] at h
    split at h
    · rename_i hlt
      obtain rfl := Option.some.inj h
      have hne : k ≠ 63 := by
        rintro rfl
        omega
      have hnext : ((2 : ℤ) ^ k - 1) * 2 + 1 = 2 ^ (k + 1) - 1 := by ring
      rw [hnext, hbits, hbits]
      exact ⟨⟨k + 1, by omega, rfl⟩, by omega⟩
    · cases h
  have hinit : ∃ k : ℕ, k ≤ 63 ∧ (0 : ℤ) = 2 ^ k - 1 := ⟨0, by omega, by norm_num⟩
  obtain ⟨k, hk, hmask⟩ : ∃ k : ℕ, k ≤ 63 ∧ lowMaskAbove z = 2 ^ k - 1 :=
    whileSome_invariant (fun s => ∃ k : ℕ, k ≤ 63 ∧ s = 2 ^ k - 1)
      (fun s s' hs h => (hstep s s' hs h).1) 128 hinit
  have hdone : step (lowMaskAbove z) = none :=
    whileSome_done (fun s => ∃ k : ℕ, k ≤ 63 ∧ s = 2 ^ k - 1) (fun s => 63 - bits s)
      hstep hinit (by omega)
  refine ⟨k, hk, hmask, ?_⟩
  simp only [step] at hdone
  split at hdone
  · cases hdone
  · omega

/-- Whether `k` is `2^n - 1` for a positive `n`. -/
def isLowMask (k : Word) : Bool := 0 < k.toInt && k &&& (k + 1) = 0

/-- Bounds of a bitwise `or` or `xor` of two non-negative ranges. -/
def bitwise (a b : Range) (or : Bool) : Range :=
  if !(a.nonNegative && b.nonNegative) then univ
  else ⟨if or then max a.lo b.lo else 0, lowMaskAbove (max a.hi b.hi)⟩

/-- What two non-negative words have in common with their mask. -/
lemma bitwise_bounds (ha : a.InWord) (hb : b.InWord) (hx : a.Has x) (hy : b.Has y)
    (hna : a.nonNegative = true) (hnb : b.nonNegative = true) :
    ∃ k : ℕ, k ≤ 63 ∧ lowMaskAbove (max a.hi b.hi) = 2 ^ k - 1 ∧ x.toNat < 2 ^ k ∧
      y.toNat < 2 ^ k := by
  rw [inWord_iff] at ha hb
  obtain ⟨k, hk, hmask, hle⟩ := lowMaskAbove_spec (max_le ha.2 hb.2)
  have hx0 := toNat_of_nonneg (nonneg_of_has hna hx)
  have hy0 := toNat_of_nonneg (nonneg_of_has hnb hy)
  have hxle : x.toInt ≤ 2 ^ k - 1 := hx.2.trans ((le_max_left _ _).trans hle)
  have hyle : y.toInt ≤ 2 ^ k - 1 := hy.2.trans ((le_max_right _ _).trans hle)
  refine ⟨k, hk, hmask, ?_, ?_⟩
  · zify
    omega
  · zify
    omega

lemma has_of_lt_two_pow {k : ℕ} (hk : k ≤ 63) (hx : x.toNat < 2 ^ k) :
    0 ≤ x.toInt ∧ x.toInt ≤ 2 ^ k - 1 := by
  have hpow : 2 ^ k ≤ 2 ^ 63 := Nat.pow_le_pow_right two_pos hk
  rw [toInt_of_lt (by omega)]
  zify at hx
  omega

/-- An `or` lies in its bounds. -/
lemma has_or (ha : a.InWord) (hb : b.InWord) (hx : a.Has x) (hy : b.Has y) :
    (a.bitwise b true).Has (x ||| y) := by
  unfold bitwise
  split
  · exact has_univ _
  · rename_i h
    simp only [Bool.not_eq_true', Bool.not_eq_false, Bool.and_eq_true] at h
    obtain ⟨k, hk, hmask, hxk, hyk⟩ := bitwise_bounds ha hb hx hy h.1 h.2
    have hlt : (x ||| y).toNat < 2 ^ k := by
      rw [BitVec.toNat_or]
      exact Nat.or_lt_two_pow hxk hyk
    have hval := toNat_of_nonneg (has_of_lt_two_pow hk hlt).1
    refine ⟨?_, by rw [hmask]; exact (has_of_lt_two_pow hk hlt).2⟩
    -- The result is at least each operand.
    rw [if_pos rfl, ← hval, BitVec.toNat_or]
    refine max_le (hx.1.trans ?_) (hy.1.trans ?_)
    · rw [← toNat_of_nonneg (nonneg_of_has h.1 hx)]
      exact_mod_cast Nat.left_le_or
    · rw [← toNat_of_nonneg (nonneg_of_has h.2 hy)]
      exact_mod_cast Nat.right_le_or

/-- An exclusive `or` lies in its bounds. -/
lemma has_xor (ha : a.InWord) (hb : b.InWord) (hx : a.Has x) (hy : b.Has y) :
    (a.bitwise b false).Has (x ^^^ y) := by
  unfold bitwise
  split
  · exact has_univ _
  · rename_i h
    simp only [Bool.not_eq_true', Bool.not_eq_false, Bool.and_eq_true] at h
    obtain ⟨k, hk, hmask, hxk, hyk⟩ := bitwise_bounds ha hb hx hy h.1 h.2
    have hlt : (x ^^^ y).toNat < 2 ^ k := by
      rw [BitVec.toNat_xor]
      exact Nat.xor_lt_two_pow hxk hyk
    obtain ⟨h1, h2⟩ := has_of_lt_two_pow hk hlt
    exact ⟨h1, by rw [hmask]; exact h2⟩

/-- `bitwise` keeps to the register's bounds. -/
lemma inWord_bitwise (ha : a.InWord) (hb : b.InWord) (or : Bool) : (a.bitwise b or).InWord := by
  unfold bitwise
  split
  · exact inWord_univ
  · rename_i h
    simp only [nonNegative, Bool.not_eq_true', Bool.not_eq_false, Bool.and_eq_true,
      decide_eq_true_eq] at h
    rw [inWord_iff] at ha hb ⊢
    obtain ⟨k, hk, hmask, -⟩ := lowMaskAbove_spec (max_le ha.2 hb.2)
    have hpow : (2 : ℤ) ^ k ≤ 2 ^ 63 := pow_le_pow_right₀ (by norm_num) hk
    constructor
    · dsimp only
      split <;> omega
    · dsimp only
      omega

/-- A mask by a non-negative word lies below the mask, and below a non-negative operand. -/
lemma and_bounds (hy : 0 ≤ y.toInt) :
    0 ≤ (x &&& y).toInt ∧ (x &&& y).toInt ≤ y.toInt ∧
      (0 ≤ x.toInt → (x &&& y).toInt ≤ x.toInt) := by
  have hy' := toNat_of_nonneg hy
  have hyl := (toInt_mem y).2
  have hle : (x &&& y).toNat ≤ y.toNat := by
    rw [BitVec.toNat_and]
    exact Nat.and_le_right
  rw [toInt_of_lt (show (x &&& y).toNat < 2 ^ 63 by omega)]
  refine ⟨by omega, by omega, fun hx => ?_⟩
  rw [← toNat_of_nonneg hx, BitVec.toNat_and]
  exact_mod_cast Nat.and_le_left

/-! ## Shifts -/

/-- Bounds of a shift by a constant; a count outside `0 ..= 63` carries none. -/
def shift (a : Range) (count : Word) (op : BinOp) : Range :=
  if !(0 ≤ count.toInt && count.toInt < 64) then univ
  else
    let k := count.toNat
    let r : Range := match op with
      | .shl => ⟨a.lo * 2 ^ k, a.hi * 2 ^ k⟩
      | .shr => ⟨a.lo / 2 ^ k, a.hi / 2 ^ k⟩
      | _ =>
        if !a.nonNegative then ⟨0, (2 ^ 64 - 1) / 2 ^ k⟩ else ⟨a.lo / 2 ^ k, a.hi / 2 ^ k⟩
    if r.lo < univ.lo ∨ univ.hi < r.hi then univ else r

@[simp] lemma inWord_shift (a : Range) (count : Word) (op : BinOp) : (a.shift count op).InWord := by
  unfold shift
  split
  · exact inWord_univ
  · rw [ite_eq_representable]
    exact inWord_representable _

lemma shiftLeft_eq_ofInt (x : Word) (k : ℕ) : x <<< k = BitVec.ofInt 64 (x.toInt * 2 ^ k) := by
  rw [BitVec.ofInt_mul, BitVec.ofInt_toInt, BitVec.shiftLeft_eq_mul_twoPow]
  congr 1
  apply BitVec.eq_of_toNat_eq
  rw [BitVec.toNat_twoPow, show (2 : ℤ) ^ k = ((2 ^ k : ℕ) : ℤ) by push_cast; rfl,
    BitVec.ofInt_natCast, BitVec.toNat_ofNat]

lemma has_representable_of_has (h : r.Has x) : r.representable.Has x := by
  unfold representable
  split
  · exact h
  · exact has_univ x

/-- A shifted word lies in the bounds of the shift. -/
lemma has_shift {count : Word} (sh : ShiftKind) (hx : a.Has x) {z : Word}
    (hz : applyBinop sh.binop x count = some z) : (a.shift count sh.binop).Has z := by
  unfold shift
  split
  · exact has_univ _
  · rename_i h
    simp only [Bool.not_eq_true', Bool.not_eq_false, Bool.and_eq_true, decide_eq_true_eq] at h
    have hcount := toNat_of_nonneg h.1
    have hk : count.toNat < 64 := by omega
    have hpos : (0 : ℤ) < 2 ^ count.toNat := by positivity
    rw [ite_eq_representable]
    cases sh with
    | shl =>
      simp only [ShiftKind.binop, applyBinop, Nat.mod_eq_of_lt hk, Option.some.injEq] at hz ⊢
      rw [← hz, shiftLeft_eq_ofInt]
      exact has_representable (mul_le_mul_of_nonneg_right hx.1 hpos.le)
        (mul_le_mul_of_nonneg_right hx.2 hpos.le)
    | shr =>
      simp only [ShiftKind.binop, applyBinop, Nat.mod_eq_of_lt hk, Option.some.injEq] at hz ⊢
      apply has_representable_of_has
      rw [← hz, Has, BitVec.toInt_sshiftRight, Int.shiftRight_eq_div_pow]
      push_cast
      exact ⟨Int.ediv_le_ediv hpos hx.1, Int.ediv_le_ediv hpos hx.2⟩
    | shru =>
      simp only [ShiftKind.binop, applyBinop, Nat.mod_eq_of_lt hk, Option.some.injEq] at hz ⊢
      have hval : ((x >>> count.toNat).toNat : ℤ) = x.toNat / 2 ^ count.toNat := by
        rw [BitVec.toNat_ushiftRight, Nat.shiftRight_eq_div_pow]
        push_cast
        rfl
      have hxlt := x.isLt
      rw [← hz]
      split
      · -- Only the width bounds the shift of a value that may be negative.
        have hle : (x.toNat : ℤ) / 2 ^ count.toNat ≤ (2 ^ 64 - 1) / 2 ^ count.toNat :=
          Int.ediv_le_ediv hpos (by omega)
        have hge : 0 ≤ (x.toNat : ℤ) / 2 ^ count.toNat := Int.ediv_nonneg (by omega) hpos.le
        refine has_representable_of_bmod (BitVec.toInt_eq_toNat_bmod _) ?_ ?_
        · rw [hval]
          exact hge
        · rw [hval]
          exact hle
      · rename_i hneg
        have hx0 := toNat_of_nonneg (nonneg_of_has (by simpa using hneg) hx)
        refine has_representable_of_bmod (BitVec.toInt_eq_toNat_bmod _) ?_ ?_
        · rw [hval, hx0]
          exact Int.ediv_le_ediv hpos hx.1
        · rw [hval, hx0]
          exact Int.ediv_le_ediv hpos hx.2

/-! ## Division -/

/-- Largest magnitude in the range. -/
def magnitude (r : Range) : ℤ := max |r.lo| |r.hi|

/-- Bounds of `a / d`; the truncating quotient takes its extremes at the corners while the
divisor keeps its sign. -/
def quotient (a d : Range) (unsigned : Bool) : Range :=
  if unsigned then
    match a.nonNegative, decide (0 < d.lo) with
    | true, true => ⟨a.lo.tdiv d.hi, a.hi.tdiv d.lo⟩
    | true, false => ⟨0, a.hi⟩
    | false, true => if 1 < d.lo then ⟨0, (2 ^ 64 - 1 : ℤ).tdiv d.lo⟩ else univ
    | false, false => univ
  else if d.lo ≤ 0 ∧ 0 ≤ d.hi then representable ⟨-a.magnitude, a.magnitude⟩
  else
    let corner := fun f : ℤ → ℤ → ℤ =>
      f (f (f (a.lo.tdiv d.lo) (a.lo.tdiv d.hi)) (a.hi.tdiv d.lo)) (a.hi.tdiv d.hi)
    representable ⟨corner min, corner max⟩

/-- Bounds of `a % d`. -/
def remainder (a d : Range) (unsigned : Bool) : Range :=
  if unsigned then
    match a.nonNegative, if 0 < d.lo then some (d.hi - 1) else none with
    | true, some m => ⟨0, min a.hi m⟩
    | true, none => ⟨0, a.hi⟩
    | false, some m => ⟨0, m⟩
    | false, none => univ
  else
    let byDividend : Range := ⟨min a.lo 0, max a.hi 0⟩
    if d.lo ≤ 0 ∧ 0 ≤ d.hi then byDividend
    else byDividend.meet ⟨-(d.magnitude - 1), d.magnitude - 1⟩

/-- Bounds of a division or remainder over operand ranges; an empty one says nothing. -/
def divmod (op : BinOp) (a d : Range) : Range :=
  if a.hi < a.lo ∨ d.hi < d.lo then univ
  else match op with
    | .div => a.quotient d false
    | .divu => a.quotient d true
    | .mod => a.remainder d false
    | _ => a.remainder d true

/-- A member's magnitude is at most the range's. -/
lemma abs_le_magnitude {z : ℤ} (hlo : r.lo ≤ z) (hhi : z ≤ r.hi) : |z| ≤ r.magnitude := by
  refine abs_le.mpr ⟨?_, ?_⟩
  · have := neg_abs_le r.lo
    have := le_max_left |r.lo| |r.hi|
    unfold magnitude
    omega
  · have := le_abs_self r.hi
    have := le_max_right |r.lo| |r.hi|
    unfold magnitude
    omega

lemma abs_tdiv_le (z w : ℤ) : |z.tdiv w| ≤ |z| := by
  rw [Int.abs_eq_natAbs, Int.abs_eq_natAbs]
  exact_mod_cast Int.natAbs_tdiv_le_natAbs z w

/-- Over a positive divisor, the quotient lies between those of the divisor's bounds. -/
lemma tdiv_between {z w l h : ℤ} (hl : 0 < l) (hlw : l ≤ w) (hwh : w ≤ h) :
    min (z.tdiv l) (z.tdiv h) ≤ z.tdiv w ∧ z.tdiv w ≤ max (z.tdiv l) (z.tdiv h) := by
  -- On a non-negative dividend the quotient falls with the divisor.
  have hanti : ∀ y u v : ℤ, 0 ≤ y → 0 < u → u ≤ v → y.tdiv v ≤ y.tdiv u := by
    intro y u v hy hu huv
    rw [Int.tdiv_eq_ediv_of_nonneg hy, Int.tdiv_eq_ediv_of_nonneg hy]
    have hq : 0 ≤ y / v := Int.ediv_nonneg hy (by omega)
    refine (Int.le_ediv_iff_mul_le hu).mpr ?_
    exact (mul_le_mul_of_nonneg_left huv hq).trans (Int.ediv_mul_le y (by omega))
  rcases le_total 0 z with hz | hz
  · exact ⟨min_le_of_right_le (hanti z w h hz (by omega) hwh),
      le_max_of_le_left (hanti z l w hz hl hlw)⟩
  · have hneg : ∀ u, z.tdiv u = -((-z).tdiv u) := fun u => by rw [Int.neg_tdiv, neg_neg]
    have h1 := hanti (-z) w h (by omega) (by omega) hwh
    have h2 := hanti (-z) l w (by omega) hl hlw
    refine ⟨min_le_of_left_le ?_, le_max_of_le_right ?_⟩
    · rw [hneg l, hneg w]
      omega
    · rw [hneg w, hneg h]
      omega

/-- Over a divisor that keeps its sign, the quotient lies between those of the divisor's
bounds. -/
lemma tdiv_between_of_sign {z w l h : ℤ} (hsign : ¬ (l ≤ 0 ∧ 0 ≤ h)) (hlw : l ≤ w) (hwh : w ≤ h) :
    min (z.tdiv l) (z.tdiv h) ≤ z.tdiv w ∧ z.tdiv w ≤ max (z.tdiv l) (z.tdiv h) := by
  by_cases hl : 0 < l
  · exact tdiv_between hl hlw hwh
  · have hneg : ∀ u, z.tdiv u = -(z.tdiv (-u)) := fun u => by rw [Int.tdiv_neg, neg_neg]
    obtain ⟨h1, h2⟩ := tdiv_between (z := z) (w := -w) (l := -h) (h := -l) (by omega) (by omega)
      (by omega)
    rw [hneg l, hneg h, hneg w]
    omega

/-- In the dividend the quotient is monotone, up or down with the divisor's sign. -/
lemma tdiv_between_dividend {z w l h : ℤ} (hlz : l ≤ z) (hzh : z ≤ h) :
    min (l.tdiv w) (h.tdiv w) ≤ z.tdiv w ∧ z.tdiv w ≤ max (l.tdiv w) (h.tdiv w) := by
  rcases lt_trichotomy 0 w with hw | rfl | hw
  · exact ⟨min_le_of_left_le (Int.tdiv_le_tdiv hw hlz), le_max_of_le_right (Int.tdiv_le_tdiv hw hzh)⟩
  · simp
  · have hneg : ∀ u : ℤ, u.tdiv w = -(u.tdiv (-w)) := fun u => by rw [Int.tdiv_neg, neg_neg]
    have h1 := Int.tdiv_le_tdiv (c := -w) (by omega) hlz
    have h2 := Int.tdiv_le_tdiv (c := -w) (by omega) hzh
    rw [hneg l, hneg h, hneg z]
    omega

/-- A signed quotient lies in its bounds. -/
lemma has_quotient_signed (hx : a.Has x) (hy : d.Has y) :
    (a.quotient d false).Has (x.sdiv y) := by
  unfold quotient
  rw [if_neg (by decide)]
  split
  · have h1 := abs_tdiv_le x.toInt y.toInt
    have h2 := abs_le_magnitude hx.1 hx.2
    obtain ⟨h3, h4⟩ := abs_le.mp (h1.trans h2)
    exact has_representable_of_bmod (BitVec.toInt_sdiv x y) h3 h4
  · rename_i hsign
    obtain ⟨h1, h2⟩ := tdiv_between_dividend (w := y.toInt) hx.1 hx.2
    obtain ⟨h3, h4⟩ := tdiv_between_of_sign (z := a.lo) hsign hy.1 hy.2
    obtain ⟨h5, h6⟩ := tdiv_between_of_sign (z := a.hi) hsign hy.1 hy.2
    refine has_representable_of_bmod (BitVec.toInt_sdiv x y) ?_ ?_
    · dsimp only
      omega
    · dsimp only
      omega

lemma toNat_of_pos_lo (hd : 0 < d.lo) (hy : d.Has y) :
    (y.toNat : ℤ) = y.toInt ∧ d.lo ≤ y.toNat ∧ (y.toNat : ℤ) ≤ d.hi := by
  have := toNat_of_nonneg (x := y) (by have := hy.1; omega)
  exact ⟨this, this ▸ hy.1, this ▸ hy.2⟩

/-- An unsigned quotient lies in its bounds. -/
lemma has_quotient_unsigned (hx : a.Has x) (hy : d.Has y) (ha : a.InWord) (hy0 : y ≠ 0) :
    (a.quotient d true).Has (x / y) := by
  have hpos : 0 < y.toNat := by
    rw [Nat.pos_iff_ne_zero]
    exact fun h => hy0 (BitVec.eq_of_toNat_eq (by simpa using h))
  have hval : (x / y).toNat = x.toNat / y.toNat := BitVec.toNat_udiv
  have hle : x.toNat / y.toNat ≤ x.toNat := Nat.div_le_self _ _
  rw [inWord_iff] at ha
  unfold quotient
  rw [if_pos rfl]
  cases hna : a.nonNegative with
  | true =>
    have hx0 := toNat_of_nonneg (nonneg_of_has hna hx)
    have hxh := hx.2
    have hsmall : (x / y).toInt = x.toNat / y.toNat := by
      rw [toInt_of_lt (by omega), hval]
      push_cast
      rfl
    by_cases hd : 0 < d.lo
    · obtain ⟨-, hlo, hhi⟩ := toNat_of_pos_lo hd hy
      have hal : 0 ≤ a.lo := by simpa [nonNegative] using hna
      simp only [hd, decide_true, Has, hsmall]
      rw [Int.tdiv_eq_ediv_of_nonneg hal, Int.tdiv_eq_ediv_of_nonneg (by omega : 0 ≤ a.hi), hx0]
      constructor
      · refine (Int.le_ediv_iff_mul_le (by omega)).mpr ?_
        have hq : 0 ≤ a.lo / d.hi := Int.ediv_nonneg hal (by omega)
        exact ((mul_le_mul_of_nonneg_left hhi hq).trans (Int.ediv_mul_le _ (by omega))).trans hx.1
      · refine (Int.le_ediv_iff_mul_le hd).mpr ?_
        have hq : 0 ≤ x.toInt / (y.toNat : ℤ) := Int.ediv_nonneg (by omega) (by omega)
        exact ((mul_le_mul_of_nonneg_left hlo hq).trans (Int.ediv_mul_le _ (by omega))).trans hx.2
    · simp only [hd, decide_false, Has]
      rw [toInt_of_lt (by omega), hval]
      constructor
      · exact_mod_cast Nat.zero_le _
      · have : ((x.toNat / y.toNat : ℕ) : ℤ) ≤ x.toNat := by exact_mod_cast hle
        omega
  | false =>
    by_cases hd : 0 < d.lo
    · simp only [hd, decide_true]
      split
      · rename_i h1
        obtain ⟨-, hlo, -⟩ := toNat_of_pos_lo hd hy
        have hxlt := x.isLt
        have hhalf : x.toNat / y.toNat < 2 ^ 63 := by
          rw [Nat.div_lt_iff_lt_mul hpos]
          have : 2 ≤ y.toNat := by omega
          nlinarith
        rw [Has, toInt_of_lt (by omega), hval]
        refine ⟨Int.natCast_nonneg _, ?_⟩
        rw [Int.tdiv_eq_ediv_of_nonneg (by norm_num)]
        refine (Int.le_ediv_iff_mul_le hd).mpr ?_
        have h2 : x.toNat / y.toNat * y.toNat ≤ x.toNat := Nat.div_mul_le_self _ _
        have h3 : ((x.toNat / y.toNat : ℕ) : ℤ) * d.lo ≤ (x.toNat / y.toNat : ℕ) * (y.toNat : ℤ) :=
          mul_le_mul_of_nonneg_left hlo (by exact_mod_cast Nat.zero_le _)
        have h4 : ((x.toNat / y.toNat : ℕ) : ℤ) * (y.toNat : ℤ) ≤ x.toNat := by exact_mod_cast h2
        omega
      · exact has_univ _
    · simp only [hd, decide_false]
      exact has_univ _

/-- A signed remainder lies in its bounds. -/
lemma has_remainder_signed (hx : a.Has x) (hy : d.Has y) (hy0 : y ≠ 0) :
    (a.remainder d false).Has (x.srem y) := by
  have hne : y.toInt ≠ 0 := fun h => hy0 (BitVec.eq_of_toInt_eq (by simpa using h))
  -- The result has the dividend's sign and at most its magnitude.
  have hdiv : min a.lo 0 ≤ x.toInt.tmod y.toInt ∧ x.toInt.tmod y.toInt ≤ max a.hi 0 := by
    have hx1 := hx.1
    have hx2 := hx.2
    have hle : (x.toInt.tmod y.toInt).natAbs ≤ x.toInt.natAbs := by
      rw [Int.natAbs_tmod]
      exact Nat.mod_le _ _
    rcases le_total 0 x.toInt with h | h
    · have h1 := Int.tmod_nonneg y.toInt h
      omega
    · have h1 := Int.tmod_nonneg y.toInt (show 0 ≤ -x.toInt by omega)
      rw [Int.neg_tmod] at h1
      omega
  unfold remainder
  rw [if_neg (by decide)]
  dsimp only
  split
  · rw [Has, BitVec.toInt_srem]
    exact hdiv
  · rw [has_meet, Has, Has, BitVec.toInt_srem]
    have hm := abs_le_magnitude hy.1 hy.2
    have hlt : |x.toInt.tmod y.toInt| < |y.toInt| := by
      rw [Int.abs_eq_natAbs, Int.abs_eq_natAbs, Int.natAbs_tmod]
      exact_mod_cast Nat.mod_lt _ (Int.natAbs_pos.mpr hne)
    obtain ⟨h1, h2⟩ := abs_lt.mp (hlt.trans_le hm)
    dsimp only
    exact ⟨hdiv, by omega, by omega⟩

/-- An unsigned remainder lies in its bounds. -/
lemma has_remainder_unsigned (hx : a.Has x) (hy : d.Has y) (ha : a.InWord) (hd : d.InWord)
    (hy0 : y ≠ 0) : (a.remainder d true).Has (x % y) := by
  have hpos : 0 < y.toNat := by
    rw [Nat.pos_iff_ne_zero]
    exact fun h => hy0 (BitVec.eq_of_toNat_eq (by simpa using h))
  have hval : (x % y).toNat = x.toNat % y.toNat := BitVec.toNat_umod
  have hle : x.toNat % y.toNat ≤ x.toNat := Nat.mod_le _ _
  have hlt : x.toNat % y.toNat < y.toNat := Nat.mod_lt _ hpos
  rw [inWord_iff] at ha hd
  unfold remainder
  rw [if_pos rfl]
  cases hna : a.nonNegative with
  | true =>
    have hx0 := toNat_of_nonneg (nonneg_of_has hna hx)
    have hxh := hx.2
    by_cases hdl : 0 < d.lo
    · obtain ⟨-, -, hhi⟩ := toNat_of_pos_lo hdl hy
      simp only [hdl, if_true, Has]
      rw [toInt_of_lt (by omega), hval]
      omega
    · simp only [hdl, if_false, Has]
      rw [toInt_of_lt (by omega), hval]
      omega
  | false =>
    by_cases hdl : 0 < d.lo
    · obtain ⟨-, -, hhi⟩ := toNat_of_pos_lo hdl hy
      simp only [hdl, if_true, Has]
      rw [toInt_of_lt (by omega), hval]
      omega
    · simp only [hdl, if_false]
      exact has_univ _

/-- A division or remainder that has a result lies in its bounds. -/
lemma has_divmod {op : BinOp} (hop : isDivmodOp op = true) (ha : a.InWord) (hd : d.InWord)
    (hx : a.Has x) (hy : d.Has y) {z : Word} (hz : applyBinop op x y = some z) :
    (divmod op a d).Has z := by
  have hne : ¬ (a.hi < a.lo ∨ d.hi < d.lo) := by
    have := hx.1.trans hx.2
    have := hy.1.trans hy.2
    omega
  unfold divmod
  rw [if_neg hne]
  cases op with
  | div =>
    obtain ⟨-, hz⟩ := Option.ite_none_left_eq_some.mp hz
    obtain rfl := Option.some.inj hz
    exact has_quotient_signed hx hy
  | divu =>
    obtain ⟨hy0, hz⟩ := Option.ite_none_left_eq_some.mp hz
    obtain rfl := Option.some.inj hz
    exact has_quotient_unsigned hx hy ha hy0
  | mod =>
    obtain ⟨hy0, hz⟩ := Option.ite_none_left_eq_some.mp hz
    obtain rfl := Option.some.inj hz
    exact has_remainder_signed hx hy hy0
  | modu =>
    obtain ⟨hy0, hz⟩ := Option.ite_none_left_eq_some.mp hz
    obtain rfl := Option.some.inj hz
    exact has_remainder_unsigned hx hy ha hd hy0
  | _ => cases hop

/-- `quotient` of nonempty ranges keeps to the register's bounds. -/
lemma inWord_quotient (ha : a.InWord) (hane : a.lo ≤ a.hi) (hdne : d.lo ≤ d.hi) (u : Bool) :
    (a.quotient d u).InWord := by
  unfold quotient
  split
  · split
    · rename_i hna hpos
      have hal : 0 ≤ a.lo := by simpa [nonNegative] using hna
      have hdl : 0 < d.lo := by simpa using hpos
      rw [inWord_iff] at ha ⊢
      have h1 := Int.tdiv_nonneg hal (show 0 ≤ d.hi by omega)
      have h2 : a.hi.tdiv d.lo ≤ a.hi := by
        rw [Int.tdiv_eq_ediv_of_nonneg (by omega)]
        exact Int.ediv_le_self _ (by omega)
      dsimp only
      omega
    · rw [inWord_iff] at ha ⊢
      dsimp only
      omega
    · split
      · rename_i h1
        rw [inWord_iff, Int.tdiv_eq_ediv_of_nonneg (by norm_num)]
        refine ⟨by norm_num, ?_⟩
        refine Int.le_of_lt_add_one (Int.ediv_lt_of_lt_mul (by omega) ?_)
        omega
      · exact inWord_univ
    · exact inWord_univ
  · split
    · exact inWord_representable _
    · exact inWord_representable _

/-- `remainder` keeps to the register's bounds. -/
lemma inWord_remainder (ha : a.InWord) (hd : d.InWord) (u : Bool) : (a.remainder d u).InWord := by
  unfold remainder
  rw [inWord_iff] at ha hd
  split
  · split
    · rw [inWord_iff]
      dsimp only
      omega
    · rw [inWord_iff]
      dsimp only
      omega
    · rename_i hm
      rw [inWord_iff]
      split at hm
      · obtain rfl := Option.some.inj hm
        dsimp only
        omega
      · cases hm
    · exact inWord_univ
  · dsimp only
    split
    · rw [inWord_iff]
      dsimp only
      omega
    · rw [inWord_iff]
      simp only [meet]
      omega

/-- `divmod` keeps to the register's bounds. -/
lemma inWord_divmod (op : BinOp) (ha : a.InWord) (hd : d.InWord) : (divmod op a d).InWord := by
  unfold divmod
  split
  · exact inWord_univ
  · have hane : a.lo ≤ a.hi := by omega
    have hdne : d.lo ≤ d.hi := by omega
    split
    · exact inWord_quotient ha hane hdne false
    · exact inWord_quotient ha hane hdne true
    · exact inWord_remainder ha hd false
    · exact inWord_remainder ha hd true

/-! ## Binary operations -/

/-- Bounds of the register-operand integer operation `op` over `a` and `b`. -/
def binop (op : BinOp) (a b : Range) : Range :=
  if (comparison op).isSome then ⟨0, 1⟩
  else match op with
    | .and => match a.nonNegative, b.nonNegative with
      | true, true => ⟨0, min a.hi b.hi⟩
      | true, false => ⟨0, a.hi⟩
      | false, true => ⟨0, b.hi⟩
      | false, false => univ
    | .add => a.arith b false
    | .sub => a.arith b true
    | .or => a.bitwise b true
    | .xor => a.bitwise b false
    | .div | .divu | .mod | .modu => divmod op a b
    | _ => univ

lemma has_boolWord (t : Bool) : (⟨0, 1⟩ : Range).Has (boolWord t) := by
  cases t
  · exact ⟨by decide, by decide⟩
  · exact ⟨by decide, by decide⟩

lemma has_comparison {op : BinOp} (hop : (comparison op).isSome) {z : Word}
    (hz : applyBinop op x y = some z) : (⟨0, 1⟩ : Range).Has z := by
  cases op with
  | eq | ne | lt | gt | le | ge | ult | ugt | ule | uge =>
    obtain rfl := Option.some.inj hz
    exact has_boolWord _
  | _ => cases hop

/-- The result of an integer operation lies in its bounds. -/
theorem has_binop {op : BinOp} (ha : a.InWord) (hb : b.InWord) (hx : a.Has x) (hy : b.Has y)
    {z : Word} (hz : applyBinop op x y = some z) : (binop op a b).Has z := by
  unfold binop
  split
  · exact has_comparison ‹_› hz
  · cases op with
    | and =>
      obtain rfl := Option.some.inj hz
      cases hna : a.nonNegative with
      | true =>
        obtain ⟨h1, h2, h3⟩ := and_bounds (x := y) (nonneg_of_has hna hx)
        rw [BitVec.and_comm] at h1 h2 h3
        cases hnb : b.nonNegative with
        | true => exact ⟨h1, le_min (h2.trans hx.2) ((h3 (nonneg_of_has hnb hy)).trans hy.2)⟩
        | false => exact ⟨h1, h2.trans hx.2⟩
      | false =>
        cases hnb : b.nonNegative with
        | true =>
          obtain ⟨h1, h2, -⟩ := and_bounds (x := x) (nonneg_of_has hnb hy)
          exact ⟨h1, h2.trans hy.2⟩
        | false => exact has_univ _
    | add =>
      obtain rfl := Option.some.inj hz
      exact has_add hx hy
    | sub =>
      obtain rfl := Option.some.inj hz
      exact has_sub hx hy
    | or =>
      obtain rfl := Option.some.inj hz
      exact has_or ha hb hx hy
    | xor =>
      obtain rfl := Option.some.inj hz
      exact has_xor ha hb hx hy
    | div | divu | mod | modu => exact has_divmod rfl ha hb hx hy hz
    | _ => exact has_univ _

/-- `binop` keeps to the register's bounds. -/
lemma inWord_binop (op : BinOp) (ha : a.InWord) (hb : b.InWord) : (binop op a b).InWord := by
  unfold binop
  rw [inWord_iff] at ha hb
  split
  · exact inWord_iff.mpr ⟨by norm_num, by norm_num⟩
  · cases op with
    | and =>
      dsimp only
      split
      all_goals
        first
        | exact inWord_univ
        | rw [inWord_iff]
          dsimp only
          omega
    | add | sub => exact inWord_arith _ _ _
    | or | xor => exact inWord_bitwise (inWord_iff.mpr ha) (inWord_iff.mpr hb) _
    | div | divu | mod | modu => exact inWord_divmod _ (inWord_iff.mpr ha) (inWord_iff.mpr hb)
    | _ => exact inWord_univ

lemma binop_of_comparison {op : BinOp} (hop : (comparison op).isSome) (a b : Range) :
    binop op a b = ⟨0, 1⟩ := by
  unfold binop
  exact if_pos hop

lemma binop_of_fp {op : BinOp} (hop : isFpOp op = true) (a b : Range) : binop op a b = univ := by
  cases op with
  | fadd | fsub | fmul | fmulContractible | fdiv | feq | fne | flt | fgt | fle | fge | fone
  | funo => rfl
  | _ => cases hop

end Range

end Badc
