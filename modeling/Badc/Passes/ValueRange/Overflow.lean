import Badc.Passes.ValueRange.Transfer
import Badc.Lib.Checked

/-!
# The transfer functions in `i128`

`Transfer` computes the bounds of `src/c5/codegen/passes/value_range.rs` on the integers.  The
source computes them in `i128`, where a sum, a product, a shift, a magnitude or a negation may
overflow and a quotient may divide by zero.  Each function is written here once more with every
intermediate result checked (`arithChecked` … `binopChecked`), and on nonempty operand ranges in a
register's bounds each has the value the integers give.
-/

namespace Badc.Range

variable {a b d r : Range} {x y z : Word}

/-- A value of type `i128`. -/
abbrev i128 (z : ℤ) : Option ℤ := checked 128 z

lemma i128_of_bounds {z : ℤ} (h1 : -2 ^ 126 ≤ z) (h2 : z ≤ 2 ^ 126) : i128 z = some z :=
  checked_of_fits ⟨by norm_num at h1 ⊢; omega, by norm_num at h2 ⊢; omega⟩

/-- `arith` with its sums in `i128`. -/
def arithChecked (a b : Range) (sub : Bool) : Option Range := do
  let lo ← if sub then i128 (a.lo - b.hi) else i128 (a.lo + b.lo)
  let hi ← if sub then i128 (a.hi - b.lo) else i128 (a.hi + b.hi)
  return if lo < univ.lo ∨ univ.hi < hi then univ else ⟨lo, hi⟩

/-- `low_mask_above` in `i128`, from the mask `m`; none where the rounds run out. -/
def lowMaskAboveChecked (x : ℤ) : ℕ → ℤ → Option ℤ
  | 0, _ => none
  | fuel + 1, m =>
    if m < x then do
      let m2 ← i128 (m * 2)
      let m' ← i128 (m2 + 1)
      lowMaskAboveChecked x fuel m'
    else some m

/-- `bitwise` with its mask in `i128`. -/
def bitwiseChecked (a b : Range) (or : Bool) : Option Range :=
  if !(a.nonNegative && b.nonNegative) then some univ
  else do
    let hi ← lowMaskAboveChecked (max a.hi b.hi) 128 0
    return ⟨if or then max a.lo b.lo else 0, hi⟩

/-- `shift` with its left shifts in `i128`; a right shift overflows nowhere. -/
def shiftChecked (a : Range) (count : Word) (op : BinOp) : Option Range :=
  if !(0 ≤ count.toInt && count.toInt < 64) then some univ
  else do
    let k := count.toNat
    let r ← match op with
      | .shl => do pure (⟨← i128 (a.lo * 2 ^ k), ← i128 (a.hi * 2 ^ k)⟩ : Range)
      | .shr => pure ⟨a.lo / 2 ^ k, a.hi / 2 ^ k⟩
      | _ =>
        if !a.nonNegative then pure ⟨0, (2 ^ 64 - 1) / 2 ^ k⟩
        else pure ⟨a.lo / 2 ^ k, a.hi / 2 ^ k⟩
    return if r.lo < univ.lo ∨ univ.hi < r.hi then univ else r

/-- `magnitude` in `i128`. -/
def magnitudeChecked (r : Range) : Option ℤ := do
  return max (← i128 |r.lo|) (← i128 |r.hi|)

/-- `quotient` with its divisions and negation in `i128`. -/
def quotientChecked (a d : Range) (unsigned : Bool) : Option Range :=
  if unsigned then
    match a.nonNegative, decide (0 < d.lo) with
    | true, true => do return ⟨← checkedDiv 128 a.lo d.hi, ← checkedDiv 128 a.hi d.lo⟩
    | true, false => some ⟨0, a.hi⟩
    | false, true =>
      if 1 < d.lo then do return ⟨0, ← checkedDiv 128 (2 ^ 64 - 1) d.lo⟩ else some univ
    | false, false => some univ
  else if d.lo ≤ 0 ∧ 0 ≤ d.hi then do
    let m ← a.magnitudeChecked
    return representable ⟨← i128 (-m), m⟩
  else do
    let c1 ← checkedDiv 128 a.lo d.lo
    let c2 ← checkedDiv 128 a.lo d.hi
    let c3 ← checkedDiv 128 a.hi d.lo
    let c4 ← checkedDiv 128 a.hi d.hi
    return representable ⟨min (min (min c1 c2) c3) c4, max (max (max c1 c2) c3) c4⟩

/-- `remainder` with its differences and negation in `i128`. -/
def remainderChecked (a d : Range) (unsigned : Bool) : Option Range :=
  if unsigned then do
    let below ← if 0 < d.lo then (i128 (d.hi - 1)).map some else some none
    return match a.nonNegative, below with
    | true, some m => ⟨0, min a.hi m⟩
    | true, none => ⟨0, a.hi⟩
    | false, some m => ⟨0, m⟩
    | false, none => univ
  else
    let byDividend : Range := ⟨min a.lo 0, max a.hi 0⟩
    if d.lo ≤ 0 ∧ 0 ≤ d.hi then some byDividend
    else do
      let m ← i128 ((← d.magnitudeChecked) - 1)
      return byDividend.meet ⟨← i128 (-m), m⟩

/-- `divmod` in `i128`. -/
def divmodChecked (op : BinOp) (a d : Range) : Option Range :=
  if a.hi < a.lo ∨ d.hi < d.lo then some univ
  else match op with
    | .div => a.quotientChecked d false
    | .divu => a.quotientChecked d true
    | .mod => a.remainderChecked d false
    | _ => a.remainderChecked d true

/-- `binop` in `i128`. -/
def binopChecked (op : BinOp) (a b : Range) : Option Range :=
  if (comparison op).isSome then some ⟨0, 1⟩
  else match op with
    | .and => some <| match a.nonNegative, b.nonNegative with
      | true, true => ⟨0, min a.hi b.hi⟩
      | true, false => ⟨0, a.hi⟩
      | false, true => ⟨0, b.hi⟩
      | false, false => univ
    | .add => a.arithChecked b false
    | .sub => a.arithChecked b true
    | .or => a.bitwiseChecked b true
    | .xor => a.bitwiseChecked b false
    | .div | .divu | .mod | .modu => divmodChecked op a b
    | _ => some univ

lemma endpoints (ha : a.InWord) (hne : a.lo ≤ a.hi) :
    (-2 ^ 63 ≤ a.lo ∧ a.lo < 2 ^ 63) ∧ -2 ^ 63 ≤ a.hi ∧ a.hi < 2 ^ 63 := by
  rw [inWord_iff] at ha
  omega

/-- Sums of endpoints do not overflow. -/
lemma arithChecked_eq (ha : a.InWord) (hb : b.InWord) (hane : a.lo ≤ a.hi) (hbne : b.lo ≤ b.hi)
    (sub : Bool) : a.arithChecked b sub = some (a.arith b sub) := by
  obtain ⟨⟨_, _⟩, _, _⟩ := endpoints ha hane
  obtain ⟨⟨_, _⟩, _, _⟩ := endpoints hb hbne
  cases sub with
  | true =>
    simp only [arithChecked, arith, if_true]
    rw [i128_of_bounds (by omega) (by omega), i128_of_bounds (by omega) (by omega)]
    rfl
  | false =>
    simp only [arithChecked, arith, Bool.false_eq_true, if_false]
    rw [i128_of_bounds (by omega) (by omega), i128_of_bounds (by omega) (by omega)]
    rfl

/-- The mask's loop ends without overflow, on the mask the integers give. -/
lemma lowMaskAboveChecked_eq {z : ℤ} (hz : z < 2 ^ 63) :
    lowMaskAboveChecked z 128 0 = some (lowMaskAbove z) := by
  -- After `k` rounds the mask has `k` bits; the next round is taken only for `k < 63`.
  have hrun : ∀ (fuel k : ℕ), k ≤ 63 → 64 ≤ fuel + k →
      lowMaskAboveChecked z fuel (2 ^ k - 1) =
        some (whileSome (fun m => if m < z then some (m * 2 + 1) else none) fuel (2 ^ k - 1)) := by
    intro fuel
    induction fuel with
    | zero =>
      intro k hk hfuel
      omega
    | succ fuel ih =>
      intro k hk hfuel
      unfold lowMaskAboveChecked whileSome
      by_cases hlt : (2 ^ k - 1 : ℤ) < z
      · have hk63 : k < 63 := by
          by_contra hc
          obtain rfl : k = 63 := by omega
          omega
        have hpow : (2 : ℤ) ^ k ≤ 2 ^ 62 := pow_le_pow_right₀ (by norm_num) (by omega)
        have hpos : (0 : ℤ) < 2 ^ k := by positivity
        have hnext : ((2 : ℤ) ^ k - 1) * 2 + 1 = 2 ^ (k + 1) - 1 := by ring
        rw [if_pos hlt, if_pos hlt, i128_of_bounds (by omega) (by omega)]
        simp only [Option.bind_eq_bind, Option.bind_some]
        rw [i128_of_bounds (by omega) (by omega), Option.bind_some, hnext]
        exact ih (k + 1) (by omega) (by omega)
      · rw [if_neg hlt, if_neg hlt]
  exact hrun 128 0 (by omega) (by omega)

lemma bitwiseChecked_eq (ha : a.InWord) (hb : b.InWord) (or : Bool) :
    a.bitwiseChecked b or = some (a.bitwise b or) := by
  rw [inWord_iff] at ha hb
  unfold bitwiseChecked bitwise
  split
  · rfl
  · rw [lowMaskAboveChecked_eq (by omega)]
    rfl

lemma i128_shl {z : ℤ} {k : ℕ} (hk : k < 64) (h1 : -2 ^ 63 ≤ z) (h2 : z < 2 ^ 63) :
    i128 (z * 2 ^ k) = some (z * 2 ^ k) := by
  have hpow : (2 : ℤ) ^ k ≤ 2 ^ 63 := pow_le_pow_right₀ (by norm_num) (by omega)
  have hpos : (0 : ℤ) < 2 ^ k := by positivity
  refine i128_of_bounds ?_ ?_
  · nlinarith
  · nlinarith

/-- `shift` does not overflow. -/
lemma shiftChecked_eq (ha : a.InWord) (hne : a.lo ≤ a.hi) (count : Word) (op : BinOp) :
    a.shiftChecked count op = some (a.shift count op) := by
  obtain ⟨⟨h1, h2⟩, h3, h4⟩ := endpoints ha hne
  unfold shiftChecked shift
  split
  · rfl
  · rename_i h
    simp only [Bool.not_eq_true', Bool.not_eq_false, Bool.and_eq_true, decide_eq_true_eq] at h
    have hk : count.toNat < 64 := by
      have := toNat_of_nonneg h.1
      omega
    cases op with
    | shl =>
      simp only [i128_shl hk h1 h2, i128_shl hk h3 h4]
      rfl
    | shr => rfl
    | _ =>
      dsimp only
      split
      · rfl
      · rfl

/-- A magnitude does not overflow. -/
lemma magnitudeChecked_eq (ha : a.InWord) (hne : a.lo ≤ a.hi) :
    a.magnitudeChecked = some a.magnitude ∧ 0 ≤ a.magnitude ∧ a.magnitude ≤ 2 ^ 63 := by
  obtain ⟨⟨h1, h2⟩, h3, h4⟩ := endpoints ha hne
  have hlo : |a.lo| ≤ 2 ^ 63 := abs_le.mpr ⟨h1, h2.le⟩
  have hhi : |a.hi| ≤ 2 ^ 63 := abs_le.mpr ⟨h3, h4.le⟩
  have hlo0 := abs_nonneg a.lo
  have hhi0 := abs_nonneg a.hi
  refine ⟨?_, hlo0.trans (le_max_left _ _), max_le hlo hhi⟩
  rw [magnitudeChecked, i128_of_bounds (by omega) (by omega), i128_of_bounds (by omega) (by omega)]
  rfl

lemma checkedDiv_eq {z u : ℤ} (hu : u ≠ 0) (h1 : -2 ^ 64 ≤ z) (h2 : z ≤ 2 ^ 64) :
    checkedDiv 128 z u = some (z.tdiv u) := by
  refine checkedDiv_of_fits hu ?_
  obtain ⟨h3, h4⟩ := abs_le.mp ((abs_tdiv_le z u).trans (abs_le.mpr ⟨h1, h2⟩))
  exact ⟨by norm_num at h3 ⊢; omega, by norm_num at h4 ⊢; omega⟩

/-- `quotient` neither overflows nor divides by zero. -/
lemma quotientChecked_eq (ha : a.InWord) (hd : d.InWord) (hane : a.lo ≤ a.hi)
    (hdne : d.lo ≤ d.hi) (u : Bool) : a.quotientChecked d u = some (a.quotient d u) := by
  obtain ⟨⟨_, _⟩, _, _⟩ := endpoints ha hane
  obtain ⟨⟨_, _⟩, _, _⟩ := endpoints hd hdne
  unfold quotientChecked quotient
  cases u with
  | true =>
    rw [if_pos rfl, if_pos rfl]
    by_cases hpos : 0 < d.lo
    · cases a.nonNegative with
      | true =>
        simp only [hpos, decide_true]
        rw [checkedDiv_eq (by omega) (by omega) (by omega),
          checkedDiv_eq (by omega) (by omega) (by omega)]
        rfl
      | false =>
        simp only [hpos, decide_true]
        split
        · rw [checkedDiv_eq (by omega) (by omega) (by omega)]
          rfl
        · rfl
    · cases a.nonNegative with
      | true =>
        simp only [hpos, decide_false]
      | false =>
        simp only [hpos, decide_false]
  | false =>
    rw [if_neg Bool.false_ne_true, if_neg Bool.false_ne_true]
    split
    · obtain ⟨hm, h0, h1⟩ := magnitudeChecked_eq ha hane
      simp only [hm, Option.bind_eq_bind, Option.bind_some]
      rw [i128_of_bounds (by omega) (by omega)]
      rfl
    · rename_i hsign
      rw [checkedDiv_eq (by omega) (by omega) (by omega),
        checkedDiv_eq (by omega) (by omega) (by omega),
        checkedDiv_eq (by omega) (by omega) (by omega),
        checkedDiv_eq (by omega) (by omega) (by omega)]
      rfl

/-- `remainder` does not overflow. -/
lemma remainderChecked_eq (hd : d.InWord) (hdne : d.lo ≤ d.hi) (u : Bool) :
    a.remainderChecked d u = some (a.remainder d u) := by
  obtain ⟨⟨_, _⟩, _, _⟩ := endpoints hd hdne
  unfold remainderChecked remainder
  cases u with
  | true =>
    rw [if_pos rfl, if_pos rfl]
    split
    · rw [i128_of_bounds (by omega) (by omega)]
      rfl
    · rfl
  | false =>
    rw [if_neg Bool.false_ne_true, if_neg Bool.false_ne_true]
    dsimp only
    split
    · rfl
    · obtain ⟨hm, h0, h1⟩ := magnitudeChecked_eq hd hdne
      simp only [hm, Option.bind_eq_bind, Option.bind_some]
      rw [i128_of_bounds (by omega) (by omega), Option.bind_some,
        i128_of_bounds (by omega) (by omega)]
      rfl

/-- `divmod` neither overflows nor divides by zero. -/
lemma divmodChecked_eq (op : BinOp) (ha : a.InWord) (hd : d.InWord) :
    divmodChecked op a d = some (divmod op a d) := by
  unfold divmodChecked divmod
  split
  · rfl
  · have hane : a.lo ≤ a.hi := by omega
    have hdne : d.lo ≤ d.hi := by omega
    cases op with
    | div => exact quotientChecked_eq ha hd hane hdne false
    | divu => exact quotientChecked_eq ha hd hane hdne true
    | mod => exact remainderChecked_eq hd hdne false
    | _ => exact remainderChecked_eq hd hdne true

/-- `binop` neither overflows nor divides by zero. -/
lemma binopChecked_eq (op : BinOp) (ha : a.InWord) (hb : b.InWord) (hane : a.lo ≤ a.hi)
    (hbne : b.lo ≤ b.hi) : binopChecked op a b = some (binop op a b) := by
  unfold binopChecked binop
  split
  · rfl
  · cases op with
    | add | sub => exact arithChecked_eq ha hb hane hbne _
    | or | xor => exact bitwiseChecked_eq ha hb _
    | div | divu | mod | modu => exact divmodChecked_eq _ ha hb
    | _ => rfl

lemma exists_shiftKind {op : BinOp} (h : op = .shl ∨ op = .shr ∨ op = .shru) :
    ∃ sh : ShiftKind, sh.binop = op := by
  rcases h with rfl | rfl | rfl
  · exact ⟨.shl, rfl⟩
  · exact ⟨.shr, rfl⟩
  · exact ⟨.shru, rfl⟩

/-- The bounds of an operation over nonempty ranges of a register hold its result wherever the
operation does not trap: those of `binop`, of `shift` by the second operand, and of the divisions
and remainders.  All of them are computed in `i128` without overflow or a division by zero. -/
theorem transfer_contains (op : BinOp) (ha : a.InWord) (hb : b.InWord) (hane : a.lo ≤ a.hi)
    (hbne : b.lo ≤ b.hi) :
    (∀ x y z : Word, a.Has x → b.Has y → applyBinop op x y = some z →
      (binop op a b).Has z ∧
      (op = .shl ∨ op = .shr ∨ op = .shru → (a.shift y op).Has z) ∧
      (op = .div → (a.quotient b false).Has z) ∧ (op = .divu → (a.quotient b true).Has z) ∧
      (op = .mod → (a.remainder b false).Has z) ∧ (op = .modu → (a.remainder b true).Has z) ∧
      (isDivmodOp op = true → (divmod op a b).Has z)) ∧
    binopChecked op a b = some (binop op a b) ∧
    (∀ k : Word, a.shiftChecked k op = some (a.shift k op)) ∧
    (∀ u, a.quotientChecked b u = some (a.quotient b u)) ∧
    (∀ u, a.remainderChecked b u = some (a.remainder b u)) ∧
    divmodChecked op a b = some (divmod op a b) := by
  refine ⟨?_, binopChecked_eq op ha hb hane hbne, fun k => shiftChecked_eq ha hane k op,
    quotientChecked_eq ha hb hane hbne, remainderChecked_eq hb hbne, divmodChecked_eq op ha hb⟩
  intro x y z hx hy hz
  have hdivmod : isDivmodOp op = true → (divmod op a b).Has z := fun hop =>
    has_divmod hop ha hb hx hy hz
  have hne : ¬ (a.hi < a.lo ∨ b.hi < b.lo) := by omega
  refine ⟨has_binop ha hb hx hy hz, ?_, ?_, ?_, ?_, ?_, hdivmod⟩
  · intro hop
    obtain ⟨sh, rfl⟩ := exists_shiftKind hop
    exact has_shift sh hx hz
  all_goals
    rintro rfl
    have h := hdivmod rfl
    unfold divmod at h
    rw [if_neg hne] at h
    exact h

/-- On ranges that both cross zero, with `i64::MIN / -1` among the quotients. -/
theorem transfer_contains_crossing :
    (binop .div ⟨-2 ^ 63, 5⟩ ⟨-1, 1⟩).Has (BitVec.intMin 64) ∧
      binopChecked .div ⟨-2 ^ 63, 5⟩ ⟨-1, 1⟩ = some univ := by
  have h := transfer_contains (a := ⟨-2 ^ 63, 5⟩) (b := ⟨-1, 1⟩) .div (by decide) (by decide)
    (by decide) (by decide)
  refine ⟨(h.1 (BitVec.intMin 64) (-1) _ ⟨by decide, by decide⟩ ⟨by decide, by decide⟩
    (by decide)).1, ?_⟩
  rw [h.2.1]
  decide

end Badc.Range
