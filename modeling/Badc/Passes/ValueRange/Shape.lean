import Badc.Passes.ValueRange.Bound

/-!
# Ranges by shape alone

`edge_bounds` takes the other operand of a comparison with the range its own shape gives
(`shapeRange`), which depends on nothing the range iteration moves.  A held value lies in it
(`Reaches.has_shapeRange`), with one exception: the shape does not know of the 32-bit division
form, and a signed remainder in that form is zero-extended, so a negative remainder leaves its
range.  A comparison of low words still reads such a value inside the range it reads of the shape
(`Reaches.has_readAt_shapeRange`).
-/

namespace Badc

variable {f : FunctionSsa}

/-- A signed remainder by an immediate in the 32-bit form. -/
def IsNarrowRem (f : FunctionSsa) (v : ℕ) : Prop :=
  (∃ lhs k, f.insts[v]? = some (.binopI .mod lhs k)) ∧ isDiv32 f v = true

/-- Every immediate of a quotient in the 32-bit form is read as it stands. -/
def ImmsFit (f : FunctionSsa) : Prop :=
  ∀ (v : ℕ) op lhs k, f.insts[v]? = some (.binopI op lhs k) → isDivmodOp op = true →
    isDiv32 f v = true → ImmFits op k

/-! ## The 32-bit forms against the shape -/

section Arith

variable {x y z k : Word} {op : BinOp}

/-- A quotient of registers by a 32-bit immediate has room for every low word. -/
lemma has_quotient_univ (hk : -2 ^ 31 ≤ k.toInt ∧ k.toInt < 2 ^ 31) (hk0 : k.toInt ≠ 0)
    (hx0 : 0 ≤ x.toInt) (hx : x.toInt ≤ 0xffffffff) :
    (Range.univ.quotient (.exact k) false).Has x := by
  unfold Range.quotient
  rw [if_neg (by decide)]
  have hsign : ¬ ((Range.exact k).lo ≤ 0 ∧ 0 ≤ (Range.exact k).hi) := by
    simp only [Range.exact]
    omega
  rw [if_neg hsign]
  apply Range.has_representable_of_has
  simp only [Range.exact, Range.univ]
  -- One corner is at most zero, the other at least `2^32`.
  have hneg : ∀ z : ℤ, z.tdiv k.toInt = -(z.tdiv (-k.toInt)) := fun z => by
    rw [Int.tdiv_neg, neg_neg]
  rcases lt_or_gt_of_ne hk0 with hlt | hgt
  · have h1 : (2 ^ 63 - 1 : ℤ).tdiv k.toInt ≤ 0 := by
      rw [hneg]
      have := Int.tdiv_nonneg (a := 2 ^ 63 - 1) (b := -k.toInt) (by norm_num) (by omega)
      omega
    have h2 : 0xffffffff ≤ (-2 ^ 63 : ℤ).tdiv k.toInt := by
      rw [hneg, ← Int.neg_tdiv, neg_neg, Int.tdiv_eq_ediv_of_nonneg (by norm_num)]
      refine (Int.le_ediv_iff_mul_le (by omega)).mpr ?_
      omega
    exact ⟨by dsimp only; omega, by dsimp only; omega⟩
  · have h1 : (-2 ^ 63 : ℤ).tdiv k.toInt ≤ 0 := by
      have := Int.tdiv_nonneg (a := 2 ^ 63) (b := k.toInt) (by norm_num) (by omega)
      rw [Int.neg_tdiv]
      omega
    have h2 : 0xffffffff ≤ (2 ^ 63 - 1 : ℤ).tdiv k.toInt := by
      rw [Int.tdiv_eq_ediv_of_nonneg (by norm_num)]
      refine (Int.le_ediv_iff_mul_le (by omega)).mpr ?_
      omega
    exact ⟨by dsimp only; omega, by dsimp only; omega⟩

/-- An unsigned quotient of registers by a 32-bit immediate has room for every low word. -/
lemma has_quotient_univ_unsigned (hk : k.toInt < 2 ^ 32) (hx0 : 0 ≤ x.toInt)
    (hx : x.toInt ≤ 0xffffffff) : (Range.univ.quotient (.exact k) true).Has x := by
  unfold Range.quotient
  rw [if_pos rfl]
  have hna : Range.univ.nonNegative = false := by decide
  rw [hna]
  by_cases hpos : 0 < (Range.exact k).lo
  · simp only [hpos, decide_true]
    split
    · refine ⟨hx0, hx.trans ?_⟩
      rw [Int.tdiv_eq_ediv_of_nonneg (by norm_num)]
      refine (Int.le_ediv_iff_mul_le hpos).mpr ?_
      simp only [Range.exact]
      omega
    · exact Range.has_univ _
  · simp only [hpos, decide_false]
    exact Range.has_univ _

/-- A remainder over the window lies in the bounds over the register. -/
lemma has_remainder_univ {a d : Range} {unsigned : Bool}
    (hau : unsigned = true → a.nonNegative = true)
    (h : (a.remainder d unsigned).Has x) : (Range.univ.remainder d unsigned).Has x := by
  cases unsigned with
  | true =>
    have hna : Range.univ.nonNegative = false := by decide
    simp only [Range.remainder, hau rfl, hna, if_true] at h ⊢
    by_cases hpos : 0 < d.lo
    · simp only [hpos, if_true] at h ⊢
      exact ⟨h.1, h.2.trans (min_le_right _ _)⟩
    · simp only [hpos, if_false]
      exact Range.has_univ _
  | false =>
    have huniv : (⟨min Range.univ.lo 0, max Range.univ.hi 0⟩ : Range) = .univ := by decide
    simp only [Range.remainder, Bool.false_eq_true, if_false, huniv] at h ⊢
    split at h
    · rw [if_pos ‹_›]
      exact Range.has_univ _
    · rw [if_neg ‹_›]
      rw [Range.has_meet] at h ⊢
      exact ⟨Range.has_univ _, h.2⟩

/-- The result of a division of low words by an immediate, zero-extended, lies in the bounds of
the operator over registers, a signed remainder apart. -/
lemma has_divmod_univ (hop : isDivmodOp op = true) (hmod : op ≠ .mod) (hk : ImmFits op k)
    (hz : applyBinop op (lowWord op y) (lowWord op k) = some z) :
    (Range.divmod op .univ (.exact k)).Has (zext32 z) := by
  have hz32 := has_zext32 z
  have hne : ¬ (Range.univ.hi < Range.univ.lo ∨ (Range.exact k).hi < (Range.exact k).lo) := by
    simp only [Range.univ, Range.exact]
    omega
  unfold Range.divmod
  rw [if_neg hne]
  cases op with
  | div =>
    simp only [ImmFits] at hk
    have hk0 : k.toInt ≠ 0 := by
      intro h0
      obtain rfl : k = 0 := BitVec.eq_of_toInt_eq (by simpa using h0)
      exact absurd hz (by simp [applyBinop, lowWord, sext32])
    exact has_quotient_univ hk hk0 hz32.1 hz32.2
  | divu => exact has_quotient_univ_unsigned hk hz32.1 hz32.2
  | modu =>
    have hrem := has_divmod_lowWord (a := lowWindow .modu) rfl (by decide) (by decide)
      (has_lowWindow rfl y) hk hz
    have hne' : ¬ ((lowWindow .modu).hi < (lowWindow .modu).lo ∨
        (Range.exact k).hi < (Range.exact k).lo) := by
      simp only [lowWindow, Range.exact]
      omega
    unfold Range.divmod at hrem
    rw [if_neg hne'] at hrem
    have h0 : 0 ≤ z.toInt := by
      have := Range.has_divmod (show isDivmodOp .modu = true from rfl) (by decide) (by decide) (has_lowWindow rfl y)
        (has_lowWindow rfl k) hz
      exact this.1
    rw [zext32_of_narrow rfl hz h0]
    exact has_remainder_univ (fun _ => by decide) hrem
  | mod => exact absurd rfl hmod
  | _ => cases hop

/-- A signed remainder of low words by an immediate lies in the bounds of the operator over
registers before it is zero-extended. -/
lemma has_mod_univ (hz : applyBinop .mod (lowWord .mod y) (lowWord .mod k) = some z) :
    (Range.divmod .mod .univ (.exact k)).Has z := by
  have hne : ¬ (Range.univ.hi < Range.univ.lo ∨ (Range.exact k).hi < (Range.exact k).lo) := by
    simp only [Range.univ, Range.exact]
    omega
  have hne' : ¬ ((lowWindow .mod).hi < (lowWindow .mod).lo ∨
      (Range.exact k).hi < (Range.exact k).lo) := by
    simp only [lowWindow, Range.exact]
    omega
  have hrem := has_divmod_lowWord (a := lowWindow .mod) rfl (by decide) (by decide)
    (has_lowWindow rfl y) trivial hz
  unfold Range.divmod at hrem ⊢
  rw [if_neg hne'] at hrem
  rw [if_neg hne]
  exact has_remainder_univ (fun h => by cases h) hrem

end Arith

/-! ## Held values against the shape -/

/-- The word lies in the range of the shape, a signed remainder in the 32-bit form before its
zero extension. -/
def ShapeHolds (f : FunctionSsa) (params : List Range) (v : ℕ) (x : Word) : Prop :=
  (¬ IsNarrowRem f v → (shapeRange f params v).Has x) ∧
    (IsNarrowRem f v → ∃ z, x = zext32 z ∧ (shapeRange f params v).Has z)

lemma shapeRange_eq {params : List Range} {v : ℕ} {inst : Inst} {b : Range}
    (hinst : f.insts[v]? = some inst) (h : eval inst params (fun _ => some .univ) = some b) :
    shapeRange f params v = b := by
  rw [eval_some] at h
  simp only [shapeRange, hinst]
  exact Option.some.inj h

lemma binop_univ {op : BinOp} (hop : isDivmodOp op = true) :
    Range.binop op .univ .univ = .univ := by
  cases op <;> first | decide | cases hop

namespace Machine

variable {m : Machine} {w : World m.Ext} {s : State m.Ext}

/-- An executed instruction in the 32-bit division form against its shape. -/
lemma shapeHolds_narrow (himm : ImmsFit f) {params : List Range} {v : ℕ} {regs : Regs}
    {inst : Inst} {x : Word} (hx : m.pureWord f v regs inst = some x)
    (hinst : f.insts[v]? = some inst) (hdiv : isNarrowDiv f v = true) :
    ShapeHolds f params v x := by
  cases inst with
  | binop op lhs rhs =>
    have hnot : ¬ IsNarrowRem f v := by
      rintro ⟨⟨l, k, h⟩, -⟩
      rw [hinst] at h
      cases h
    simp only [isNarrowDiv, hinst, Bool.and_eq_true] at hdiv
    refine ⟨fun _ => ?_, fun h => absurd h hnot⟩
    rw [shapeRange_eq hinst (b := Range.binop op .univ .univ) rfl, binop_univ hdiv.1]
    exact Range.has_univ _
  | binopI op lhs k =>
    simp only [isNarrowDiv, hinst, Bool.and_eq_true] at hdiv
    simp only [pureWord, bind, Option.bind_eq_some_iff] at hx
    obtain ⟨y, -, hx⟩ := hx
    obtain ⟨z, hz, rfl⟩ := binop_narrow hdiv.1 hdiv.2 hx
    have hshape : shapeRange f params v = .divmod op .univ (.exact k) := by
      apply shapeRange_eq hinst
      cases op with
      | div | divu | mod | modu => rfl
      | _ => cases hdiv.1
    constructor
    · intro hnot
      rw [hshape]
      refine has_divmod_univ hdiv.1 ?_ (himm v op lhs k hinst hdiv.1 hdiv.2) hz
      rintro rfl
      exact hnot ⟨⟨lhs, k, hinst⟩, hdiv.2⟩
    · rintro ⟨⟨l, k', h⟩, -⟩
      rw [hinst] at h
      obtain ⟨rfl, -, -⟩ := Inst.binopI.inj (Option.some.inj h)
      rw [hshape]
      exact ⟨z, rfl, has_mod_univ hz⟩
  | _ => simp [isNarrowDiv, hinst] at hdiv

/-- Every held word lies in the range of its shape, up to the zero extension of a remainder. -/
theorem Reaches.shapeHolds (hf : Verified f) (himm : ImmsFit f) {params : List Range}
    (hpar : m.ParamsIn params) (h : m.Reaches f w s) {v : ℕ} {x : Word}
    (hv : Held f s.block s.pc v) (hx : s.regs v = some (.word x)) :
    ShapeHolds f params v x := by
  refine h.held_rule hf (fun v y => ∀ x, y = .word x → ShapeHolds f params v x) ?_ ?_ hv hx x rfl
  · rintro s inst r _ - - - hinst - hr hx x rfl
    cases hdiv : isNarrowDiv f s.pc with
    | true =>
      have hrole : inst.role = .pure := by
        cases inst with
        | binop op lhs rhs | binopI op lhs rhs => rfl
        | _ => simp [isNarrowDiv, hinst] at hdiv
      obtain ⟨y, hy, rfl⟩ := exec_pure hrole hr
      simp only [Regs.set_self, Option.some.injEq] at hx
      obtain rfl := Val.word.inj hx
      exact shapeHolds_narrow himm hy hinst hdiv
    | false =>
      have hseen : ∀ o ∈ inst.operands, ∀ y, s.regs.word o = some y →
          ∃ a, (fun _ => some Range.univ : ℕ → Option Range) o = some a ∧ a.InWord ∧ a.Has y :=
        fun o _ y _ => ⟨.univ, rfl, Range.inWord_univ, Range.has_univ y⟩
      obtain ⟨b, hb, hhas⟩ := has_eval hr hx hinst hdiv hpar hseen
      have hnot : ¬ IsNarrowRem f s.pc := by
        rintro ⟨⟨lhs, k, hi⟩, hd⟩
        simp [isNarrowDiv, hi, hd, isDivmodOp] at hdiv
      refine ⟨fun _ => ?_, fun h => absurd h hnot⟩
      rw [shapeRange_eq hinst hb]
      exact hhas
  · rintro s blk b v incoming kind o _ - - - - - hinst - - - x rfl
    have hnot : ¬ IsNarrowRem f v := by
      rintro ⟨⟨lhs, k, hi⟩, -⟩
      rw [hinst] at hi
      cases hi
    refine ⟨fun _ => ?_, fun h => absurd h hnot⟩
    rw [shapeRange_eq hinst (b := .univ) rfl]
    exact Range.has_univ _

/-- A comparison reads every held word inside the range it reads of its shape, where it reads no
remainder in the 32-bit form whole. -/
theorem Reaches.has_readAt_shapeRange (hf : Verified f) (himm : ImmsFit f) {params : List Range}
    (hpar : m.ParamsIn params) (h : m.Reaches f w s) {v : ℕ} {x : Word} {width : Width}
    (hv : Held f s.block s.pc v) (hx : s.regs v = some (.word x))
    (hrem : width = .full → ¬ IsNarrowRem f v) :
    (readAt width (shapeRange f params v)).Has (width.read x) := by
  obtain ⟨hplain, hnarrow⟩ := h.shapeHolds hf himm hpar hv hx
  by_cases hn : IsNarrowRem f v
  · obtain ⟨z, rfl, hz⟩ := hnarrow hn
    have hwidth : width.read (zext32 z) = width.read z := by
      cases width with
      | full => exact absurd hn (hrem rfl)
      | sext32 => simp [Width.read, sext32, zext32]
      | zext32 => simp [Width.read, zext32]
    rw [hwidth]
    exact has_readAt hz
  · exact has_readAt (hplain hn)

end Machine

end Badc
