import Mathlib.Tactic

/-!
# Checked machine arithmetic

Arithmetic on a signed integer of `w` bits that has no value where the machine's would overflow or
divide by zero.  An expression written with these has a value exactly when none of its
intermediate results leaves the type, and then the value is the mathematical one.
-/

namespace Badc

/-- `z` is a value of the signed type of `w` bits. -/
def FitsIn (w : ℕ) (z : ℤ) : Prop := -2 ^ (w - 1) ≤ z ∧ z < 2 ^ (w - 1)

instance (w : ℕ) : DecidablePred (FitsIn w) := fun z =>
  inferInstanceAs (Decidable (-2 ^ (w - 1) ≤ z ∧ z < 2 ^ (w - 1)))

/-- A result in the signed type of `w` bits; none where it overflows. -/
def checked (w : ℕ) (z : ℤ) : Option ℤ := if FitsIn w z then some z else none

/-- The truncating quotient in the type; none for a zero divisor. -/
def checkedDiv (w : ℕ) (x y : ℤ) : Option ℤ := if y = 0 then none else checked w (x.tdiv y)

variable {w : ℕ} {x y z : ℤ}

lemma checked_of_fits (h : FitsIn w z) : checked w z = some z := if_pos h

lemma checkedDiv_of_fits (hy : y ≠ 0) (h : FitsIn w (x.tdiv y)) :
    checkedDiv w x y = some (x.tdiv y) := by
  rw [checkedDiv, if_neg hy, checked_of_fits h]

end Badc
