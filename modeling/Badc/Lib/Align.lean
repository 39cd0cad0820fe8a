import Mathlib.Data.Nat.Bitwise
import Mathlib.Tactic

/-!
# Rounding up to an alignment

Alignments are powers of two, and an offset is rounded up with a mask in 64-bit arithmetic.  While
the sum does not wrap, `alignUp` gives the least multiple of the alignment that is not below the
offset.
-/

namespace Badc

/-- Round `v` up to `align` with a mask, in 64-bit arithmetic.  An alignment of at most one asks for
nothing. -/
def alignUp (v align : ℕ) : ℕ :=
  if align ≤ 1 then v else (v + (align - 1)) % 2 ^ 64 &&& (2 ^ 64 - 1 - (align - 1))

/-- The mask of a power of two clears the low bits. -/
lemma and_highMask {x k : ℕ} (hx : x < 2 ^ 64) (hk : k ≤ 64) :
    x &&& (2 ^ 64 - 1 - (2 ^ k - 1)) = x / 2 ^ k * 2 ^ k := by
  have hpow : 2 ^ k ≤ 2 ^ 64 := Nat.pow_le_pow_right two_pos hk
  have hpos : 0 < 2 ^ k := Nat.two_pow_pos k
  have hmask : 2 ^ 64 - 1 - (2 ^ k - 1) = 2 ^ 64 - ((2 ^ k - 1) + 1) := by omega
  refine Nat.eq_of_testBit_eq fun i => ?_
  rw [hmask, Nat.testBit_and, Nat.testBit_two_pow_sub_succ (by omega), Nat.testBit_two_pow_sub_one,
    Nat.testBit_mul_two_pow, Nat.testBit_div_two_pow]
  by_cases hik : i < k
  · simp [hik, Nat.not_le.mpr hik]
  · rw [Nat.sub_add_cancel (Nat.le_of_not_lt hik)]
    by_cases hi : i < 64
    · simp [hi, hik, Nat.le_of_not_lt hik]
    · have hlow : x.testBit i = false :=
        Nat.testBit_lt_two_pow (hx.trans_le (Nat.pow_le_pow_right two_pos (by omega)))
      simp [hlow]

variable {v k : ℕ}

lemma alignUp_two_pow (hk : k ≤ 64) (hv : v + (2 ^ k - 1) < 2 ^ 64) :
    alignUp v (2 ^ k) = (v + (2 ^ k - 1)) / 2 ^ k * 2 ^ k := by
  unfold alignUp
  split
  · rename_i hle
    have hone : 2 ^ k = 1 := le_antisymm hle (Nat.one_le_two_pow)
    rw [hone, Nat.sub_self, Nat.add_zero, Nat.div_one, Nat.mul_one]
  · rw [Nat.mod_eq_of_lt hv, and_highMask hv hk]

lemma dvd_alignUp (hk : k ≤ 64) (hv : v + (2 ^ k - 1) < 2 ^ 64) : 2 ^ k ∣ alignUp v (2 ^ k) := by
  rw [alignUp_two_pow hk hv]
  exact Nat.dvd_mul_left _ _

lemma le_alignUp (hk : k ≤ 64) (hv : v + (2 ^ k - 1) < 2 ^ 64) : v ≤ alignUp v (2 ^ k) := by
  rw [alignUp_two_pow hk hv]
  have hpos : 0 < 2 ^ k := Nat.two_pow_pos k
  have hdiv := Nat.div_add_mod (v + (2 ^ k - 1)) (2 ^ k)
  have hmod := Nat.mod_lt (v + (2 ^ k - 1)) hpos
  rw [Nat.mul_comm] at hdiv
  omega

lemma alignUp_le (hk : k ≤ 64) (hv : v + (2 ^ k - 1) < 2 ^ 64) :
    alignUp v (2 ^ k) ≤ v + (2 ^ k - 1) := by
  rw [alignUp_two_pow hk hv]
  exact Nat.div_mul_le_self _ _

end Badc
