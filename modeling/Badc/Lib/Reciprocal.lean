import Mathlib.Tactic

/-!
# Division by a reciprocal

A quotient by `d` is taken as the high part of a product: with `m * d = P + e` the quotient
`n * m / P` is `n / d` where the error `e` is small against `P`.  The numerators congruent to `-1`
modulo `d` bind; `worstCase` is the largest of them in range, and a bound of `e` against it alone
gives the bound at every numerator (`residue_bound`).  From it follow the unsigned quotient
(`mul_div_eq_div`) and the floored quotient of a negative numerator (`neg_mul_ediv_eq`).
-/

namespace Badc

/-- Largest `n ≤ nmax` with `n % d = d - 1`. -/
def worstCase (nmax d : ℕ) : ℕ := nmax - (nmax + 1) % d

variable {P m d e B nmax n : ℕ}

lemma worstCase_le (nmax d : ℕ) : worstCase nmax d ≤ nmax := Nat.sub_le _ _

lemma worstCase_add_one (hd : 0 < d) (hdn : d ≤ nmax + 1) :
    worstCase nmax d + 1 = d * ((nmax + 1) / d) ∧ d ≤ worstCase nmax d + 1 := by
  have hdm := Nat.div_add_mod (nmax + 1) d
  have hlt := Nat.mod_lt (nmax + 1) hd
  have hq : 1 ≤ (nmax + 1) / d := (Nat.one_le_div_iff hd).mpr hdn
  have hmul : d * 1 ≤ d * ((nmax + 1) / d) := Nat.mul_le_mul_left d hq
  unfold worstCase
  omega

/-- A numerator of the worst residue is at most the worst case. -/
lemma le_worstCase (hd : 0 < d) (hdn : d ≤ nmax + 1) (hn : n ≤ nmax) (hr : n % d = d - 1) :
    n ≤ worstCase nmax d := by
  obtain ⟨hw, -⟩ := worstCase_add_one hd hdn
  have hdm := Nat.div_add_mod n d
  have hsucc : n + 1 = d * (n / d + 1) := by
    rw [Nat.mul_add, Nat.mul_one]
    omega
  have hle : n / d + 1 ≤ (nmax + 1) / d := by
    rw [Nat.le_div_iff_mul_le hd, Nat.mul_comm]
    omega
  have hmul := Nat.mul_le_mul_left d hle
  omega

lemma lt_worstCase_add (hd : 0 < d) (hdn : d ≤ nmax + 1) (hn : n ≤ nmax) :
    n < worstCase nmax d + d := by
  have hlt := Nat.mod_lt (nmax + 1) hd
  obtain ⟨hw, hle⟩ := worstCase_add_one hd hdn
  unfold worstCase at hle ⊢
  omega

/-- What bounds the error at the worst case bounds it at every numerator, as often as the
numerator's residue leaves room. -/
lemma residue_bound (hd : 0 < d) (hdn : d ≤ nmax + 1) (he : e * worstCase nmax d ≤ B)
    (hn : n ≤ nmax) : e * n ≤ (d - n % d) * B := by
  have hmod := Nat.mod_lt n hd
  by_cases hr : n % d = d - 1
  · rw [hr, Nat.sub_sub_self hd, Nat.one_mul]
    exact (Nat.mul_le_mul_left e (le_worstCase hd hdn hn hr)).trans he
  · -- Away from the worst residue there is room for twice the bound.
    obtain ⟨-, hle⟩ := worstCase_add_one hd hdn
    have hlt := lt_worstCase_add hd hdn hn
    calc e * n ≤ e * (2 * worstCase nmax d) := Nat.mul_le_mul_left e (by omega)
      _ = 2 * (e * worstCase nmax d) := by ring
      _ ≤ 2 * B := Nat.mul_le_mul_left 2 he
      _ ≤ (d - n % d) * B := Nat.mul_le_mul_right B (by omega)

lemma div_mul_le_mul (hm : m * d = P + e) (n : ℕ) : n / d * P ≤ n * m := by
  calc n / d * P ≤ n / d * (m * d) := Nat.mul_le_mul_left _ (by omega)
    _ = (n / d * d) * m := by ring
    _ ≤ n * m := Nat.mul_le_mul_right m (Nat.div_mul_le_self n d)

/-- The divisor times the product, against the next quotient. -/
lemma mul_mul_add (hd : 0 < d) (hm : m * d = P + e) (n : ℕ) :
    n * m * d + (d - n % d) * P = (n / d + 1) * P * d + e * n := by
  have hmod := Nat.mod_lt n hd
  have hdm := Nat.div_add_mod n d
  have hsplit : n + (d - n % d) = (n / d + 1) * d := by
    rw [Nat.add_mul, Nat.one_mul, Nat.mul_comm (n / d)]
    omega
  calc n * m * d + (d - n % d) * P = n * (m * d) + (d - n % d) * P := by ring
    _ = n * (P + e) + (d - n % d) * P := by rw [hm]
    _ = (n + (d - n % d)) * P + e * n := by ring
    _ = (n / d + 1) * P * d + e * n := by
      rw [hsplit]
      ring

/-- **Unsigned division by a reciprocal.**  Where the error at the worst case stays below `P`, the
product's high part is the quotient. -/
theorem mul_div_eq_div (hd : 0 < d) (hm : m * d = P + e) (hdn : d ≤ nmax + 1)
    (he : e * worstCase nmax d < P) (hn : n ≤ nmax) : n * m / P = n / d := by
  have hmod := Nat.mod_lt n hd
  have hbound := residue_bound (B := P - 1) (e := e) hd hdn (by omega) hn
  have hstrict : e * n < (d - n % d) * P := by
    refine hbound.trans_lt ?_
    exact Nat.mul_lt_mul_of_pos_left (by omega) (by omega)
  refine Nat.div_eq_of_lt_le (div_mul_le_mul hm n) ?_
  have h := mul_mul_add hd hm n
  exact Nat.lt_of_mul_lt_mul_right (a := d) (by omega)

/-- **Signed division by a reciprocal.**  Where the error at the worst case is at most `P` and not
zero, the floored quotient of a negative numerator is one below the truncated one. -/
theorem neg_mul_ediv_eq (hd : 0 < d) (hP : 0 < P) (hm : m * d = P + e) (hdn : d ≤ nmax + 1)
    (he0 : 0 < e) (he : e * worstCase nmax d ≤ P) (hn : n ≤ nmax) (hn0 : 0 < n) :
    (-(n : ℤ) * m) / P = -((n / d : ℕ) : ℤ) - 1 := by
  have hbound := residue_bound hd hdn he hn
  -- The product lies above the quotient's multiple of `P` and at most at the next one's.
  have hlow : n / d * P < n * m := by
    rcases Nat.eq_zero_or_pos (n / d) with hq | hq
    · rw [hq, Nat.zero_mul]
      refine Nat.mul_pos hn0 (Nat.pos_of_ne_zero ?_)
      rintro rfl
      omega
    · calc n / d * P < n / d * (m * d) := Nat.mul_lt_mul_of_pos_left (by omega) hq
        _ = (n / d * d) * m := by ring
        _ ≤ n * m := Nat.mul_le_mul_right m (Nat.div_mul_le_self n d)
  have hhigh : n * m ≤ (n / d + 1) * P := by
    have h := mul_mul_add hd hm n
    exact Nat.le_of_mul_le_mul_right (c := d) (by omega) hd
  have hP' : (0 : ℤ) < P := by exact_mod_cast hP
  zify at hlow hhigh
  refine le_antisymm ?_ ?_
  · refine Int.le_of_lt_add_one ((Int.ediv_lt_iff_lt_mul hP').mpr ?_)
    push_cast
    nlinarith
  · refine (Int.le_ediv_iff_mul_le hP').mpr ?_
    push_cast
    nlinarith

end Badc
