import Mathlib.Data.Nat.Bitwise
import Mathlib.Tactic

/-!
# Runs of ones

A word whose ones stand side by side is a run: it is found by its trailing zeros, and by a sum that
carries through all of its ones (`exists_isRun_iff`).  Round a circle of `e` bits a run is given by its
length and by how far it is rotated (`Cyclic`), and an even element has no shorter period
(`Cyclic.halves_differ`).
-/

namespace Badc

variable {N : ℕ}

/-! ## Counting bits -/

/-- The number of zeros below the lowest one, or the width. -/
def ctz (x : BitVec N) : ℕ := (List.range N).findIdx x.getLsbD

/-- The number of ones below the lowest zero, or the width. -/
def cto (x : BitVec N) : ℕ := (List.range N).findIdx fun i => !x.getLsbD i

/-- The number of ones above the highest zero, or the width. -/
def leadingOnes (x : BitVec N) : ℕ := (List.range N).findIdx fun i => !x.getLsbD (N - 1 - i)

lemma findIdx_range {p : ℕ → Bool} {n k : ℕ} (hk : k ≤ n) (hbelow : ∀ j < k, p j = false)
    (hat : k < n → p k = true) : (List.range n).findIdx p = k := by
  rcases hk.lt_or_eq with hlt | rfl
  · rw [List.findIdx_eq (by simpa using hlt)]
    refine ⟨by simpa using hat hlt, fun j hj => ?_⟩
    simpa using hbelow j hj
  · have hnone : ∀ j ∈ List.range k, p j = false := fun j hj => hbelow j (List.mem_range.mp hj)
    rw [List.findIdx_eq_length_of_false hnone, List.length_range]

lemma getLsbD_of_lt_ctz {x : BitVec N} {j : ℕ} (hj : j < ctz x) :
    x.getLsbD j = false := by
  simpa using List.not_of_lt_findIdx hj

/-- A word that is not zero has a one behind its trailing zeros. -/
lemma getLsbD_ctz {x : BitVec N} (hx : x ≠ 0) :
    ctz x < N ∧ x.getLsbD (ctz x) = true := by
  have hex : ∃ j ∈ List.range N, x.getLsbD j = true := by
    by_contra hc
    refine hx (BitVec.eq_of_getLsbD_eq fun j hj => ?_)
    rw [Bool.eq_false_iff.mpr fun hj' => hc ⟨j, List.mem_range.mpr hj, hj'⟩]
    exact BitVec.getLsbD_zero.symm
  have hlt : ctz x < (List.range N).length := List.findIdx_lt_length_of_exists hex
  rw [List.length_range] at hlt
  exact ⟨hlt, List.findIdx_of_getElem?_eq_some (List.getElem?_range hlt)⟩

/-! ## Runs -/

/-- The ones of a word are `k` bits from bit `i`. -/
structure IsRun (x : BitVec N) (i k : ℕ) : Prop where
  pos : 0 < k
  le : i + k ≤ N
  bit : ∀ j < N, x.getLsbD j = decide (i ≤ j ∧ j < i + k)

variable {x y : BitVec N} {i k : ℕ}

lemma IsRun.ctz (h : IsRun x i k) : ctz x = i := by
  have hpos := h.pos
  have hle := h.le
  refine findIdx_range (by omega) (fun j hj => ?_) fun hi => ?_
  · rw [h.bit j (by omega), decide_eq_false_iff_not]
    omega
  · rw [h.bit i hi, decide_eq_true_iff]
    omega

/-- The length of a run is that of the ones behind the trailing zeros. -/
lemma IsRun.cto_ushiftRight (h : IsRun x i k) : cto (x >>> i) = k := by
  have hle := h.le
  refine findIdx_range (by omega) (fun j hj => ?_) fun hk => ?_
  · rw [BitVec.getLsbD_ushiftRight, h.bit _ (by omega), Bool.not_eq_false', decide_eq_true_iff]
    omega
  · rw [BitVec.getLsbD_ushiftRight, Bool.not_eq_true']
    by_cases hik : i + k < N
    · rw [h.bit _ hik, decide_eq_false_iff_not]
      omega
    · exact BitVec.getLsbD_of_ge x _ (Nat.le_of_not_lt hik)

lemma IsRun.not_bit (h : IsRun (~~~x) i k) {j : ℕ} (hj : j < N) :
    (!x.getLsbD j) = decide (i ≤ j ∧ j < i + k) := by
  rw [← h.bit j hj, BitVec.getLsbD_not, decide_eq_true hj, Bool.true_and]

lemma IsRun.leadingOnes_not (h : IsRun (~~~x) i k) : leadingOnes x = N - (i + k) := by
  have hpos := h.pos
  have hle := h.le
  refine findIdx_range (by omega) (fun j hj => ?_) fun _ => ?_
  · rw [h.not_bit (by omega), decide_eq_false_iff_not]
    omega
  · rw [h.not_bit (by omega), decide_eq_true_iff]
    omega

lemma IsRun.cto_not (h : IsRun (~~~x) i k) : cto x = i := by
  have hpos := h.pos
  have hle := h.le
  refine findIdx_range (by omega) (fun j hj => ?_) fun hi => ?_
  · rw [h.not_bit (by omega), decide_eq_false_iff_not]
    omega
  · rw [h.not_bit hi, decide_eq_true_iff]
    omega

/-- Adding one carries through all the ones of a number exactly if these are its lowest bits. -/
lemma land_succ_eq_zero {n : ℕ} : n &&& (n + 1) = 0 ↔ ∃ k, n = 2 ^ k - 1 := by
  constructor
  · induction n using Nat.strong_induction_on with
    | _ n ih =>
      intro h
      have hhalf : n / 2 &&& (n + 1) / 2 = 0 := by rw [← Nat.and_div_two, h]
      rcases Nat.even_or_odd' n with ⟨m, rfl | rfl⟩
      · rw [show 2 * m / 2 = m by omega, show (2 * m + 1) / 2 = m by omega, Nat.and_self] at hhalf
        exact ⟨0, by rw [hhalf]; rfl⟩
      · rw [show (2 * m + 1) / 2 = m by omega, show (2 * m + 1 + 1) / 2 = m + 1 by omega] at hhalf
        obtain ⟨k, hk⟩ := ih m (by omega) hhalf
        have hpos : 0 < 2 ^ k := Nat.two_pow_pos k
        exact ⟨k + 1, by rw [pow_succ]; omega⟩
  · rintro ⟨k, rfl⟩
    rw [Nat.sub_add_cancel Nat.one_le_two_pow, Nat.and_comm, Nat.and_two_pow_sub_one_eq_mod,
      Nat.mod_self]

/-- The lowest `k` bits of a word are its ones. -/
lemma toNat_eq_two_pow_sub_one (hk : k ≤ N) :
    y.toNat = 2 ^ k - 1 ↔ ∀ j < N, y.getLsbD j = decide (j < k) := by
  constructor
  · intro h j _
    rw [← BitVec.testBit_toNat, h, Nat.testBit_two_pow_sub_one]
  · intro h
    refine Nat.eq_of_testBit_eq fun j => ?_
    rw [BitVec.testBit_toNat, Nat.testBit_two_pow_sub_one]
    by_cases hj : j < N
    · exact h j hj
    · rw [BitVec.getLsbD_of_ge y j (Nat.le_of_not_lt hj), eq_comm, decide_eq_false_iff_not]
      omega

/-- A sum with one that carries through all the ones of a word. -/
lemma and_add_one_eq_zero (hN : 0 < N) :
    y &&& (y + 1) = 0 ↔ ∃ k ≤ N, ∀ j < N, y.getLsbD j = decide (j < k) := by
  have hone : (1 : BitVec N).toNat = 1 := BitVec.toNat_one hN
  rw [← BitVec.toNat_inj, BitVec.toNat_and, BitVec.toNat_add, hone]
  by_cases hmax : y.toNat + 1 = 2 ^ N
  · refine iff_of_true ?_ ⟨N, le_refl N, (toNat_eq_two_pow_sub_one (le_refl N)).mp (by omega)⟩
    rw [hmax, Nat.mod_self, Nat.and_zero]
    rfl
  · have hlt : y.toNat + 1 < 2 ^ N := lt_of_le_of_ne y.isLt hmax
    rw [Nat.mod_eq_of_lt hlt]
    constructor
    · intro h
      obtain ⟨k, hk⟩ := land_succ_eq_zero.mp h
      have hkN : k ≤ N := by
        by_contra hc
        have hpow : 2 ^ N < 2 ^ k := Nat.pow_lt_pow_right (by norm_num) (by omega)
        omega
      exact ⟨k, hkN, (toNat_eq_two_pow_sub_one hkN).mp hk⟩
    · rintro ⟨k, hk, hbit⟩
      exact land_succ_eq_zero.mpr ⟨k, (toNat_eq_two_pow_sub_one hk).mpr hbit⟩

/-- A word is a run exactly if the word behind its trailing zeros carries through all of its ones. -/
theorem exists_isRun_iff (hN : 0 < N) : (∃ i k, IsRun x i k) ↔
    x ≠ 0 ∧ (x >>> ctz x) &&& (x >>> ctz x + 1) = 0 := by
  rw [and_add_one_eq_zero hN]
  constructor
  · rintro ⟨i, k, h⟩
    have hpos := h.pos
    have hle := h.le
    refine ⟨?_, k, by omega, fun j hj => ?_⟩
    · rintro rfl
      have hbit := h.bit i (by omega)
      rw [show (0 : BitVec N) = 0#N from rfl, BitVec.getLsbD_zero, eq_comm,
        decide_eq_false_iff_not] at hbit
      omega
    · rw [h.ctz, BitVec.getLsbD_ushiftRight]
      by_cases hij : i + j < N
      · rw [h.bit _ hij, decide_eq_decide]
        omega
      · rw [BitVec.getLsbD_of_ge x _ (Nat.le_of_not_lt hij), eq_comm, decide_eq_false_iff_not]
        omega
  · rintro ⟨hne, k, hk, hbit⟩
    obtain ⟨hlt, hone⟩ := getLsbD_ctz hne
    have hshift : ∀ j < N, x.getLsbD (ctz x + j) = decide (j < k) := by
      intro j hj
      rw [← hbit j hj, BitVec.getLsbD_ushiftRight]
    have hpos : 0 < k := by
      have hfirst := hshift 0 hN
      rwa [Nat.add_zero, hone, eq_comm, decide_eq_true_iff] at hfirst
    have hle : ctz x + k ≤ N := by
      by_contra hc
      have hout := hshift (N - ctz x) (by omega)
      rw [BitVec.getLsbD_of_ge x _ (by omega), eq_comm, decide_eq_false_iff_not] at hout
      omega
    refine ⟨ctz x, k, hpos, hle, fun j hj => ?_⟩
    by_cases hj' : j < ctz x
    · rw [getLsbD_of_lt_ctz hj', eq_comm, decide_eq_false_iff_not]
      omega
    · obtain ⟨d, rfl⟩ := Nat.exists_eq_add_of_le (Nat.le_of_not_lt hj')
      rw [hshift d (by omega), decide_eq_decide]
      omega

/-! ## Rotated runs -/

/-- The bits below `n` are elements of `e` bits, each of `c` ones rotated right by `r`. -/
def Cyclic (e c r n : ℕ) (b : ℕ → Bool) : Prop := ∀ j < n, b j = decide ((j + r) % e < c)

lemma add_sub_mod_lt_iff {e c i j : ℕ} (hj : j < e) (hi : i ≤ e) :
    (j + (e - i) % e) % e < c ↔ if i + c ≤ e then i ≤ j ∧ j < i + c else i ≤ j ∨ j < i + c - e := by
  have hrot : (j + (e - i) % e) % e = if i ≤ j then j - i else j + (e - i) := by
    rw [Nat.add_mod_mod]
    split
    · rw [show j + (e - i) = j - i + e by omega, Nat.add_mod_right, Nat.mod_eq_of_lt (by omega)]
    · exact Nat.mod_eq_of_lt (by omega)
  rw [hrot]
  split_ifs <;> omega

lemma exists_start {e r : ℕ} (hr : r < e) : ∃ i < e, r = (e - i) % e := by
  rcases Nat.eq_zero_or_pos r with rfl | hpos
  · exact ⟨0, hr, by rw [Nat.sub_zero, Nat.mod_self]⟩
  · exact ⟨e - r, by omega, by rw [Nat.sub_sub_self hr.le, Nat.mod_eq_of_lt hr]⟩

variable {e c r n : ℕ} {b : ℕ → Bool}

lemma exists_add_mod_eq (hr : r < e) {p : ℕ} (hp : p < e) : ∃ j < e, (j + r) % e = p := by
  refine ⟨(p + (e - r)) % e, Nat.mod_lt _ (by omega), ?_⟩
  rw [Nat.mod_add_mod, show p + (e - r) + r = p + e by omega, Nat.add_mod_right,
    Nat.mod_eq_of_lt hp]

lemma Cyclic.exists_bits (h : Cyclic e c r n b) (hc : 0 < c) (hce : c < e) (hr : r < e)
    (hn : e ≤ n) : (∃ j < n, b j = true) ∧ ∃ j < n, b j = false := by
  obtain ⟨j, hj, hzero⟩ := exists_add_mod_eq hr (show 0 < e by omega)
  obtain ⟨l, hl, hlast⟩ := exists_add_mod_eq hr (show e - 1 < e by omega)
  refine ⟨⟨j, by omega, ?_⟩, l, by omega, ?_⟩
  · rw [h j (by omega), hzero, decide_eq_true hc]
  · rw [h l (by omega), hlast, decide_eq_false_iff_not]
    omega

/-- The halves of an element with a run that is neither empty nor full differ: the first bit of the run
would be half an element behind a zero. -/
lemma Cyclic.halves_differ (h : Cyclic e c r n b) (hc : 0 < c) (hce : c < e) (hr : r < e)
    (hn : e ≤ n) {k : ℕ} (hk : e = 2 * k) : ∃ t < k, b t ≠ b (k + t) := by
  by_contra hall
  push Not at hall
  -- Bits half an element apart round the circle are equal.
  have hopp : ∀ p < e, (decide (p < c) : Bool) = decide ((p + k) % e < c) := by
    intro p hp
    obtain ⟨j, hj, rfl⟩ := exists_add_mod_eq hr hp
    by_cases hjk : j < k
    · have heq := hall j hjk
      rw [h j (by omega), h (k + j) (by omega)] at heq
      rw [heq, Nat.mod_add_mod, show j + r + k = k + j + r by omega]
    · have heq := hall (j - k) (by omega)
      rw [h (j - k) (by omega), h (k + (j - k)) (by omega), show k + (j - k) = j by omega] at heq
      rw [← heq, Nat.mod_add_mod, show j + r + k = j - k + r + e by omega, Nat.add_mod_right]
  have hfirst := hopp 0 (by omega)
  have hlast := hopp (e - 1) (by omega)
  rw [decide_eq_decide, Nat.zero_add, Nat.mod_eq_of_lt (by omega)] at hfirst
  rw [decide_eq_decide, show e - 1 + k = k - 1 + e by omega, Nat.add_mod_right,
    Nat.mod_eq_of_lt (by omega)] at hlast
  omega

end Badc
