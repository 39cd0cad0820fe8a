import Badc.Lib.Reciprocal

/-!
# Magic multipliers

`search`, `magic_unsigned` and `magic_signed` of `src/c5/codegen/magic.rs`: the smallest shift `p`
from the operand width on, with the multiplier `m = ceil(2^p / d)`, whose error passes every bound
asked of it.  The search ends below twice the width (`search_spec`), and its multiplier has at most
one bit more than the numerators.  The source's `u128` values are natural numbers here: none overflows
(`search_succeeds`).
-/

namespace Badc.Magic

/-- Worst case of a numerator range, and whether the error must stay below `2^p` or may reach
it. -/
structure Bound where
  nc : ℕ
  strict : Bool

/-- Whether the error `e` passes the bound at `2^p = pow`. -/
def Bound.passes (b : Bound) (e pow : ℕ) : Bool :=
  if b.strict then e * b.nc < pow else e * b.nc ≤ pow

/-- `a.div_ceil(b)`. -/
def divCeil (a b : ℕ) : ℕ := (a + b - 1) / b

/-- The multiplier at the shift `p`. -/
def multiplier (d p : ℕ) : ℕ := divCeil (2 ^ p) d

/-- The multiplier's error at the shift `p`. -/
def error (d p : ℕ) : ℕ := multiplier d p * d - 2 ^ p

/-- Whether every bound passes at the shift `p`. -/
def exactAt (d : ℕ) (bounds : List Bound) (p : ℕ) : Bool :=
  bounds.all fun b => b.passes (error d p) (2 ^ p)

/-- The search over `k` shifts from `p` on. -/
def searchFrom (d : ℕ) (bounds : List Bound) : ℕ → ℕ → ℕ × ℕ
  | 0, p => (p, 0) -- `unreachable!`
  | k + 1, p => if exactAt d bounds p then (p, multiplier d p) else searchFrom d bounds k (p + 1)

/-- Smallest shift `p` in `w..2 * w` whose multiplier passes every bound, with the multiplier. -/
def search (d w : ℕ) (bounds : List Bound) : ℕ × ℕ := searchFrom d bounds w w

/-- Lowering shape for an unsigned constant divide. -/
structure UnsignedMagic where
  /-- Multiplier; in the `add` form short of the true one by `2^w`. -/
  m : ℕ
  /-- The true multiplier needs `w + 1` bits. -/
  add : Bool
  /-- Right shift after the multiply. -/
  shift : ℕ
  deriving DecidableEq, Repr

/-- Multiplier and shift for `n / d` over `n` in `[0, 2^numBits)`. -/
def magicUnsigned (d w numBits : ℕ) : UnsignedMagic :=
  let nmax := 2 ^ numBits - 1
  let (p, m) := search d w [⟨worstCase nmax d, true⟩]
  if m < 2 ^ w then ⟨m, false, p - w⟩ else ⟨m - 2 ^ w, true, p - w - 1⟩

/-- Lowering shape for a signed constant divide by a positive divisor. -/
structure SignedMagic where
  /-- Multiplier. -/
  m : ℕ
  /-- Arithmetic right shift after the multiply. -/
  shift : ℕ
  deriving DecidableEq, Repr

/-- Multiplier and shift for `n / d` over the signed numerators of `w` bits. -/
def magicSigned (d w : ℕ) : SignedMagic :=
  let (p, m) := search d w
    [⟨worstCase (2 ^ (w - 1) - 1) d, true⟩, ⟨worstCase (2 ^ (w - 1)) d, false⟩]
  ⟨m, p - w⟩

/-! ## The search ends -/

variable {d w bits p : ℕ} {bounds : List Bound}

lemma divCeil_mul (a : ℕ) (hd : 0 < d) : a ≤ divCeil a d * d ∧ divCeil a d * d < a + d := by
  unfold divCeil
  have hdm := Nat.div_add_mod (a + d - 1) d
  have hmod := Nat.mod_lt (a + d - 1) hd
  rw [Nat.mul_comm]
  omega

lemma multiplier_mul (hd : 0 < d) (p : ℕ) :
    multiplier d p * d = 2 ^ p + error d p ∧ error d p < d := by
  obtain ⟨h1, h2⟩ := divCeil_mul (2 ^ p) hd
  unfold error multiplier
  omega

lemma error_pos (hd : 0 < d) (hpow : ∀ k, d ≠ 2 ^ k) (p : ℕ) : 0 < error d p := by
  obtain ⟨hm, -⟩ := multiplier_mul hd p
  by_contra h0
  have hdvd : d ∣ 2 ^ p := ⟨multiplier d p, by rw [Nat.mul_comm, hm]; omega⟩
  obtain ⟨k, -, hk⟩ := (Nat.dvd_prime_pow Nat.prime_two).mp hdvd
  exact hpow k hk

/-- The least passing shift of a searched range, where there is one. -/
lemma searchFrom_eq {k q : ℕ} (hq : exactAt d bounds q = true) :
    p ≤ q → q < p + k → ∃ r, p ≤ r ∧ r ≤ q ∧ exactAt d bounds r = true ∧
      searchFrom d bounds k p = (r, multiplier d r) := by
  induction k generalizing p with
  | zero =>
    intro h1 h2
    omega
  | succ k ih =>
    intro h1 h2
    unfold searchFrom
    by_cases hp : exactAt d bounds p = true
    · rw [if_pos hp]
      exact ⟨p, le_rfl, h1, hp, rfl⟩
    · rw [if_neg hp]
      have hne : p ≠ q := by
        rintro rfl
        exact hp hq
      obtain ⟨r, hr, hrq, hexact, heq⟩ := ih (p := p + 1) (by omega) (by omega)
      exact ⟨r, by omega, hrq, hexact, heq⟩

/-- An error below `2^l` passes bounds of at most `2^bits` at the shift `bits + l`. -/
lemma exactAt_of_le {l : ℕ} (hd : 0 < d) (hl : d ≤ 2 ^ l) (hnc : ∀ b ∈ bounds, b.nc ≤ 2 ^ bits)
    (hp : bits + l ≤ p) : exactAt d bounds p = true := by
  obtain ⟨-, he⟩ := multiplier_mul hd p
  have hpow : 2 ^ bits * 2 ^ l ≤ 2 ^ p := by
    rw [← pow_add]
    exact Nat.pow_le_pow_right two_pos hp
  refine List.all_eq_true.mpr fun b hb => ?_
  have hlt : error d p * b.nc < 2 ^ p := by
    calc error d p * b.nc ≤ error d p * 2 ^ bits := Nat.mul_le_mul_left _ (hnc b hb)
      _ < 2 ^ l * 2 ^ bits := Nat.mul_lt_mul_of_pos_right (by omega) (by positivity)
      _ ≤ 2 ^ p := by rwa [Nat.mul_comm]
  unfold Bound.passes
  split
  · exact decide_eq_true hlt
  · exact decide_eq_true hlt.le

lemma multiplier_lt_of_width (hd : 2 ≤ d) (hdw : d < 2 ^ w) : multiplier d w < 2 ^ w := by
  obtain ⟨hm, he⟩ := multiplier_mul (d := d) (by omega) w
  have h2 : 2 ^ w * 2 ≤ 2 ^ w * d := Nat.mul_le_mul_left _ hd
  refine Nat.lt_of_mul_lt_mul_right (a := d) ?_
  omega

/-- At a shift of at most the numerators' and the divisor's widths the multiplier has at most one
bit more than the numerators. -/
lemma multiplier_lt {l : ℕ} (hl : 2 ^ l < d) (hdb : d ≤ 2 ^ (bits + 1))
    (hp : p ≤ bits + (l + 1)) : multiplier d p < 2 ^ (bits + 1) := by
  obtain ⟨hm, he⟩ := multiplier_mul (Nat.zero_lt_of_lt hl) p
  have hpow : 2 ^ p ≤ 2 ^ (bits + 1) * 2 ^ l := by
    rw [← pow_add]
    exact Nat.pow_le_pow_right two_pos (by omega)
  have hmul : 2 ^ (bits + 1) * (2 ^ l + 1) ≤ 2 ^ (bits + 1) * d := Nat.mul_le_mul_left _ hl
  rw [Nat.mul_add, Nat.mul_one] at hmul
  refine Nat.lt_of_mul_lt_mul_right (a := d) ?_
  omega

/-- **The search ends** below twice the width, at a shift whose error passes every bound.  Its
multiplier fits the width, or the shift is above the width and the multiplier has at most one bit
more than the numerators. -/
theorem search_spec (hd : 3 ≤ d) (hpow : ∀ k, d ≠ 2 ^ k) (hdw : d < 2 ^ (w - 1)) (hbits : bits ≤ w)
    (hdb : d ≤ 2 ^ (bits + 1)) (hnc : ∀ b ∈ bounds, b.nc ≤ 2 ^ bits) :
    ∃ p, w ≤ p ∧ p < 2 * w ∧ search d w bounds = (p, multiplier d p) ∧
      exactAt d bounds p = true ∧
      (multiplier d p < 2 ^ w ∨ w < p ∧ multiplier d p < 2 ^ (bits + 1)) := by
  -- `2^l < d < 2^(l + 1)`, so a shift of `bits + l + 1` passes.
  have hl1 : 2 ^ Nat.log 2 d ≤ d := Nat.pow_log_le_self 2 (by omega)
  have hl2 : d < 2 ^ (Nat.log 2 d + 1) := Nat.lt_pow_succ_log_self (by norm_num) d
  generalize Nat.log 2 d = l at hl1 hl2
  have hl : 2 ^ l < d := lt_of_le_of_ne hl1 (hpow l).symm
  have hlw : l < w - 1 := (Nat.pow_lt_pow_iff_right (by norm_num)).mp (hl.trans hdw)
  have hq : exactAt d bounds (max w (bits + (l + 1))) = true :=
    exactAt_of_le (by omega) hl2.le hnc (le_max_right _ _)
  obtain ⟨p, hwp, hpq, hexact, heq⟩ := searchFrom_eq (p := w) (k := w) hq (le_max_left _ _)
    (by omega)
  refine ⟨p, hwp, by omega, heq, hexact, ?_⟩
  rcases hwp.eq_or_lt with rfl | hlt
  · left
    refine multiplier_lt_of_width (by omega) (hdw.trans_le ?_)
    exact Nat.pow_le_pow_right two_pos (Nat.sub_le _ _)
  · exact Or.inr ⟨hlt, multiplier_lt hl hdb (by omega)⟩

/-- The search's values are of type `u128`. -/
theorem search_fits {nc : ℕ} (hd : 0 < d) (hdw : d ≤ 2 ^ (w - 1)) (hw : w ≤ 64) (hp : p < 2 * w)
    (hnc : nc ≤ 2 ^ w) :
    2 ^ p + d < 2 ^ 128 ∧ multiplier d p * d < 2 ^ 128 ∧ error d p * nc < 2 ^ 128 := by
  obtain ⟨hm, he⟩ := multiplier_mul hd p
  have hpow : 2 ^ p ≤ 2 ^ 127 := Nat.pow_le_pow_right two_pos (by omega)
  have hd63 : 2 ^ (w - 1) ≤ 2 ^ 63 := Nat.pow_le_pow_right two_pos (by omega)
  have hn64 : 2 ^ w ≤ 2 ^ 64 := Nat.pow_le_pow_right two_pos hw
  have hprod : error d p * nc ≤ 2 ^ 63 * 2 ^ 64 := Nat.mul_le_mul (by omega) (by omega)
  exact ⟨by omega, by omega, by omega⟩

/-! ## The search stays within `u128` -/

/-- A value of type `u128`; none where it overflows. -/
def u128 (x : ℕ) : Option ℕ := if x < 2 ^ 128 then some x else none

/-- The test of the bounds at `pow`, up to the first that fails. -/
def passAll (e pow : ℕ) : List Bound → Option Bool
  | [] => some true
  | b :: bounds => do
    let lhs ← u128 (e * b.nc)
    if (if b.strict then lhs < pow else lhs ≤ pow) then passAll e pow bounds else some false

/-- `searchFrom` in `u128`; none where a value overflows or no shift is left. -/
def checkedFrom (d : ℕ) (bounds : List Bound) : ℕ → ℕ → Option (ℕ × ℕ)
  | 0, _ => none -- `unreachable!`
  | k + 1, p => do
    let pow ← u128 (2 ^ p)
    let m := divCeil pow d
    let md ← u128 (m * d)
    if ← passAll (md - pow) pow bounds then some (p, m) else checkedFrom d bounds k (p + 1)

/-- `search` in `u128`. -/
def searchChecked (d w : ℕ) (bounds : List Bound) : Option (ℕ × ℕ) := checkedFrom d bounds w w

/-- Where the products fit, the test is that of every bound. -/
lemma passAll_eq {e pow : ℕ} (h : ∀ b ∈ bounds, e * b.nc < 2 ^ 128) :
    passAll e pow bounds = some (bounds.all fun b => b.passes e pow) := by
  induction bounds with
  | nil => rfl
  | cons b bounds ih =>
    obtain ⟨hb, hbounds⟩ := List.forall_mem_cons.mp h
    rw [passAll, u128, if_pos hb, Option.bind_eq_bind, Option.bind_some, ih hbounds, List.all_cons,
      Bound.passes]
    cases b.strict with
    | true => by_cases hlt : e * b.nc < pow <;> simp [hlt]
    | false => by_cases hle : e * b.nc ≤ pow <;> simp [hle]

/-- Up to a shift that passes nothing overflows. -/
lemma checkedFrom_eq {k q : ℕ} (hd : 0 < d) (hdw : d ≤ 2 ^ (w - 1)) (hw : w ≤ 64)
    (hnc : ∀ b ∈ bounds, b.nc ≤ 2 ^ w) (hq : exactAt d bounds q = true) (hqw : q < 2 * w) :
    p ≤ q → q < p + k → checkedFrom d bounds k p = some (searchFrom d bounds k p) := by
  induction k generalizing p with
  | zero =>
    intro h1 h2
    omega
  | succ k ih =>
    intro h1 h2
    have hfits := fun nc => @search_fits d w p nc hd hdw hw (h1.trans_lt hqw)
    obtain ⟨hpow, hmul, -⟩ := hfits 0 (Nat.zero_le _)
    have hpass : passAll (divCeil (2 ^ p) d * d - 2 ^ p) (2 ^ p) bounds = some (exactAt d bounds p) :=
      passAll_eq fun b hb => (hfits b.nc (hnc b hb)).2.2
    rw [multiplier] at hmul
    simp only [checkedFrom, searchFrom, u128, if_pos hmul, if_pos (Nat.lt_of_add_right_lt hpow),
      Option.bind_eq_bind, Option.bind_some, hpass]
    by_cases hp : exactAt d bounds p = true
    · rw [if_pos hp, if_pos hp, multiplier]
    · have hne : p ≠ q := by
        rintro rfl
        exact hp hq
      rw [if_neg hp, if_neg hp, ih (by omega) (by omega)]

/-! ## The magic numbers divide -/

lemma passes_of_exactAt (h : exactAt d bounds p = true) {b : Bound} (hb : b ∈ bounds) :
    b.passes (error d p) (2 ^ p) = true := List.all_eq_true.mp h b hb

/-- **The unsigned magic numbers divide.**  The multiplier fits the width.  Without the `add` form
the product's high part is the quotient; the form is taken only for numerators of the full width,
and then with the true multiplier's. -/
theorem magicUnsigned_spec (hd : 3 ≤ d) (hpow : ∀ k, d ≠ 2 ^ k) (hdw : d < 2 ^ (w - 1))
    (hbits : bits ≤ w) (hdb : d < 2 ^ bits) :
    (magicUnsigned d w bits).m < 2 ^ w ∧
    ((magicUnsigned d w bits).add = false → (magicUnsigned d w bits).shift < w ∧
      ∀ n < 2 ^ bits, n * (magicUnsigned d w bits).m / 2 ^ (w + (magicUnsigned d w bits).shift) =
        n / d) ∧
    ((magicUnsigned d w bits).add = true → bits = w ∧ (magicUnsigned d w bits).shift + 1 < w ∧
      ∀ n < 2 ^ bits,
        n * ((magicUnsigned d w bits).m + 2 ^ w) / 2 ^ (w + ((magicUnsigned d w bits).shift + 1)) =
          n / d) := by
  have hnc : ∀ b ∈ [(⟨worstCase (2 ^ bits - 1) d, true⟩ : Bound)], b.nc ≤ 2 ^ bits := by
    intro b hb
    obtain rfl := List.mem_singleton.mp hb
    exact (worstCase_le _ _).trans (Nat.sub_le _ _)
  have hdb' : d ≤ 2 ^ (bits + 1) := hdb.le.trans (Nat.pow_le_pow_right two_pos (by omega))
  obtain ⟨p, hwp, hp, heq, hexact, hm⟩ := search_spec hd hpow hdw hbits hdb' hnc
  have hpass := passes_of_exactAt hexact (List.mem_singleton.mpr rfl)
  have hquot : ∀ n < 2 ^ bits, n * multiplier d p / 2 ^ p = n / d := fun n hn =>
    mul_div_eq_div (by omega) (multiplier_mul (by omega) p).1 (by omega)
      (by simpa [Bound.passes] using hpass) (Nat.le_sub_one_of_lt hn)
  simp only [magicUnsigned, heq]
  by_cases hlt : multiplier d p < 2 ^ w
  · rw [if_pos hlt]
    refine ⟨hlt, fun _ => ⟨?_, ?_⟩, nofun⟩
    · dsimp only
      omega
    · simpa only [Nat.add_sub_cancel' hwp] using hquot
  · rw [if_neg hlt]
    obtain ⟨hwp', hm⟩ := hm.resolve_left hlt
    have hw : bits = w := by
      have := (Nat.pow_lt_pow_iff_right (by norm_num)).mp ((Nat.not_lt.mp hlt).trans_lt hm)
      omega
    have hm2 : multiplier d p < 2 ^ w * 2 := by rwa [hw, pow_succ] at hm
    have hshift : w + (p - w - 1 + 1) = p := by omega
    have hadd : multiplier d p - 2 ^ w + 2 ^ w = multiplier d p := by omega
    refine ⟨?_, nofun, fun _ => ⟨hw, ?_, ?_⟩⟩
    · dsimp only
      omega
    · dsimp only
      omega
    · simpa only [hshift, hadd] using hquot

/-- **The signed magic numbers divide.**  The multiplier fits the width, and the product's high
part is the truncated quotient, less one for a negative numerator. -/
theorem magicSigned_spec (hd : 3 ≤ d) (hpow : ∀ k, d ≠ 2 ^ k) (hw : 1 ≤ w)
    (hdw : d < 2 ^ (w - 1)) :
    (magicSigned d w).m < 2 ^ w ∧ (magicSigned d w).shift < w ∧
    ∀ n : ℤ, -2 ^ (w - 1) ≤ n → n < 2 ^ (w - 1) →
      n * (magicSigned d w).m / 2 ^ (w + (magicSigned d w).shift) =
        n.tdiv d - (if n < 0 then 1 else 0) := by
  have hnc : ∀ b ∈ [(⟨worstCase (2 ^ (w - 1) - 1) d, true⟩ : Bound),
      ⟨worstCase (2 ^ (w - 1)) d, false⟩], b.nc ≤ 2 ^ (w - 1) := by
    intro b hb
    rcases List.mem_pair.mp hb with rfl | rfl
    · exact (worstCase_le _ _).trans (Nat.sub_le _ _)
    · exact worstCase_le _ _
  have hww : w - 1 + 1 = w := Nat.sub_add_cancel hw
  have hdb : d ≤ 2 ^ (w - 1 + 1) := hdw.le.trans (Nat.pow_le_pow_right two_pos (by omega))
  obtain ⟨p, hwp, hp, heq, hexact, hm⟩ := search_spec hd hpow hdw (by omega) hdb hnc
  have hpos : error d p * worstCase (2 ^ (w - 1) - 1) d < 2 ^ p := by
    simpa [Bound.passes] using passes_of_exactAt hexact List.mem_cons_self
  have hneg : error d p * worstCase (2 ^ (w - 1)) d ≤ 2 ^ p := by
    simpa [Bound.passes] using
      passes_of_exactAt hexact (List.mem_cons_of_mem _ (List.mem_singleton.mpr rfl))
  have hmul := (multiplier_mul (d := d) (by omega) p).1
  simp only [magicSigned, heq, Nat.add_sub_cancel' hwp]
  refine ⟨?_, by omega, fun n h1 h2 => ?_⟩
  · rcases hm with hm | ⟨-, hm⟩
    · exact hm
    · rwa [hww] at hm
  · rcases Int.le_total 0 n with h0 | h0
    · lift n to ℕ using h0
      have hn : n ≤ 2 ^ (w - 1) - 1 := Nat.le_sub_one_of_lt (by exact_mod_cast h2)
      have hq := mul_div_eq_div (by omega) hmul (by omega) hpos hn
      rw [if_neg (by omega), sub_zero, ← Int.ofNat_tdiv, ← hq]
      push_cast
      rfl
    · rcases h0.eq_or_lt with rfl | hlt
      · simp
      · obtain ⟨a, rfl⟩ : ∃ a : ℕ, n = -(a : ℤ) := ⟨n.natAbs, by omega⟩
        have ha : a ≤ 2 ^ (w - 1) := by
          have : (a : ℤ) ≤ 2 ^ (w - 1) := by omega
          exact_mod_cast this
        have hq := neg_mul_ediv_eq (n := a) (by omega) (by positivity) hmul (by omega)
          (error_pos (by omega) hpow p) hneg ha (by omega)
        rw [if_pos hlt, Int.neg_tdiv, ← Int.ofNat_tdiv]
        rw [← hq]
        push_cast
        rfl

/-- **The search succeeds in range.**  For every bound list of the callers nothing overflows and a
shift below twice the width passes.  The unsigned multiplier has at most one bit more than the
width, and that bit only above the width and for numerators of the full width; the signed multiplier
fits the width. -/
theorem search_succeeds (hw : w = 32 ∨ w = 64) (hd : 3 ≤ d) (hpow : ∀ k, d ≠ 2 ^ k)
    (hdw : d < 2 ^ (w - 1)) :
    (∀ bits ≤ w, d ≤ 2 ^ bits - 1 → ∃ p m,
      searchChecked d w [⟨worstCase (2 ^ bits - 1) d, true⟩] = some (p, m) ∧ p < 2 * w ∧
      m < 2 ^ (w + 1) ∧
      magicUnsigned d w bits =
        (if m < 2 ^ w then ⟨m, false, p - w⟩ else ⟨m - 2 ^ w, true, p - w - 1⟩) ∧
      ((magicUnsigned d w bits).add = true → w < p ∧ bits = w)) ∧
    ∃ p m, searchChecked d w [⟨worstCase (2 ^ (w - 1) - 1) d, true⟩,
        ⟨worstCase (2 ^ (w - 1)) d, false⟩] = some (p, m) ∧ p < 2 * w ∧ m < 2 ^ w ∧
      magicSigned d w = ⟨m, p - w⟩ := by
  have hchecked : ∀ bits bounds, bits ≤ w → d < 2 ^ (bits + 1) → (∀ b ∈ bounds, b.nc ≤ 2 ^ bits) →
      ∃ p, searchChecked d w bounds = some (p, multiplier d p) ∧
        search d w bounds = (p, multiplier d p) ∧ p < 2 * w ∧
        (multiplier d p < 2 ^ w ∨ w < p ∧ multiplier d p < 2 ^ (bits + 1)) := by
    intro bits bounds hbits hdb hnc
    obtain ⟨p, hwp, hp, heq, hexact, hm⟩ := search_spec hd hpow hdw hbits hdb.le hnc
    refine ⟨p, ?_, heq, hp, hm⟩
    rw [searchChecked, checkedFrom_eq (by omega) hdw.le (by omega) (fun b hb => (hnc b hb).trans
      (Nat.pow_le_pow_right two_pos hbits)) hexact hp hwp (by omega)]
    exact congrArg some heq
  have hww : w - 1 + 1 = w := by omega
  constructor
  · intro bits hbits hdb
    obtain ⟨p, hc, heq, hp, hm⟩ := hchecked bits [⟨worstCase (2 ^ bits - 1) d, true⟩] hbits
      (by rw [pow_succ]; omega)
      fun b hb => List.mem_singleton.mp hb ▸ (worstCase_le _ _).trans (Nat.sub_le _ _)
    have hwide : 2 ^ (bits + 1) ≤ 2 ^ (w + 1) := Nat.pow_le_pow_right two_pos (by omega)
    refine ⟨p, _, hc, hp, ?_, by simp only [magicUnsigned, heq], fun hadd => ?_⟩
    · rw [pow_succ] at hwide ⊢
      omega
    · -- The add form's multiplier is beyond the width, so the numerators are of the full width.
      simp only [magicUnsigned, heq] at hadd
      split at hadd
      · cases hadd
      · rename_i hge
        obtain ⟨hwp, hm⟩ := hm.resolve_left hge
        have := (Nat.pow_lt_pow_iff_right (by norm_num)).mp ((Nat.not_lt.mp hge).trans_lt hm)
        exact ⟨hwp, by omega⟩
  · obtain ⟨p, hc, heq, hp, hm⟩ := hchecked (w - 1) [⟨worstCase (2 ^ (w - 1) - 1) d, true⟩,
      ⟨worstCase (2 ^ (w - 1)) d, false⟩] (Nat.sub_le _ _) (by rw [pow_succ]; omega) fun b hb => by
        rcases List.mem_pair.mp hb with rfl | rfl
        · exact (worstCase_le _ _).trans (Nat.sub_le _ _)
        · exact worstCase_le _ _
    rw [hww] at hm
    exact ⟨p, _, hc, hp, hm.elim id And.right, by simp only [magicSigned, heq]⟩

/-- Divisions by seven of 32 bits: the unsigned one takes the add form. -/
theorem search_succeeds_seven : ∃ p m,
    searchChecked 7 32 [⟨worstCase (2 ^ 32 - 1) 7, true⟩] = some (p, m) ∧ p < 64 ∧ 2 ^ 32 ≤ m := by
  have hpow : ∀ k, 7 ≠ 2 ^ k := by
    intro k h
    cases k with
    | zero => cases h
    | succ k => omega
  obtain ⟨p, m, hs, hp, -, hmagic, -⟩ :=
    (search_succeeds (d := 7) (.inl rfl) (by decide) hpow (by decide)).1 32 le_rfl (by decide)
  refine ⟨p, m, hs, hp, Nat.not_lt.mp fun hm => ?_⟩
  have hadd : (magicUnsigned 7 32 32).add = true := by decide
  rw [hmagic, if_pos hm] at hadd
  cases hadd

end Badc.Magic
