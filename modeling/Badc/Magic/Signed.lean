import Badc.Magic.Unsigned

/-!
# Signed constant division

The signed arms of `lower_divmod` (`src/c5/codegen/magic.rs`): the sequence they ask for has the
value of the division it replaces, at every numerator and every nonzero divisor of the operand
width (`lowerDivmod_correct`).  The floored product is corrected to the truncated quotient by its
sign bit, a power of two biases a negative numerator before its shift, and a negative divisor
negates.
-/

namespace Badc.Magic

variable {n d q x y : Word} {a k w extra : ℕ} {z t : ℤ}

/-- The evaluated computation has the value `z`, as a signed number. -/
def GivesInt (c : Option Word) (z : ℤ) : Prop := ∃ q, c = some q ∧ q.toInt = z

lemma GivesInt.congr {c : Option Word} (h : GivesInt c z) (hz : z = t) : GivesInt c t := hz ▸ h

lemma GivesInt.bind {c : Option Word} {f : Word → Option Word} (h : GivesInt c z)
    (hf : ∀ q : Word, q.toInt = z → GivesInt (f q) t) : GivesInt (c >>= f) t := by
  obtain ⟨q, hc, hq⟩ := h
  obtain ⟨r, hr, hrz⟩ := hf q hq
  exact ⟨r, by rw [hc]; exact hr, hrz⟩

/-- The signed readings of a register. -/
def IsInt64 (z : ℤ) : Prop := -2 ^ 63 ≤ z ∧ z < 2 ^ 63

lemma isInt64_toInt (x : Word) : IsInt64 x.toInt := by
  have h1 := BitVec.le_toInt x
  have h2 := BitVec.toInt_lt (x := x)
  exact ⟨by omega, by omega⟩

lemma IsInt64.bmod (h : IsInt64 z) : z.bmod (2 ^ 64) = z := by
  obtain ⟨h1, h2⟩ := h
  exact Int.bmod_eq_of_le (by omega) (by omega)

lemma givesInt_add (h : IsInt64 (x.toInt + y.toInt)) :
    GivesInt (evaluator.binop .add x y) (x.toInt + y.toInt) :=
  ⟨x + y, rfl, by rw [BitVec.toInt_add, h.bmod]⟩

lemma toInt_ofNat_of_lt (hk : k < 2 ^ 63) : (BitVec.ofNat 64 k).toInt = k := by
  rw [BitVec.toInt_eq_toNat_cond, BitVec.toNat_ofNat, Nat.mod_eq_of_lt (by omega),
    if_pos (by omega)]

lemma toInt_ofNat_of_ge (hk : 2 ^ 63 ≤ k) (hk' : k < 2 ^ 64) :
    (BitVec.ofNat 64 k).toInt = k - 2 ^ 64 := by
  rw [BitVec.toInt_eq_toNat_cond, BitVec.toNat_ofNat, Nat.mod_eq_of_lt hk', if_neg (by omega)]
  push_cast
  rfl

lemma givesInt_shr (x : Word) (hk : k < 64) :
    GivesInt (evaluator.binopImm .shr x (BitVec.ofNat 64 k)) (x.toInt / 2 ^ k) := by
  have hcount : (BitVec.ofNat 64 k).toNat % 64 = k := by
    rw [BitVec.toNat_ofNat, Nat.mod_eq_of_lt (hk.trans (by norm_num)), Nat.mod_eq_of_lt hk]
  refine ⟨x.sshiftRight k, ?_, ?_⟩
  · simp only [evaluator, applyBinop, hcount]
  · rw [BitVec.toInt_sshiftRight, Int.shiftRight_eq_div_pow]
    push_cast
    rfl

lemma givesInt_shiftRight (x : Word) (hk : k < 64) :
    GivesInt (shiftRight evaluator .shr x k) (x.toInt / 2 ^ k) := by
  unfold shiftRight
  split
  · rename_i h0
    exact ⟨x, rfl, by rw [h0, pow_zero, Int.ediv_one]⟩
  · exact givesInt_shr x hk

/-! ## The floored quotient -/

lemma isInt64_mul_ediv (hz : IsInt64 z) (h0 : 0 ≤ t) (ht : t < 2 ^ 64) :
    IsInt64 (z * t / 2 ^ 64) := by
  obtain ⟨h1, h2⟩ := hz
  constructor
  · refine (Int.le_ediv_iff_mul_le (by norm_num)).mpr ?_
    nlinarith
  · refine (Int.ediv_lt_iff_lt_mul (by norm_num)).mpr ?_
    nlinarith

lemma givesInt_mulh (h : IsInt64 (x.toInt * y.toInt / 2 ^ 64)) :
    GivesInt (evaluator.binop .mulh x y) (x.toInt * y.toInt / 2 ^ 64) :=
  ⟨_, rfl, by rw [BitVec.toInt_ofInt, h.bmod]⟩

/-- The full-width high part: a multiplier with its top bit set is read negative, and the numerator
added back. -/
lemma givesInt_highPart (n : Word) (ha : a < 2 ^ 64) :
    GivesInt (do
      let hi ← evaluator.binop .mulh n (BitVec.ofNat 64 a)
      (if a >>> 63 ≠ 0 then evaluator.binop .add hi n else pure hi : Option Word))
      (n.toInt * a / 2 ^ 64) := by
  have hn := isInt64_toInt n
  have hexact := isInt64_mul_ediv hn (t := a) (by omega) (by exact_mod_cast ha)
  have htop : a >>> 63 ≠ 0 ↔ 2 ^ 63 ≤ a := by
    rw [Nat.shiftRight_eq_div_pow, Nat.div_ne_zero_iff]
    simp
  by_cases hge : 2 ^ 63 ≤ a
  · have hread := toInt_ofNat_of_ge hge ha
    have hmul : n.toInt * (a - 2 ^ 64) = n.toInt * a + -n.toInt * 2 ^ 64 := by ring
    have hdiv : n.toInt * (a - 2 ^ 64) / 2 ^ 64 = n.toInt * a / 2 ^ 64 - n.toInt := by
      rw [hmul, Int.add_mul_ediv_right _ _ (by norm_num)]
      omega
    have hge' : (2 : ℤ) ^ 63 ≤ a := by exact_mod_cast hge
    have ha' : (a : ℤ) < 2 ^ 64 := by exact_mod_cast ha
    obtain ⟨h1, h2⟩ := hn
    have hlow : IsInt64 (n.toInt * (a - 2 ^ 64) / 2 ^ 64) := by
      constructor
      · refine (Int.le_ediv_iff_mul_le (by norm_num)).mpr ?_
        nlinarith
      · refine (Int.ediv_lt_iff_lt_mul (by norm_num)).mpr ?_
        nlinarith
    have hmulh := givesInt_mulh (x := n) (y := BitVec.ofNat 64 a) (by rwa [hread])
    rw [hread, hdiv] at hmulh
    refine hmulh.bind fun hi hhi => ?_
    rw [if_pos (htop.mpr hge)]
    exact (givesInt_add (by rwa [hhi, sub_add_cancel])).congr (by rw [hhi, sub_add_cancel])
  · have hread := toInt_ofNat_of_lt (not_le.mp hge)
    have hmulh := givesInt_mulh (x := n) (y := BitVec.ofNat 64 a) (by rwa [hread])
    rw [hread] at hmulh
    refine hmulh.bind fun hi hhi => ?_
    rw [if_neg (mt htop.mp hge)]
    exact ⟨hi, rfl, hhi⟩

/-- The floored quotient is the product's high part. -/
lemma givesInt_sdivFloor {m : SignedMagic} (hw : w = 32 ∨ w = 64) (h1 : -2 ^ (w - 1) ≤ n.toInt)
    (h2 : n.toInt < 2 ^ (w - 1)) (hm : m.m < 2 ^ w) (hshift : m.shift < w) :
    GivesInt (sdivFloor evaluator n m w) (n.toInt * m.m / 2 ^ (w + m.shift)) := by
  unfold sdivFloor
  rcases hw with rfl | rfl
  · norm_num at h1 h2 hm
    have hm' : (m.m : ℤ) < 2 ^ 32 := by exact_mod_cast hm
    have hread : (BitVec.ofNat 64 m.m).toInt = m.m := toInt_ofNat_of_lt (by omega)
    have hprod : IsInt64 (n.toInt * m.m) := by
      constructor
      · nlinarith
      · nlinarith
    have hmul : GivesInt (evaluator.binopImm .mul n (BitVec.ofNat 64 m.m)) (n.toInt * m.m) :=
      ⟨_, rfl, by rw [BitVec.toInt_mul, hread, hprod.bmod]⟩
    rw [if_neg (by norm_num)]
    refine hmul.bind fun prod hp => ?_
    exact (givesInt_shr prod (by omega)).congr (by rw [hp])
  · rw [if_pos rfl]
    have h := (givesInt_highPart n hm).bind fun hi hhi =>
      (givesInt_shiftRight hi hshift).congr (t := n.toInt * m.m / 2 ^ (64 + m.shift)) (by
        rw [hhi, Int.ediv_ediv_of_nonneg (by norm_num), ← pow_add])
    rw [bind_assoc] at h
    exact h

lemma tdiv_bounds (hz : IsInt64 z) (ht : 2 ≤ t.natAbs) :
    -2 ^ 62 ≤ z.tdiv t ∧ z.tdiv t ≤ 2 ^ 62 := by
  obtain ⟨h1, h2⟩ := hz
  have habs : (z.tdiv t).natAbs ≤ z.natAbs / 2 := by
    rw [Int.natAbs_tdiv]
    exact Nat.div_le_div_left ht (by norm_num)
  omega

/-- The sign bit corrects the floored quotient to the truncated one. -/
lemma givesInt_sdivMagic (hw : w = 32 ∨ w = 64) (h1 : -2 ^ (w - 1) ≤ n.toInt)
    (h2 : n.toInt < 2 ^ (w - 1)) (ha : 3 ≤ a) (hpow : ∀ k, a ≠ 2 ^ k) (haw : a < 2 ^ (w - 1)) :
    GivesInt (sdivMagic evaluator n a w) (n.toInt.tdiv a) := by
  obtain ⟨hm, hshift, hquot⟩ := magicSigned_spec ha hpow (by omega) haw
  obtain ⟨hb1, hb2⟩ := tdiv_bounds (isInt64_toInt n) (t := a) (by omega)
  have hsign1 : 0 ≤ n.toInt → 0 ≤ n.toInt.tdiv a := fun h => Int.tdiv_nonneg h (by omega)
  have hsign2 : n.toInt < 0 → n.toInt.tdiv a ≤ 0 := fun h => by
    have := Int.tdiv_nonneg (show 0 ≤ -n.toInt by omega) (show (0 : ℤ) ≤ a by omega)
    rw [Int.neg_tdiv] at this
    omega
  unfold sdivMagic
  refine (givesInt_sdivFloor hw h1 h2 hm hshift).bind fun q0 hq0 => ?_
  rw [hquot _ h1 h2] at hq0
  have hbit : GivesInt (evaluator.binopImm .shru q0 63) (if n.toInt < 0 then 1 else 0) := by
    obtain ⟨sign, hs, hsv⟩ := gives_shru (k := 63) q0 (by norm_num)
    refine ⟨sign, hs, ?_⟩
    have hlt := q0.isLt
    have hread := BitVec.toInt_eq_toNat_cond q0
    rw [BitVec.toInt_eq_toNat_cond sign]
    split at hq0
    · split at hread
      · omega
      · have : q0.toNat / 2 ^ 63 = 1 := by omega
        rw [hsv, this]
        simp [*]
    · split at hread
      · have : q0.toNat / 2 ^ 63 = 0 := by omega
        rw [hsv, this]
        simp [*]
      · omega
  refine hbit.bind fun sign hsign => ?_
  refine (givesInt_add ⟨?_, ?_⟩).congr ?_
  all_goals
    rw [hq0, hsign]
    split
    · omega
    · omega

/-! ## Powers of two -/

/-- The bias of a power-of-two division: one below the divisor for a negative numerator. -/
def biasOf (z : ℤ) (k : ℕ) : ℤ := if z < 0 then 2 ^ k - 1 else 0

/-- A bias makes the floored quotient the truncated one. -/
lemma add_biasOf_ediv (z : ℤ) (k : ℕ) : (z + biasOf z k) / 2 ^ k = z.tdiv (2 ^ k) := by
  have hpos : (0 : ℤ) < 2 ^ k := by positivity
  unfold biasOf
  split
  · rename_i hneg
    obtain ⟨b, rfl⟩ : ∃ b, z = -b := ⟨-z, (neg_neg z).symm⟩
    have hb : 0 ≤ b := by omega
    have hdm := Int.emod_add_mul_ediv b (2 ^ k)
    have hmod := Int.emod_nonneg b hpos.ne'
    have hlt := Int.emod_lt_of_pos b hpos
    rw [Int.neg_tdiv, Int.tdiv_eq_ediv_of_nonneg hb, Int.ediv_eq_iff_of_pos hpos, neg_mul,
      mul_comm (b / 2 ^ k)]
    omega
  · rw [add_zero, Int.tdiv_eq_ediv_of_nonneg (by omega)]

lemma add_biasOf_emod (z : ℤ) (k : ℕ) :
    (z + biasOf z k) % 2 ^ k - biasOf z k = z.tmod (2 ^ k) := by
  rw [Int.emod_def, add_biasOf_ediv, Int.tmod_def]
  ring

/-- The top `k` bits of a number that fits in the others are copies of its sign. -/
lemma toNat_div_eq_biasOf (hk : k ≤ 63) (h1 : -2 ^ (64 - k) ≤ x.toInt) (h2 : x.toInt < 2 ^ (64 - k)) :
    ((x.toNat / 2 ^ (64 - k) : ℕ) : ℤ) = biasOf x.toInt k := by
  have hx := x.isLt
  have hread := BitVec.toInt_eq_toNat_cond x
  have hpos : 0 < 2 ^ k := by positivity
  have htop : (2 ^ k - 1) * 2 ^ (64 - k) + 2 ^ (64 - k) = 2 ^ 64 := by
    rw [← Nat.add_one_mul, Nat.sub_add_cancel hpos, ← pow_add]
    congr 1
    omega
  unfold biasOf
  split
  · have hq : x.toNat / 2 ^ (64 - k) = 2 ^ k - 1 := by
      refine Nat.div_eq_of_lt_le ?_ ?_
      · zify [Nat.one_le_two_pow] at htop ⊢
        split at hread
        · omega
        · omega
      · rw [Nat.add_one_mul, htop]
        exact hx
    rw [hq]
    push_cast [Nat.one_le_two_pow]
    rfl
  · have hq : x.toNat / 2 ^ (64 - k) = 0 := by
      refine Nat.div_eq_of_lt ?_
      zify
      split at hread
      · omega
      · omega
    rw [hq]
    rfl

/-- The biased numerator and the bias. -/
lemma sdivPow2Bias_evaluator (hw : w = 32 ∨ w = 64) (h1 : -2 ^ (w - 1) ≤ n.toInt)
    (h2 : n.toInt < 2 ^ (w - 1)) (hk0 : 1 ≤ k) (hkw : k ≤ w - 1) :
    ∃ adj bias : Word, sdivPow2Bias evaluator n k w = some (adj, bias) ∧
      bias.toInt = biasOf n.toInt k ∧ adj.toInt = n.toInt + biasOf n.toInt k := by
  have hpow : (2 : ℤ) ^ k ≤ 2 ^ 63 := pow_le_pow_right₀ (by norm_num) (by omega)
  have hpos : (0 : ℤ) < 2 ^ k := by positivity
  obtain ⟨hn1, hn2⟩ := isInt64_toInt n
  -- The register whose top bits are read: the numerator, or its sign alone.
  obtain ⟨sign, hsign, hs1, hs2, hneg⟩ : ∃ sign : Word,
      (if k ≤ 65 - w then pure n else evaluator.binopImm .shr n 63 : Option Word) = some sign ∧
      -2 ^ (64 - k) ≤ sign.toInt ∧ sign.toInt < 2 ^ (64 - k) ∧
      biasOf sign.toInt k = biasOf n.toInt k := by
    split
    · rename_i hle
      have hge : (2 : ℤ) ^ (w - 1) ≤ 2 ^ (64 - k) := pow_le_pow_right₀ (by norm_num) (by omega)
      exact ⟨n, rfl, by omega, by omega, rfl⟩
    · obtain ⟨sign, hs, hsv⟩ := givesInt_shr (k := 63) n (by norm_num)
      have hlow : (0 : ℤ) < 2 ^ (64 - k) := by positivity
      refine ⟨sign, hs, by omega, by omega, ?_⟩
      unfold biasOf
      by_cases h0 : n.toInt < 0
      · rw [if_pos h0, if_pos (by omega)]
      · rw [if_neg h0, if_neg (by omega)]
  obtain ⟨bias, hb, hbv⟩ := gives_shru (k := 64 - k) sign (by omega)
  have hbias : (bias.toNat : ℤ) = biasOf n.toInt k := by
    rw [hbv, toNat_div_eq_biasOf (by omega) hs1 hs2, hneg]
  have hrange : 0 ≤ biasOf n.toInt k ∧ biasOf n.toInt k < 2 ^ k ∧
      (0 ≤ n.toInt → biasOf n.toInt k = 0) := by
    unfold biasOf
    split
    · omega
    · exact ⟨le_rfl, hpos, fun _ => rfl⟩
  have hbint : bias.toInt = biasOf n.toInt k := by
    rw [BitVec.toInt_eq_toNat_cond, if_pos (by omega), hbias]
  obtain ⟨adj, ha, hav⟩ := givesInt_add (x := n) (y := bias) (by
    rw [hbint]
    constructor
    · omega
    · omega)
  refine ⟨adj, bias, ?_, hbint, by rw [hav, hbint]⟩
  unfold sdivPow2Bias
  simp only [hsign, hb, ha, Option.bind_eq_bind, Option.bind_some]
  rfl

/-! ## The lowering -/

lemma toInt_negate (x : Word) :
    ∃ r : Word, negate evaluator x = some r ∧ r.toInt = (-x.toInt).bmod (2 ^ 64) := by
  refine ⟨0 - x, rfl, ?_⟩
  rw [BitVec.toInt_sub]
  exact congrArg (fun z : ℤ => z.bmod (2 ^ 64)) (by simp)

/-- A negated quotient is the negated divisor's. -/
lemma signed_evaluator (hq : q.toInt = n.toInt.tdiv d.toInt.natAbs)
    (hwrap : 2 ≤ d.toInt.natAbs) :
    (if d.toInt < 0 then negate evaluator q else pure q : Option Word) = some (n.sdiv d) := by
  obtain ⟨h1, h2⟩ := tdiv_bounds (isInt64_toInt n) (t := d.toInt.natAbs) hwrap
  rcases Int.natAbs_eq d.toInt with hpos | hneg
  · rw [if_neg (by omega)]
    refine congrArg some (BitVec.eq_of_toInt_eq ?_)
    rw [BitVec.toInt_sdiv, hpos, hq, IsInt64.bmod ⟨by omega, by omega⟩]
  · have hquot : n.toInt.tdiv d.toInt = -(n.toInt.tdiv d.toInt.natAbs) := by
      rw [← Int.tdiv_neg, ← hneg]
    obtain ⟨r, hr, hrv⟩ := toInt_negate q
    rw [if_pos (by omega), hr]
    refine congrArg some (BitVec.eq_of_toInt_eq ?_)
    rw [hrv, BitVec.toInt_sdiv, hquot, hq]

lemma remainderOf_evaluator (hquot : IsInt64 (n.toInt.tdiv d.toInt)) :
    remainderOf evaluator n (n.sdiv d) d = some (n.srem d) := by
  have hrem : n.toInt - n.toInt.tdiv d.toInt * d.toInt = (n.srem d).toInt := by
    rw [BitVec.toInt_srem, Int.tmod_def, mul_comm]
  refine congrArg some (BitVec.eq_of_toInt_eq ?_)
  rw [BitVec.toInt_sub, BitVec.toInt_mul, BitVec.toInt_sdiv, hquot.bmod, Int.sub_bmod_bmod, hrem,
    (isInt64_toInt _).bmod]

lemma srem_eq_zero (hd : d.toInt.natAbs = 1) : n.srem d = 0 := by
  refine BitVec.eq_of_toInt_eq ?_
  rw [BitVec.toInt_srem]
  rcases Int.natAbs_eq d.toInt with h | h
  · rw [h, hd]
    simp
  · rw [h, hd]
    simp

/-- By one or minus one, the quotient is the numerator or its negation, wrapping at the lowest. -/
lemma signed_evaluator_one (hd : d.toInt.natAbs = 1) :
    (if d.toInt < 0 then negate evaluator n else pure n : Option Word) = some (n.sdiv d) := by
  rcases Int.natAbs_eq d.toInt with h | h
  · rw [hd] at h
    rw [if_neg (by omega)]
    refine congrArg some (BitVec.eq_of_toInt_eq ?_)
    rw [BitVec.toInt_sdiv, h, Nat.cast_one, Int.tdiv_one, (isInt64_toInt n).bmod]
  · rw [hd] at h
    obtain ⟨r, hr, hrv⟩ := toInt_negate n
    rw [if_pos (by omega), hr]
    refine congrArg some (BitVec.eq_of_toInt_eq ?_)
    rw [hrv, BitVec.toInt_sdiv, h, Nat.cast_one, Int.tdiv_neg, Int.tdiv_one]

/-- The remainder of a power of two: the biased low bits, the bias taken out. -/
lemma masked_evaluator {adj bias : Word} (hk : k ≤ 63) (hd : d.toInt.natAbs = 2 ^ k)
    (hbias : bias.toInt = biasOf n.toInt k) (hadj : adj.toInt = n.toInt + biasOf n.toInt k) :
    (adj &&& BitVec.ofNat 64 (2 ^ k - 1)) - bias = n.srem d := by
  have hpow : 2 ^ k ≤ 2 ^ 63 := Nat.pow_le_pow_right two_pos hk
  have hpos : 0 < 2 ^ k := by positivity
  have hmask : (adj &&& BitVec.ofNat 64 (2 ^ k - 1)).toNat = adj.toNat % 2 ^ k := by
    rw [BitVec.toNat_and, BitVec.toNat_ofNat, Nat.mod_eq_of_lt (by omega),
      Nat.and_two_pow_sub_one_eq_mod]
  have hlt := Nat.mod_lt adj.toNat hpos
  have hread : (adj &&& BitVec.ofNat 64 (2 ^ k - 1)).toInt = adj.toInt % 2 ^ k := by
    have hmod : adj.toInt % 2 ^ k = (adj.toNat : ℤ) % 2 ^ k := by
      have hdvd : (2 : ℤ) ^ k ∣ ((2 ^ 64 : ℕ) : ℤ) := by
        rw [Nat.cast_pow]
        exact pow_dvd_pow 2 (hk.trans (by norm_num))
      rw [BitVec.toInt_eq_toNat_bmod, ← Int.emod_emod_of_dvd _ hdvd, Int.bmod_emod,
        Int.emod_emod_of_dvd _ hdvd]
    rw [BitVec.toInt_eq_toNat_cond, hmask, if_pos (by omega), hmod]
    push_cast
    rfl
  have habs : n.toInt.tmod d.toInt = n.toInt.tmod (2 ^ k) := by
    rcases Int.natAbs_eq d.toInt with h | h
    · rw [h, hd]
      push_cast
      rfl
    · rw [h, hd, Int.tmod_neg]
      push_cast
      rfl
  refine BitVec.eq_of_toInt_eq ?_
  rw [BitVec.toInt_sub, hread, hbias, hadj, add_biasOf_emod, ← habs, ← BitVec.toInt_srem,
    (isInt64_toInt _).bmod]

lemma bounds_of_sext32 (h : sext32 x = x) : -2 ^ 31 ≤ x.toInt ∧ x.toInt < 2 ^ 31 := by
  have h1 := BitVec.le_toInt (x.setWidth 32)
  have h2 := BitVec.toInt_lt (x := x.setWidth 32)
  rw [← h, sext32, BitVec.toInt_signExtend_of_le (by norm_num)]
  omega

/-- A word of the operand width, sign-extended. -/
def IsOperand (w : ℕ) (x : Word) : Prop := w = 32 → sext32 x = x

lemma IsOperand.bounds (hw : w = 32 ∨ w = 64) (h : IsOperand w x) :
    -2 ^ (w - 1) ≤ x.toInt ∧ x.toInt < 2 ^ (w - 1) := by
  rcases hw with rfl | rfl
  · exact bounds_of_sext32 (h rfl)
  · exact isInt64_toInt x

/-- **The evaluated lowering** of a nonzero divisor has the value of the division. -/
theorem lowerSdivmod_evaluator (hw : w = 32 ∨ w = 64) (hd : IsOperand w d) (hd0 : d ≠ 0)
    (hn : IsOperand w n) (wantRem : Bool) :
    lowerSdivmod evaluator wantRem n d w = some (some (if wantRem then n.srem d else n.sdiv d)) := by
  obtain ⟨hn1, hn2⟩ := hn.bounds hw
  obtain ⟨hd1, hd2⟩ := hd.bounds hw
  have hdne : d.toInt ≠ 0 := fun h => hd0 (BitVec.eq_of_toInt_eq (by simpa using h))
  have hpoww : (((2 ^ (w - 1) : ℕ) : ℤ)) = 2 ^ (w - 1) := by push_cast; rfl
  have had : d.toInt.natAbs ≤ 2 ^ (w - 1) := by omega
  have hww : 2 ^ (w - 1) ≤ 2 ^ 63 := Nat.pow_le_pow_right two_pos (by omega)
  unfold lowerSdivmod
  rw [if_neg hd0]
  dsimp only
  split
  · rename_i hone
    cases wantRem with
    | true =>
      rw [if_pos rfl, if_pos rfl, srem_eq_zero hone]
      rfl
    | false =>
      rw [if_neg Bool.false_ne_true, if_neg Bool.false_ne_true, signed_evaluator_one hone]
      rfl
  · rename_i hone
    have htwo : 2 ≤ d.toInt.natAbs := by omega
    have hbounds := tdiv_bounds (isInt64_toInt n) htwo
    have hquot : IsInt64 (n.toInt.tdiv d.toInt) := ⟨by omega, by omega⟩
    cases hlog : pow2Log d.toInt.natAbs with
    | some k =>
      obtain ⟨hk, hk64⟩ := pow2Log_eq_some (by omega) hlog
      have hk0 : 1 ≤ k := by
        rcases Nat.eq_zero_or_pos k with rfl | h
        · omega
        · exact h
      have hkw : k ≤ w - 1 := by
        rw [hk] at had
        exact (Nat.pow_le_pow_iff_right (by norm_num)).mp had
      obtain ⟨adj, bias, hadjbias, hbias, hadj⟩ := sdivPow2Bias_evaluator hw hn1 hn2 hk0 hkw
      simp only [hadjbias, Option.bind_eq_bind, Option.bind_some]
      cases wantRem with
      | true =>
        have hmasked := masked_evaluator (by omega) hk hbias hadj
        rw [hk]
        exact congrArg (fun r => some (some r)) hmasked
      | false =>
        obtain ⟨q, hq, hqv⟩ := givesInt_shr adj hk64
        rw [hadj, add_biasOf_ediv] at hqv
        have hsigned := signed_evaluator (n := n) (d := d) (q := q) (by
          rw [hqv, hk]
          push_cast
          rfl) htwo
        simp only [hq, Option.bind_some, hsigned]
        rfl
    | none =>
      have hpow := ne_two_pow_of_pow2Log hlog
      have hne1 := hpow 1
      have hnew := hpow (w - 1)
      obtain ⟨q, hq, hqv⟩ := givesInt_sdivMagic hw hn1 hn2 (by omega) hpow (by omega)
      have hsigned := signed_evaluator (n := n) (d := d) hqv htwo
      simp only [hq, Option.bind_eq_bind, Option.bind_some, hsigned]
      cases wantRem with
      | true =>
        rw [remainderOf_evaluator hquot]
        rfl
      | false => rfl

/-- **Signed constant division.**  For every nonzero divisor of the operand width the lowering asks
for a sequence that, run with the interpreter's operators, has at every numerator of that width the
value of the division or remainder it replaces. -/
theorem lowerDivmod_correct {op : BinOp} (hop : op = .div ∨ op = .mod) (hw : w = 32 ∨ w = 64)
    (hd : IsOperand w d) (hd0 : d ≠ 0) :
    ∃ r, Recorded.of (fun i => lowerDivmod recorder op i d w) = some r ∧
      ∀ n : Word, IsOperand w n → (applyBinop op n d).isSome ∧ r.eval n = applyBinop op n d := by
  have hrun : ∀ n : Word, IsOperand w n → ∃ r,
      Recorded.of (fun i => lowerDivmod recorder op i d w) = some r ∧
      (applyBinop op n d).isSome ∧ r.eval n = applyBinop op n d := by
    intro n hn
    have hvalue : ∃ x, lowerDivmod evaluator op n d w = some (some x) ∧
        applyBinop op n d = some x := by
      rcases hop with rfl | rfl
      · refine ⟨n.sdiv d, lowerSdivmod_evaluator hw hd hd0 hn false, ?_⟩
        simp only [applyBinop, if_neg hd0]
      · refine ⟨n.srem d, lowerSdivmod_evaluator hw hd hd0 hn true, ?_⟩
        simp only [applyBinop, if_neg hd0]
    obtain ⟨x, hx, happly⟩ := hvalue
    have hstart : Slot [n] 0 n := rfl
    have hagree := @agrees_lowerDivmod n n [n] 0 op hstart d w
    obtain ⟨r, hr, heval⟩ := eval_of_agrees (c := fun i => lowerDivmod recorder op i d w) hagree hx
    exact ⟨r, hr, by rw [happly]; rfl, heval.trans happly.symm⟩
  obtain ⟨r, hr, -⟩ := hrun 0 fun _ => by decide
  refine ⟨r, hr, fun n hn => ?_⟩
  obtain ⟨r', hr', heval⟩ := hrun n hn
  rw [hr] at hr'
  obtain rfl := Option.some.inj hr'
  exact heval

/-- The lowest number divided by minus seven, through the add-back and the negation. -/
theorem lowerDivmod_correct_lowest :
    ∃ r, Recorded.of (fun i => lowerDivmod recorder .div i (-7) 64) = some r ∧
      r.eval wordMin = some 1317624576693539401 := by
  obtain ⟨r, hr, heval⟩ := @lowerDivmod_correct (-7) 64 .div (Or.inl rfl) (Or.inr rfl)
    nofun (by decide)
  exact ⟨r, hr, (heval wordMin nofun).2.trans (by decide)⟩

end Badc.Magic
