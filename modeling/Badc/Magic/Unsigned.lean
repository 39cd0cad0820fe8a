import Badc.Magic.Lower

/-!
# Unsigned constant division

`lower_udivmod` of `src/c5/codegen/magic.rs` asks for a sequence whose value is the quotient or the
remainder, at every divisor of the operand width and every numerator of its known bits
(`lowerUdivmod_correct`).  Each lowering shape (identity, below the divisor, power of two, compare,
plain, pre-shifted, add-back) has its lemma, on the number the register holds.
-/

namespace Badc.Magic

variable {n q x y : Word} {d du k w bits mag extra : ℕ}

/-- The evaluated computation has the value `k`, as an unsigned number. -/
def Gives (c : Option Word) (k : ℕ) : Prop := ∃ q, c = some q ∧ q.toNat = k

lemma Gives.congr {c : Option Word} {k' : ℕ} (h : Gives c k) (hk : k = k') : Gives c k' := hk ▸ h

lemma Gives.bind {c : Option Word} {f : Word → Option Word} {k' : ℕ} (h : Gives c k)
    (hf : ∀ q : Word, q.toNat = k → Gives (f q) k') : Gives (c >>= f) k' := by
  obtain ⟨q, hc, hq⟩ := h
  obtain ⟨r, hr, hrk⟩ := hf q hq
  exact ⟨r, by rw [hc]; exact hr, hrk⟩

lemma gives_imm (hk : k < 2 ^ 64) : Gives (evaluator.imm (BitVec.ofNat 64 k)) k :=
  ⟨_, rfl, by rw [BitVec.toNat_ofNat, Nat.mod_eq_of_lt hk]⟩

lemma gives_shru (x : Word) (hk : k < 64) :
    Gives (evaluator.binopImm .shru x (BitVec.ofNat 64 k)) (x.toNat / 2 ^ k) := by
  have hcount : (BitVec.ofNat 64 k).toNat % 64 = k := by
    rw [BitVec.toNat_ofNat, Nat.mod_eq_of_lt (hk.trans (by norm_num)), Nat.mod_eq_of_lt hk]
  refine ⟨x >>> k, ?_, by rw [BitVec.toNat_ushiftRight, Nat.shiftRight_eq_div_pow]⟩
  simp only [evaluator, applyBinop, hcount]

lemma gives_shiftRight (x : Word) (hk : k < 64) :
    Gives (shiftRight evaluator .shru x k) (x.toNat / 2 ^ k) := by
  unfold shiftRight
  split
  · rename_i h0
    exact ⟨x, rfl, by rw [h0, pow_zero, Nat.div_one]⟩
  · exact gives_shru x hk

lemma gives_mul (hk : k < 2 ^ 64) (h : x.toNat * k < 2 ^ 64) :
    Gives (evaluator.binopImm .mul x (BitVec.ofNat 64 k)) (x.toNat * k) :=
  ⟨_, rfl, by rw [BitVec.toNat_mul, BitVec.toNat_ofNat, Nat.mod_eq_of_lt hk, Nat.mod_eq_of_lt h]⟩

lemma gives_sub (h : y.toNat ≤ x.toNat) :
    Gives (evaluator.binop .sub x y) (x.toNat - y.toNat) := by
  refine ⟨x - y, rfl, ?_⟩
  have hx := x.isLt
  rw [BitVec.toNat_sub]
  omega

lemma gives_add (h : x.toNat + y.toNat < 2 ^ 64) :
    Gives (evaluator.binop .add x y) (x.toNat + y.toNat) :=
  ⟨x + y, rfl, by rw [BitVec.toNat_add, Nat.mod_eq_of_lt h]⟩

lemma mul_div_le (a : ℕ) {b c : ℕ} (h : b < c) : a * b / c ≤ a := by
  refine Nat.div_le_of_le_mul ?_
  rw [Nat.mul_comm]
  exact Nat.mul_le_mul_right a h.le

/-- `mulhu` gives the product's high part. -/
lemma gives_mulhu (hw : w = 32 ∨ w = 64) (hn : n.toNat < 2 ^ w) (hmag : mag < 2 ^ w)
    (hextra : extra < w) :
    Gives (mulhu evaluator n mag w extra) (n.toNat * mag / 2 ^ (w + extra)) := by
  unfold mulhu
  rcases hw with rfl | rfl
  · have hprod : n.toNat * mag < 2 ^ 64 := by
      calc n.toNat * mag < 2 ^ 32 * 2 ^ 32 := Nat.mul_lt_mul'' hn hmag
        _ = 2 ^ 64 := by norm_num
    rw [if_neg (by norm_num)]
    refine (gives_mul (hmag.trans (by norm_num)) hprod).bind fun prod hp => ?_
    exact (gives_shru prod (by omega)).congr (by rw [hp])
  · rw [if_pos rfl]
    refine (gives_imm hmag).bind fun mv hmv => ?_
    have hhi : Gives (evaluator.binop .mulhu n mv) (n.toNat * mag / 2 ^ 64) := by
      refine ⟨_, rfl, ?_⟩
      have hle := mul_div_le n.toNat (show mag < 2 ^ 64 from hmag)
      rw [BitVec.toNat_ofNat, hmv, Nat.mod_eq_of_lt (by omega)]
    refine hhi.bind fun hi hhi => ?_
    exact (gives_shiftRight hi hextra).congr (by rw [hhi, Nat.div_div_eq_div_mul, ← pow_add])

/-- The add-back form gives the high part under the true multiplier. -/
lemma gives_addBack {m : UnsignedMagic} (hw : w = 32 ∨ w = 64) (hn : n.toNat < 2 ^ w)
    (hm : m.m < 2 ^ w) (hshift : m.shift + 1 < w) :
    Gives (addBack evaluator n m w) (n.toNat * (m.m + 2 ^ w) / 2 ^ (w + (m.shift + 1))) := by
  have hww : 2 ^ w ≤ 2 ^ 64 := Nat.pow_le_pow_right two_pos (by omega)
  have ht := mul_div_le n.toNat hm
  -- The true high part is what the short multiplier misses by the numerator.
  have htrue : n.toNat * (m.m + 2 ^ w) / 2 ^ w = n.toNat * m.m / 2 ^ w + n.toNat := by
    rw [Nat.mul_add, Nat.add_mul_div_right _ _ (by positivity)]
  unfold addBack
  refine (gives_mulhu hw hn hm (by omega)).bind fun t htv => ?_
  rw [Nat.add_zero] at htv
  refine (gives_sub (by omega)).bind fun diff hdiff => ?_
  refine (gives_shru (k := 1) diff (by norm_num)).bind fun half hhalf => ?_
  rw [pow_one] at hhalf
  refine (gives_add (by omega)).bind fun sum hsum => ?_
  have hhalfT : sum.toNat = n.toNat * (m.m + 2 ^ w) / 2 ^ w / 2 := by
    rw [htrue]
    omega
  refine (gives_shiftRight sum (by omega)).congr ?_
  rw [hhalfT, Nat.div_div_eq_div_mul, Nat.div_div_eq_div_mul, ← pow_succ', ← pow_add]

/-! ## Trailing zeros -/

/-- The number of trailing zeros names the lowest set bit. -/
lemma trailingZeros_spec (hd : 0 < d) (hd64 : d < 2 ^ 64) :
    trailingZeros d 64 < 64 ∧ d = d >>> trailingZeros d 64 * 2 ^ trailingZeros d 64 ∧
      (d >>> trailingZeros d 64) % 2 = 1 := by
  unfold trailingZeros
  cases hf : (List.range 64).find? fun i => d.testBit i with
  | none =>
    exfalso
    obtain ⟨i, hi⟩ := Nat.exists_testBit_of_ne_zero hd.ne'
    have hlt : i < 64 := by
      by_contra hge
      have := Nat.testBit_lt_two_pow (hd64.trans_le (Nat.pow_le_pow_right two_pos
        (Nat.not_lt.mp hge)))
      rw [hi] at this
      cases this
    have := List.find?_eq_none.mp hf i (List.mem_range.mpr hlt)
    exact this hi
  | some i =>
    obtain ⟨hbit, hmem, hbelow⟩ := List.find?_range_eq_some.mp hf
    have hlow : d % 2 ^ i = 0 := by
      refine Nat.eq_of_testBit_eq fun j => ?_
      rw [Nat.testBit_mod_two_pow, Nat.zero_testBit]
      by_cases hj : j < i
      · have := hbelow j hj
        simpa [hj] using this
      · simp [hj]
    rw [Nat.testBit_eq_decide_div_mod_eq, decide_eq_true_eq] at hbit
    refine ⟨List.mem_range.mp hmem, ?_, ?_⟩
    · rw [Option.getD_some, Nat.shiftRight_eq_div_pow]
      exact (Nat.div_mul_cancel (Nat.dvd_of_mod_eq_zero hlow)).symm
    · rwa [Option.getD_some, Nat.shiftRight_eq_div_pow]

/-- The logarithm read off a power of two. -/
lemma pow2Log_eq_some (hd64 : d < 2 ^ 64) (h : pow2Log d = some k) : d = 2 ^ k ∧ k < 64 := by
  unfold pow2Log at h
  split at h
  · rename_i hpow
    obtain rfl := Option.some.inj h
    have hd : 0 < d := by
      rw [← hpow]
      positivity
    obtain ⟨htz, hdm, hodd⟩ := trailingZeros_spec hd hd64
    refine ⟨?_, htz⟩
    -- The odd part of a power of two is one.
    have hdvd : d >>> trailingZeros d 64 ∣ 2 ^ Nat.log 2 d :=
      ⟨2 ^ trailingZeros d 64, by rw [hpow]; exact hdm⟩
    obtain ⟨l, -, hl⟩ := (Nat.dvd_prime_pow Nat.prime_two).mp hdvd
    have hone : d >>> trailingZeros d 64 = 1 := by
      rcases Nat.eq_zero_or_pos l with rfl | hl0
      · exact hl
      · rw [hl] at hodd
        have := Nat.pow_mod 2 l 2
        rw [hodd, Nat.mod_self, zero_pow hl0.ne', Nat.zero_mod] at this
        cases this
    rwa [hone, Nat.one_mul] at hdm
  · cases h

lemma ne_two_pow_of_pow2Log (h : pow2Log d = none) (k : ℕ) : d ≠ 2 ^ k := by
  rintro rfl
  unfold pow2Log at h
  rw [Nat.log_pow (by norm_num), if_pos rfl] at h
  cases h

/-! ## The lowering shapes -/

/-- A quotient by a multiplier. -/
lemma gives_udivMagic (hw : w = 32 ∨ w = 64) (hbits : bits ≤ w) (hn : n.toNat < 2 ^ bits)
    (hd : 3 ≤ d) (hpow : ∀ k, d ≠ 2 ^ k) (hdw : d < 2 ^ (w - 1)) (hdb : d < 2 ^ bits) :
    Gives (udivMagic evaluator n d w bits) (n.toNat / d) := by
  have hnw : n.toNat < 2 ^ w := hn.trans_le (Nat.pow_le_pow_right two_pos hbits)
  -- A multiplier of the operand width gives the quotient.
  have hplain : ∀ {x : Word} {d bits : ℕ}, 3 ≤ d → (∀ k, d ≠ 2 ^ k) → d < 2 ^ (w - 1) →
      bits ≤ w → d < 2 ^ bits → x.toNat < 2 ^ bits → (magicUnsigned d w bits).add = false →
      Gives (mulhu evaluator x (magicUnsigned d w bits).m w (magicUnsigned d w bits).shift)
        (x.toNat / d) := by
    intro x d bits hd hpow hdw hbits hdb hx hadd
    obtain ⟨hm, hquot, -⟩ := magicUnsigned_spec hd hpow hdw hbits hdb
    obtain ⟨hshift, hquot⟩ := hquot hadd
    have hxw : x.toNat < 2 ^ w := hx.trans_le (Nat.pow_le_pow_right two_pos hbits)
    exact (gives_mulhu hw hxw hm hshift).congr (hquot _ hx)
  unfold udivMagic
  dsimp only
  split
  · -- Narrow numerators never need the add-back.
    refine hplain hd hpow hdw hbits hdb hn ?_
    cases hadd : (magicUnsigned d w bits).add with
    | false => rfl
    | true =>
      have := ((magicUnsigned_spec hd hpow hdw hbits hdb).2.2 hadd).1
      omega
  · obtain rfl : bits = w := by omega
    have hd64 : d < 2 ^ 64 := hdb.trans_le (Nat.pow_le_pow_right two_pos (by omega))
    obtain ⟨htz, hdm, hodd⟩ := trailingZeros_spec (by omega) hd64
    generalize trailingZeros d 64 = tz at htz hdm hodd
    generalize d >>> tz = d' at hdm hodd
    split
    · rename_i hpre
      have htzw : tz < bits := by
        by_contra hge
        have hle : 2 ^ bits ≤ 2 ^ tz := Nat.pow_le_pow_right two_pos (by omega)
        have hmul : 1 * 2 ^ tz ≤ d' * 2 ^ tz := Nat.mul_le_mul_right _ (by omega)
        omega
      have hsplit : 2 ^ bits = 2 ^ (bits - tz) * 2 ^ tz := by rw [← pow_add]; congr 1; omega
      have hd'1 : d' ≠ 1 := by
        rintro rfl
        exact hpow tz (by rw [hdm, Nat.one_mul])
      have hd'pow : ∀ k, d' ≠ 2 ^ k := by
        rintro k rfl
        exact hpow (k + tz) (by rw [hdm, pow_add])
      have hd'd : d' ≤ d := by
        rw [hdm]
        exact Nat.le_mul_of_pos_right _ (by positivity)
      have hd'b : d' < 2 ^ (bits - tz) := by
        refine Nat.lt_of_mul_lt_mul_right (a := 2 ^ tz) ?_
        rw [← hsplit, ← hdm]
        exact hdb
      refine (gives_shru n htz).bind fun pre hprev => ?_
      have hpren : pre.toNat < 2 ^ (bits - tz) := by
        rw [hprev, Nat.div_lt_iff_lt_mul (by positivity), ← hsplit]
        exact hn
      refine (hplain (by omega) hd'pow (by omega) (by omega) hd'b hpren hpre.2).congr ?_
      rw [hprev, Nat.div_div_eq_div_mul, Nat.mul_comm, ← hdm]
    · split
      · rename_i hadd
        exact hplain hd hpow hdw hbits hdb hn hadd
      · rename_i hadd
        obtain ⟨hm, -, hquot⟩ := magicUnsigned_spec hd hpow hdw hbits hdb
        obtain ⟨-, hshift, hquot⟩ := hquot (by simpa using hadd)
        exact (gives_addBack hw hn hm hshift).congr (hquot _ hn)

/-- The quotient of a divisor that is no power of two. -/
lemma gives_udivQuotient (hw : w = 32 ∨ w = 64) (hbits : bits ≤ w) (hn : n.toNat < 2 ^ bits)
    (hd : 3 ≤ d) (hpow : ∀ k, d ≠ 2 ^ k) (hdw : d < 2 ^ w) (hdb : d < 2 ^ bits) :
    Gives (udivQuotient evaluator n d w bits) (n.toNat / d) := by
  have hww : 2 ^ w ≤ 2 ^ 64 := Nat.pow_le_pow_right two_pos (by omega)
  have hnw : n.toNat < 2 ^ w := hn.trans_le (Nat.pow_le_pow_right two_pos hbits)
  unfold udivQuotient
  split
  · rename_i hlarge
    have htwo : 2 ^ w = 2 * 2 ^ (w - 1) := by rw [← pow_succ']; congr 1; omega
    refine ⟨_, rfl, ?_⟩
    rw [BitVec.toNat_ofNat, Nat.mod_eq_of_lt (by omega : d < 2 ^ 64)]
    by_cases hle : d ≤ n.toNat
    · rw [Nat.div_eq_of_lt_le (k := 1) (by omega) (by omega)]
      simp [boolWord, hle]
    · rw [Nat.div_eq_of_lt (by omega)]
      simp [boolWord, hle]
  · rename_i hsmall
    have hne := hpow (w - 1)
    exact gives_udivMagic hw hbits hn hd hpow (by omega) hdb

lemma gives_remainderOf (hd64 : d < 2 ^ 64) (hq : q.toNat = n.toNat / d) :
    Gives (remainderOf evaluator n q (BitVec.ofNat 64 d)) (n.toNat % d) := by
  have hdm := Nat.div_add_mod n.toNat d
  have hn := n.isLt
  have hprod : q.toNat * d = d * (n.toNat / d) := by rw [hq, Nat.mul_comm]
  unfold remainderOf
  refine (gives_mul hd64 (by omega)).bind fun qd hqd => ?_
  exact (gives_sub (by omega)).congr (by omega)

lemma Gives.result {c : Option Word} (h : Gives c k) :
    ∃ r : Word, (some <$> c : Option (Option Word)) = some (some r) ∧ r.toNat = k := by
  obtain ⟨q, hc, hq⟩ := h
  exact ⟨q, by rw [hc]; rfl, hq⟩

/-- **The evaluated lowering** of a nonzero divisor gives the quotient or the remainder. -/
theorem lowerUdivmod_evaluator (hw : w = 32 ∨ w = 64) (hbits : bits ≤ w) (hdw : du < 2 ^ w)
    (hd0 : 0 < du) (hn : n.toNat < 2 ^ bits) (wantRem : Bool) :
    ∃ r : Word, lowerUdivmod evaluator wantRem n du w bits = some (some r) ∧
      r.toNat = if wantRem then n.toNat % du else n.toNat / du := by
  have hww : 2 ^ w ≤ 2 ^ 64 := Nat.pow_le_pow_right two_pos (by omega)
  have hn64 := n.isLt
  unfold lowerUdivmod
  rw [if_neg hd0.ne']
  split
  · -- The divisor one.
    rename_i hone
    cases wantRem with
    | true => exact ⟨0, rfl, by simp [hone, Nat.mod_one]⟩
    | false => exact ⟨n, rfl, by simp [hone]⟩
  · split
    · -- Every numerator is below the divisor.
      rename_i hone hbelow
      have hlt : n.toNat < du := by
        by_contra hge
        refine hbelow.2 ?_
        rw [Nat.shiftRight_eq_div_pow]
        exact Nat.div_eq_of_lt (by omega)
      cases wantRem with
      | true => exact ⟨n, rfl, by simp [Nat.mod_eq_of_lt hlt]⟩
      | false => exact ⟨0, rfl, by simp [Nat.div_eq_of_lt hlt]⟩
    · rename_i hone habove
      cases hlog : pow2Log du with
      | some k =>
        obtain ⟨rfl, hk⟩ := pow2Log_eq_some (hdw.trans_le hww) hlog
        cases wantRem with
        | true =>
          refine ⟨_, rfl, ?_⟩
          have hmask : 2 ^ k - 1 < 2 ^ 64 := by omega
          rw [BitVec.toNat_and, BitVec.toNat_ofNat, Nat.mod_eq_of_lt hmask,
            Nat.and_two_pow_sub_one_eq_mod]
          rfl
        | false => exact (gives_shru n hk).result
      | none =>
        have hpow := ne_two_pow_of_pow2Log hlog
        have hne0 := hpow 0
        have hne1 := hpow 1
        have hdb : du < 2 ^ bits := by
          by_cases h64 : bits < 64
          · have hzero : du >>> bits = 0 := by simpa [h64] using habove
            rw [Nat.shiftRight_eq_div_pow] at hzero
            exact Nat.lt_of_div_eq_zero (by positivity) hzero
          · obtain rfl : bits = w := by omega
            exact hdw
        obtain ⟨q, hq, hqv⟩ := gives_udivQuotient hw hbits hn (by omega) hpow hdw hdb
        cases wantRem with
        | true =>
          obtain ⟨r, hr, hrv⟩ := (gives_remainderOf (by omega) hqv).result
          refine ⟨r, ?_, hrv⟩
          simp only [hq, Option.bind_eq_bind, Option.bind_some]
          exact hr
        | false => exact ⟨q, by simp only [hq]; rfl, hqv⟩

/-- **Unsigned constant division.**  The lowering declines exactly the divisor zero.  For every
other divisor of the operand width it asks for a sequence that, run with the interpreter's
operators, gives the quotient or the remainder of every numerator of its known bits. -/
theorem lowerUdivmod_correct (hw : w = 32 ∨ w = 64) (hbits : 1 ≤ bits ∧ bits ≤ w)
    (hdw : du < 2 ^ w) (wantRem : Bool) :
    (Recorded.of (fun i => lowerUdivmod recorder wantRem i du w bits) = none ↔ du = 0) ∧
    (0 < du → ∃ r, Recorded.of (fun i => lowerUdivmod recorder wantRem i du w bits) = some r ∧
      ∀ n : Word, n.toNat < 2 ^ bits →
        r.eval n = some (BitVec.ofNat 64 (if wantRem then n.toNat % du else n.toNat / du))) := by
  have hpos : 0 < du → ∃ r,
      Recorded.of (fun i => lowerUdivmod recorder wantRem i du w bits) = some r ∧
      ∀ n : Word, n.toNat < 2 ^ bits →
        r.eval n = some (BitVec.ofNat 64 (if wantRem then n.toNat % du else n.toNat / du)) := by
    intro hd0
    have hrun : ∀ n : Word, n.toNat < 2 ^ bits → ∃ r,
        Recorded.of (fun i => lowerUdivmod recorder wantRem i du w bits) = some r ∧
        r.eval n = some (BitVec.ofNat 64 (if wantRem then n.toNat % du else n.toNat / du)) := by
      intro n hn
      obtain ⟨x, hx, hxv⟩ := lowerUdivmod_evaluator hw hbits.2 hdw hd0 hn wantRem
      have hstart : Slot [n] 0 n := rfl
      have hagree := @agrees_lowerUdivmod n n [n] 0 wantRem hstart du w bits
      obtain ⟨r, hr, heval⟩ := eval_of_agrees (c := fun i =>
        lowerUdivmod recorder wantRem i du w bits) hagree hx
      refine ⟨r, hr, heval.trans ?_⟩
      rw [← hxv, BitVec.ofNat_toNat, BitVec.setWidth_eq]
    obtain ⟨r, hr, -⟩ := hrun 0 (by simp)
    refine ⟨r, hr, fun n hn => ?_⟩
    obtain ⟨r', hr', heval⟩ := hrun n hn
    rw [hr] at hr'
    obtain rfl := Option.some.inj hr'
    exact heval
  refine ⟨⟨fun hnone => ?_, ?_⟩, hpos⟩
  · by_contra hne
    obtain ⟨r, hr, -⟩ := hpos (Nat.pos_of_ne_zero hne)
    rw [hnone] at hr
    cases hr
  · rintro rfl
    rfl

/-- Ten thousand divided by seven at the full width, through the add-back form. -/
theorem lowerUdivmod_correct_seven :
    ∃ r, Recorded.of (fun i => lowerUdivmod recorder false i 7 64 64) = some r ∧
      r.eval 10000 = some 1428 := by
  obtain ⟨-, h⟩ := @lowerUdivmod_correct 7 64 64 (by norm_num) (by norm_num) (by norm_num) false
  obtain ⟨r, hr, heval⟩ := h (by norm_num)
  exact ⟨r, hr, heval 10000 (by decide)⟩

end Badc.Magic
