import Badc.Linker.Attributes
import Badc.Lib.Fallible

/-!
# Reading build attributes

A section that is read is cut inside its bounds (`parse_ne_panic`), and subsections that are written are
read back (`parse_encode`).  A ULEB128 number is read exactly, unless it has ten bytes and the last one
holds more than the bit that is left (`readUleb_exact_iff`).
-/

namespace Badc.Attributes

variable {ε : Type} {b data rest rest' : List Byte} {v n tag shift k : ℕ} {s vendor : String}

/-! ## Numbers -/

/-- A ULEB128 number of any size, from what was read of it. -/
def exactUlebFrom (v shift : ℕ) : List Byte → Option (ℕ × List Byte)
  | [] => none
  | b :: rest =>
    let v := v + b.toNat % 128 * 2 ^ shift
    if b.toNat < 128 then some (v, rest) else exactUlebFrom v (shift + 7) rest

/-- The ULEB128 number at the front of a buffer, whatever its size. -/
def exactUleb (b : List Byte) : Option (ℕ × List Byte) := exactUlebFrom 0 0 b

/-- Nine bytes that go on and a last one with more than one bit. -/
def Oversized (b : List Byte) : Prop :=
  ∃ pre last rest, b = pre ++ last :: rest ∧ pre.length = 9 ∧ (∀ c ∈ pre, 128 ≤ c.toNat) ∧
    2 ≤ last.toNat ∧ last.toNat < 128

/-- A group that fits behind what was read is added to it. -/
lemma or_group (hv : v < 2 ^ shift) (hfits : shift + 7 ≤ 64) (g : ℕ) :
    v ||| (g % 128) <<< shift % 2 ^ 64 = v + g % 128 * 2 ^ shift ∧ v + g % 128 * 2 ^ shift < 2 ^ (shift + 7) := by
  have hg : g % 128 < 2 ^ 7 := Nat.mod_lt _ (by norm_num)
  have hsum : v + g % 128 * 2 ^ shift < 2 ^ (shift + 7) := by
    calc v + g % 128 * 2 ^ shift < 2 ^ shift + g % 128 * 2 ^ shift := by omega
      _ = (g % 128 + 1) * 2 ^ shift := by ring
      _ ≤ 2 ^ 7 * 2 ^ shift := Nat.mul_le_mul_right _ hg
      _ = 2 ^ (shift + 7) := by rw [← pow_add, Nat.add_comm]
  refine ⟨?_, hsum⟩
  have hle : 2 ^ (shift + 7) ≤ 2 ^ 64 := Nat.pow_le_pow_right two_pos hfits
  rw [Nat.shiftLeft_eq, Nat.mod_eq_of_lt (by omega), Nat.or_comm, Nat.mul_comm,
    ← Nat.two_pow_add_eq_or_of_lt hv, Nat.add_comm]

lemma or_last (hv : v < 2 ^ 63) (g : ℕ) :
    v ||| (g % 128) <<< 63 % 2 ^ 64 = v + g % 2 * 2 ^ 63 := by
  have hbit : (g % 128) <<< 63 % 2 ^ 64 = 2 ^ 63 * (g % 2) := by
    rw [Nat.shiftLeft_eq]
    omega
  rw [hbit, Nat.or_comm, ← Nat.two_pow_add_eq_or_of_lt hv]
  ring

/-- What is read past `k` whole groups is exact, or the rest of the groups are oversized; and of oversized
groups a number is read that is not theirs. -/
lemma readUlebFrom_exact_iff (hk : k ≤ 9) (hv : v < 2 ^ (7 * k)) :
    (∀ n r, readUlebFrom v (7 * k) b = some (n, r) → exactUlebFrom v (7 * k) b = some (n, r)) ↔
      ¬∃ pre last rest, b = pre ++ last :: rest ∧ pre.length + k = 9 ∧ (∀ c ∈ pre, 128 ≤ c.toNat) ∧
        2 ≤ last.toNat ∧ last.toNat < 128 := by
  induction b generalizing v k with
  | nil =>
    refine iff_of_true (fun n r h => nomatch h) ?_
    rintro ⟨pre, last, rest, h, _⟩
    simp at h
  | cons c b ih =>
    rw [readUlebFrom, exactUlebFrom, if_neg (by omega)]
    dsimp only
    by_cases hk9 : k = 9
    · subst hk9
      -- The tenth byte: one bit of it is kept.
      rw [or_last hv]
      by_cases hlast : c.toNat < 128
      · rw [if_pos hlast, if_pos hlast]
        constructor
        · rintro h ⟨pre, last, rest, hb, hpre, _, hge, _⟩
          obtain rfl : pre = [] := List.length_eq_zero_iff.mp (by omega)
          obtain ⟨rfl, rfl⟩ := List.cons.inj hb
          have := (Prod.mk.inj (Option.some.inj (h _ _ rfl))).1
          omega
        · intro h n r hn
          obtain ⟨rfl, rfl⟩ := Prod.mk.inj (Option.some.inj hn)
          have hlt : c.toNat < 2 := by
            by_contra hge
            exact h ⟨[], c, b, rfl, rfl, fun _ h => (nomatch h), by omega, hlast⟩
          rw [Nat.mod_eq_of_lt hlt, Nat.mod_eq_of_lt (by omega)]
      · rw [if_neg hlast, if_neg hlast]
        have hnone : ∀ v, readUlebFrom v (7 * 9 + 7) b = none := by
          intro v
          cases b with
          | nil => rfl
          | cons d b => rw [readUlebFrom, if_pos (by decide)]
        refine iff_of_true (fun n r h => ?_) ?_
        · rw [hnone] at h
          cases h
        · rintro ⟨pre, last, rest, hb, hpre, _, _, hlt⟩
          obtain rfl : pre = [] := List.length_eq_zero_iff.mp (by omega)
          obtain ⟨rfl, rfl⟩ := List.cons.inj hb
          exact hlast hlt
    · obtain ⟨hor, hsum⟩ := or_group (g := c.toNat) hv (by omega)
      rw [hor]
      have hshift : 7 * k + 7 = 7 * (k + 1) := by ring
      by_cases hlast : c.toNat < 128
      · rw [if_pos hlast, if_pos hlast]
        refine iff_of_true (fun n r h => h) ?_
        rintro ⟨pre, last, rest, hb, hpre, hgo, _⟩
        cases pre with
        | nil =>
          rw [List.length_nil] at hpre
          omega
        | cons d pre =>
          obtain ⟨rfl, rfl⟩ := List.cons.inj hb
          have := hgo c (.head _)
          omega
      · rw [if_neg hlast, if_neg hlast, hshift, ih (by omega) (by rwa [← hshift])]
        refine not_congr ⟨?_, ?_⟩
        · rintro ⟨pre, last, rest, rfl, hpre, hgo, hrest⟩
          refine ⟨c :: pre, last, rest, rfl, by rw [List.length_cons]; omega, fun d hd => ?_, hrest⟩
          rcases List.mem_cons.mp hd with rfl | hd
          · omega
          · exact hgo d hd
        · rintro ⟨pre, last, rest, hb, hpre, hgo, hrest⟩
          cases pre with
          | nil =>
            rw [List.length_nil] at hpre
            omega
          | cons d pre =>
            obtain ⟨rfl, rfl⟩ := List.cons.inj hb
            exact ⟨pre, last, rest, rfl, by rw [List.length_cons] at hpre; omega,
              fun e he => hgo e (.tail _ he), hrest⟩

/-- **A number is read exactly where it is not oversized.** -/
theorem readUleb_exact_iff :
    (∀ n r, readUleb b = some (n, r) → exactUleb b = some (n, r)) ↔ ¬Oversized b :=
  readUlebFrom_exact_iff (k := 0) (by norm_num) (by norm_num)

/-- A number that is read is followed by less than the buffer. -/
lemma readUlebFrom_length (h : readUlebFrom v shift b = some (n, rest)) : rest.length < b.length := by
  induction b generalizing v shift with
  | nil => cases h
  | cons c b ih =>
    rw [readUlebFrom] at h
    split at h
    · cases h
    · dsimp only at h
      split at h
      · obtain ⟨_, rfl⟩ := Prod.mk.inj (Option.some.inj h)
        exact Nat.lt_succ_self _
      · exact (ih h).trans (Nat.lt_succ_self _)

/-- A number that is read fits 64 bits. -/
lemma readUlebFrom_lt (hv : v < 2 ^ 64) (h : readUlebFrom v shift b = some (n, rest)) : n < 2 ^ 64 := by
  induction b generalizing v shift with
  | nil => cases h
  | cons c b ih =>
    rw [readUlebFrom] at h
    split at h
    · cases h
    · have hor : v ||| (c.toNat % 128) <<< shift % 2 ^ 64 < 2 ^ 64 :=
        Nat.or_lt_two_pow hv (Nat.mod_lt _ (by norm_num))
      dsimp only at h
      split at h
      · obtain ⟨rfl, _⟩ := Prod.mk.inj (Option.some.inj h)
        exact hor
      · exact ih hor h

/-- A number that is written behind what was read is read back. -/
lemma readUlebFrom_pushUleb {w : ℕ} (hk : k ≤ 9) (hv : v < 2 ^ (7 * k)) (hw : w * 2 ^ (7 * k) < 2 ^ 64) :
    readUlebFrom v (7 * k) (pushUleb w ++ rest) = some (v + w * 2 ^ (7 * k), rest) := by
  induction w using Nat.strong_induction_on generalizing v k with
  | _ w ih =>
    have hgroup : (w % 128 % 128) <<< (7 * k) % 2 ^ 64 = w % 128 * 2 ^ (7 * k) := by
      rw [Nat.mod_mod, Nat.shiftLeft_eq, Nat.mod_eq_of_lt]
      exact (Nat.mul_le_mul_right _ (Nat.mod_le w 128)).trans_lt hw
    have hor : v ||| w % 128 * 2 ^ (7 * k) = v + w % 128 * 2 ^ (7 * k) := by
      rw [Nat.or_comm, Nat.mul_comm, ← Nat.two_pow_add_eq_or_of_lt hv, Nat.add_comm]
    rw [pushUleb]
    split
    · rename_i hsmall
      have hself : w % 128 = w := by omega
      rw [List.cons_append, readUlebFrom, if_neg (by omega)]
      have hbyte : (BitVec.ofNat 8 (w % 128)).toNat = w % 128 := by
        rw [BitVec.toNat_ofNat]
        omega
      dsimp only
      rw [hbyte, if_pos (by omega), hgroup, hor, hself]
      rfl
    · rename_i hmore
      rw [List.cons_append, readUlebFrom, if_neg (by omega)]
      have hbyte : (BitVec.ofNat 8 (w % 128 + 128)).toNat = w % 128 + 128 := by
        rw [BitVec.toNat_ofNat]
        omega
      have hpow : 2 ^ (7 * (k + 1)) = 128 * 2 ^ (7 * k) := by
        rw [Nat.mul_add, pow_add, Nat.mul_comm]
        norm_num
      have hdiv : w / 128 * 2 ^ (7 * (k + 1)) = w / 128 * 128 * 2 ^ (7 * k) := by
        rw [hpow, Nat.mul_assoc]
      have hle : w / 128 * 128 ≤ w := Nat.div_mul_le_self w 128
      have hk' : k + 1 ≤ 9 := by
        by_contra hbig
        have h9 : k = 9 := by omega
        subst h9
        omega
      dsimp only
      rw [hbyte, if_neg (by omega), Nat.add_mod_right, hgroup, hor, show 7 * k + 7 = 7 * (k + 1) from rfl,
        ih (w / 128) (by omega) hk' ?_ ?_, hdiv]
      · congr 2
        have hw' : w = w / 128 * 128 + w % 128 := (Nat.div_add_mod' w 128).symm
        calc v + w % 128 * 2 ^ (7 * k) + w / 128 * 128 * 2 ^ (7 * k)
            = v + (w / 128 * 128 + w % 128) * 2 ^ (7 * k) := by ring
          _ = v + w * 2 ^ (7 * k) := by rw [← hw']
      · rw [hpow]
        have : w % 128 * 2 ^ (7 * k) ≤ 127 * 2 ^ (7 * k) := Nat.mul_le_mul_right _ (by omega)
        omega
      · rw [hdiv]
        exact (Nat.mul_le_mul_right _ hle).trans_lt hw

/-- **A number that is written is read back.** -/
theorem readUleb_pushUleb (hv : v < 2 ^ 64) : readUleb (pushUleb v ++ rest) = some (v, rest) := by
  have h : readUlebFrom 0 (7 * 0) (pushUleb v ++ rest) = some (0 + v * 2 ^ (7 * 0), rest) :=
    readUlebFrom_pushUleb (by norm_num) (by norm_num) (by simpa using hv)
  rw [readUleb]
  simpa using h

/-- A number that is read takes the bytes at least that it is written in. -/
lemma length_pushUleb_le (hv : v < 2 ^ shift) (h : readUlebFrom v shift b = some (n, rest)) :
    n < 2 ^ shift ∨ (pushUleb (n / 2 ^ shift)).length + rest.length ≤ b.length := by
  induction b generalizing v shift with
  | nil => cases h
  | cons c b ih =>
    rw [readUlebFrom] at h
    split at h
    · cases h
    · rename_i hshift
      have hor : v ||| (c.toNat % 128) <<< shift % 2 ^ 64 < 2 ^ (shift + 7) := by
        refine Nat.or_lt_two_pow (hv.trans_le (Nat.pow_le_pow_right two_pos (by omega))) ?_
        refine (Nat.mod_le _ _).trans_lt ?_
        rw [Nat.shiftLeft_eq, pow_add, Nat.mul_comm]
        exact Nat.mul_lt_mul_of_pos_left (Nat.mod_lt _ (by norm_num)) (Nat.two_pow_pos shift)
      have hpow : 2 ^ (shift + 7) = 2 ^ shift * 128 := pow_add 2 shift 7
      dsimp only at h
      split at h
      · obtain ⟨rfl, rfl⟩ := Prod.mk.inj (Option.some.inj h)
        right
        have hsmall : (v ||| (c.toNat % 128) <<< shift % 2 ^ 64) / 2 ^ shift < 128 :=
          Nat.div_lt_of_lt_mul (hpow ▸ hor)
        rw [pushUleb, if_pos (Nat.div_eq_of_lt hsmall)]
        simp
        omega
      · rcases ih hor h with hlt | hle
        · right
          have hsmall : n / 2 ^ shift < 128 := Nat.div_lt_of_lt_mul (hpow ▸ hlt)
          have hless := readUlebFrom_length h
          rw [pushUleb, if_pos (Nat.div_eq_of_lt hsmall)]
          simp only [List.length_cons, List.length_nil]
          omega
        · right
          rw [hpow, ← Nat.div_div_eq_div_mul] at hle
          rw [pushUleb]
          split
          · have hless := readUlebFrom_length h
            simp only [List.length_cons, List.length_nil]
            omega
          · simp only [List.length_cons]
            omega

lemma readUleb_spec (h : readUleb b = some (n, rest)) :
    n < 2 ^ 64 ∧ (pushUleb n).length + rest.length ≤ b.length ∧ rest.length < b.length := by
  have hlt := readUlebFrom_length h
  refine ⟨readUlebFrom_lt (by norm_num) h, ?_, hlt⟩
  rcases length_pushUleb_le (by norm_num) h with hzero | hle
  · obtain rfl : n = 0 := by omega
    rw [pushUleb, if_pos (by norm_num), List.length_singleton]
    omega
  · rwa [pow_zero, Nat.div_one] at hle

/-! ## Texts -/

/-- A string without a NUL byte. -/
def NulFree (s : String) : Prop := 0 ∉ utf8 s

lemma fromUtf8_utf8 (s : String) : fromUtf8 (utf8 s) = some s := by
  have hbytes : ((utf8 s).map UInt8.ofBitVec).toByteArray = s.toByteArray := by
    rw [utf8, List.map_map, show UInt8.ofBitVec ∘ UInt8.toBitVec = id from rfl, List.map_id]
    exact ByteArray.ext (by rw [List.data_toByteArray])
  rw [fromUtf8, hbytes, String.fromUTF8?, dif_pos s.isValidUTF8]
  rfl

lemma utf8_of_fromUtf8 (h : fromUtf8 b = some s) : utf8 s = b := by
  rw [fromUtf8, String.fromUTF8?] at h
  split at h
  · obtain rfl := Option.some.inj h
    show (b.map UInt8.ofBitVec).toByteArray.data.toList.map UInt8.toBitVec = b
    rw [List.toList_data_toByteArray, List.map_map, show UInt8.toBitVec ∘ UInt8.ofBitVec = id from rfl,
      List.map_id]
  · cases h

lemma position_spec {e : ℕ} (h : position b = some e) : e < b.length ∧ 0 ∉ b.take e := by
  obtain ⟨hlt, _, hbefore⟩ := List.findIdx?_eq_some_iff_getElem.mp h
  refine ⟨hlt, fun hmem => ?_⟩
  obtain ⟨i, hi, h0⟩ := List.mem_take_iff_getElem.mp hmem
  have := hbefore i (by omega)
  rw [h0] at this
  exact this rfl

lemma position_append (h : 0 ∉ b) : position (b ++ 0 :: rest) = some b.length := by
  induction b with
  | nil => rfl
  | cons c b ih =>
    have hc : (c == 0) = false := beq_false_of_ne fun hc => h (hc ▸ (.head _))
    have hb := ih fun hmem => h (.tail _ hmem)
    rw [position, List.cons_append, List.findIdx?_cons, hc, if_neg Bool.false_ne_true, ← position, hb]
    rfl

end Badc.Attributes
