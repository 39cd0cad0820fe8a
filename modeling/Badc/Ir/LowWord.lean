import Badc.Ir.Eval

/-!
# Low words

The 32-bit low word of a register, sign- and zero-extended.
-/

namespace Badc

lemma signExtend_eq_zero {y : BitVec 32} : y.signExtend 64 = 0#64 ↔ y = 0#32 := by
  constructor
  · intro h
    have hint := congrArg BitVec.toInt h
    rw [BitVec.toInt_signExtend_of_le (by norm_num)] at hint
    exact BitVec.eq_of_toInt_eq (by simpa using hint)
  · rintro rfl
    rfl

lemma setWidth_eq_zero {y : BitVec 32} : y.setWidth 64 = 0#64 ↔ y = 0#32 := by
  constructor
  · intro h
    have hnat := congrArg BitVec.toNat h
    rw [BitVec.toNat_setWidth_of_le (by norm_num)] at hnat
    exact BitVec.eq_of_toNat_eq (by simpa using hnat)
  · rintro rfl
    rfl

lemma sext32_eq_zero {x : Word} : sext32 x = 0#64 ↔ zext32 x = 0#64 := by
  rw [sext32, zext32, signExtend_eq_zero, setWidth_eq_zero]

@[simp] lemma zext32_sext32 (x : Word) : zext32 (sext32 x) = zext32 x := by
  unfold zext32 sext32
  congr 1
  refine BitVec.eq_of_getLsbD_eq fun i hi => ?_
  have hi' : i < 64 := by omega
  simp only [BitVec.getLsbD_setWidth, BitVec.getLsbD_signExtend, hi, hi', decide_true, Bool.true_and,
    if_true]

@[simp] lemma zext32_zext32 (x : Word) : zext32 (zext32 x) = zext32 x := by
  simp [zext32]

@[simp] lemma zext32_boolWord (p : Bool) : zext32 (boolWord p) = boolWord p := by
  cases p <;> rfl

@[simp] lemma boolWord_eq_zero {p : Bool} : boolWord p = 0#64 ↔ p = false := by
  cases p <;> decide

lemma and_lowMask (x : Word) : x &&& 0xffffffff = zext32 x := by
  apply BitVec.eq_of_toNat_eq
  have hmod : x.toNat % 2 ^ 32 < 2 ^ 64 := (Nat.mod_lt _ (by norm_num)).trans (by norm_num)
  rw [zext32, BitVec.toNat_setWidth, BitVec.toNat_setWidth, Nat.mod_eq_of_lt hmod,
    BitVec.toNat_and]
  exact Nat.and_two_pow_sub_one_eq_mod x.toNat 32

end Badc
