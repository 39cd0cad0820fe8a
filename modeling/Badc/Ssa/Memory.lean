import Badc.Ssa.Machine

/-!
# Memory

What a write leaves is read back (`Mem.read_write`), a read depends on the bytes it reads
(`Mem.read_congr`), and an integer load is an extension of what it reads (`loaded_eq`).  Bytes are
also named by signed offsets from a base, as the slots of a frame are: offsets that a register can
hold name different bytes when they differ (`toNat_offset_sub`, `le_toNat_offset_sub`).
-/

namespace Badc

namespace Mem

lemma toNat_sub_succ {a b : Word} (h : (b - (a + 1)).toNat + 1 < 2 ^ 64) :
    (b - a).toNat = (b - (a + 1)).toNat + 1 := by
  have hsub : b - a = (b - (a + 1)) + 1 := by grind
  rw [hsub, BitVec.toNat_add, Nat.mod_eq_of_lt]
  · rfl
  · exact h

lemma write_succ {mem : Mem} {a : Word} {n x : ℕ} (hn : n + 1 < 2 ^ 64) {b : Word}
    (hb : (b - (a + 1)).toNat < n) :
    mem.write a (n + 1) x b = mem.write (a + 1) n (x / 256) b := by
  have hnat := toNat_sub_succ (a := a) (b := b) (by omega)
  rw [write, write, if_pos (by omega), if_pos hb, hnat, Nat.pow_succ', Nat.div_div_eq_div_mul]

/-- A read depends on the bytes it reads. -/
lemma read_congr {mem mem' : Mem} {n : ℕ} (hn : n < 2 ^ 64) {a : Word}
    (h : ∀ b : Word, (b - a).toNat < n → mem b = mem' b) : mem.read a n = mem'.read a n := by
  induction n generalizing a with
  | zero => rfl
  | succ n ih =>
    have hrest : mem.read (a + 1) n = mem'.read (a + 1) n := by
      refine ih (by omega) fun b hb => h b ?_
      rw [toNat_sub_succ (by omega)]
      omega
    rw [read, read, hrest, h a (by simp)]

/-- What is written is read back. -/
lemma read_write {mem : Mem} {a : Word} {n x : ℕ} (hn : n < 2 ^ 64) :
    (mem.write a n x).read a n = x % 256 ^ n := by
  induction n generalizing a x with
  | zero => simp [read, Nat.mod_one]
  | succ n ih =>
    have hfirst : (mem.write a (n + 1) x a).toNat = x % 256 := by simp [write]
    have hrest : (mem.write a (n + 1) x).read (a + 1) n = x / 256 % 256 ^ n := by
      rw [read_congr (by omega) fun b hb => write_succ (by omega) hb]
      exact ih (by omega)
    rw [read, hfirst, hrest, Nat.pow_succ', Nat.mod_mul]

/-- The byte at a signed offset from a base. -/
def offset (base : Word) (x : ℤ) : Word := base + BitVec.ofInt 64 x

lemma offset_offset (base : Word) (x y : ℤ) : offset (offset base x) y = offset base (x + y) := by
  rw [offset, offset, offset, BitVec.ofInt_add, BitVec.add_assoc]

lemma offset_sub_offset (base : Word) (x y : ℤ) :
    offset base y - offset base x = BitVec.ofInt 64 (y - x) := by
  rw [offset, offset, Int.sub_eq_add_neg, BitVec.ofInt_add, BitVec.ofInt_neg]
  grind

lemma le_toNat_offset_sub {base : Word} {x y : ℤ} {n : ℕ} (hx : -2 ^ 63 ≤ x)
    (hn : x + n ≤ 2 ^ 63) (hy : -2 ^ 63 ≤ y) (hy' : y < 2 ^ 63) (hout : y < x ∨ x + n ≤ y) :
    n ≤ (offset base y - offset base x).toNat := by
  rw [offset_sub_offset, BitVec.toNat_ofInt]
  omega

/-- A write leaves what a range apart from it holds, where a register holds all the offsets. -/
lemma read_write_apart {mem : Mem} {base : Word} {x y : ℤ} {n n' v : ℕ} (hx : -2 ^ 63 ≤ x)
    (hn : x + n < 2 ^ 63) (hy : -2 ^ 63 ≤ y) (hn' : y + n' ≤ 2 ^ 63)
    (hapart : x + n ≤ y ∨ y + n' ≤ x) :
    (mem.write (offset base y) n' v).read (offset base x) n = mem.read (offset base x) n := by
  refine read_congr (by omega) fun b hb => ?_
  -- The byte lies in the range that is read, at its distance from the base.
  have hoff : b = offset base (x + (b - offset base x).toNat) := by
    rw [← offset_offset, offset]
    simp only [BitVec.ofInt_natCast, BitVec.ofNat_toNat, BitVec.setWidth_eq]
    grind
  rw [write, if_neg]
  rw [not_lt, hoff]
  exact le_toNat_offset_sub hy hn' (by omega) (by omega) (by omega)

end Mem

/-- Whether a load kind reads a floating-point object. -/
def LoadKind.isFloating : LoadKind → Bool
  | .f32 | .f64 | .f80 | .f128 => true
  | _ => false

/-- An integer load reads the low bytes of a word. -/
lemma extendLoad_low {k : LoadKind} (hk : k.isFloating = false) (hvec : k ≠ .v128) (x : Word) :
    extendLoad (BitVec.ofNat 64 (x.toNat % 256 ^ loadWidth k)) k = extendLoad x k := by
  have hmod : ∀ {n : ℕ}, n ≤ 64 →
      (BitVec.ofNat 64 (x.toNat % 2 ^ n)).setWidth n = x.setWidth n := by
    intro n hn
    apply BitVec.eq_of_toNat_eq
    have := Nat.mod_lt x.toNat (Nat.two_pow_pos n)
    have hpow : 2 ^ n ≤ 2 ^ 64 := Nat.pow_le_pow_right two_pos hn
    rw [BitVec.toNat_setWidth, BitVec.toNat_setWidth, BitVec.toNat_ofNat,
      Nat.mod_eq_of_lt (b := 2 ^ 64) (by omega), Nat.mod_mod]
  cases k with
  | u8 | i8 =>
    simp only [extendLoad, loadWidth, show (256 : ℕ) ^ 1 = 2 ^ 8 by norm_num,
      hmod (n := 8) (by norm_num)]
  | u16 | i16 =>
    simp only [extendLoad, loadWidth, show (256 : ℕ) ^ 2 = 2 ^ 16 by norm_num,
      hmod (n := 16) (by norm_num)]
  | u32 | i32 =>
    simp only [extendLoad, zext32, sext32, loadWidth, show (256 : ℕ) ^ 4 = 2 ^ 32 by norm_num,
      hmod (n := 32) (by norm_num)]
  | i64 =>
    have := hmod (n := 64) le_rfl
    rw [BitVec.setWidth_eq, BitVec.setWidth_eq] at this
    exact this
  | v128 => exact absurd rfl hvec
  | _ => cases hk

lemma loaded_eq {m : Machine} {single : Bool} {mem : Mem} {a : Word} {k : LoadKind}
    (hk : k.isFloating = false) (hvec : k ≠ .v128) : m.loaded single mem a k =
      .word (extendLoad (BitVec.ofNat 64 (mem.read a (loadWidth k))) k) := by
  cases k with
  | v128 => exact absurd rfl hvec
  | f32 | f64 | f80 | f128 => cases hk
  | _ => rfl

end Badc
