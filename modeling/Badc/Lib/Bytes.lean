import Mathlib.Data.List.Basic
import Mathlib.Tactic.Ring

/-!
# Little-endian fields of a byte buffer

Numbers stored in a buffer of bytes, the lowest index least significant.  `List.overwrite` writes
bytes over part of a buffer; what it writes is read back (`leNat_overwrite`), and the rest of the
buffer is as it was (`getElem?_overwrite_of_outside`).
-/

namespace Badc

/-- A byte. -/
abbrev Byte := BitVec 8

/-- The low `n` bytes of a number. -/
def leBytes (n x : ℕ) : List Byte := (List.range n).map fun k => BitVec.ofNat 8 (x / 256 ^ k)

/-- The number the `n` bytes from index `i` hold. -/
def leNat (buf : List Byte) (i : ℕ) : ℕ → ℕ
  | 0 => 0
  | n + 1 => (buf.getD i 0).toNat + 256 * leNat buf (i + 1) n

/-- A buffer with bytes written from index `i` on, as far as it reaches. -/
def overwrite (buf : List Byte) (i : ℕ) (bytes : List Byte) : List Byte :=
  buf.mapIdx fun j b => if i ≤ j then bytes.getD (j - i) b else b

variable {buf bytes : List Byte} {i j n x : ℕ}

@[simp] lemma length_leBytes : (leBytes n x).length = n := by simp [leBytes]

@[simp] lemma length_overwrite : (overwrite buf i bytes).length = buf.length := by
  simp [overwrite]

/-- Bytes outside the written part stay. -/
lemma getElem?_overwrite_of_outside (h : j < i ∨ i + bytes.length ≤ j) :
    (overwrite buf i bytes)[j]? = buf[j]? := by
  rw [overwrite, List.getElem?_mapIdx]
  cases buf[j]? with
  | none => rfl
  | some b =>
    rw [Option.map_some]
    split
    · rw [List.getD_eq_getElem?_getD, List.getElem?_eq_none (by omega)]
      rfl
    · rfl

lemma getElem?_overwrite_of_inside (hj : j < bytes.length) (hlen : i + bytes.length ≤ buf.length) :
    (overwrite buf i bytes)[i + j]? = bytes[j]? := by
  have hlt : i + j < buf.length := by omega
  rw [overwrite, List.getElem?_mapIdx, List.getElem?_eq_getElem hlt, Option.map_some,
    if_pos (Nat.le_add_right i j), Nat.add_sub_cancel_left, List.getD_eq_getElem?_getD,
    List.getElem?_eq_getElem hj, Option.getD_some]

/-- Bytes of a number hold the number, as far as they go. -/
lemma leNat_of_bytes (h : ∀ k < n, buf.getD (i + k) 0 = BitVec.ofNat 8 (x / 256 ^ k)) :
    leNat buf i n = x % 256 ^ n := by
  induction n generalizing i x with
  | zero => simp [leNat, Nat.mod_one]
  | succ n ih =>
    have hfirst : (buf.getD i 0).toNat = x % 256 := by
      have := h 0 (Nat.succ_pos n)
      rw [Nat.add_zero, Nat.pow_zero, Nat.div_one] at this
      rw [this, BitVec.toNat_ofNat]
    have hrest : leNat buf (i + 1) n = x / 256 % 256 ^ n := by
      refine ih fun k hk => ?_
      have := h (k + 1) (Nat.succ_lt_succ hk)
      rw [Nat.add_assoc, Nat.add_comm 1 k, this, Nat.pow_succ', Nat.div_div_eq_div_mul]
    rw [leNat, hfirst, hrest, Nat.pow_succ', Nat.mod_mul]

lemma leNat_append_leBytes (before after : List Byte) :
    leNat (before ++ leBytes n x ++ after) before.length n = x % 256 ^ n := by
  refine leNat_of_bytes fun k hk => ?_
  rw [List.getD_eq_getElem?_getD, List.append_assoc, List.getElem?_append_right (by omega),
    Nat.add_sub_cancel_left, List.getElem?_append_left (by simpa using hk), leBytes,
    List.getElem?_map, List.getElem?_range hk]
  rfl

lemma leNat_lt : leNat buf i n < 256 ^ n := by
  induction n generalizing i with
  | zero => exact Nat.one_pos
  | succ n ih =>
    have hbyte := (buf.getD i 0).isLt
    have hrest := ih (i := i + 1)
    rw [leNat, Nat.pow_succ']
    omega

/-- Bytes are those of the number they hold. -/
lemma leBytes_leNat (hlen : i + n = buf.length) : leBytes n (leNat buf i n) = buf.drop i := by
  induction n generalizing i with
  | zero => simp [leBytes, ← hlen]
  | succ n ih =>
    have hi : i < buf.length := by omega
    have hfirst : (buf.getD i 0).toNat < 256 := (buf.getD i 0).isLt
    rw [List.drop_eq_getElem_cons hi, ← ih (by omega), leNat, leBytes, List.range_succ_eq_map,
      List.map_cons, List.map_map]
    refine congrArg₂ List.cons ?_ (List.map_congr_left fun k _ => ?_)
    · refine BitVec.eq_of_toNat_eq ?_
      rw [BitVec.toNat_ofNat, Nat.pow_zero, Nat.div_one, Nat.add_mul_mod_self_left,
        Nat.mod_eq_of_lt hfirst, List.getD_eq_getElem?_getD, List.getElem?_eq_getElem hi,
        Option.getD_some]
    · rw [Function.comp_apply, Nat.pow_succ', ← Nat.div_div_eq_div_mul,
        Nat.add_mul_div_left _ _ (by norm_num), Nat.div_eq_of_lt hfirst, Nat.zero_add]

end Badc
