import Badc.Lib.Bytes
import Mathlib.Tactic

/-!
# Buffers of words

A table of 32-bit little-endian words is a list of words, each turned into four bytes.  A word is
read back at four times its index (`wordAt_flatMap`), and so is its upper half.  Records of one
length, one after the other, are read at a multiple of that length (`getElem?_flatMap_of_length`).
-/

namespace Badc

/-- Records of one length: an element of one of them. -/
lemma getElem?_flatMap_of_length {α β : Type*} {f : α → List β} {c k j : ℕ} {l : List α} {a : α}
    (hlen : ∀ i < k, ∀ b, l[i]? = some b → (f b).length = c) (ha : l[k]? = some a)
    (hj : j < (f a).length) : (l.flatMap f)[c * k + j]? = (f a)[j]? := by
  induction k generalizing l with
  | zero =>
    cases l with
    | nil => cases ha
    | cons b l =>
      obtain rfl : b = a := Option.some.inj ha
      rw [List.flatMap_cons, Nat.mul_zero, Nat.zero_add, List.getElem?_append_left hj]
  | succ k ih =>
    cases l with
    | nil => cases ha
    | cons b l =>
      have hb : (f b).length = c := hlen 0 (Nat.succ_pos k) b rfl
      have hsub : c * (k + 1) + j - (f b).length = c * k + j := by
        rw [hb, Nat.mul_succ]
        omega
      have hle : (f b).length ≤ c * (k + 1) + j := by
        rw [hb, Nat.mul_succ]
        omega
      rw [List.flatMap_cons, List.getElem?_append_right hle, hsub]
      exact ih (fun i hi b' hb' => hlen (i + 1) (Nat.succ_lt_succ hi) b' hb') ha

lemma length_flatMap_of_length {α β : Type*} {f : α → List β} {c : ℕ} {l : List α}
    (hlen : ∀ a ∈ l, (f a).length = c) : (l.flatMap f).length = c * l.length := by
  induction l with
  | nil => rfl
  | cons a l ih =>
    rw [List.flatMap_cons, List.length_append, hlen a (List.mem_cons_self ..),
      ih fun b hb => hlen b (.tail _ hb), List.length_cons, Nat.mul_succ,
      Nat.add_comm]

/-- The bytes of a word. -/
def wordBytes (v : BitVec 32) : List Byte := leBytes 4 v.toNat

/-- The word at an offset of a buffer, where it lies in the buffer. -/
def wordAt (buf : List Byte) (off : ℕ) : Option (BitVec 32) :=
  if off + 4 ≤ buf.length then some (BitVec.ofNat 32 (leNat buf off 4)) else none

/-- The 16-bit number at an offset of a buffer, where it lies in the buffer. -/
def halfAt (buf : List Byte) (off : ℕ) : Option (BitVec 16) :=
  if off + 2 ≤ buf.length then some (BitVec.ofNat 16 (leNat buf off 2)) else none

variable {ws : List (BitVec 32)} {buf : List Byte} {k m n : ℕ}

lemma length_flatMap_wordBytes : (ws.flatMap wordBytes).length = 4 * ws.length :=
  length_flatMap_of_length fun _ _ => length_leBytes

lemma leNat_add (off : ℕ) : leNat buf off (m + n) = leNat buf off m + 256 ^ m * leNat buf (off + m) n := by
  induction m generalizing off with
  | zero => simp [leNat]
  | succ m ih =>
    rw [Nat.succ_add, leNat, leNat, ih, Nat.pow_succ', show off + 1 + m = off + (m + 1) by omega]
    ring

/-- The number the bytes of a word hold. -/
lemma leNat_flatMap_wordBytes {v : BitVec 32} (h : ws[k]? = some v) :
    leNat (ws.flatMap wordBytes) (4 * k) 4 = v.toNat := by
  obtain ⟨hk, rfl⟩ := List.getElem?_eq_some_iff.mp h
  have hsplit : ws.flatMap wordBytes = (ws.take k).flatMap wordBytes ++ leBytes 4 ws[k].toNat ++
      (ws.drop (k + 1)).flatMap wordBytes := by
    conv_lhs => rw [← List.take_append_drop k ws, List.drop_eq_getElem_cons hk]
    rw [List.flatMap_append, List.flatMap_cons, List.append_assoc]
    rfl
  have hlen : ((ws.take k).flatMap wordBytes).length = 4 * k := by
    rw [length_flatMap_wordBytes, List.length_take_of_le hk.le]
  rw [hsplit, ← hlen, leNat_append_leBytes]
  exact Nat.mod_eq_of_lt ws[k].isLt

/-- **A word is read at four times its index.** -/
lemma wordAt_flatMap : wordAt (ws.flatMap wordBytes) (4 * k) = ws[k]? := by
  rw [wordAt, length_flatMap_wordBytes]
  by_cases hk : k < ws.length
  · rw [if_pos (by omega), leNat_flatMap_wordBytes (List.getElem?_eq_getElem hk),
      BitVec.ofNat_toNat, BitVec.setWidth_eq, List.getElem?_eq_getElem hk]
  · rw [if_neg (by omega), List.getElem?_eq_none (by omega)]

/-- The upper half of a word is read two bytes on. -/
lemma halfAt_flatMap {v : BitVec 32} (h : ws[k]? = some v) :
    halfAt (ws.flatMap wordBytes) (4 * k + 2) = some (v.extractLsb' 16 16) := by
  obtain ⟨hk, -⟩ := List.getElem?_eq_some_iff.mp h
  have hword := (@leNat_add (ws.flatMap wordBytes) 2 2 (4 * k)).symm.trans (leNat_flatMap_wordBytes h)
  have hlow : leNat (ws.flatMap wordBytes) (4 * k) 2 < 256 ^ 2 := leNat_lt
  rw [halfAt, length_flatMap_wordBytes, if_pos (by omega)]
  refine congrArg some (BitVec.eq_of_toNat_eq ?_)
  rw [BitVec.toNat_ofNat, BitVec.extractLsb'_toNat, Nat.shiftRight_eq_div_pow]
  have hhigh : v.toNat / 2 ^ 16 = leNat (ws.flatMap wordBytes) (4 * k + 2) 2 := by
    omega
  rw [hhigh]

lemma leNat_append_left {tail : List Byte} {off : ℕ} (h : off + n ≤ buf.length) :
    leNat (buf ++ tail) off n = leNat buf off n := by
  induction n generalizing off with
  | zero => rfl
  | succ n ih =>
    rw [leNat, leNat, ih (by omega), List.getD_eq_getElem?_getD, List.getD_eq_getElem?_getD,
      List.getElem?_append_left (by omega)]

lemma wordAt_flatMap_append {tail : List Byte} (hk : k < ws.length) :
    wordAt (ws.flatMap wordBytes ++ tail) (4 * k) = ws[k]? := by
  have hlen : 4 * k + 4 ≤ (ws.flatMap wordBytes).length := by
    rw [length_flatMap_wordBytes]
    omega
  rw [← wordAt_flatMap, wordAt, wordAt, if_pos hlen, leNat_append_left hlen, List.length_append,
    if_pos (by omega)]

end Badc
