import Badc.Lib.Bytes
import Mathlib.Data.List.Sort
import Mathlib.Data.List.Lex
import Mathlib.Tactic

/-!
# String tables

`buildStringTable` stores names in one blob of bytes, each ended by a NUL, and says at which offset
each name stands.  A name that is a suffix of another is not stored: it stands in the tail of the
other.  The names are sorted by their reversed bytes, so that a suffix comes right before a name
that contains it (`suffix_of_next`), and the offsets are resolved from the end of that order.

The names read back at their offsets, and no stored name is a suffix of another
(`buildStringTable_spec`).
-/

namespace Badc.Strtab

/-! ## The table -/

/-- The name at a position. -/
def nameAt (names : List (List Byte)) (i : ℕ) : List Byte := names.getD i []

/-- The reversed bytes of a name, by which names are sorted. -/
def reversedBytes (names : List (List Byte)) (i : ℕ) : List ℕ :=
  (nameAt names i).reverse.map BitVec.toNat

/-- Position `a` sorts before position `b`: by the reversed bytes, and equal names on the later
position. -/
def Before (names : List (List Byte)) (a b : ℕ) : Prop :=
  reversedBytes names a < reversedBytes names b ∨
    (reversedBytes names a = reversedBytes names b ∧ b ≤ a)

instance (names : List (List Byte)) : DecidableRel (Before names) := fun _ _ =>
  inferInstanceAs (Decidable (_ ∨ _))

/-- The positions, sorted; they are `u32`. -/
def sortedPositions (names : List (List Byte)) : List ℕ :=
  (List.range (names.length % 2 ^ 32)).insertionSort (Before names)

/-- Note for each position whether the next one in the order holds its name as a suffix. -/
def markInside (names : List (List Byte)) : List ℕ → (ℕ → Option ℕ) → ℕ → Option ℕ
  | a :: b :: order, inside =>
    markInside names (b :: order)
      (if nameAt names a ≠ [] ∧ nameAt names a <:+ nameAt names b then
        Function.update inside a (some b)
      else inside)
  | _, inside => inside

/-- The position whose name holds the name of a position in its tail. -/
def insideOf (names : List (List Byte)) : ℕ → Option ℕ :=
  markInside names (sortedPositions names) fun _ => none

/-- Store the name of a position, unless it is empty or stands in another. -/
def storeName (names : List (List Byte)) (table : List Byte × (ℕ → ℕ)) (i : ℕ) :
    List Byte × (ℕ → ℕ) :=
  if nameAt names i = [] ∨ insideOf names i ≠ none then table
  else (table.1 ++ nameAt names i ++ [0],
    Function.update table.2 i (table.1.length % 2 ^ 32))

/-- The stored names and their offsets. -/
def storedNames (names : List (List Byte)) : List Byte × (ℕ → ℕ) :=
  (List.range names.length).foldl (storeName names) ([0], fun _ => 0)

/-- Place a name in the tail of the one that holds it. -/
def resolveName (names : List (List Byte)) (i : ℕ) (offsets : ℕ → ℕ) : ℕ → ℕ :=
  match insideOf names i with
  | none => offsets
  | some c => Function.update offsets i
      ((offsets c + ((nameAt names c).length - (nameAt names i).length) % 2 ^ 32) % 2 ^ 32)

/-- The blob, and the offset of each name.  The order is walked backwards, which resolves a name
before those that stand in it. -/
def buildStringTable (names : List (List Byte)) : List Byte × (ℕ → ℕ) :=
  let stored := storedNames names
  (stored.1, (sortedPositions names).foldr (resolveName names) stored.2)

/-- The bytes at an offset up to the next NUL, where there is one. -/
def stringAt (bytes : List Byte) (off : ℕ) : Option (List Byte) :=
  let tail := bytes.drop off
  if 0 ∈ tail then some (tail.takeWhile (· ≠ 0)) else none

variable {names : List (List Byte)} {order rest pre : List ℕ} {a b c i j : ℕ}
  {inside : ℕ → Option ℕ}

/-! ## The order -/

lemma toNat_injective : Function.Injective (BitVec.toNat : Byte → ℕ) := fun _ _ =>
  BitVec.eq_of_toNat_eq

lemma suffix_iff : nameAt names a <:+ nameAt names b ↔
    reversedBytes names a <+: reversedBytes names b := by
  rw [← List.reverse_prefix, reversedBytes, reversedBytes,
    List.prefix_map_iff_of_injective toNat_injective]

lemma nameAt_eq_iff : nameAt names a = nameAt names b ↔
    reversedBytes names a = reversedBytes names b := by
  rw [reversedBytes, reversedBytes, (List.map_injective_iff.mpr toNat_injective).eq_iff,
    List.reverse_inj]

/-- What lies between a list and a list it begins begins with it as well. -/
lemma prefix_of_between {p q x : List ℕ} (hpq : p <+: q) (hpx : ¬ x < p) (hxq : ¬ q < x) :
    p <+: x := by
  induction p generalizing q x with
  | nil => exact List.nil_prefix
  | cons a p ih =>
    obtain ⟨q', rfl, hpq'⟩ : ∃ q', q = a :: q' ∧ p <+: q' := by
      obtain ⟨t, rfl⟩ := hpq
      exact ⟨p ++ t, rfl, List.prefix_append _ _⟩
    cases x with
    | nil => exact absurd (List.nil_lt_cons a p) hpx
    | cons b x =>
      rw [List.cons_lt_cons_iff, not_or, not_and] at hpx hxq
      obtain rfl : a = b := Nat.le_antisymm (Nat.not_lt.mp hpx.1) (Nat.not_lt.mp hxq.1)
      exact (List.prefix_cons_inj _).mpr (ih hpq' (hpx.2 rfl) (hxq.2 rfl))

lemma Before.le (h : Before names a b) : reversedBytes names a ≤ reversedBytes names b := by
  rcases h with h | ⟨h, -⟩
  · exact le_of_lt h
  · exact le_of_eq h

instance : Std.Total (Before names) := ⟨fun a b => by
  rcases lt_trichotomy (reversedBytes names a) (reversedBytes names b) with h | h | h
  · exact Or.inl (Or.inl h)
  · rcases Nat.le_total a b with hab | hab
    · exact Or.inr (Or.inr ⟨h.symm, hab⟩)
    · exact Or.inl (Or.inr ⟨h, hab⟩)
  · exact Or.inr (Or.inl h)⟩

instance : IsTrans ℕ (Before names) := ⟨fun a b c hab hbc => by
  rcases hab with hab | ⟨hab, hba⟩
  · exact Or.inl (lt_of_lt_of_le hab hbc.le)
  · rcases hbc with hbc | ⟨hbc, hcb⟩
    · exact Or.inl (hab ▸ hbc)
    · exact Or.inr ⟨hab.trans hbc, hcb.trans hba⟩⟩

lemma pairwise_sortedPositions : (sortedPositions names).Pairwise (Before names) :=
  List.pairwise_insertionSort _ _

lemma nodup_sortedPositions : (sortedPositions names).Nodup :=
  (List.perm_insertionSort _ _).nodup_iff.mpr List.nodup_range

lemma mem_sortedPositions (hlen : names.length < 2 ^ 32) :
    i ∈ sortedPositions names ↔ i < names.length := by
  rw [sortedPositions, List.mem_insertionSort, List.mem_range, Nat.mod_eq_of_lt hlen]

/-- **A name that another one ends in is a suffix of the next one in the order.** -/
lemma suffix_of_next (hsplit : sortedPositions names = pre ++ a :: c :: rest)
    (hb : b ∈ c :: rest) (hab : nameAt names a <:+ nameAt names b) :
    nameAt names a <:+ nameAt names c := by
  have hsorted := @pairwise_sortedPositions names
  rw [hsplit, List.pairwise_append, List.pairwise_cons, List.pairwise_cons] at hsorted
  obtain ⟨-, ⟨ha, hc, -⟩, -⟩ := hsorted
  rcases List.mem_cons.mp hb with rfl | hb
  · exact hab
  · exact suffix_iff.mpr (prefix_of_between (suffix_iff.mp hab)
      (not_lt.mpr (ha c (List.mem_cons_self ..)).le) (not_lt.mpr (hc b hb).le))

/-! ## Which names stand in others -/

lemma markInside_of_notMem (h : i ∉ order) : markInside names order inside i = inside i := by
  induction order, inside using markInside.induct names with
  | case1 a b order inside ih =>
    rw [List.mem_cons, not_or] at h
    rw [markInside, ih h.2]
    split_ifs
    · exact Function.update_of_ne h.1 _ _
    · rfl
  | case2 order inside hne => rw [markInside]; exact hne

/-- What is noted for a position depends on the next one only. -/
lemma markInside_of_split (hnodup : (pre ++ a :: c :: rest).Nodup) :
    markInside names (pre ++ a :: c :: rest) inside a =
      if nameAt names a ≠ [] ∧ nameAt names a <:+ nameAt names c then some c else inside a := by
  induction pre generalizing inside with
  | nil =>
    rw [List.nil_append, markInside, markInside_of_notMem (List.nodup_cons.mp hnodup).1]
    split_ifs
    · exact Function.update_self ..
    · rfl
  | cons x pre ih =>
    have hxa : a ≠ x := by
      rintro rfl
      exact (List.nodup_cons.mp hnodup).1 (List.mem_append_right _ (List.mem_cons_self ..))
    obtain ⟨y, l, hl⟩ : ∃ y l, pre ++ a :: c :: rest = y :: l := by
      cases pre with
      | nil => exact ⟨_, _, rfl⟩
      | cons y pre => exact ⟨_, _, rfl⟩
    rw [List.cons_append, hl, markInside, ← hl, ih (List.nodup_cons.mp hnodup).2]
    split_ifs
    all_goals first | rfl | exact Function.update_of_ne hxa _ _

/-- The last position of the order keeps what is noted. -/
lemma markInside_of_last (hnodup : (pre ++ [a]).Nodup) :
    markInside names (pre ++ [a]) inside a = inside a := by
  induction pre generalizing inside with
  | nil => rfl
  | cons x pre ih =>
    have hxa : a ≠ x := by
      rintro rfl
      exact (List.nodup_cons.mp hnodup).1 (List.mem_append_right _ (List.mem_cons_self ..))
    obtain ⟨y, l, hl⟩ : ∃ y l, pre ++ [a] = y :: l := by
      cases pre with
      | nil => exact ⟨_, _, rfl⟩
      | cons y pre => exact ⟨_, _, rfl⟩
    rw [List.cons_append, hl, markInside, ← hl, ih (List.nodup_cons.mp hnodup).2]
    split_ifs
    · exact Function.update_of_ne hxa _ _
    · rfl

lemma insideOf_of_split (hsplit : sortedPositions names = pre ++ a :: c :: rest) :
    insideOf names a =
      if nameAt names a ≠ [] ∧ nameAt names a <:+ nameAt names c then some c else none := by
  rw [insideOf, hsplit, markInside_of_split (hsplit ▸ nodup_sortedPositions)]

lemma insideOf_of_last (hsplit : sortedPositions names = pre ++ [a]) : insideOf names a = none := by
  rw [insideOf, hsplit, markInside_of_last (hsplit ▸ nodup_sortedPositions)]

/-- A stored name, of a position that stands in no other name. -/
def Stored (names : List (List Byte)) (i : ℕ) : Prop := nameAt names i ≠ [] ∧ insideOf names i = none

lemma insideOf_ne_none (hsplit : sortedPositions names = pre ++ a :: rest) (hb : b ∈ rest)
    (ha : nameAt names a ≠ []) (hab : nameAt names a <:+ nameAt names b) :
    insideOf names a ≠ none := by
  cases rest with
  | nil => exact absurd hb List.not_mem_nil
  | cons c rest =>
    rw [insideOf_of_split hsplit, if_pos ⟨ha, suffix_of_next hsplit hb hab⟩]
    exact Option.some_ne_none c

/-- **No stored name is a suffix of another stored name.** -/
lemma Stored.not_suffix (hlen : names.length < 2 ^ 32) (hi : i < names.length)
    (hj : j < names.length) (hsi : Stored names i) (hsj : Stored names j) (hne : i ≠ j) :
    ¬ nameAt names i <:+ nameAt names j := by
  intro hsuffix
  obtain ⟨pre, rest, hsplit⟩ := List.append_of_mem ((mem_sortedPositions hlen).mpr hi)
  obtain hj' := (mem_sortedPositions hlen).mpr hj
  rw [hsplit, List.mem_append, List.mem_cons] at hj'
  rcases hj' with hpre | rfl | hrest
  · -- The other name sorts first: the two are equal.
    obtain ⟨pre, mid, rfl⟩ := List.append_of_mem hpre
    have hbefore : Before names j i := by
      have := @pairwise_sortedPositions names
      rw [hsplit, List.pairwise_append] at this
      exact this.2.2 j (List.mem_append_right _ (List.mem_cons_self ..)) i (List.mem_cons_self ..)
    have heq : nameAt names j = nameAt names i := by
      rw [nameAt_eq_iff]
      exact le_antisymm hbefore.le (not_lt.mp (suffix_iff.mp hsuffix).le)
    have hmem : i ∈ mid ++ i :: rest := List.mem_append_right _ (List.mem_cons_self ..)
    rw [List.append_assoc, List.cons_append] at hsplit
    exact insideOf_ne_none hsplit hmem hsj.1 (heq ▸ List.suffix_refl _) hsj.2
  · exact hne rfl
  · exact insideOf_ne_none hsplit hrest hsi.1 hsuffix hsi.2

/-! ## What is stored -/

instance (names : List (List Byte)) : DecidablePred (Stored names) := fun _ =>
  inferInstanceAs (Decidable (_ ∧ _))

/-- The stored positions among the first `n`, in input order. -/
def storedBelow (names : List (List Byte)) (n : ℕ) : List ℕ :=
  (List.range n).filter (Stored names ·)

/-- The blob of the stored names of some positions. -/
def blob (names : List (List Byte)) (stored : List ℕ) : List Byte :=
  0 :: stored.flatMap fun i => nameAt names i ++ [0]

lemma length_blob (stored : List ℕ) :
    (blob names stored).length = 1 + (stored.map fun i => (nameAt names i).length + 1).sum := by
  simp [blob, List.length_flatMap, Nat.add_comm]

/-- The names after the first `n` positions: the blob, and the offset of each stored name. -/
lemma foldl_storeName (n : ℕ) :
    ((List.range n).foldl (storeName names) ([0], fun _ => 0)).1 = blob names (storedBelow names n) ∧
      ∀ i, ((List.range n).foldl (storeName names) ([0], fun _ => 0)).2 i =
        if i < n ∧ Stored names i then (blob names (storedBelow names i)).length % 2 ^ 32 else 0 := by
  induction n with
  | zero => simp [blob, storedBelow]
  | succ n ih =>
    obtain ⟨hblob, hoff⟩ := ih
    rw [List.range_succ, List.foldl_append, List.foldl_cons, List.foldl_nil, storeName]
    have hbelow : storedBelow names (n + 1) =
        storedBelow names n ++ if Stored names n then [n] else [] := by
      rw [storedBelow, List.range_succ, List.filter_append, List.filter_singleton]
      simp [storedBelow]
    by_cases h : Stored names n
    · rw [if_neg (by rw [not_or, not_not]; exact h), hblob, hbelow, if_pos h]
      refine ⟨by simp [blob], fun i => ?_⟩
      by_cases hin : i = n
      · rw [hin, if_pos ⟨Nat.lt_succ_self n, h⟩]
        exact Function.update_self ..
      · refine (Function.update_of_ne hin _ _).trans ?_
        have : i < n + 1 ↔ i < n := by omega
        simp only [hoff, this]
    · rw [if_pos (by
        by_contra hor
        rw [not_or, not_not] at hor
        exact h hor), hblob, hbelow, if_neg h, List.append_nil]
      refine ⟨rfl, fun i => ?_⟩
      rw [hoff]
      by_cases hin : i = n
      · rw [hin, if_neg (fun hi => h hi.2), if_neg (fun hi => h hi.2)]
      · have : i < n + 1 ↔ i < n := by omega
        simp only [this]

lemma length_blob_le (n : ℕ) : (blob names (storedBelow names n)).length ≤
    1 + ((List.range n).map fun i => (nameAt names i).length + 1).sum := by
  rw [length_blob]
  exact Nat.add_le_add_left (List.Sublist.sum_le_sum (List.filter_sublist.map _)
    (fun _ _ => Nat.zero_le _)) 1

lemma storedBelow_split {n : ℕ} (hi : i < n) (hs : Stored names i) :
    ∃ later, storedBelow names n = storedBelow names i ++ i :: later := by
  obtain ⟨m, rfl⟩ := Nat.exists_eq_add_of_lt hi
  refine ⟨((List.range m).map fun k => i + (k + 1)).filter (Stored names ·), ?_⟩
  rw [storedBelow, storedBelow, Nat.add_assoc, List.range_add, List.filter_append,
    List.range_succ_eq_map, List.map_cons, List.filter_cons, Nat.add_zero,
    if_pos (decide_eq_true hs), List.map_map]
  rfl

/-! ## Where names stand -/

/-- A name stands at an offset of the bytes, with its terminator. -/
def Stands (bytes : List Byte) (off : ℕ) (name : List Byte) : Prop :=
  ∃ before after, bytes = before ++ name ++ 0 :: after ∧ before.length = off

lemma Stands.stringAt {bytes name : List Byte} {off : ℕ} (h : Stands bytes off name)
    (hname : 0 ∉ name) : stringAt bytes off = some name := by
  obtain ⟨before, after, rfl, rfl⟩ := h
  rw [Strtab.stringAt, List.append_assoc, List.drop_left]
  rw [if_pos (by simp), List.takeWhile_append_of_pos (fun x hx => by
      rw [decide_eq_true_iff]
      rintro rfl
      exact hname hx), List.takeWhile_cons_of_neg (by simp), List.append_nil]

lemma Stands.suffix {bytes name part : List Byte} {off : ℕ} (h : Stands bytes off name)
    (hpart : part <:+ name) : Stands bytes (off + (name.length - part.length)) part := by
  obtain ⟨before, after, rfl, rfl⟩ := h
  obtain ⟨front, rfl⟩ := hpart
  refine ⟨before ++ front, after, by simp, ?_⟩
  rw [List.length_append, List.length_append, Nat.add_sub_cancel]

lemma Stands.lt {bytes name : List Byte} {off : ℕ} (h : Stands bytes off name) :
    off + name.length < bytes.length := by
  obtain ⟨before, after, rfl, rfl⟩ := h
  simp only [List.length_append, List.length_cons]
  omega

lemma stands_blob {n : ℕ} (hi : i < n) (hs : Stored names i) :
    Stands (blob names (storedBelow names n)) (blob names (storedBelow names i)).length
      (nameAt names i) := by
  obtain ⟨later, hsplit⟩ := storedBelow_split hi hs
  refine ⟨blob names (storedBelow names i), later.flatMap fun i => nameAt names i ++ [0], ?_, rfl⟩
  rw [hsplit]
  simp [blob]

/-! ## The offsets -/

/-- A name that stands in no other keeps its offset. -/
lemma foldr_resolveName_of_none {offsets : ℕ → ℕ} (h : insideOf names i = none)
    (order : List ℕ) : order.foldr (resolveName names) offsets i = offsets i := by
  induction order with
  | nil => rfl
  | cons a order ih =>
    rw [List.foldr_cons, resolveName]
    cases ha : insideOf names a with
    | none => exact ih
    | some c =>
      have hia : i ≠ a := by
        rintro rfl
        exact Option.some_ne_none c (ha.symm.trans h)
      exact (Function.update_of_ne hia _ _).trans ih

/-- Names outside the order keep their offset. -/
lemma foldr_resolveName_of_notMem {offsets : ℕ → ℕ} (h : i ∉ order) :
    order.foldr (resolveName names) offsets i = offsets i := by
  induction order with
  | nil => rfl
  | cons a order ih =>
    rw [List.mem_cons, not_or] at h
    rw [List.foldr_cons, resolveName]
    cases insideOf names a with
    | none => exact ih h.2
    | some c => exact (Function.update_of_ne h.1 _ _).trans (ih h.2)

lemma foldr_resolveName_append {offsets : ℕ → ℕ} (hnodup : (pre ++ rest).Nodup) (hi : i ∈ rest) :
    (pre ++ rest).foldr (resolveName names) offsets i =
      rest.foldr (resolveName names) offsets i := by
  rw [List.foldr_append]
  exact foldr_resolveName_of_notMem fun h => List.disjoint_of_nodup_append hnodup h hi

/-- The offset of a name that stands in the next one of the order. -/
lemma offset_of_inside (hsplit : sortedPositions names = pre ++ i :: c :: rest)
    (h : insideOf names i = some c) :
    (buildStringTable names).2 i = ((buildStringTable names).2 c +
      ((nameAt names c).length - (nameAt names i).length) % 2 ^ 32) % 2 ^ 32 := by
  have hnodup := @nodup_sortedPositions names
  rw [buildStringTable]
  dsimp only
  rw [hsplit] at hnodup ⊢
  rw [foldr_resolveName_append hnodup (List.mem_cons_self ..),
    foldr_resolveName_append hnodup (List.mem_cons_of_mem _ (List.mem_cons_self ..)),
    List.foldr_cons, resolveName, h]
  have hci : c ≠ i := by
    rintro rfl
    exact (List.nodup_cons.mp (List.nodup_append.mp hnodup).2.1).1 (List.mem_cons_self ..)
  dsimp only
  rw [Function.update_self, Function.update_of_ne hci]

lemma offset_of_none (h : insideOf names i = none) :
    (buildStringTable names).2 i = if i < names.length ∧ Stored names i then
      (blob names (storedBelow names i)).length % 2 ^ 32 else 0 := by
  rw [buildStringTable]
  dsimp only
  rw [foldr_resolveName_of_none h]
  exact (foldl_storeName names.length).2 i

lemma buildStringTable_blob :
    (buildStringTable names).1 = blob names (storedBelow names names.length) :=
  (foldl_storeName names.length).1

lemma map_nameAt : (List.range names.length).map (nameAt names) = names := by
  refine List.ext_getElem (by simp) fun i h h' => ?_
  rw [List.getElem_map, List.getElem_range, nameAt, List.getD_eq_getElem?_getD,
    List.getElem?_eq_getElem h', Option.getD_some]

lemma length_table_le : (buildStringTable names).1.length ≤
    1 + (names.map fun name => name.length + 1).sum := by
  rw [buildStringTable_blob]
  refine (length_blob_le names.length).trans (le_of_eq ?_)
  conv_rhs => rw [← @map_nameAt names, List.map_map]
  rfl

/-- The order is split at a position into those before and those after it. -/
lemma insideOf_eq_none_or (hsplit : sortedPositions names = pre ++ i :: rest) :
    insideOf names i = none ∨ ∃ c rest', rest = c :: rest' ∧ insideOf names i = some c ∧
      nameAt names i <:+ nameAt names c := by
  cases rest with
  | nil => exact Or.inl (insideOf_of_last hsplit)
  | cons c rest =>
    rw [insideOf_of_split hsplit]
    split_ifs with h
    · exact Or.inr ⟨c, rest, rfl, rfl, h.2⟩
    · exact Or.inl rfl

/-- Names with terminators that fit 32 bits. -/
def Fits (names : List (List Byte)) : Prop := (names.map fun name => name.length + 1).sum < 2 ^ 32

lemma Fits.length_lt (h : Fits names) : names.length < 2 ^ 32 := by
  have : (names.map fun _ => 1).sum ≤ (names.map fun name => name.length + 1).sum :=
    List.sum_le_sum fun _ _ => Nat.le_add_left _ _
  rw [List.map_const', List.sum_replicate, smul_eq_mul, Nat.mul_one] at this
  exact this.trans_lt h

/-- Every name but the empty one stands at its offset: the induction goes from the end of the
order, where the containing names come first. -/
lemma stands_offset (hfits : Fits names) (hsplit : sortedPositions names = pre ++ rest) :
    ∀ i ∈ rest, nameAt names i ≠ [] →
      Stands (buildStringTable names).1 ((buildStringTable names).2 i) (nameAt names i) := by
  have hlen : (buildStringTable names).1.length ≤ 2 ^ 32 := by
    have := @length_table_le names
    unfold Fits at hfits
    omega
  induction rest generalizing pre with
  | nil => simp
  | cons a rest ih =>
    rw [List.append_cons] at hsplit
    have ih := ih hsplit
    rw [← List.append_cons] at hsplit
    intro i hi hne
    rcases List.mem_cons.mp hi with rfl | hi
    · have ha : i < names.length := by
        rw [← mem_sortedPositions hfits.length_lt, hsplit]
        exact List.mem_append_right _ (List.mem_cons_self ..)
      rcases insideOf_eq_none_or hsplit with hnone | ⟨c, rest, rfl, hsome, hsuffix⟩
      · have hstands := stands_blob ha ⟨hne, hnone⟩
        rw [← buildStringTable_blob] at hstands
        have := hstands.lt
        rwa [offset_of_none hnone, if_pos ⟨ha, hne, hnone⟩, Nat.mod_eq_of_lt (by omega)]
      · have hc : nameAt names c ≠ [] := by
          intro hc
          rw [hc, List.suffix_nil] at hsuffix
          exact hne hsuffix
        have hstands := (ih c (List.mem_cons_self ..) hc).suffix hsuffix
        have := hstands.lt
        rwa [offset_of_inside hsplit hsome, Nat.add_mod_mod, Nat.mod_eq_of_lt (by omega)]
    · exact ih i hi hne

/-- Equal names have equal offsets: in the order they stand next to each other. -/
lemma offset_eq_of_nameAt_eq (hfits : Fits names) (hsplit : sortedPositions names = pre ++ rest) :
    ∀ i ∈ rest, ∀ j ∈ rest, nameAt names i ≠ [] → nameAt names i = nameAt names j →
      (buildStringTable names).2 i = (buildStringTable names).2 j := by
  have hlen : (buildStringTable names).1.length ≤ 2 ^ 32 := by
    have := @length_table_le names
    unfold Fits at hfits
    omega
  induction rest generalizing pre with
  | nil => simp
  | cons a rest ih =>
    rw [List.append_cons] at hsplit
    have ih := ih hsplit
    have hstands := stands_offset hfits hsplit
    rw [← List.append_cons] at hsplit
    -- The first position of the rest takes the offset of the next, whose name is the same.
    have hfirst : ∀ j ∈ rest, nameAt names a ≠ [] → nameAt names a = nameAt names j →
        (buildStringTable names).2 a = (buildStringTable names).2 j := by
      intro j hj hne heq
      rcases insideOf_eq_none_or hsplit with hnone | ⟨c, rest, rfl, hsome, hsuffix⟩
      · exact absurd hnone (insideOf_ne_none hsplit hj hne (heq ▸ List.suffix_refl _))
      · have hsorted := @pairwise_sortedPositions names
        rw [hsplit, List.pairwise_append, List.pairwise_cons, List.pairwise_cons] at hsorted
        obtain ⟨-, ⟨ha, hc, -⟩, -⟩ := hsorted
        have hac : nameAt names a = nameAt names c := by
          rcases List.mem_cons.mp hj with rfl | hj
          · exact heq
          · rw [nameAt_eq_iff] at heq ⊢
            exact le_antisymm (ha c (List.mem_cons_self ..)).le (heq ▸ (hc j hj).le)
        have hcne : nameAt names c ≠ [] := hac ▸ hne
        have := (hstands c (List.mem_cons_self ..) hcne).lt
        rw [offset_of_inside hsplit hsome, hac, Nat.sub_self, Nat.zero_mod, Nat.add_zero,
          Nat.mod_eq_of_lt (by omega)]
        exact ih c (List.mem_cons_self ..) j hj hcne (hac ▸ heq)
    intro i hi j hj hne heq
    rcases List.mem_cons.mp hi with rfl | hi'
    · rcases List.mem_cons.mp hj with rfl | hj'
      · rfl
      · exact hfirst j hj' hne heq
    · rcases List.mem_cons.mp hj with rfl | hj'
      · exact (hfirst i hi' (heq ▸ hne) heq.symm).symm
      · exact ih i hi' j hj' hne heq

lemma offset_of_empty (hi : i ∈ sortedPositions names) (hempty : nameAt names i = []) :
    (buildStringTable names).2 i = 0 := by
  obtain ⟨pre, rest, hsplit⟩ := List.append_of_mem hi
  have hnone : insideOf names i = none := by
    cases rest with
    | nil => exact insideOf_of_last hsplit
    | cons c rest => rw [insideOf_of_split hsplit, if_neg fun h => h.1 hempty]
  rw [offset_of_none hnone, if_neg fun h => h.2.1 hempty]

/-- What a string table of names has to be: every name is read at its offset, the empty one at
offset 0; equal names have one offset; the blob is a NUL and then the stored names in input order,
each with its terminator; no stored name is a suffix of another. -/
structure IsStringTable (names : List (List Byte)) (table : List Byte × (ℕ → ℕ)) : Prop where
  reads : ∀ i < names.length, stringAt table.1 (table.2 i) = some (nameAt names i)
  empty : ∀ i < names.length, nameAt names i = [] → table.2 i = 0
  equal : ∀ i < names.length, ∀ j < names.length, nameAt names i = nameAt names j →
    table.2 i = table.2 j
  stored : ∃ stored : List ℕ, stored.Sublist (List.range names.length) ∧
    table.1 = 0 :: (stored.flatMap fun i => nameAt names i ++ [0]) ∧
    ∀ i ∈ stored, ∀ j ∈ stored, i ≠ j → ¬ nameAt names i <:+ nameAt names j

/-- **The string table is correct and maximally shared**, for names without NUL that fit 32 bits
together. -/
theorem buildStringTable_spec (hfits : Fits names) (hnul : ∀ name ∈ names, 0 ∉ name) :
    IsStringTable names (buildStringTable names) := by
  have hmem : ∀ i < names.length, i ∈ sortedPositions names := fun i hi =>
    (mem_sortedPositions hfits.length_lt).mpr hi
  refine ⟨fun i hi => ?_, fun i hi => offset_of_empty (hmem i hi), fun i hi j hj heq => ?_,
    storedBelow names names.length, List.filter_sublist, buildStringTable_blob,
    fun i hi j hj hne => ?_⟩
  · by_cases hempty : nameAt names i = []
    · rw [offset_of_empty (hmem i hi) hempty, buildStringTable_blob, hempty]
      simp [stringAt, blob]
    · refine (@stands_offset names _ [] hfits rfl i (hmem i hi) hempty).stringAt (hnul _ ?_)
      rw [nameAt, List.getD_eq_getElem?_getD, List.getElem?_eq_getElem hi]
      exact List.getElem_mem hi
  · by_cases hempty : nameAt names i = []
    · rw [offset_of_empty (hmem i hi) hempty, offset_of_empty (hmem j hj) (heq ▸ hempty)]
    · exact @offset_eq_of_nameAt_eq names _ [] hfits rfl i (hmem i hi) j (hmem j hj) hempty heq
  · rw [storedBelow, List.mem_filter, List.mem_range, decide_eq_true_iff] at hi hj
    exact hi.2.not_suffix hfits.length_lt hi.1 hj.1 hj.2 hne

/-- "def", "abcdef", "zz", "zz" and the empty name. -/
theorem buildStringTable_spec_shared :
    IsStringTable [[100, 101, 102], [97, 98, 99, 100, 101, 102], [122, 122], [122, 122], []]
      (buildStringTable
        [[100, 101, 102], [97, 98, 99, 100, 101, 102], [122, 122], [122, 122], []]) :=
  buildStringTable_spec (by unfold Fits; decide) (by decide)

example : (buildStringTable
    [[100, 101, 102], [97, 98, 99, 100, 101, 102], [122, 122], [113]]).1 =
      [0, 97, 98, 99, 100, 101, 102, 0, 122, 122, 0, 113, 0] := by decide

end Badc.Strtab
