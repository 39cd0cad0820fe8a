import Mathlib.Tactic
import Badc.Linker.Archive

/-!
# Archives read back

What the writer writes, the reader reads: a header's fields (`readMember_writeMember`), a member's name in either form
(`decodeName_short`, `decodeName_long`), the members in order (`walkFrom_members`) and the symbols of the index
(`memberSymbols_symbolIndex`).
-/

namespace Badc.Archive

open Attributes (Halt Run utf8 fromUtf8)

variable {a b field name : Text} {body blob pre rest : List Byte} {n k : ℕ} {w w' : Walk}

/-! ## Strings -/

lemma isUtf8_iff : isUtf8 b = true ↔ ∃ s, utf8 s = b := by
  constructor
  · intro h
    obtain ⟨s, hs⟩ := Option.isSome_iff_exists.mp h
    exact ⟨s, Attributes.utf8_of_fromUtf8 hs⟩
  · rintro ⟨s, rfl⟩
    rw [isUtf8, Attributes.fromUtf8_utf8]
    rfl

lemma isUtf8_append (ha : isUtf8 a = true) (hb : isUtf8 b = true) : isUtf8 (a ++ b) = true := by
  obtain ⟨s, rfl⟩ := isUtf8_iff.mp ha
  obtain ⟨t, rfl⟩ := isUtf8_iff.mp hb
  exact isUtf8_iff.mpr ⟨s ++ t, by simp [utf8, String.toByteArray_append]⟩

lemma isUtf8_of_ascii (h : ∀ x ∈ b, x.toNat < 128) : isUtf8 b = true := by
  induction b with
  | nil => exact isUtf8_iff.mpr ⟨"", rfl⟩
  | cons x b ih =>
    have hsingle : ∀ n < 128, utf8 (String.singleton (Char.ofNat n)) = [BitVec.ofNat 8 n] := by decide +kernel
    refine isUtf8_append (a := [x]) (isUtf8_iff.mpr ⟨_, (hsingle x.toNat (h x (.head _))).trans ?_⟩)
      (ih fun y hy => h y (.tail _ hy))
    rw [BitVec.ofNat_toNat, BitVec.setWidth_eq]

lemma fromUtf8Lossy_of_isUtf8 (h : isUtf8 b = true) : fromUtf8Lossy b = b := if_pos h

/-! ## Decimal numbers -/

lemma isDigit_ofNat (h : n < 10) : isDigit (BitVec.ofNat 8 (48 + n)) = true := by
  simp only [isDigit, BitVec.toNat_ofNat, Bool.and_eq_true, decide_eq_true_eq]
  omega

lemma toNat_digit (h : n < 10) : (BitVec.ofNat 8 (48 + n)).toNat - 48 = n := by
  rw [BitVec.toNat_ofNat]
  omega

lemma isDigit_of_mem_decimal {x : Byte} (hx : x ∈ decimal n) : isDigit x = true := by
  fun_induction decimal n with
  | case1 n h => exact List.mem_singleton.mp hx ▸ isDigit_ofNat h
  | case2 n h ih =>
    rcases List.mem_append.mp hx with hx | hx
    · exact ih hx
    · exact List.mem_singleton.mp hx ▸ isDigit_ofNat (Nat.mod_lt _ (by omega))

lemma decimal_ne_nil : decimal n ≠ [] := by
  rw [decimal]
  split <;> simp

lemma digitsValue_decimal : digitsValue (decimal n) = n := by
  fun_induction decimal n with
  | case1 n h => simpa [digitsValue] using toNat_digit h
  | case2 n h ih =>
    rw [digitsValue, List.foldl_append, ← digitsValue, ih, List.foldl_cons, List.foldl_nil,
      toNat_digit (Nat.mod_lt _ (by omega))]
    omega

/-- How many digits a number takes. -/
lemma length_decimal_le (h : n < 10 ^ (k + 1)) : (decimal n).length ≤ k + 1 := by
  induction k generalizing n with
  | zero =>
    rw [decimal, if_pos (by omega)]
    rfl
  | succ k ih =>
    rw [decimal]
    split
    · simp
    · rw [List.length_append, List.length_singleton]
      exact Nat.succ_le_succ (ih (by rw [pow_succ] at h; omega))

lemma parseUsize_decimal (h : n < 2 ^ 64) : parseUsize (decimal n) = some n := by
  have hplus : (decimal n).head? ≠ some 43 := fun hhead => by
    have := isDigit_of_mem_decimal (List.mem_of_mem_head? hhead)
    exact absurd this (by decide)
  rw [parseUsize]
  simp only [hplus, if_false, digitsValue_decimal]
  exact if_pos ⟨decimal_ne_nil, List.all_eq_true.mpr fun x hx => isDigit_of_mem_decimal hx, h⟩

/-- A text whose ends are digits has nothing to trim. -/
lemma trim_of_digits (h : ∀ x ∈ b, isDigit x = true) : trim b = b := by
  have hfront : ∀ (chars : List Text) (fuel : ℕ) (b : Text), (∀ x ∈ b, isDigit x = true) →
      (∀ c ∈ chars, c.head?.any isDigit = false ∧ c ≠ []) → trimFront chars fuel b = b := by
    intro chars fuel b hb hchars
    cases fuel with
    | zero => rfl
    | succ fuel =>
      rw [trimFront, List.find?_eq_none.mpr fun c hc hpre => ?_]
      obtain ⟨hdigit, hne⟩ := hchars c hc
      obtain ⟨d, ds, rfl⟩ := List.exists_cons_of_ne_nil hne
      obtain ⟨t, rfl⟩ := List.isPrefixOf_iff_prefix.mp hpre
      rw [List.head?_cons, Option.any_some, hb d (by simp)] at hdigit
      cases hdigit
  rw [trim, hfront whitespace _ b h (by decide), hfront _ _ b.reverse (fun x hx => h x (List.mem_reverse.mp hx)) (by decide),
    List.reverse_reverse]

/-! ## Headers -/

@[simp] lemma length_padTo : (padTo n b).length = n := by
  rw [padTo, List.length_append, List.length_take, List.length_replicate]
  omega

@[simp] lemma length_arHeader : (arHeader field n).length = 60 := by simp [arHeader]

@[simp] lemma length_writeMember : (writeMember field body).length = 60 + padded body.length := by
  rw [writeMember, List.length_append, List.length_append, length_arHeader, padded]
  split <;> rename_i h
  · rw [h]
    rfl
  · rw [List.length_singleton]
    omega

lemma slice_append {a b c : List Byte} {i j : ℕ} (hi : a.length = i) (hj : i + b.length = j) :
    slice (a ++ (b ++ c)) i j = b := by
  rw [slice, List.drop_left' hi, List.take_left' (by omega)]

/-- What a field was padded from. -/
lemma trimAscii_padTo (hlen : b.length ≤ n) (hutf : isUtf8 b = true) (hlast : b.getLast? ≠ some 32) :
    trimAscii (padTo n b) = b := by
  have hblanks : ∀ k, (b ++ List.replicate k 32).rdropWhile (· == 32) = b := by
    intro k
    induction k with
    | zero =>
      rw [List.replicate_zero, List.append_nil, List.rdropWhile_eq_self_iff]
      intro hne hblank
      refine hlast ?_
      rw [List.getLast?_eq_some_getLast hne, beq_iff_eq.mp hblank]
    | succ k ih =>
      rw [List.replicate_succ', ← List.append_assoc, List.rdropWhile_concat_pos _ _ _ rfl, ih]
  rw [trimAscii, padTo, List.take_of_length_le hlen, hblanks, fromUtf8Lossy_of_isUtf8 hutf]

/-- A header is read back. -/
lemma readHeader_arHeader (pre rest : List Byte) (field : Text) (n : ℕ) : ∃ h, readHeader (pre ++ (arHeader field n ++ rest)) pre.length = .ok h ∧
    h.name = padTo 16 field ∧ h.size = padTo 10 (decimal n) ∧ h.fmag = [0x60, 0x0A] := by
  rw [readHeader, if_neg (by simp [arHeaderSize])]
  refine ⟨_, rfl, ?_, ?_, ?_⟩
  all_goals dsimp only; rw [List.drop_left]; unfold arHeader; simp only [List.append_assoc]
  · exact slice_append (a := []) rfl (by simp)
  · rw [← List.append_assoc, ← List.append_assoc, ← List.append_assoc, ← List.append_assoc]
    exact slice_append (by simp) (by simp)
  · rw [← List.append_assoc, ← List.append_assoc, ← List.append_assoc, ← List.append_assoc, ← List.append_assoc]
    exact slice_append (by simp) (by simp)

/-- A name field as the writer writes it: it fits, it is a string, and it ends with no blank. -/
structure IsField (field : Text) : Prop where
  length_le : field.length ≤ 16
  utf8 : isUtf8 field = true
  last : field.getLast? ≠ some 32

/-- A member is read back where the walk stands at it. -/
lemma readMember_writeMember (hf : IsField field) (hsize : body.length < 10 ^ 10)
    (hlen : (pre ++ (writeMember field body ++ rest)).length < 2 ^ 63) (hcur : w.cursor = pre.length) :
    readMember (pre ++ (writeMember field body ++ rest)) false w =
      takeMember false { w with cursor := pre.length + 60 + body.length } pre.length field body := by
  have hbytes : writeMember field body ++ rest =
      arHeader field body.length ++ (body ++ ((if body.length % 2 = 0 then [] else [10]) ++ rest)) := by
    simp only [writeMember, List.append_assoc]
  rw [hbytes] at hlen ⊢
  generalize (if body.length % 2 = 0 then [] else [10]) ++ rest = rest at hlen
  obtain ⟨h, hread, hname, hsz, hmag⟩ := readHeader_arHeader pre (body ++ rest) field body.length
  have hdec : parseDec (trimAscii h.size) = .ok body.length := by
    rw [hsz, trimAscii_padTo (length_decimal_le (k := 9) hsize)
      (isUtf8_of_ascii fun x hx => by
        have := isDigit_of_mem_decimal hx
        simp only [isDigit, Bool.and_eq_true, decide_eq_true_eq] at this
        omega)
      fun hlast => by
        have := isDigit_of_mem_decimal (List.mem_of_getLast? hlast)
        exact absurd this (by decide)]
    have hlt : body.length < 2 ^ 64 := hsize.trans (by decide)
    simp only [parseDec, trim_of_digits fun x hx => isDigit_of_mem_decimal hx, decimal_ne_nil, if_false,
      parseUsize_decimal hlt]
  have hraw : trimAscii h.name = field := by rw [hname, trimAscii_padTo hf.length_le hf.utf8 hf.last]
  simp only [List.length_append, length_arHeader] at hlen
  have hcursor : add pre.length arHeaderSize = .ok (pre.length + 60) := if_pos (by rw [arHeaderSize]; omega)
  have hstop : add (pre.length + 60) body.length = .ok (pre.length + 60 + body.length) := if_pos (by omega)
  have hslice : slice (pre ++ (arHeader field body.length ++ (body ++ rest))) (pre.length + 60)
      (pre.length + 60 + body.length) = body := by
    rw [← List.append_assoc]
    exact slice_append (by simp) rfl
  have hfits : ¬ (pre ++ (arHeader field body.length ++ (body ++ rest))).length < pre.length + 60 + body.length := by
    simp only [List.length_append, length_arHeader]
    omega
  simp only [readMember, hcur, hread, hmag, hdec, hraw, hcursor, hstop, hslice, hfits, bind, Except.bind, ne_eq,
    not_true, if_false, Bool.false_eq_true, not_false_iff, true_or, if_true]

/-! ## Names -/

/-- What the claim asks of a name: it is a string, not empty, without slash, newline and NUL, and not the BSD index's;
and not `#1`, whose name field is the one of an inline name. -/
structure IsName (name : Text) : Prop where
  utf8 : isUtf8 name = true
  ne_nil : name ≠ []
  slash : 47 ∉ name
  newline : 10 ∉ name
  nul : 0 ∉ name
  index : isBsdSymbolIndex name = false
  inline : name ≠ ascii "#1"

/-- A short name. -/
lemma decodeName_short (hn : IsName name) (table body : List Byte) :
    decodeName table (name ++ ascii "/") body = .ok (name, body) := by
  have hinline : stripPrefix (name ++ ascii "/") (ascii "#1/") = none := by
    refine if_neg fun hpre => ?_
    obtain ⟨t, ht⟩ := List.isPrefixOf_iff_prefix.mp hpre
    have hslash := hn.slash
    rcases name with _ | ⟨x, _ | ⟨y, _ | ⟨z, l⟩⟩⟩
    · exact hn.ne_nil rfl
    · simp [ascii] at ht
    · refine hn.inline ?_
      simp only [ascii, List.cons_append] at ht
      simp_all [ascii]
    · simp [ascii] at ht
      simp [ht] at hslash
  have hslash : stripPrefix (name ++ ascii "/") (ascii "/") = none := by
    refine if_neg fun hpre => ?_
    obtain ⟨t, ht⟩ := List.isPrefixOf_iff_prefix.mp hpre
    obtain ⟨x, l, rfl⟩ := List.exists_cons_of_ne_nil hn.ne_nil
    have hx : x = 47 := (List.cons.inj ht).1.symm
    exact hn.slash (hx ▸ (.head _))
  have hsuffix : stripSuffix (name ++ ascii "/") (ascii "/") = some name := by
    rw [stripSuffix, if_pos (List.isSuffixOf_iff_suffix.mpr (List.suffix_append _ _)), List.length_append,
      Nat.add_sub_cancel, List.take_left]
  rw [decodeName, hinline, hslash, hsuffix]
  rfl

/-- A long name, behind the earlier ones of the table. -/
lemma decodeName_long (hn : IsName name) {more : List Byte} (hpre : pre.length < 2 ^ 64) (body : List Byte) :
    decodeName (pre ++ (name ++ 10 :: more)) (ascii "/" ++ decimal pre.length) body = .ok (name, body) := by
  have hinline : stripPrefix (ascii "/" ++ decimal pre.length) (ascii "#1/") = none := if_neg (by simp [ascii])
  have hslash : stripPrefix (ascii "/" ++ decimal pre.length) (ascii "/") = some (decimal pre.length) := by
    rw [stripPrefix, if_pos (List.isPrefixOf_iff_prefix.mpr (List.prefix_append _ _)), List.drop_left]
  have hdigits : (decimal pre.length).takeWhile isDigit = decimal pre.length :=
    List.takeWhile_eq_self_iff.mpr fun x hx => isDigit_of_mem_decimal hx
  have hfind : (name ++ 10 :: more).findIdx? (fun b => b == 10 || b == 0) = some name.length := by
    have hnone : name.findIdx? (fun b => b == 10 || b == 0) = none := by
      rw [List.findIdx?_eq_none_iff]
      intro x hx
      have h10 : x ≠ 10 := fun h => hn.newline (h ▸ hx)
      have h0 : x ≠ 0 := fun h => hn.nul (h ▸ hx)
      exact Bool.or_eq_false_iff.mpr ⟨beq_eq_false_iff_ne.mpr h10, beq_eq_false_iff_ne.mpr h0⟩
    rw [List.findIdx?_append, hnone, Option.none_or, List.findIdx?_cons, if_pos (by decide), Option.map_some,
      Nat.zero_add]
  have hsuffix : stripSuffix name [47] = none := by
    refine if_neg fun hsuf => ?_
    exact hn.slash ((List.isSuffixOf_iff_suffix.mp hsuf).subset (List.mem_singleton.mpr rfl))
  have hslice : slice (pre ++ (name ++ 10 :: more)) pre.length (pre.length + name.length) = name :=
    slice_append rfl rfl
  have hlong : extractLongName (pre ++ (name ++ 10 :: more)) pre.length = .ok name := by
    rw [extractLongName, if_neg (by simp), List.drop_left, hfind]
    simp only [hslice, hsuffix, Option.getD_none, hn.utf8, if_true]
  simp only [decodeName, hinline, hslash, hdigits, parseUsize_decimal hpre, hlong]
  rfl

/-- The names of the index and of the table of long names. -/
def metaNames : List Text := [ascii "/", ascii "/SYM64/", ascii "/<ECSYMBOLS>/", ascii "//"]

lemma takeMember_of_name {raw : Text} (at_ : ℕ) (hraw : raw ∉ metaNames)
    (hname : decodeName w.longNames raw body = .ok (name, body)) (hindex : isBsdSymbolIndex name = false) :
    takeMember false w at_ raw body = .ok { w with members := w.members ++ [(name, .inline body, at_)] } := by
  simp only [metaNames, List.mem_cons, List.not_mem_nil, or_false, not_or] at hraw
  obtain ⟨h1, h2, h3, h4⟩ := hraw
  simp only [takeMember, h1, h2, h3, h4, or_false, if_false, hname, bind, Except.bind, hindex, Bool.false_eq_true,
    pure, Except.pure]

/-- The field of a short name. -/
lemma isField_short (hn : IsName name) (hlen : name.length ≤ 15) :
    IsField (name ++ ascii "/") ∧ name ++ ascii "/" ∉ metaNames := by
  refine ⟨⟨?_, isUtf8_append hn.utf8 (isUtf8_of_ascii (by decide)), ?_⟩, fun hmem => ?_⟩
  · rw [List.length_append]
    exact Nat.succ_le_succ hlen
  · rw [show ascii "/" = [47] from rfl, List.getLast?_concat]
    decide
  · have hhead : ∀ s ∈ metaNames, s.head? = some 47 := by decide
    obtain ⟨x, l, rfl⟩ := List.exists_cons_of_ne_nil hn.ne_nil
    have hx : x = 47 := Option.some.inj (hhead _ hmem)
    exact hn.slash (hx ▸ (.head _))

/-- The field of a long name. -/
lemma isField_long (hn : n < 10 ^ 15) :
    IsField (ascii "/" ++ decimal n) ∧ ascii "/" ++ decimal n ∉ metaNames := by
  refine ⟨⟨?_, ?_, ?_⟩, fun hmem => ?_⟩
  · rw [List.length_append, Nat.add_comm]
    exact Nat.succ_le_succ (length_decimal_le (k := 14) hn)
  · refine isUtf8_append (isUtf8_of_ascii (by decide)) (isUtf8_of_ascii fun x hx => ?_)
    have := isDigit_of_mem_decimal hx
    simp only [isDigit, Bool.and_eq_true, decide_eq_true_eq] at this
    omega
  · rw [List.getLast?_append_of_ne_nil _ decimal_ne_nil]
    intro hlast
    exact absurd (isDigit_of_mem_decimal (List.mem_of_getLast? hlast)) (by decide)
  · have hdigit : ∀ s ∈ metaNames, s.tail.head?.any isDigit = false := by decide
    have := hdigit _ hmem
    obtain ⟨d, ds, hd⟩ := List.exists_cons_of_ne_nil (decimal_ne_nil (n := n))
    rw [show (ascii "/" ++ decimal n).tail = decimal n from rfl, hd, List.head?_cons, Option.any_some,
      isDigit_of_mem_decimal (n := n) (by rw [hd]; exact .head _)] at this
    cases this

/-! ## The walk -/

/-- The walk takes the member it stands at. -/
lemma walkFrom_writeMember {fuel : ℕ} (hf : IsField field) (hsize : body.length < 10 ^ 10)
    (hlen : (pre ++ (writeMember field body ++ rest)).length < 2 ^ 63) (hcur : w.cursor + w.cursor % 2 = pre.length)
    (htake : takeMember false { w with cursor := pre.length + 60 + body.length } pre.length field body = .ok w') :
    walkFrom (pre ++ (writeMember field body ++ rest)) false (fuel + 1) w =
      walkFrom (pre ++ (writeMember field body ++ rest)) false fuel w' := by
  have hle : ¬ (pre ++ (writeMember field body ++ rest)).length ≤ pre.length := by
    rw [List.length_append, List.length_append, length_writeMember]
    omega
  rw [walkFrom, if_neg (fun h => hle (by omega))]
  simp only [hcur, hle, if_false]
  rw [readMember_writeMember (w := { w with cursor := pre.length }) hf hsize hlen rfl, htake]
  rfl

lemma cursor_writeMember (hcur : n + n % 2 = pre.length) (field : Text) (body : List Byte) :
    pre.length + 60 + body.length + (pre.length + 60 + body.length) % 2 = (pre ++ writeMember field body).length := by
  rw [List.length_append, length_writeMember, padded]
  omega

lemma walkFrom_end {fuel : ℕ} (hcur : w.cursor + w.cursor % 2 = blob.length) :
    ∃ w', walkFrom blob false (fuel + 1) w = .ok w' ∧ w'.members = w.members ∧ w'.index = w.index := by
  rw [walkFrom]
  split
  · exact ⟨w, rfl, rfl, rfl⟩
  · exact ⟨_, if_pos hcur.ge, rfl, rfl⟩

/-- The members' chunks. -/
def chunks (ms : List ArchiveMember) (forms : List Text) : List Byte :=
  (List.zipWith (fun m form => writeMember form m.bytes) ms forms).flatten

/-- The table of long names only grows. -/
lemma nameForms_table (ms : List ArchiveMember) (table : List Byte) :
    ∃ more, (nameForms ms table).2 = table ++ more := by
  induction ms generalizing table with
  | nil => exact ⟨[], (List.append_nil _).symm⟩
  | cons m ms ih =>
    rw [nameForms]
    split
    · exact ih table
    · obtain ⟨more, hmore⟩ := ih (table ++ m.name ++ [10])
      refine ⟨m.name ++ [10] ++ more, ?_⟩
      show (nameForms ms (table ++ m.name ++ [10])).2 = _
      rw [hmore]
      simp only [List.append_assoc]

/-- The walk reads the members in order, each with its name, its bytes and its header's offset. -/
lemma walkFrom_members {ms : List ArchiveMember} {table : List Byte} {fuel : ℕ}
    (hn : ∀ m ∈ ms, IsName m.name ∧ m.bytes.length < 10 ^ 10) (hw : w.longNames = (nameForms ms table).2)
    (htable : w.longNames.length < 10 ^ 10) (hcur : w.cursor + w.cursor % 2 = pre.length)
    (hlen : (pre ++ chunks ms (nameForms ms table).1).length < 2 ^ 63) (hfuel : ms.length < fuel) :
    ∃ w', walkFrom (pre ++ chunks ms (nameForms ms table).1) false fuel w = .ok w' ∧
      w'.members = w.members ++ List.zipWith (fun m at_ => (m.name, .inline m.bytes, at_)) ms
        (headersFrom pre.length (ms.map (·.bytes.length))) ∧ w'.index = w.index := by
  induction ms generalizing table fuel w pre with
  | nil =>
    obtain ⟨fuel, rfl⟩ := Nat.exists_eq_add_of_lt hfuel
    simp only [chunks, List.zipWith_nil_left, List.flatten_nil, List.append_nil]
    exact walkFrom_end hcur
  | cons m ms ih =>
    obtain ⟨fuel, rfl⟩ : ∃ k, fuel = k + 1 := ⟨fuel - 1, by simp only [List.length_cons] at hfuel; omega⟩
    obtain ⟨hname, hbytes⟩ := hn m (.head _)
    -- The name field of the member, and the table behind it.
    obtain ⟨form, table', hforms, hfield, hmeta, hdecode⟩ : ∃ form table',
        nameForms (m :: ms) table = (form :: (nameForms ms table').1, (nameForms ms table').2) ∧ IsField form ∧
          form ∉ metaNames ∧ decodeName w.longNames form m.bytes = .ok (m.name, m.bytes) := by
      rw [nameForms] at hw ⊢
      split at hw
      · rename_i hshort
        rw [if_pos hshort]
        obtain ⟨hf, hm⟩ := isField_short hname hshort
        exact ⟨_, table, rfl, hf, hm, decodeName_short hname _ _⟩
      · rename_i hlong
        rw [if_neg hlong]
        obtain ⟨more, hmore⟩ := nameForms_table ms (table ++ m.name ++ [10])
        have htab : w.longNames = table ++ (m.name ++ 10 :: more) := by
          rw [hw]
          show (nameForms ms (table ++ m.name ++ [10])).2 = _
          rw [hmore]
          simp only [List.append_assoc, List.singleton_append]
        have hle : table.length < 10 ^ 10 := by
          rw [htab, List.length_append] at htable
          omega
        obtain ⟨hf, hm⟩ := isField_long (n := table.length) (hle.trans (by decide))
        exact ⟨_, _, rfl, hf, hm, by rw [htab]; exact decodeName_long hname (hle.trans (by decide)) _⟩
    have hchunks : chunks (m :: ms) (nameForms (m :: ms) table).1 =
        writeMember form m.bytes ++ chunks ms (nameForms ms table').1 := by
      rw [hforms]
      rfl
    rw [hchunks] at hlen ⊢
    have htake := takeMember_of_name (w := { w with cursor := pre.length + 60 + m.bytes.length })
      pre.length hmeta hdecode hname.index
    rw [walkFrom_writeMember hfield hbytes hlen hcur htake]
    rw [← List.append_assoc] at hlen ⊢
    have hfuel' : ms.length < fuel := by simpa using hfuel
    obtain ⟨w', hw', hmembers, hindex⟩ := @ih (pre ++ writeMember form m.bytes)
      { w with
        cursor := pre.length + 60 + m.bytes.length
        members := w.members ++ [(m.name, .inline m.bytes, pre.length)] } table' fuel
      (fun m' hm' => hn m' (.tail _ hm')) (by rw [← congrArg Prod.snd hforms]; exact hw) htable
      (cursor_writeMember hcur form m.bytes) hlen hfuel'
    refine ⟨w', hw', ?_, hindex⟩
    rw [hmembers, List.append_assoc]
    congr 1
    simp only [List.map_cons, headersFrom, List.zipWith_cons_cons, List.singleton_append, List.length_append,
      length_writeMember, arHeaderSize, Nat.add_assoc]

/-! ## The symbol index -/

variable {wide : Bool} {entries : List (ℕ × Text)}

/-- The bytes of a number of the index. -/
abbrev width (wide : Bool) : ℕ := if wide then 8 else 4

@[simp] lemma length_number : (number wide n).length = width wide := by simp [number]

/-- The size of the index is what the layout reckons with. -/
lemma length_symbolIndex : (symbolIndex wide entries).2.length =
    indexSize wide (width wide * (1 + entries.length) + (entries.map fun e : ℕ × Text => e.2.length + 1).sum) := by
  have hraw : (number wide entries.length ++ entries.flatMap (fun e : ℕ × Text => number wide e.1) ++
      entries.flatMap fun e : ℕ × Text => e.2 ++ [0]).length =
      width wide * (1 + entries.length) + (entries.map fun e : ℕ × Text => e.2.length + 1).sum := by
    simp only [List.length_append, length_number, List.length_flatMap, List.length_cons, List.length_nil, zero_add,
      List.map_const', List.sum_replicate, smul_eq_mul]
    ring
  have hle : ∀ n, n ≤ indexSize wide n := fun n => by
    unfold indexSize
    split <;> omega
  rw [symbolIndex, List.length_append, List.length_replicate, hraw]
  have := hle (width wide * (1 + entries.length) + (entries.map fun e : ℕ × Text => e.2.length + 1).sum)
  omega

/-- A number of the index is read back. -/
lemma num_number (hn : n < 256 ^ width wide) (hpre : pre.length = k) :
    num (pre ++ (number wide n ++ rest)) k (width wide) true = some n := by
  have hslice : slice (pre ++ (number wide n ++ rest)) k (k + width wide) = number wide n :=
    slice_append hpre (by rw [length_number])
  rw [num, if_pos (by simp only [List.length_append, length_number]; omega), if_pos rfl, hslice, number,
    List.reverse_reverse]
  refine congrArg some ((leNat_of_bytes (x := n) fun j hj => ?_).trans (Nat.mod_eq_of_lt hn))
  have hj : j < (leBytes (width wide) n).length := by simpa using hj
  rw [Nat.zero_add, ← width, List.getD_eq_getElem?_getD, List.getElem?_eq_getElem hj, Option.getD_some]
  simp [leBytes]

/-- Numbers in a row are read back each. -/
lemma num_flatMap {f : ℕ × Text → ℕ} {l : List (ℕ × Text)} (hl : ∀ e ∈ l, f e < 256 ^ width wide) {j : ℕ}
    {e : ℕ × Text} (he : l[j]? = some e) (hpre : pre.length = width wide * k) :
    num (pre ++ (l.flatMap (fun e : ℕ × Text => number wide (f e)) ++ rest)) (width wide * (k + j)) (width wide) true =
      some (f e) := by
  induction l generalizing pre j k with
  | nil => cases he
  | cons e' l ih =>
    rw [List.flatMap_cons, List.append_assoc]
    cases j with
    | zero =>
      obtain rfl := Option.some.inj he
      exact num_number (hl _ (.head _)) hpre
    | succ j =>
      rw [← List.append_assoc, ← Nat.add_assoc, Nat.add_right_comm]
      refine ih (fun e he => hl e (.tail _ he)) he ?_
      rw [List.length_append, length_number, hpre, Nat.mul_succ]

/-- A name of the index is read back. -/
lemma cstr_append (hutf : isUtf8 name = true) (hnul : 0 ∉ name) (hpre : pre.length = k) :
    cstr (pre ++ (name ++ 0 :: rest)) k = some name := by
  have hfind : (name ++ 0 :: rest).findIdx? (· == 0) = some name.length := by
    have hnone : name.findIdx? (· == 0) = none := by
      rw [List.findIdx?_eq_none_iff]
      intro x hx
      have h0 : x ≠ 0 := fun h => hnul (h ▸ hx)
      exact beq_eq_false_iff_ne.mpr h0
    rw [List.findIdx?_append, hnone, Option.none_or, List.findIdx?_cons, if_pos (by decide), Option.map_some,
      Nat.zero_add]
  rw [cstr, if_pos (by simp only [List.length_append]; omega), List.drop_left' hpre, hfind, Option.map_some,
    List.take_left, fromUtf8Lossy_of_isUtf8 hutf]

/-- The entries of the index are read back. -/
lemma sysVEntries_flatMap {l : List (ℕ × Text)} (hl : ∀ e ∈ l, isUtf8 e.2 = true ∧ 0 ∉ e.2)
    (hnum : ∀ j e, l[j]? = some e →
      num (pre ++ (l.flatMap (fun e : ℕ × Text => e.2 ++ [0]) ++ rest)) (width wide * (k + j + 1)) (width wide) true = some e.1)
    (hlen : (pre ++ (l.flatMap (fun e : ℕ × Text => e.2 ++ [0]) ++ rest)).length < 2 ^ 63) :
    sysVEntries (pre ++ (l.flatMap (fun e : ℕ × Text => e.2 ++ [0]) ++ rest)) (width wide) l.length k pre.length = .ok l := by
  induction l generalizing pre k with
  | nil => rfl
  | cons e l ih =>
    obtain ⟨hutf, hnul⟩ := hl e (.head _)
    have hbytes : pre ++ ((e :: l).flatMap (fun e : ℕ × Text => e.2 ++ [0]) ++ rest) =
        pre ++ (e.2 ++ 0 :: (l.flatMap (fun e : ℕ × Text => e.2 ++ [0]) ++ rest)) := by
      simp only [List.flatMap_cons, List.append_assoc, List.cons_append, List.nil_append]
    have hnext : pre ++ (e.2 ++ 0 :: (l.flatMap (fun e : ℕ × Text => e.2 ++ [0]) ++ rest)) =
        (pre ++ (e.2 ++ [0])) ++ (l.flatMap (fun e : ℕ × Text => e.2 ++ [0]) ++ rest) := by
      simp only [List.append_assoc, List.cons_append, List.nil_append]
    rw [hbytes] at hnum hlen ⊢
    have hcstr : cstr (pre ++ (e.2 ++ 0 :: (l.flatMap (fun e : ℕ × Text => e.2 ++ [0]) ++ rest))) pre.length = some e.2 :=
      cstr_append hutf hnul rfl
    have hfirst := hnum 0 e rfl
    rw [Nat.add_zero] at hfirst
    simp only [List.length_append, List.length_cons] at hlen
    have hplus : plus pre.length e.2.length = .ok (pre.length + e.2.length) := if_pos (by omega)
    have hplus' : plus (pre.length + e.2.length) 1 = .ok (pre.length + e.2.length + 1) := if_pos (by omega)
    have hrest := @ih (pre ++ (e.2 ++ [0])) (k + 1) (fun e he => hl e (.tail _ he))
      (fun j e' he' => by
        rw [← hnext, Nat.add_right_comm k 1 j]
        exact hnum (j + 1) e' he')
      (by simp only [List.length_append, List.length_singleton]; omega)
    have hlength : (pre ++ (e.2 ++ [0])).length = pre.length + e.2.length + 1 := by
      simp only [List.length_append, List.length_singleton, Nat.add_assoc]
    rw [← hnext, hlength] at hrest
    simp only [List.length_cons, sysVEntries, hcstr, need, Option.elim_some, bind, Except.bind, hplus, hplus', hfirst,
      hrest, pure, Except.pure]

/-- The symbols listed for a member. -/
def symbolsOf (symbols : List (ℕ × List Text)) (i : ℕ) : List Text := (symbols.filter (·.1 = i)).flatMap (·.2)

/-- A name pushed for each entry, in order. -/
lemma foldl_push (names : List (ℕ × Text)) (out : List (List Text)) :
    names.foldl (fun out n => out.modify n.1 (· ++ [n.2])) out =
      out.mapIdx fun i l => l ++ (names.filter (·.1 = i)).map (·.2) := by
  induction names generalizing out with
  | nil => exact List.ext_getElem? fun i => by simp
  | cons n names ih =>
    rw [List.foldl_cons, ih]
    refine List.ext_getElem? fun i => ?_
    rw [List.getElem?_mapIdx, List.getElem?_mapIdx, List.getElem?_modify]
    by_cases hi : n.1 = i
    · simp [hi, Option.map_map, Function.comp_def]
    · simp [hi]

/-- The entries of a member are the symbols listed for it. -/
lemma filter_symbolNames (symbols : List (ℕ × List Text)) (i : ℕ) :
    ((symbolNames symbols).filter (·.1 = i)).map (·.2) = symbolsOf symbols i := by
  induction symbols with
  | nil => rfl
  | cons s symbols ih =>
    have hcons : symbolNames (s :: symbols) = s.2.map (fun n => (s.1, n)) ++ symbolNames symbols := rfl
    rw [hcons, List.filter_append, List.map_append, ih, symbolsOf, symbolsOf, List.filter_cons, List.filter_map]
    by_cases hs : s.1 = i
    · simp [hs, Function.comp_def]
    · simp [hs, Function.comp_def]

/-- The index gives each member its names. -/
lemma memberSymbols_symbolIndex (wide : Bool) {names : List (ℕ × Text)} (headers : List ℕ)
    (hnames : ∀ n ∈ names, n.1 < headers.length ∧ isUtf8 n.2 = true ∧ 0 ∉ n.2) (hnodup : headers.Nodup)
    (hheaders : ∀ n ∈ names, headers.getD n.1 0 < 256 ^ width wide) (hcount : names.length < 256 ^ width wide)
    (hlen : (symbolIndex wide (names.map fun n => (headers.getD n.1 0, n.2))).2.length < 2 ^ 63) :
    memberSymbols (.sysV wide) (symbolIndex wide (names.map fun n => (headers.getD n.1 0, n.2))).2 headers =
      if names = [] then .error (.err ())
      else .ok ((List.range headers.length).map fun i => (names.filter (·.1 = i)).map (·.2)) := by
  generalize hentries : names.map (fun n => (headers.getD n.1 0, n.2)) = entries at hlen
  have hlength : entries.length = names.length := by rw [← hentries, List.length_map]
  have hmem : ∀ e ∈ entries, e.1 < 256 ^ width wide ∧ isUtf8 e.2 = true ∧ 0 ∉ e.2 := by
    intro e he
    rw [← hentries] at he
    obtain ⟨n, hn, rfl⟩ := List.mem_map.mp he
    exact ⟨hheaders n hn, (hnames n hn).2⟩
  -- The body is the count, the offsets, the names and a padding.
  obtain ⟨pad, hbody⟩ : ∃ pad, (symbolIndex wide entries).2 = number wide entries.length ++
      (entries.flatMap (fun e : ℕ × Text => number wide e.1) ++ (entries.flatMap (fun e : ℕ × Text => e.2 ++ [0]) ++ pad)) :=
    ⟨_, by simp only [symbolIndex, List.append_assoc]; rfl⟩
  have hcountRead : num (symbolIndex wide entries).2 0 (width wide) true = some entries.length := by
    rw [hbody]
    exact num_number (hlength ▸ hcount) (rfl : ([] : List Byte).length = 0)
  have hoffsets : (number wide entries.length ++ entries.flatMap fun e : ℕ × Text => number wide e.1).length =
      width wide * (entries.length + 1) := by
    simp only [List.length_append, length_number, List.length_flatMap, List.map_const', List.sum_replicate, smul_eq_mul]
    ring
  have hle : width wide * (entries.length + 1) < 2 ^ 63 := by
    refine lt_of_le_of_lt ?_ hlen
    rw [hbody, ← List.append_assoc, List.length_append, hoffsets]
    exact Nat.le_add_right _ _
  have hentriesRead : sysVEntries (symbolIndex wide entries).2 (width wide) entries.length 0
      (width wide * (entries.length + 1)) = .ok entries := by
    have hnum : ∀ j e, entries[j]? = some e →
        num (symbolIndex wide entries).2 (width wide * (0 + j + 1)) (width wide) true = some e.1 := by
      intro j e he
      rw [hbody, Nat.add_comm (0 + j) 1, Nat.zero_add]
      exact num_flatMap (f := Prod.fst) (fun e he => (hmem e he).1) he (by rw [length_number, Nat.mul_one])
    rw [hbody, ← List.append_assoc] at hnum hlen ⊢
    rw [← hoffsets]
    exact sysVEntries_flatMap (fun e he => (hmem e he).2) hnum hlen
  have hstart : ((fits (entries.length + 1)).map (width wide * ·)).bind fits =
      some (width wide * (entries.length + 1)) := by
    have hpos : 1 ≤ width wide := by unfold width; split <;> decide
    have h1 : entries.length + 1 < 2 ^ 64 := by
      have := Nat.le_mul_of_pos_left (entries.length + 1) hpos
      omega
    rw [fits, if_pos h1, Option.map_some, Option.bind_some, fits, if_pos (by omega)]
  have hfold : ∀ (names : List (ℕ × Text)) (out : List (List Text)), (∀ n ∈ names, n.1 < headers.length) →
      (names.map fun n => (headers.getD n.1 0, n.2)).foldlM (fun out e => do
        return out.modify (← need (headers.idxOf? e.1)) (· ++ [e.2])) out =
        (Except.ok (names.foldl (fun out n => out.modify n.1 (· ++ [n.2])) out) : Run Unit (List (List Text))) := by
    intro names
    induction names with
    | nil => exact fun _ _ => rfl
    | cons n names ih =>
      intro out hn
      have hi := hn n (.head _)
      have hidx : headers.idxOf? (headers.getD n.1 0) = some n.1 := by
        rw [List.getD_eq_getElem?_getD, List.getElem?_eq_getElem hi, Option.getD_some,
          List.idxOf?_eq_some_iff.mpr ⟨hi, rfl, fun j hj heq => ?_⟩]
        exact hj.ne (hnodup.getElem_inj_iff.mp heq)
      simp only [List.map_cons, List.foldlM_cons, hidx, need, Option.elim_some, bind, Except.bind, pure, Except.pure,
        List.foldl_cons]
      exact ih _ fun n hn' => hn n (.tail _ hn')
  have hnil : entries = [] ↔ names = [] := by rw [← hentries, List.map_eq_nil_iff]
  simp only [memberSymbols, indexEntries, hcountRead, need, Option.elim_some, bind, Except.bind, hstart, hentriesRead, hnil]
  split
  · rfl
  · rw [← hentries]
    refine (hfold names _ fun n hn => (hnames n hn).1).trans (congrArg Except.ok ?_)
    rw [foldl_push]
    exact List.ext_getElem (by simp) fun i _ _ => by simp

/-! ## The layout -/

variable {members : List ArchiveMember} {symbols : List (ℕ × List Text)} {sizes : List ℕ} {at_ : ℕ}

@[simp] lemma length_headersFrom : (headersFrom at_ sizes).length = sizes.length := by
  induction sizes generalizing at_ with
  | nil => rfl
  | cons size sizes ih => simp [headersFrom, ih]

/-- The headers lie between the start and the end of the members. -/
lemma mem_headersFrom {h : ℕ} (hh : h ∈ headersFrom at_ sizes) :
    at_ ≤ h ∧ h < at_ + (sizes.map fun size => arHeaderSize + padded size).sum := by
  induction sizes generalizing at_ with
  | nil => cases hh
  | cons size sizes ih =>
    rw [List.map_cons, List.sum_cons]
    rcases List.mem_cons.mp hh with rfl | hh
    · refine ⟨le_rfl, ?_⟩
      simp only [arHeaderSize]
      omega
    · have := ih hh
      omega

lemma nodup_headersFrom : (headersFrom at_ sizes).Nodup := by
  induction sizes generalizing at_ with
  | nil => exact .nil
  | cons size sizes ih =>
    refine List.nodup_cons.mpr ⟨fun hmem => ?_, ih⟩
    have := (mem_headersFrom hmem).1
    simp only [arHeaderSize] at this
    omega

/-- Where the members start. -/
def membersStart (members : List ArchiveMember) (symbols : List (ℕ × List Text)) : ℕ :=
  8 + arHeaderSize + padded (indexOf members symbols).2.length +
    if 0 < (nameForms members []).2.length then arHeaderSize + padded (nameForms members []).2.length else 0

lemma indexLayout_headers (names : List (ℕ × Text)) (sizes : List ℕ) (longNames : ℕ) :
    (indexLayout names sizes longNames).2 =
      indexHeaders names sizes longNames (indexLayout names sizes longNames).1 := by
  unfold indexLayout
  dsimp only
  split <;> rfl

lemma layoutOf_headers : (layoutOf members symbols).2 =
    headersFrom (membersStart members symbols) (members.map (·.bytes.length)) := by
  have hlen : (indexOf members symbols).2.length = indexSize (layoutOf members symbols).1
      (width (layoutOf members symbols).1 * (1 + (symbolNames symbols).length) +
        ((symbolNames symbols).map fun n => n.2.length + 1).sum) := by
    rw [indexOf, length_symbolIndex, List.length_map, List.map_map]
    rfl
  rw [layoutOf, indexLayout_headers, membersStart, hlen]
  rfl

/-- How long the members are. -/
lemma length_chunks {forms : List Text} (h : forms.length = members.length) : (chunks members forms).length =
    ((members.map (·.bytes.length)).map fun size => arHeaderSize + padded size).sum := by
  induction members generalizing forms with
  | nil => rfl
  | cons m members ih =>
    cases forms with
    | nil => cases h
    | cons form forms =>
      have hcons : chunks (m :: members) (form :: forms) = writeMember form m.bytes ++ chunks members forms := rfl
      rw [hcons, List.length_append, length_writeMember, ih (Nat.succ.inj h)]
      rfl

lemma length_nameForms (ms : List ArchiveMember) (table : List Byte) : (nameForms ms table).1.length = ms.length := by
  induction ms generalizing table with
  | nil => rfl
  | cons m ms ih =>
    rw [nameForms]
    split
    · exact congrArg (· + 1) (ih table)
    · exact congrArg (· + 1) (ih _)

/-- What stands before the members. -/
def preamble (members : List ArchiveMember) (symbols : List (ℕ × List Text)) : List Byte :=
  ascii "!<arch>\n" ++ writeMember (indexOf members symbols).1 (indexOf members symbols).2 ++
    if (nameForms members []).2 = [] then [] else writeMember (ascii "//") (nameForms members []).2

lemma writeArchive_eq : writeArchive members symbols =
    preamble members symbols ++ chunks members (nameForms members []).1 := rfl

lemma length_preamble : (preamble members symbols).length = membersStart members symbols := by
  simp only [preamble, membersStart, List.length_append, length_writeMember, arHeaderSize, List.length_pos_iff]
  have hmagic : (ascii "!<arch>\n").length = 8 := rfl
  rw [hmagic]
  split <;> rename_i h
  · simp only [h, List.length_nil, not_true, ne_eq, if_false]
    omega
  · rw [length_writeMember]
    omega

lemma isField_ascii : IsField (ascii "/") ∧ IsField (ascii "/SYM64/") ∧ IsField (ascii "//") :=
  ⟨⟨by decide, isUtf8_of_ascii (by decide), by decide⟩, ⟨by decide, isUtf8_of_ascii (by decide), by decide⟩,
    ⟨by decide, isUtf8_of_ascii (by decide), by decide⟩⟩

lemma takeMember_index (h : w.index = none) (wide : Bool) (at_ : ℕ) (body : List Byte) :
    takeMember false w at_ (ascii (if wide then "/SYM64/" else "/")) body =
      .ok { w with index := some (.sysV wide, body) } := by
  cases wide <;> simp [takeMember, h, ascii, pure, Except.pure]

lemma takeMember_table (at_ : ℕ) (body : List Byte) : takeMember false w at_ (ascii "//") body = .ok { w with longNames := body } := by
  simp [takeMember, ascii, pure, Except.pure]

/-- **The members come back.**  The reader gets the names and the bytes of the members in order, and the index. -/
lemma parseArchiveMembers_writeArchive (hn : ∀ m ∈ members, IsName m.name ∧ m.bytes.length < 10 ^ 10)
    (hindex : (indexOf members symbols).2.length < 10 ^ 10) (htable : (nameForms members []).2.length < 10 ^ 10)
    (hlen : (writeArchive members symbols).length < 2 ^ 63) :
    ∃ w, parseArchiveMembers (writeArchive members symbols) = .ok w ∧
      w.members = List.zipWith (fun m at_ => (m.name, .inline m.bytes, at_)) members (layoutOf members symbols).2 ∧
      w.index = some (.sysV (layoutOf members symbols).1, (indexOf members symbols).2) := by
  rw [writeArchive_eq] at hlen ⊢
  have hmagic : (ascii "!<arch>\n").length = 8 := rfl
  have hthin : (preamble members symbols ++ chunks members (nameForms members []).1).take 8 = ascii "!<arch>\n" := by
    rw [preamble, List.append_assoc, List.append_assoc]
    exact List.take_left' hmagic
  have hne : ascii "!<arch>\n" ≠ ascii "!<thin>\n" := by decide
  -- The blob pays for a round for the index, one for the table, one for each member and one for the end.
  obtain ⟨fuel, hfuel, hmore⟩ : ∃ fuel, (preamble members symbols ++ chunks members (nameForms members []).1).length + 1 =
      fuel + 1 + 1 ∧ members.length < fuel := by
    have hle : members.length ≤ (chunks members (nameForms members []).1).length := by
      rw [length_chunks (length_nameForms members [])]
      refine le_trans (by simp) (List.length_le_sum_of_one_le _ fun i hi => ?_)
      obtain ⟨size, -, rfl⟩ := List.mem_map.mp hi
      rw [arHeaderSize]
      omega
    refine ⟨(preamble members symbols ++ chunks members (nameForms members []).1).length - 1, ?_, ?_⟩ <;>
    · rw [List.length_append, length_preamble, membersStart, arHeaderSize]
      omega
  rw [parseArchiveMembers]
  simp only [hthin, hne, decide_false, not_true, ne_eq, and_false, if_false]
  rw [hfuel, layoutOf_headers, ← length_preamble]
  have hfields := isField_ascii
  have hraw : (indexOf members symbols).1 = ascii (if (layoutOf members symbols).1 then "/SYM64/" else "/") := rfl
  have hfield : IsField (indexOf members symbols).1 := by
    rw [hraw]
    split
    · exact hfields.2.1
    · exact hfields.1
  have hcur : 8 + 8 % 2 = (ascii "!<arch>\n").length := rfl
  have hcur' := cursor_writeMember hcur (indexOf members symbols).1 (indexOf members symbols).2
  have htake := takeMember_index (w := ⟨(ascii "!<arch>\n").length + 60 + (indexOf members symbols).2.length, [], [], none⟩)
    rfl (layoutOf members symbols).1 (ascii "!<arch>\n").length (indexOf members symbols).2
  rw [← hraw] at htake
  by_cases hnil : (nameForms members []).2 = []
  · have hbytes : preamble members symbols =
        ascii "!<arch>\n" ++ writeMember (indexOf members symbols).1 (indexOf members symbols).2 := by
      rw [preamble, if_pos hnil, List.append_nil]
    rw [hbytes] at hlen ⊢
    obtain ⟨w, hw, hmembers, hi⟩ := walkFrom_members
      (w := ⟨(ascii "!<arch>\n").length + 60 + (indexOf members symbols).2.length, [], [],
        some (.sysV (layoutOf members symbols).1, (indexOf members symbols).2)⟩)
      hn hnil.symm (by norm_num) hcur' hlen (Nat.lt_succ_of_lt hmore)
    rw [List.append_assoc] at hlen hw ⊢
    rw [walkFrom_writeMember (w := ⟨8, [], [], none⟩) hfield hindex hlen hcur htake]
    exact ⟨w, hw, hmembers, hi⟩
  · have hbytes : preamble members symbols = ascii "!<arch>\n" ++
        writeMember (indexOf members symbols).1 (indexOf members symbols).2 ++
          writeMember (ascii "//") (nameForms members []).2 := by
      rw [preamble, if_neg hnil]
    rw [hbytes] at hlen ⊢
    have htake' := takeMember_table (w := ⟨(ascii "!<arch>\n" ++ writeMember (indexOf members symbols).1
      (indexOf members symbols).2).length + 60 + (nameForms members []).2.length, [], [],
        some (.sysV (layoutOf members symbols).1, (indexOf members symbols).2)⟩)
      (ascii "!<arch>\n" ++ writeMember (indexOf members symbols).1 (indexOf members symbols).2).length
      (nameForms members []).2
    obtain ⟨w, hw, hmembers, hi⟩ := walkFrom_members
      (w := ⟨(ascii "!<arch>\n" ++ writeMember (indexOf members symbols).1
        (indexOf members symbols).2).length + 60 + (nameForms members []).2.length, (nameForms members []).2, [],
        some (.sysV (layoutOf members symbols).1, (indexOf members symbols).2)⟩)
      hn rfl htable (cursor_writeMember hcur' (ascii "//") (nameForms members []).2) hlen hmore
    rw [List.append_assoc] at hlen hw ⊢
    rw [List.append_assoc] at hlen hw ⊢
    rw [walkFrom_writeMember (w := ⟨8, [], [], none⟩) hfield hindex hlen hcur htake]
    rw [← List.append_assoc] at hlen hw ⊢
    rw [walkFrom_writeMember hfields.2.2 htable hlen hcur' htake']
    exact ⟨w, hw, hmembers, hi⟩

/-- **The symbols come back.**  The index gives each member exactly the symbols listed for it, unless none is listed. -/
lemma memberSymbols_writeArchive (hs : ∀ s ∈ symbols, s.1 < members.length ∧ ∀ n ∈ s.2, isUtf8 n = true ∧ 0 ∉ n)
    (hlen : (writeArchive members symbols).length < 2 ^ 63) :
    memberSymbols (.sysV (layoutOf members symbols).1) (indexOf members symbols).2 (layoutOf members symbols).2 =
      if symbolNames symbols = [] then .error (.err ())
      else .ok ((List.range members.length).map (symbolsOf symbols)) := by
  have hheaders : (layoutOf members symbols).2 =
      headersFrom (membersStart members symbols) (members.map (·.bytes.length)) := layoutOf_headers
  have hsize : (indexOf members symbols).2.length = indexSize (layoutOf members symbols).1
      (width (layoutOf members symbols).1 * (1 + (symbolNames symbols).length) +
        ((symbolNames symbols).map fun n => n.2.length + 1).sum) := by
    rw [indexOf, length_symbolIndex, List.length_map, List.map_map]
    rfl
  have hle : width (layoutOf members symbols).1 * (1 + (symbolNames symbols).length) ≤
      (indexOf members symbols).2.length := by
    rw [hsize, indexSize]
    split <;> omega
  rw [writeArchive_eq, List.length_append, length_preamble, length_chunks (length_nameForms members [])] at hlen
  have hstart : (indexOf members symbols).2.length + 68 ≤ membersStart members symbols := by
    rw [membersStart, arHeaderSize, padded]
    omega
  -- Every header of the layout lies in the archive, behind the index.
  have hheader : ∀ i < members.length, (layoutOf members symbols).2.getD i 0 < 2 ^ 63 ∧
      (indexOf members symbols).2.length < (layoutOf members symbols).2.getD i 0 := by
    intro i hi
    have hi' : i < (layoutOf members symbols).2.length := by simpa [hheaders] using hi
    rw [List.getD_eq_getElem?_getD, List.getElem?_eq_getElem hi', Option.getD_some]
    have hmem : (layoutOf members symbols).2[i] ∈
        headersFrom (membersStart members symbols) (members.map (·.bytes.length)) :=
      hheaders ▸ List.getElem_mem hi'
    have := mem_headersFrom hmem
    omega
  have hnames : ∀ n ∈ symbolNames symbols, n.1 < members.length ∧ isUtf8 n.2 = true ∧ 0 ∉ n.2 := by
    intro n hn
    obtain ⟨s, hs', hn⟩ := List.mem_flatMap.mp hn
    obtain ⟨x, hx, rfl⟩ := List.mem_map.mp hn
    exact ⟨(hs s hs').1, (hs s hs').2 x hx⟩
  have hlength : (layoutOf members symbols).2.length = members.length := by simp [hheaders]
  -- The numbers of the index fit its width: a narrow one was chosen because they do.
  have hfits : (∀ n ∈ symbolNames symbols,
      (layoutOf members symbols).2.getD n.1 0 < 256 ^ width (layoutOf members symbols).1) ∧
      (symbolNames symbols).length < 256 ^ width (layoutOf members symbols).1 := by
    cases hwide : (layoutOf members symbols).1 with
    | true =>
      rw [hwide] at hle
      have hw : (256 : ℕ) ^ width true = 2 ^ 64 := by decide
      rw [hw]
      refine ⟨fun n hn => (hheader n.1 (hnames n hn).1).1.trans (by decide), ?_⟩
      simp only [width, if_true] at hle
      omega
    | false =>
      rw [hwide] at hle
      have hw : (256 : ℕ) ^ width false = 2 ^ 32 := by decide
      rw [hw]
      have hnarrow : ∀ n ∈ symbolNames symbols, (layoutOf members symbols).2.getD n.1 0 < 2 ^ 32 := by
        unfold layoutOf indexLayout at hwide ⊢
        dsimp only at hwide ⊢
        split at hwide
        · rename_i hall
          rw [if_pos hall]
          exact fun n hn => of_decide_eq_true (List.all_eq_true.mp hall n hn)
        · cases hwide
      refine ⟨hnarrow, ?_⟩
      cases hnil : symbolNames symbols with
      | nil => exact Nat.pow_pos (by decide)
      | cons n l =>
        have hn : n ∈ symbolNames symbols := by rw [hnil]; exact .head _
        have h1 := hnarrow n hn
        have h2 := (hheader n.1 (hnames n hn).1).2
        rw [hnil] at hle
        simp only [width, Bool.false_eq_true, if_false] at hle
        omega
  have hindexLen : (indexOf members symbols).2.length < 2 ^ 63 := by omega
  have hkey := memberSymbols_symbolIndex (layoutOf members symbols).1 (layoutOf members symbols).2
    (fun n hn => hlength.symm ▸ hnames n hn) (by rw [hheaders]; exact nodup_headersFrom) hfits.1 hfits.2 hindexLen
  rw [hlength] at hkey
  simp only [filter_symbolNames] at hkey
  exact hkey

end Badc.Archive
