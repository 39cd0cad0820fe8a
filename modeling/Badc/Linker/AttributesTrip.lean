import Badc.Linker.AttributesRead
import Badc.Lib.Listing
import Badc.Lib.TreeMap
import Mathlib.Data.List.Flatten

/-!
# What a section of build attributes holds

Reading a section never cuts outside it (`parse_ne_panic`), and what is read can be written again
(`parse_plain`, `parse_writable`).  Subsections read back from what is written of them exactly where each
holds values of the kind it states and its length fits 32 bits (`parse_encode_iff`).
-/

namespace Badc.Attributes

variable {b data rest : List Byte} {n fuel off : ℕ} {vendor : String} {ntbs : Bool} {subs : Subs}
  {tags : List (ℕ × Value)} {raws : List RawSub} {r : RawSub}

/-! ## What is read -/

/-- A value that 64 bits or a NUL-terminated string can hold. -/
def Value.Plain : Value → Prop
  | .num n => n < 2 ^ 64
  | .str s => NulFree s

def Value.isStr : Value → Bool
  | .num _ => false
  | .str _ => true

/-- A tag of a subsection whose values are strings or are not. -/
def TagOk (ntbs : Bool) (p : ℕ × Value) : Prop := p.1 < 2 ^ 64 ∧ p.2.Plain ∧ p.2.isStr = ntbs

/-- The bytes a subsection takes with its length. -/
def RawSub.size (r : RawSub) : ℕ := 4 + ((utf8 r.vendor).length + 3 + (r.tags.flatMap encodeTag).length)

/-- A subsection as reading gives it. -/
def RawSub.Ok (r : RawSub) : Prop :=
  NulFree r.vendor ∧ (∀ p ∈ r.tags, TagOk r.ntbs p) ∧ r.size < 2 ^ 32

/-- The outcome of reading: a value that `P` holds of, or an error. -/
def Reads {ε α : Type} (x : Run ε α) (P : α → Prop) : Prop :=
  (∃ a, x = .ok a ∧ P a) ∨ ∃ e, x = .error (.err e)

lemma Reads.bind {ε α β : Type} {x : Run ε α} {f : α → Run ε β} {P : α → Prop} {Q : β → Prop}
    (hx : Reads x P) (hf : ∀ a, P a → Reads (f a) Q) : Reads (x >>= f) Q := by
  rcases hx with ⟨a, rfl, ha⟩ | ⟨e, rfl⟩
  · exact hf a ha
  · exact .inr ⟨e, rfl⟩

lemma Reads.ok {ε α : Type} {P : α → Prop} {a : α} (h : P a) : Reads (.ok a : Run ε α) P := .inl ⟨a, rfl, h⟩

lemma Reads.err {ε α : Type} {P : α → Prop} (e : ε) : Reads (.error (.err e) : Run ε α) P := .inr ⟨e, rfl⟩

lemma Reads.of_ok {ε α : Type} {P : α → Prop} {x : Run ε α} {a : α} (h : Reads x P) (hx : x = .ok a) : P a := by
  rcases h with ⟨a', h, ha⟩ | ⟨e, h⟩
  · rw [hx] at h
    cases h
    exact ha
  · rw [hx] at h
    cases h

lemma takeTo_ok {ε : Type} (h : n ≤ b.length) : (takeTo b n : Run ε (List Byte)) = .ok (b.take n) := if_pos h

lemma dropTo_ok {ε : Type} (h : n ≤ b.length) : (dropTo b n : Run ε (List Byte)) = .ok (b.drop n) := if_pos h

lemma takeTo_reads {ε : Type} (h : n ≤ b.length) : Reads (takeTo b n : Run ε (List Byte)) (· = b.take n) :=
  .inl ⟨_, takeTo_ok h, rfl⟩

lemma dropTo_reads {ε : Type} (h : n ≤ b.length) : Reads (dropTo b n : Run ε (List Byte)) (· = b.drop n) :=
  .inl ⟨_, dropTo_ok h, rfl⟩

/-- A value takes the bytes at least that it is written in. -/
lemma readValue_reads : Reads (readValue vendor ntbs data) fun p =>
    p.1.Plain ∧ p.1.isStr = ntbs ∧ (encodeValue p.1).length + p.2.length ≤ data.length := by
  rw [readValue]
  split
  · rename_i hstr
    split
    · exact .err _
    · rename_i e he
      obtain ⟨hlt, hnul⟩ := position_spec he
      refine (takeTo_reads hlt.le).bind ?_
      rintro _ rfl
      cases hs : fromUtf8 (data.take e) with
      | none => exact .err _
      | some s =>
        have hutf : utf8 s = data.take e := utf8_of_fromUtf8 hs
        refine (dropTo_reads (by omega)).bind ?_
        rintro _ rfl
        refine .ok ⟨?_, hstr.symm, ?_⟩
        · rw [Value.Plain, NulFree, hutf]
          exact hnul
        · simp only [encodeValue, hutf, List.length_append, List.length_take, List.length_drop,
            List.length_singleton]
          omega
  · rename_i hnum
    split
    · exact .err _
    · rename_i n rest hn
      obtain ⟨hlt, hle, _⟩ := readUleb_spec hn
      exact .ok ⟨hlt, (Bool.eq_false_of_not_eq_true hnum).symm, hle⟩

/-- The tags take the bytes at least that they are written in. -/
lemma readTags_reads : Reads (readTags vendor ntbs fuel data) fun tags =>
    (∀ p ∈ tags, TagOk ntbs p) ∧ (tags.flatMap encodeTag).length ≤ data.length := by
  induction fuel generalizing data with
  | zero => exact .ok ⟨fun _ h => (nomatch h), Nat.zero_le _⟩
  | succ fuel ih =>
    rw [readTags]
    split
    · exact .ok ⟨fun _ h => (nomatch h), Nat.zero_le _⟩
    · split
      · exact .err _
      · rename_i tag after htag
        obtain ⟨hlt, hle, _⟩ := readUleb_spec htag
        refine readValue_reads.bind fun ⟨value, left⟩ ⟨hplain, hkind, hvalue⟩ => ?_
        refine ih.bind fun rest ⟨hrest, hlen⟩ => .ok ⟨?_, ?_⟩
        · rintro p (_ | ⟨_, hp⟩)
          · exact ⟨hlt, hplain, hkind⟩
          · exact hrest p hp
        · simp only [List.flatMap_cons, encodeTag, List.length_append] at hvalue ⊢
          omega

/-- The bytes of a subsection behind its length. -/
lemma readSub_reads : Reads (readSub off b) fun r =>
    NulFree r.vendor ∧ (∀ p ∈ r.tags, TagOk r.ntbs p) ∧ r.size ≤ b.length + 4 := by
  rw [readSub]
  split
  · exact .err _
  · rename_i nul hnul
    obtain ⟨hlt, hfree⟩ := position_spec hnul
    refine (takeTo_reads hlt.le).bind ?_
    rintro _ rfl
    cases hs : fromUtf8 (b.take nul) with
    | none => exact .err _
    | some vendor =>
      have hutf : utf8 vendor = b.take nul := utf8_of_fromUtf8 hs
      refine (dropTo_reads (by omega)).bind ?_
      rintro _ rfl
      match hrest : b.drop (nul + 1) with
      | [] => exact .err _
      | [_] => exact .err _
      | optional :: ty :: data =>
        dsimp only
        split
        · exact .err _
        · refine readTags_reads.bind fun tags ⟨htags, hlen⟩ => .ok ⟨?_, htags, ?_⟩
          · rw [NulFree, hutf]
            exact hfree
          · have hlength := congrArg List.length hrest
            simp only [List.length_drop, List.length_cons] at hlength
            simp only [RawSub.size, hutf, List.length_take]
            omega

/-- A subsection that a section holds takes less than 2³² bytes, since its length is written in it. -/
lemma readSubs_reads : Reads (readSubs fuel off rest) fun raws => ∀ r ∈ raws, r.Ok := by
  induction fuel generalizing off rest with
  | zero => exact .ok fun _ h => (nomatch h)
  | succ fuel ih =>
    rw [readSubs]
    split
    · exact .ok fun _ h => (nomatch h)
    · split
      · exact .err _
      · dsimp only
        split
        · exact .err _
        · rename_i hlen
          have hlen4 : 4 ≤ leNat rest 0 4 := by omega
          have hlenr : leNat rest 0 4 ≤ rest.length := by omega
          have hcut : 4 ≤ (rest.take (leNat rest 0 4)).length := by
            rw [List.length_take]
            omega
          refine (takeTo_reads hlenr).bind ?_
          rintro _ rfl
          refine (dropTo_reads hcut).bind ?_
          rintro _ rfl
          refine readSub_reads.bind fun r ⟨hfree, htags, hsize⟩ => ?_
          refine (dropTo_reads hlenr).bind ?_
          rintro _ rfl
          refine ih.bind fun raws hraws => .ok ?_
          rintro r' (_ | ⟨_, hr'⟩)
          · have hlt : leNat rest 0 4 < 256 ^ 4 := leNat_lt
            refine ⟨hfree, htags, ?_⟩
            rw [List.length_drop, List.length_take] at hsize
            omega
          · exact hraws r' hr'

lemma readBody_reads : Reads (readBody b) fun raws => ∀ r ∈ raws, r.Ok := by
  cases b with
  | nil => exact .err _
  | cons v rest =>
    rw [readBody]
    split
    · exact readSubs_reads
    · exact .err _

/-- **Reading a section never aborts the linker.** -/
theorem parse_ne_panic : parse b ≠ .error .panic := by
  intro h
  rw [parse, map_eq_error] at h
  rcases readBody_reads (b := b) with ⟨_, hok, _⟩ | ⟨_, herr⟩
  · rw [hok] at h
    cases h
  · rw [herr] at h
    cases h

/-! ## Rounds enough -/

/-- The rounds that the data pays for are enough. -/
lemma readTags_fuel (h : data.length ≤ fuel) :
    readTags vendor ntbs (fuel + 1) data = readTags vendor ntbs fuel data := by
  induction fuel generalizing data with
  | zero =>
    obtain rfl : data = [] := List.length_eq_zero_iff.mp (by omega)
    rfl
  | succ fuel ih =>
    rw [readTags, readTags]
    split
    · rfl
    · split
      · rfl
      · rename_i tag after htag
        obtain ⟨_, _, hless⟩ := readUleb_spec htag
        rcases @readValue_reads after vendor ntbs with
          ⟨⟨value, left⟩, hok, _, _, hvalue⟩ | ⟨e, herr⟩
        · rw [hok]
          show (readTags vendor ntbs (fuel + 1) left >>= _) = (readTags vendor ntbs fuel left >>= _)
          rw [ih (by dsimp only at hvalue; omega)]
        · rw [herr]
          rfl

/-- The rounds that the section pays for are enough. -/
lemma readSubs_fuel (h : rest.length ≤ fuel) : readSubs (fuel + 1) off rest = readSubs fuel off rest := by
  induction fuel generalizing off rest with
  | zero =>
    obtain rfl : rest = [] := List.length_eq_zero_iff.mp (by omega)
    rfl
  | succ fuel ih =>
    rw [readSubs, readSubs]
    split
    · rfl
    · split
      · rfl
      · dsimp only
        split
        · rfl
        · rename_i hlen
          have hlenr : leNat rest 0 4 ≤ rest.length := by omega
          rw [dropTo_ok hlenr]
          simp only [Except.bind, bind]
          rw [ih (by rw [List.length_drop]; omega)]

/-! ## What a section holds -/

/-- Subsections whose names and strings hold no NUL and whose numbers fit 64 bits. -/
def Plain (subs : Subs) : Prop :=
  ∀ (vendor : String) (sub : Sub), subs[vendor]? = some sub →
    NulFree vendor ∧ ∀ (tag : ℕ) (value : Value), sub.tags[tag]? = some value → tag < 2 ^ 64 ∧ value.Plain

/-- Each subsection holds values of the kind it states and takes less than 2³² bytes. -/
def Writable (subs : Subs) : Prop :=
  ∀ (vendor : String) (sub : Sub), subs[vendor]? = some sub →
    (∀ (tag : ℕ) (value : Value), sub.tags[tag]? = some value → value.isStr = sub.ntbs) ∧
      4 + (subData vendor sub).length < 2 ^ 32

lemma tagMap_eq : tagMap tags = TreeMap.insertAll Prod.fst Prod.snd ∅ tags := rfl

lemma subMap_eq : subMap raws =
    TreeMap.insertAll RawSub.vendor (fun r => ⟨r.optional, r.ntbs, tagMap r.tags⟩) ∅ raws := rfl

lemma length_flatMap_tagMap : ((tagMap tags).toList.flatMap encodeTag).length ≤
    (tags.flatMap encodeTag).length := by
  have hsubperm : (tagMap tags).toList.Subperm tags := TreeMap.toList_insertAll_subperm tags
  obtain ⟨l, hperm, hsub⟩ := hsubperm
  rw [← (hperm.flatMap_right encodeTag).length_eq]
  exact (hsub.flatMap encodeTag).length_le

lemma length_subData (vendor : String) (sub : Sub) :
    (subData vendor sub).length = (utf8 vendor).length + 3 + (sub.tags.toList.flatMap encodeTag).length := by
  simp only [subData, List.length_append, List.length_cons, List.length_nil]

/-- **What is read can be written.** -/
theorem parse_plain_writable (h : parse b = .ok subs) : Plain subs ∧ Writable subs := by
  obtain ⟨raws, hraws, rfl⟩ := map_eq_ok.mp h
  have hok := readBody_reads.of_ok hraws
  have hsub : ∀ vendor sub, (subMap raws)[vendor]? = some sub → NulFree vendor ∧
      (∀ tag value, sub.tags[tag]? = some value → TagOk sub.ntbs (tag, value)) ∧
      4 + (subData vendor sub).length < 2 ^ 32 := by
    intro vendor sub hsub
    rw [subMap_eq] at hsub
    obtain ⟨r, hr, rfl, rfl⟩ := TreeMap.exists_of_getElem?_insertAll hsub
    obtain ⟨hfree, htags, hsize⟩ := hok r hr
    refine ⟨hfree, fun tag value hv => ?_, ?_⟩
    · obtain ⟨p, hp, rfl, rfl⟩ := TreeMap.exists_of_getElem?_insertAll (tagMap_eq ▸ hv)
      exact htags p hp
    · have hlen := @length_flatMap_tagMap r.tags
      rw [RawSub.size] at hsize
      rw [length_subData]
      dsimp only
      omega
  constructor
  · intro vendor sub h
    obtain ⟨hfree, htags, _⟩ := hsub vendor sub h
    exact ⟨hfree, fun tag value hv => ⟨(htags tag value hv).1, (htags tag value hv).2.1⟩⟩
  · intro vendor sub h
    obtain ⟨_, htags, hsize⟩ := hsub vendor sub h
    exact ⟨fun tag value hv => (htags tag value hv).2.2, hsize⟩

/-! ## Writing and reading back -/

/-- A value that is written is read back. -/
lemma readValue_encodeValue {v : Value} (hplain : v.Plain) (hkind : v.isStr = ntbs) :
    readValue vendor ntbs (encodeValue v ++ rest) = .ok (v, rest) := by
  cases v with
  | num n =>
    obtain rfl : false = ntbs := hkind
    rw [readValue, if_neg Bool.false_ne_true, encodeValue, readUleb_pushUleb hplain]
  | str s =>
    obtain rfl : true = ntbs := hkind
    have hbytes : encodeValue (.str s) ++ rest = utf8 s ++ 0 :: rest := by
      rw [encodeValue, List.append_assoc]
      rfl
    have htake : (utf8 s ++ 0 :: rest).take (utf8 s).length = utf8 s := List.take_left
    have hdrop : (utf8 s ++ 0 :: rest).drop ((utf8 s).length + 1) = rest := by
      rw [← List.drop_drop, List.drop_left]
      rfl
    rw [readValue, if_pos rfl, hbytes, position_append hplain]
    dsimp only
    rw [takeTo_ok (by rw [List.length_append]; omega),
      dropTo_ok (by rw [List.length_append, List.length_cons]; omega), htake, hdrop]
    simp only [bind, Except.bind, fromUtf8_utf8]
    rfl

lemma encodeTag_ne_nil (p : ℕ × Value) : encodeTag p ≠ [] := by
  rw [encodeTag, pushUleb]
  split <;> simp

/-- Tags that are written are read back. -/
lemma readTags_encode (htags : ∀ p ∈ tags, TagOk ntbs p) (hfuel : tags.length ≤ fuel) :
    readTags vendor ntbs fuel (tags.flatMap encodeTag) = .ok tags := by
  induction tags generalizing fuel with
  | nil => cases fuel <;> rfl
  | cons p tags ih =>
    obtain ⟨fuel, rfl⟩ : ∃ k, fuel = k + 1 := ⟨fuel - 1, by rw [List.length_cons] at hfuel; omega⟩
    obtain ⟨hlt, hplain, hkind⟩ := htags p (.head _)
    have hne : (p :: tags).flatMap encodeTag ≠ [] :=
      List.append_ne_nil_of_left_ne_nil (encodeTag_ne_nil p) _
    have hbytes : (p :: tags).flatMap encodeTag =
        pushUleb p.1 ++ (encodeValue p.2 ++ tags.flatMap encodeTag) := by
      rw [List.flatMap_cons, encodeTag, List.append_assoc]
    rw [readTags, if_neg hne, hbytes, readUleb_pushUleb hlt]
    dsimp only
    rw [readValue_encodeValue hplain hkind]
    have hrest : readTags vendor ntbs fuel (tags.flatMap encodeTag) = .ok tags :=
      ih (fun q hq => htags q (.tail _ hq)) (by rw [List.length_cons] at hfuel; omega)
    simp only [bind, Except.bind, hrest]
    rfl

/-- The subsection of a map, as it is written. -/
def rawOf (p : String × Sub) : RawSub := ⟨p.1, p.2.optional, p.2.ntbs, p.2.tags.toList⟩

/-- A subsection that is written is read back. -/
lemma readSub_subData {sub : Sub} (hfree : NulFree vendor)
    (htags : ∀ p ∈ sub.tags.toList, TagOk sub.ntbs p) :
    readSub off (subData vendor sub) = .ok (rawOf (vendor, sub)) := by
  have hbytes : subData vendor sub = utf8 vendor ++ 0 :: flagByte sub.optional :: flagByte sub.ntbs ::
      sub.tags.toList.flatMap encodeTag := by
    rw [subData, List.append_assoc]
    rfl
  have htake (l : List Byte) : (utf8 vendor ++ l).take (utf8 vendor).length = utf8 vendor := List.take_left
  have hdrop (l : List Byte) : (utf8 vendor ++ 0 :: l).drop ((utf8 vendor).length + 1) = l := by
    rw [← List.drop_drop, List.drop_left]
    rfl
  have hflag (f : Bool) : ¬1 < (flagByte f).toNat ∧ ((flagByte f).toNat == 1) = f ∧ (flagByte f != 0) = f := by
    cases f <;> decide
  rw [hbytes, readSub, position_append hfree]
  dsimp only
  rw [takeTo_ok (by rw [List.length_append]; omega),
    dropTo_ok (by rw [List.length_append, List.length_cons]; omega), htake, hdrop]
  simp only [bind, Except.bind, fromUtf8_utf8]
  rw [if_neg (hflag _).1, (hflag sub.ntbs).2.1, readTags_encode htags (length_le_length_flatMap fun p _ => encodeTag_ne_nil p)]
  dsimp only
  rw [(hflag sub.optional).2.2]
  rfl

/-- Subsections that are written are read back. -/
lemma readSubs_encode {l : List (String × Sub)} (hl : ∀ p ∈ l, NulFree p.1 ∧
      (∀ q ∈ p.2.tags.toList, TagOk p.2.ntbs q) ∧ 4 + (subData p.1 p.2).length < 2 ^ 32)
    (hfuel : l.length ≤ fuel) : readSubs fuel off (l.flatMap encodeSub) = .ok (l.map rawOf) := by
  induction l generalizing fuel off with
  | nil => cases fuel <;> rfl
  | cons p l ih =>
    obtain ⟨fuel, rfl⟩ : ∃ k, fuel = k + 1 := ⟨fuel - 1, by rw [List.length_cons] at hfuel; omega⟩
    obtain ⟨hfree, htags, hsize⟩ := hl p (.head _)
    have hbytes : (p :: l).flatMap encodeSub = leBytes 4 ((subData p.1 p.2).length + 4) ++
        (subData p.1 p.2 ++ l.flatMap encodeSub) := by
      rw [List.flatMap_cons, encodeSub, List.append_assoc]
    have hlength : ((p :: l).flatMap encodeSub).length =
        4 + (subData p.1 p.2).length + (l.flatMap encodeSub).length := by
      rw [hbytes, List.length_append, List.length_append, length_leBytes]
      omega
    have hlen : leNat ((p :: l).flatMap encodeSub) 0 4 = 4 + (subData p.1 p.2).length := by
      rw [hbytes]
      have h := leNat_append_leBytes (n := 4) (x := (subData p.1 p.2).length + 4) []
        (subData p.1 p.2 ++ l.flatMap encodeSub)
      rw [List.nil_append, List.length_nil] at h
      rw [h, Nat.mod_eq_of_lt (by omega)]
      omega
    have hcut : (((p :: l).flatMap encodeSub).take (4 + (subData p.1 p.2).length)).drop 4 =
        subData p.1 p.2 := by
      rw [hbytes, List.drop_take, Nat.add_sub_cancel_left,
        List.drop_left' (length_leBytes), List.take_left]
    have hrest : ((p :: l).flatMap encodeSub).drop (4 + (subData p.1 p.2).length) = l.flatMap encodeSub := by
      rw [hbytes, ← List.drop_drop, List.drop_left' length_leBytes, List.drop_left]
    have hne : (p :: l).flatMap encodeSub ≠ [] := by
      intro h
      rw [h, List.length_nil] at hlength
      omega
    rw [readSubs, if_neg hne, if_neg (by omega), hlen]
    dsimp only
    rw [if_neg (by omega), takeTo_ok (by omega), dropTo_ok (by omega)]
    simp only [bind, Except.bind]
    rw [dropTo_ok (by rw [List.length_take]; omega), hcut, hrest]
    dsimp only
    rw [readSub_subData hfree htags]
    dsimp only
    rw [ih (fun q hq => hl q (.tail _ hq)) (by rw [List.length_cons] at hfuel; omega)]
    rfl

lemma subMap_rawOf (subs : Subs) : subMap (subs.toList.map rawOf) = subs := by
  have htags (t : Std.ExtTreeMap ℕ Value) : tagMap t.toList = t := by
    rw [tagMap_eq, TreeMap.insertAll_toList]
  rw [subMap, List.foldl_map]
  simp only [rawOf, htags]
  exact TreeMap.insertAll_toList subs

/-- **Subsections read back from what is written of them exactly where they can be written.** -/
theorem parse_encode_iff (hplain : Plain subs) : parse (encode subs) = .ok subs ↔ Writable subs := by
  refine ⟨fun h => (parse_plain_writable h).2, fun hwrite => ?_⟩
  have hsubs : ∀ p ∈ subs.toList, NulFree p.1 ∧ (∀ q ∈ p.2.tags.toList, TagOk p.2.ntbs q) ∧
      4 + (subData p.1 p.2).length < 2 ^ 32 := by
    rintro ⟨vendor, sub⟩ hp
    have hget := Std.ExtTreeMap.mem_toList_iff_getElem?_eq_some.mp hp
    obtain ⟨hfree, htags⟩ := hplain vendor sub hget
    obtain ⟨hkind, hsize⟩ := hwrite vendor sub hget
    refine ⟨hfree, fun ⟨tag, value⟩ hq => ?_, hsize⟩
    have hv := Std.ExtTreeMap.mem_toList_iff_getElem?_eq_some.mp hq
    exact ⟨(htags tag value hv).1, (htags tag value hv).2, hkind tag value hv⟩
  have hfuel : subs.toList.length ≤ (subs.toList.flatMap encodeSub).length :=
    length_le_length_flatMap fun p _ h => by simpa [encodeSub] using congrArg List.length h
  rw [parse, encode, readBody, if_pos rfl, readSubs_encode hsubs hfuel]
  exact congrArg Except.ok (subMap_rawOf subs)

end Badc.Attributes
