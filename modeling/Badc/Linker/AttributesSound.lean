import Badc.Linker.AttributesMerge

/-!
# The meaning of merged build attributes

A merged section holds what the inputs combine to exactly where its subsections have lengths of 32 bits
(`parse_merge_iff`), and whether there is one and which does not depend on the order of the inputs
(`toOption_merge_perm`).
-/

namespace Badc.Attributes

variable {vendor : String} {tag : ℕ} {subs m : Subs} {maps : List Subs} {inputs inputs' : List Input}
  {body : List Byte} {out : Option (List Byte)}

/-! ## The inputs -/

/-- Every section parses. -/
def Accepted (inputs : List Input) : Prop := ∀ p ∈ inputs, ∀ body, p.2 = some body → ∃ subs, parse body = .ok subs

/-- An input's subsections, as they are written. -/
def rawsOf (p : Input) : List RawSub :=
  match p.2 with
  | none => []
  | some body => (readBody body).toOption.getD []

/-- An input's subsections. -/
def mapOf (p : Input) : Subs := subMap (rawsOf p)

/-- Every input carries the section. -/
def Same (inputs : List Input) (body : List Byte) : Prop := ∀ p ∈ inputs, p.2 = some body

/-- What merged subsections hold: of feature bits the AND over the inputs, of any other tag the value of every
input, and no feature bit that some input does not state. -/
structure Merged (inputs : List Input) (m : Subs) : Prop where
  combines : ∀ (vendor : String) (tag : ℕ), held vendor tag m = combined vendor tag (inputs.map mapOf)
  common : ∀ (vendor : String) (tag : ℕ), vendor ≠ featureAndBits →
    ∀ p ∈ inputs, held vendor tag (mapOf p) = held vendor tag m
  stated : ∀ tag n i : ℕ, held featureAndBits tag m = some (.num n) → n.testBit i → ∀ p ∈ inputs,
    ∃ r ∈ rawsOf p, r.vendor = featureAndBits ∧ ∃ k : ℕ, (tag, Value.num k) ∈ r.tags ∧ k.testBit i

/-- The bytes of a tag with its combined value. -/
def combinedTag (vendor : String) (maps : List Subs) (tag : ℕ) : List Byte :=
  match combined vendor tag maps with
  | none => []
  | some v => encodeTag (tag, v)

/-- The combined subsections have lengths of 32 bits. -/
def Room (maps : List Subs) : Prop :=
  ∀ vendor : String, (∃ s ∈ maps, (s[vendor]?).isSome) → ∀ tags : List ℕ, tags.Nodup →
    (∀ tag ∈ tags, (combined vendor tag maps).isSome) →
    4 + ((utf8 vendor).length + 3 + (tags.flatMap (combinedTag vendor maps)).length) < 2 ^ 32

lemma parse_eq_mapOf {p : Input} (hbody : p.2 = some body) (h : ∃ subs, parse body = .ok subs) :
    parse body = .ok (mapOf p) := by
  obtain ⟨subs, hsubs⟩ := h
  obtain ⟨raws, hraws, rfl⟩ := map_eq_ok.mp hsubs
  rw [hsubs, mapOf, rawsOf, hbody]
  dsimp only
  rw [hraws]
  rfl

lemma mapOf_none {p : Input} (h : p.2 = none) : mapOf p = ∅ := by
  rw [mapOf, rawsOf, h]
  rfl

/-- The inputs' subsections are plain and writable. -/
lemma plain_writable_mapOf (hacc : Accepted inputs) {p : Input} (hp : p ∈ inputs) :
    Plain (mapOf p) ∧ Writable (mapOf p) := by
  cases hbody : p.2 with
  | none =>
    rw [mapOf_none hbody]
    constructor
    · intro vendor sub h
      rw [Std.ExtTreeMap.getElem?_empty] at h
      cases h
    · intro vendor sub h
      rw [Std.ExtTreeMap.getElem?_empty] at h
      cases h
  | some body => exact parse_plain_writable (parse_eq_mapOf hbody (hacc p hp body hbody))

/-- Sections that parse are the inputs' subsections. -/
lemma parseInputs_eq (hacc : Accepted inputs) : parseInputs inputs = .ok (inputs.map fun p => (p.1, mapOf p)) := by
  rw [parseInputs, mapM_eq_ok]
  induction inputs with
  | nil => exact .nil
  | cons p inputs ih =>
    refine .cons ?_ (ih fun q hq => hacc q (List.mem_cons_of_mem _ hq))
    cases hbody : p.2 with
    | none =>
      show _ = Except.ok (p.1, mapOf p)
      rw [mapOf_none hbody]
    | some body =>
      dsimp only
      rw [parse_eq_mapOf hbody (hacc p List.mem_cons_self body hbody)]

/-! ## A bit is stated -/

/-- A bit of combined feature bits is stated by every input. -/
lemma stated_of_combined {n i : ℕ}
    (h : combined featureAndBits tag (inputs.map mapOf) = some (.num n)) (hbit : n.testBit i) {p : Input}
    (hp : p ∈ inputs) :
    ∃ r ∈ rawsOf p, r.vendor = featureAndBits ∧ ∃ k : ℕ, (tag, Value.num k) ∈ r.tags ∧ k.testBit i := by
  obtain ⟨w, _, hw⟩ := Option.map_eq_some_iff.mp h
  rw [ruleFor_eq_and.mpr rfl] at hw
  cases w with
  | str s => cases hw
  | num k =>
    obtain rfl : andAll _ = n := Value.num.inj hw
    have hmem : numOf (held featureAndBits tag (mapOf p)) ∈
        (inputs.map mapOf).map fun s => numOf (held featureAndBits tag s) :=
      List.mem_map_of_mem (List.mem_map_of_mem hp)
    have hown := testBit_andAll hbit _ hmem
    cases hheld : held featureAndBits tag (mapOf p) with
    | none => simp [hheld, numOf] at hown
    | some v =>
      cases v with
      | str s => simp [hheld, numOf] at hown
      | num k' =>
        rw [hheld] at hown
        obtain ⟨s, hs, hv⟩ := held_eq_some.mp hheld
        rw [mapOf, subMap_eq] at hs
        obtain ⟨r, hr, hvendor, rfl⟩ := TreeMap.exists_of_getElem?_insertAll hs
        obtain ⟨q, hq, rfl, hval⟩ := TreeMap.exists_of_getElem?_insertAll (tagMap_eq ▸ hv)
        exact ⟨r, hr, hvendor, k', hval ▸ hq, hown⟩

/-! ## Lengths -/

/-- A map that holds the combined values writes a subsection in the bytes of its tags' combined values. -/
lemma flatMap_combinedTag {sub : Sub} (hm : ∀ tag, held vendor tag m = combined vendor tag maps)
    (hsub : m[vendor]? = some sub) :
    sub.tags.toList.flatMap encodeTag = sub.tags.keys.flatMap (combinedTag vendor maps) := by
  rw [← Std.ExtTreeMap.map_fst_toList_eq_keys, List.flatMap_map]
  refine List.flatMap_congr fun ⟨tag, v⟩ hp => ?_
  have hv : sub.tags[tag]? = some v := Std.ExtTreeMap.mem_toList_iff_getElem?_eq_some.mp hp
  rw [combinedTag, ← hm, held_eq_some.mpr ⟨sub, hsub, hv⟩]

/-- Combined subsections that are written have room. -/
lemma room_of_writable (hmaps : ∀ s ∈ maps, Writable s) (hwrite : Writable m)
    (hm : ∀ (vendor : String) (tag : ℕ), held vendor tag m = combined vendor tag maps) : Room maps := by
  rintro vendor ⟨s, hs, hsome⟩ tags hnodup htags
  cases hsub : m[vendor]? with
  | none =>
    -- Nothing is combined, so that only the name counts.
    obtain rfl : tags = [] := by
      refine List.eq_nil_iff_forall_not_mem.mpr fun tag htag => ?_
      have hsome := htags tag htag
      rw [← hm, held, hsub] at hsome
      cases hsome
    obtain ⟨sub, hsub⟩ := Option.isSome_iff_exists.mp hsome
    have hsize := (hmaps s hs vendor sub hsub).2
    rw [length_subData] at hsize
    rw [List.flatMap_nil, List.length_nil]
    omega
  | some sub =>
    have hsubset : tags ⊆ sub.tags.keys := by
      intro tag htag
      obtain ⟨v, hv⟩ := Option.isSome_iff_exists.mp (htags tag htag)
      rw [← hm] at hv
      obtain ⟨sub', hsub', hv⟩ := held_eq_some.mp hv
      obtain rfl : sub = sub' := Option.some.inj (hsub.symm.trans hsub')
      exact Std.ExtTreeMap.mem_keys.mpr (Std.ExtTreeMap.isSome_getElem?_iff_mem.mp (by rw [hv]; rfl))
    obtain ⟨l, hperm, hsublist⟩ := hnodup.subperm hsubset
    have hle : (tags.flatMap (combinedTag vendor maps)).length ≤
        (sub.tags.keys.flatMap (combinedTag vendor maps)).length := by
      rw [← (hperm.flatMap_right _).length_eq]
      exact (hsublist.flatMap _).length_le
    have hsize := (hwrite vendor sub hsub).2
    rw [length_subData, flatMap_combinedTag (hm vendor) hsub] at hsize
    omega

/-- Combined subsections with room have lengths of 32 bits. -/
lemma length_subData_of_room {sub : Sub} (hroom : Room maps)
    (hm : ∀ (vendor : String) (tag : ℕ), held vendor tag m = combined vendor tag maps)
    (hvendor : ∃ s ∈ maps, (s[vendor]?).isSome) (hsub : m[vendor]? = some sub) :
    4 + (subData vendor sub).length < 2 ^ 32 := by
  rw [length_subData, flatMap_combinedTag (hm vendor) hsub]
  refine hroom vendor hvendor _ sub.tags.nodup_keys fun tag htag => ?_
  obtain ⟨v, hv⟩ := Option.isSome_iff_exists.mp
    (Std.ExtTreeMap.isSome_getElem?_iff_mem.mpr (Std.ExtTreeMap.mem_keys.mp htag))
  rw [← hm, held_eq_some.mpr ⟨sub, hsub, hv⟩]
  rfl

/-! ## The merge -/

/-- Every input with the section has the body that the first one has, and every input has the section, exactly
where all inputs carry that body. -/
lemma same_iff {first : List Byte} :
    ((inputs.filterMap fun p => p.2.map fun b => (p.1, b)).all fun p => p.2 == first) ∧
      (inputs.filterMap fun p => p.2.map fun b => (p.1, b)).length = inputs.length ↔ Same inputs first := by
  rw [List.filterMap_length_eq_length, List.all_eq_true]
  constructor
  · rintro ⟨hall, hsome⟩ p hp
    obtain ⟨b, hb⟩ := Option.isSome_iff_exists.mp (Option.isSome_map ▸ hsome p hp)
    have hfirst : b = first := eq_of_beq (hall (p.1, b) (List.mem_filterMap.mpr ⟨p, hp, by rw [hb]; rfl⟩))
    rw [hb, hfirst]
  · intro hsame
    refine ⟨fun q hq => ?_, fun p hp => by rw [hsame p hp]; rfl⟩
    obtain ⟨p, hp, hpq⟩ := List.mem_filterMap.mp hq
    rw [hsame p hp] at hpq
    obtain rfl := Option.some.inj hpq
    exact beq_self_eq_true _

/-- What sections that parse are merged to: nothing where no input has one, the one body that every input
carries, and the merged subsections elsewhere. -/
lemma merge_eq_ok (hacc : Accepted inputs) : merge .aarch64 inputs = .ok out ↔
    (out = none ∧ ∀ p ∈ inputs, p.2 = none) ∨
      (∃ body, out = some body ∧ inputs ≠ [] ∧ Same inputs body) ∨
      ∃ m, out = some (encode m) ∧ (∃ p ∈ inputs, p.2 ≠ none) ∧ (¬∃ body, Same inputs body) ∧
        mergeParsed (inputs.map fun p => (p.1, mapOf p)) = .ok m := by
  rw [merge]
  dsimp only
  split
  · rename_i hpresent
    have hnone : ∀ p ∈ inputs, p.2 = none := fun p hp =>
      Option.map_eq_none_iff.mp (List.filterMap_eq_nil_iff.mp hpresent p hp)
    constructor
    · intro h
      exact .inl ⟨(Except.ok.inj h).symm, hnone⟩
    · rintro (⟨rfl, _⟩ | ⟨body, _, hne, hsame⟩ | ⟨m, _, ⟨p, hp, hsome⟩, _⟩)
      · rfl
      · obtain ⟨p, hp⟩ := List.exists_mem_of_ne_nil _ hne
        exact nomatch (hnone p hp).symm.trans (hsame p hp)
      · exact absurd (hnone p hp) hsome
  · rename_i firstSrc first rest hpresent
    obtain ⟨p, hp, hfirst⟩ : ∃ p ∈ inputs, p.2 = some first := by
      obtain ⟨p, hp, hpq⟩ := List.mem_filterMap.mp (hpresent ▸ List.mem_cons_self)
      obtain ⟨b, hb, heq⟩ := Option.map_eq_some_iff.mp hpq
      exact ⟨p, hp, (Prod.mk.inj heq).2 ▸ hb⟩
    have hfirst_of : ∀ body, Same inputs body → body = first := fun body hsame =>
      Option.some.inj ((hsame p hp).symm.trans hfirst)
    have hnotnone : ¬∀ p ∈ inputs, p.2 = none := fun h => nomatch hfirst.symm.trans (h p hp)
    split
    · rename_i hsame
      rw [same_iff] at hsame
      constructor
      · intro h
        exact .inr (.inl ⟨first, (Except.ok.inj h).symm, List.ne_nil_of_mem hp, hsame⟩)
      · rintro (⟨_, h⟩ | ⟨body, rfl, _, hbody⟩ | ⟨_, _, _, h, _⟩)
        · exact absurd h hnotnone
        · rw [hfirst_of body hbody]
        · exact absurd ⟨first, hsame⟩ h
    · rename_i hsame
      rw [same_iff] at hsame
      have hno : ¬∃ body, Same inputs body := fun ⟨body, h⟩ => hsame (hfirst_of body h ▸ h)
      rw [map_eq_ok]
      constructor
      · rintro ⟨b, hb, rfl⟩
        rw [mergeAarch64, parseInputs_eq hacc] at hb
        obtain ⟨_, hparsed, hb⟩ := bind_eq_ok.mp hb
        obtain rfl := Except.ok.inj hparsed
        obtain ⟨m, hm, henc⟩ := bind_eq_ok.mp hb
        obtain rfl := Except.ok.inj henc
        exact .inr (.inr ⟨m, rfl, ⟨p, hp, by rw [hfirst]; exact Option.some_ne_none _⟩, hno, hm⟩)
      · rintro (⟨_, h⟩ | ⟨body, _, _, h⟩ | ⟨m, rfl, _, _, hm⟩)
        · exact absurd h hnotnone
        · exact absurd ⟨body, h⟩ hno
        · refine ⟨encode m, ?_, rfl⟩
          rw [mergeAarch64, parseInputs_eq hacc]
          exact bind_eq_ok.mpr ⟨_, rfl, bind_eq_ok.mpr ⟨m, hm, rfl⟩⟩

/-- A value that every input holds is the combined one. -/
lemma combined_of_same (hacc : Accepted inputs) (hne : inputs ≠ []) (hm : ∀ p ∈ inputs, mapOf p = m) :
    held vendor tag m = combined vendor tag (inputs.map mapOf) := by
  have hmaps : inputs.map mapOf = List.replicate inputs.length m := by
    rw [List.eq_replicate_iff, List.length_map]
    refine ⟨rfl, fun s hs => ?_⟩
    obtain ⟨p, hp, rfl⟩ := List.mem_map.mp hs
    exact hm p hp
  obtain ⟨p, hp⟩ := List.exists_mem_of_ne_nil _ hne
  cases hheld : held vendor tag m with
  | none =>
    refine (combined_eq_none fun s hs => ?_).symm
    rw [hmaps] at hs
    rw [List.eq_of_mem_replicate hs, hheld]
  | some v =>
    have hfind : (inputs.map mapOf).findSome? (held vendor tag) = some v := by
      obtain ⟨k, hk⟩ : ∃ k, inputs.length = k + 1 := ⟨inputs.length - 1, by
        have := List.length_pos_iff.mpr hne
        omega⟩
      rw [hmaps, hk, List.replicate_succ, List.findSome?_cons, hheld]
    rw [combined, hfind, Option.map_some]
    cases hrule : ruleFor vendor with
    | matching => rfl
    | and =>
      cases v with
      | str s => rfl
      | num n =>
        have hlt : n < 2 ^ 64 := by
          obtain ⟨s, hs, hv⟩ := held_eq_some.mp hheld
          exact (((plain_writable_mapOf hacc hp).1 vendor s (hm p hp ▸ hs)).2 tag _ hv).2
        dsimp only
        rw [andAll_eq_of_forall (n := n) (by simpa using hne) hlt]
        intro k hk
        obtain ⟨s, hs, rfl⟩ := List.mem_map.mp hk
        rw [hmaps] at hs
        rw [List.eq_of_mem_replicate hs, hheld]
        rfl

/-- **A merged section parses to what the inputs combine to exactly where the combined subsections have
room.** -/
theorem parse_merge_iff (hacc : Accepted inputs) {b : List Byte} (hout : merge .aarch64 inputs = .ok (some b)) :
    (∃ m, parse b = .ok m ∧ Merged inputs m) ↔ Room (inputs.map mapOf) := by
  have hwritable : ∀ s ∈ inputs.map mapOf, Writable s := by
    intro s hs
    obtain ⟨p, hp, rfl⟩ := List.mem_map.mp hs
    exact (plain_writable_mapOf hacc hp).2
  refine ⟨fun ⟨m, hparse, hm⟩ => room_of_writable hwritable (parse_plain_writable hparse).2 hm.combines,
    fun hroom => ?_⟩
  rcases (merge_eq_ok hacc).mp hout with ⟨h, _⟩ | ⟨body, h, hne, hsame⟩ | ⟨m, h, _, _, hm⟩
  · cases h
  · obtain rfl := Option.some.inj h
    obtain ⟨p, hp⟩ := List.exists_mem_of_ne_nil _ hne
    have hall : ∀ q ∈ inputs, mapOf q = mapOf p := by
      intro q hq
      rw [mapOf, mapOf, rawsOf, rawsOf, hsame p hp, hsame q hq]
    have hcombines : ∀ (vendor : String) (tag : ℕ), held vendor tag (mapOf p) =
        combined vendor tag (inputs.map mapOf) := fun _ _ => combined_of_same hacc hne hall
    exact ⟨mapOf p, parse_eq_mapOf (hsame p hp) (hacc p hp b (hsame p hp)), hcombines,
      fun vendor tag _ q hq => by rw [hall q hq],
      fun tag n i h hbit q hq => stated_of_combined ((hcombines _ _).symm.trans h) hbit hq⟩
  · obtain rfl := Option.some.inj h
    have hsnd : (inputs.map fun p => (p.1, mapOf p)).map Prod.snd = inputs.map mapOf := by
      rw [List.map_map]
      rfl
    have hcombines : ∀ (vendor : String) (tag : ℕ), held vendor tag m =
        combined vendor tag (inputs.map mapOf) := fun vendor tag => by rw [held_of_mergeParsed hm, hsnd]
    obtain ⟨hplain, hkind⟩ := plain_of_mergeParsed hm fun q hq => by
      obtain ⟨p, hp, rfl⟩ := List.mem_map.mp hq
      exact plain_writable_mapOf hacc hp
    have hwrite : Writable m := by
      intro vendor sub hsub
      refine ⟨hkind vendor sub hsub, length_subData_of_room hroom hcombines ?_ hsub⟩
      obtain ⟨q, hq, hsome⟩ := mem_vendorsOf.mp (((mergeParsed_eq_ok.mp hm).2 vendor sub).mp hsub).1
      obtain ⟨p, hp, rfl⟩ := List.mem_map.mp hq
      exact ⟨mapOf p, List.mem_map_of_mem hp, hsome⟩
    refine ⟨m, (parse_encode_iff hplain).mpr hwrite, hcombines, fun vendor tag hvendor p hp => ?_,
      fun tag n i h hbit q hq => stated_of_combined ((hcombines _ _).symm.trans h) hbit hq⟩
    have hrule : ruleFor vendor = .matching := by
      rw [ruleFor, if_neg hvendor]
    exact common_of_mergeParsed hm hrule (List.mem_map_of_mem (f := fun p => (p.1, mapOf p)) hp)

/-- **Whether there is a merged section, and which, does not depend on the order of the inputs.** -/
theorem toOption_merge_perm (hacc : Accepted inputs) (hperm : inputs.Perm inputs') :
    (merge .aarch64 inputs).toOption = (merge .aarch64 inputs').toOption := by
  have hacc' : Accepted inputs' := fun p hp => hacc p (hperm.mem_iff.mpr hp)
  have hsame : ∀ body, Same inputs body ↔ Same inputs' body :=
    fun body => forall_congr' fun _ => imp_congr_left hperm.mem_iff
  have hmerge : ∀ m, mergeParsed (inputs.map fun p => (p.1, mapOf p)) = .ok m ↔
      mergeParsed (inputs'.map fun p => (p.1, mapOf p)) = .ok m := fun m => mergeParsed_perm (hperm.map _)
  have hnil : inputs ≠ [] ↔ inputs' ≠ [] := by
    rw [Ne, Ne, ← List.length_eq_zero_iff, ← List.length_eq_zero_iff, hperm.length_eq]
  refine toOption_congr fun out => ?_
  rw [merge_eq_ok hacc, merge_eq_ok hacc']
  simp only [hsame, hmerge, hnil, hperm.mem_iff]

/-! ## Build attributes -/

/-- **Build attributes merge soundly where the merged subsections and the subsections that are written have
lengths of 32 bits, and no number that is read needs more than 64.** -/
theorem attributes_sound_iff (inputs : List Input) (subs : Subs) (b : List Byte) :
    (Accepted inputs →
      (∀ out, merge .aarch64 inputs = .ok (some out) →
        ((∃ m, parse out = .ok m ∧ Merged inputs m) ↔ Room (inputs.map mapOf))) ∧
      ∀ inputs', inputs.Perm inputs' →
        (merge .aarch64 inputs).toOption = (merge .aarch64 inputs').toOption) ∧
    (Plain subs → (parse (encode subs) = .ok subs ↔ Writable subs)) ∧
    parse b ≠ .error .panic ∧
    ((∀ n r, readUleb b = some (n, r) → exactUleb b = some (n, r)) ↔ ¬Oversized b) :=
  ⟨fun hacc => ⟨fun _ => parse_merge_iff hacc, fun _ => toOption_merge_perm hacc⟩, parse_encode_iff,
    parse_ne_panic, readUleb_exact_iff⟩

/-- A tag with the number 2⁶⁴. -/
def oversizedTag : List Byte := 1 :: (List.replicate 9 0x80 ++ [2])

/-- A section whose feature bits hold the number 2⁶⁴ is read with the number zero. -/
theorem parse_truncates :
    exactUleb oversizedTag.tail = some (2 ^ 64, []) ∧
      readBody (formatVersion :: (leBytes 4 40 ++ utf8 featureAndBits ++ [0, 1, 0] ++ oversizedTag)) =
        .ok [⟨featureAndBits, true, false, [(1, .num 0)]⟩] :=
  ⟨rfl, rfl⟩

end Badc.Attributes
