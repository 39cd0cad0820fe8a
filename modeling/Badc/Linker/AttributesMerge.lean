import Badc.Lib.Fallible
import Badc.Linker.AttributesTrip

/-!
# Merging build attributes

A merge combines each tag over the inputs: the feature bits by AND, every other tag by agreement.  What is
merged holds under each tag what `combined` says of the inputs (`mergeParsed_spec`), whatever their order
(`toOption_merge_perm`).
-/

namespace Badc.Attributes

variable {b : List Byte} {vendor : String} {tag acc n : ℕ} {parsed parsed' : Parsed} {maps : List Subs}
  {subs : Subs} {sub : Sub} {v : Value} {inputs inputs' : List Input}

/-! ## The merged values -/

/-- A tag's number; an input without the tag contributes zero. -/
def numOf : Option Value → ℕ
  | some (.num n) => n
  | _ => 0

/-- The AND of 64-bit numbers. -/
def andAll (ns : List ℕ) : ℕ := ns.foldl (· &&& ·) (2 ^ 64 - 1)

/-- The value that inputs give a tag: of feature bits the AND over all of them, of any other tag the value
that is held. -/
def combined (vendor : String) (tag : ℕ) (maps : List Subs) : Option Value :=
  (maps.findSome? (held vendor tag)).map fun v =>
    match ruleFor vendor, v with
    | .and, .num _ => .num (andAll (maps.map fun s => numOf (held vendor tag s)))
    | _, v => v

/-- A bit of an AND is a bit of each number. -/
lemma testBit_andAll {ns : List ℕ} {i : ℕ} (h : (andAll ns).testBit i) : ∀ n ∈ ns, n.testBit i := by
  have hfold : ∀ (ns : List ℕ) (acc : ℕ), (ns.foldl (· &&& ·) acc).testBit i →
      acc.testBit i ∧ ∀ n ∈ ns, n.testBit i := by
    intro ns
    induction ns with
    | nil => exact fun acc h => ⟨h, fun _ h => (nomatch h)⟩
    | cons n ns ih =>
      intro acc h
      obtain ⟨hacc, hns⟩ := ih _ h
      rw [Nat.testBit_and, Bool.and_eq_true] at hacc
      refine ⟨hacc.1, ?_⟩
      rintro m (_ | ⟨_, hm⟩)
      · exact hacc.2
      · exact hns m hm
  exact (hfold ns _ h).2

lemma andAll_lt (ns : List ℕ) : andAll ns < 2 ^ 64 := by
  have hfold : ∀ (ns : List ℕ) (acc : ℕ), acc < 2 ^ 64 → ns.foldl (· &&& ·) acc < 2 ^ 64 := by
    intro ns
    induction ns with
    | nil => exact fun acc h => h
    | cons n ns ih => exact fun acc h => ih _ (Nat.and_le_left.trans_lt h)
  exact hfold ns _ (by norm_num)

/-- The AND of equal numbers. -/
lemma andAll_eq_of_forall {ns : List ℕ} (hne : ns ≠ []) (hn : n < 2 ^ 64) (h : ∀ m ∈ ns, m = n) :
    andAll ns = n := by
  obtain ⟨k, hk⟩ : ∃ k, ns = List.replicate (k + 1) n := by
    refine ⟨ns.length - 1, List.eq_replicate_iff.mpr ⟨?_, h⟩⟩
    have := List.length_pos_iff.mpr hne
    omega
  have hfold : ∀ k, (List.replicate k n).foldl (· &&& ·) n = n := by
    intro k
    induction k with
    | zero => rfl
    | succ k ih => rw [List.replicate_succ, List.foldl_cons, Nat.and_self, ih]
  rw [andAll, hk, List.replicate_succ, List.foldl_cons, Nat.and_comm, Nat.and_two_pow_sub_one_eq_mod,
    Nat.mod_eq_of_lt hn, hfold]

lemma andAll_perm {ns ns' : List ℕ} (h : ns.Perm ns') : andAll ns = andAll ns' :=
  h.foldl_eq' (fun a _ b _ c => by rw [Nat.and_assoc, Nat.and_comm a, Nat.and_assoc]) _

/-! ## A tag -/

/-- The AND of a tag, where no input holds a string of it. -/
lemma andTag_eq_ok {r : ℕ} : andTag vendor tag acc parsed = .ok r ↔
    (∀ p ∈ parsed, ∀ s, held vendor tag p.2 ≠ some (.str s)) ∧
      r = (parsed.map fun p => numOf (held vendor tag p.2)).foldl (· &&& ·) acc := by
  induction parsed generalizing acc with
  | nil =>
    rw [andTag]
    exact ⟨fun h => ⟨fun _ h => (nomatch h), (Except.ok.inj h).symm⟩, fun h => congrArg _ h.2.symm⟩
  | cons p parsed ih =>
    obtain ⟨src, subs⟩ := p
    rw [andTag, List.forall_mem_cons, List.map_cons, List.foldl_cons]
    cases held vendor tag subs with
    | none =>
      dsimp only
      rw [ih]
      simp [numOf]
    | some v =>
      cases v with
      | num n =>
        dsimp only
        rw [ih]
        simp [numOf]
      | str s => exact ⟨fun h => (nomatch h), fun h => absurd rfl (h.1.1 s)⟩

/-- A tag matches where every input holds the value. -/
lemma matchTag_eq_ok {holder : String} {want : Value} : matchTag vendor tag holder want parsed = .ok () ↔
    ∀ p ∈ parsed, held vendor tag p.2 = some want := by
  induction parsed with
  | nil => exact ⟨fun _ _ h => (nomatch h), fun _ => rfl⟩
  | cons p parsed ih =>
    obtain ⟨src, subs⟩ := p
    rw [matchTag, List.forall_mem_cons]
    cases held vendor tag subs with
    | none => exact ⟨fun h => (nomatch h), fun h => nomatch h.1⟩
    | some v =>
      dsimp only
      split
      · rename_i hv
        rw [ih, hv]
        simp
      · rename_i hv
        exact ⟨fun h => (nomatch h), fun h => absurd (Option.some.inj h.1) hv⟩

/-- A tag of feature bits is merged by AND. -/
lemma mergeTag_and_eq_ok (hrule : ruleFor vendor = .and) : mergeTag vendor parsed tag = .ok v ↔
    (∀ p ∈ parsed, ∀ s, held vendor tag p.2 ≠ some (.str s)) ∧
      v = .num (andAll (parsed.map fun p => numOf (held vendor tag p.2))) := by
  rw [mergeTag, hrule]
  dsimp only
  rw [map_eq_ok]
  constructor
  · rintro ⟨r, h, rfl⟩
    obtain ⟨hstr, rfl⟩ := andTag_eq_ok.mp h
    exact ⟨hstr, rfl⟩
  · rintro ⟨hstr, rfl⟩
    exact ⟨_, andTag_eq_ok.mpr ⟨hstr, rfl⟩, rfl⟩

/-- Any other tag that is held is merged where every input holds the value. -/
lemma mergeTag_matching_eq_ok (hrule : ruleFor vendor = .matching)
    (hheld : ∃ p ∈ parsed, (held vendor tag p.2).isSome) : mergeTag vendor parsed tag = .ok v ↔
      ∀ p ∈ parsed, held vendor tag p.2 = some v := by
  rw [mergeTag, hrule]
  dsimp only
  split
  · rename_i hnone
    obtain ⟨p, hp, hsome⟩ := hheld
    have := List.findSome?_eq_none_iff.mp hnone p hp
    rw [Option.map_eq_none_iff] at this
    rw [this] at hsome
    cases hsome
  · rename_i holder want hfind
    obtain ⟨q, hq, hheldq⟩ := List.exists_of_findSome?_eq_some hfind
    obtain ⟨w, hw, heq⟩ := Option.map_eq_some_iff.mp hheldq
    obtain ⟨rfl, rfl⟩ := Prod.mk.inj heq
    rw [map_eq_ok]
    constructor
    · rintro ⟨⟨⟩, h, rfl⟩
      exact matchTag_eq_ok.mp h
    · intro h
      obtain rfl : v = w := Option.some.inj ((h q hq).symm.trans hw)
      exact ⟨(), matchTag_eq_ok.mpr h, rfl⟩

/-- The merged value of a tag that is held is the combined one. -/
lemma combined_of_mergeTag (hheld : ∃ p ∈ parsed, (held vendor tag p.2).isSome)
    (h : mergeTag vendor parsed tag = .ok v) : combined vendor tag (parsed.map Prod.snd) = some v := by
  obtain ⟨p, hp, hsome⟩ := hheld
  have hfind : ∃ w, (parsed.map Prod.snd).findSome? (held vendor tag) = some w := by
    rw [← Option.isSome_iff_exists, List.findSome?_isSome_iff]
    exact ⟨p.2, List.mem_map_of_mem hp, hsome⟩
  obtain ⟨w, hw⟩ := hfind
  obtain ⟨s, hs, hheld⟩ := List.exists_of_findSome?_eq_some hw
  obtain ⟨q, hq, rfl⟩ := List.mem_map.mp hs
  rw [combined, hw, Option.map_some]
  cases hrule : ruleFor vendor with
  | and =>
    obtain ⟨hstr, rfl⟩ := (mergeTag_and_eq_ok hrule).mp h
    cases w with
    | num n => rw [List.map_map]; rfl
    | str s => exact absurd hheld (hstr q hq s)
  | matching =>
    have hall := (mergeTag_matching_eq_ok hrule ⟨p, hp, hsome⟩).mp h
    rw [hall q hq] at hheld
    exact hheld.symm

lemma combined_eq_none (h : ∀ s ∈ maps, held vendor tag s = none) : combined vendor tag maps = none := by
  rw [combined, List.findSome?_eq_none_iff.mpr h]
  rfl

/-! ## A subsection -/

/-- The tags of a vendor are those that an input holds. -/
lemma mem_tagsOf : tag ∈ tagsOf vendor parsed ↔ ∃ p ∈ parsed, (held vendor tag p.2).isSome := by
  rw [tagsOf, Std.ExtTreeSet.mem_toList, Std.ExtTreeSet.mem_ofList, List.contains_iff_mem, List.mem_flatMap]
  simp only [List.mem_filterMap, Std.ExtTreeMap.mem_keys]
  constructor
  · rintro ⟨s, ⟨p, hp, hs⟩, htag⟩
    refine ⟨p, hp, ?_⟩
    rw [held, hs, Option.bind_some]
    exact Std.ExtTreeMap.isSome_getElem?_iff_mem.mpr htag
  · rintro ⟨p, hp, hheld⟩
    rw [held] at hheld
    cases hs : p.2[vendor]? with
    | none =>
      rw [hs] at hheld
      cases hheld
    | some s =>
      rw [hs, Option.bind_some] at hheld
      exact ⟨s, ⟨p, hp, hs⟩, Std.ExtTreeMap.isSome_getElem?_iff_mem.mp hheld⟩

lemma mem_vendorsOf : vendor ∈ vendorsOf parsed ↔ ∃ p ∈ parsed, (p.2[vendor]?).isSome := by
  rw [vendorsOf, Std.ExtTreeSet.mem_toList, Std.ExtTreeSet.mem_ofList, List.contains_iff_mem, List.mem_flatMap]
  simp only [Std.ExtTreeMap.mem_keys, Std.ExtTreeMap.isSome_getElem?_iff_mem]

/-- The shapes the inputs give a vendor's subsection. -/
def shapesOf (vendor : String) (parsed : Parsed) : List (Bool × Bool) :=
  parsed.filterMap fun p => p.2[vendor]?.map fun s => (s.optional, s.ntbs)

/-- The shape of a subsection is the one that every input with it gives it, and the one the ABI defines. -/
lemma shapeOf_eq_ok {shape : Option (String × Bool × Bool)} {q : Option (Bool × Bool)} :
    Option.map Prod.snd <$> shapeOf vendor shape parsed = .ok q ↔
      (∀ x ∈ shapesOf vendor parsed, (∀ want, abiShape vendor = some want → want = x) ∧ q = some x) ∧
        (∀ z, shape.map Prod.snd = some z → q = some z) ∧
        ∀ x, q = some x → shape.map Prod.snd = some x ∨ x ∈ shapesOf vendor parsed := by
  induction parsed generalizing shape with
  | nil =>
    rw [shapeOf, map_eq_ok]
    constructor
    · rintro ⟨r, h, rfl⟩
      obtain rfl := Except.ok.inj h
      exact ⟨fun _ h => (nomatch h), fun _ h => h, fun _ h => .inl h⟩
    · rintro ⟨_, hshape, hq⟩
      refine ⟨shape, rfl, Option.ext fun x => ⟨fun h => hshape x h, fun h => ?_⟩⟩
      exact (hq x h).resolve_right fun h => (nomatch h)
  | cons p parsed ih =>
    obtain ⟨src, subs⟩ := p
    rw [shapeOf, shapesOf, List.filterMap_cons]
    cases subs[vendor]? with
    | none => exact ih
    | some sub =>
      rw [Option.map_some, List.forall_mem_cons]
      dsimp only
      by_cases habi : ∀ want, abiShape vendor = some want → want = (sub.optional, sub.ntbs)
      · have hany : ((abiShape vendor).any fun want => want != (sub.optional, sub.ntbs)) = false := by
          rw [Option.any_eq_false]
          intro want hwant
          rw [habi want hwant, bne_self_eq_false]
        rw [hany, if_neg Bool.false_ne_true]
        cases shape with
        | none =>
          dsimp only
          rw [ih]
          simp only [Option.map_some, Option.map_none, List.mem_cons, Option.some.injEq]
          constructor
          · rintro ⟨hall, hq, hmem⟩
            exact ⟨⟨⟨habi, hq _ rfl⟩, hall⟩, fun _ h => (nomatch h),
              fun x hx => .inr ((hmem x hx).imp_left fun h => h.symm)⟩
          · rintro ⟨⟨⟨_, hq⟩, hall⟩, _, hmem⟩
            refine ⟨hall, fun z hz => hz ▸ hq, fun x hx => ?_⟩
            exact (hmem x hx).elim (fun h => nomatch h) fun h => h.imp_left fun h => h.symm
        | some z =>
          obtain ⟨other, optional, ntbs⟩ := z
          dsimp only
          split
          · rename_i hne
            refine ⟨fun h => (nomatch h), ?_⟩
            rintro ⟨⟨⟨_, hq⟩, _⟩, hz, _⟩
            exact absurd (Option.some.inj ((hz _ rfl).symm.trans hq)) hne
          · rename_i heq
            rw [not_ne_iff] at heq
            rw [ih]
            simp only [Option.map_some, List.mem_cons, Option.some.injEq]
            constructor
            · rintro ⟨hall, hq, hmem⟩
              exact ⟨⟨⟨habi, heq ▸ hq _ rfl⟩, hall⟩, hq, fun x hx => (hmem x hx).imp_right .inr⟩
            · rintro ⟨⟨_, hall⟩, hq, hmem⟩
              refine ⟨hall, hq, fun x hx => ?_⟩
              rcases hmem x hx with h | rfl | h
              · exact .inl h
              · exact .inl heq
              · exact .inr h
      · have hany : ((abiShape vendor).any fun want => want != (sub.optional, sub.ntbs)) = true := by
          push Not at habi
          obtain ⟨want, hwant, hne⟩ := habi
          rw [hwant, Option.any_some]
          exact bne_iff_ne.mpr hne
        rw [hany, if_pos rfl]
        exact ⟨fun h => (nomatch h), fun h => absurd h.1.1.1 habi⟩

/-- The map of a list of keys with what is computed of each. -/
lemma getElem?_collect {ε κ β : Type} {cmp : κ → κ → Ordering} [Std.TransCmp cmp] [Std.LawfulEqCmp cmp]
    [DecidableEq κ] {l : List κ} {g : κ → Except ε β} {r : List (κ × β)}
    (h : (l.mapM fun a => (fun v => (a, v)) <$> g a) = .ok r) {x : κ} {v : β} :
    (TreeMap.insertAll Prod.fst Prod.snd (∅ : Std.ExtTreeMap κ β cmp) r)[x]? = some v ↔
      x ∈ l ∧ g x = .ok v := by
  have hmem : ∀ p ∈ r, p.1 ∈ l ∧ g p.1 = .ok p.2 := by
    intro p hp
    obtain ⟨a, ha, hap⟩ := exists_of_mapM_right h hp
    obtain ⟨w, hw, rfl⟩ := map_eq_ok.mp hap
    exact ⟨ha, hw⟩
  constructor
  · intro hx
    obtain ⟨p, hp, rfl, rfl⟩ := TreeMap.exists_of_getElem?_insertAll hx
    exact hmem p hp
  · rintro ⟨hx, hv⟩
    obtain ⟨p, hp, hxp⟩ := exists_of_mapM_left h hx
    obtain ⟨w, hw, rfl⟩ := map_eq_ok.mp hxp
    obtain rfl : v = w := Except.ok.inj (hv.symm.trans hw)
    refine TreeMap.getElem?_insertAll_of_mem (k := Prod.fst) (f := Prod.snd) hp fun ⟨y, u⟩ hy hyx => ?_
    obtain rfl : y = x := hyx
    obtain rfl : u = v := Except.ok.inj ((hmem _ hy).2.symm.trans hv)
    rfl

/-- What a merge makes of a vendor's subsection. -/
lemma mergeSub_eq_ok : mergeSub vendor parsed = .ok sub ↔
    (Option.map Prod.snd <$> shapeOf vendor none parsed = .ok (some (sub.optional, sub.ntbs))) ∧
      (ruleFor vendor = .matching → ∀ p ∈ parsed, (p.2[vendor]?).isSome) ∧
      (∀ tag ∈ tagsOf vendor parsed, ∃ v, mergeTag vendor parsed tag = .ok v) ∧
      ∀ (tag : ℕ) (v : Value), sub.tags[tag]? = some v ↔
        tag ∈ tagsOf vendor parsed ∧ mergeTag vendor parsed tag = .ok v := by
  have hmissing : (if ruleFor vendor = .matching then parsed.find? fun p => p.2[vendor]?.isNone else none) =
      none ↔ (ruleFor vendor = .matching → ∀ p ∈ parsed, (p.2[vendor]?).isSome) := by
    split
    · rename_i hrule
      simp [hrule, List.find?_eq_none]
    · rename_i hrule
      exact iff_of_true rfl fun h => absurd h hrule
  rw [mergeSub, bind_eq_ok, ← hmissing, map_eq_ok]
  constructor
  · rintro ⟨shape, hshape, h⟩
    cases shape with
    | none => cases h
    | some shape =>
      obtain ⟨holder, optional, ntbs⟩ := shape
      dsimp only at h
      split at h
      · cases h
      · rename_i hnone
        obtain ⟨r, hr, hsub⟩ := bind_eq_ok.mp h
        obtain rfl := Except.ok.inj hsub
        refine ⟨⟨_, hshape, rfl⟩, hnone, fun tag htag => ?_, fun tag v => getElem?_collect hr⟩
        obtain ⟨p, _, hp⟩ := exists_of_mapM_left hr htag
        obtain ⟨v, hv, _⟩ := map_eq_ok.mp hp
        exact ⟨v, hv⟩
  · rintro ⟨⟨shape, hshape, hsnd⟩, hnone, hok, htags⟩
    obtain ⟨⟨holder, _⟩, rfl, rfl⟩ := Option.map_eq_some_iff.mp hsnd
    refine ⟨_, hshape, ?_⟩
    dsimp only
    rw [hnone]
    obtain ⟨r, hr⟩ := exists_mapM_eq_ok (h := fun tag => (fun v => (tag, v)) <$> mergeTag vendor parsed tag)
      fun tag htag => by
        obtain ⟨v, hv⟩ := hok tag htag
        exact ⟨_, map_eq_ok.mpr ⟨v, hv, rfl⟩⟩
    refine bind_eq_ok.mpr ⟨r, hr, ?_⟩
    have hmap : tagMap r = sub.tags := Std.ExtTreeMap.ext_getElem? fun tag => Option.ext fun v => by
      rw [htags]
      exact getElem?_collect hr
    rw [hmap]
    rfl

/-! ## A section -/

/-- What a merge makes of the inputs. -/
lemma mergeParsed_eq_ok : mergeParsed parsed = .ok subs ↔
    (∀ vendor ∈ vendorsOf parsed, ∃ sub, mergeSub vendor parsed = .ok sub) ∧
      ∀ (vendor : String) (sub : Sub), subs[vendor]? = some sub ↔
        vendor ∈ vendorsOf parsed ∧ mergeSub vendor parsed = .ok sub := by
  rw [mergeParsed, bind_eq_ok]
  constructor
  · rintro ⟨r, hr, hsubs⟩
    obtain rfl := Except.ok.inj hsubs
    refine ⟨fun vendor hvendor => ?_, fun vendor sub => getElem?_collect hr⟩
    obtain ⟨p, _, hp⟩ := exists_of_mapM_left hr hvendor
    obtain ⟨sub, hsub, _⟩ := map_eq_ok.mp hp
    exact ⟨sub, hsub⟩
  · rintro ⟨hok, hsubs⟩
    obtain ⟨r, hr⟩ := exists_mapM_eq_ok (h := fun vendor => (fun sub => (vendor, sub)) <$> mergeSub vendor parsed)
      fun vendor hvendor => by
        obtain ⟨sub, hsub⟩ := hok vendor hvendor
        exact ⟨_, map_eq_ok.mpr ⟨sub, hsub, rfl⟩⟩
    refine ⟨r, hr, congrArg Except.ok (Std.ExtTreeMap.ext_getElem? fun vendor => Option.ext fun sub => ?_)⟩
    rw [hsubs]
    exact getElem?_collect hr

lemma held_eq_some : held vendor tag subs = some v ↔ ∃ s, subs[vendor]? = some s ∧ s.tags[tag]? = some v :=
  Option.bind_eq_some_iff

/-- A tag that an input holds is merged. -/
lemma mergeTag_of_mergeParsed (h : mergeParsed parsed = .ok subs)
    (hheld : ∃ p ∈ parsed, (held vendor tag p.2).isSome) :
    ∃ v, mergeTag vendor parsed tag = .ok v ∧ held vendor tag subs = some v := by
  obtain ⟨hok, hsubs⟩ := mergeParsed_eq_ok.mp h
  have hvendor : vendor ∈ vendorsOf parsed := by
    obtain ⟨p, hp, hsome⟩ := hheld
    obtain ⟨v, hv⟩ := Option.isSome_iff_exists.mp hsome
    obtain ⟨s, hs, _⟩ := held_eq_some.mp hv
    exact mem_vendorsOf.mpr ⟨p, hp, by rw [hs]; rfl⟩
  obtain ⟨sub, hsub⟩ := hok vendor hvendor
  obtain ⟨_, _, htag, htags⟩ := mergeSub_eq_ok.mp hsub
  obtain ⟨v, hv⟩ := htag tag (mem_tagsOf.mpr hheld)
  exact ⟨v, hv, held_eq_some.mpr ⟨sub, (hsubs vendor sub).mpr ⟨hvendor, hsub⟩,
    (htags tag v).mpr ⟨mem_tagsOf.mpr hheld, hv⟩⟩⟩

lemma held_eq_none_of_mergeParsed (h : mergeParsed parsed = .ok subs)
    (hheld : ¬∃ p ∈ parsed, (held vendor tag p.2).isSome) : held vendor tag subs = none := by
  obtain ⟨_, hsubs⟩ := mergeParsed_eq_ok.mp h
  refine Option.eq_none_iff_forall_ne_some.mpr fun v hv => ?_
  obtain ⟨sub, hsub, hv⟩ := held_eq_some.mp hv
  obtain ⟨_, hsub⟩ := (hsubs vendor sub).mp hsub
  exact hheld (mem_tagsOf.mp (((mergeSub_eq_ok.mp hsub).2.2.2 tag v).mp hv).1)

/-- What is merged holds of each tag the combined value. -/
lemma held_of_mergeParsed (h : mergeParsed parsed = .ok subs) (vendor : String) (tag : ℕ) :
    held vendor tag subs = combined vendor tag (parsed.map Prod.snd) := by
  by_cases hheld : ∃ p ∈ parsed, (held vendor tag p.2).isSome
  · obtain ⟨v, hv, hsubs⟩ := mergeTag_of_mergeParsed h hheld
    rw [hsubs, combined_of_mergeTag hheld hv]
  · rw [held_eq_none_of_mergeParsed h hheld]
    refine (combined_eq_none fun s hs => ?_).symm
    obtain ⟨p, hp, rfl⟩ := List.mem_map.mp hs
    by_contra hsome
    exact hheld ⟨p, hp, Option.isSome_iff_ne_none.mpr hsome⟩

lemma common_of_mergeParsed (h : mergeParsed parsed = .ok subs) (hrule : ruleFor vendor = .matching)
    {p : String × Subs} (hp : p ∈ parsed) : held vendor tag p.2 = held vendor tag subs := by
  by_cases hheld : ∃ p ∈ parsed, (held vendor tag p.2).isSome
  · obtain ⟨v, hv, hsubs⟩ := mergeTag_of_mergeParsed h hheld
    rw [hsubs, (mergeTag_matching_eq_ok hrule hheld).mp hv p hp]
  · rw [held_eq_none_of_mergeParsed h hheld]
    by_contra hsome
    exact hheld ⟨p, hp, Option.isSome_iff_ne_none.mpr hsome⟩

lemma ruleFor_eq_and : ruleFor vendor = .and ↔ vendor = featureAndBits := by
  rw [ruleFor]
  split
  · rename_i h
    exact iff_of_true rfl h
  · rename_i h
    exact iff_of_false (fun h => nomatch h) h

/-- What is merged of plain subsections is plain, and each merged subsection holds values of the kind it
states. -/
lemma plain_of_mergeParsed (h : mergeParsed parsed = .ok subs)
    (hall : ∀ p ∈ parsed, Plain p.2 ∧ Writable p.2) :
    Plain subs ∧ ∀ (vendor : String) (sub : Sub), subs[vendor]? = some sub →
      ∀ (tag : ℕ) (v : Value), sub.tags[tag]? = some v → v.isStr = sub.ntbs := by
  obtain ⟨_, hsubs⟩ := mergeParsed_eq_ok.mp h
  have htag : ∀ (vendor : String) (sub : Sub), subs[vendor]? = some sub → ∀ (tag : ℕ) (v : Value),
      sub.tags[tag]? = some v → tag < 2 ^ 64 ∧ v.Plain ∧ v.isStr = sub.ntbs := by
    intro vendor sub hsub tag v hv
    obtain ⟨hvendor, hsub⟩ := (hsubs vendor sub).mp hsub
    obtain ⟨hshape, _, _, htags⟩ := mergeSub_eq_ok.mp hsub
    obtain ⟨hmem, hv⟩ := (htags tag v).mp hv
    obtain ⟨p, hp, hsome⟩ := mem_tagsOf.mp hmem
    obtain ⟨w, hw⟩ := Option.isSome_iff_exists.mp hsome
    obtain ⟨s, hs, hw'⟩ := held_eq_some.mp hw
    -- The input's subsection has the merged shape.
    have hx : (s.optional, s.ntbs) ∈ shapesOf vendor parsed :=
      List.mem_filterMap.mpr ⟨p, hp, by rw [hs]; rfl⟩
    obtain ⟨habi, hq⟩ := (shapeOf_eq_ok.mp hshape).1 _ hx
    obtain ⟨hopt, hntbs⟩ := Prod.mk.inj (Option.some.inj hq)
    obtain ⟨hplain, hwrite⟩ := hall p hp
    obtain ⟨hlt, hwplain⟩ := (hplain vendor s hs).2 tag w hw'
    have hkind := (hwrite vendor s hs).1 tag w hw'
    refine ⟨hlt, ?_⟩
    cases hrule : ruleFor vendor with
    | and =>
      obtain ⟨_, rfl⟩ := (mergeTag_and_eq_ok hrule).mp hv
      have hshape := habi (true, false) (by rw [abiShape, if_pos (ruleFor_eq_and.mp hrule)])
      exact ⟨andAll_lt _, by rw [hntbs, ← (Prod.mk.inj hshape).2]; rfl⟩
    | matching =>
      have hpv := (mergeTag_matching_eq_ok hrule ⟨p, hp, hsome⟩).mp hv p hp
      obtain rfl : w = v := Option.some.inj (hw.symm.trans hpv)
      exact ⟨hwplain, by rw [hkind, hntbs]⟩
  refine ⟨fun vendor sub hsub => ⟨?_, fun tag v hv => ?_⟩, fun vendor sub hsub tag v hv => ?_⟩
  · obtain ⟨p, hp, hsome⟩ := mem_vendorsOf.mp ((hsubs vendor sub).mp hsub).1
    obtain ⟨s, hs⟩ := Option.isSome_iff_exists.mp hsome
    exact ((hall p hp).1 vendor s hs).1
  · exact ⟨(htag vendor sub hsub tag v hv).1, (htag vendor sub hsub tag v hv).2.1⟩
  · exact (htag vendor sub hsub tag v hv).2.2

/-! ## The order of the inputs -/

lemma forall_perm (hperm : parsed.Perm parsed') {P : String × Subs → Prop} :
    (∀ p ∈ parsed, P p) ↔ ∀ p ∈ parsed', P p :=
  forall_congr' fun _ => imp_congr_left hperm.mem_iff

lemma exists_perm (hperm : parsed.Perm parsed') {P : String × Subs → Prop} :
    (∃ p ∈ parsed, P p) ↔ ∃ p ∈ parsed', P p :=
  exists_congr fun _ => and_congr_left fun _ => hperm.mem_iff

lemma mergeTag_perm (hperm : parsed.Perm parsed') (hheld : ∃ p ∈ parsed, (held vendor tag p.2).isSome) :
    mergeTag vendor parsed tag = .ok v ↔ mergeTag vendor parsed' tag = .ok v := by
  cases hrule : ruleFor vendor with
  | and =>
    rw [mergeTag_and_eq_ok hrule, mergeTag_and_eq_ok hrule, forall_perm hperm,
      andAll_perm (hperm.map fun p => numOf (held vendor tag p.2))]
  | matching =>
    rw [mergeTag_matching_eq_ok hrule hheld, mergeTag_matching_eq_ok hrule ((exists_perm hperm).mp hheld),
      forall_perm hperm]

lemma mergeSub_perm (hperm : parsed.Perm parsed') :
    mergeSub vendor parsed = .ok sub ↔ mergeSub vendor parsed' = .ok sub := by
  have hshapes : ∀ x, x ∈ shapesOf vendor parsed ↔ x ∈ shapesOf vendor parsed' :=
    fun x => (hperm.filterMap _).mem_iff
  have htagsOf : ∀ tag, tag ∈ tagsOf vendor parsed ↔ tag ∈ tagsOf vendor parsed' :=
    fun tag => by rw [mem_tagsOf, mem_tagsOf, exists_perm hperm]
  have htag : ∀ tag ∈ tagsOf vendor parsed', ∀ v,
      mergeTag vendor parsed tag = .ok v ↔ mergeTag vendor parsed' tag = .ok v :=
    fun tag htag v => mergeTag_perm hperm (mem_tagsOf.mp ((htagsOf tag).mpr htag))
  rw [mergeSub_eq_ok, mergeSub_eq_ok, shapeOf_eq_ok, shapeOf_eq_ok, forall_perm hperm]
  simp only [hshapes, htagsOf]
  refine and_congr_right fun _ => and_congr_right fun _ => and_congr ?_ ?_
  · exact forall₂_congr fun tag hmem => exists_congr fun v => htag tag hmem v
  · exact forall₂_congr fun tag v => iff_congr Iff.rfl (and_congr_right fun hmem => htag tag hmem v)

lemma mergeParsed_perm (hperm : parsed.Perm parsed') :
    mergeParsed parsed = .ok subs ↔ mergeParsed parsed' = .ok subs := by
  have hvendors : ∀ vendor, vendor ∈ vendorsOf parsed ↔ vendor ∈ vendorsOf parsed' :=
    fun vendor => by rw [mem_vendorsOf, mem_vendorsOf, exists_perm hperm]
  rw [mergeParsed_eq_ok, mergeParsed_eq_ok]
  simp only [hvendors, mergeSub_perm hperm]

end Badc.Attributes
