import Badc.Linker.GnuPropertyMerge

/-!
# Merging merged groups

Relocatable links merge the notes of groups of inputs, and a later link merges the results.  A merged
group claims what survived of it (`claimOf_section`), and is silent of a type that was dropped.  The
general facts about combining in two stages then say what this changes: `merge_groups_iff`.  Only
types whose bits unite are concerned, since an all-zero bit set is stated by an input but not written.
-/

namespace Badc.GnuProperty

variable {align ty : ℕ} {rule : Rule} {inputs g : List Input} {groups : List (List Input)}

/-! ## A merged group as an input -/

lemma length_join_le (hrule : rule.numeric) {x y : Claim} (hx : x.1.length ≤ 8) :
    (rule.join x y).1.length ≤ 8 := by
  cases rule with
  | and | or | orAnd | max => exact length_numJoin.trans_le (min_le_right _ _)
  | present | agree => exact hx

lemma length_of_mergedAt (hrule : (ruleFor ty).numeric) {d : List Byte}
    (h : mergedAt inputs align ty = some d) : d.length ≤ 8 := by
  rw [mergedAt_eq] at h
  obtain ⟨c, hc, rfl⟩ := Option.map_eq_some_iff.mp h
  refine joined_induction (I := fun c : Claim => c.1.length ≤ 8)
    (fun _ _ hx _ => length_join_le hrule hx) (fun c hc => ?_) (joined_of_combine hc).1
  rw [reduceOption_map] at hc
  obtain ⟨notes, -, hclaim⟩ := List.mem_filterMap.mp hc
  exact length_claimOf hrule hclaim

/-- What is combined is without disagreement. -/
lemma snd_of_combine {c : Claim}
    (h : (ruleFor ty).combine (inputs.map (claimOf align ty)) = some c) : c.2 = false := by
  obtain ⟨hjoin, hkeep⟩ := joined_of_combine h
  by_cases hrule : ruleFor ty = .agree
  · rw [hrule] at hkeep
    simpa [Rule.keep] using hkeep
  · refine joined_induction (I := fun c : Claim => c.2 = false) (fun x y hx hy => ?_)
      (fun c hc => ?_) hjoin
    · cases hr : ruleFor ty with
      | agree => exact absurd hr hrule
      | and | or | orAnd | max | present =>
        exact (congrArg₂ Bool.or hx hy).trans (Bool.or_false _)
    · rw [reduceOption_map] at hc
      obtain ⟨notes, -, hclaim⟩ := List.mem_filterMap.mp hc
      exact claimOf_snd hrule hclaim

lemma mergedAt_map :
    (mergedAt inputs align ty).map (fun d => (d, false)) =
      (ruleFor ty).combine (inputs.map (claimOf align ty)) := by
  rw [mergedAt_eq, Option.map_map]
  cases hc : (ruleFor ty).combine (inputs.map (claimOf align ty)) with
  | none => rfl
  | some c => exact congrArg some (Prod.ext rfl (snd_of_combine hc).symm)

lemma mergedAt_eq_iff {inputs' : List Input} :
    mergedAt inputs align ty = mergedAt inputs' align ty ↔
      (ruleFor ty).combine (inputs.map (claimOf align ty)) =
        (ruleFor ty).combine (inputs'.map (claimOf align ty)) := by
  rw [← mergedAt_map, ← mergedAt_map]
  refine ⟨fun h => by rw [h], fun h => Option.map_injective ?_ h⟩
  exact fun a b hab => congrArg Prod.fst hab

/-- Properties in order have one payload of a type. -/
lemma filter_merge :
    ((merge inputs align).filter fun p => p.ty = ty ∧ p.admitted).map Property.data =
      (mergedAt inputs align ty).toList := by
  cases hd : mergedAt inputs align ty with
  | none =>
    rw [List.filter_eq_nil_iff.mpr]
    · rfl
    · intro p hp hcond
      obtain ⟨rfl, -⟩ := of_decide_eq_true hcond
      rw [mem_merge.mp (show (⟨p.ty, p.data⟩ : Property) ∈ _ from hp)] at hd
      cases hd
  | some d =>
    have hadm : (⟨ty, d⟩ : Property).admitted = true := by
      cases hnum : (ruleFor ty).numeric with
      | false => simp [Property.admitted, hnum]
      | true =>
        have := length_of_mergedAt hnum hd
        simp only [Property.admitted, hnum, Bool.true_and, Bool.not_eq_true',
          decide_eq_false_iff_not]
        omega
    have hmem : (⟨ty, d⟩ : Property) ∈
        (merge inputs align).filter fun p => p.ty = ty ∧ p.admitted :=
      List.mem_filter.mpr ⟨mem_merge.mpr hd, decide_eq_true ⟨rfl, hadm⟩⟩
    have hty : ∀ p ∈ (merge inputs align).filter fun p => p.ty = ty ∧ p.admitted, p.ty = ty :=
      fun p hp => (of_decide_eq_true (List.mem_filter.mp hp).2).1
    have hpair : ((merge inputs align).filter fun p => p.ty = ty ∧ p.admitted).Pairwise
        fun p q => p.ty < q.ty := pairwise_merge.filter _
    generalize (merge inputs align).filter (fun p => p.ty = ty ∧ p.admitted) = l at hmem hty hpair ⊢
    obtain _ | ⟨p, _ | ⟨q, rest⟩⟩ := l
    · cases hmem
    · rw [← List.mem_singleton.mp hmem]
      rfl
    · have hlt := (List.pairwise_cons.mp hpair).1 q (.head _)
      rw [hty p (.head _), hty q (List.mem_cons_of_mem _ (.head _))] at hlt
      exact absurd hlt (lt_irrefl ty)

lemma properties_section (halign : align = 4 ∨ align = 8) (hfits : Fits (merge g align) align) :
    ((mergeSection g align).toList.flatMap fun note => properties note align) = merge g align := by
  unfold mergeSection
  by_cases hnil : merge g align = []
  · rw [hnil]
    rfl
  · simp only [ne_eq, hnil, not_false_eq_true, if_true, Option.toList_some, List.flatMap_cons,
      List.flatMap_nil, List.append_nil]
    exact properties_encode halign hfits

/-- A merged group claims what was left of it. -/
theorem claimOf_section (halign : align = 4 ∨ align = 8) (hfits : Fits (merge g align) align) :
    claimOf align ty (mergeSection g align).toList =
      (ruleFor ty).combine (g.map (claimOf align ty)) := by
  rw [claimOf, getElem?_ownAccs, stated, properties_section halign hfits, filter_merge,
    ← mergedAt_map]
  cases mergedAt g align ty <;> rfl

/-! ## Types whose bits unite -/

/-- The payloads the inputs state of a type. -/
def payloads (align ty : ℕ) (inputs : List Input) : List (List Byte) :=
  inputs.flatMap (stated align ty)

/-- All the bits the inputs state of a type. -/
def unionOf (align ty : ℕ) (inputs : List Input) : ℕ :=
  (payloads align ty inputs).foldl (fun v d => v ||| readLe d) 0

/-- The widest payload the inputs state of a type. -/
def widestOf (align ty : ℕ) (inputs : List Input) : ℕ :=
  (payloads align ty inputs).foldl (fun w d => max w d.length) 0

lemma foldl_or (ds : List (List Byte)) (v : ℕ) :
    ds.foldl (fun v d => v ||| readLe d) v = v ||| ds.foldl (fun v d => v ||| readLe d) 0 := by
  induction ds generalizing v with
  | nil => exact (Nat.or_zero v).symm
  | cons d ds ih =>
    rw [List.foldl_cons, List.foldl_cons, ih, ih (0 ||| readLe d), Nat.zero_or, Nat.or_assoc]

lemma unionOf_append {inputs' : List Input} :
    unionOf align ty (inputs ++ inputs') = unionOf align ty inputs ||| unionOf align ty inputs' := by
  rw [unionOf, payloads, List.flatMap_append, List.foldl_append, foldl_or]
  rfl

section Unites

variable (hrule : ruleFor ty = .or ∨ ruleFor ty = .orAnd)

include hrule

lemma join_of_unites (x y : Claim) :
    (ruleFor ty).join x y = (numJoin (· ||| ·) x.1 y.1, x.2 || y.2) := by
  obtain h | h := hrule <;> rw [h] <;> rfl

/-- The inputs' claims in one are their payloads in one. -/
lemma joined_claims :
    joined (ruleFor ty).join (inputs.map (claimOf align ty)).reduceOption =
      joined (ruleFor ty).join ((payloads align ty inputs).map fun d => (d, false)) := by
  have hflat (pss : List (List Claim)) :
      joined (ruleFor ty).join (pss.filterMap (joined (ruleFor ty).join)) =
        joined (ruleFor ty).join pss.flatten := joined_flatten
  specialize hflat (inputs.map fun notes => (stated align ty notes).map fun d => (d, false))
  rw [List.filterMap_map] at hflat
  rw [reduceOption_map, payloads, List.map_flatMap, List.flatMap, ← hflat]
  simp only [claimOf_eq_joined hrule, Function.comp_def]

/-- Payloads in one: their bits, and the widest of their widths. -/
lemma joined_payloads {ds : List (List Byte)} (hlen : ∀ d ∈ ds, d.length ≤ 8) {c : Claim}
    (h : joined (ruleFor ty).join (ds.map fun d => (d, false)) = some c) :
    readLe c.1 = ds.foldl (fun v d => v ||| readLe d) 0 ∧
      c.1.length = ds.foldl (fun w d => max w d.length) 0 ∧ c.2 = false := by
  obtain _ | ⟨d, ds⟩ := ds
  · cases h
  rw [List.map_cons, joined_cons, Option.some.injEq] at h
  subst h
  rw [List.foldl_cons, List.foldl_cons, Nat.zero_or, Nat.zero_max]
  rw [List.forall_mem_cons] at hlen
  obtain ⟨hd, hlen⟩ := hlen
  induction ds generalizing d with
  | nil => exact ⟨rfl, rfl, rfl⟩
  | cons e ds ih =>
    rw [List.forall_mem_cons] at hlen
    obtain ⟨he, hlen⟩ := hlen
    have hwidth : (numJoin (· ||| ·) d e).length = max d.length e.length := by
      rw [length_numJoin]
      omega
    have hrest := ih (numJoin (· ||| ·) d e) (by omega) hlen
    rw [readLe_numJoin fitsWidth_or, hwidth] at hrest
    rw [List.map_cons, List.foldl_cons, join_of_unites hrule]
    exact hrest

/-- The inputs' claims in one, if any is made: all their bits, as wide as the widest. -/
lemma joined_spec {c : Claim}
    (h : joined (ruleFor ty).join (inputs.map (claimOf align ty)).reduceOption = some c) :
    readLe c.1 = unionOf align ty inputs ∧ c.1.length = widestOf align ty inputs ∧
      c.1.length ≤ 8 ∧ c.2 = false := by
  have hnum : (ruleFor ty).numeric := by obtain h | h := hrule <;> rw [h] <;> rfl
  have hlen : ∀ d ∈ payloads align ty inputs, d.length ≤ 8 := by
    intro d hd
    obtain ⟨notes, -, hd⟩ := List.mem_flatMap.mp hd
    exact length_of_mem_stated hnum hd
  have hle : c.1.length ≤ 8 := by
    refine joined_induction (I := fun c : Claim => c.1.length ≤ 8)
      (fun _ _ hx _ => length_join_le hnum hx) (fun c hc => ?_) h
    rw [reduceOption_map] at hc
    obtain ⟨notes, -, hclaim⟩ := List.mem_filterMap.mp hc
    exact length_claimOf hnum hclaim
  rw [joined_claims hrule] at h
  obtain ⟨hread, hwidth, hconf⟩ := joined_payloads hrule hlen h
  exact ⟨hread, hwidth, hle, hconf⟩

lemma exists_joined (h : payloads align ty inputs ≠ []) :
    ∃ c, joined (ruleFor ty).join (inputs.map (claimOf align ty)).reduceOption = some c := by
  rw [← Option.ne_none_iff_exists', joined_claims hrule, Ne, joined_eq_none, List.map_eq_nil_iff]
  exact h

lemma isSome_claimOf {notes : Input} :
    (claimOf align ty notes).isSome ↔ stated align ty notes ≠ [] := by
  rw [claimOf_eq_joined hrule, Option.isSome_iff_ne_none, Ne, joined_eq_none, List.map_eq_nil_iff]

lemma keep_iff (c : Claim) : (ruleFor ty).keep c ↔ readLe c.1 ≠ 0 := by
  obtain h | h := hrule <;> rw [h] <;> exact decide_eq_true_iff

omit hrule in
lemma payloads_ne_nil_of_unionOf (h : unionOf align ty inputs ≠ 0) :
    payloads align ty inputs ≠ [] := by
  intro hnil
  rw [unionOf, hnil] at h
  exact h rfl

/-- The combined claim where any input may make it: there is one when there is a bit. -/
lemma combineAny_claims_isSome :
    (combineAny (ruleFor ty).join (ruleFor ty).keep (inputs.map (claimOf align ty))).isSome ↔
      unionOf align ty inputs ≠ 0 := by
  rw [combineAny]
  cases hjoin : joined (ruleFor ty).join (inputs.map (claimOf align ty)).reduceOption with
  | none =>
    rw [joined_claims hrule, joined_eq_none, List.map_eq_nil_iff] at hjoin
    simp [unionOf, hjoin]
  | some c =>
    rw [Option.filter_some, ← (joined_spec hrule hjoin).1, ← keep_iff hrule]
    split <;> simp_all

/-- The combined claim where any input may make it is known by its bits and its width. -/
lemma combineAny_claims_eq_iff {inputs' : List Input}
    (hunion : unionOf align ty inputs = unionOf align ty inputs') :
    combineAny (ruleFor ty).join (ruleFor ty).keep (inputs.map (claimOf align ty)) =
        combineAny (ruleFor ty).join (ruleFor ty).keep (inputs'.map (claimOf align ty)) ↔
      (unionOf align ty inputs' ≠ 0 → widestOf align ty inputs = widestOf align ty inputs') := by
  by_cases hzero : unionOf align ty inputs' = 0
  · have hnone (l : List Input) (hl : unionOf align ty l = 0) :
        combineAny (ruleFor ty).join (ruleFor ty).keep (l.map (claimOf align ty)) = none := by
      rw [← Option.not_isSome_iff_eq_none, combineAny_claims_isSome hrule, not_not]
      exact hl
    rw [hnone _ hzero, hnone _ (hunion.trans hzero)]
    exact ⟨fun _ h => absurd hzero h, fun _ => rfl⟩
  · have hzero' : unionOf align ty inputs ≠ 0 := hunion ▸ hzero
    obtain ⟨c, hc⟩ := Option.isSome_iff_exists.mp ((combineAny_claims_isSome hrule).mpr hzero')
    obtain ⟨c', hc'⟩ := Option.isSome_iff_exists.mp ((combineAny_claims_isSome hrule).mpr hzero)
    obtain ⟨hread, hwidth, hle, hconf⟩ := joined_spec hrule (Option.filter_eq_some_iff.mp hc).1
    obtain ⟨hread', hwidth', hle', hconf'⟩ := joined_spec hrule (Option.filter_eq_some_iff.mp hc').1
    rw [hc, hc', Option.some.injEq]
    constructor
    · rintro rfl -
      exact hwidth.symm.trans hwidth'
    · intro h
      refine Prod.ext ?_ (hconf.trans hconf'.symm)
      rw [← leBytesOf_readLe hle, ← leBytesOf_readLe hle', hread, hread', hwidth, hwidth', h hzero,
        hunion]

end Unites

/-- The groups with a bit of the type hold all its bits. -/
lemma unionOf_filter :
    unionOf align ty (groups.filter fun g => unionOf align ty g ≠ 0).flatten =
      unionOf align ty groups.flatten := by
  induction groups with
  | nil => rfl
  | cons g groups ih =>
    rw [List.flatten_cons, unionOf_append, ← ih]
    by_cases hg : unionOf align ty g = 0
    · rw [List.filter_cons_of_neg (by simpa using hg), hg, Nat.zero_or]
    · rw [List.filter_cons_of_pos (by simpa using hg), List.flatten_cons, unionOf_append]

/-! ## The two links -/

/-- What the groups lose of a type whose bits unite: a group in which every input states no bit is
silent after its link. -/
structure KeepsClaims (groups : List (List Input)) (align : ℕ) : Prop where
  /-- A type that every input has to state, and that has a bit, has one in every group. -/
  orAnd : ∀ ty, ruleFor ty = .orAnd → (∀ notes ∈ groups.flatten, stated align ty notes ≠ []) →
    unionOf align ty groups.flatten ≠ 0 → ∀ g ∈ groups, unionOf align ty g ≠ 0
  /-- The widest payload of a type that any input may state, and that has a bit, is in a group that
  has one. -/
  or : ∀ ty, ruleFor ty = .or → unionOf align ty groups.flatten ≠ 0 →
    widestOf align ty (groups.filter fun g => unionOf align ty g ≠ 0).flatten =
      widestOf align ty groups.flatten

/-- Groups of a type that every input has to state. -/
lemma combine_groups_orAnd (hne : ∀ g ∈ groups, g ≠ []) (hrule : ruleFor ty = .orAnd) :
    Rule.combine (ruleFor ty) (groups.map fun g =>
          Rule.combine (ruleFor ty) (g.map (claimOf align ty))) =
        Rule.combine (ruleFor ty) (groups.flatten.map (claimOf align ty)) ↔
      ((∀ notes ∈ groups.flatten, stated align ty notes ≠ []) →
        unionOf align ty groups.flatten ≠ 0 → ∀ g ∈ groups, unionOf align ty g ≠ 0) := by
  have hunites : ruleFor ty = .or ∨ ruleFor ty = .orAnd := Or.inr hrule
  have hcombine (xs : List (Option Claim)) :
      (ruleFor ty).combine xs = combineAll (ruleFor ty).join (ruleFor ty).keep xs := by
    rw [hrule]
    rfl
  have hstage := combineAll_map_iff (ruleFor ty).join (ruleFor ty).keep
    (groups.map (List.map (claimOf align ty))) (by simpa using hne)
  have hkeep {l : List Input} {c : Claim}
      (h : joined (ruleFor ty).join (l.map (claimOf align ty)).reduceOption = some c) :
      (ruleFor ty).keep c ↔ unionOf align ty l ≠ 0 := by
    rw [keep_iff hunites, (joined_spec hunites h).1]
  have hstatedAll : (groups.flatten.map (claimOf align ty)).all Option.isSome = true ↔
      ∀ notes ∈ groups.flatten, stated align ty notes ≠ [] := by
    rw [List.all_map, List.all_eq_true]
    exact forall₂_congr fun notes _ => isSome_claimOf hunites
  simp only [hcombine]
  rw [List.map_map, ← List.map_flatten, hstatedAll] at hstage
  refine hstage.trans ⟨fun h hall hunion g hg => ?_, fun h hall c hc hkc g' hg' q hq => ?_⟩
  · obtain ⟨c, hc⟩ := exists_joined hunites (payloads_ne_nil_of_unionOf hunion)
    have hstated : payloads align ty g ≠ [] := by
      obtain ⟨notes, hnotes⟩ := List.exists_mem_of_ne_nil g (hne g hg)
      obtain ⟨d, hd⟩ := List.exists_mem_of_ne_nil _ (hall notes (List.mem_flatten_of_mem hg hnotes))
      exact List.ne_nil_of_mem (List.mem_flatMap.mpr ⟨notes, hnotes, hd⟩)
    obtain ⟨q, hq⟩ := exists_joined hunites hstated
    exact (hkeep hq).mp (h hall c hc ((hkeep hc).mpr hunion) _ (List.mem_map_of_mem hg) q hq)
  · obtain ⟨g, hg, rfl⟩ := List.mem_map.mp hg'
    exact (hkeep hq).mpr (h hall ((hkeep hc).mp hkc) g hg)

/-- Groups of a type that any input may state. -/
lemma combine_groups_or (hrule : ruleFor ty = .or) :
    Rule.combine (ruleFor ty) (groups.map fun g =>
          Rule.combine (ruleFor ty) (g.map (claimOf align ty))) =
        Rule.combine (ruleFor ty) (groups.flatten.map (claimOf align ty)) ↔
      (unionOf align ty groups.flatten ≠ 0 →
        widestOf align ty (groups.filter fun g => unionOf align ty g ≠ 0).flatten =
          widestOf align ty groups.flatten) := by
  have hunites : ruleFor ty = .or ∨ ruleFor ty = .orAnd := Or.inl hrule
  have hcombine (xs : List (Option Claim)) :
      (ruleFor ty).combine xs = combineAny (ruleFor ty).join (ruleFor ty).keep xs := by
    rw [hrule]
    rfl
  -- a group without a bit is silent, so the groups' claims are those of the others
  have hkept : combineAny (ruleFor ty).join (ruleFor ty).keep (groups.map fun g =>
        combineAny (ruleFor ty).join (ruleFor ty).keep (g.map (claimOf align ty))) =
      combineAny (ruleFor ty).join (ruleFor ty).keep
        ((groups.filter fun g => unionOf align ty g ≠ 0).flatten.map (claimOf align ty)) := by
    rw [combineAny, combineAny, reduceOption_map, List.map_flatten, ← joined_groups,
      List.filterMap_map, List.filterMap_filter]
    congr 2
    refine List.filterMap_congr fun g _ => ?_
    by_cases hg : unionOf align ty g = 0
    · rw [if_neg (by simpa using hg), ← Option.not_isSome_iff_eq_none,
        combineAny_claims_isSome hunites, not_not]
      exact hg
    · rw [if_pos (by simpa using hg)]
      obtain ⟨c, hc⟩ := Option.isSome_iff_exists.mp ((combineAny_claims_isSome hunites).mpr hg)
      rw [hc]
      exact (Option.filter_eq_some_iff.mp hc).1.symm
  simp only [hcombine]
  rw [hkept]
  exact combineAny_claims_eq_iff hunites unionOf_filter

/-- Groups of a type that does not unite bits. -/
lemma combine_groups_of_not_unites (hne : ∀ g ∈ groups, g ≠ []) (hor : ruleFor ty ≠ .or)
    (horAnd : ruleFor ty ≠ .orAnd) :
    Rule.combine (ruleFor ty) (groups.map fun g =>
        Rule.combine (ruleFor ty) (g.map (claimOf align ty))) =
      Rule.combine (ruleFor ty) (groups.flatten.map (claimOf align ty)) := by
  cases hneeds : (ruleFor ty).needsAll with
  | true =>
    have hrule : ruleFor ty = .and ∨ ruleFor ty = .agree := by
      obtain h | h | h := of_decide_eq_true hneeds
      exacts [Or.inl h, absurd h horAnd, Or.inr h]
    have hstage := (combineAll_map_iff (ruleFor ty).join (ruleFor ty).keep
      (groups.map (List.map (claimOf align ty))) (by simpa using hne)).mpr
      fun _ c hc hkc g hg q hq => by
        -- the group's claim is one of those the claim of all is joined from
        rw [← joined_groups] at hc
        exact keep_of_keep_joined (keep_of_keep_join hrule) hc hkc q
          (List.mem_filterMap.mpr ⟨g, hg, hq⟩)
    rw [List.map_map, ← List.map_flatten] at hstage
    simp only [Rule.combine, hneeds, if_true]
    exact hstage
  | false =>
    have hkeep : ∀ c, (ruleFor ty).keep c = true := by
      cases hr : ruleFor ty with
      | or => exact absurd hr hor
      | max | present => exact fun _ => rfl
      | and | orAnd | agree => rw [hr] at hneeds; cases hneeds
    have hstage := combineAny_map (ruleFor ty).join (groups.map (List.map (claimOf align ty))) hkeep
    rw [List.map_map, ← List.map_flatten] at hstage
    simp only [Rule.combine, hneeds, Bool.false_eq_true, if_false]
    exact hstage

/-! ## Types fit their field -/

/-- A property that is read has a 32-bit type. -/
lemma ty_lt_of_mem_properties {note : List Byte} {p : Property} (hp : p ∈ properties note align) :
    p.ty < 2 ^ 32 := by
  have hinner (descEnd : ℕ) : ∀ s s' : ℕ × List Property, (∀ p ∈ s.2, p.ty < 2 ^ 32) →
      propertyStep note descEnd align s = some s' → ∀ p ∈ s'.2, p.ty < 2 ^ 32 := by
    rintro ⟨d, out⟩ s' hs h
    unfold propertyStep at h
    simp only at h
    split at h
    · split at h
      · cases h
      · cases h
        intro p hp
        obtain hp | hp := List.mem_append.mp hp
        · exact hs p hp
        · rw [List.mem_singleton.mp hp]
          exact leNat_lt.trans_le (by norm_num)
    · cases h
  refine @whileSome_invariant _ (noteStep note align)
    (fun s => ∀ p ∈ s.2, p.ty < 2 ^ 32) ?_ note.length (0, []) (by simp) p hp
  rintro ⟨off, out⟩ s' hs h
  unfold noteStep at h
  simp only at h
  split at h
  · split at h
    · cases h
    · cases h
      dsimp only
      split
      · exact whileSome_invariant _ (hinner _) note.length hs
      · exact hs
  · cases h

/-- A type that is left was read. -/
lemma ty_lt_of_mem_merge {p : Property} (hp : p ∈ merge inputs align) : p.ty < 2 ^ 32 := by
  have h := mem_merge.mp (show (⟨p.ty, p.data⟩ : Property) ∈ _ from hp)
  rw [mergedAt_eq] at h
  obtain ⟨c, hc, -⟩ := Option.map_eq_some_iff.mp h
  have hjoin := (joined_of_combine hc).1
  have hclaims : (inputs.map (claimOf align p.ty)).reduceOption ≠ [] := by
    intro hnil
    rw [hnil] at hjoin
    cases hjoin
  obtain ⟨c', hc'⟩ := List.exists_mem_of_ne_nil _ hclaims
  rw [reduceOption_map] at hc'
  obtain ⟨notes, -, hclaim⟩ := List.mem_filterMap.mp hc'
  rw [claimOf, getElem?_ownAccs] at hclaim
  have hstated : stated align p.ty notes ≠ [] := by
    intro hnil
    rw [hnil] at hclaim
    cases hclaim
  obtain ⟨d, hd⟩ := List.exists_mem_of_ne_nil _ hstated
  obtain ⟨q, hq, -⟩ := List.mem_map.mp hd
  obtain ⟨hmem, hty⟩ := List.mem_filter.mp hq
  obtain ⟨note, -, hread⟩ := List.mem_flatMap.mp hmem
  rw [← (of_decide_eq_true hty).1]
  exact ty_lt_of_mem_properties hread

/-- Merging merged groups of inputs leaves the properties that merging all the inputs at once leaves,
exactly when no group loses a claim of a type whose bits unite.  The groups' notes fit their size
fields. -/
theorem merge_groups_iff (halign : align = 4 ∨ align = 8) (hne : ∀ g ∈ groups, g ≠ [])
    (hfits : ∀ g ∈ groups, (encodeDesc (merge g align) align).length < 2 ^ 32) :
    merge (groups.map fun g => (mergeSection g align).toList) align =
        merge groups.flatten align ↔
      KeepsClaims groups align := by
  have hclaims (ty : ℕ) : (groups.map fun g => (mergeSection g align).toList).map
      (claimOf align ty) = groups.map fun g => (ruleFor ty).combine (g.map (claimOf align ty)) := by
    rw [List.map_map]
    exact List.map_congr_left fun g hg =>
      claimOf_section halign ⟨fun p hp => ty_lt_of_mem_merge hp, hfits g hg⟩
  rw [merge_eq_iff]
  simp only [mergedAt_eq_iff, hclaims]
  constructor
  · intro h
    exact ⟨fun ty hrule => (combine_groups_orAnd hne hrule).mp (h ty),
      fun ty hrule => (combine_groups_or hrule).mp (h ty)⟩
  · intro h ty
    by_cases hor : ruleFor ty = .or
    · exact (combine_groups_or hor).mpr (h.or ty hor)
    by_cases horAnd : ruleFor ty = .orAnd
    · exact (combine_groups_orAnd hne horAnd).mpr (h.orAnd ty horAnd)
    · exact combine_groups_of_not_unites hne hor horAnd

/-- A note that states no instruction set that is used. -/
def isaUnused : List Byte := encode [⟨0xc0010002, [0, 0, 0, 0]⟩] 8

/-- A note that states one instruction set that is used. -/
def isaUsed : List Byte := encode [⟨0xc0010002, [1, 0, 0, 0]⟩] 8

/-- Two groups that each keep the claim. -/
theorem merge_groups_isa :
    merge ([[[isaUsed], [isaUnused]], [[isaUsed]]].map fun g => (mergeSection g 8).toList) 8 =
        merge [[[isaUsed], [isaUnused]], [[isaUsed]]].flatten 8 ↔
      KeepsClaims [[[isaUsed], [isaUnused]], [[isaUsed]]] 8 :=
  merge_groups_iff (Or.inr rfl) (by decide) (by decide +kernel)

/-- A group that states no bit is silent after its link, and takes the claim from the others. -/
theorem merge_groups_isa_lost :
    merge ([[[isaUnused]], [[isaUsed]]].map fun g => (mergeSection g 8).toList) 8 = [] ∧
      merge [[[isaUnused]], [[isaUsed]]].flatten 8 = [⟨0xc0010002, [1, 0, 0, 0]⟩] := by
  decide +kernel

end Badc.GnuProperty
