import Badc.Asm.Relax
import Badc.Lib.Fallible

/-!
# The relaxed layout

A round places each branch with a short form once (`measureFillRounds_sites`).  A round of the lengthening loop that
lengthens nothing leaves every short branch within reach (`fits_of_grown_empty`), and every other round makes the set
of long branches larger (`grown_subset`), so the loop ends within its rounds on a layout measured with exactly its
long branches.
-/

namespace Badc.Asm

variable {u : AsmStatement} {prev : Option SectionLabelOffsets} {long : Finset Site} {key : SectionKey}
  {m : SectionLabelOffsets} {sites : List AsmRelaxSite} {r r' : Round} {site : Site} {item : AsmSectionItem}

/-! ## The branches of a round -/

/-- Whether an item is a branch with a short form. -/
def AsmSectionItem.isRelaxable : AsmSectionItem → Bool
  | .codeBytes _ _ (some _) => true
  | _ => false

/-- A count leaves the branches and the places. -/
lemma measureCount_sites {count : Text} {e : LayoutError} {n : ℤ} (h : measureCount u prev site count e r = .ok (n, r')) :
    r'.sites = r.sites ∧ r'.places = r.places ∧ r'.at_ = r.at_ := by
  unfold measureCount at h
  split at h
  · cases Except.ok.inj h
    exact ⟨rfl, rfl, rfl⟩
  · split at h
    · cases h
    · cases Except.ok.inj h
      exact ⟨rfl, rfl, rfl⟩

/-- So does an alignment. -/
lemma measureAlignSpec_sites {t : Text} {pow2 : Bool} {n : ℕ} (h : measureAlignSpec prev site t pow2 r = .ok (n, r')) :
    r'.sites = r.sites ∧ r'.places = r.places := by
  unfold measureAlignSpec at h
  split at h
  · cases Except.ok.inj h
    exact ⟨rfl, rfl⟩
  · split at h
    · cases h
    · cases Except.ok.inj h
      exact ⟨rfl, rfl⟩

/-- An item enters itself where it is a branch with a short form. -/
lemma measureItem_sites {line : ℕ} (h : measureItem u prev long key site line item r = .ok r') :
    r'.sites = r.sites ++ (if item.isRelaxable then [⟨site, r.at_⟩] else []) ∧ r'.places = r.places := by
  cases item with
  | label | symbolAttr | weak | unitAttr | symSet | setExpr | absSet | literalPool | data | bytes | org =>
    cases Except.ok.inj h
    exact ⟨(List.append_nil _).symm, rfl⟩
  | code => cases h
  | fill count unit =>
    obtain ⟨⟨n, r₁⟩, hcount, h⟩ := bind_eq_ok.mp h
    cases Except.ok.inj h
    obtain ⟨hsites, hplaces, _⟩ := measureCount_sites hcount
    exact ⟨hsites.trans (List.append_nil _).symm, hplaces⟩
  | codeBytes len relocated short =>
    cases short with
    | none =>
      cases Except.ok.inj h
      exact ⟨(List.append_nil _).symm, rfl⟩
    | some s =>
      cases Except.ok.inj h
      exact ⟨rfl, rfl⟩
  | align spec fill max nops =>
    cases spec with
    | bytes n =>
      rw [measureItem] at h
      split at h
      · cases h
      · cases Except.ok.inj h
        exact ⟨(List.append_nil _).symm, rfl⟩
    | expr t pow2 =>
      obtain ⟨⟨n, r₁⟩, hspec, h⟩ := bind_eq_ok.mp h
      cases Except.ok.inj h
      obtain ⟨hsites, hplaces⟩ := measureAlignSpec_sites hspec
      exact ⟨hsites.trans (List.append_nil _).symm, hplaces⟩
  | orgLabel label addend =>
    rw [measureItem] at h
    split at h
    · split at h
      · split at h
        · cases Except.ok.inj h
          exact ⟨(List.append_nil _).symm, rfl⟩
        · cases h
      · cases h
    · cases h
  | orgExpr expr =>
    rw [measureItem] at h
    split at h
    · cases Except.ok.inj h
      exact ⟨(List.append_nil _).symm, rfl⟩
    · split at h
      · cases h
      · cases Except.ok.inj h
        exact ⟨(List.append_nil _).symm, rfl⟩
  | rept count items =>
    obtain ⟨⟨n, r₁⟩, hcount, h⟩ := bind_eq_ok.mp h
    obtain ⟨hsites, hplaces, _⟩ := measureCount_sites hcount
    dsimp only at h
    split at h
    · cases Except.ok.inj h
      exact ⟨hsites.trans (List.append_nil _).symm, hplaces⟩
    · cases h

/-- The branches among the items of a block, counted from `ii` on. -/
def IsBranch (bi ii : ℕ) (items : List AsmLineItem) (site : Site) : Prop :=
  ∃ k li, items[k]? = some li ∧ li.item.isRelaxable = true ∧ site = (bi, ii + k)

/-- What follows the first item is counted from the next number on. -/
lemma isBranch_cons {bi ii : ℕ} {li : AsmLineItem} {items : List AsmLineItem} :
    IsBranch bi ii (li :: items) site ↔
      li.item.isRelaxable = true ∧ site = (bi, ii) ∨ IsBranch bi (ii + 1) items site := by
  constructor
  · rintro ⟨k, li', hk, hrelax, rfl⟩
    cases k with
    | zero =>
      obtain rfl := Option.some.inj hk
      exact .inl ⟨hrelax, rfl⟩
    | succ k => exact .inr ⟨k, li', hk, hrelax, by rw [Nat.add_right_comm, Nat.add_assoc]⟩
  · rintro (⟨hrelax, rfl⟩ | ⟨k, li', hk, hrelax, rfl⟩)
    · exact ⟨0, li, rfl, hrelax, rfl⟩
    · exact ⟨k + 1, li', hk, hrelax, by rw [Nat.add_right_comm, Nat.add_assoc]⟩

/-- The walk over a block enters its branches, where it places them. -/
lemma measureItems_sites {bi ii : ℕ} {items : List AsmLineItem}
    (h : measureItems u prev long key bi ii items r = .ok r') :
    (∀ s, s ∈ r'.sites ↔ s ∈ r.sites ∨ IsBranch bi ii items s.site ∧ r'.places s.site = some s.at_) ∧
      (∀ site, IsBranch bi ii items site → (r'.places site).isSome) ∧
      ∀ site : Site, site.1 ≠ bi ∨ site.2 < ii → r'.places site = r.places site := by
  induction items generalizing ii r with
  | nil =>
    cases Except.ok.inj h
    refine ⟨fun s => (or_iff_left ?_).symm, ?_, fun _ _ => rfl⟩
    · rintro ⟨⟨k, li, hk, _⟩, _⟩
      cases hk
    · rintro site ⟨k, li, hk, _⟩
      cases hk
  | cons li items ih =>
    rw [measureItems] at h
    split at h
    · rename_i r₁ hitem
      obtain ⟨hsites, hplaces⟩ := measureItem_sites hitem
      obtain ⟨hmem, hplaced, hframe⟩ := ih h
      have hhere : r'.places (bi, ii) = some (r.place u key (bi, ii) li.item).at_ := by
        rw [hframe (bi, ii) (.inr (Nat.lt_succ_self ii)), hplaces]
        exact Function.update_self ..
      refine ⟨fun s => ?_, fun site hsite => ?_, fun site hsite => ?_⟩
      · rw [hmem, hsites, isBranch_cons, List.mem_append, or_and_right, or_assoc]
        refine or_congr_right (or_congr_left ?_)
        split
        · rename_i hrelax
          rw [List.mem_singleton]
          constructor
          · rintro rfl
            exact ⟨⟨hrelax, rfl⟩, hhere⟩
          · rintro ⟨⟨_, hs⟩, hat⟩
            obtain ⟨site', at_⟩ := s
            obtain rfl : site' = (bi, ii) := hs
            rw [hhere] at hat
            rw [Option.some.inj hat]
        · rename_i hrelax
          exact ⟨fun hs => (nomatch hs), fun hs => absurd hs.1.1 hrelax⟩
      · rcases isBranch_cons.mp hsite with ⟨_, rfl⟩ | hsite
        · rw [hhere]
          rfl
        · exact hplaced site hsite
      · have hne : site ≠ (bi, ii) := by
          rintro rfl
          rcases hsite with hne | hlt
          · exact hne rfl
          · exact absurd hlt (lt_irrefl _)
        rw [hframe site (hsite.imp_right Nat.lt_succ_of_lt), hplaces]
        exact Function.update_of_ne hne _ _
    · cases h

/-- The walk over the blocks enters the branches of each. -/
lemma measureBlocks_sites {bs : List (ℕ × AsmSectionBlock)} (hnodup : (bs.map Prod.fst).Nodup)
    (h : measureBlocks u prev long bs r = .ok r') :
    (∀ s, s ∈ r'.sites ↔ s ∈ r.sites ∨
      (∃ b ∈ bs, IsBranch b.1 0 b.2.items s.site) ∧ r'.places s.site = some s.at_) ∧
      (∀ site, (∃ b ∈ bs, IsBranch b.1 0 b.2.items site) → (r'.places site).isSome) ∧
      ∀ site : Site, site.1 ∉ bs.map Prod.fst → r'.places site = r.places site := by
  induction bs generalizing r with
  | nil =>
    cases Except.ok.inj h
    simp
  | cons b bs ih =>
    obtain ⟨bi, b⟩ := b
    rw [List.map_cons, List.nodup_cons] at hnodup
    rw [measureBlocks] at h
    split at h
    · rename_i r₁ hitems
      obtain ⟨hmem₁, hplaced₁, hframe₁⟩ := measureItems_sites hitems
      obtain ⟨hmem, hplaced, hframe⟩ := ih hnodup.2 h
      have hleft : ∀ site, IsBranch bi 0 b.items site → r'.places site = r₁.places site := by
        rintro site ⟨k, li, _, _, rfl⟩
        exact hframe _ hnodup.1
      refine ⟨fun s => ?_, fun site hsite => ?_, fun site hsite => ?_⟩
      · rw [hmem, show (r₁.leave b.key).sites = r₁.sites from rfl, hmem₁, List.exists_mem_cons_iff, or_and_right,
          or_assoc]
        exact or_congr_right (or_congr_left (and_congr_right fun hs => by rw [hleft s.site hs]))
      · rcases (List.exists_mem_cons_iff _ _ _).mp hsite with hsite | hsite
        · rw [hleft site hsite]
          exact hplaced₁ site hsite
        · exact hplaced site hsite
      · rw [List.map_cons, List.mem_cons, not_or] at hsite
        rw [hframe site hsite.2, show (r₁.leave b.key).places = r₁.places from rfl, hframe₁ site (.inl hsite.1)]
        rfl
    · cases h

/-! ## The order of the blocks -/

lemma insertBlock_perm (b : ℕ × AsmSectionBlock) (l : List (ℕ × AsmSectionBlock)) :
    (insertBlock b l).Perm (b :: l) := by
  induction l with
  | nil => exact .refl _
  | cons c l ih =>
    rw [insertBlock]
    split
    · exact .refl _
    · exact (ih.cons c).trans (.swap b c l)

/-- Every block is walked, once. -/
lemma subsectionOrder_perm (blocks : List AsmSectionBlock) :
    (subsectionOrder blocks).Perm (blocks.zipIdx.map Prod.swap) := by
  have hfold : ∀ l acc : List (ℕ × AsmSectionBlock),
      (l.foldl (fun l b => insertBlock b l) acc).Perm (l ++ acc) := by
    intro l
    induction l with
    | nil => exact fun _ => .refl _
    | cons b l ih => exact fun acc => (ih _).trans ((insertBlock_perm b acc).append_left l |>.trans List.perm_middle)
  rw [subsectionOrder]
  exact (hfold _ []).trans (by rw [List.append_nil])

lemma subsectionOrder_nodup (blocks : List AsmSectionBlock) : ((subsectionOrder blocks).map Prod.fst).Nodup := by
  rw [((subsectionOrder_perm blocks).map Prod.fst).nodup_iff, List.map_map,
    show Prod.fst ∘ Prod.swap = (Prod.snd : AsmSectionBlock × ℕ → ℕ) from rfl, List.zipIdx_map_snd]
  exact List.nodup_range'

/-- The sites with a short form are the branches of the blocks. -/
lemma mem_relaxable {blocks : List AsmSectionBlock} :
    site ∈ relaxable blocks ↔ ∃ b ∈ subsectionOrder blocks, IsBranch b.1 0 b.2.items site := by
  simp only [relaxable, List.mem_flatMap, List.mem_filterMap, (subsectionOrder_perm blocks).mem_iff, List.mem_map]
  constructor
  · rintro ⟨⟨b, bi⟩, hb, ⟨li, ii⟩, hli, hsite⟩
    refine ⟨(bi, b), ⟨(b, bi), hb, rfl⟩, ii, li, List.mem_zipIdx_iff_getElem?.mp hli, ?_⟩
    dsimp only at hsite
    split at hsite
    · rename_i hitem
      rw [hitem]
      exact ⟨rfl, by rw [Nat.zero_add]; exact (Option.some.inj hsite).symm⟩
    · cases hsite
  · rintro ⟨_, ⟨⟨b, bi⟩, hb, rfl⟩, k, li, hk, hrelax, rfl⟩
    refine ⟨(b, bi), hb, (li, k), List.mem_zipIdx_iff_getElem?.mpr hk, ?_⟩
    dsimp only
    split
    · rw [Nat.zero_add]
      rfl
    · rename_i hne
      unfold AsmSectionItem.isRelaxable at hrelax
      split at hrelax
      · rename_i hitem
        exact absurd hitem (hne _ _ _)
      · cases hrelax

/-- A site with a short form is in a block. -/
lemma isSome_of_mem_relaxable {blocks : List AsmSectionBlock} (h : site ∈ relaxable blocks) :
    (blocks[site.1]?).isSome := by
  simp only [relaxable, List.mem_flatMap, List.mem_filterMap] at h
  obtain ⟨⟨b, bi⟩, hb, ⟨li, ii⟩, _, hsite⟩ := h
  dsimp only at hsite
  split at hsite
  · obtain rfl := Option.some.inj hsite
    rw [List.mem_zipIdx_iff_getElem?.mp hb]
    rfl
  · cases hsite

/-! ## A measurement -/

/-- A round's branches are the sites with a short form, at their places. -/
lemma measureRound_sites {b : Bool} (h : measureRound u prev long = (.ok (m, sites), b)) :
    (∀ s, s ∈ sites ↔ s.site ∈ relaxable u.blocks ∧ m.place s.site = some s.at_) ∧
      ∀ site ∈ relaxable u.blocks, (m.place site).isSome := by
  unfold measureRound at h
  split at h
  · rename_i r hblocks
    dsimp only at h
    split at h
    · cases (Prod.mk.inj h).1
    · obtain ⟨rfl, rfl⟩ := Prod.mk.inj (Except.ok.inj (Prod.mk.inj h).1)
      obtain ⟨hmem, hplaced, _⟩ := measureBlocks_sites (subsectionOrder_nodup u.blocks) hblocks
      refine ⟨fun s => ?_, fun site hsite => hplaced site (mem_relaxable.mp hsite)⟩
      rw [hmem, mem_relaxable]
      exact or_iff_right (nomatch ·)
  · cases (Prod.mk.inj h).1

/-- The branches of a measurement are the sites with a short form, at their places. -/
lemma measureFillRounds_sites (h : measureFillRounds u long = .ok (m, sites)) :
    (∀ s, s ∈ sites ↔ s.site ∈ relaxable u.blocks ∧ m.place s.site = some s.at_) ∧
      ∀ site ∈ relaxable u.blocks, (m.place site).isSome := by
  unfold measureFillRounds at h
  split at h
  · rename_i hround
    obtain rfl := Except.ok.inj h
    exact measureRound_sites hround
  · dsimp only at h
    split at h
    · rename_i hround
      obtain rfl := Except.ok.inj h
      exact measureRound_sites hround
    · cases h
    · cases h
  · cases h

/-- Errors at lines of the statement. -/
def AtLines (es : List AsmError) : Prop := ∀ e ∈ es, e.1.isSome

/-- An error of a block is at one of its lines. -/
lemma measureItems_error {bi ii : ℕ} {items : List AsmLineItem} {e : AsmError × Bool}
    (h : measureItems u prev long key bi ii items r = .error e) : e.1.1.isSome := by
  induction items generalizing ii r with
  | nil => cases h
  | cons li items ih =>
    rw [measureItems] at h
    split at h
    · exact ih h
    · cases Except.error.inj h
      rfl

/-- An error of the walk is at a line. -/
lemma measureBlocks_error {bs : List (ℕ × AsmSectionBlock)} {e : AsmError × Bool}
    (h : measureBlocks u prev long bs r = .error e) : e.1.1.isSome := by
  induction bs generalizing r with
  | nil => cases h
  | cons b bs ih =>
    rw [measureBlocks] at h
    split at h
    · exact ih h
    · rename_i hitems
      obtain rfl := Except.error.inj h
      exact measureItems_error hitems

/-- The errors of assignments are at their lines. -/
lemma atLines_foldl_assign {aliases : Text → Option Text} {sets : List SetLine} {a : Assigned}
    (ha : AtLines a.errors) : AtLines (sets.foldl (assign u aliases) a).errors := by
  induction sets generalizing a with
  | nil => exact ha
  | cons s sets ih =>
    refine ih ?_
    unfold assign
    split
    · exact ha
    · exact ha
    · exact ha
    · intro e he
      rcases List.mem_append.mp he with he | he
      · exact ha e he
      · obtain rfl := List.mem_singleton.mp he
        rfl

/-- The errors of a round are at lines. -/
lemma measureRound_error {es : List AsmError} {b : Bool} (h : measureRound u prev long = (.error es, b)) :
    AtLines es := by
  unfold measureRound at h
  split at h
  · dsimp only at h
    split at h
    · obtain rfl := Except.error.inj (Prod.mk.inj h).1
      exact atLines_foldl_assign fun _ he => (nomatch he)
    · cases (Prod.mk.inj h).1
  · rename_i hblocks
    obtain rfl := Except.error.inj (Prod.mk.inj h).1
    intro e he
    obtain rfl := List.mem_singleton.mp he
    exact measureBlocks_error hblocks

/-- A measurement does not fail for want of rounds. -/
lemma measureFillRounds_ne_rounds : measureFillRounds u long ≠ .error [(none, .rounds)] := by
  intro h
  have hlines : ∀ es, es = [((none, .rounds) : AsmError)] → ¬AtLines es := by
    rintro _ rfl hes
    exact (nomatch hes _ (.head _))
  unfold measureFillRounds at h
  split at h
  · cases h
  · dsimp only at h
    split at h
    · cases h
    · rename_i hround
      exact hlines _ (Except.error.inj h) (measureRound_error hround)
    · cases Except.error.inj h
  · rename_i hround
    exact hlines _ (Except.error.inj h) (measureRound_error hround)

/-! ## A round of the loop -/

/-- One branch either is left alone or is lengthened. -/
lemma growStep_cases (acc : Finset Site × List SectionKey) (s : AsmRelaxSite) :
    growStep u m long acc s = acc ∨
      s.site ∉ long ∧ ∃ key, growStep u m long acc s = (insert s.site acc.1, key :: acc.2) := by
  unfold growStep
  split
  · exact .inl rfl
  · rename_i hlong
    split
    · exact .inl rfl
    · split
      · exact .inl rfl
      · split
        · exact .inl rfl
        · exact .inr ⟨hlong, _, rfl⟩
      · exact .inr ⟨hlong, _, rfl⟩

/-- A branch that is left alone though nothing has been lengthened is long or within reach. -/
lemma fits_of_growStep {s : AsmRelaxSite} (h : growStep u m long (∅, []) s = (∅, [])) (hlong : s.site ∉ long)
    (hblock : (u.blocks[s.site.1]?).isSome) : shortFormReach u m (asmWeakOnlyNames u) s = .fits := by
  unfold growStep at h
  rw [if_neg hlong] at h
  split at h
  · rename_i hnone
    rw [hnone] at hblock
    cases hblock
  · split at h
    · assumption
    · exact absurd (Prod.mk.inj h).2 (List.cons_ne_nil _ _)
    · exact absurd (Prod.mk.inj h).2 (List.cons_ne_nil _ _)

/-- What a round lengthens stays lengthened to its end. -/
lemma subset_foldl_growStep (l : List AsmRelaxSite) (acc : Finset Site × List SectionKey) :
    acc.1 ⊆ (l.foldl (growStep u m long) acc).1 := by
  induction l generalizing acc with
  | nil => exact subset_rfl
  | cons s l ih =>
    refine Finset.Subset.trans ?_ (ih _)
    rcases growStep_cases acc s with heq | ⟨_, key, heq⟩
    · rw [heq]
    · rw [heq]
      exact Finset.subset_insert _ _

/-- **A round that lengthens nothing leaves every short branch within reach.** -/
lemma fits_of_grown_empty (h : grown u m long sites = ∅) {s : AsmRelaxSite} (hs : s ∈ sites) (hlong : s.site ∉ long)
    (hblock : (u.blocks[s.site.1]?).isSome) : shortFormReach u m (asmWeakOnlyNames u) s = .fits := by
  -- Nothing is entered at any branch, so each sees the empty start.
  have hfold : ∀ l : List AsmRelaxSite, (l.foldl (growStep u m long) (∅, [])).1 = ∅ →
      ∀ t ∈ l, growStep u m long (∅, []) t = (∅, []) := by
    intro l
    induction l with
    | nil => exact fun _ _ ht => (nomatch ht)
    | cons t l ih =>
      intro hnone
      rw [List.foldl_cons] at hnone
      have ht : growStep u m long (∅, []) t = (∅, []) := by
        rcases growStep_cases (∅, []) t with heq | ⟨_, key, heq⟩
        · exact heq
        · have hin := @subset_foldl_growStep u long m l (growStep u m long (∅, []) t) _
            (show t.site ∈ (growStep u m long (∅, []) t).1 by rw [heq]; exact Finset.mem_insert_self _ _)
          rw [hnone] at hin
          exact absurd hin (Finset.notMem_empty _)
      rw [ht] at hnone
      exact List.forall_mem_cons.mpr ⟨ht, ih hnone⟩
  exact fits_of_growStep (hfold sites h s hs) hlong hblock

/-- What a round lengthens are short branches. -/
lemma grown_subset (hsite : site ∈ grown u m long sites) : site ∉ long ∧ ∃ s ∈ sites, s.site = site := by
  have hfold : ∀ (l : List AsmRelaxSite) (acc : Finset Site × List SectionKey),
      site ∈ (l.foldl (growStep u m long) acc).1 → site ∈ acc.1 ∨ site ∉ long ∧ ∃ s ∈ l, s.site = site := by
    intro l
    induction l with
    | nil => exact fun _ h => .inl h
    | cons s l ih =>
      intro acc h
      rcases ih _ h with hin | ⟨hlong, t, ht, hts⟩
      · rcases growStep_cases acc s with heq | ⟨hlong, key, heq⟩
        · rw [heq] at hin
          exact .inl hin
        · rw [heq] at hin
          rcases Finset.mem_insert.mp hin with rfl | hin
          · exact .inr ⟨hlong, s, (.head _), rfl⟩
          · exact .inl hin
      · exact .inr ⟨hlong, t, List.mem_cons_of_mem _ ht, hts⟩
  exact (hfold sites (∅, []) hsite).resolve_left (Finset.notMem_empty _)

/-! ## The loop -/

/-- What the loop ends on: a layout measured with its long branches, in which every short branch is within reach. -/
structure Relaxed (u : AsmStatement) (m : SectionLabelOffsets) : Prop where
  measured : ∃ m₀ sites, measureFillRounds u m.long = .ok (m₀, sites) ∧ m = { m₀ with long := m.long }
  long : ∀ site ∈ m.long, site ∈ relaxable u.blocks
  fits : ∀ site ∈ relaxable u.blocks, site ∉ m.long → ∃ at_, m.place site = some at_ ∧
    shortFormReach u m (asmWeakOnlyNames u) ⟨site, at_⟩ = .fits

/-- The chains of assignments do not read the set of long branches. -/
lemma aliasTarget_long {l : Finset Site} (n : ℕ) (t : Text) :
    SectionLabelOffsets.aliasTarget { m with long := l } n t = m.aliasTarget n t := by
  induction n generalizing t with
  | zero => rfl
  | succ n ih =>
    unfold SectionLabelOffsets.aliasTarget
    rw [show SectionLabelOffsets.aliasOf { m with long := l } t = m.aliasOf t from rfl]
    cases m.aliasOf t with
    | none => rfl
    | some next => exact ih next

/-- Nor do the names of an expression. -/
lemma aliasLeaf_long {l : Finset Site} {sink : AsmSectionSink} {num : Text → Option Text} {lab : Text → Option LabelLoc}
    (n : ℕ) (t : Text) : aliasLeaf ⟨{ m with long := l }, sink, num, lab⟩ n t = aliasLeaf ⟨m, sink, num, lab⟩ n t := by
  induction n generalizing t with
  | zero => rfl
  | succ n ih =>
    unfold aliasLeaf
    rw [show SectionLabelOffsets.aliasOf { m with long := l } t = m.aliasOf t from rfl]
    cases m.aliasOf t with
    | none => rfl
    | some next =>
      dsimp only
      rw [show sectionExprDefinedLeaf ⟨{ m with long := l }, sink, num, lab⟩ next =
        sectionExprDefinedLeaf ⟨m, sink, num, lab⟩ next from rfl]
      cases sectionExprDefinedLeaf ⟨m, sink, num, lab⟩ next with
      | none => exact ih next
      | some leaf => rfl

/-- The set of long branches is not read by what resolves the targets. -/
lemma shortFormReach_long {weak : Text → Bool} {s : AsmRelaxSite} {l : Finset Site} :
    shortFormReach u { m with long := l } weak s = shortFormReach u m weak s := by
  have hleaf : ∀ key, sectionExprLeaf ⟨{ m with long := l }, u.sink, fun _ => none, fun _ => none⟩ key s.at_ =
      sectionExprLeaf ⟨m, u.sink, fun _ => none, fun _ => none⟩ key s.at_ := by
    intro key
    funext t
    unfold sectionExprLeaf
    rw [aliasLeaf_long]
    rfl
  unfold shortFormReach
  simp only [hleaf, aliasTarget_long]
  rfl

/-- Measuring leaves the set of long branches to the loop. -/
lemma measureFillRounds_long (h : measureFillRounds u long = .ok (m, sites)) : m.long = ∅ := by
  have hround : ∀ prev b, measureRound u prev long = (.ok (m, sites), b) → m.long = ∅ := by
    intro prev b h
    unfold measureRound at h
    split at h
    · dsimp only at h
      split at h
      · cases (Prod.mk.inj h).1
      · obtain ⟨rfl, _⟩ := Prod.mk.inj (Except.ok.inj (Prod.mk.inj h).1)
        rfl
    · cases (Prod.mk.inj h).1
  unfold measureFillRounds at h
  split at h
  · rename_i hok
    obtain rfl := Except.ok.inj h
    exact hround _ _ hok
  · dsimp only at h
    split at h
    · rename_i hok
      obtain rfl := Except.ok.inj h
      exact hround _ _ hok
    · cases h
    · cases h
  · cases h

/-- **The loop ends within its rounds, on a relaxed layout.**  By induction on the rounds that are left: each that
goes on lengthens a branch that was short. -/
lemma relaxLoop_spec {fuel : ℕ} (h : measureFillRounds u long = .ok (m, sites))
    (hsub : ∀ site ∈ long, site ∈ relaxable u.blocks)
    (hfuel : ((relaxable u.blocks).toFinset \ long).card < fuel) :
    relaxLoop u fuel long (m, sites) ≠ .error [(none, .rounds)] ∧
      ∀ m', relaxLoop u fuel long (m, sites) = .ok m' → Relaxed u m' := by
  induction fuel generalizing long m sites with
  | zero => exact absurd hfuel (Nat.not_lt_zero _)
  | succ fuel ih =>
    obtain ⟨hmem, hplaced⟩ := measureFillRounds_sites h
    rw [relaxLoop]
    split
    · rename_i hnone
      refine ⟨(nomatch ·), fun m' hm' => ?_⟩
      obtain rfl := Except.ok.inj hm'
      refine ⟨⟨m, sites, h, rfl⟩, hsub, fun site hsite hlong => ?_⟩
      obtain ⟨at_, hat⟩ := Option.isSome_iff_exists.mp (hplaced site hsite)
      refine ⟨at_, hat, ?_⟩
      rw [shortFormReach_long]
      exact fits_of_grown_empty hnone ((hmem ⟨site, at_⟩).mpr ⟨hsite, hat⟩) hlong (isSome_of_mem_relaxable hsite)
    · rename_i hsome
      split
      · rename_i next hnext
        have hgrown : ∀ site ∈ grown u m long sites, site ∈ relaxable u.blocks ∧ site ∉ long := by
          intro site hsite
          obtain ⟨hlong, s, hs, rfl⟩ := grown_subset hsite
          exact ⟨((hmem s).mp hs).1, hlong⟩
        refine ih hnext (fun site hsite => ?_) ?_
        · rcases Finset.mem_union.mp hsite with hsite | hsite
          · exact hsub site hsite
          · exact (hgrown site hsite).1
        · obtain ⟨site, hsite⟩ := Finset.nonempty_iff_ne_empty.mpr hsome
          refine lt_of_lt_of_le (Finset.card_lt_card ?_) (Nat.lt_succ_iff.mp hfuel)
          refine Finset.ssubset_iff_of_subset
            (Finset.sdiff_subset_sdiff subset_rfl Finset.subset_union_left) |>.mpr ⟨site, ?_, ?_⟩
          · exact Finset.mem_sdiff.mpr ⟨List.mem_toFinset.mpr (hgrown site hsite).1, (hgrown site hsite).2⟩
          · exact fun hin => (Finset.mem_sdiff.mp hin).2 (Finset.mem_union_right _ hsite)
      · rename_i es hes
        refine ⟨fun heq => measureFillRounds_ne_rounds (hes.trans ?_), fun _ hm' => (nomatch hm')⟩
        rw [Except.error.inj heq]

/-! ## Targets -/

/-- The target of a short branch, with its addend: offset `off` of its own section.  A name is not bound weak, is no
absolute value and, at the end of its assignments, a label of the section; an expression is a location of the section
plus a constant, under a name that is not bound weak. -/
def TargetsOwn (u : AsmStatement) (m : SectionLabelOffsets) (key : SectionKey) (at_ : ℤ) (short : AsmShortBranch)
    (off : ℤ) : Prop :=
  match short.reloc.target with
  | .symbol name =>
    let last := m.aliasTarget asmAliasDepthLimit name
    asmWeakOnlyNames u name = false ∧ m.symbol last = none ∧
      ∃ o, m.map (labelKey last) = some (key, o) ∧ off = o + short.reloc.addend
  | .expr t =>
    let names : Names := ⟨m, u.sink, fun _ => none, fun _ => none⟩
    ∃ v v' p o, evalAsmValue t ⟨sectionExprLeaf names key at_, u.constOf, false⟩ = .ok v ∧
      v.combine (.abs short.reloc.addend) false = .ok v' ∧ v'.pos = some p ∧ v'.neg = none ∧
      p.space = some (.section key, o) ∧ off = o + v'.add ∧ ∀ n, p.target = .symbol n → asmWeakOnlyNames u n = false
  | _ => False

/-- The short form of the branch at a site reaches its target, in its own section. -/
def ShortReaches (u : AsmStatement) (m : SectionLabelOffsets) (site : Site) : Prop :=
  ∃ key len relocated short at_ off, itemAt u.blocks site = some (key, .codeBytes len relocated (some short)) ∧
    m.place site = some at_ ∧ TargetsOwn u m key at_ short off ∧
    -2 ^ (8 * short.reloc.width - 1) ≤ off - (at_ + short.reloc.offset) ∧
    off - (at_ + short.reloc.offset) < 2 ^ (8 * short.reloc.width - 1)

lemma reachOf_eq_fits {width : ℕ} {value : ℤ} {span : Option (ℤ × ℤ)} (h : reachOf width value span = .fits) :
    -2 ^ (8 * width - 1) ≤ value ∧ value < 2 ^ (8 * width - 1) := by
  unfold reachOf at h
  dsimp only at h
  split at h
  · assumption
  · cases h

/-- A value less a place of a section that is a constant: a location of the section. -/
lemma location_of_combine {v v' : AsmExprValue} {t : AsmExprTerm} {place c : ℤ}
    (ht : t.space = some (.section key, place)) (h : v.combine (.fromTerm t) true = .ok v')
    (hpos : v'.pos = none) (hneg : v'.neg = none) (hc : v'.add = c) :
    ∃ p o, v.pos = some p ∧ v.neg = none ∧ p.space = some (.section key, o) ∧ c = o + v.add - place := by
  obtain ⟨add, pos, neg⟩ := v
  unfold AsmExprValue.combine at h
  obtain ⟨radd, hradd, h⟩ := bind_eq_ok.mp h
  obtain ⟨sum, hsum, h⟩ := bind_eq_ok.mp h
  obtain ⟨pos', hpos', h⟩ := bind_eq_ok.mp h
  obtain ⟨neg', hneg', h⟩ := bind_eq_ok.mp h
  have hsum := checkedI64_eq_ok hsum
  have hradd : radd = 0 := checkedI64_eq_ok hradd
  obtain rfl : pos' = pos := (Except.ok.inj hpos').symm
  cases neg with
  | some n => cases hneg'
  | none =>
    obtain rfl := Except.ok.inj hneg'
    cases pos' with
    | none =>
      obtain rfl := Except.ok.inj h
      cases hneg
    | some p =>
      dsimp only at h
      cases hdist : termDistance p t with
      | none =>
        rw [hdist] at h
        obtain rfl := Except.ok.inj h
        cases hneg
      | some delta =>
        rw [hdist] at h
        obtain ⟨delta', hdelta, h⟩ := bind_eq_ok.mp h
        obtain ⟨total, htotal, h⟩ := bind_eq_ok.mp h
        obtain rfl := Except.ok.inj h
        have hdelta := plainI64_eq_ok hdelta
        have htotal := plainI64_eq_ok htotal
        unfold termDistance at hdist
        rw [ht] at hdist
        split at hdist
        · rename_i ps po ns no hspace heq
          obtain ⟨rfl, rfl⟩ := Prod.mk.inj (Option.some.inj heq)
          split at hdist
          · rename_i hps
            obtain rfl := Option.some.inj hdist
            refine ⟨p, po, rfl, rfl, hps ▸ hspace, ?_⟩
            dsimp only at hc hsum ⊢
            omega
          · cases hdist
        · rename_i heq
          cases heq
        · cases hdist

/-- A value that is a constant has no terms. -/
lemma resolveAsmValue_eq_abs {v : AsmExprValue} {deposit : Option (AsmSpace × ℤ)} {c : ℤ}
    (h : resolveAsmValue v deposit = .ok (.abs c)) : v.pos = none ∧ v.neg = none ∧ v.add = c := by
  unfold resolveAsmValue at h
  split at h
  · rename_i hpos hneg
    exact ⟨hpos, hneg, AsmResolved.abs.inj (Except.ok.inj h)⟩
  · cases h
  · split at h
    · cases h
    · split at h
      · split at h
        · obtain ⟨_, _, h⟩ := bind_eq_ok.mp h
          obtain ⟨_, _, h⟩ := bind_eq_ok.mp h
          cases Except.ok.inj h
        · cases h
      · cases h
  · cases h

/-- A reached target is a target of its own section. -/
lemma shortReaches_of_fits {at_ : ℤ} (hplace : m.place site = some at_)
    (h : shortFormReach u m (asmWeakOnlyNames u) ⟨site, at_⟩ = .fits) : ShortReaches u m site := by
  unfold shortFormReach at h
  split at h
  · rename_i key len relocated short hitem
    suffices htarget : ∃ off, TargetsOwn u m key at_ short off ∧
        -2 ^ (8 * short.reloc.width - 1) ≤ off - (at_ + short.reloc.offset) ∧
        off - (at_ + short.reloc.offset) < 2 ^ (8 * short.reloc.width - 1) by
      obtain ⟨off, htarget, hlo, hhi⟩ := htarget
      exact ⟨key, len, relocated, short, at_, off, hitem, hplace, htarget, hlo, hhi⟩
    split at h
    · rename_i name htarget
      simp only [TargetsOwn, htarget]
      split at h
      · cases h
      · rename_i hweak
        dsimp only at h
        split at h
        · cases h
        · rename_i hsymbol
          split at h
          · rename_i sec off hmap
            split at h
            · rename_i hsec
              obtain ⟨hlo, hhi⟩ := reachOf_eq_fits h
              exact ⟨off + short.reloc.addend, ⟨Bool.eq_false_of_not_eq_true hweak,
                Option.not_isSome_iff_eq_none.mp hsymbol, off, hsec ▸ hmap, rfl⟩, hlo, hhi⟩
            · cases h
          · cases h
    · rename_i t htarget
      simp only [TargetsOwn, htarget]
      dsimp only at h
      split at h
      · rename_i c hfield
        obtain ⟨hlo, hhi⟩ := reachOf_eq_fits h
        unfold resolveAsmFieldExpr at hfield
        obtain ⟨v, hv, hfield⟩ := bind_eq_ok.mp hfield
        obtain ⟨v', hv', hfield⟩ := bind_eq_ok.mp hfield
        split at hfield
        · cases Except.ok.inj hfield
        · rename_i hlone
          obtain ⟨v'', hv'', hfield⟩ := bind_eq_ok.mp hfield
          obtain ⟨res, hres, hfield⟩ := bind_eq_ok.mp hfield
          cases res with
          | reloc => cases Except.ok.inj hfield
          | abs c' =>
            obtain rfl := AsmFieldTarget.abs.inj (Except.ok.inj hfield)
            obtain ⟨hpos, hneg, hadd⟩ := resolveAsmValue_eq_abs hres
            obtain ⟨p, o, hp, hn, hspace, hc⟩ := location_of_combine rfl hv'' hpos hneg hadd
            have hoff : o + v'.add - (at_ + short.reloc.offset) = c' := hc.symm
            refine ⟨o + v'.add, ⟨v, v', p, o, hv, hv', hp, hn, hspace, rfl, fun n hn' => ?_⟩, hoff ▸ hlo, hoff ▸ hhi⟩
            have hsym : v'.loneSymbol = some n := by simp only [AsmExprValue.loneSymbol, hp, hn, hn']
            rw [hsym] at hlone
            exact Bool.eq_false_of_not_eq_true fun hweak => by simp [Option.filter, hweak] at hlone
      · cases h
    · cases h
  · cases h

/-- **Relaxation ends soundly.**  The lengthening loop does not run out of its rounds, of which there is one for each
branch with a short form and a last one; and what it returns was measured with exactly its long branches, and each
branch that is not long reaches a target of its own section. -/
theorem measureAsmSectionOffsets_relaxed (u : AsmStatement) :
    measureAsmSectionOffsets u ≠ .error [(none, .rounds)] ∧
      ∀ m, measureAsmSectionOffsets u = .ok m →
        (∃ m₀ sites, measureFillRounds u m.long = .ok (m₀, sites) ∧ m = { m₀ with long := m.long }) ∧
        ∀ site ∈ relaxable u.blocks, site ∉ m.long → ShortReaches u m site := by
  have hfits : ∀ m, Relaxed u m →
      (∃ m₀ sites, measureFillRounds u m.long = .ok (m₀, sites) ∧ m = { m₀ with long := m.long }) ∧
        ∀ site ∈ relaxable u.blocks, site ∉ m.long → ShortReaches u m site := by
    intro m hm
    refine ⟨hm.measured, fun site hsite hlong => ?_⟩
    obtain ⟨at_, hplace, hreach⟩ := hm.fits site hsite hlong
    exact shortReaches_of_fits hplace hreach
  unfold measureAsmSectionOffsets
  split
  · rename_i es hes
    refine ⟨fun heq => measureFillRounds_ne_rounds (hes.trans ?_), fun _ hm => (nomatch hm)⟩
    rw [Except.error.inj heq]
  · rename_i m sites hm
    split
    · rename_i hnil
      refine ⟨(nomatch ·), fun m' hm' => ?_⟩
      obtain rfl := Except.ok.inj hm'
      have hlong := measureFillRounds_long hm
      refine hfits m ⟨⟨m, sites, hlong ▸ hm, rfl⟩, fun site hsite => ?_, fun site hsite _ => ?_⟩
      · rw [hlong] at hsite
        exact absurd hsite (Finset.notMem_empty _)
      · obtain ⟨hmem, hplaced⟩ := measureFillRounds_sites hm
        obtain ⟨at_, hat⟩ := Option.isSome_iff_exists.mp (hplaced site hsite)
        rw [List.isEmpty_iff.mp hnil] at hmem
        exact (nomatch (hmem ⟨site, at_⟩).mpr ⟨hsite, hat⟩)
    · have hfuel : ((relaxable u.blocks).toFinset \ ∅).card < (relaxable u.blocks).length + 1 := by
        rw [Finset.sdiff_empty]
        exact Nat.lt_succ_of_le (List.toFinset_card_le _)
      obtain ⟨hne, hok⟩ :=
        relaxLoop_spec hm (fun _ h => absurd h (Finset.notMem_empty _)) hfuel
      exact ⟨hne, fun m' hm' => hfits m' (hok m' hm')⟩

end Badc.Asm
