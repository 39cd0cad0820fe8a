import Badc.Preprocessor.Substitute
import Mathlib.Data.Multiset.DershowitzManna
import Mathlib.Data.Finset.Card

/-!
# The rescan ends

Hidesets can shrink along a rescan, since an invocation hides only what both its name and its
closing parenthesis hide.  What does not shrink is a *level* given to each pending token: a set of
names its hideset holds, the levels falling along the list.  An invocation uses up the token that
closes it, at some level, and leaves tokens at that level and one name more: the name was not in
the hideset of its token, so not in that token's level, nor in a lower one.  Levels are bounded by
the names that have definitions, so the multiset of the numbers of names they miss falls in the
order of Dershowitz and Manna (`Advances.lowers`), whatever the table and the pending tokens.
-/

namespace Badc

namespace Preprocessor

open Arena

/-! ## Levels -/

/-- What a step of the scan does to the pending tokens: it drops some, or replaces those from a
name to the token `last` that ends its invocation by tokens whose hidesets hold the name and
whatever both hidesets held. -/
inductive Advances (U : Finset Spelling) (a b : Arena) : List Tok → List Tok → Prop
  | drops (gone kept : List Tok) (hgone : gone ≠ []) : Advances U a b (gone ++ kept) kept
  | rejoins (first last : Tok) (name : Spelling) (gone new kept : List Tok)
      (hhead : gone.head? = some first) (hlast : gone.getLast? = some last)
      (hfirst : first.consulted = true) (hclose : last.consulted = true) (hU : name ∈ U)
      (hfree : a.hsContains first.hs name = false)
      (hnew : ∀ t ∈ new, t.consulted = true → ∀ other, other = name ∨
        (a.hsContains first.hs other = true ∧ a.hsContains last.hs other = true) →
          b.hsContains t.hs other = true) :
      Advances U a b (gone ++ kept) (new ++ kept)

/-- Pending tokens with their levels: names of `U` that their hidesets hold, falling along the
list. -/
structure Leveled (a : Arena) (U : Finset Spelling) (ps : List (Tok × Finset Spelling)) :
    Prop where
  subset : ∀ p ∈ ps, p.2 ⊆ U
  holds : ∀ p ∈ ps, p.1.consulted = true → ∀ name ∈ p.2, a.hsContains p.1.hs name = true
  falls : ps.Pairwise fun p q => q.2 ⊆ p.2

/-- A step that starts after the arena has grown. -/
lemma Advances.of_extends {U : Finset Spelling} {a b c : Arena} {toks rest : List Tok}
    (h : Advances U b c toks rest) (ha : a.Valid) (hb : b.Valid) (hext : Extends a b)
    (hbelow : Below a toks) : Advances U a c toks rest := by
  cases h with
  | drops gone kept hgone => exact Advances.drops gone rest hgone
  | rejoins first last name gone new kept hhead hlast hfirst hclose hU hfree hnew =>
    have hsame : ∀ t ∈ gone, ∀ other, b.hsContains t.hs other = true ↔
        a.hsContains t.hs other = true := fun t ht other =>
      hext.contains_iff ha hb (hbelow t (List.mem_append_left _ ht))
    refine Advances.rejoins first last name gone new kept hhead hlast hfirst hclose hU ?_ ?_
    · rw [Bool.eq_false_iff, ne_eq, ← hsame first (List.mem_of_mem_head? hhead), hfree]
      exact Bool.false_ne_true
    · intro t ht hc other hother
      refine hnew t ht hc other (hother.imp_right (And.imp ?_ ?_))
      · exact (hsame first (List.mem_of_mem_head? hhead) other).mpr
      · exact (hsame last (List.mem_of_mem_getLast? hlast) other).mpr

/-- How many names the level of each pending token misses. -/
def missing (U : Finset Spelling) (ps : List (Tok × Finset Spelling)) : Multiset ℕ :=
  ps.map fun p => (U \ p.2).card

variable {U : Finset Spelling} {a b : Arena} {ps : List (Tok × Finset Spelling)}

/-- Any tokens have levels: the empty ones. -/
lemma leveled_start (a : Arena) (U : Finset Spelling) (toks : List Tok) :
    Leveled a U (toks.map (·, ∅)) where
  subset p hp := by
    obtain ⟨t, -, rfl⟩ := List.mem_map.mp hp
    exact Finset.empty_subset U
  holds p hp := by
    obtain ⟨t, -, rfl⟩ := List.mem_map.mp hp
    exact fun _ name hname => absurd hname (Finset.notMem_empty name)
  falls := by
    rw [List.pairwise_map]
    exact List.pairwise_of_forall fun _ _ => Finset.Subset.refl _

lemma Leveled.extend {qs : List (Tok × Finset Spelling)} (h : Leveled a U ps)
    (hsub : qs.Sublist ps) (hbelow : Below a (ps.map Prod.fst)) (ha : a.Valid) (hb : b.Valid)
    (hext : Extends a b) : Leveled b U qs where
  subset p hp := h.subset p (hsub.subset hp)
  holds p hp hc name hname := by
    have hp' := hsub.subset hp
    rw [hext.contains_iff ha hb (hbelow _ (List.mem_map_of_mem hp'))]
    exact h.holds p hp' hc name hname
  falls := h.falls.sublist hsub

lemma missing_drop (gs ks : List (Tok × Finset Spelling)) (hgs : gs ≠ []) :
    Multiset.IsDershowitzMannaLT (missing U ks) (missing U (gs ++ ks)) := by
  refine ⟨missing U ks, 0, missing U gs, ?_, (add_zero _).symm, ?_, fun y hy => ?_⟩
  · simpa [missing] using hgs
  · rw [add_comm]
    simp [missing]
  · exact absurd hy (Multiset.notMem_zero y)

/-- **A step of the scan lowers the measure**: the pending tokens it leaves have levels that miss
less. -/
theorem Advances.lowers {toks rest : List Tok} (h : Advances U a b toks rest) (ha : a.Valid)
    (hb : b.Valid) (hext : Extends a b) (hbelow : Below a toks) (hps : ps.map Prod.fst = toks)
    (hl : Leveled a U ps) :
    ∃ qs, qs.map Prod.fst = rest ∧ Leveled b U qs ∧
      Multiset.IsDershowitzMannaLT (missing U qs) (missing U ps) := by
  cases h with
  | drops gone kept hgone =>
    obtain ⟨gs, ks, rfl, rfl, rfl⟩ := List.map_eq_append_iff.mp hps
    refine ⟨ks, rfl, hl.extend (List.sublist_append_right gs ks) ?_ ha hb hext, ?_⟩
    · rwa [hps]
    · exact missing_drop gs ks fun h => hgone (by rw [h]; rfl)
  | rejoins first last name gone new kept hhead hlast hfirst hclose hU hfree hnew =>
    obtain ⟨gs, ks, rfl, rfl, rfl⟩ := List.map_eq_append_iff.mp hps
    rw [List.head?_map, Option.map_eq_some_iff] at hhead
    rw [List.getLast?_map, Option.map_eq_some_iff] at hlast
    obtain ⟨p, hp, rfl⟩ := hhead
    obtain ⟨q, hq, rfl⟩ := hlast
    have hpmem : p ∈ gs := List.mem_of_mem_head? hp
    have hqmem : q ∈ gs := List.mem_of_mem_getLast? hq
    have hfalls := List.pairwise_append.mp hl.falls
    -- the level of the last token is the lowest of those used up
    have hle : q.2 ⊆ p.2 := by
      cases gs with
      | nil => cases hp
      | cons g gs =>
        obtain rfl : g = p := Option.some.inj hp
        rcases List.mem_cons.mp hqmem with rfl | hmem
        · exact Finset.Subset.refl _
        · exact List.rel_of_pairwise_cons hfalls.1 hmem
    have hname : name ∉ q.2 := fun hmem => by
      have hheld := hl.holds p (List.mem_append_left _ hpmem) hfirst name (hle hmem)
      rw [hfree] at hheld
      cases hheld
    have hless : (U \ insert name q.2).card < (U \ q.2).card := by
      refine Finset.card_lt_card (Finset.ssubset_iff_of_subset ?_ |>.mpr ⟨name, ?_, ?_⟩)
      · exact Finset.sdiff_subset_sdiff (Finset.Subset.refl U) (Finset.subset_insert name q.2)
      · exact Finset.mem_sdiff.mpr ⟨hU, hname⟩
      · simp
    have hkept := hl.extend (List.sublist_append_right gs ks) (by rwa [hps]) ha hb hext
    refine ⟨new.map (·, insert name q.2) ++ ks, by simp [Function.comp_def], ⟨?_, ?_, ?_⟩, ?_⟩
    · intro r hr
      rcases List.mem_append.mp hr with hr | hr
      · obtain ⟨t, -, rfl⟩ := List.mem_map.mp hr
        exact Finset.insert_subset hU (hl.subset q (List.mem_append_left _ hqmem))
      · exact hkept.subset r hr
    · intro r hr hc other hother
      rcases List.mem_append.mp hr with hr | hr
      · obtain ⟨t, ht, rfl⟩ := List.mem_map.mp hr
        refine hnew t ht hc other ((Finset.mem_insert.mp hother).imp_right fun hmem => ?_)
        exact ⟨hl.holds p (List.mem_append_left _ hpmem) hfirst other (hle hmem),
          hl.holds q (List.mem_append_left _ hqmem) hclose other hmem⟩
      · exact hkept.holds r hr hc other hother
    · refine List.pairwise_append.mpr ⟨?_, hkept.falls, fun r hr k hk => ?_⟩
      · rw [List.pairwise_map]
        exact List.pairwise_of_forall fun _ _ => Finset.Subset.refl _
      · obtain ⟨t, -, rfl⟩ := List.mem_map.mp hr
        exact (hfalls.2.2 q hqmem k hk).trans (Finset.subset_insert name q.2)
    · refine ⟨missing U ks, missing U (new.map (·, insert name q.2)), missing U gs, ?_, ?_, ?_, ?_⟩
      · intro hempty
        have : (U \ q.2).card ∈ missing U gs := Multiset.mem_coe.mpr (List.mem_map_of_mem hqmem)
        rw [hempty] at this
        exact Multiset.notMem_zero _ this
      · rw [add_comm]
        simp [missing]
      · rw [add_comm]
        simp [missing]
      · intro y hy
        obtain ⟨r, hr, rfl⟩ := List.mem_map.mp (Multiset.mem_coe.mp hy)
        obtain ⟨t, -, rfl⟩ := List.mem_map.mp hr
        exact ⟨_, Multiset.mem_coe.mpr (List.mem_map_of_mem hqmem), hless⟩

end Preprocessor

end Badc
