import Badc.Lib.Loop

/-!
# Union and find

A forest of parent pointers on the numbers below a bound.  `find` walks to the root and compresses the
path behind it; it returns the root and leaves every root as it is (`Forest.find_spec`).  A root that is
attached to another one joins their classes (`Forest.join`).
-/

namespace Badc.UnionFind

/-- The root above an element. -/
def walkToRoot (n : ℕ) (parent : ℕ → ℕ) (v : ℕ) : ℕ :=
  whileSome (fun cur => if parent cur = cur then none else some (parent cur)) n v

/-- One round of compression: point an element at the root and go on at its parent. -/
def compressStep (root : ℕ) (s : (ℕ → ℕ) × ℕ) : Option ((ℕ → ℕ) × ℕ) :=
  if s.1 s.2 = s.2 then none else some (Function.update s.1 s.2 root, s.1 s.2)

/-- The root of an element's class, and the pointers with the path to it compressed. -/
def find (n : ℕ) (parent : ℕ → ℕ) (v : ℕ) : ℕ × (ℕ → ℕ) :=
  let root := walkToRoot n parent v
  (root, (whileSome (compressStep root) n (parent, v)).1)

/-- Pointers on the numbers below `n` in which `root` is the root above each, and along which `rank`
goes down. -/
structure Forest (n : ℕ) (parent root rank : ℕ → ℕ) : Prop where
  parent_lt : ∀ v < n, parent v < n
  root_lt : ∀ v < n, root v < n
  root_parent : ∀ v < n, root (parent v) = root v
  parent_root : ∀ v < n, parent (root v) = root v
  root_of_fixed : ∀ v < n, parent v = v → root v = v
  rank_lt : ∀ v < n, parent v ≠ v → rank (parent v) < rank v

namespace Forest

variable {n : ℕ} {parent root rank : ℕ → ℕ} {v r : ℕ}

lemma singletons (n : ℕ) : Forest n id id fun _ => 0 where
  parent_lt _ h := h
  root_lt _ h := h
  root_parent _ _ := rfl
  parent_root _ _ := rfl
  root_of_fixed _ _ h := h
  rank_lt _ _ h := absurd rfl h

lemma root_root (h : Forest n parent root rank) (hv : v < n) : root (root v) = root v :=
  h.root_of_fixed _ (h.root_lt v hv) (h.parent_root v hv)

/-- The root of an element is no higher in rank. -/
lemma rank_root_le (h : Forest n parent root rank) (hv : v < n) : rank (root v) ≤ rank v := by
  induction hr : rank v using Nat.strong_induction_on generalizing v with
  | _ r ih =>
    subst hr
    by_cases hfixed : parent v = v
    · rw [h.root_of_fixed v hv hfixed]
    · have hlt := h.rank_lt v hv hfixed
      have := ih _ hlt (h.parent_lt v hv) rfl
      rw [h.root_parent v hv] at this
      omega

/-- The elements of lower rank. -/
def below (n : ℕ) (rank : ℕ → ℕ) (v : ℕ) : ℕ := ((Finset.range n).filter fun u => rank u < rank v).card

lemma below_le : below n rank v ≤ n :=
  (Finset.card_filter_le _ _).trans (Finset.card_range n).le

lemma below_parent_lt (h : Forest n parent root rank) (hv : v < n) (hne : parent v ≠ v) :
    below n rank (parent v) < below n rank v := by
  have hlt := h.rank_lt v hv hne
  refine Finset.card_lt_card ⟨fun u hu => ?_, fun hsub => ?_⟩
  · rw [Finset.mem_filter] at hu ⊢
    exact ⟨hu.1, hu.2.trans hlt⟩
  · have hmem : parent v ∈ (Finset.range n).filter fun u => rank u < rank v :=
      Finset.mem_filter.mpr ⟨Finset.mem_range.mpr (h.parent_lt v hv), hlt⟩
    exact absurd (Finset.mem_filter.mp (hsub hmem)).2 (Nat.lt_irrefl _)

/-- The walk ends at the root. -/
lemma walkToRoot_eq (h : Forest n parent root rank) (hv : v < n) : walkToRoot n parent v = root v := by
  let step := fun cur => if parent cur = cur then none else some (parent cur)
  have hstep : ∀ cur next, (cur < n ∧ root cur = root v) → step cur = some next →
      (next < n ∧ root next = root v) ∧ below n rank next < below n rank cur := by
    intro cur next ⟨hcur, hroot⟩ hnext
    by_cases hfixed : parent cur = cur
    · simp [step, hfixed] at hnext
    · obtain rfl : parent cur = next := by simpa [step, hfixed] using hnext
      exact ⟨⟨h.parent_lt cur hcur, (h.root_parent cur hcur).trans hroot⟩,
        h.below_parent_lt hcur hfixed⟩
  have hdone := whileSome_done (fun cur => cur < n ∧ root cur = root v) (below n rank) hstep
    ⟨hv, rfl⟩ below_le
  obtain ⟨hlt, hroot⟩ := whileSome_invariant (fun cur => cur < n ∧ root cur = root v)
    (fun cur next hcur hnext => (hstep cur next hcur hnext).1) n ⟨hv, rfl⟩
  have hfixed : parent (whileSome step n v) = whileSome step n v := by
    by_contra hne
    simp [step, hne] at hdone
  exact (h.root_of_fixed _ hlt hfixed).symm.trans hroot

/-- Pointing an element at its root keeps the forest. -/
lemma update_root (h : Forest n parent root rank) (hv : v < n) (hne : parent v ≠ v) :
    Forest n (Function.update parent v (root v)) root rank := by
  have hnot : ∀ u < n, root u ≠ v := fun u hu he => hne (he ▸ h.parent_root u hu)
  refine ⟨fun u hu => ?_, h.root_lt, fun u hu => ?_, fun u hu => ?_, fun u hu hfixed => ?_,
    fun u hu hmoved => ?_⟩
  · by_cases he : u = v
    · rw [he, Function.update_self]
      exact h.root_lt v hv
    · rw [Function.update_of_ne he]
      exact h.parent_lt u hu
  · by_cases he : u = v
    · rw [he, Function.update_self]
      exact h.root_root hv
    · rw [Function.update_of_ne he]
      exact h.root_parent u hu
  · rw [Function.update_of_ne (hnot u hu)]
    exact h.parent_root u hu
  · by_cases he : u = v
    · rw [he, Function.update_self] at hfixed
      exact absurd hfixed (hnot v hv)
    · rw [Function.update_of_ne he] at hfixed
      exact h.root_of_fixed u hu hfixed
  · by_cases he : u = v
    · have hle := h.rank_root_le (h.parent_lt v hv)
      rw [h.root_parent v hv] at hle
      rw [he, Function.update_self]
      exact hle.trans_lt (h.rank_lt v hv hne)
    · rw [Function.update_of_ne he] at hmoved ⊢
      exact h.rank_lt u hu hmoved

/-- A round of compression keeps the forest and goes on in the class, below. -/
lemma compressStep_spec {s s' : (ℕ → ℕ) × ℕ} (h : Forest n s.1 root rank) (hlt : s.2 < n)
    (hs' : compressStep (root s.2) s = some s') :
    (Forest n s'.1 root rank ∧ s'.2 < n ∧ root s'.2 = root s.2) ∧
      below n rank s'.2 < below n rank s.2 := by
  unfold compressStep at hs'
  split at hs'
  · cases hs'
  · rename_i hne
    obtain rfl := Option.some.inj hs'
    exact ⟨⟨h.update_root hlt hne, h.parent_lt _ hlt, h.root_parent _ hlt⟩, h.below_parent_lt hlt hne⟩

/-- **Finding a root keeps all roots.** -/
theorem find_spec (h : Forest n parent root rank) (hv : v < n) :
    (find n parent v).1 = root v ∧ Forest n (find n parent v).2 root rank := by
  refine ⟨h.walkToRoot_eq hv, ?_⟩
  rw [find]
  dsimp only
  rw [h.walkToRoot_eq hv]
  refine (whileSome_invariant
    (fun s : (ℕ → ℕ) × ℕ => Forest n s.1 root rank ∧ s.2 < n ∧ root s.2 = root v) ?_ n ⟨h, hv, rfl⟩).1
  rintro s s' ⟨hforest, hlt, hroot⟩ hs'
  rw [← hroot] at hs' ⊢
  exact (hforest.compressStep_spec hlt hs').1

/-- The roots after one is attached to another one. -/
def joined (root : ℕ → ℕ) (keep drop v : ℕ) : ℕ := if root v = drop then keep else root v

/-- **A root attached to another one joins their classes.** -/
theorem join (h : Forest n parent root rank) {keep drop : ℕ} (hkeep : keep < n)
    (hkeeproot : root keep = keep) (hdroproot : root drop = drop) (hne : keep ≠ drop) :
    Forest n (Function.update parent drop keep) (joined root keep drop)
      fun v => if root v = drop then rank v + rank keep + 1 else rank v := by
  have hself : joined root keep drop keep = keep := by
    rw [joined, hkeeproot, if_neg hne]
  have hkeepfixed : parent keep = keep := by
    have := h.parent_root keep hkeep
    rwa [hkeeproot] at this
  refine ⟨fun v hv => ?_, fun v hv => ?_, fun v hv => ?_, fun v hv => ?_, fun v hv hfixed => ?_,
    fun v hv hmoved => ?_⟩
  · by_cases he : v = drop
    · rw [he, Function.update_self]
      exact hkeep
    · rw [Function.update_of_ne he]
      exact h.parent_lt v hv
  · unfold joined
    split
    · exact hkeep
    · exact h.root_lt v hv
  · by_cases he : v = drop
    · rw [he, Function.update_self, hself, joined, if_pos hdroproot]
    · rw [Function.update_of_ne he, joined, joined, h.root_parent v hv]
  · unfold joined
    split
    · rw [Function.update_of_ne hne]
      exact hkeepfixed
    · rename_i hother
      rw [Function.update_of_ne hother]
      exact h.parent_root v hv
  · by_cases he : v = drop
    · rw [he, Function.update_self] at hfixed
      exact absurd hfixed hne
    · rw [Function.update_of_ne he] at hfixed
      have hroot := h.root_of_fixed v hv hfixed
      rw [joined, hroot, if_neg he]
  · by_cases he : v = drop
    · rw [he, Function.update_self, hkeeproot, if_neg hne, if_pos hdroproot]
      omega
    · rw [Function.update_of_ne he] at hmoved ⊢
      have hlt := h.rank_lt v hv hmoved
      rw [h.root_parent v hv]
      split <;> omega

end Forest

end Badc.UnionFind
