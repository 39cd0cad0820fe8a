import Mathlib.Data.List.Basic
import Mathlib.Tactic

/-!
# Finding an element or adding it

A table of elements with a key is often kept as a list in the order the keys were first seen, with
an index from the keys to the places.  `findOrPush` looks a key up, adds a fresh element where it is
missing, and changes the element found.
-/

namespace Badc

variable {α : Type*}

/-- Change the element that satisfies `p`, or a fresh one at the end, by `f`; also give its place. -/
def findOrPush (xs : List α) (p : α → Bool) (fresh : α) (f : α → α) : List α × ℕ :=
  let k := xs.findIdx p
  let xs := if k < xs.length then xs else xs ++ [fresh]
  (xs.modify k f, k)

variable {xs : List α} {p : α → Bool} {fresh : α} {f : α → α}

/-- The element at the place given is the one changed. -/
theorem findOrPush_at : ∃ x,
    (findOrPush xs p fresh f).1[(findOrPush xs p fresh f).2]? = some (f x) ∧
      (xs[(findOrPush xs p fresh f).2]? = some x ∧ p x = true ∨
        (findOrPush xs p fresh f).2 = xs.length ∧ x = fresh ∧ ∀ y ∈ xs, p y = false) := by
  unfold findOrPush
  dsimp only
  by_cases hlt : xs.findIdx p < xs.length
  · rw [if_pos hlt, List.getElem?_modify_eq, List.getElem?_eq_getElem hlt]
    exact ⟨_, rfl, Or.inl ⟨rfl, List.findIdx_getElem (w := hlt)⟩⟩
  · have hend : xs.findIdx p = xs.length :=
      le_antisymm List.findIdx_le_length (Nat.le_of_not_lt hlt)
    refine ⟨fresh, ?_, Or.inr ⟨hend, rfl, List.findIdx_eq_length.mp hend⟩⟩
    rw [if_neg hlt, List.getElem?_modify_eq, hend, List.getElem?_append_right (Nat.le_refl _),
      Nat.sub_self]
    rfl

/-- Elsewhere nothing changes. -/
theorem findOrPush_ne {j : ℕ} (h : j ≠ (findOrPush xs p fresh f).2) :
    (findOrPush xs p fresh f).1[j]? = xs[j]? := by
  unfold findOrPush at h ⊢
  dsimp only at h ⊢
  rw [List.getElem?_modify_ne _ _ (Ne.symm h)]
  split
  · rfl
  · rename_i hlt
    have hend : xs.findIdx p = xs.length :=
      le_antisymm List.findIdx_le_length (Nat.le_of_not_lt hlt)
    rw [hend] at h
    rcases Nat.lt_or_gt_of_ne h with hj | hj
    · exact List.getElem?_append_left hj
    · rw [List.getElem?_eq_none (by simp; omega), List.getElem?_eq_none (by omega)]

end Badc
