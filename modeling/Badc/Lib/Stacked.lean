import Mathlib.Data.List.Pairwise
import Mathlib.Tactic

/-!
# Spans laid one behind the other

A cursor moves forward over a range of numbers and lays spans at or behind itself.  `Stacked` says
that the spans laid so far follow each other and end at or before the cursor; it is kept by moving the
cursor forward and by laying a span, and gives that no two spans meet.
-/

namespace Badc

variable {α : Type*} (start len : α → ℕ)

/-- The spans follow each other and end at or before the cursor. -/
structure Stacked (xs : List α) (cursor : ℕ) : Prop where
  ordered : xs.Pairwise fun x y => start x + len x ≤ start y
  behind : ∀ x ∈ xs, start x + len x ≤ cursor

variable {start len} {xs : List α} {x : α} {cursor cursor' : ℕ}

lemma Stacked.nil : Stacked start len [] cursor :=
  ⟨List.Pairwise.nil, fun _ h => absurd h (by simp)⟩

lemma Stacked.mono (h : Stacked start len xs cursor) (hle : cursor ≤ cursor') :
    Stacked start len xs cursor' :=
  ⟨h.ordered, fun x hx => (h.behind x hx).trans hle⟩

/-- A span is laid at or behind the cursor. -/
lemma Stacked.concat (h : Stacked start len xs cursor) (hx : cursor ≤ start x)
    (hend : start x + len x ≤ cursor') : Stacked start len (xs ++ [x]) cursor' := by
  refine ⟨List.pairwise_append.mpr ⟨h.ordered, List.pairwise_singleton _ _, fun y hy z hz => ?_⟩,
    fun y hy => ?_⟩
  · rw [List.mem_singleton.mp hz]
    exact (h.behind y hy).trans hx
  · rcases List.mem_append.mp hy with hy | hy
    · have := h.behind y hy
      omega
    · rw [List.mem_singleton.mp hy]
      exact hend

lemma Stacked.disjoint (h : Stacked start len xs cursor) :
    xs.Pairwise fun x y => ∀ n, ¬ (start x ≤ n ∧ n < start x + len x ∧
      start y ≤ n ∧ n < start y + len y) := by
  refine h.ordered.imp fun hxy n hn => ?_
  omega

end Badc
