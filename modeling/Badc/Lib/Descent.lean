import Mathlib.Data.Nat.Notation

/-!
# Descent in a table

A function that calls itself on entries of lower rank is computed with as many levels as there are
ranks, and more levels change nothing.
-/

namespace Badc

variable {ι β : Type*}

/-- The function that a body defines through calls on other entries, to a depth. -/
def descend (body : (ι → β) → ι → β) (bottom : β) : ℕ → ι → β
  | 0, _ => bottom
  | depth + 1, i => body (descend body bottom depth) i

variable {body : (ι → β) → ι → β} {bottom : β} {calls : ι → ι → Prop} {rank : ι → ℕ}

/-- Depths beyond the rank of an entry agree, for a body that only calls entries of lower rank. -/
theorem descend_congr (hbody : ∀ f g i, (∀ j, calls i j → f j = g j) → body f i = body g i)
    (hrank : ∀ i j, calls i j → rank j < rank i) {m n : ℕ} {i : ι} (hm : rank i < m)
    (hn : rank i < n) : descend body bottom m i = descend body bottom n i := by
  induction m generalizing n i with
  | zero => omega
  | succ m ih =>
    cases n with
    | zero => omega
    | succ n =>
      refine hbody _ _ i fun j hj => ?_
      have := hrank i j hj
      exact ih (by omega) (by omega)

/-- At a depth beyond every rank the function satisfies its equation. -/
theorem descend_eq (hbody : ∀ f g i, (∀ j, calls i j → f j = g j) → body f i = body g i)
    (hrank : ∀ i j, calls i j → rank j < rank i) {n : ℕ} (hn : ∀ i, rank i < n) (i : ι) :
    descend body bottom n i = body (descend body bottom n) i := by
  cases n with
  | zero => exact absurd (hn i) (by omega)
  | succ n =>
    refine hbody _ _ i fun j hj => ?_
    have hj' := hrank i j hj
    have hi := hn i
    exact descend_congr hbody hrank (by omega) (hn j)

end Badc
