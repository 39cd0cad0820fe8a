import Mathlib.Logic.Relation

/-!
# Backward flow

Where an element is live: before a place, if a path from its entry leads to a use without passing a
place that kills the element; after a place, if the element is needed on exit or live before a
successor.  `BackwardFlow.liveIn_iff` gives the backward equations and `BackwardFlow.LiveIn.least`
says that the live sets are their least solution.
-/

namespace Badc

/-- What one element meets: the edges, the places that use it before any kill of their own, those
that need it on exit, and those that kill it. -/
structure BackwardFlow (β : Type*) where
  succ : β → β → Prop
  use : β → Prop
  exit : β → Prop
  kill : β → Prop

namespace BackwardFlow

variable {β : Type*} (F : BackwardFlow β)

/-- An edge out of a place that does not kill the element. -/
def Through (a b : β) : Prop := ¬ F.kill a ∧ F.succ a b

/-- A path from the entry of `a` reaches a use, or an exit that needs the element, past no kill. -/
def LiveIn (a : β) : Prop :=
  ∃ c, Relation.ReflTransGen F.Through a c ∧ (F.use c ∨ ¬ F.kill c ∧ F.exit c)

/-- A path from the exit of `a` does. -/
def LiveOut (a : β) : Prop := F.exit a ∨ ∃ b, F.succ a b ∧ F.LiveIn b

variable {F} {a : β}

/-- **The backward equations.** -/
theorem liveIn_iff : F.LiveIn a ↔ F.use a ∨ ¬ F.kill a ∧ F.LiveOut a := by
  constructor
  · rintro ⟨c, hpath, hc⟩
    rcases Relation.ReflTransGen.cases_head hpath with rfl | ⟨b, ⟨hkill, hab⟩, hbc⟩
    · exact hc.imp_right fun ⟨hkill, hexit⟩ => ⟨hkill, Or.inl hexit⟩
    · exact Or.inr ⟨hkill, Or.inr ⟨b, hab, c, hbc, hc⟩⟩
  · rintro (huse | ⟨hkill, hexit | ⟨b, hab, c, hbc, hc⟩⟩)
    · exact ⟨a, .refl, Or.inl huse⟩
    · exact ⟨a, .refl, Or.inr ⟨hkill, hexit⟩⟩
    · exact ⟨c, .head ⟨hkill, hab⟩ hbc, hc⟩

/-- **The live sets are the least solution**: they are part of any set that has what the equations
ask for. -/
theorem LiveIn.least (In : β → Prop)
    (hIn : ∀ a, F.use a ∨ ¬ F.kill a ∧ (F.exit a ∨ ∃ b, F.succ a b ∧ In b) → In a)
    (h : F.LiveIn a) : In a := by
  obtain ⟨c, hpath, hc⟩ := h
  induction hpath using Relation.ReflTransGen.head_induction_on with
  | refl => exact hIn c (hc.imp_right fun ⟨hkill, hexit⟩ => ⟨hkill, Or.inl hexit⟩)
  | head hab _ ih => exact hIn _ (Or.inr ⟨hab.1, Or.inr ⟨_, hab.2, ih⟩⟩)

end BackwardFlow

end Badc
