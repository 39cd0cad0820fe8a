import Mathlib.Logic.Relation
import Badc.Lib.Dominance

/-!
# Dominance frontiers and the last definition on a path

A node is in the dominance frontier of another one where the dominance of the latter ends.  `LastDef E D entry x b` says
that on some path from the entry to `b` the last node ahead of `b` with a definition is `x`.  Where the nodes that merge
definitions are closed under the frontiers of the nodes that define, a node that merges none has one last definition,
which dominates it strictly, whatever path leads there (`LastDef.unique`).  Frontiers matter only at nodes where the
value is wanted, so a condition on the node goes along, one that holds up a path as far as the last definition.
-/

namespace Badc

variable {α : Type*} {E : α → α → Prop} {D M defs live : α → Prop} {entry a b x y : α}

/-- `b` is in the dominance frontier of `a`: `a` dominates an edge into `b`, but not `b` strictly. -/
def InFrontier (E : α → α → Prop) (entry a b : α) : Prop :=
  ∃ p, E p b ∧ Dom E entry a p ∧ ¬ StrictDom E entry a b

/-- `x` is the last node with a definition ahead of `b` on a path from the entry. -/
inductive LastDef (E : α → α → Prop) (D : α → Prop) (entry x : α) : α → Prop
  | edge {b : α} : Reach E entry x → D x → E x b → LastDef E D entry x b
  | pass {p b : α} : LastDef E D entry x p → ¬ D p → E p b → LastDef E D entry x b

lemma reachVia_or_reachVia (ha : Reach E entry a) (hb : Reach E entry b) (hne : a ≠ b) :
    ReachVia E (· ≠ b) entry a ∨ ReachVia E (· ≠ a) entry b := by
  by_contra h
  rw [not_or] at h
  exact hne (Dom.antisymm ⟨hb, h.2⟩ ⟨ha, h.1⟩)

namespace LastDef

lemma reach (h : LastDef E D entry x b) : Reach E entry b := by
  induction h with
  | edge hx _ hxb => exact hx.step hxb
  | pass _ _ hpb ih => exact ih.step hpb

lemma isDef (h : LastDef E D entry x b) : D x := by
  induction h with
  | edge _ hx _ => exact hx
  | pass _ _ _ ih => exact ih

/-- Where the entry counts as a definition, every other reachable node has a last one. -/
lemma exists_of_reach (hentry : D entry) (hb : Reach E entry b) (hne : b ≠ entry) :
    ∃ x, LastDef E D entry x b := by
  unfold Reach at hb
  induction hb with
  | entry _ => exact absurd rfl hne
  | @step p b hp hpb _ ih =>
    by_cases hD : D p
    · exact ⟨p, .edge hp hD hpb⟩
    · obtain ⟨x, hx⟩ := ih fun he => hD (he ▸ hentry)
      exact ⟨x, .pass hx hD hpb⟩

lemma avoids (h : LastDef E D entry x b) (hy : D y) (hyb : y ≠ b) (hx : ReachVia E (· ≠ y) entry x) :
    ReachVia E (· ≠ y) entry b := by
  induction h with
  | edge _ _ hxb => exact .step hx hxb (Ne.symm hyb)
  | pass _ hp hpb ih => exact .step (ih fun he => hp (he ▸ hy)) hpb (Ne.symm hyb)

/-- The last definition dominates a node that merges none, strictly.  By induction along the path: where its dominance
ended, a node would merge. -/
lemma strictDom (hD : ∀ c, D c ↔ c = entry ∨ defs c ∨ M c)
    (hlive : ∀ p c, E p c → live c → ¬ defs p → live p)
    (hM : ∀ c d, D c → InFrontier E entry c d → d ≠ entry → live d → M d)
    (h : LastDef E D entry x b) (hne : b ≠ entry) (hb : live b) (hnM : ¬ M b) :
    StrictDom E entry x b := by
  have hends : ∀ p c, D x → Dom E entry x p → E p c → c ≠ entry → live c → ¬ M c →
      StrictDom E entry x c := by
    intro p c hx hdom hpc hne hc hnM
    by_contra hno
    exact hnM (hM x c hx ⟨p, hpc, hdom, hno⟩ hne hc)
  have hxD := h.isDef
  induction h with
  | edge hx _ hxb => exact hends x _ hxD (.refl hx) hxb hne hb hnM
  | pass _ hp hpb ih =>
    rw [hD, not_or, not_or] at hp
    exact hends _ _ hxD (ih hp.1 (hlive _ _ hpb hb hp.2.1) hp.2.2).1 hpb hne hb hnM

/-- **A node that merges no definitions has one last definition.** -/
theorem unique (hx : LastDef E D entry x b) (hy : LastDef E D entry y b) (hxb : StrictDom E entry x b)
    (hyb : StrictDom E entry y b) : x = y := by
  by_contra hne
  rcases reachVia_or_reachVia hxb.1.reach_left hyb.1.reach_left hne with h | h
  · exact hyb.1.2 (hx.avoids hy.isDef hyb.2 h)
  · exact hxb.1.2 (hy.avoids hx.isDef hxb.2 h)

end LastDef

end Badc
