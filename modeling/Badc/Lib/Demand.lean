import Mathlib.Data.Fintype.EquivFin
import Mathlib.Data.Finite.Defs
import Mathlib.Logic.Relation
import Mathlib.Order.WellFounded
import Mathlib.Order.RelClasses

/-!
# Demand backward along reads

Nodes read one another (`E j i`: `j` reads `i`); some are kept for their own sake, some are read from
outside, and some only pass on what they read (phis).  A removal that takes a node without readers, or
a set of passing nodes that only read one another, never removes a `Supported` set: one whose nodes are
read, through passing nodes, from outside or by a node of the set that does not pass on.  The greatest
such set is what is `Demanded`: what is reached backward from the kept nodes, from outside, and from the
cycles of reads with a node that does not pass on (`Supported.demanded`, `supported_demanded`).
-/

namespace Badc

namespace Demand

open Relation

variable {α : Type*}

/-- Nodes kept for their own sake, nodes read from outside, and nodes that only pass on what they
read. -/
structure Roots (α : Type*) where
  kept : α → Prop
  outside : α → Prop
  passes : α → Prop
  not_passes : ∀ i, kept i → ¬passes i

variable (E : α → α → Prop) (r : Roots α)

/-- What is reached backward from the kept nodes, from outside, and from a cycle of reads with a node
that does not pass on. -/
inductive Demanded : α → Prop
  | kept {i} : r.kept i → Demanded i
  | outside {i} : r.outside i → Demanded i
  | cycle {i} : ¬r.passes i → TransGen E i i → Demanded i
  | read {i j} : Demanded j → E j i → Demanded i

/-- What is reached backward from the kept nodes and from outside. -/
inductive Reached : α → Prop
  | kept {i} : r.kept i → Reached i
  | outside {i} : r.outside i → Reached i
  | read {i j} : Reached j → E j i → Reached i

/-- Read from outside or by a node of the set that does not pass on, or passed on by nodes of the set
from there. -/
inductive Backed (S : α → Prop) : α → Prop
  | outside {i} : r.outside i → Backed S i
  | direct {i j} : S j → ¬r.passes j → E j i → Backed S i
  | passed {i j} : Backed S j → S j → r.passes j → E j i → Backed S i

/-- Every node of the set is kept or backed by the set. -/
def Supported (S : α → Prop) : Prop := ∀ i, S i → r.kept i ∨ Backed E r S i

variable {E r} {S : α → Prop} {i j : α}

/-- What is demanded is supported. -/
theorem supported_demanded : Supported E r (Demanded E r) := by
  intro i hi
  induction hi with
  | kept hk => exact Or.inl hk
  | outside ho => exact Or.inr (.outside ho)
  | @read i j hj he ih =>
    by_cases hp : r.passes j
    · rcases ih with hk | hb
      · exact absurd hp (r.not_passes j hk)
      · exact Or.inr (.passed hb hj hp he)
    · exact Or.inr (.direct hj hp he)
  | @cycle i hp hc =>
    -- Every node the cycle reads is demanded and backed, down to the node itself.
    have hall : ∀ b, TransGen E i b → Demanded E r b ∧ Backed E r (Demanded E r) b := by
      intro b hb
      induction hb with
      | single he => exact ⟨.read (.cycle hp hc) he, .direct (.cycle hp hc) hp he⟩
      | @tail b c _ he ih =>
        refine ⟨.read ih.1 he, ?_⟩
        by_cases hpb : r.passes b
        · exact .passed ih.2 ih.1 hpb he
        · exact .direct ih.1 hpb he
    exact Or.inr (hall i hc).2

/-- A backed node that is not demanded is read, by way of passing nodes, by one of the set that does not
pass on and is not demanded either. -/
lemma Backed.exists_reader (h : Backed E r S i) (hi : ¬Demanded E r i) :
    ∃ j, S j ∧ ¬r.passes j ∧ ¬Demanded E r j ∧ TransGen E j i := by
  induction h with
  | outside ho => exact absurd (.outside ho) hi
  | direct hj hp he => exact ⟨_, hj, hp, fun hd => hi (.read hd he), .single he⟩
  | passed _ _ _ he ih =>
    obtain ⟨k, hk, hp, hd, ht⟩ := ih fun hd => hi (.read hd he)
    exact ⟨k, hk, hp, hd, ht.tail he⟩

/-- On finitely many nodes, a supported set is demanded: a node of it that is not would be read again and
again, and the readers run into a cycle. -/
theorem Supported.demanded {β : Type*} [Finite β] (f : β → α) (h : Supported E r S)
    (hf : ∀ i, S i → ∃ b, f b = i) : ∀ i, S i → Demanded E r i := by
  intro i hi
  by_contra hd
  let R : β → β → Prop := fun a b => TransGen E (f a) (f b) ∧ ¬r.passes (f a) ∧ ¬Demanded E r (f a)
  have htrans : IsTrans β R := ⟨fun a b c hab hbc => ⟨hab.1.trans hbc.1, hab.2⟩⟩
  have hirrefl : Std.Irrefl R := ⟨fun a ha => ha.2.2 (.cycle ha.2.1 ha.1)⟩
  have hwf : WellFounded R := Finite.wellFounded_of_trans_of_irrefl R
  obtain ⟨b, hb⟩ := hf i hi
  subst hb
  induction b using hwf.induction with
  | _ b ih =>
    rcases h (f b) hi with hk | hback
    · exact hd (.kept hk)
    · obtain ⟨j, hj, hp, hdj, ht⟩ := hback.exists_reader hd
      obtain ⟨c, rfl⟩ := hf j hj
      exact ih c ⟨ht, hp, hdj⟩ hj hdj

end Demand

end Badc
