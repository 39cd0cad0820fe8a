import Mathlib.Tactic

/-!
# Reachability and dominance

The general theory of dominance in a directed graph with an entry, over an
arbitrary type of nodes.  `ReachVia E ok entry b` says that a path leads from the
entry to `b` over nodes that all satisfy `ok`; `Reach` is the case without a
condition, and a node `d` dominates a reachable node `b` when no path to `b` avoids
`d`.  The lemmas are the facts a static-single-assignment argument rests on:
dominance is a partial order on the reachable nodes, the dominators of a node are
linearly ordered, and a strict dominator of a node dominates each of its reachable
predecessors.  `dom_iff_path` is dominance over paths that are lists of nodes.
-/

namespace Badc

variable {α : Type*}

/-- `ReachVia E ok entry b`: a path of `E` leads from `entry` to `b`, all of whose nodes,
the two ends included, satisfy `ok`. -/
inductive ReachVia (E : α → α → Prop) (ok : α → Prop) (entry : α) : α → Prop
  | entry : ok entry → ReachVia E ok entry entry
  | step {a b : α} : ReachVia E ok entry a → E a b → ok b → ReachVia E ok entry b

/-- A path of `E` leads from the entry to the node. -/
def Reach (E : α → α → Prop) (entry : α) : α → Prop :=
  ReachVia E (fun _ => True) entry

/-- `d` dominates `b`: the entry reaches `b`, and every path from the entry to `b` goes
through `d`. -/
def Dom (E : α → α → Prop) (entry d b : α) : Prop :=
  Reach E entry b ∧ ¬ ReachVia E (fun x => x ≠ d) entry b

/-- `d` dominates `b` and is another node. -/
def StrictDom (E : α → α → Prop) (entry d b : α) : Prop :=
  Dom E entry d b ∧ d ≠ b

section

variable {E E' : α → α → Prop} {ok ok' : α → Prop} {entry a b c d : α}

lemma ReachVia.last (h : ReachVia E ok entry b) : ok b := by
  cases h with
  | entry h => exact h
  | step _ _ h => exact h

lemma ReachVia.mono (hE : ∀ a b, E a b → E' a b) (hok : ∀ a, ok a → ok' a)
    (h : ReachVia E ok entry b) : ReachVia E' ok' entry b := by
  induction h with
  | entry h => exact .entry (hok _ h)
  | step _ hab hb ih => exact .step ih (hE _ _ hab) (hok _ hb)

lemma ReachVia.reach (h : ReachVia E ok entry b) : Reach E entry b :=
  h.mono (fun _ _ => id) (fun _ _ => trivial)

lemma reach_entry : Reach E entry entry := .entry trivial

lemma Reach.step (h : Reach E entry a) (hab : E a b) : Reach E entry b :=
  ReachVia.step h hab trivial

/-- A path to `b` that avoids `d` splits at any node: it avoids that node too, or it is a
path through it.  This is the form in which paths are cut. -/
lemma ReachVia.split (h : ReachVia E ok entry b) (d : α) :
    ReachVia E (fun x => ok x ∧ x ≠ d) entry b ∨ ReachVia E ok entry d := by
  induction h with
  | entry h =>
    by_cases hd : entry = d
    · exact Or.inr (hd ▸ .entry h)
    · exact Or.inl (.entry ⟨h, hd⟩)
  | @step a b ha hab hb ih =>
    rcases ih with ih | ih
    · by_cases hd : b = d
      · exact Or.inr (hd ▸ .step ha hab hb)
      · exact Or.inl (.step ih hab ⟨hb, hd⟩)
    · exact Or.inr ih

lemma Dom.reach (h : Dom E entry d b) : Reach E entry b := h.1

lemma Dom.reach_left (h : Dom E entry d b) : Reach E entry d := by
  rcases ReachVia.split h.1 d with h' | h'
  · exact absurd (h'.mono (fun _ _ => id) (fun _ hx => hx.2)) h.2
  · exact h'

lemma Dom.refl (h : Reach E entry b) : Dom E entry b b :=
  ⟨h, fun h' => h'.last rfl⟩

lemma dom_entry (h : Reach E entry b) : Dom E entry entry b := by
  refine ⟨h, fun h' => ?_⟩
  induction h' with
  | entry he => exact he rfl
  | step h' hab _ ih => exact ih h'.reach

lemma Dom.trans (hab : Dom E entry a b) (hbc : Dom E entry b c) : Dom E entry a c := by
  refine ⟨hbc.1, fun h => ?_⟩
  rcases h.split b with h' | h'
  · exact hbc.2 (h'.mono (fun _ _ => id) (fun _ hx => hx.2))
  · exact hab.2 h'

/-- Dominance is antisymmetric. -/
lemma Dom.antisymm (hab : Dom E entry a b) (hba : Dom E entry b a) : a = b := by
  by_contra hne
  -- A path to `b` meets `a` first or `b` first; either contradicts one of the two.
  have key : ∀ x, Reach E entry x →
      ReachVia E (fun y => y ≠ a ∧ y ≠ b) entry x ∨
        ReachVia E (fun y => y ≠ a) entry b ∨ ReachVia E (fun y => y ≠ b) entry a := by
    intro x hx
    induction hx with
    | entry _ =>
      by_cases hea : entry = a
      · refine Or.inr (Or.inr ?_)
        rw [← hea]
        refine .entry fun heb => hne ?_
        rw [← hea, heb]
      by_cases heb : entry = b
      · refine Or.inr (Or.inl ?_)
        rw [← heb]
        exact .entry hea
      · exact Or.inl (.entry ⟨hea, heb⟩)
    | @step x y _ hxy _ ih =>
      rcases ih with ih | ih
      · by_cases hya : y = a
        · refine Or.inr (Or.inr ?_)
          rw [← hya]
          refine .step (ih.mono (fun _ _ => id) (fun _ h => h.2)) hxy fun hyb => hne ?_
          rw [← hya, hyb]
        by_cases hyb : y = b
        · refine Or.inr (Or.inl ?_)
          rw [← hyb]
          exact .step (ih.mono (fun _ _ => id) (fun _ h => h.1)) hxy hya
        · exact Or.inl (.step ih hxy ⟨hya, hyb⟩)
      · exact Or.inr ih
  rcases key b hab.1 with h | h | h
  · exact h.last.2 rfl
  · exact hab.2 h
  · exact hba.2 h

lemma Dom.of_edge (h : Dom E entry d b) (hne : d ≠ b) (ha : Reach E entry a) (hab : E a b) :
    Dom E entry d a :=
  ⟨ha, fun h' => h.2 (.step h' hab (Ne.symm hne))⟩

/-- What dominates every reachable predecessor of a reachable node other than the entry
dominates the node. -/
lemma dom_of_preds (hb : Reach E entry b) (hne : b ≠ entry)
    (h : ∀ a, Reach E entry a → E a b → Dom E entry d a) : Dom E entry d b := by
  refine ⟨hb, fun h' => ?_⟩
  cases h' with
  | entry _ => exact hne rfl
  | step ha hab _ => exact (h _ ha.reach hab).2 ha

/-- A node other than the entry that only it leads to is not reached. -/
lemma ne_of_sole_pred (hb : Reach E entry b) (hne : b ≠ entry)
    (hsole : ∀ a', Reach E entry a' → E a' b → a' = a) : a ≠ b := by
  rintro rfl
  have key : ∀ x, Reach E entry x → x ≠ a := by
    intro x hx
    induction hx with
    | entry _ => exact hne.symm
    | step hp hpx _ ih =>
      rintro rfl
      exact ih (hsole _ hp hpx)
  exact key a hb rfl

lemma dom_sole_pred (hb : Reach E entry b) (hne : b ≠ entry)
    (hsole : ∀ a', Reach E entry a' → E a' b → a' = a) : Dom E entry a b := by
  refine dom_of_preds hb hne fun a' ha' hab => ?_
  have := hsole a' ha' hab
  subst this
  exact Dom.refl ha'

lemma Dom.of_subgraph (h : Dom E entry d b) (hE : ∀ a b, E' a b → E a b)
    (hb : Reach E' entry b) : Dom E' entry d b :=
  ⟨hb, fun h' => h.2 (h'.mono hE fun _ => id)⟩

/-! ## Paths as lists -/

/-- `l` is a path of `E` from `a` to `b`, the two ends included. -/
structure IsPath (E : α → α → Prop) (l : List α) (a b : α) : Prop where
  chain : l.IsChain E
  head : l.head? = some a
  last : l.getLast? = some b

lemma IsPath.single : IsPath E [a] a a := ⟨.singleton a, rfl, rfl⟩

lemma IsPath.concat {l : List α} {c : α} (h : IsPath E l a b) (hbc : E b c) : IsPath E (l ++ [c]) a c where
  chain := List.isChain_append.mpr ⟨h.chain, .singleton c, fun x hx y hy => by
    rw [h.last] at hx
    obtain rfl := Option.some.inj hx
    obtain rfl := Option.some.inj hy
    exact hbc⟩
  head := by rw [List.head?_append, h.head]; rfl
  last := List.getLast?_concat

/-- A node is reached over nodes that satisfy a condition along a path of such nodes. -/
lemma reachVia_iff_path : ReachVia E ok entry b ↔ ∃ l, IsPath E l entry b ∧ ∀ x ∈ l, ok x := by
  constructor
  · intro h
    induction h with
    | entry he => exact ⟨[entry], .single, by simpa using he⟩
    | step _ hab hb ih =>
      obtain ⟨l, hl, hok⟩ := ih
      refine ⟨_, hl.concat hab, fun x hx => ?_⟩
      rcases List.mem_append.mp hx with hx | hx
      · exact hok x hx
      · exact List.mem_singleton.mp hx ▸ hb
  · rintro ⟨l, hl, hok⟩
    induction l using List.reverseRecOn generalizing b with
    | nil => exact nomatch hl.head
    | append_singleton l c ih =>
      obtain ⟨hchain, hhead, hlast⟩ := hl
      obtain rfl := Option.some.inj (List.getLast?_concat.symm.trans hlast)
      have hc := hok c (by simp)
      obtain ⟨hl, -, hedge⟩ := List.isChain_append.mp hchain
      cases hp : l.getLast? with
      | none =>
        obtain rfl := List.getLast?_eq_none_iff.mp hp
        obtain rfl := Option.some.inj hhead
        exact .entry hc
      | some p =>
        refine .step (ih ⟨hl, ?_, hp⟩ fun x hx => hok x (List.mem_append_left _ hx)) (hedge p hp c rfl) hc
        cases l with
        | nil => cases hp
        | cons x l => exact hhead

lemma dom_iff_path : Dom E entry d b ↔ Reach E entry b ∧ ∀ l, IsPath E l entry b → d ∈ l := by
  refine and_congr_right fun _ => ?_
  rw [reachVia_iff_path]
  constructor
  · intro h l hl
    by_contra hd
    exact h ⟨l, hl, fun x hx hxd => hd (hxd ▸ hx)⟩
  · rintro h ⟨l, hl, hne⟩
    exact hne d (h l hl) rfl

/-- `d` is the immediate dominator of `b`: it is a strict dominator, and every strict dominator of `b` dominates it. -/
def ImmDom (E : α → α → Prop) (entry d b : α) : Prop :=
  StrictDom E entry d b ∧ ∀ c, StrictDom E entry c b → Dom E entry c d

lemma ImmDom.unique {d' : α} (h : ImmDom E entry d b) (h' : ImmDom E entry d' b) : d = d' :=
  (h'.2 d h.1).antisymm (h.2 d' h'.1)

end

end Badc
