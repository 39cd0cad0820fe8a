import Badc.Ssa.Graph

/-!
# Iterative dominators

`dominators_of` and `intersect` of `src/c5/codegen/ssa/mem2reg.rs`: sweeps over the reverse
postorder that move each block's immediate dominator up to the nearest common ancestor of its
processed predecessors, until a sweep changes nothing.

The main result is `dominatorsOf_spec`: on a closed graph, irreducible or not, the loop ends and
the ancestors of a reachable block in the resulting tree are exactly its dominators.  The
argument is the invariant `SweepInv`.  Its field `front` is what makes the tree shrink
monotonically although a move of one block implicitly changes the ancestors of all blocks below
it: at the time a block is visited, a block above which it sits has it above all its
predecessors of a higher postorder number as well.
-/

namespace Badc

/-- An assignment of immediate dominators; `none` is the sentinel `NO_BLOCK`. -/
abbrev Idoms := ℕ → Option ℕ

/-- `Anc idom a b`: climbing from `b` leads to `a`. -/
inductive Anc (idom : Idoms) (a : ℕ) : ℕ → Prop
  | refl : Anc idom a a
  | up {b p : ℕ} : idom b = some p → Anc idom a p → Anc idom a b

section

variable {idom : Idoms} {a b c : ℕ}

lemma Anc.trans (hab : Anc idom a b) (hbc : Anc idom b c) : Anc idom a c := by
  induction hbc with
  | refl => exact hab
  | up hp _ ih => exact .up hp ih

lemma Anc.of_parent {p : ℕ} (h : Anc idom a b) (hne : a ≠ b) (hp : idom b = some p) :
    Anc idom a p := by
  cases h with
  | refl => exact absurd rfl hne
  | up hp' h' =>
    rw [hp] at hp'
    exact Option.some.inj hp' ▸ h'

lemma Anc.total (ha : Anc idom a c) (hb : Anc idom b c) :
    Anc idom a b ∨ Anc idom b a := by
  induction ha with
  | refl => exact Or.inr hb
  | @up c p hp hap ih =>
    by_cases hbc : b = c
    · exact Or.inl (hbc ▸ .up hp hap)
    · exact ih (hb.of_parent hbc hp)

end

namespace SuccGraph

/-- One step of the two fingers that climb to the nearest common ancestor: the block with the
smaller postorder number climbs. -/
def intersectStep (idom : Idoms) (po : List ℕ) (b : ℕ × ℕ) : Option (ℕ × ℕ) :=
  if b.1 = b.2 then none
  else if po.idxOf b.1 < po.idxOf b.2 then some ((idom b.1).getD b.1, b.2)
  else if po.idxOf b.2 < po.idxOf b.1 then some (b.1, (idom b.2).getD b.2)
  else none

/-- Walk two finger pointers up the partial dominator tree until they meet. -/
def intersect (b₁ b₂ : ℕ) (idom : Idoms) (po : List ℕ) : ℕ :=
  (whileSome (intersectStep idom po) (2 * po.length) (b₁, b₂)).1

/-- The candidate immediate dominator of a block: the processed predecessors intersected. -/
def newIdom (g : SuccGraph) (po : List ℕ) (idom : Idoms) (b : ℕ) : Option ℕ :=
  (g.predsOf b).foldl (fun acc p =>
    match idom p with
    | none => acc
    | some _ =>
      match acc with
      | none => some p
      | some q => some (intersect p q idom po)) none

/-- Visit one block of a sweep; the flag records whether anything changed. -/
def domVisit (g : SuccGraph) (po : List ℕ) (st : Idoms × Bool) (b : ℕ) : Idoms × Bool :=
  if b = 0 then st
  else match g.newIdom po st.1 b with
    | none => st
    | some d => if st.1 b = some d then st else (Function.update st.1 b (some d), true)

/-- One sweep in reverse postorder; `none` when it changed nothing. -/
def domRound (g : SuccGraph) (po : List ℕ) (idom : Idoms) : Option Idoms :=
  let st := po.reverse.foldl (g.domVisit po) (idom, false)
  if st.2 then some st.1 else none

/-- The assignment before the first sweep. -/
def domInit : Idoms := Function.update (fun _ => none) 0 (some 0)

/-- Immediate dominator of every block, `none` for a block the entry does not reach. -/
def dominatorsOf (g : SuccGraph) : Idoms :=
  if g.size = 0 then fun _ => none
  else whileSome (g.domRound g.postorder) (g.size * (g.size + 1) + 1) domInit

/-! ## Ancestors in a partial tree -/

/-- A partial dominator tree over the blocks of a postorder: the entry is its own parent, any
other block's parent is in the tree and has a larger postorder number. -/
structure TreeInv (po : List ℕ) (idom : Idoms) : Prop where
  root : idom 0 = some 0
  mem : ∀ b, (idom b).isSome → b ∈ po
  parent : ∀ b p, idom b = some p → b ≠ 0 → (idom p).isSome ∧ po.idxOf b < po.idxOf p

section Tree

variable {po : List ℕ} {idom : Idoms} {a b c z : ℕ}

namespace TreeInv

lemma eq_zero_of_anc (h : TreeInv po idom) (ha : Anc idom a b) (hb : b = 0) : a = 0 := by
  induction ha with
  | refl => exact hb
  | up hp _ ih =>
    subst hb
    rw [h.root] at hp
    exact ih (Option.some.inj hp).symm

/-- An ancestor of a block of the tree is in the tree. -/
lemma isSome_of_anc (h : TreeInv po idom) (ha : Anc idom a b) (hb : (idom b).isSome) :
    (idom a).isSome := by
  induction ha with
  | refl => exact hb
  | @up b p hp _ ih =>
    by_cases h0 : b = 0
    · subst h0
      rw [h.root] at hp
      obtain rfl := Option.some.inj hp
      exact ih hb
    · exact ih (h.parent b p hp h0).1

/-- Postorder numbers grow towards the root. -/
lemma idxOf_le_of_anc (h : TreeInv po idom) (ha : Anc idom a b) : po.idxOf b ≤ po.idxOf a := by
  induction ha with
  | refl => exact le_rfl
  | @up b p hp _ ih =>
    by_cases h0 : b = 0
    · subst h0
      rw [h.root] at hp
      obtain rfl := Option.some.inj hp
      exact ih
    · exact le_trans (h.parent b p hp h0).2.le ih

lemma idxOf_inj (h : TreeInv po idom) (ha : (idom a).isSome) (hab : po.idxOf a = po.idxOf b) :
    a = b :=
  (List.idxOf_inj (h.mem a ha)).mp hab

lemma idxOf_lt_of_anc (h : TreeInv po idom) (ha : Anc idom a b) (hb : (idom b).isSome)
    (hne : a ≠ b) : po.idxOf b < po.idxOf a := by
  refine lt_of_le_of_ne (h.idxOf_le_of_anc ha) fun heq => hne ?_
  exact (h.idxOf_inj hb heq).symm

lemma zero_anc (h : TreeInv po idom) (hb : (idom b).isSome) : Anc idom 0 b := by
  induction hn : po.length - po.idxOf b using Nat.strong_induction_on generalizing b with
  | _ n ih =>
    by_cases h0 : b = 0
    · exact h0 ▸ .refl
    · obtain ⟨p, hp⟩ := Option.isSome_iff_exists.mp hb
      obtain ⟨hps, hlt⟩ := h.parent b p hp h0
      have := List.idxOf_lt_length_of_mem (h.mem p hps)
      exact .up hp (ih (po.length - po.idxOf p) (by omega) hps rfl)

lemma idxOf_le_zero (h : TreeInv po idom) (hb : (idom b).isSome) : po.idxOf b ≤ po.idxOf 0 :=
  h.idxOf_le_of_anc (h.zero_anc hb)

lemma ne_zero_of_lt (h : TreeInv po idom) (hb : (idom b).isSome)
    (hlt : po.idxOf a < po.idxOf b) : a ≠ 0 := by
  rintro rfl
  have := h.idxOf_le_zero hb
  omega

/-- The two fingers meet at the nearest common ancestor: its ancestors are the common ones. -/
lemma fingers_meet (h : TreeInv po idom) (ha : (idom a).isSome) (hb : (idom b).isSome) :
    ∃ x, whileSome (intersectStep idom po) (2 * po.length) (a, b) = (x, x) ∧ (idom x).isSome ∧
      ∀ z, Anc idom z x ↔ Anc idom z a ∧ Anc idom z b := by
  let I : ℕ × ℕ → Prop := fun c => (idom c.1).isSome ∧ (idom c.2).isSome ∧
    ∀ z, (Anc idom z c.1 ∧ Anc idom z c.2) ↔ (Anc idom z a ∧ Anc idom z b)
  let μ : ℕ × ℕ → ℕ := fun c => (po.length - po.idxOf c.1) + (po.length - po.idxOf c.2)
  -- One finger climbs past a block that the other one's larger number excludes as common.
  have climb : ∀ x y, (idom x).isSome → (idom y).isSome → po.idxOf x < po.idxOf y →
      (idom ((idom x).getD x)).isSome ∧ po.idxOf x < po.idxOf ((idom x).getD x) ∧
        ∀ z, (Anc idom z ((idom x).getD x) ∧ Anc idom z y) ↔ (Anc idom z x ∧ Anc idom z y) := by
    intro x y hx hy hlt
    obtain ⟨p, hp⟩ := Option.isSome_iff_exists.mp hx
    have hx0 := h.ne_zero_of_lt hy hlt
    obtain ⟨hps, hxp⟩ := h.parent x p hp hx0
    rw [hp]
    refine ⟨hps, hxp, fun z => ⟨fun hz => ⟨.up hp hz.1, hz.2⟩, fun hz => ⟨?_, hz.2⟩⟩⟩
    refine hz.1.of_parent (fun hzx => ?_) hp
    have := h.idxOf_le_of_anc hz.2
    rw [hzx] at this
    omega
  have hstep : ∀ c c', I c → intersectStep idom po c = some c' → I c' ∧ μ c' < μ c := by
    rintro ⟨x, y⟩ c' ⟨hx, hy, hz⟩ hc
    simp only [intersectStep] at hc
    split_ifs at hc with h1 h2 h3
    · obtain rfl := Option.some.inj hc
      obtain ⟨hs, hlt, hiff⟩ := climb x y hx hy h2
      refine ⟨⟨hs, hy, fun z => (hiff z).trans (hz z)⟩, ?_⟩
      have : po.idxOf x < po.length := List.idxOf_lt_length_of_mem (h.mem _ hx)
      simp only [μ]
      omega
    · obtain rfl := Option.some.inj hc
      obtain ⟨hs, hlt, hiff⟩ := climb y x hy hx h3
      refine ⟨⟨hx, hs, fun z => ?_⟩, ?_⟩
      · rw [and_comm, hiff z, and_comm]
        exact hz z
      · have : po.idxOf y < po.length := List.idxOf_lt_length_of_mem (h.mem _ hy)
        simp only [μ]
        omega
  have hI0 : I (a, b) := ⟨ha, hb, fun z => Iff.rfl⟩
  have hI := whileSome_invariant I (fun c c' hc hcc => (hstep c c' hc hcc).1) (2 * po.length) hI0
  have hdone : intersectStep idom po (whileSome (intersectStep idom po) (2 * po.length) (a, b)) =
      none := whileSome_done I μ hstep hI0 (by simp only [μ]; omega)
  generalize whileSome (intersectStep idom po) (2 * po.length) (a, b) = c at hI hdone
  obtain ⟨x, y⟩ := c
  obtain ⟨hx, hy, hz⟩ := hI
  have hxy : x = y := by
    simp only [intersectStep] at hdone
    split_ifs at hdone with h1 h2 h3
    · exact h1
    · exact h.idxOf_inj hx (le_antisymm (not_lt.mp h3) (not_lt.mp h2))
  subst hxy
  exact ⟨x, rfl, hx, fun z => by rw [← hz z]; simp⟩

lemma intersect_spec (h : TreeInv po idom) (ha : (idom a).isSome) (hb : (idom b).isSome) :
    (idom (intersect a b idom po)).isSome ∧
      ∀ z, Anc idom z (intersect a b idom po) ↔ Anc idom z a ∧ Anc idom z b := by
  obtain ⟨x, hx, hxs, hz⟩ := h.fingers_meet ha hb
  unfold intersect
  rw [hx]
  exact ⟨hxs, hz⟩

end TreeInv

end Tree

/-! ## One visit -/

variable {g : SuccGraph} {po : List ℕ} {idom : Idoms}

/-- The candidate of a block with a processed predecessor: it is in the tree, and its ancestors
are the common ancestors of the processed predecessors. -/
lemma newIdom_spec (h : TreeInv po idom) {b p₀ : ℕ} (hp₀ : g.Edge p₀ b)
    (hs₀ : (idom p₀).isSome) :
    ∃ d, g.newIdom po idom b = some d ∧ (idom d).isSome ∧
      ∀ z, Anc idom z d ↔ ∀ p, g.Edge p b → (idom p).isSome → Anc idom z p := by
  -- The accumulator after a prefix of the predecessors answers for that prefix.
  let step : Option ℕ → ℕ → Option ℕ := fun acc p =>
    match idom p with
    | none => acc
    | some _ =>
      match acc with
      | none => some p
      | some q => some (intersect p q idom po)
  have key : ∀ (l : List ℕ) (acc : Option ℕ) (q : ℕ), acc = some q → (idom q).isSome →
      ∃ d, l.foldl step acc = some d ∧ (idom d).isSome ∧
        ∀ z, Anc idom z d ↔ Anc idom z q ∧ ∀ p ∈ l, (idom p).isSome → Anc idom z p := by
    intro l
    induction l with
    | nil =>
      intro acc q hq hqs
      exact ⟨q, hq, hqs, fun z => by simp⟩
    | cons p l ih =>
      rintro acc q rfl hqs
      rw [List.foldl_cons]
      cases hp : idom p with
      | none =>
        obtain ⟨d, hd, hds, hz⟩ := ih (some q) q rfl hqs
        refine ⟨d, by simpa [step, hp] using hd, hds, fun z => ?_⟩
        rw [hz z]
        simp [hp]
      | some r =>
        obtain ⟨his, hiz⟩ := h.intersect_spec (a := p) (b := q) (by simp [hp]) hqs
        obtain ⟨d, hd, hds, hz⟩ := ih (some (intersect p q idom po)) _ rfl his
        refine ⟨d, by simpa [step, hp] using hd, hds, fun z => ?_⟩
        rw [hz z, hiz z]
        simp only [List.mem_cons, forall_eq_or_imp, hp, Option.isSome_some, forall_true_left]
        tauto
  have key₀ : ∀ l : List ℕ, p₀ ∈ l →
      ∃ d, l.foldl step none = some d ∧ (idom d).isSome ∧
        ∀ z, Anc idom z d ↔ ∀ p ∈ l, (idom p).isSome → Anc idom z p := by
    intro l
    induction l with
    | nil => simp
    | cons p l ih =>
      intro hmem
      rw [List.foldl_cons]
      cases hp : idom p with
      | none =>
        have hl : p₀ ∈ l := by
          rcases List.mem_cons.mp hmem with rfl | hl
          · simp [hp] at hs₀
          · exact hl
        obtain ⟨d, hd, hds, hz⟩ := ih hl
        refine ⟨d, by simpa [step, hp] using hd, hds, fun z => ?_⟩
        rw [hz z]
        simp [hp]
      | some r =>
        obtain ⟨d, hd, hds, hz⟩ := key l (some p) p rfl (by simp [hp])
        refine ⟨d, by simpa [step, hp] using hd, hds, fun z => ?_⟩
        rw [hz z]
        simp [hp]
  obtain ⟨d, hd, hds, hz⟩ := key₀ (g.predsOf b) (mem_predsOf.mpr hp₀)
  refine ⟨d, hd, hds, fun z => ?_⟩
  rw [hz z]
  simp only [mem_predsOf]

section Update

variable {x d : ℕ}

/-- Moving a block under a block with a larger postorder number leaves a tree. -/
lemma TreeInv.update (h : TreeInv po idom) (hx : x ≠ 0) (hxm : x ∈ po) (hd : (idom d).isSome)
    (hlt : po.idxOf x < po.idxOf d) : TreeInv po (Function.update idom x (some d)) where
  root := by simpa [Function.update_of_ne hx.symm] using h.root
  mem b hb := by
    by_cases hbx : b = x
    · exact hbx ▸ hxm
    · exact h.mem b (by simpa [hbx] using hb)
  parent b p hp hb0 := by
    have hsome : ∀ y, (idom y).isSome → (Function.update idom x (some d) y).isSome := by
      intro y hy
      by_cases hyx : y = x
      · simp [hyx]
      · simpa [hyx] using hy
    by_cases hbx : b = x
    · subst hbx
      simp only [Function.update_self, Option.some.injEq] at hp
      subst hp
      exact ⟨hsome d hd, hlt⟩
    · rw [Function.update_of_ne hbx] at hp
      obtain ⟨hps, hlt'⟩ := h.parent b p hp hb0
      exact ⟨hsome p hps, hlt'⟩

/-- A block that does not sit below the moved one keeps its ancestors. -/
lemma anc_update_of_not {y z : ℕ} (hy : ¬ Anc idom x y) :
    Anc (Function.update idom x (some d)) z y ↔ Anc idom z y := by
  constructor
  · intro hz
    induction hz with
    | refl => exact .refl
    | @up b p hp _ ih =>
      have hbx : b ≠ x := fun hbx => hy (hbx ▸ .refl)
      rw [Function.update_of_ne hbx] at hp
      exact .up hp (ih fun hxp => hy (.up hp hxp))
  · intro hz
    induction hz with
    | refl => exact .refl
    | @up b p hp _ ih =>
      have hbx : b ≠ x := fun hbx => hy (hbx ▸ .refl)
      refine .up (p := p) ?_ (ih fun hxp => hy (.up hp hxp))
      rwa [Function.update_of_ne hbx]

/-- The ancestors of the moved block: itself, and those of its new parent. -/
lemma anc_update_self (hd : ¬ Anc idom x d) {z : ℕ} :
    Anc (Function.update idom x (some d)) z x ↔ z = x ∨ Anc idom z d := by
  constructor
  · intro hz
    by_cases hzx : z = x
    · exact Or.inl hzx
    · have := hz.of_parent hzx (Function.update_self x (some d) idom)
      exact Or.inr ((anc_update_of_not hd).mp this)
  · rintro (rfl | hz)
    · exact .refl
    · exact .up (Function.update_self x (some d) idom) ((anc_update_of_not hd).mpr hz)

/-- The ancestors of a block below the moved one: those up to it, and those of its new
parent. -/
lemma anc_update_of_anc (h : TreeInv po idom) (hx : (idom x).isSome) (hd : ¬ Anc idom x d)
    {y z : ℕ} (hy : Anc idom x y) :
    Anc (Function.update idom x (some d)) z y ↔
      Anc idom z y ∧ Anc idom x z ∨ Anc idom z d := by
  have hself : Anc (Function.update idom x (some d)) z x ↔
      Anc idom z x ∧ Anc idom x z ∨ Anc idom z d := by
    rw [anc_update_self hd]
    constructor
    · rintro (rfl | hz)
      · exact Or.inl ⟨.refl, .refl⟩
      · exact Or.inr hz
    · rintro (⟨h1, h2⟩ | hz)
      · refine Or.inl (h.idxOf_inj hx ?_).symm
        exact le_antisymm (h.idxOf_le_of_anc h1) (h.idxOf_le_of_anc h2)
      · exact Or.inr hz
  induction hy with
  | refl => exact hself
  | @up y p hp hxp ih =>
    by_cases hyx : y = x
    · exact hyx ▸ hself
    constructor
    · intro hz
      by_cases hzy : z = y
      · subst hzy
        exact Or.inl ⟨.refl, .up hp hxp⟩
      · rcases ih.mp (hz.of_parent hzy (by rwa [Function.update_of_ne hyx])) with h' | h'
        · exact Or.inl ⟨.up hp h'.1, h'.2⟩
        · exact Or.inr h'
    · intro hz
      by_cases hzy : z = y
      · exact hzy ▸ .refl
      · refine .up (p := p) (by rwa [Function.update_of_ne hyx]) (ih.mpr ?_)
        exact hz.imp (fun h' => ⟨h'.1.of_parent hzy hp, h'.2⟩) id

end Update

/-! ## The sweep -/

/-- What the sweeps keep, `t` being the number of blocks the current sweep has still to visit.

* `done`, `fwd`: the visited blocks are in the tree, and with a block every reachable block of a
  larger postorder number.
* `nca`: a common ancestor of a block's predecessors is an ancestor of its parent, so a visit
  only moves a block up.
* `front`: what sits above a block's parent sits above each predecessor of a larger postorder
  number, for a block visited in this sweep, and otherwise for the blocks still to be visited.
* `covers`: the tree has every dominator of a block among its ancestors. -/
structure SweepInv (g : SuccGraph) (po : List ℕ) (idom : Idoms) (t : ℕ) : Prop where
  tree : TreeInv po idom
  done : ∀ b ∈ po, t ≤ po.idxOf b → (idom b).isSome
  fwd : ∀ b p, (idom b).isSome → p ∈ po → po.idxOf b < po.idxOf p → (idom p).isSome
  nca : ∀ b d, b ≠ 0 → idom b = some d →
    ∀ z, (∀ p, g.Edge p b → (idom p).isSome → Anc idom z p) → Anc idom z d
  front : ∀ b d p x, b ≠ 0 → idom b = some d → g.Edge p b → p ∈ po →
    po.idxOf b < po.idxOf p → (t ≤ po.idxOf b ∨ po.idxOf x < t) → Anc idom x d → Anc idom x p
  covers : ∀ b z, (idom b).isSome → g.Dom z b → Anc idom z b

/-- What the sweep needs to know about the postorder. -/
structure IsPostorder (g : SuccGraph) (po : List ℕ) : Prop where
  nodup : po.Nodup
  mem_iff : ∀ b, b ∈ po ↔ g.Reach b
  later : ∀ b ∈ po, b ≠ 0 → ∃ p, g.Edge p b ∧ p ∈ po ∧ po.idxOf b < po.idxOf p

namespace SweepInv

variable {t x d : ℕ}

/-- A block above a block has it above a predecessor of a larger postorder number, and so on:
a path from the one to the other stays among the blocks of smaller postorder numbers. -/
lemma reachVia_of_anc (hpo : IsPostorder g po) (h : SweepInv g po idom t) {z : ℕ}
    (hxt : po.idxOf x < t) (hzx : po.idxOf x < po.idxOf z)
    (hx : ReachVia g.Edge (fun y => y ≠ z) 0 x) {y : ℕ} (hy : (idom y).isSome)
    (hxy : Anc idom x y) : ReachVia g.Edge (fun y => y ≠ z) 0 y := by
  induction hn : po.length - po.idxOf y using Nat.strong_induction_on generalizing y with
  | _ n ih =>
    by_cases hyx : x = y
    · exact hyx ▸ hx
    obtain ⟨e, he⟩ := Option.isSome_iff_exists.mp hy
    have hle := h.tree.idxOf_lt_of_anc hxy hy hyx
    have hxs := h.tree.isSome_of_anc hxy hy
    have hy0 : y ≠ 0 := h.tree.ne_zero_of_lt hxs hle
    obtain ⟨p, hpy, hpm, hlt⟩ := hpo.later y (h.tree.mem y hy) hy0
    have hxp : Anc idom x p :=
      h.front y e p x hy0 he hpy hpm hlt (Or.inr hxt) (hxy.of_parent hyx he)
    have hps := h.fwd y p hy hpm hlt
    have := List.idxOf_lt_length_of_mem hpm
    refine .step (ih (po.length - po.idxOf p) (by omega) hps hxp rfl) hpy ?_
    rintro rfl
    omega

lemma candidate (hpo : IsPostorder g po) (h : SweepInv g po idom (t + 1)) (hx : x ∈ po)
    (hx0 : x ≠ 0) (hxt : po.idxOf x = t) :
    ∃ d, g.newIdom po idom x = some d ∧ (idom d).isSome ∧ po.idxOf x < po.idxOf d ∧
      ∀ z, Anc idom z d ↔ ∀ p, g.Edge p x → (idom p).isSome → Anc idom z p := by
  obtain ⟨p₀, hp₀, hpm, hlt⟩ := hpo.later x hx hx0
  have hs₀ := h.done p₀ hpm (by omega)
  obtain ⟨d, hd, hds, hz⟩ := newIdom_spec h.tree hp₀ hs₀
  refine ⟨d, hd, hds, ?_, hz⟩
  exact lt_of_lt_of_le hlt (h.tree.idxOf_le_of_anc ((hz d).mp .refl p₀ hp₀ hs₀))

/-- A visit that changes nothing. -/
lemma keep (h : SweepInv g po idom (t + 1)) (hx : (idom x).isSome) (hxt : po.idxOf x = t)
    (hd : x ≠ 0 → ∀ d, idom x = some d →
      ∀ z, Anc idom z d → ∀ p, g.Edge p x → (idom p).isSome → Anc idom z p) :
    SweepInv g po idom t where
  tree := h.tree
  done b hb ht := by
    rcases Nat.lt_or_ge t (po.idxOf b) with hlt | hge
    · exact h.done b hb hlt
    · have : x = b := h.tree.idxOf_inj hx (by omega)
      exact this ▸ hx
  fwd := h.fwd
  nca := h.nca
  front b d p y hb0 hbd hpb hpm hlt hor hy := by
    by_cases hbx : b = x
    · subst hbx
      exact hd hb0 d hbd y hy p hpb (h.fwd b p hx hpm hlt)
    · refine h.front b d p y hb0 hbd hpb hpm hlt (hor.imp (fun ht => ?_) (fun ht => by omega)) hy
      refine lt_of_le_of_ne ht fun heq => hbx ?_
      exact (h.tree.idxOf_inj hx (by omega)).symm
  covers := h.covers

/-- How the ancestors change when the sweep moves a block: nothing is gained, and what a block
below the moved one loses has a larger postorder number than the moved one and is no ancestor of
the new parent. -/
lemma anc_move (h : SweepInv g po idom (t + 1)) (hx0 : x ≠ 0)
    (hlt : po.idxOf x < po.idxOf d)
    (hd : ∀ z, Anc idom z d ↔ ∀ p, g.Edge p x → (idom p).isSome → Anc idom z p)
    {y : ℕ} (hy : (idom y).isSome) (z : ℕ) :
    (Anc (Function.update idom x (some d)) z y → Anc idom z y) ∧
      (Anc idom z y → ¬ Anc (Function.update idom x (some d)) z y →
        Anc idom x y ∧ (idom x).isSome ∧ ¬ Anc idom z d ∧ po.idxOf x < po.idxOf z) := by
  have hxd : ¬ Anc idom x d := fun hxd => by
    have := h.tree.idxOf_le_of_anc hxd
    omega
  by_cases hxy : Anc idom x y
  · have hxs := h.tree.isSome_of_anc hxy hy
    obtain ⟨o, ho⟩ := Option.isSome_iff_exists.mp hxs
    have hdx : Anc idom d x := .up ho (h.nca x o hx0 ho d ((hd d).mp .refl))
    rw [anc_update_of_anc h.tree hxs hxd hxy]
    constructor
    · rintro (hz | hz)
      · exact hz.1
      · exact (hz.trans hdx).trans hxy
    · intro hz hnot
      rw [not_or, not_and] at hnot
      have hzx : Anc idom z x := (Anc.total hz hxy).resolve_right (hnot.1 hz)
      refine ⟨hxy, hxs, hnot.2, h.tree.idxOf_lt_of_anc hzx hxs ?_⟩
      rintro rfl
      exact hnot.1 hz .refl
  · rw [anc_update_of_not hxy]
    exact ⟨id, fun hz hnot => absurd hz hnot⟩

/-- A visit that moves a block. -/
lemma move (hpo : IsPostorder g po) (h : SweepInv g po idom (t + 1)) (hx : x ∈ po) (hx0 : x ≠ 0)
    (hxt : po.idxOf x = t) (hds : (idom d).isSome) (hlt : po.idxOf x < po.idxOf d)
    (hd : ∀ z, Anc idom z d ↔ ∀ p, g.Edge p x → (idom p).isSome → Anc idom z p) :
    SweepInv g po (Function.update idom x (some d)) t := by
  have hmove := fun {y : ℕ} (hy : (idom y).isSome) => h.anc_move hx0 hlt hd hy
  have hxd : ¬ Anc idom x d := fun hxd => by
    have := h.tree.idxOf_le_of_anc hxd
    omega
  have hsome : ∀ y, (idom y).isSome → (Function.update idom x (some d) y).isSome := by
    intro y hy
    by_cases hyx : y = x
    · simp [hyx]
    · simpa [hyx] using hy
  have hback : ∀ y, y ≠ x → (Function.update idom x (some d) y).isSome → (idom y).isSome := by
    intro y hyx hy
    simpa [hyx] using hy
  -- A block with a larger postorder number than `x` keeps its ancestors.
  have habove : ∀ y z, po.idxOf x < po.idxOf y →
      (Anc (Function.update idom x (some d)) z y ↔ Anc idom z y) := by
    intro y z hy
    refine anc_update_of_not fun hxy => ?_
    have := h.tree.idxOf_le_of_anc hxy
    omega
  refine ⟨h.tree.update hx0 hx hds hlt, ?_, ?_, ?_, ?_, ?_⟩
  · -- done
    intro b hb ht
    by_cases hbx : b = x
    · simp [hbx]
    · refine hsome b (h.done b hb (lt_of_le_of_ne ht fun heq => hbx ?_))
      exact ((List.idxOf_inj hb).mp (by omega))
  · -- fwd
    intro b p hb hpm hbp
    by_cases hbx : b = x
    · subst hbx
      exact hsome p (h.done p hpm (by omega))
    · exact hsome p (h.fwd b p (hback b hbx hb) hpm hbp)
  · -- nca
    intro b e hb0 hbe z hz
    have hz' : ∀ p, g.Edge p b → (idom p).isSome → Anc idom z p := fun p hp hps =>
      (hmove hps z).1 (hz p hp (hsome p hps))
    by_cases hbx : b = x
    · subst hbx
      simp only [Function.update_self, Option.some.injEq] at hbe
      subst hbe
      exact (anc_update_of_not hxd).mpr ((hd z).mpr hz')
    · rw [Function.update_of_ne hbx] at hbe
      have hes := (h.tree.parent b e hbe hb0).1
      by_contra hnot
      obtain ⟨hxe, hxs, hzd, hzt⟩ := (hmove hes z).2 (h.nca b e hb0 hbe z hz') hnot
      have hbs : (idom b).isSome := by simp [hbe]
      obtain ⟨p, hpb, hpm, hbp⟩ := hpo.later b (h.tree.mem b hbs) hb0
      have hps := h.fwd b p hbs hpm hbp
      have hxp : Anc idom x p :=
        h.front b e p x hb0 hbe hpb hpm hbp (Or.inr (by omega)) hxe
      rcases (anc_update_of_anc h.tree hxs hxd hxp).mp (hz p hpb (hsome p hps)) with hzp | hzp
      · have := h.tree.idxOf_le_of_anc hzp.2
        omega
      · exact hzd hzp
  · -- front
    intro b e p y hb0 hbe hpb hpm hbp hor hy
    by_cases hbx : b = x
    · subst hbx
      simp only [Function.update_self, Option.some.injEq] at hbe
      subst hbe
      have hyd := (anc_update_of_not hxd).mp hy
      exact (habove p y hbp).mpr ((hd y).mp hyd p hpb (h.done p hpm (by omega)))
    · rw [Function.update_of_ne hbx] at hbe
      have hbs : (idom b).isSome := by simp [hbe]
      have hps := h.fwd b p hbs hpm hbp
      obtain ⟨hes, hbe'⟩ := h.tree.parent b e hbe hb0
      have hye := (hmove hes y).1 hy
      rcases hor with ht | ht
      · have ht' : t + 1 ≤ po.idxOf b := by
          refine lt_of_le_of_ne ht fun heq => hbx ?_
          exact h.tree.idxOf_inj hbs (by omega)
        refine (habove p y (by omega)).mpr ?_
        exact h.front b e p y hb0 hbe hpb hpm hbp (Or.inl ht') hye
      · have hyp := h.front b e p y hb0 hbe hpb hpm hbp (Or.inr (by omega)) hye
        by_contra hnot
        have := ((hmove hps y).2 hyp hnot).2.2.2
        omega
  · -- covers
    intro b z hb hz
    by_cases hbx : b = x
    · subst hbx
      rw [anc_update_self hxd]
      by_cases hzb : z = b
      · exact Or.inl hzb
      · refine Or.inr ((hd z).mpr fun p hp hps => h.covers p z hps ?_)
        exact hz.of_edge hzb ((hpo.mem_iff p).mp (h.tree.mem p hps)) hp
    · have hbs := hback b hbx hb
      by_contra hnot
      obtain ⟨hxb, hxs, hzd, hzt⟩ := (hmove hbs z).2 (h.covers b z hbs hz) hnot
      -- A predecessor of `x` is reached around `z`, hence `x`, hence everything below `x`.
      rw [hd z] at hzd
      push Not at hzd
      obtain ⟨p, hpx, hps, hzp⟩ := hzd
      have hpr : g.Reach p := (hpo.mem_iff p).mp (h.tree.mem p hps)
      have hpz : ReachVia g.Edge (fun y => y ≠ z) 0 p := by
        by_contra hno
        exact hzp (h.covers p z hps ⟨hpr, hno⟩)
      have hxz : ReachVia g.Edge (fun y => y ≠ z) 0 x := by
        refine .step hpz hpx ?_
        rintro rfl
        omega
      exact hz.2 (h.reachVia_of_anc hpo (by omega) hzt hxz hbs hxb)

end SweepInv

/-- How far the tree is from its highest shape: for each block of the postorder, what its
parent's number misses to the length of the list. -/
def domMeasure (po : List ℕ) (idom : Idoms) : ℕ :=
  (po.map fun b => match idom b with
    | none => po.length + 1
    | some d => po.length - po.idxOf d).sum

/-- Moving one block of a list up lowers the sum over the list. -/
lemma domMeasure_update_lt (hnd : po.Nodup) {x d : ℕ} (hx : x ∈ po) (hd : d ∈ po)
    (hlt : ∀ o, idom x = some o → po.idxOf o < po.idxOf d) :
    domMeasure po (Function.update idom x (some d)) < domMeasure po idom := by
  have hdl := List.idxOf_lt_length_of_mem hd
  have key : ∀ l : List ℕ, l.Nodup → x ∈ l →
      (l.map fun b => match Function.update idom x (some d) b with
        | none => po.length + 1
        | some d => po.length - po.idxOf d).sum <
      (l.map fun b => match idom b with
        | none => po.length + 1
        | some d => po.length - po.idxOf d).sum := by
    intro l
    induction l with
    | nil => simp
    | cons a l ih =>
      intro hl hxl
      rw [List.nodup_cons] at hl
      simp only [List.map_cons, List.sum_cons]
      by_cases hax : a = x
      · subst hax
        have htail : (l.map fun b => match Function.update idom a (some d) b with
            | none => po.length + 1
            | some d => po.length - po.idxOf d) = l.map fun b => match idom b with
            | none => po.length + 1
            | some d => po.length - po.idxOf d := by
          refine List.map_congr_left fun b hb => ?_
          have hba : b ≠ a := by
            rintro rfl
            exact hl.1 hb
          rw [Function.update_of_ne hba]
        rw [htail, Function.update_self]
        cases ho : idom a with
        | none => simp only; omega
        | some o =>
          have := hlt o ho
          simp only
          omega
      · have := ih hl.2 ((List.mem_cons.mp hxl).resolve_left fun h => hax h.symm)
        rw [Function.update_of_ne hax]
        omega
  exact key po hnd hx

/-- One visit of a sweep keeps the invariant; it either changes nothing, and then the block has
its candidate as parent, or sets the flag and lowers the measure. -/
lemma domVisit_spec (hpo : IsPostorder g po) {t x : ℕ} (hx : x ∈ po) (hxt : po.idxOf x = t)
    (h : SweepInv g po idom (t + 1)) (flag : Bool) :
    ∃ idom' flag', g.domVisit po (idom, flag) x = (idom', flag') ∧ SweepInv g po idom' t ∧
      ((idom' = idom ∧ flag' = flag ∧ (x ≠ 0 → g.newIdom po idom x = idom x)) ∨
        (flag' = true ∧ domMeasure po idom' < domMeasure po idom)) := by
  by_cases hx0 : x = 0
  · refine ⟨idom, flag, by simp [domVisit, hx0], ?_, Or.inl ⟨rfl, rfl, fun h0 => absurd hx0 h0⟩⟩
    refine h.keep (x := x) ?_ hxt fun h0 => absurd hx0 h0
    rw [hx0, h.tree.root]
    rfl
  · obtain ⟨d, hd, hds, hlt, hz⟩ := h.candidate hpo hx hx0 hxt
    by_cases hsame : idom x = some d
    · refine ⟨idom, flag, by simp [domVisit, hx0, hd, hsame], ?_,
        Or.inl ⟨rfl, rfl, fun _ => by rw [hd, hsame]⟩⟩
      refine h.keep (x := x) (by simp [hsame]) hxt fun _ d' hd' z hzd => ?_
      rw [hsame] at hd'
      obtain rfl := Option.some.inj hd'
      exact (hz z).mp hzd
    · refine ⟨Function.update idom x (some d), true, by simp [domVisit, hx0, hd, hsame],
        h.move hpo hx hx0 hxt hds hlt hz, Or.inr ⟨rfl, ?_⟩⟩
      refine domMeasure_update_lt hpo.nodup hx (h.tree.mem d hds) fun o ho => ?_
      have hos : (idom o).isSome := (h.tree.parent x o ho hx0).1
      refine h.tree.idxOf_lt_of_anc (h.nca x o hx0 ho d ((hz d).mp .refl)) hos ?_
      rintro rfl
      exact hsame ho

/-- A sweep over the last blocks of the reverse postorder: as for one visit. -/
lemma sweep_spec (hpo : IsPostorder g po) {t : ℕ} (ht : t ≤ po.length) {idom : Idoms}
    (h : SweepInv g po idom t) (flag : Bool) :
    ∃ idom' flag', (po.take t).reverse.foldl (g.domVisit po) (idom, flag) = (idom', flag') ∧
      SweepInv g po idom' 0 ∧
      ((idom' = idom ∧ flag' = flag ∧
          ∀ x ∈ po.take t, x ≠ 0 → g.newIdom po idom x = idom x) ∨
        (flag' = true ∧ domMeasure po idom' < domMeasure po idom)) := by
  induction t generalizing idom flag with
  | zero => exact ⟨idom, flag, by simp, h, Or.inl ⟨rfl, rfl, by simp⟩⟩
  | succ t ih =>
    have htl : t < po.length := ht
    have htake : (po.take (t + 1)).reverse = po[t] :: (po.take t).reverse := by
      rw [List.take_succ_eq_append_getElem htl, List.reverse_append]
      rfl
    have hidx : po.idxOf po[t] = t := hpo.nodup.idxOf_getElem t htl
    obtain ⟨idom₁, flag₁, hv, hinv₁, hcase₁⟩ :=
      domVisit_spec hpo (List.getElem_mem htl) hidx h flag
    obtain ⟨idom₂, flag₂, hs, hinv₂, hcase₂⟩ := ih htl.le hinv₁ flag₁
    refine ⟨idom₂, flag₂, by rw [htake, List.foldl_cons, hv, hs], hinv₂, ?_⟩
    rcases hcase₁ with ⟨rfl, rfl, hsame₁⟩ | ⟨rfl, hlt₁⟩
    · rcases hcase₂ with ⟨rfl, rfl, hsame₂⟩ | hlt₂
      · refine Or.inl ⟨rfl, rfl, fun x hx hx0 => ?_⟩
        rw [List.take_succ_eq_append_getElem htl, List.mem_append, List.mem_singleton] at hx
        rcases hx with hx | rfl
        · exact hsame₂ x hx hx0
        · exact hsame₁ hx0
      · exact Or.inr hlt₂
    · rcases hcase₂ with ⟨rfl, rfl, -⟩ | ⟨rfl, hlt₂⟩
      · exact Or.inr ⟨rfl, hlt₁⟩
      · exact Or.inr ⟨rfl, by omega⟩

lemma SweepInv.restart (h : SweepInv g po idom 0) : SweepInv g po idom po.length where
  tree := h.tree
  done b hb ht := absurd (List.idxOf_lt_length_of_mem hb) (by omega)
  fwd := h.fwd
  nca := h.nca
  front b d p x hb0 hbd hpb hpm hlt _ := h.front b d p x hb0 hbd hpb hpm hlt (Or.inl (by omega))
  covers := h.covers

/-- The assignment before the first sweep satisfies the invariant. -/
lemma sweepInv_init (hpo : IsPostorder g po) : SweepInv g po domInit po.length := by
  have hnone : ∀ b d, b ≠ 0 → domInit b ≠ some d := by
    intro b d hb
    simp [domInit, hb]
  have hsome : ∀ b, (domInit b).isSome → b = 0 := by
    intro b hb
    by_contra h0
    simp [domInit, h0] at hb
  have h0 : 0 ∈ po := (hpo.mem_iff 0).mpr reach_entry
  refine ⟨⟨by simp [domInit], fun b hb => hsome b hb ▸ h0, fun b p hp hb0 =>
    absurd hp (hnone b p hb0)⟩, ?_, ?_, fun b d hb0 hbd => absurd hbd (hnone b d hb0),
    fun b d _ _ hb0 hbd => absurd hbd (hnone b d hb0), ?_⟩
  · intro b hb ht
    have := List.idxOf_lt_length_of_mem hb
    omega
  · -- The entry has the largest postorder number, so nothing lies beyond it.
    have hmax : ∀ n, ∀ b ∈ po, po.length - po.idxOf b = n → po.idxOf b ≤ po.idxOf 0 := by
      intro n
      induction n using Nat.strong_induction_on with
      | _ n ih =>
        intro b hb hn
        by_cases hb0 : b = 0
        · rw [hb0]
        · obtain ⟨p, -, hpm, hlt⟩ := hpo.later b hb hb0
          have := List.idxOf_lt_length_of_mem hpm
          have := ih (po.length - po.idxOf p) (by omega) p hpm rfl
          omega
    intro b p hb hpm hlt
    have := hmax _ p hpm rfl
    rw [hsome b hb] at hlt
    omega
  · intro b z hb hz
    obtain rfl := hsome b hb
    by_cases hz0 : z = 0
    · exact hz0 ▸ .refl
    · exact absurd (.entry (Ne.symm hz0)) hz.2

/-- One sweep: it keeps the invariant and lowers the measure, or no visit changed anything. -/
lemma domRound_spec (hpo : IsPostorder g po) (h : SweepInv g po idom po.length) :
    (∀ idom', g.domRound po idom = some idom' →
      SweepInv g po idom' po.length ∧ domMeasure po idom' < domMeasure po idom) ∧
    (g.domRound po idom = none → SweepInv g po idom 0 ∧
      ∀ x ∈ po, x ≠ 0 → g.newIdom po idom x = idom x) := by
  obtain ⟨idom', flag', hs, hinv, hcase⟩ := sweep_spec hpo le_rfl h false
  rw [List.take_length] at hs hcase
  simp only [domRound, hs]
  rcases hcase with ⟨rfl, rfl, hsame⟩ | ⟨rfl, hlt⟩
  · exact ⟨fun _ h' => by simp at h', fun _ => ⟨hinv, hsame⟩⟩
  · refine ⟨fun idom₁ h₁ => ?_, fun h' => by simp at h'⟩
    simp only [if_true, Option.some.injEq] at h₁
    subst h₁
    exact ⟨hinv.restart, hlt⟩

/-- The whole loop: it ends by its own test, with an assignment that satisfies the invariant and that no visit
would change. -/
lemma dominatorsOf_fixed (hg : g.Closed) (h0 : 0 < g.size) :
    IsPostorder g g.postorder ∧ g.domRound g.postorder g.dominatorsOf = none ∧
      SweepInv g g.postorder g.dominatorsOf 0 ∧
      ∀ x ∈ g.postorder, x ≠ 0 →
        g.newIdom g.postorder g.dominatorsOf x = g.dominatorsOf x := by
  obtain ⟨hnd, hmem, hlater⟩ := postorder_spec hg h0
  have hpo : IsPostorder g g.postorder := ⟨hnd, hmem, hlater⟩
  generalize hP : g.postorder = po at hpo
  have hfuel : domMeasure po domInit ≤ g.size * (g.size + 1) + 1 := by
    have hlen : po.length ≤ g.size := by
      have hsub : po ⊆ List.range g.size := fun b hb =>
        List.mem_range.mpr (Reach.lt_size hg h0 ((hpo.mem_iff b).mp hb))
      have := (List.subperm_of_subset hpo.nodup hsub).length_le
      simpa using this
    have hle : domMeasure po domInit ≤ po.length * (po.length + 1) := by
      have := List.sum_le_card_nsmul (po.map fun b => match domInit b with
        | none => po.length + 1
        | some d => po.length - po.idxOf d) (po.length + 1) ?_
      · simpa [domMeasure] using this
      · intro n hn
        obtain ⟨b, -, rfl⟩ := List.mem_map.mp hn
        cases domInit b with
        | none => exact le_rfl
        | some d => exact le_trans (Nat.sub_le _ _) (Nat.le_succ _)
    have := Nat.mul_le_mul hlen (Nat.add_le_add_right hlen 1)
    omega
  have hdom : g.dominatorsOf = whileSome (g.domRound po) (g.size * (g.size + 1) + 1) domInit := by
    simp [dominatorsOf, Nat.pos_iff_ne_zero.mp h0, hP]
  have hinv := whileSome_invariant (fun idom => SweepInv g po idom po.length)
    (fun idom idom' h hs => ((domRound_spec hpo h).1 idom' hs).1) (g.size * (g.size + 1) + 1)
    (sweepInv_init hpo)
  have hdone := whileSome_done (fun idom => SweepInv g po idom po.length) (domMeasure po)
    (fun idom idom' h hs => (domRound_spec hpo h).1 idom' hs) (sweepInv_init hpo) hfuel
  rw [← hdom] at hinv hdone
  exact ⟨hpo, hdone, (domRound_spec hpo hinv).2 hdone⟩

/-- Dominators are exact: the assignment covers exactly the reachable blocks, climbs strictly
in the postorder, and a block's ancestors are its dominators. -/
theorem dominatorsOf_spec (hg : g.Closed) (h0 : 0 < g.size) :
    TreeInv g.postorder g.dominatorsOf ∧
      (∀ b, (g.dominatorsOf b).isSome ↔ g.Reach b) ∧
      ∀ a b, g.Reach b → (Anc g.dominatorsOf a b ↔ g.Dom a b) := by
  obtain ⟨hpo, -, hinv, hfix⟩ := dominatorsOf_fixed hg h0
  generalize g.dominatorsOf = idom at hinv hfix
  generalize g.postorder = po at hpo hinv hfix
  have hreach : ∀ b, (idom b).isSome ↔ g.Reach b := fun b =>
    ⟨fun hb => (hpo.mem_iff b).mp (hinv.tree.mem b hb), fun hb =>
      hinv.done b ((hpo.mem_iff b).mpr hb) (Nat.zero_le _)⟩
  refine ⟨hinv.tree, hreach, fun a b hb => ⟨fun hab => ⟨hb, fun hav => ?_⟩,
    hinv.covers b a ((hreach b).mpr hb)⟩⟩
  -- Along a path that avoids `a`, no block has `a` above it.
  clear hb
  induction hav with
  | entry hne => exact hne (hinv.tree.eq_zero_of_anc hab rfl).symm
  | @step p b hp hpb hne ih =>
    have hpr := hp.reach
    have hbs := (hreach b).mpr (hpr.step hpb)
    have hb0 : b ≠ 0 := by
      rintro rfl
      exact hne (hinv.tree.eq_zero_of_anc hab rfl).symm
    obtain ⟨d, hd⟩ := Option.isSome_iff_exists.mp hbs
    obtain ⟨d', hd', -, hz⟩ := newIdom_spec hinv.tree hpb ((hreach p).mpr hpr)
    rw [hfix b (hinv.tree.mem b hbs) hb0, hd] at hd'
    obtain rfl := Option.some.inj hd'
    exact ih ((hz a).mp (hab.of_parent (Ne.symm hne) hd) p hpb ((hreach p).mpr hpr))

end SuccGraph

end Badc
