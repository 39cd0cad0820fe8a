import Badc.Lib.TreeStamps

/-!
# A depth-first walk with scoped knowledge

An explicit-stack walk over a forest whose environment gains knowledge at each node and gives it
back when the node's tree is left: entering a node pushes a note to come back by, then the node's
children.

`Rule.visit` is the rule for it.  `Pre b s` is what the walk may rely on when it enters `b`, `Out s`
what its results satisfy; `Ext D s s'` says that `s'` came from `s` by visiting the nodes of `D`,
and `Back D s s'` that all of it was given back, so that `Pre` of a node not below `D` survives.
-/

namespace Badc

open TreeStamps (Desc Forest)

/-- A walk over a forest with environments `σ`, and notes `τ` to come back by. -/
structure ScopedWalk (σ τ : Type*) where
  children : ℕ → List ℕ
  enter : ℕ → σ → σ
  mark : σ → τ
  leave : τ → σ → σ

namespace ScopedWalk

/-- What is left to do: enter a node, or come back from one. -/
inductive Todo (τ : Type*)
  | enter (b : ℕ)
  | leave (note : τ)

/-- The state of a walk. -/
structure Progress (σ τ : Type*) where
  stack : List (Todo τ)
  env : σ

variable {σ τ : Type*} (w : ScopedWalk σ τ)

/-- One round of the walk; the last child is entered first. -/
def round (s : Progress σ τ) : Option (Progress σ τ) :=
  match s.stack with
  | [] => none
  | .leave note :: rest => some ⟨rest, w.leave note s.env⟩
  | .enter b :: rest =>
    some ⟨(w.children b).reverse.map .enter ++ .leave (w.mark s.env) :: rest, w.enter b s.env⟩

/-- What a walk is told of its environments. -/
structure Rule (Pre : ℕ → σ → Prop) (Out : σ → Prop) (Ext Back : (ℕ → Prop) → σ → σ → Prop) :
    Prop where
  enter : ∀ {b s}, Pre b s → Out s →
    Out (w.enter b s) ∧ Ext (fun d => d = b) s (w.enter b s) ∧
      ∀ c ∈ w.children b, Pre c (w.enter b s)
  grow : ∀ {D D' s s₁ s₂}, Ext D s s₁ → Back D' s₁ s₂ → Ext (fun d => D d ∨ D' d) s s₂
  weaken : ∀ {D D' s s'}, Ext D s s' → (∀ d, D d → D' d) → Ext D' s s'
  leave : ∀ {D s s'}, Ext D s s' → Out s' →
    Back D s (w.leave (w.mark s) s') ∧ Out (w.leave (w.mark s) s')
  keep : ∀ {D c s s'}, Back D s s' → (∀ d, D d → ¬ Desc w.children d c) → Pre c s → Pre c s'

open Classical in
/-- The nodes below `n` of the trees of a list. -/
noncomputable def below (n : ℕ) (l : List ℕ) : Finset ℕ :=
  (Finset.range n).filter fun d => ∃ c ∈ l, Desc w.children c d

variable {w} {Pre : ℕ → σ → Prop} {Out : σ → Prop} {Ext Back : (ℕ → Prop) → σ → σ → Prop}
  {rank : ℕ → ℕ} {n : ℕ}

/-- A walk over one tree, as `Rule.visit` states it. -/
def Visits (w : ScopedWalk σ τ) (Pre : ℕ → σ → Prop) (Out : σ → Prop)
    (Back : (ℕ → Prop) → σ → σ → Prop) (n b : ℕ) : Prop :=
  ∀ s rest, Pre b s → Out s → ∃ k s', Rounds w.round k ⟨.enter b :: rest, s⟩ ⟨rest, s'⟩ ∧
    k ≤ 2 * (w.below n [b]).card ∧ Out s' ∧ Back (Desc w.children b) s s'

/-- A walk over trees none of which is below another. -/
lemma Rule.visitList (h : w.Rule Pre Out Ext Back) {l : List ℕ}
    (hone : ∀ c ∈ l, Visits w Pre Out Back n c) (hnd : l.Nodup)
    (hdisj : ∀ c ∈ l, ∀ c' ∈ l, c ≠ c' → ∀ d, Desc w.children c d → ¬ Desc w.children c' d)
    {s₀ s : σ} {D : ℕ → Prop} (hext : Ext D s₀ s) (hpre : ∀ c ∈ l, Pre c s) (hout : Out s)
    (rest : List (Todo τ)) :
    ∃ k s', Rounds w.round k ⟨l.map .enter ++ rest, s⟩ ⟨rest, s'⟩ ∧
      k ≤ 2 * (w.below n l).card ∧ Out s' ∧
      Ext (fun d => D d ∨ ∃ c ∈ l, Desc w.children c d) s₀ s' := by
  induction l generalizing s D with
  | nil => exact ⟨0, s, .refl _, by omega, hout, h.weaken hext fun d hd => Or.inl hd⟩
  | cons c l ih =>
    obtain ⟨hc, hnd⟩ := List.nodup_cons.mp hnd
    have hne : ∀ c' ∈ l, c ≠ c' := fun c' hc' heq => hc (heq ▸ hc')
    obtain ⟨k₁, s₁, hr₁, hk₁, hout₁, hback⟩ := hone c (.head _) s (l.map .enter ++ rest)
      (hpre c (.head _)) hout
    have hpre₁ : ∀ c' ∈ l, Pre c' s₁ := by
      intro c' hc'
      refine h.keep hback (fun d hd hdc' => ?_) (hpre c' (.tail _ hc'))
      exact hdisj c (.head _) c' (.tail _ hc') (hne c' hc') c'
        (hd.trans hdc') .refl
    obtain ⟨k₂, s₂, hr₂, hk₂, hout₂, hext₂⟩ := ih
      (fun c' hc' => hone c' (.tail _ hc')) hnd
      (fun a ha b hb => hdisj a (.tail _ ha) b (.tail _ hb))
      (h.grow hext hback) hpre₁ hout₁
    refine ⟨k₁ + k₂, s₂, hr₁.trans hr₂, ?_, hout₂, h.weaken hext₂ ?_⟩
    · -- The tree of `c` is disjoint from the others.
      have hcard : (w.below n [c]).card + (w.below n l).card ≤ (w.below n (c :: l)).card := by
        rw [← Finset.card_union_of_disjoint]
        · refine Finset.card_le_card fun d hd => ?_
          simp only [below, Finset.mem_union, Finset.mem_filter] at hd ⊢
          rcases hd with ⟨hlt, c', hc', hd⟩ | ⟨hlt, c', hc', hd⟩
          · exact ⟨hlt, c, (.head _), List.mem_singleton.mp hc' ▸ hd⟩
          · exact ⟨hlt, c', List.mem_cons_of_mem _ hc', hd⟩
        · rw [Finset.disjoint_left]
          intro d hd hd'
          simp only [below, Finset.mem_filter, List.mem_singleton, exists_eq_left] at hd hd'
          obtain ⟨c', hc', hcd⟩ := hd'.2
          exact hdisj c (.head _) c' (.tail _ hc') (hne c' hc') d hd.2 hcd
      omega
    · rintro d ((hd | hd) | ⟨c', hc', hd⟩)
      · exact Or.inl hd
      · exact Or.inr ⟨c, (.head _), hd⟩
      · exact Or.inr ⟨c', List.mem_cons_of_mem _ hc', hd⟩

/-- A walk over a tree of a forest comes back with its results right and its knowledge given
back, in two rounds a node. -/
theorem Rule.visit (h : w.Rule Pre Out Ext Back) (hforest : Forest w.children rank)
    (hchild : ∀ b c, c ∈ w.children b → c < n) (b : ℕ) (hlt : b < n) :
    Visits w Pre Out Back n b := by
  induction hr : rank b using Nat.strong_induction_on generalizing b with
  | _ r ih =>
    intro s rest hpre hout
    obtain ⟨hout₁, hext, hpre₁⟩ := h.enter hpre hout
    have hdisj : ∀ c ∈ (w.children b).reverse, ∀ c' ∈ (w.children b).reverse, c ≠ c' →
        ∀ d, Desc w.children c d → ¬ Desc w.children c' d := fun c hc c' hc' hne d hd =>
      hforest.child_disjoint (List.mem_reverse.mp hc) (List.mem_reverse.mp hc') hne hd
    have hone : ∀ c ∈ (w.children b).reverse, Visits w Pre Out Back n c := by
      intro c hc
      have hc := List.mem_reverse.mp hc
      exact ih (rank c) (hr ▸ hforest.rank_lt b c hc) c (hchild b c hc) rfl
    obtain ⟨k, s', hrounds, hk, hout', hext'⟩ := h.visitList hone
      (List.nodup_reverse.mpr (hforest.nodup b)) hdisj hext
      (fun c hc => hpre₁ c (List.mem_reverse.mp hc)) hout₁ (.leave (w.mark s) :: rest)
    have hdesc : Ext (Desc w.children b) s s' := by
      refine h.weaken hext' ?_
      rintro d (rfl | ⟨c, hc, hd⟩)
      · exact .refl
      · exact (Desc.down .refl (List.mem_reverse.mp hc)).trans hd
    obtain ⟨hback, hout''⟩ := h.leave hdesc hout'
    have henter : w.round ⟨.enter b :: rest, s⟩ = some ⟨(w.children b).reverse.map .enter ++
        .leave (w.mark s) :: rest, w.enter b s⟩ := rfl
    have hleave : w.round ⟨.leave (w.mark s) :: rest, s'⟩ =
        some ⟨rest, w.leave (w.mark s) s'⟩ := rfl
    refine ⟨1 + (k + 1), _, (Rounds.one henter).trans (hrounds.trans (Rounds.one hleave)), ?_,
      hout'', hback⟩
    have hcard : (w.below n (w.children b).reverse).card + 1 ≤ (w.below n [b]).card := by
      rw [← Finset.card_insert_of_notMem (a := b)]
      · refine Finset.card_le_card fun d hd => ?_
        simp only [below, Finset.mem_insert, Finset.mem_filter, Finset.mem_range, List.mem_reverse,
          List.mem_singleton, exists_eq_left] at hd ⊢
        rcases hd with rfl | ⟨hd, c, hc, hcd⟩
        · exact ⟨hlt, .refl⟩
        · exact ⟨hd, (Desc.down .refl hc).trans hcd⟩
      · simp only [below, Finset.mem_filter, List.mem_reverse, not_and, not_exists]
        exact fun _ c hc hcb => hforest.not_desc_of_child hc .refl hcb
    omega

/-- With fuel for two rounds a node, a walk from one node comes to its end. -/
theorem Rule.run (h : w.Rule Pre Out Ext Back) (hforest : Forest w.children rank)
    (hchild : ∀ b c, c ∈ w.children b → c < n) {b : ℕ} (hlt : b < n) {s : σ} (hpre : Pre b s)
    (hout : Out s) {fuel : ℕ} (hfuel : 2 * n ≤ fuel) :
    (whileSome w.round fuel ⟨[.enter b], s⟩).stack = [] ∧
      Out (whileSome w.round fuel ⟨[.enter b], s⟩).env := by
  obtain ⟨k, s', hrounds, hk, hout', -⟩ := h.visit hforest hchild b hlt s [] hpre hout
  have hcard : (w.below n [b]).card ≤ n := by
    classical
    exact (Finset.card_filter_le _ _).trans (Finset.card_range n).le
  rw [hrounds.whileSome_eq rfl (by omega)]
  exact ⟨rfl, hout'⟩

end ScopedWalk

end Badc
