import Badc.Ssa.DomOrder

/-!
# Dominators are exact

What the loop of `dominators_of` and the query of `DomOrder` answer, on every closed graph.  The loop stops by its own
test, and so does every walk of the two fingers inside it (`dominators_exact`); the parent of a reachable block other
than the entry is its one immediate dominator; and the query is dominance over paths.  A block the entry does not reach
lies on no path, so that every block dominates it by the letter; the query gives it no dominator but itself.
-/

namespace Badc

namespace SuccGraph

variable {g : SuccGraph} {po : List ℕ} {idom : Idoms} {rest : List ℕ} {a b : ℕ}

/-- The assignments that the visits of the loop start from, with the blocks left to the sweep. -/
inductive DomState (g : SuccGraph) : Idoms → List ℕ → Prop
  | sweep {k : ℕ} {idom : Idoms} : Rounds (g.domRound g.postorder) k domInit idom →
      DomState g idom g.postorder.reverse
  | visit {idom : Idoms} {b : ℕ} {rest : List ℕ} (flag : Bool) : DomState g idom (b :: rest) →
      DomState g (g.domVisit g.postorder (idom, flag) b).1 rest

/-- Every visit starts from the invariant of the sweep. -/
lemma DomState.inv (hg : g.Closed) (h0 : 0 < g.size) (h : DomState g idom rest) :
    ∃ t ≤ g.postorder.length, rest = (g.postorder.take t).reverse ∧ SweepInv g g.postorder idom t := by
  have hpo := (dominatorsOf_fixed hg h0).1
  induction h with
  | @sweep k idom h =>
    refine ⟨_, le_rfl, by rw [List.take_length], ?_⟩
    suffices ∀ {k s s'}, Rounds (g.domRound g.postorder) k s s' → SweepInv g g.postorder s g.postorder.length →
        SweepInv g g.postorder s' g.postorder.length from this h (sweepInv_init hpo)
    intro k s s' hr hs
    induction hr with
    | refl => exact hs
    | head hstep _ ih => exact ih ((domRound_spec hpo hs).1 _ hstep).1
  | @visit idom b rest flag _ ih =>
    obtain ⟨t, ht, heq, hinv⟩ := ih
    cases t with
    | zero => cases heq
    | succ t =>
      rw [List.take_succ_eq_append_getElem ht, List.reverse_append] at heq
      obtain ⟨rfl, rfl⟩ := List.cons.inj heq
      obtain ⟨idom', flag', hv, hinv', -⟩ :=
        domVisit_spec hpo (List.getElem_mem ht) (hpo.nodup.idxOf_getElem t ht) hinv flag
      exact ⟨t, Nat.le_of_succ_le ht, rfl, by rw [hv]; exact hinv'⟩

end SuccGraph

namespace SuccGraph

variable {g : SuccGraph}

lemma immDom_dominatorsOf (hg : g.Closed) (h0 : 0 < g.size) {b : ℕ} (hb : g.Reach b) (hb0 : b ≠ 0) :
    ∃ d, g.dominatorsOf b = some d ∧ ImmDom g.Edge 0 d b := by
  obtain ⟨htree, hreach, hdom⟩ := dominatorsOf_spec hg h0
  obtain ⟨d, hd⟩ := Option.isSome_iff_exists.mp ((hreach b).mpr hb)
  obtain ⟨hds, hlt⟩ := htree.parent b d hd hb0
  refine ⟨d, hd, ⟨(hdom d b hb).mp (.up hd .refl), fun heq => ?_⟩, fun c hc => ?_⟩
  · rw [heq] at hlt
    exact lt_irrefl _ hlt
  · exact (hdom c d ((hreach d).mp hds)).mp (((hdom c b hb).mpr hc.1).of_parent hc.2 hd)

/-- **Dominators are exact.**  On a closed graph with an entry block the loop stops by its own test, and so does every
walk of its two fingers; the parent of a reachable block other than the entry is its one immediate dominator; the query
answers dominance over paths for a reachable block, and equality for a block the entry does not reach. -/
theorem dominators_exact (hg : g.Closed) (h0 : 0 < g.size) :
    g.domRound g.postorder g.dominatorsOf = none ∧
    (∀ idom rest a b, DomState g idom rest → (idom a).isSome → (idom b).isSome →
      ∃ x, whileSome (intersectStep idom g.postorder) (2 * g.postorder.length) (a, b) = (x, x)) ∧
    (∀ b, g.Reach b → b ≠ 0 → ∃ d, g.dominatorsOf b = some d ∧ ∀ d', ImmDom g.Edge 0 d' b ↔ d' = d) ∧
    (∀ a b, g.Reach b → ((DomOrder.build g.dominatorsOf g.size).dominates a b g.dominatorsOf = true ↔
      ∀ l, IsPath g.Edge l 0 b → a ∈ l)) ∧
    ∀ a b, ¬ g.Reach b → ((DomOrder.build g.dominatorsOf g.size).dominates a b g.dominatorsOf = true ↔ a = b) := by
  obtain ⟨htree, hreach, hdom⟩ := dominatorsOf_spec hg h0
  refine ⟨(dominatorsOf_fixed hg h0).2.1, fun idom rest a b hs ha hb => ?_, fun b hb hb0 => ?_, fun a b hb => ?_, fun a b hb => ?_⟩
  · obtain ⟨t, -, -, hinv⟩ := hs.inv hg h0
    obtain ⟨x, hx, -⟩ := hinv.tree.fingers_meet ha hb
    exact ⟨x, hx⟩
  · obtain ⟨d, hd, himm⟩ := immDom_dominatorsOf hg h0 hb hb0
    exact ⟨d, hd, fun d' => ⟨fun h => h.unique himm, fun h => h ▸ himm⟩⟩
  · rw [dominates_iff_dom hg h0 hb]
    exact dom_iff_path.trans (and_iff_right hb)
  · refine DomOrder.dominates_of_none htree (fun c hc => ((hreach c).mp hc).lt_size hg h0) ?_
    exact Option.not_isSome_iff_eq_none.mp fun h => hb ((hreach b).mp h)

/-- A loop of two blocks with two entrances and a doubled edge, beside a block that nothing leads to. -/
def twoEntrances : SuccGraph := ⟨[[1, 2], [2, 2], [1], []]⟩

lemma twoEntrances_closed : twoEntrances.Closed := closed_of_rows (by decide)

/-- The loop stops on it. -/
theorem dominators_exact_twoEntrances :
    twoEntrances.Closed ∧ 0 < twoEntrances.size ∧
      twoEntrances.domRound twoEntrances.postorder twoEntrances.dominatorsOf = none :=
  ⟨twoEntrances_closed, by decide, (dominators_exact twoEntrances_closed (by decide)).1⟩

/-- No path leads from the entry to its last block, so the entry lies on every one; the query denies that the entry
dominates the block. -/
theorem not_dominates_unreached :
    ¬ ((DomOrder.build twoEntrances.dominatorsOf twoEntrances.size).dominates 0 3 twoEntrances.dominatorsOf = true ↔
      ∀ l, IsPath twoEntrances.Edge l 0 3 → 0 ∈ l) := by
  intro h
  have hall : ∀ l, IsPath twoEntrances.Edge l 0 3 → 0 ∈ l := fun l hl => List.mem_of_mem_head? hl.head
  exact absurd (h.mpr hall) (by decide +kernel)

end SuccGraph

end Badc
