import Badc.Lib.Frontier
import Badc.Lib.Mark
import Badc.Ssa.DomExact
import Badc.Ssa.SlotLiveness

/-!
# Where promoted slots need phis

`dominance_frontiers` and `phi_placement` of `src/c5/codegen/ssa/mem2reg.rs`.  The frontier of a block is read off the
walks that insert into it, join by join; a set is the list of its members in the order they are met.

`dominanceFrontiers_exact` says what the walks compute: the frontiers of the graph, but for the entry, which has an
edge from outside that the walks do not see.  `phiPlacement_exact` says that the phis of a slot are those of the
iterated frontier at which the slot is live, and that they are enough: at any other block where the slot is live one
definition arrives, whatever path leads there, and it dominates the block.
-/

namespace Badc

/-- The blocks from `r` up to the one ahead of `stop`. -/
def runners (idom : Idoms) (stop : Option ℕ) : ℕ → ℕ → List ℕ
  | 0, _ => []
  | fuel + 1, r => if some r = stop then [] else r :: ((idom r).map (runners idom stop fuel)).getD []

/-- The blocks whose frontiers a block is entered in. -/
def joinRunners (g : SuccGraph) (idom : Idoms) (b : ℕ) : List ℕ :=
  if (g.predsOf b).length < 2 ∨ idom b = none then []
  else (g.predsOf b).flatMap fun p =>
    if idom p = none then [] else runners idom (idom b) g.size p

/-- Dominance frontier of a block, ascending. -/
def dominanceFrontiers (g : SuccGraph) (idom : Idoms) (a : ℕ) : List ℕ :=
  (List.range g.size).filter fun b => a ∈ joinRunners g idom b

/-- The phis of one slot: worklist closure of its definitions under the frontiers where it is live. -/
def placePhis (f : FunctionSsa) (df : ℕ → List ℕ) (live : ℕ → Bool) (defs : List ℕ) : List ℕ :=
  ((⟨[], defs.reverse⟩ : Mark ℕ).run (fun b => (df b).filter live) (defs.length + f.blocks.length)).seen

/-- Blocks where each promotable slot needs a phi. -/
def phiPlacement (f : FunctionSsa) (promotable : List ℤ) (df : ℕ → List ℕ) (live : ℕ → ℤ → Bool) :
    List (ℤ × List ℕ) :=
  promotable.filterMap fun slot =>
    let phis := placePhis f df (fun b => live b slot) (defBlocks f slot)
    if phis = [] then none else some (slot, phis)

/-- A placement has a phi of the slot in the block. -/
def HasPhi (placement : List (ℤ × List ℕ)) (slot : ℤ) (b : ℕ) : Prop :=
  ∃ l, (slot, l) ∈ placement ∧ b ∈ l

/-! ## Frontiers -/

section

variable {g : SuccGraph} {po : List ℕ} {idom : Idoms} {a b stop fuel : ℕ}

/-- A walk visits the blocks over its start that are not over the block it stops at. -/
lemma mem_runners (h : SuccGraph.TreeInv po idom) (hb : (idom b).isSome) (hstop : Anc idom stop b)
    (hfuel : po.idxOf stop - po.idxOf b < fuel) :
    a ∈ runners idom (some stop) fuel b ↔ Anc idom a b ∧ ¬ Anc idom a stop := by
  induction fuel generalizing b with
  | zero => omega
  | succ fuel ih =>
    unfold runners
    by_cases hbs : b = stop
    · simp [hbs]
    · rw [if_neg (by simpa using hbs), List.mem_cons]
      have hlt := h.idxOf_lt_of_anc hstop hb (Ne.symm hbs)
      obtain ⟨p, hp⟩ := Option.isSome_iff_exists.mp hb
      have hb0 : b ≠ 0 := fun h0 => hbs (h0.trans (h.eq_zero_of_anc hstop h0).symm)
      obtain ⟨hps, hbp⟩ := h.parent b p hp hb0
      have hup := hstop.of_parent (Ne.symm hbs) hp
      have := h.idxOf_le_of_anc hup
      rw [hp, Option.map_some, Option.getD_some, ih hps hup (by omega)]
      constructor
      · rintro (rfl | ⟨hap, hno⟩)
        · refine ⟨.refl, fun has => ?_⟩
          have := h.idxOf_le_of_anc has
          omega
        · exact ⟨.up hp hap, hno⟩
      · rintro ⟨hab, hno⟩
        by_cases hne : a = b
        · exact .inl hne
        · exact .inr ⟨hab.of_parent hne hp, hno⟩

/-- A block over the parent of another one dominates that strictly, but for the entry, its own parent. -/
lemma anc_parent_iff (hg : g.Closed) (h0 : 0 < g.size) {d : ℕ} (hd : g.dominatorsOf b = some d) :
    Anc g.dominatorsOf a d ↔ StrictDom g.Edge 0 a b ∨ b = 0 ∧ a = 0 := by
  obtain ⟨htree, hreach, hdom⟩ := SuccGraph.dominatorsOf_spec hg h0
  have hb := (hreach b).mp (Option.isSome_iff_exists.mpr ⟨d, hd⟩)
  by_cases hb0 : b = 0
  · subst hb0
    obtain rfl := Option.some.inj (htree.root.symm.trans hd)
    rw [hdom a 0 hb]
    constructor
    · exact fun h => .inr ⟨rfl, h.antisymm (dom_entry h.reach_left)⟩
    · rintro (h | ⟨-, rfl⟩)
      · exact h.1
      · exact .refl hb
  · simp only [hb0, false_and, or_false]
    obtain ⟨hds, hlt⟩ := htree.parent b d hd hb0
    refine ⟨fun h => ⟨(hdom a b hb).mp (.up hd h), ?_⟩, fun h => ((hdom a b hb).mpr h.1).of_parent h.2 hd⟩
    rintro rfl
    have := htree.idxOf_le_of_anc h
    omega

/-- A block in a frontier has two edges into it. -/
lemma two_le_preds (hb : g.Reach b) (hb0 : b ≠ 0) (h : InFrontier g.Edge 0 a b) : 2 ≤ (g.predsOf b).length := by
  obtain ⟨p, hpb, hap, hno⟩ := h
  by_contra hlen
  have hsole : ∀ p', g.Reach p' → g.Edge p' b → p' = p := by
    intro p' _ hp'
    have hp := SuccGraph.mem_predsOf.mpr hpb
    have hp' := SuccGraph.mem_predsOf.mpr hp'
    obtain ⟨q, hq⟩ := List.length_eq_one_iff.mp (le_antisymm (by omega) (List.length_pos_of_mem hp))
    rw [hq, List.mem_singleton] at hp hp'
    exact hp'.trans hp.symm
  have hdom := dom_sole_pred hb hb0 hsole
  refine hno ⟨hap.trans hdom, fun hab => ne_of_sole_pred hb hb0 hsole ?_⟩
  exact hdom.antisymm (hab ▸ hap)

/-- The frontiers the walks compute. -/
lemma mem_dominanceFrontiers (hg : g.Closed) (h0 : 0 < g.size) :
    b ∈ dominanceFrontiers g g.dominatorsOf a ↔
      InFrontier g.Edge 0 a b ∧ (b = 0 → a ≠ 0 ∧ 2 ≤ (g.predsOf 0).length) := by
  obtain ⟨htree, hreach, hdom⟩ := SuccGraph.dominatorsOf_spec hg h0
  have hwalk : ∀ {d p}, g.dominatorsOf b = some d → g.Edge p b → g.Reach p →
      (a ∈ runners g.dominatorsOf (some d) g.size p ↔
        g.Dom a p ∧ ¬ (StrictDom g.Edge 0 a b ∨ b = 0 ∧ a = 0)) := by
    intro d p hd hpb hp
    have hstop : Anc g.dominatorsOf d p := by
      rw [hdom d p hp]
      rcases (anc_parent_iff hg h0 hd).mp .refl with h | ⟨rfl, rfl⟩
      · exact h.1.of_edge h.2 hp hpb
      · exact dom_entry hp
    have hidx := List.idxOf_lt_length_of_mem
      (htree.mem d (htree.isSome_of_anc hstop ((hreach p).mpr hp)))
    have hlen : g.postorder.length ≤ g.size := by
      obtain ⟨hnd, hmem, -⟩ := SuccGraph.postorder_spec hg h0
      have hsub : g.postorder.toFinset ⊆ Finset.range g.size := fun x hx => by
        simpa using ((hmem x).mp (by simpa using hx)).lt_size hg h0
      have := Finset.card_le_card hsub
      rwa [List.toFinset_card_of_nodup hnd, Finset.card_range] at this
    rw [mem_runners htree ((hreach p).mpr hp) hstop (by omega), hdom a p hp, anc_parent_iff hg h0 hd]
  simp only [dominanceFrontiers, List.mem_filter, List.mem_range, decide_eq_true_eq]
  constructor
  · rintro ⟨-, hmem⟩
    unfold joinRunners at hmem
    split at hmem
    · exact nomatch hmem
    · rename_i hjoin
      rw [not_or] at hjoin
      obtain ⟨d, hd⟩ := Option.ne_none_iff_exists'.mp hjoin.2
      obtain ⟨p, hp, hmem⟩ := List.mem_flatMap.mp hmem
      have hpb := SuccGraph.mem_predsOf.mp hp
      split at hmem
      · exact nomatch hmem
      · rename_i hps
        rw [hd, hwalk hd hpb ((hreach p).mp (Option.ne_none_iff_isSome.mp hps)), not_or] at hmem
        refine ⟨⟨p, hpb, hmem.1, hmem.2.1⟩, ?_⟩
        rintro rfl
        exact ⟨fun ha => hmem.2.2 ⟨rfl, ha⟩, by omega⟩
  · rintro ⟨hfr, hentry⟩
    obtain ⟨p, hpb, hap, hno⟩ := id hfr
    have hb := hap.1.step hpb
    obtain ⟨d, hd⟩ := Option.isSome_iff_exists.mp ((hreach b).mpr hb)
    have htwo : 2 ≤ (g.predsOf b).length := by
      by_cases hb0 : b = 0
      · exact hb0 ▸ (hentry hb0).2
      · exact two_le_preds hb hb0 hfr
    refine ⟨SuccGraph.Reach.lt_size hg h0 hb, ?_⟩
    rw [joinRunners, if_neg (by rw [hd]; simp; omega), List.mem_flatMap]
    refine ⟨p, SuccGraph.mem_predsOf.mpr hpb, ?_⟩
    rw [if_neg (Option.ne_none_iff_isSome.mpr ((hreach p).mpr hap.1)), hd, hwalk hd hpb hap.1, not_or]
    exact ⟨hap, hno, fun h => (hentry h.1).1 h.2⟩

/-- **Dominance frontiers are exact**, but for the entry: an edge back to it ends the dominance of the entry itself, and
where it has one such edge alone the walks are not made. -/
theorem dominanceFrontiers_exact (hg : g.Closed) (h0 : 0 < g.size) :
    b ∈ dominanceFrontiers g g.dominatorsOf a ↔
      (∃ p, g.Edge p b ∧ (∀ l, IsPath g.Edge l 0 p → a ∈ l) ∧ g.Reach p ∧
        (a = b ∨ ∃ l, IsPath g.Edge l 0 b ∧ a ∉ l)) ∧
      (b = 0 → a ≠ 0 ∧ 2 ≤ (g.predsOf 0).length) := by
  rw [mem_dominanceFrontiers hg h0]
  refine and_congr_left fun _ => exists_congr fun p => and_congr_right fun hpb => ?_
  rw [StrictDom, not_and_not_right, dom_iff_path, dom_iff_path]
  constructor
  · rintro ⟨⟨hp, hall⟩, hno⟩
    refine ⟨hall, hp, ?_⟩
    by_contra hcon
    rw [not_or, not_exists] at hcon
    exact hcon.1 (hno ⟨hp.step hpb, fun l hl => by_contra fun ha => hcon.2 l ⟨hl, ha⟩⟩)
  · rintro ⟨hall, hp, hab | ⟨l, hl, ha⟩⟩
    · exact ⟨⟨hp, hall⟩, fun _ => hab⟩
    · exact ⟨⟨hp, hall⟩, fun h => absurd (h.2 l hl) ha⟩

end

/-! ## The closure -/

section

variable {next : ℕ → List ℕ} {defs : List ℕ} {n : ℕ}

/-- What the closure keeps: a phi comes from a definition, and what a definition or a phi leads to is a phi unless the
block still waits. -/
structure Placing (next : ℕ → List ℕ) (defs : List ℕ) (n : ℕ) (m : Mark ℕ) : Prop where
  nodup : m.seen.Nodup
  inRange : ∀ b ∈ m.seen, b < n
  comes : ∀ b ∈ m.seen, ∃ d ∈ defs, Relation.TransGen (fun a b => b ∈ next a) d b
  waiting : ∀ b ∈ m.stack, b ∈ defs ∨ b ∈ m.seen
  closed : ∀ b, b ∈ defs ∨ b ∈ m.seen → b ∈ m.stack ∨ ∀ c ∈ next b, c ∈ m.seen

/-- A round keeps the invariant, and lowers the number of blocks that wait or may still get a phi. -/
lemma Placing.round {m m' : Mark ℕ} (h : Placing next defs n m) (hnext : ∀ b, ∀ c ∈ next b, c < n)
    (hr : m.round next = some m') :
    Placing next defs n m' ∧ n - m'.seen.length + m'.stack.length < n - m.seen.length + m.stack.length := by
  unfold Mark.round at hr
  split at hr
  · cases hr
  · rename_i x rest hst
    obtain rfl := Option.some.inj hr
    have hx : x ∈ defs ∨ x ∈ m.seen := h.waiting x (by simp [hst])
    have h' : Placing next defs n ((next x).foldl Mark.insert { m with stack := rest }) := by
      refine ⟨Mark.nodup_foldl (m := ⟨m.seen, rest⟩) h.nodup _, fun b hb => ?_, fun b hb => ?_, fun b hb => ?_,
        fun b hb => ?_⟩
      · exact (Mark.mem_seen_foldl.mp hb).elim (h.inRange b) (hnext x b)
      · rcases Mark.mem_seen_foldl.mp hb with hb | hb
        · exact h.comes b hb
        · rcases hx with hx | hx
          · exact ⟨x, hx, .single hb⟩
          · obtain ⟨d, hd, hdx⟩ := h.comes x hx
            exact ⟨d, hd, hdx.tail hb⟩
      · rw [Mark.mem_seen_foldl]
        rcases Mark.mem_stack_foldl.mp hb with hb | hb
        · exact (h.waiting b (by simp [hst, show b ∈ rest from hb])).imp_right .inl
        · exact .inr (.inr hb.1)
      · by_cases hold : b ∈ defs ∨ b ∈ m.seen
        · rcases h.closed b hold with hbs | hall
          · rw [hst, List.mem_cons] at hbs
            rcases hbs with rfl | hbs
            · exact .inr fun c hc => Mark.mem_seen_foldl.mpr (.inr hc)
            · exact .inl (Mark.mem_stack_foldl.mpr (.inl hbs))
          · exact .inr fun c hc => Mark.mem_seen_foldl.mpr (.inl (hall c hc))
        · rw [not_or] at hold
          have hb := (hb.resolve_left hold.1)
          exact .inl (Mark.mem_stack_foldl.mpr
            (.inr ⟨(Mark.mem_seen_foldl.mp hb).resolve_left hold.2, hold.2⟩))
    refine ⟨h', ?_⟩
    have hle := Mark.length_seen_le h'.nodup h'.inRange
    have := Mark.length_foldl ⟨m.seen, rest⟩ (next x)
    simp only [hst, List.length_cons] at this ⊢
    omega

/-- The phis of a closure are what its definitions lead to. -/
lemma mem_run_placing (hnext : ∀ b, ∀ c ∈ next b, c < n) {b : ℕ} :
    b ∈ ((⟨[], defs.reverse⟩ : Mark ℕ).run next (defs.length + n)).seen ↔
      ∃ d ∈ defs, Relation.TransGen (fun a b => b ∈ next a) d b := by
  have hinit : Placing next defs n ⟨[], defs.reverse⟩ :=
    ⟨.nil, fun _ h => (nomatch h), fun _ h => (nomatch h), fun b hb => .inl (List.mem_reverse.mp hb),
      fun b hb => .inl (List.mem_reverse.mpr (hb.resolve_right List.not_mem_nil))⟩
  have hend : Placing next defs n ((⟨[], defs.reverse⟩ : Mark ℕ).run next (defs.length + n)) :=
    whileSome_invariant _ (fun _ _ h hr => (h.round hnext hr).1) _ hinit
  have hdone : ((⟨[], defs.reverse⟩ : Mark ℕ).run next (defs.length + n)).round next = none :=
    whileSome_done _ (fun m : Mark ℕ => n - m.seen.length + m.stack.length)
      (fun _ _ h hr => Placing.round h hnext hr) hinit (by simp; omega)
  generalize (⟨[], defs.reverse⟩ : Mark ℕ).run next (defs.length + n) = m at hend hdone ⊢
  have hempty : m.stack = [] := by
    unfold Mark.round at hdone
    split at hdone
    · assumption
    · cases hdone
  refine ⟨hend.comes b, ?_⟩
  have hclosed : ∀ x, x ∈ defs ∨ x ∈ m.seen → ∀ c ∈ next x, c ∈ m.seen := by
    intro x hx
    have := hend.closed x hx
    rw [hempty] at this
    exact this.resolve_left List.not_mem_nil
  rintro ⟨d, hd, hdb⟩
  induction hdb with
  | single h => exact hclosed d (.inl hd) _ h
  | tail _ h ih => exact hclosed _ (.inr ih) _ h

end

/-! ## Phis -/

/-- A block has a phi of a slot where definitions of the slot lead to it along frontiers where the slot is live. -/
lemma hasPhi_iff {f : FunctionSsa} (hg : f.graph.Closed) {candidates slots promotable : List ℤ} {idom : Idoms}
    {slot : ℤ} (hslots : slot ∈ slots) (hslot : slot ∈ promotable) {b : ℕ} :
    HasPhi (phiPlacement f promotable (dominanceFrontiers f.graph idom) (slotLiveIn f candidates slots)) slot b ↔
      ∃ d ∈ defBlocks f slot, Relation.TransGen
        (fun a b => b ∈ dominanceFrontiers f.graph idom a ∧ (slotFlow f candidates slot).LiveIn b) d b := by
  have hlt : ∀ {a c}, c ∈ dominanceFrontiers f.graph idom a → c < f.graph.size := fun hc =>
    List.mem_range.mp (List.mem_filter.mp hc).1
  have hone : b ∈ placePhis f (dominanceFrontiers f.graph idom) (slotLiveIn f candidates slots · slot)
      (defBlocks f slot) ↔ ∃ d ∈ defBlocks f slot, Relation.TransGen
        (fun a b => b ∈ dominanceFrontiers f.graph idom a ∧ (slotFlow f candidates slot).LiveIn b) d b := by
    unfold placePhis
    rw [mem_run_placing fun b c hc => by rw [← f.graph_size]; exact hlt (List.mem_filter.mp hc).1]
    simp only [List.mem_filter]
    refine exists_congr fun d => and_congr_right fun _ => Eq.to_iff (congrArg (fun R => Relation.TransGen R d b) ?_)
    funext a c
    refine propext (and_congr_right fun hc => ?_)
    rw [slotLiveIn_iff hg (hlt hc), and_iff_right hslots]
  unfold HasPhi phiPlacement
  simp only [List.mem_filterMap, Option.ite_none_left_eq_some, Option.some.injEq, Prod.mk.injEq]
  constructor
  · rintro ⟨l, ⟨slot', -, -, rfl, rfl⟩, hb⟩
    exact hone.mp hb
  · intro h
    have hb := hone.mpr h
    exact ⟨_, ⟨slot, hslot, fun he => List.not_mem_nil (he ▸ hb), rfl, rfl⟩, hb⟩

/-- **The phis are those of the iterated frontier where the slot is live, and they are enough.**  One definition arrives
at any other block where the slot is live, and it dominates the block; the entry counts as a definition. -/
theorem phiPlacement_exact {f : FunctionSsa} (hg : f.graph.Closed) (h0 : 0 < f.graph.size)
    {candidates slots promotable : List ℤ} {slot : ℤ} (hslots : slot ∈ slots) (hslot : slot ∈ promotable)
    {placement : List (ℤ × List ℕ)} (hplacement : placement = phiPlacement f promotable
      (dominanceFrontiers f.graph f.graph.dominatorsOf) (slotLiveIn f candidates slots)) :
    (∀ b, HasPhi placement slot b ↔ ∃ d ∈ defBlocks f slot, Relation.TransGen (fun a b =>
      b ∈ dominanceFrontiers f.graph f.graph.dominatorsOf a ∧ (slotFlow f candidates slot).LiveIn b) d b) ∧
    ∀ b, f.graph.Reach b → b ≠ 0 → (slotFlow f candidates slot).LiveIn b → ¬ HasPhi placement slot b →
      ∃ x, StrictDom f.graph.Edge 0 x b ∧ ∀ y, LastDef f.graph.Edge
        (fun c => c = 0 ∨ c ∈ defBlocks f slot ∨ HasPhi placement slot c) 0 y b ↔ y = x := by
  have hphi := fun b => hplacement ▸
    @hasPhi_iff f hg candidates slots promotable f.graph.dominatorsOf slot hslots hslot b
  refine ⟨hphi, fun b hb hb0 hbl hno => ?_⟩
  have hlive : ∀ p c, f.graph.Edge p c → (slotFlow f candidates slot).LiveIn c → p ∉ defBlocks f slot →
      (slotFlow f candidates slot).LiveIn p :=
    fun p c hpc hc hp => BackwardFlow.liveIn_iff.mpr (.inr ⟨hp, .inr ⟨c, hpc, hc⟩⟩)
  have hmerge : ∀ c d, c = 0 ∨ c ∈ defBlocks f slot ∨ HasPhi placement slot c →
      InFrontier f.graph.Edge 0 c d → d ≠ 0 → (slotFlow f candidates slot).LiveIn d → HasPhi placement slot d := by
    intro c d hc hcd hd0 hdl
    have hedge := (mem_dominanceFrontiers hg h0).mpr ⟨hcd, fun h => absurd h hd0⟩
    rcases hc with rfl | hc | hc
    · -- The entry dominates every block.
      obtain ⟨p, hpd, hp, hno⟩ := hcd
      exact absurd ⟨dom_entry (hp.1.step hpd), hd0.symm⟩ hno
    · exact (hphi d).mpr ⟨c, hc, .single ⟨hedge, hdl⟩⟩
    · obtain ⟨e, he, hec⟩ := (hphi c).mp hc
      exact (hphi d).mpr ⟨e, he, hec.tail ⟨hedge, hdl⟩⟩
  obtain ⟨x, hx⟩ := LastDef.exists_of_reach
    (D := fun c => c = 0 ∨ c ∈ defBlocks f slot ∨ HasPhi placement slot c) (.inl rfl) hb hb0
  have hdom := fun y (hy : LastDef f.graph.Edge _ 0 y b) =>
    hy.strictDom (fun _ => Iff.rfl) hlive hmerge hb0 hbl hno
  refine ⟨x, hdom x hx, fun y => ⟨fun hy => hy.unique hx (hdom y hy) (hdom x hx), ?_⟩⟩
  rintro rfl
  exact hx

/-- The join is in the frontier of an arm. -/
theorem dominanceFrontiers_exact_storedOnArms : ∃ p, storedOnArms.graph.Edge p 3 ∧
    ∀ l, IsPath storedOnArms.graph.Edge l 0 p → 1 ∈ l := by
  obtain ⟨⟨p, hp, hall, -⟩, -⟩ := (dominanceFrontiers_exact storedOnArms_closed (by decide)).mp
    (show 3 ∈ dominanceFrontiers storedOnArms.graph storedOnArms.graph.dominatorsOf 1 by decide +kernel)
  exact ⟨p, hp, hall⟩

/-- The join gets the one phi, and one definition arrives at the read. -/
theorem phiPlacement_exact_storedOnArms : HasPhi [(-1, [3])] (-1) 3 ∧ ∃ x, StrictDom storedOnArms.graph.Edge 0 x 4 := by
  have hplacement : [(-1, [3])] = phiPlacement storedOnArms [-1]
      (dominanceFrontiers storedOnArms.graph storedOnArms.graph.dominatorsOf)
      (slotLiveIn storedOnArms [-1, -2] [-1]) := by decide +kernel
  obtain ⟨-, h⟩ := phiPlacement_exact storedOnArms_closed (by decide) (List.mem_singleton.mpr rfl)
    (List.mem_singleton.mpr rfl) hplacement
  have hedge : storedOnArms.graph.Edge 0 1 ∧ storedOnArms.graph.Edge 1 3 ∧ storedOnArms.graph.Edge 3 4 := by
    unfold SuccGraph.Edge
    decide
  obtain ⟨x, hx, -⟩ := h 4 (((reach_entry.step hedge.1).step hedge.2.1).step hedge.2.2) (by decide)
    ⟨4, .refl, .inl (show (-1 : ℤ) ∈ exposedLoads storedOnArms [-1, -2] 4 by decide +kernel)⟩ (by simp [HasPhi])
  exact ⟨⟨[3], by simp⟩, x, hx⟩

end Badc
