import Badc.Passes.ValueRange.Visit

/-!
# Facts down the dominator tree

What is true at the end of a block stays true, but for what it says of memory, in every state of a
block it strictly dominates (`TrueAt.persist`): the values in scope at the end of the block are
not written again before the block is.  So what the walk knows at the end of a block is true on
entry to its children in the dominator tree (`TrueAt.enterEdge`), the facts of a branch included
where the child has one predecessor.
-/

namespace Badc.ValueRange

/-- A run the walk's reasoning holds of: its function is accepted, its widths and marks agree, its
parameters are in their ranges, and its steps fit. -/
structure FitRun (m : Machine) (f : FunctionSsa) (params : List Range) (w : World m.Ext) :
    Prop where
  setting : Setting m f params
  tests : TestMarks f
  imms : CmpImmsFit f
  steps : ∀ s, m.Reaches f w s → InBlock f s.pc s.block → StepFits m f s

/-- The children of a block in the dominator tree. -/
def children (f : FunctionSsa) : ℕ → List ℕ :=
  domChildren f.graph.dominatorsOf f.blocks.length

/-- What the walk knows at a point of a block is true in every state that stands there, and the
loads in scope there are of no later epoch. -/
structure TrueAt (m : Machine) (f : FunctionSsa) (w : World m.Ext) (b pc : ℕ) (env : Env) :
    Prop where
  sound : ∀ s, m.Reaches f w s → s.block = b → s.pc = pc → Sound m f env s
  stamped : ∀ v, Held f b pc v → (loadExprKey f (valueNumbers f) v).isSome →
    env.loadEpoch v ≤ env.epoch

section

variable {m : Machine} {f : FunctionSsa} {params : List Range} {w : World m.Ext} {b c d u : ℕ}
  {blk : Block}

lemma dominators_spec (hf : Verified f) (h0 : 0 < f.blocks.length) :
    SuccGraph.TreeInv f.graph.postorder f.graph.dominatorsOf ∧
      (∀ b, (f.graph.dominatorsOf b).isSome ↔ f.graph.Reach b) ∧
      ∀ a b, f.graph.Reach b → (Anc f.graph.dominatorsOf a b ↔ f.graph.Dom a b) :=
  SuccGraph.dominatorsOf_spec (FunctionSsa.graph_closed hf.gotoTargets hf.targets)
    (by rwa [f.graph_size])

lemma mem_children (hf : Verified f) (h : c ∈ children f d) :
    f.graph.Dom d c ∧ d ≠ c ∧ ∀ e, f.graph.Dom e c → e ≠ c → f.graph.Dom e d := by
  obtain ⟨hc, hidom, hne⟩ := mem_domChildren.mp h
  obtain ⟨-, hreach, hanc⟩ := dominators_spec hf (Nat.zero_lt_of_lt hc)
  have hrc : f.graph.Reach c := (hreach c).mp (by simp [hidom])
  have hdom : f.graph.Dom d c := (hanc d c hrc).mp (.up hidom .refl)
  refine ⟨hdom, hne.symm, fun e he hec => ?_⟩
  exact (hanc e d hdom.reach_left).mp (((hanc e c hrc).mpr he).of_parent hec hidom)

lemma notMem_of_held_end (hf : Verified f) (hdom : f.graph.Dom d b) (hne : d ≠ b) {pc : ℕ}
    (hu : Held f d pc u) : ¬ InBlock f u b := by
  obtain ⟨db, hin, -, hdb⟩ := hu
  intro hb
  obtain rfl := hf.disjoint u db b hin hb
  exact hne (hdom.antisymm (hdb (Ne.symm hne)))

lemma held_of_dom (hf : Verified f) (hdom : f.graph.Dom d b) (hne : d ≠ b) {pc pc' : ℕ}
    (hu : Held f d pc u) : Held f b pc' u := by
  have hnot := notMem_of_held_end hf hdom hne hu
  obtain ⟨db, hin, -, hdb⟩ := hu
  refine ⟨db, hin, fun h => absurd (h ▸ hin) hnot, fun _ => ?_⟩
  by_cases h : db = d
  · exact h ▸ hdom
  · exact (hdb h).trans hdom

/-- What is held on entry to a child and is no phi is held at the end of the parent. -/
lemma held_parent (hf : Verified f) (hc : c ∈ children f d) {blkc : Block}
    (hblkc : f.blocks[c]? = some blkc) (hblk : f.blocks[d]? = some blk)
    (hu : Held f c blkc.instRange.start u) (hphi : ¬ IsPhi f u) :
    Held f d blk.instRange.stop u := by
  obtain ⟨-, -, himm⟩ := mem_children hf hc
  obtain ⟨db, hin, hlt, hdom⟩ := hu
  have hdb : db ≠ c := by
    rintro rfl
    obtain ⟨blk', hblk', hstart, -⟩ := hin
    obtain rfl := Option.some.inj (hblkc.symm.trans hblk')
    have := (hlt rfl).resolve_right hphi
    omega
  refine ⟨db, hin, fun h => ?_, fun _ => himm db (hdom hdb) hdb⟩
  obtain ⟨blk', hblk', -, hstop⟩ := hin
  subst h
  obtain rfl := Option.some.inj (hblk.symm.trans hblk')
  exact .inl hstop

lemma not_isPhi_of_loadExprKey {v : ℕ} (h : (loadExprKey f (valueNumbers f) v).isSome) :
    ¬ IsPhi f v := by
  rintro ⟨inst, hinst, hphi⟩
  unfold loadExprKey at h
  rw [hinst] at h
  cases inst with
  | phi incoming kind => cases h
  | _ => cases hphi

lemma parent_of_solePred (hf : Verified f) {p : ℕ} (hc : c ∈ children f d)
    (hsole : solePred f c = some p) : p = d := by
  obtain ⟨hdom, hne, himm⟩ := mem_children hf hc
  obtain ⟨h0, hedge, honly⟩ := solePred_spec hsole
  have hpc : f.graph.Dom p c := dom_sole_pred hdom.reach h0 fun a _ ha => honly a ha
  have hpne : p ≠ c := ne_of_sole_pred hdom.reach h0 fun a _ ha => honly a ha
  exact (himm p hpc hpne).antisymm (hdom.of_edge hne hpc.reach_left hedge)

/-- A state inside a block comes from the instruction before. -/
lemma executes_of_mid {s' : State m.Ext} (hs' : m.Reaches f w s')
    (hf : Verified f) (hblk : f.blocks[s'.block]? = some blk) (hpc : blk.instRange.start < s'.pc) :
    ∃ s inst r, Executes m f w s inst r ∧ s' = past s r := by
  cases hs' with
  | initial =>
    have h0 : f.blocks[0]? = some blk := hblk
    simp [Machine.initial, h0] at hpc
  | step hs hstep =>
    rename_i s
    obtain ⟨blk₀, hblk₀, ⟨hlt, inst, r, hinst, hr, rfl⟩ | ⟨-, b, blk', -, hblk', rfl⟩⟩ :=
      Machine.step_cases hstep
    · exact ⟨s, inst, r, ⟨hs, ⟨blk₀, hblk₀, (hs.placed hf hblk₀).2.1, hlt⟩, hinst, hr⟩, rfl⟩
    · obtain rfl := Option.some.inj (hblk.symm.trans hblk')
      exact absurd hpc (lt_irrefl _)

/-- A state at the start of a block other than the first comes over an edge, or the block is
entered anew by an instruction before it. -/
lemma enters_of_start {s' : State m.Ext} (hs' : m.Reaches f w s') (hf : Verified f)
    (hne : s'.block ≠ 0) (hblk : f.blocks[s'.block]? = some blk)
    (hpc : s'.pc = blk.instRange.start) :
    ∃ s blk₀, m.Reaches f w s ∧ f.blocks[s.block]? = some blk₀ ∧ blk₀.instRange.stop ≤ s.pc ∧
      m.branchTo f s blk₀.terminator = some s'.block ∧
      s' = ⟨s'.block, blk.instRange.start, enterRegs f s.block blk s.regs, s.world⟩ := by
  cases hs' with
  | initial => exact absurd rfl hne
  | step hs hstep =>
    rename_i s
    obtain ⟨blk₀, hblk₀, ⟨hlt, inst, r, hinst, hr, rfl⟩ | ⟨hge, b, blk', hb, hblk', rfl⟩⟩ :=
      Machine.step_cases hstep
    · obtain rfl := Option.some.inj (hblk.symm.trans hblk₀)
      have := (hs.placed hf hblk₀).2.1
      dsimp only at hpc
      omega
    · obtain rfl := Option.some.inj (hblk.symm.trans hblk')
      exact ⟨s, blk₀, hs, hblk₀, hge, hb, rfl⟩

lemma keeps_enter (hf : Verified f) (hdom : f.graph.Dom d b) (hne : d ≠ b) {p pc : ℕ}
    (hblk : f.blocks[b]? = some blk) (regs : Regs) (mem mem' : Mem) :
    Point.Keeps ⟨Held f d pc, regs, mem⟩ ⟨Held f d pc, enterRegs f p blk regs, mem'⟩ :=
  fun _ hu => ⟨hu, enterRegs_of_notMem hblk (notMem_of_held_end hf hdom hne hu)⟩

lemma Executes.keeps_dom {s : State m.Ext} {inst : Inst} {r : Regs × World m.Ext}
    (h : Executes m f w s inst r) (hf : Verified f) (hdom : f.graph.Dom d s.block)
    (hne : d ≠ s.block) {pc : ℕ} (mem mem' : Mem) :
    Point.Keeps ⟨Held f d pc, s.regs, mem⟩ ⟨Held f d pc, r.1, mem'⟩ :=
  fun _ hu => ⟨hu, (h.keeps hf mem mem' _ (held_of_dom hf hdom hne hu)).2⟩

/-- In every state of a strictly dominated block, what was true at the dominator's end is, but for
what it says of memory. -/
theorem TrueAt.persist {env : Env} (hf : Verified f) (hblk : f.blocks[d]? = some blk)
    (h : TrueAt m f w d blk.instRange.stop env) (hn : env.facts.Noted) {s : State m.Ext}
    (hs : m.Reaches f w s) (hdom : f.graph.Dom d s.block) (hne : d ≠ s.block) :
    Known m f ⟨Held f d blk.instRange.stop, s.regs, s.world.mem⟩ env.facts.wipeLoads := by
  have hstays : ∀ {p p' : Point}, p.Keeps p' → Known m f p env.facts.wipeLoads →
      Known m f p' env.facts.wipeLoads := fun hkeep hk => by
    refine hk.keep hkeep fun key hload hkey => absurd ?_ hkey
    exact (Facts.wipeLoads_spec hn).2.1 key hload
  induction hs with
  | initial => exact absurd (hdom.antisymm (dom_entry hdom.reach_left)) hne
  | step hs hstep ih =>
    rename_i s s'
    obtain ⟨blk₀, hblk₀, ⟨hlt, inst, r, hinst, hr, rfl⟩ | ⟨hge, b, blk', hb, hblk', rfl⟩⟩ :=
      Machine.step_cases hstep
    · have hex : Executes m f w s inst r :=
        ⟨hs, ⟨blk₀, hblk₀, (hs.placed hf hblk₀).2.1, hlt⟩, hinst, hr⟩
      exact hstays (hex.keeps_dom hf hdom hne _ _) (ih hdom hne)
    · obtain ⟨hreach, -, hstop⟩ := hs.placed hf hblk₀
      dsimp only at hdom hne ⊢
      have hda := hdom.of_edge hne hreach (Machine.branchTo_edge hblk₀ hb)
      have hkeep : Point.Keeps ⟨Held f d blk.instRange.stop, s.regs, s.world.mem⟩
          ⟨Held f d blk.instRange.stop, enterRegs f s.block blk' s.regs, s.world.mem⟩ :=
        keeps_enter hf hdom hne hblk' _ _ _
      by_cases hd : d = s.block
      · -- The edge leaves the dominator itself.
        subst hd
        obtain rfl := Option.some.inj (hblk₀.symm.trans hblk)
        have hsound := (h.sound s hs rfl (le_antisymm hstop hge)).known
        have hpc : s.pc = blk₀.instRange.stop := le_antisymm hstop hge
        have hpoint : Point.of f s =
            ⟨Held f s.block blk₀.instRange.stop, s.regs, s.world.mem⟩ := by rw [Point.of, hpc]
        rw [hpoint] at hsound
        exact hsound.wipe hn hkeep
      · exact hstays hkeep (ih hda hd)

/-- Entry to a child of the dominator tree: what the parent's end makes known is true there. -/
theorem TrueAt.enterEdge {env : Env} (hrun : FitRun m f params w) (hc : c ∈ children f d)
    (hblk : f.blocks[d]? = some blk) {blkc : Block} (hblkc : f.blocks[c]? = some blkc)
    (h : TrueAt m f w d blk.instRange.stop env) (hn : env.facts.Noted) :
    TrueAt m f w c blkc.instRange.start ((Tables.of f params).enterEdge c env) := by
  have hf := hrun.setting.verified
  obtain ⟨hdom, hne, -⟩ := mem_children hf hc
  have hload : ((Tables.of f params).enterEdge c env).loadEpoch = env.loadEpoch := by
    unfold Tables.enterEdge
    split
    · split <;> rfl
    · rfl
  have hle : ∀ v, Held f c blkc.instRange.start v →
      (loadExprKey f (valueNumbers f) v).isSome → env.loadEpoch v ≤ env.epoch := fun v hv hv' =>
    h.stamped v (held_parent hf hc hblkc hblk hv (not_isPhi_of_loadExprKey hv')) hv'
  cases hsole : solePred f c with
  | none =>
    have henv : (Tables.of f params).enterEdge c env =
        { env with facts := env.facts.wipeLoads, epoch := env.epoch + 1 } := by
      simp only [Tables.enterEdge, Tables.of, hsole]
    rw [henv]
    refine ⟨fun s hs hb hpc => ⟨?_, fun v ek hv hek hepoch => ?_⟩, fun v hv hv' =>
      (hle v hv hv').trans (Nat.le_succ _)⟩
    · subst hb
      have hkeep : Point.Keeps ⟨Held f d blk.instRange.stop, s.regs, s.world.mem⟩
          (Point.of f s) := fun u hu => ⟨held_of_dom hf hdom hne hu, rfl⟩
      exact (h.persist hf hblk hn hs hdom hne).keep hkeep fun _ _ _ => rfl
    · subst hb
      rw [hpc] at hv
      have := hle v hv (by simp [hek])
      dsimp only at hepoch
      omega
  | some p =>
    obtain rfl := parent_of_solePred hf hc hsole
    -- Every state that stands there came over the edge from the parent.
    have hfrom : ∀ s', m.Reaches f w s' → s'.block = c → s'.pc = blkc.instRange.start →
        ∃ s, m.Reaches f w s ∧ s.block = p ∧ s.pc = blk.instRange.stop ∧
          m.branchTo f s blk.terminator = some c ∧
          s' = ⟨c, blkc.instRange.start, enterRegs f p blkc s.regs, s.world⟩ := by
      rintro s' hs' rfl hpc
      obtain ⟨s, blk₀, hs, hblk₀, hge, hb, hs'eq⟩ :=
        enters_of_start hs' hf (solePred_spec hsole).1 hblkc hpc
      have hsp : s.block = p := (solePred_spec hsole).2.2 _ (Machine.branchTo_edge hblk₀ hb)
      rw [hsp] at hblk₀ hs'eq
      obtain rfl := Option.some.inj (hblk.symm.trans hblk₀)
      have hstop := (hs.placed hf (hsp ▸ hblk)).2.2
      exact ⟨s, hs, hsp, le_antisymm hstop hge, hb, hs'eq⟩
    have hkeep : ∀ {s : State m.Ext}, s.block = p → s.pc = blk.instRange.stop →
        (Point.of f s).Keeps ⟨Held f c blkc.instRange.start,
          enterRegs f p blkc s.regs, s.world.mem⟩ := by
      rintro s rfl hpc u hu
      dsimp only [Point.of] at hu
      exact ⟨held_of_dom hf hdom hne hu,
        enterRegs_of_notMem hblkc (notMem_of_held_end hf hdom hne hu)⟩
    have hepoch : ((Tables.of f params).enterEdge c env).epoch = env.epoch := by
      simp only [Tables.enterEdge, Tables.of, hsole]
      split <;> rfl
    refine ⟨fun s' hs' hb hpc => ?_, fun v hv hv' => ?_⟩
    · obtain ⟨s, hs, hsp, hspc, hbranch, rfl⟩ := hfrom s' hs' hb hpc
      have hsound := h.sound s hs hsp hspc
      subst hsp
      have hknown : Known m f (Point.of f s) ((Tables.of f params).enterEdge c env).facts := by
        simp only [Tables.enterEdge, Tables.of, hsole]
        split
        · rename_i cond holds hedge
          exact hsound.applyEdge hrun.setting hrun.tests hs hblk hspc.ge hbranch hedge
        · exact hsound.known
      refine ⟨hknown.keep (hkeep rfl hspc) fun _ _ _ => rfl, fun v ek hv hek hstamp => ?_⟩
      have hheld := held_parent hf hc hblkc hblk hv
        (not_isPhi_of_loadExprKey (by simp [hek]))
      rw [← hspc] at hheld
      rw [hload, hepoch] at hstamp
      have hden := hsound.current v ek hheld hek hstamp
      obtain ⟨-, hreg⟩ := hkeep rfl hspc v hheld
      change Den m f _ ek (enterRegs f s.block blkc s.regs v)
      rw [show enterRegs f s.block blkc s.regs v = s.regs v from hreg]
      exact hden.keep (hkeep rfl hspc) fun _ => rfl
    · rw [hload, hepoch]
      exact hle v hv hv'

/-- Entry to the function, where nothing is known. -/
theorem TrueAt.enterRoot {env : Env} (hblk : f.blocks[0]? = some blk) (hn : env.facts.Noted)
    (hno : ∀ key, env.facts.get key = .univ) :
    TrueAt m f w 0 blk.instRange.start ((Tables.of f params).enterEdge 0 env) := by
  have hsole : solePred f 0 = none := by
    cases h : solePred f 0 with
    | none => rfl
    | some p => exact absurd rfl (solePred_spec h).1
  have henv : (Tables.of f params).enterEdge 0 env =
      { env with facts := env.facts.wipeLoads, epoch := env.epoch + 1 } := by
    simp only [Tables.enterEdge, Tables.of, hsole]
  have hnoload : ∀ v, Held f 0 blk.instRange.start v →
      ¬ (loadExprKey f (valueNumbers f) v).isSome := fun v hv hload =>
    not_isPhi_of_loadExprKey hload (hv.isPhi_of_start hblk)
  obtain ⟨hother, hwiped, -⟩ := Facts.wipeLoads_spec hn
  rw [henv]
  refine ⟨fun s hs hb hpc => ⟨fun key hkey => absurd ?_ hkey, fun v ek hv hek _ => ?_⟩,
    fun v hv hv' => absurd hv' (hnoload v hv)⟩
  · cases hl : key.isLoad with
    | true => exact hwiped key hl
    | false => exact (hother key hl).trans (hno key)
  · rw [hb, hpc] at hv
    exact absurd (by simp [hek]) (hnoload v hv)

end

end Badc.ValueRange
