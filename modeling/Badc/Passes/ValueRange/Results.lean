import Badc.Passes.ValueRange.Descend

/-!
# What the walk settles

`Results` says that everything the walk collected holds in every state of the run: an instruction
settled leaves its value, a division turned unsigned leaves the same, a zero test settled goes the
way recorded.  One instruction keeps it (`TrueAt.visitInst`), so does one block
(`TrueAt.visitBlock`), and by the rule of the scoped walk so does the whole walk
(`results_walked`).
-/

namespace Badc.ValueRange

/-! ## Facts that grow -/

/-- The facts came by insertions, every bound noted. -/
def Facts.Leads (facts facts' : Facts) : Prop :=
  facts.Noted → facts'.Noted ∧ facts.map.Since facts'.map

namespace Facts.Leads

variable {facts facts' facts'' : Facts}

lemma refl (facts : Facts) : facts.Leads facts := fun h => ⟨h, .refl _⟩

lemma trans (h : facts.Leads facts') (h' : facts'.Leads facts'') : facts.Leads facts'' := by
  intro hn
  obtain ⟨hn', hs⟩ := h hn
  obtain ⟨hn'', hs'⟩ := h' hn'
  exact ⟨hn'', hs.trans hs'⟩

lemma set (facts : Facts) (key : FactKey) (r : Range) : facts.Leads (facts.set key r) :=
  fun h => ⟨h.set key r, (ScopedMap.Since.refl _).insert _ _⟩

lemma narrow (facts : Facts) (key : FactKey) (r : Range) : facts.Leads (facts.narrow key r) :=
  set facts key _

lemma wipeLoads (facts : Facts) : facts.Leads facts.wipeLoads := fun h => by
  obtain ⟨-, -, hn, hs⟩ := Facts.wipeLoads_spec h
  exact ⟨hn, hs⟩

lemma foldl {α : Type*} {step : Facts → α → Facts}
    (h : ∀ (facts : Facts) a, facts.Leads (step facts a)) (l : List α) (facts : Facts) : facts.Leads (l.foldl step facts) := by
  induction l generalizing facts with
  | nil => exact refl facts
  | cons a l ih => exact (h facts a).trans (ih _)

end Facts.Leads

section Grow

variable {cx : Tables} {env : Env} {facts : Facts} {op : BinOp} {narrow holds : Bool}

/-- A settled comparison is recorded by insertions. -/
lemma leads_settleCompare (lhs : ℕ) (k : Word) :
    facts.Leads (cx.settleCompare op lhs k narrow holds facts) := by
  refine Facts.Leads.foldl (fun facts e => ?_) _ _
  split
  · split
    · exact .narrow _ _ _
    · exact .refl _
  · exact .refl _

/-- So is the bound a comparison implies. -/
lemma leads_boundFacts (lhs : ℕ) (k : Word) :
    facts.Leads (cx.boundFacts env op holds lhs k facts) := by
  unfold Tables.boundFacts
  split
  · rename_i r hr
    have hown := Facts.Leads.narrow facts (keyOf cx.func cx.ranges.numbers lhs) r
    dsimp only
    split
    · split
      · exact hown.trans (.narrow _ _ _)
      · exact hown
    · exact hown
  · exact .refl _

/-- So is what lies under a comparison. -/
lemma leads_peelFacts (fuel lhs : ℕ) (k : Word) :
    facts.Leads (cx.peelFacts env op narrow holds fuel lhs k facts) := by
  induction fuel generalizing lhs k facts with
  | zero => exact .refl _
  | succ fuel ih =>
    unfold Tables.peelFacts
    have hsettle : facts.Leads (cx.settleCompare op lhs k narrow holds facts) :=
      leads_settleCompare lhs k
    generalize cx.settleCompare op lhs k narrow holds facts = facts₁ at hsettle
    cases narrow with
    | true => exact hsettle
    | false =>
      simp only [Bool.false_eq_true, if_false]
      have h₂ : facts.Leads (cx.boundFacts env op holds lhs k facts₁) :=
        hsettle.trans (leads_boundFacts lhs k)
      split
      · exact h₂.trans (ih _ _)
      · exact h₂

/-- The facts of an edge come by insertions. -/
lemma leads_applyEdge (pred : ℕ) : env.facts.Leads (cx.applyEdge env pred holds) := by
  have hbounds : ∀ l : List (ℕ × Bound), env.facts.Leads (l.foldl (fun facts e =>
      let key := keyOf cx.func cx.ranges.numbers e.1
      facts.set key (e.2.narrow (facts.get key))) env.facts) := fun l =>
    .foldl (fun facts e => .set _ _ _) l _
  unfold Tables.applyEdge
  split
  · rename_i cond target other hterm
    dsimp only
    split
    · exact (hbounds _).trans (leads_peelFacts _ _ _)
    · exact hbounds _
  · rename_i cond target other hterm
    dsimp only
    split
    · exact (hbounds _).trans (leads_peelFacts _ _ _)
    · exact hbounds _
  · exact .refl _

lemma leads_enterEdge (b : ℕ) : env.facts.Leads (cx.enterEdge b env).facts := by
  unfold Tables.enterEdge
  split
  · split
    · exact leads_applyEdge _
    · exact .refl _
  · exact .wipeLoads _

lemma leads_wipe (inst : Inst) : env.facts.Leads (cx.wipe inst env).facts := by
  unfold Tables.wipe
  split
  · exact (Facts.Leads.wipeLoads _).trans
      (Facts.Leads.foldl (fun facts e => Facts.Leads.set _ _ _) _ _)
  · exact .refl _

/-- An instruction changes the facts by insertions. -/
lemma leads_visitInst (pc : ℕ) : env.facts.Leads (cx.visitInst env pc).facts := by
  cases hinst : cx.func.insts[pc]? with
  | none =>
    unfold Tables.visitInst
    rw [hinst]
    exact .refl _
  | some inst =>
    rw [cx.visitInst_eq hinst]
    have hwipe : env.facts.Leads (cx.wipe inst env).facts := leads_wipe inst
    dsimp only
    split
    · exact hwipe.trans ((Facts.Leads.set _ _ _).trans (.set _ _ _))
    · exact hwipe.trans (.set _ _ _)

/-- The end of a block settles its zero test and leaves the rest. -/
lemma visitEnd_eq (cx : Tables) (b : ℕ) (env : Env) :
    ∃ branchFolds, cx.visitEnd b env = { env with branchFolds } := by
  unfold Tables.visitEnd
  split
  all_goals
    first
    | exact ⟨_, rfl⟩
    | split
      · exact ⟨_, rfl⟩
      · split <;> exact ⟨_, rfl⟩

end Grow

/-! ## Results -/

variable {m : Machine} {f : FunctionSsa} {params : List Range} {w : World m.Ext} {b c d pc : ℕ}
  {blk : Block} {env env' : Env}

/-- A settled instruction is no phi and leaves its value. -/
def FoldHolds (m : Machine) (f : FunctionSsa) (w : World m.Ext) (e : ℕ × Word) : Prop :=
  (∃ inst, f.insts[e.1]? = some inst ∧ inst.isPhi = false) ∧
    ∀ s inst r, Executes m f w s inst r → s.pc = e.1 →
      r = (s.regs.set e.1 (some (.word e.2)), s.world)

/-- A division turned unsigned leaves what it left. -/
def UnsignedHolds (m : Machine) (f : FunctionSsa) (w : World m.Ext) (pc : ℕ) : Prop :=
  ∀ s inst r, Executes m f w s inst r → s.pc = pc →
    m.exec f s.pc s.regs s.world (turnUnsigned inst) = some r

/-- A settled zero test has the truth recorded wherever a run ends the block. -/
def BranchHolds (m : Machine) (f : FunctionSsa) (w : World m.Ext) (e : ℕ × Bool) : Prop :=
  ∀ (s : State m.Ext) blk cond target other x, m.Reaches f w s → s.block = e.1 →
    f.blocks[s.block]? = some blk → blk.instRange.stop ≤ s.pc →
    blk.terminator = .bz cond target other ∨ blk.terminator = .bnz cond target other →
    s.regs.word cond = some x → e.2 = decide (x ≠ 0)

/-- What the walk has collected holds in the run. -/
structure Results (m : Machine) (f : FunctionSsa) (w : World m.Ext) (env : Env) : Prop where
  noted : env.facts.Noted
  folded : ∀ e ∈ env.folded, FoldHolds m f w e
  unsigned : ∀ pc ∈ env.unsigned, UnsignedHolds m f w pc
  branches : ∀ e ∈ env.branchFolds, BranchHolds m f w e

lemma isPhi_of_valueAt {cx : Tables} {facts : Facts} {inst : Inst} {v : Word}
    (h : cx.valueAt facts pc inst = some v) : inst.isPhi = false := by
  rcases Option.or_eq_some_iff.mp h with hd | ⟨-, hp⟩
  · obtain ⟨t, ht, -⟩ := Option.map_eq_some_iff.mp hd
    cases inst <;> first | rfl | cases ht
  · cases inst <;> first | rfl | cases hp

lemma wipe_rest (cx : Tables) (inst : Inst) (env : Env) :
    (cx.wipe inst env).folded = env.folded ∧ (cx.wipe inst env).unsigned = env.unsigned ∧
      (cx.wipe inst env).branchFolds = env.branchFolds ∧
      (cx.wipe inst env).loadEpoch = env.loadEpoch ∧ env.epoch ≤ (cx.wipe inst env).epoch := by
  unfold Tables.wipe
  split <;> simp

/-- Whoever executes an instruction of a block stands in the block, where the facts are true, and
they are past it. -/
lemma TrueAt.of_executes (hrun : FitRun m f params w) (hin : InBlock f pc b)
    (h : TrueAt m f w b pc env) (hn : env.facts.Noted) {s : State m.Ext} {inst : Inst}
    {r : Regs × World m.Ext} (hex : Executes m f w s inst r) (hpc : s.pc = pc) :
    s.block = b ∧ StepFits m f s ∧ Sound m f env s ∧
      Known m f (Point.of f (past s r)) ((Tables.of f params).wipe inst env).facts := by
  subst hpc
  have hb : s.block = b := hrun.setting.verified.disjoint s.pc s.block b hex.inBlock hin
  have hsound := h.sound s hex.reaches hb rfl
  have hfit := hrun.steps s hex.reaches hex.inBlock
  exact ⟨hb, hfit, hsound, hex.known_wipe hrun.setting hfit hn hsound.known⟩

lemma exists_inst (hf : Verified f) (hin : InBlock f pc b) : ∃ inst, f.insts[pc]? = some inst := by
  obtain ⟨blk, hblk, -, hlt⟩ := hin
  exact ⟨_, List.getElem?_eq_getElem (hlt.trans_le (hf.range b blk hblk).2)⟩

/-- One instruction of a block: what is known goes on being true. -/
lemma TrueAt.visitInst (hrun : FitRun m f params w) (hin : InBlock f pc b)
    (h : TrueAt m f w b pc env) (hn : env.facts.Noted) :
    TrueAt m f w b (pc + 1) ((Tables.of f params).visitInst env pc) := by
  have hf := hrun.setting.verified
  obtain ⟨blk, hblk, hstart, -⟩ := id hin
  refine ⟨fun s' hs' hb hpc => ?_, fun v hv hload => ?_⟩
  · subst hb
    obtain ⟨s, inst, r, hex, rfl⟩ := executes_of_mid hs' hf hblk (by omega)
    obtain rfl : s.pc = pc := Nat.succ.inj hpc
    obtain ⟨-, hfit, hsound, -⟩ := h.of_executes hrun hin hn hex rfl
    exact hex.sound_visitInst hrun.setting hrun.imms hfit hn h.stamped hsound
  · obtain ⟨inst, hinst⟩ := exists_inst hf hin
    obtain ⟨-, -, -, hepochs, hepoch⟩ := wipe_rest (Tables.of f params) inst env
    rw [(Tables.of f params).visitInst_eq hinst]
    dsimp only
    by_cases hvpc : v = pc
    · subst hvpc
      split
      · rw [Function.update_self]
      · exact absurd hload ‹_›
    · have hheld : Held f b pc v := hv.of_succ.resolve_left fun hpc => hvpc hpc.1
      have hle := (h.stamped v hheld hload).trans hepoch
      split
      · rwa [Function.update_of_ne hvpc, hepochs]
      · rwa [hepochs]

/-- One instruction of a block: what it settles holds. -/
lemma Results.visitInst (hrun : FitRun m f params w) (hin : InBlock f pc b)
    (h : TrueAt m f w b pc env) (hres : Results m f w env) :
    Results m f w ((Tables.of f params).visitInst env pc) := by
  obtain ⟨inst, hinst⟩ := exists_inst hrun.setting.verified hin
  obtain ⟨hfolded, hunsigned, hbranches, -, -⟩ := wipe_rest (Tables.of f params) inst env
  have heq := @Tables.visitInst_eq (Tables.of f params) env pc inst hinst
  refine ⟨(leads_visitInst pc hres.noted).1, fun e he => ?_, fun pc' hpc' => ?_, fun e he => ?_⟩
  · rw [heq] at he
    dsimp only at he
    rw [hfolded] at he
    split at he
    · rename_i v hv
      rcases List.mem_append.mp he with he | he
      · exact hres.folded e he
      · obtain rfl := List.mem_singleton.mp he
        refine ⟨⟨inst, hinst, isPhi_of_valueAt hv⟩, fun s inst' r hex hpc => ?_⟩
        dsimp only at hpc ⊢
        subst hpc
        obtain rfl := Option.some.inj (hinst.symm.trans hex.found)
        obtain ⟨-, hfit, -, hk⟩ := h.of_executes hrun hin hres.noted hex rfl
        exact hex.eq_of_settled hrun.setting hrun.imms hfit hk hv
    · exact hres.folded e he
  · rw [heq] at hpc'
    dsimp only at hpc'
    rw [hunsigned] at hpc'
    split at hpc'
    · rename_i hturns
      rcases List.mem_append.mp hpc' with hpc' | hpc'
      · exact hres.unsigned pc' hpc'
      · obtain rfl := List.mem_singleton.mp hpc'
        intro s inst' r hex hpc
        subst hpc
        obtain rfl := Option.some.inj (hinst.symm.trans hex.found)
        obtain ⟨-, hfit, -, hk⟩ := h.of_executes hrun hin hres.noted hex rfl
        exact hex.exec_turnUnsigned hrun.setting hfit hk hturns
    · exact hres.unsigned pc' hpc'
  · rw [heq] at he
    dsimp only at he
    rw [hbranches] at he
    exact hres.branches e he

/-- The instructions of a block in order. -/
lemma TrueAt.visitInsts (hrun : FitRun m f params w) {n : ℕ}
    (hin : ∀ i < n, InBlock f (pc + i) b) (h : TrueAt m f w b pc env)
    (hres : Results m f w env) :
    TrueAt m f w b (pc + n) ((List.range' pc n).foldl (Tables.of f params).visitInst env) ∧
      Results m f w ((List.range' pc n).foldl (Tables.of f params).visitInst env) := by
  induction n generalizing pc env with
  | zero => exact ⟨h, hres⟩
  | succ n ih =>
    have hfirst : InBlock f pc b := hin 0 (Nat.succ_pos n)
    rw [List.range'_succ, List.foldl_cons, ← Nat.add_assoc, Nat.add_right_comm]
    refine ih (fun i hi => ?_) (h.visitInst hrun hfirst hres.noted)
      (hres.visitInst hrun hfirst h)
    rw [Nat.add_assoc, Nat.add_comm 1 i]
    exact hin (i + 1) (Nat.succ_lt_succ hi)

/-- A test recorded at the end of a block is the block's, settled by what is known of its
condition. -/
lemma mem_visitEnd {cx : Tables} (hblk : cx.func.blocks[b]? = some blk) {e : ℕ × Bool}
    (he : e ∈ (cx.visitEnd b env).branchFolds) : e ∈ env.branchFolds ∨
      ∃ cond target other nz, (blk.terminator = .bz cond target other ∨
        blk.terminator = .bnz cond target other) ∧
        Range.decide .ne (cx.held env.facts cond) (.exact 0) = some nz ∧ e = (b, nz) := by
  have hnew : ∀ {cond nz}, e ∈ env.branchFolds ++ [(b, nz)] →
      Range.decide .ne (cx.held env.facts cond) (.exact 0) = some nz →
      e ∈ env.branchFolds ∨
        ∃ nz, Range.decide .ne (cx.held env.facts cond) (.exact 0) = some nz ∧ e = (b, nz) := by
    intro cond nz he hnz
    refine (List.mem_append.mp he).imp_right fun he => ⟨nz, hnz, ?_⟩
    exact List.mem_singleton.mp he
  unfold Tables.visitEnd at he
  rw [hblk, Option.map_some] at he
  split at he
  · rename_i cond target other hterm
    split at he
    · exact .inl he
    · split at he
      · rename_i nz hnz
        exact (hnew he hnz).imp_right fun ⟨nz, h⟩ =>
          ⟨cond, target, other, nz, .inl (Option.some.inj hterm), h⟩
      · exact .inl he
  · rename_i cond target other hterm
    split at he
    · exact .inl he
    · split at he
      · rename_i nz hnz
        exact (hnew he hnz).imp_right fun ⟨nz, h⟩ =>
          ⟨cond, target, other, nz, .inr (Option.some.inj hterm), h⟩
      · exact .inl he
  · exact .inl he

lemma TrueAt.visitEnd (h : TrueAt m f w b pc env) :
    TrueAt m f w b pc ((Tables.of f params).visitEnd b env) := by
  obtain ⟨branchFolds, heq⟩ := visitEnd_eq (Tables.of f params) b env
  rw [heq]
  exact ⟨fun s hs hb hpc => ⟨(h.sound s hs hb hpc).known, (h.sound s hs hb hpc).current⟩,
    h.stamped⟩

/-- The end of a block: its zero test, where the facts settle it. -/
lemma Results.visitEnd (hrun : FitRun m f params w) (hblk : f.blocks[b]? = some blk)
    (h : TrueAt m f w b blk.instRange.stop env) (hres : Results m f w env) :
    Results m f w ((Tables.of f params).visitEnd b env) := by
  have hf := hrun.setting.verified
  obtain ⟨branchFolds, heq⟩ := visitEnd_eq (Tables.of f params) b env
  refine ⟨by rw [heq]; exact hres.noted, by rw [heq]; exact hres.folded,
    by rw [heq]; exact hres.unsigned, fun e he => ?_⟩
  rcases mem_visitEnd hblk he with he | ⟨cond, target, other, nz, hterm, hnz, rfl⟩
  · exact hres.branches e he
  · intro s blk' cond' target' other' x hs hb hblk' hpc hterm' hx
    dsimp only at hb ⊢
    subst hb
    obtain rfl := Option.some.inj (hblk.symm.trans hblk')
    obtain rfl : cond' = cond := by
      rcases hterm with hterm | hterm <;> rcases hterm' with hterm' | hterm' <;>
        rw [hterm] at hterm' <;> cases hterm' <;> rfl
    have hmem : cond' ∈ blk.terminator.operands := by
      rcases hterm with hterm | hterm <;> simp [hterm, Terminator.operands]
    obtain ⟨hheld, hreg⟩ := hs.held_condition hf hblk hpc hmem hx
    have hsound := h.sound s hs rfl (le_antisymm (hs.placed hf hblk).2.2 hpc)
    have happly := Range.applyBinop_of_decide
      (hsound.known.has_held hrun.setting hs hblk hheld hreg) (Range.has_exact 0) hnz
    exact (boolWord_inj (Option.some.inj happly)).symm

/-- A block, from what is known on entry to it. -/
lemma TrueAt.visitBlock (hrun : FitRun m f params w) (hblk : f.blocks[b]? = some blk)
    (h : TrueAt m f w b blk.instRange.start ((Tables.of f params).enterEdge b env))
    (hres : Results m f w ((Tables.of f params).enterEdge b env)) :
    TrueAt m f w b blk.instRange.stop ((Tables.of f params).visitBlock b env) ∧
      Results m f w ((Tables.of f params).visitBlock b env) := by
  have hle := (hrun.setting.verified.range b blk hblk).1
  have hinsts : (Tables.of f params).blockInsts b =
      List.range' blk.instRange.start (blk.instRange.stop - blk.instRange.start) := by
    have hblk' : (Tables.of f params).func.blocks[b]? = some blk := hblk
    simp only [Tables.blockInsts, hblk']
  obtain ⟨htrue, hres'⟩ := h.visitInsts hrun (n := blk.instRange.stop - blk.instRange.start)
    (fun i hi => ⟨blk, hblk, by omega, by omega⟩) hres
  rw [Nat.add_sub_cancel' hle] at htrue
  rw [Tables.visitBlock, hinsts]
  exact ⟨htrue.visitEnd, hres'.visitEnd hrun hblk htrue⟩

/-! ## The walk over the tree -/

/-- What is known at a point rests on the facts, the epoch and the loads in scope. -/
lemma TrueAt.congr (h : TrueAt m f w b pc env)
    (hget : ∀ key, env'.facts.get key = env.facts.get key) (hepoch : env'.epoch = env.epoch)
    (hload : ∀ v, Held f b pc v → env'.loadEpoch v = env.loadEpoch v) :
    TrueAt m f w b pc env' := by
  refine ⟨fun s hs hb hpc => ⟨fun key hkey => ?_, fun v ek hv hek hstamp => ?_⟩,
    fun v hv hv' => ?_⟩
  · rw [hget] at hkey ⊢
    exact (h.sound s hs hb hpc).known key hkey
  · subst hb hpc
    rw [hload v hv, hepoch] at hstamp
    exact (h.sound s hs rfl rfl).current v ek hv hek hstamp
  · rw [hload v hv, hepoch]
    exact h.stamped v hv hv'

/-- What the walk knows when it comes to a block: nothing at the entry, and what is true at the
end of the parent elsewhere. -/
def Comes (m : Machine) (f : FunctionSsa) (w : World m.Ext) (c : ℕ) (env : Env) : Prop :=
  (c = 0 ∧ ∀ key, env.facts.get key = .univ) ∨
    ∃ d blk, c ∈ children f d ∧ f.blocks[d]? = some blk ∧
      TrueAt m f w d blk.instRange.stop env

/-- All the facts gained by visiting blocks were given back. -/
structure GivenBack (f : FunctionSsa) (D : ℕ → Prop) (env env' : Env) : Prop where
  map : env'.facts.map = env.facts.map
  epoch : env'.epoch = env.epoch
  stamps : ∀ v, (∀ b, D b → ¬ InBlock f v b) → env'.loadEpoch v = env.loadEpoch v

/-- Coming to a block, the walk may enter it. -/
lemma Comes.enter (hrun : FitRun m f params w) (hblk : f.blocks[b]? = some blk)
    (h : Comes m f w b env) (hres : Results m f w env) :
    TrueAt m f w b blk.instRange.start ((Tables.of f params).enterEdge b env) ∧
      Results m f w ((Tables.of f params).enterEdge b env) := by
  refine ⟨?_, ?_⟩
  · rcases h with ⟨rfl, hno⟩ | ⟨d, blkd, hc, hblkd, htrue⟩
    · exact TrueAt.enterRoot hblk hres.noted hno
    · exact htrue.enterEdge hrun hc hblkd hblk hres.noted
  · have hsame : ((Tables.of f params).enterEdge b env).folded = env.folded ∧
        ((Tables.of f params).enterEdge b env).unsigned = env.unsigned ∧
        ((Tables.of f params).enterEdge b env).branchFolds = env.branchFolds := by
      unfold Tables.enterEdge
      split
      · split <;> exact ⟨rfl, rfl, rfl⟩
      · exact ⟨rfl, rfl, rfl⟩
    exact ⟨(leads_enterEdge b hres.noted).1, hsame.1 ▸ hres.folded, hsame.2.1 ▸ hres.unsigned,
      hsame.2.2 ▸ hres.branches⟩

lemma desc_of_dom (hf : Verified f) (hn : b < f.blocks.length) (hab : f.graph.Dom d b) :
    TreeStamps.Desc (children f) d b := by
  obtain ⟨htree, hreach, hanc⟩ := dominators_spec hf (Nat.zero_lt_of_lt hn)
  refine (desc_domChildren_iff fun b hb => ?_).mpr ((hanc d b hab.reach).mpr hab)
  have hlt := SuccGraph.Reach.lt_size (FunctionSsa.graph_closed hf.gotoTargets hf.targets)
    (by rw [f.graph_size]; exact Nat.zero_lt_of_lt hn) ((hreach b).mp hb)
  rwa [f.graph_size] at hlt

/-- What the walk knows when it comes to a block survives visits to blocks not above it. -/
lemma Comes.keep (hf : Verified f) {D : ℕ → Prop} (hback : GivenBack f D env env')
    (hD : ∀ d, D d → ¬ TreeStamps.Desc (children f) d c) (h : Comes m f w c env) :
    Comes m f w c env' := by
  have hget : ∀ key, env'.facts.get key = env.facts.get key := by
    intro key
    rw [Facts.get, hback.map, Facts.get]
  rcases h with ⟨rfl, hno⟩ | ⟨d, blk, hc, hblk, htrue⟩
  · exact .inl ⟨rfl, fun key => (hget key).trans (hno key)⟩
  · refine .inr ⟨d, blk, hc, hblk, htrue.congr hget hback.epoch fun v hv => ?_⟩
    refine hback.stamps v fun e he hin => hD e he ?_
    -- The block of a value held at the end of the parent is above the parent.
    obtain ⟨db, hin', -, hdom⟩ := hv
    obtain rfl := hf.disjoint v e db hin hin'
    have hlt := (List.getElem?_eq_some_iff.mp hblk).1
    have hed : TreeStamps.Desc (children f) e d := by
      by_cases hed : e = d
      · exact hed ▸ .refl
      · exact desc_of_dom hf hlt (hdom hed)
    exact .down hed hc

end Badc.ValueRange
