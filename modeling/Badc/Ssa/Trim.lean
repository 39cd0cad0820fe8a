import Badc.Ssa.Held

/-!
# Dropping branches

Several passes end by turning a decided branch into a jump and dropping, from the phis of the
blocks that lose an edge, the entries of that edge (`dropIncomes`).  `Trimmed f f'` says that
`f'` comes from `f` that way, instructions other than phis rewritten in place.  A trimmed
function is verified (`Trimmed.verified`), and takes every step of a run of `f`, where the jumps
go the way the branches went and the rewritten instructions do what the old ones did
(`Trimmed.step`).
-/

namespace Badc

instance (g : SuccGraph) : DecidableRel g.Edge := fun a b => inferInstanceAs (Decidable (b ∈ g.of a))

/-- Drop, from the phis in a range, the entries for `pred`. -/
def dropIncome (insts : List Inst) (r : InstRange) (pred : ℕ) : List Inst :=
  insts.mapIdx fun i inst =>
    if r.start ≤ i ∧ i < r.stop then
      match inst with
      | .phi incoming kind => .phi (incoming.filter fun q => q.1 ≠ pred) kind
      | inst => inst
    else inst

/-- Drop each removed edge's entries from the phis of the block it entered. -/
def dropIncomes (insts : List Inst) (blocks : List Block) (removed : List (ℕ × ℕ)) : List Inst :=
  removed.foldl (fun insts e =>
    match blocks[e.2]? with
    | none => insts
    | some blk => dropIncome insts blk.instRange e.1) insts

/-- Dropping entries leaves every instruction other than a phi. -/
lemma getElem?_dropIncomes_of_not_phi {insts : List Inst} {blocks : List Block}
    {removed : List (ℕ × ℕ)} {v : ℕ} {inst : Inst} (hinst : insts[v]? = some inst)
    (hphi : inst.isPhi = false) : (dropIncomes insts blocks removed)[v]? = some inst := by
  induction removed generalizing insts with
  | nil => exact hinst
  | cons e removed ih =>
    rw [dropIncomes, List.foldl_cons, ← dropIncomes]
    refine ih ?_
    split
    · exact hinst
    · rw [dropIncome, List.getElem?_mapIdx, hinst, Option.map_some]
      split
      · cases inst with
        | phi incoming kind => cases hphi
        | _ => rfl
      · rfl

/-- A phi loses its entries for the removed edges into its block. -/
lemma getElem?_dropIncomes_of_phi {insts : List Inst} {blocks : List Block}
    {removed : List (ℕ × ℕ)} {v b : ℕ} {blk : Block} {incoming : List (ℕ × ℕ)} {kind : LoadKind}
    (hblk : blocks[b]? = some blk) (hv : v ∈ blk.instRange.toList)
    (hsole : ∀ (c : ℕ) blk', blocks[c]? = some blk' → v ∈ blk'.instRange.toList → c = b)
    (hinst : insts[v]? = some (.phi incoming kind)) :
    (dropIncomes insts blocks removed)[v]? =
      some (.phi (incoming.filter fun q => (q.1, b) ∉ removed) kind) := by
  induction removed generalizing insts incoming with
  | nil => simpa [dropIncomes] using hinst
  | cons e removed ih =>
    rw [dropIncomes, List.foldl_cons, ← dropIncomes]
    -- One removed edge filters the phi when it enters its block.
    have hone : ∀ insts', insts' = (match blocks[e.2]? with
        | none => insts
        | some blk => dropIncome insts blk.instRange e.1) →
        insts'[v]? = some (.phi (incoming.filter fun q => (q.1, b) ≠ e) kind) := by
      rintro insts' rfl
      cases he : blocks[e.2]? with
      | none =>
        have hne : e.2 ≠ b := by
          rintro rfl
          rw [hblk] at he
          cases he
        rw [hinst, List.filter_eq_self.mpr]
        intro q _
        simp only [ne_eq, decide_eq_true_eq]
        exact fun h => hne (h ▸ rfl)
      | some blk' =>
        simp only [dropIncome, List.getElem?_mapIdx, hinst, Option.map_some]
        by_cases hin : v ∈ blk'.instRange.toList
        · have hb : e.2 = b := hsole e.2 blk' he hin
          rw [if_pos (InstRange.mem_toList.mp hin)]
          congr 3
          funext q
          simp [Prod.ext_iff, hb]
        · have hne : e.2 ≠ b := by
            rintro rfl
            obtain rfl := Option.some.inj (hblk.symm.trans he)
            exact hin hv
          rw [if_neg (fun h => hin (InstRange.mem_toList.mpr h)), List.filter_eq_self.mpr]
          intro q _
          simp only [ne_eq, decide_eq_true_eq]
          exact fun h => hne (h ▸ rfl)
    rw [ih (hone _ rfl), List.filter_filter]
    congr 3
    funext q
    simp [Bool.and_comm]

lemma length_dropIncomes (insts : List Inst) (blocks : List Block) (removed : List (ℕ × ℕ)) :
    (dropIncomes insts blocks removed).length = insts.length := by
  induction removed generalizing insts with
  | nil => rfl
  | cons e removed ih =>
    rw [dropIncomes, List.foldl_cons, ← dropIncomes, ih]
    split
    · rfl
    · simp [dropIncome]

/-- `f'` is `f` with some branches turned into jumps to one of their targets, the phi entries of
the edges that are gone dropped, and other instructions replaced by ones that read no more. -/
structure Trimmed (f f' : FunctionSsa) : Prop where
  tables : f' = { f with insts := f'.insts, blocks := f'.blocks }
  numBlocks : f'.blocks.length = f.blocks.length
  numInsts : f'.insts.length = f.insts.length
  block : ∀ (b : ℕ) blk, f.blocks[b]? = some blk → ∃ blk', f'.blocks[b]? = some blk' ∧
    blk'.instRange = blk.instRange ∧ blk'.exitAcc = blk.exitAcc ∧
    (blk'.terminator = blk.terminator ∨ ∃ t, blk'.terminator = .jmp t ∧
      t ∈ successors blk.terminator f.computedGotoTargets f.jumpTables)
  phi : ∀ (b v : ℕ) incoming kind, InBlock f v b → f.insts[v]? = some (.phi incoming kind) →
    f'.insts[v]? = some (.phi
      (incoming.filter fun q => f.graph.Edge q.1 b → f'.graph.Edge q.1 b) kind)
  other : ∀ (v : ℕ) inst, f.insts[v]? = some inst → inst.isPhi = false →
    ∃ inst', f'.insts[v]? = some inst' ∧ inst'.isPhi = false ∧
      ∀ o ∈ inst'.operands, o ∈ inst.operands

namespace Trimmed

variable {f f' : FunctionSsa}

/-- A function with instructions other than phis replaced in place is a trimmed one. -/
lemma of_insts {insts : List Inst} (hlen : insts.length = f.insts.length)
    (hphi : ∀ (v : ℕ) inst, f.insts[v]? = some inst → inst.isPhi = true → insts[v]? = some inst)
    (hother : ∀ (v : ℕ) inst, f.insts[v]? = some inst → inst.isPhi = false →
      ∃ inst', insts[v]? = some inst' ∧ inst'.isPhi = false ∧
        ∀ o ∈ inst'.operands, o ∈ inst.operands) : Trimmed f { f with insts } where
  tables := rfl
  numBlocks := rfl
  numInsts := hlen
  block b blk hblk := ⟨blk, hblk, rfl, rfl, Or.inl rfl⟩
  phi b v incoming kind _ hinst := by
    have hall : (incoming.filter fun q => f.graph.Edge q.1 b →
        ({ f with insts } : FunctionSsa).graph.Edge q.1 b) = incoming :=
      List.filter_eq_self.mpr fun q _ => decide_eq_true id
    rw [hall]
    exact hphi v _ hinst rfl
  other := hother

/-- A block of the trimmed function comes from one of the function. -/
lemma block_inv (h : Trimmed f f') {b : ℕ} {blk' : Block} (hblk' : f'.blocks[b]? = some blk') :
    ∃ blk, f.blocks[b]? = some blk ∧ blk'.instRange = blk.instRange ∧
      blk'.exitAcc = blk.exitAcc ∧ (blk'.terminator = blk.terminator ∨
        ∃ t, blk'.terminator = .jmp t ∧
          t ∈ successors blk.terminator f.computedGotoTargets f.jumpTables) := by
  have hlt : b < f.blocks.length := by
    rw [← h.numBlocks]
    exact (List.getElem?_eq_some_iff.mp hblk').1
  obtain ⟨blk₁, hblk₁, hrest⟩ := h.block b _ (List.getElem?_eq_getElem hlt)
  obtain rfl := Option.some.inj (hblk'.symm.trans hblk₁)
  exact ⟨_, List.getElem?_eq_getElem hlt, hrest⟩

lemma tables_eq (h : Trimmed f f') :
    f'.computedGotoTargets = f.computedGotoTargets ∧ f'.jumpTables = f.jumpTables := by
  rw [h.tables]
  exact ⟨rfl, rfl⟩

lemma inBlock_iff (h : Trimmed f f') {v b : ℕ} : InBlock f' v b ↔ InBlock f v b := by
  constructor
  · rintro ⟨blk', hblk', hin⟩
    obtain ⟨blk, hblk, hr, -⟩ := h.block_inv hblk'
    exact ⟨blk, hblk, hr ▸ hin⟩
  · rintro ⟨blk, hblk, hin⟩
    obtain ⟨blk', hblk', hr, -⟩ := h.block b blk hblk
    exact ⟨blk', hblk', hr ▸ hin⟩

/-- No edge is new. -/
lemma edge (h : Trimmed f f') {a b : ℕ} (hab : f'.graph.Edge a b) : f.graph.Edge a b := by
  obtain ⟨blk', hblk', hb⟩ := FunctionSsa.graph_edge.mp hab
  obtain ⟨blk, hblk, -, -, hterm⟩ := h.block_inv hblk'
  rw [h.tables_eq.1, h.tables_eq.2] at hb
  refine FunctionSsa.graph_edge.mpr ⟨blk, hblk, ?_⟩
  rcases hterm with hterm | ⟨t, hterm, ht⟩
  · exact hterm ▸ hb
  · rw [hterm] at hb
    simp only [successors, List.mem_singleton] at hb
    exact hb ▸ ht

lemma reach (h : Trimmed f f') {b : ℕ} (hb : f'.graph.Reach b) : f.graph.Reach b :=
  ReachVia.mono (fun _ _ => h.edge) (fun _ _ => trivial) hb

lemma available (h : Trimmed f f') {v b : ℕ} {pc : Option ℕ} (hb : f'.graph.Reach b)
    (hv : Available f v b pc) : Available f' v b pc := by
  obtain ⟨db, hin, hlt, hdom⟩ := hv
  exact ⟨db, h.inBlock_iff.mpr hin, hlt, fun hne =>
    (hdom hne).of_subgraph (fun _ _ => h.edge) hb⟩

/-- A phi of the trimmed function comes from a phi. -/
lemma phi_inv (h : Trimmed f f') (hf : Verified f) {b v : ℕ} {incoming' : List (ℕ × ℕ)}
    {kind : LoadKind} (hin : InBlock f v b) (hinst' : f'.insts[v]? = some (.phi incoming' kind)) :
    ∃ incoming, f.insts[v]? = some (.phi incoming kind) ∧
      incoming' = incoming.filter fun q => f.graph.Edge q.1 b → f'.graph.Edge q.1 b := by
  obtain ⟨blk, hblk, hv⟩ := id hin
  have hlt : v < f.insts.length := by
    have := hf.range b blk hblk
    omega
  have hinst := List.getElem?_eq_getElem hlt
  cases hcase : f.insts[v] with
  | phi incoming kind₀ =>
    rw [hcase] at hinst
    have := h.phi b v incoming kind₀ hin hinst
    rw [hinst'] at this
    obtain ⟨rfl, rfl⟩ := Inst.phi.inj (Option.some.inj this)
    exact ⟨incoming, hinst, rfl⟩
  | _ =>
    obtain ⟨inst', hi, hphi, -⟩ := h.other v _ hinst (by rw [hcase]; rfl)
    rw [hinst'] at hi
    rw [← Option.some.inj hi] at hphi
    cases hphi

/-- An instruction of the trimmed function that is no phi comes from one that reads all it
reads. -/
lemma other_inv (h : Trimmed f f') {b v : ℕ} {inst' : Inst} (hin : InBlock f v b)
    (hinst' : f'.insts[v]? = some inst') (hphi : inst'.isPhi = false) :
    ∃ inst, f.insts[v]? = some inst ∧ inst.isPhi = false ∧
      ∀ o ∈ inst'.operands, o ∈ inst.operands := by
  have hlt : v < f.insts.length := by
    rw [← h.numInsts]
    exact (List.getElem?_eq_some_iff.mp hinst').1
  have hinst := List.getElem?_eq_getElem hlt
  cases hcase : (f.insts[v]).isPhi with
  | false =>
    obtain ⟨i, hi, -, hops⟩ := h.other v _ hinst hcase
    obtain rfl := Option.some.inj (hinst'.symm.trans hi)
    exact ⟨_, hinst, hcase, hops⟩
  | true =>
    cases hi : f.insts[v] with
    | phi incoming kind =>
      rw [hi] at hinst
      rw [h.phi b v incoming kind hin hinst] at hinst'
      rw [← Option.some.inj hinst'] at hphi
      cases hphi
    | _ => rw [hi] at hcase; cases hcase

/-- A trimmed function names no block and no value that did not exist. -/
lemma names (h : Trimmed f f') (hf : Verified f) {b : ℕ} {blk' : Block}
    (hblk' : f'.blocks[b]? = some blk') :
    ∀ v ∈ Verify.blockReads f' blk', v ≠ noValue → v < f'.insts.length := by
  obtain ⟨blk, hblk, hr, hacc, hterm⟩ := h.block_inv hblk'
  intro v hv hne
  rw [h.numInsts]
  refine hf.names b blk hblk v ?_ hne
  simp only [Verify.blockReads, List.append_assoc, List.mem_append, List.mem_flatMap,
    List.mem_singleton] at hv ⊢
  rcases hv with ⟨pc, hpc, hv⟩ | hv | hv
  · left
    refine ⟨pc, hr ▸ hpc, ?_⟩
    have hin : InBlock f pc b := ⟨blk, hblk, InstRange.mem_toList.mp (hr ▸ hpc)⟩
    cases hinst' : f'.insts[pc]? with
    | none => simp [hinst'] at hv
    | some inst' =>
      simp only [hinst', Option.map_some, Option.getD_some] at hv
      cases hphi : inst'.isPhi with
      | false =>
        obtain ⟨inst, hinst, -, hops⟩ := h.other_inv hin hinst' hphi
        simpa [hinst] using hops v hv
      | true =>
        cases inst' with
        | phi incoming' kind =>
          obtain ⟨incoming, hinst, rfl⟩ := h.phi_inv hf hin hinst'
          simp only [hinst, Option.map_some, Option.getD_some]
          simp only [Inst.operands, List.mem_map] at hv ⊢
          obtain ⟨q, hq, rfl⟩ := hv
          exact ⟨q, (List.mem_filter.mp hq).1, rfl⟩
        | _ => cases hphi
  · right; left
    rcases hterm with hterm | ⟨t, hterm, -⟩
    · exact hterm ▸ hv
    · simp [hterm, Terminator.operands] at hv
  · exact Or.inr (Or.inr (hv.trans hacc))

/-- A trimmed function keeps the rules. -/
theorem verified (h : Trimmed f f') (hf : Verified f) : Verified f' where
  range b blk' hblk' := by
    obtain ⟨blk, hblk, hr, -⟩ := h.block_inv hblk'
    rw [hr, h.numInsts]
    exact hf.range b blk hblk
  disjoint v b c hb hc := hf.disjoint v b c (h.inBlock_iff.mp hb) (h.inBlock_iff.mp hc)
  emptyOutside b blk' hblk' h1 h2 h3 := by
    obtain ⟨blk, hblk, hr, -⟩ := h.block_inv hblk'
    rw [hr] at h1 h2 h3 ⊢
    simp only [h.inBlock_iff]
    exact hf.emptyOutside b blk hblk h1 h2 (h.numInsts ▸ h3)
  gotoTargets := by
    rw [h.tables_eq.1, h.numBlocks]
    exact hf.gotoTargets
  targets b blk' hblk' := by
    obtain ⟨blk, hblk, -, -, hterm⟩ := h.block_inv hblk'
    have ht := hf.targets b blk hblk
    rcases hterm with hterm | ⟨t, hterm, hmem⟩
    · rw [hterm]
      revert ht
      cases blk.terminator <;> simp only [TargetsExist, h.numBlocks, h.tables_eq.2] <;> exact id
    · rw [hterm, TargetsExist, h.numBlocks]
      exact ht.successors_lt hf.gotoTargets t hmem
  names b blk' hblk' := h.names hf hblk'
  reads b pc inst' hb hpc hinst' hphi v hv hne := by
    have hpc := h.inBlock_iff.mp hpc
    obtain ⟨inst, hinst, hphi', hops⟩ := h.other_inv hpc hinst' hphi
    exact h.available hb (hf.reads b pc inst (h.reach hb) hpc hinst hphi' v (hops v hv) hne)
  phisFirst b pc i inst' hb hpc hi hlt hinst' hphi := by
    have hpc := h.inBlock_iff.mp hpc
    have hi := h.inBlock_iff.mp hi
    cases inst' with
    | phi incoming' kind =>
      obtain ⟨incoming, hinst, -⟩ := h.phi_inv hf hpc hinst'
      obtain ⟨inst₀, hinst₀, hphi₀⟩ := hf.phisFirst b pc i _ (h.reach hb) hpc hi hlt hinst rfl
      cases inst₀ with
      | phi incoming₀ kind₀ => exact ⟨_, h.phi b i incoming₀ kind₀ hi hinst₀, rfl⟩
      | _ => cases hphi₀
    | _ => cases hphi
  phiEdges b pc incoming' kind hb hpc hinst' q hq := by
    have hpc := h.inBlock_iff.mp hpc
    obtain ⟨incoming, hinst, rfl⟩ := h.phi_inv hf hpc hinst'
    obtain ⟨hmem, hkeep⟩ := List.mem_filter.mp hq
    obtain ⟨hedge, hav⟩ := hf.phiEdges b pc incoming kind (h.reach hb) hpc hinst q hmem
    exact ⟨of_decide_eq_true hkeep hedge, fun hne hq' => h.available hq' (hav hne (h.reach hq'))⟩
  phiComplete b pc incoming' kind hb hpc hinst' p hp hreach := by
    have hpc := h.inBlock_iff.mp hpc
    obtain ⟨incoming, hinst, rfl⟩ := h.phi_inv hf hpc hinst'
    obtain ⟨v, hv⟩ := hf.phiComplete b pc incoming kind (h.reach hb) hpc hinst p (h.edge hp)
      (h.reach hreach)
    exact ⟨v, List.mem_filter.mpr ⟨hv, decide_eq_true fun _ => hp⟩⟩
  ends b blk' hblk' hb v hv hne := by
    obtain ⟨blk, hblk, -, hacc, hterm⟩ := h.block_inv hblk'
    refine h.available hb (hf.ends b blk hblk (h.reach hb) v ?_ hne)
    rw [hacc] at hv
    rcases hterm with hterm | ⟨t, hterm, -⟩
    · exact hterm ▸ hv
    · simp only [hterm, Terminator.operands, List.nil_append] at hv
      exact List.mem_append_right _ hv

/-- Over an edge that is still there, a block's phis take the values they took. -/
lemma enterRegs_eq (h : Trimmed f f') (hf : Verified f) {p b : ℕ} {blk blk' : Block} {regs : Regs}
    (hblk : f.blocks[b]? = some blk) (hblk' : f'.blocks[b]? = some blk')
    (hedge : f'.graph.Edge p b) : enterRegs f' p blk' regs = enterRegs f p blk regs := by
  obtain ⟨blk₁, hblk₁, hr, -⟩ := h.block_inv hblk'
  obtain rfl := Option.some.inj (hblk.symm.trans hblk₁)
  funext v
  by_cases hin : InBlock f v b
  · cases hinst' : f'.insts[v]? with
    | none =>
      obtain ⟨blk₂, hblk₂, hv⟩ := hin
      have hlt := hf.range b blk₂ hblk₂
      rw [List.getElem?_eq_none_iff, h.numInsts] at hinst'
      omega
    | some inst' =>
      cases hphi : inst'.isPhi with
      | false =>
        obtain ⟨inst, hinst, hphi₀, -⟩ := h.other_inv hin hinst' hphi
        rw [enterRegs_of_not_phi hinst' hphi, enterRegs_of_not_phi hinst hphi₀]
      | true =>
        cases inst' with
        | phi incoming' kind =>
          obtain ⟨incoming, hinst, rfl⟩ := h.phi_inv hf hin hinst'
          rw [enterRegs_of_phi hblk' (h.inBlock_iff.mpr hin) hinst',
            enterRegs_of_phi hblk hin hinst, phiValue, phiValue, List.find?_filter]
          congr 2
          funext q
          by_cases hq : q.1 = p
          · simp [hq, hedge]
          · simp [hq]
        | _ => cases hphi
  · rw [enterRegs_of_notMem hblk' (fun h' => hin (h.inBlock_iff.mp h')),
      enterRegs_of_notMem hblk hin]

/-- A run of the trimmed function takes each step of a run, where a jump that replaces a branch
goes where the branch went and each instruction does what it did. -/
theorem step {m : Machine} {s : State m.Ext} {r : Status m.Ext} (h : Trimmed f f')
    (hf : Verified f)
    (hexec : ∀ inst inst' r', f.insts[s.pc]? = some inst → f'.insts[s.pc]? = some inst' →
      InBlock f s.pc s.block → inst.isPhi = false → m.exec f s.pc s.regs s.world inst = some r' →
      m.exec f s.pc s.regs s.world inst' = some r')
    (hterm : ∀ blk blk' t b, f.blocks[s.block]? = some blk → f'.blocks[s.block]? = some blk' →
      blk.instRange.stop ≤ s.pc → blk'.terminator = .jmp t → blk.terminator ≠ .jmp t →
      m.branchTo f s blk.terminator = some b → b = t)
    (hplaced : ∀ blk, f.blocks[s.block]? = some blk → blk.instRange.start ≤ s.pc)
    (hr : m.step f s = some r) : m.step f' s = some r := by
  have hexec_eq : ∀ inst, m.exec f' s.pc s.regs s.world inst =
      m.exec f s.pc s.regs s.world inst := by
    intro inst
    rw [h.tables]
    rfl
  have hbranch_eq : ∀ term, m.branchTo f' s term = m.branchTo f s term := by
    intro term
    rw [h.tables]
    rfl
  unfold Machine.step at hr ⊢
  cases hblk : f.blocks[s.block]? with
  | none => simp [hblk] at hr
  | some blk =>
    obtain ⟨blk', hblk', hrange, -, hcase⟩ := h.block s.block blk hblk
    simp only [hblk, hblk', hrange] at hr ⊢
    split at hr
    · rename_i hlt
      have hin : InBlock f s.pc s.block := ⟨blk, hblk, hplaced blk hblk, hlt⟩
      rw [if_pos hlt]
      cases hinst : f.insts[s.pc]? with
      | none => simp [hinst] at hr
      | some inst =>
        simp only [hinst] at hr
        obtain ⟨r', hr', hs⟩ := Option.map_eq_some_iff.mp hr
        cases hphi : inst.isPhi with
        | false =>
          obtain ⟨inst', hinst', -⟩ := h.other s.pc inst hinst hphi
          simp only [hinst']
          rw [hexec_eq, hexec inst inst' r' hinst hinst' hin hphi hr']
          exact congrArg some hs
        | true =>
          cases inst with
          | phi incoming kind =>
            simp only [h.phi s.block s.pc incoming kind hin hinst]
            rw [Machine.exec_phi rfl] at hr' ⊢
            rw [Option.map_some, Option.some.inj hr']
            exact congrArg some hs
          | _ => cases hphi
    · rename_i hge
      rw [if_neg hge]
      -- Entering a block over a surviving edge is the same in both functions.
      have hgo : ∀ b, f'.graph.Edge s.block b → s.goTo f' b = s.goTo f b := by
        intro b hedge
        have hlt : b < f.blocks.length := by
          have := FunctionSsa.graph_closed hf.gotoTargets hf.targets _ _ (h.edge hedge)
          rwa [f.graph_size] at this
        have hb := List.getElem?_eq_getElem hlt
        obtain ⟨blkb', hb', hrb, -⟩ := h.block b _ hb
        simp only [State.goTo, hb, hb', Option.map_some, hrb,
          h.enterRegs_eq hf hb hb' hedge]
      rcases hcase with hsame | ⟨t, hjmp, ht⟩
      · rw [hsame]
        have hedge : ∀ b, m.branchTo f s blk.terminator = some b → f'.graph.Edge s.block b := by
          intro b hb
          refine Machine.branchTo_edge (m := m) hblk' ?_
          rw [hsame, hbranch_eq]
          exact hb
        have hleave : m.leave f' s blk.terminator = m.leave f s blk.terminator := by
          unfold Machine.leave
          split
          · rfl
          · rfl
          · rw [hbranch_eq]
            cases hb : m.branchTo f s blk.terminator with
            | none => rfl
            | some b => simp only [Option.bind_some, hgo b (hedge b hb)]
        rw [hleave]
        exact hr
      · by_cases hold : blk.terminator = .jmp t
        · rw [hjmp, ← hold]
          have hedge : f'.graph.Edge s.block t :=
            Machine.branchTo_edge (m := m) hblk' (by rw [hjmp]; rfl)
          rw [hold] at hr ⊢
          simp only [Machine.leave, Machine.branchTo, Option.bind_some] at hr ⊢
          rw [hgo t hedge]
          exact hr
        · have hleave : (m.branchTo f s blk.terminator).bind
              (fun b => (s.goTo f b).map Status.running) = some r := by
            revert hr
            unfold Machine.leave
            split
            · rename_i v hret
              rw [hret] at ht
              simp [successors] at ht
            · rename_i v hret
              rw [hret] at ht
              simp [successors] at ht
            · exact id
          obtain ⟨b, hb, hgoto⟩ := Option.bind_eq_some_iff.mp hleave
          obtain rfl := hterm blk blk' t b hblk hblk' (not_lt.mp hge) hjmp hold hb
          have hedge : f'.graph.Edge s.block b :=
            Machine.branchTo_edge (m := m) hblk' (by rw [hjmp]; rfl)
          rw [hjmp]
          simp only [Machine.leave, Machine.branchTo, Option.bind_some]
          rw [hgo b hedge]
          exact hgoto

end Trimmed

end Badc
