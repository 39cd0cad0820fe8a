import Badc.Passes.PhiMerge
import Badc.Ssa.Trim

/-!
# Folding decided branches

`run_one` of `src/c5/codegen/passes/constfold_branch.rs`: a conditional branch whose condition is
known zero or known non-zero, and a jump table whose index is known, become jumps.  An immediate
decides directly; a phi decides when every entry does, counting the edge a short-circuit operand
arrives on (`edgeTruth`).
-/

namespace Badc

namespace ConstfoldBranch

/-- The truth `val` must have on the edge `pred → here`, when `pred` ended in a branch on `val`
itself.  A branch with both arms at the same block decides nothing. -/
def edgeTruth (f : FunctionSsa) (pred here val : ℕ) : Option Bool :=
  let decide := fun cond zeroEdge nonzeroEdge =>
    if cond ≠ val ∨ zeroEdge = nonzeroEdge then none
    else if here = zeroEdge then some false
    else if here = nonzeroEdge then some true
    else none
  match (f.blocks[pred]?).map Block.terminator with
  | some (.bz cond target fallThrough) => decide cond target fallThrough
  | some (.bnz cond target fallThrough) => decide cond fallThrough target
  | _ => none

/-- Recursion budget for the truthiness merge. -/
def truthDepth : ℕ := 4

/-- Whether an immediate is zero or not. -/
def truthyLeaf (f : FunctionSsa) (v : ℕ) : Option Bool :=
  match f.insts[v]? with
  | some (.imm k) => some (k ≠ 0)
  | _ => none

/-- Whether `v` is zero or not wherever it is used as a branch condition. -/
def truthy (f : FunctionSsa) (blockOf : ℕ → Option ℕ) : ℕ → ℕ → Option Bool
  | 0, v => truthyLeaf f v
  | depth + 1, v =>
    match f.insts[v]? with
    | some (.phi incoming _) =>
      match blockOf v with
      | none => none
      | some here =>
        (agree (fun q => (edgeTruth f q.1 here q.2).or (truthy f blockOf depth q.2))
          incoming).join
    | _ => truthyLeaf f v

/-- Resolve `v` to a constant. -/
def fold (insts : List Inst) (v : ℕ) : Option Word := immThroughPhis insts [] v

/-- The jump a decided branch becomes, and the successors that lose the edge. -/
def jumpTo (taken notTaken : ℕ) : Terminator × List ℕ :=
  (.jmp taken, if notTaken ≠ taken then [notTaken] else [])

/-- What the pass makes of a terminator, with the successors it no longer reaches. -/
def newTerm (f : FunctionSsa) (term : Terminator) : Option (Terminator × List ℕ) :=
  match term with
  | .bz cond target fallThrough =>
      (truthy f (blockIndex f) truthDepth cond).map fun nz =>
        if nz then jumpTo fallThrough target else jumpTo target fallThrough
  | .bnz cond target fallThrough =>
      (truthy f (blockIndex f) truthDepth cond).map fun nz =>
        if nz then jumpTo target fallThrough else jumpTo fallThrough target
  | .jumpTable idx table => do
      let k ← fold f.insts idx
      let taken ← (f.jumpTables.getD table [])[k.toNat]?
      return (.jmp taken, (f.jumpTables.getD table []).foldl
        (fun dropped t => if t ≠ taken ∧ t ∉ dropped then dropped ++ [t] else dropped) [])
  | _ => none

/-- The block after the pass. -/
def newBlock (f : FunctionSsa) (blk : Block) : Block :=
  match newTerm f blk.terminator with
  | some (term, _) => { blk with terminator := term }
  | none => blk

/-- The edges the pass removes. -/
def removedEdges (f : FunctionSsa) : List (ℕ × ℕ) :=
  f.blocks.zipIdx.flatMap fun p =>
    match newTerm f p.1.terminator with
    | some (_, dropped) => dropped.map fun t => (p.2, t)
    | none => []

/-- Fold every decided terminator of `f`, and whether any terminator changed. -/
def runOne (f : FunctionSsa) : FunctionSsa × Bool :=
  let blocks := f.blocks.map (newBlock f)
  ({ f with insts := dropIncomes f.insts blocks (removedEdges f), blocks },
    f.blocks.any fun blk => (newTerm f blk.terminator).isSome)

/-! ## The shape of the result -/

variable {f : FunctionSsa}

/-- Collecting the entries of a table other than one keeps exactly those. -/
lemma mem_foldl_dropped (l acc : List ℕ) (taken x : ℕ) :
    x ∈ l.foldl (fun dropped t => if t ≠ taken ∧ t ∉ dropped then dropped ++ [t] else dropped) acc ↔
      x ∈ acc ∨ x ∈ l ∧ x ≠ taken := by
  induction l generalizing acc with
  | nil => simp
  | cons t l ih =>
    rw [List.foldl_cons, ih]
    by_cases ht : t ≠ taken ∧ t ∉ acc
    · rw [if_pos ht, List.mem_append, List.mem_singleton, List.mem_cons]
      constructor
      · rintro ((h | rfl) | ⟨h, hne⟩)
        · exact Or.inl h
        · exact Or.inr ⟨Or.inl rfl, ht.1⟩
        · exact Or.inr ⟨Or.inr h, hne⟩
      · rintro (h | ⟨rfl | h, hne⟩)
        · exact Or.inl (Or.inl h)
        · exact Or.inl (Or.inr rfl)
        · exact Or.inr ⟨h, hne⟩
    · rw [if_neg ht, List.mem_cons]
      constructor
      · rintro (h | ⟨h, hne⟩)
        · exact Or.inl h
        · exact Or.inr ⟨Or.inr h, hne⟩
      · rintro (h | ⟨rfl | h, hne⟩)
        · exact Or.inl h
        · left
          by_contra hx
          exact ht ⟨hne, hx⟩
        · exact Or.inr ⟨h, hne⟩

/-- A new terminator is a jump to a successor, and the other successors are dropped. -/
lemma newTerm_spec {term term' : Terminator} {dropped : List ℕ}
    (h : newTerm f term = some (term', dropped)) :
    ∃ taken, term' = .jmp taken ∧ taken ∈ successors term f.computedGotoTargets f.jumpTables ∧
      ∀ x, x ∈ dropped ↔ x ∈ successors term f.computedGotoTargets f.jumpTables ∧ x ≠ taken := by
  have htwo : ∀ taken notTaken, ∀ x, x ∈ (jumpTo taken notTaken).2 ↔
      (x = taken ∨ x = notTaken) ∧ x ≠ taken := by
    intro taken notTaken x
    unfold jumpTo
    split <;> grind
  cases term with
  | bz cond t e | bnz cond t e =>
    obtain ⟨nz, -, hnz⟩ := Option.map_eq_some_iff.mp h
    cases nz
    all_goals
      obtain ⟨rfl, rfl⟩ := Prod.ext_iff.mp hnz.symm
      refine ⟨_, rfl, by simp [successors], fun x => ?_⟩
      simp only [Bool.false_eq_true, if_true, if_false, htwo, successors, List.mem_cons,
        List.not_mem_nil, or_false]
      try rw [or_comm]
  | jumpTable idx table =>
    simp only [newTerm, bind, Option.bind_eq_some_iff, pure, Option.some.injEq,
      Prod.mk.injEq] at h
    obtain ⟨k, -, taken, htaken, rfl, rfl⟩ := h
    refine ⟨taken, rfl, ?_, fun x => ?_⟩
    · rw [successors, mem_foldl_insert_end]
      exact Or.inr (List.mem_of_getElem? htaken)
    · rw [successors, mem_foldl_insert_end, mem_foldl_dropped]
      simp
  | _ => cases h

lemma getElem?_runOne_blocks (b : ℕ) :
    (runOne f).1.blocks[b]? = (f.blocks[b]?).map (newBlock f) := by
  simp [runOne]

lemma newBlock_instRange (blk : Block) : (newBlock f blk).instRange = blk.instRange := by
  unfold newBlock
  split <;> rfl

/-- The removed edges are the edges of `f` that the result lacks. -/
lemma mem_removedEdges {p b : ℕ} :
    (p, b) ∈ removedEdges f ↔ f.graph.Edge p b ∧ ¬ (runOne f).1.graph.Edge p b := by
  have hmem : (p, b) ∈ removedEdges f ↔ ∃ blk term dropped, f.blocks[p]? = some blk ∧
      newTerm f blk.terminator = some (term, dropped) ∧ b ∈ dropped := by
    simp only [removedEdges, List.mem_flatMap, Prod.exists, List.mem_zipIdx_iff_getElem?]
    constructor
    · rintro ⟨blk, p', hblk, hin⟩
      split at hin
      · rename_i term dropped hterm
        obtain ⟨t, ht, heq⟩ := List.mem_map.mp hin
        obtain ⟨rfl, rfl⟩ := Prod.mk.inj heq
        exact ⟨blk, term, dropped, hblk, hterm, ht⟩
      · cases hin
    · rintro ⟨blk, term, dropped, hblk, hterm, hb⟩
      refine ⟨blk, p, hblk, ?_⟩
      rw [hterm]
      exact List.mem_map.mpr ⟨b, hb, rfl⟩
  rw [hmem]
  constructor
  · rintro ⟨blk, term, dropped, hblk, hterm, hb⟩
    obtain ⟨taken, rfl, -, hdrop⟩ := newTerm_spec hterm
    obtain ⟨hsucc, hne⟩ := (hdrop b).mp hb
    refine ⟨FunctionSsa.graph_edge.mpr ⟨blk, hblk, hsucc⟩, fun hedge => ?_⟩
    obtain ⟨blk', hblk', hin⟩ := FunctionSsa.graph_edge.mp hedge
    rw [getElem?_runOne_blocks, hblk] at hblk'
    obtain rfl := Option.some.inj hblk'
    simp only [newBlock, hterm, successors, List.mem_singleton] at hin
    exact hne hin
  · rintro ⟨hedge, hnot⟩
    obtain ⟨blk, hblk, hin⟩ := FunctionSsa.graph_edge.mp hedge
    have hblk' : (runOne f).1.blocks[p]? = some (newBlock f blk) := by
      rw [getElem?_runOne_blocks, hblk, Option.map_some]
    cases hterm : newTerm f blk.terminator with
    | none =>
      refine absurd (FunctionSsa.graph_edge.mpr ⟨_, hblk', ?_⟩) hnot
      simp only [newBlock, hterm]
      exact hin
    | some r =>
      obtain ⟨term, dropped⟩ := r
      obtain ⟨taken, rfl, -, hdrop⟩ := newTerm_spec hterm
      refine ⟨blk, _, dropped, hblk, hterm, (hdrop b).mpr ⟨hin, fun hb => hnot ?_⟩⟩
      refine FunctionSsa.graph_edge.mpr ⟨_, hblk', ?_⟩
      simp [newBlock, hterm, successors, hb]

/-- The result is the function with some branches dropped. -/
lemma trimmed_runOne (hf : Verified f) : Trimmed f (runOne f).1 where
  tables := rfl
  numBlocks := by simp [runOne]
  numInsts := by simp [runOne, length_dropIncomes]
  block b blk hblk := by
    refine ⟨newBlock f blk, by rw [getElem?_runOne_blocks, hblk, Option.map_some],
      newBlock_instRange blk, ?_⟩
    unfold newBlock
    split
    · rename_i term dropped hterm
      obtain ⟨taken, rfl, htaken, -⟩ := newTerm_spec hterm
      exact ⟨rfl, Or.inr ⟨taken, rfl, htaken⟩⟩
    · exact ⟨rfl, Or.inl rfl⟩
  phi b v incoming kind hin hinst := by
    obtain ⟨blk, hblk, hv⟩ := id hin
    have hblk' : (f.blocks.map (newBlock f))[b]? = some (newBlock f blk) := by simp [hblk]
    have hrun : (runOne f).1.insts[v]? =
        some (.phi (incoming.filter fun q => (q.1, b) ∉ removedEdges f) kind) := by
      refine getElem?_dropIncomes_of_phi hblk'
        (InstRange.mem_toList.mpr (newBlock_instRange (f := f) blk ▸ hv)) ?_ hinst
      intro c blk' hc hvc
      rw [List.getElem?_map] at hc
      obtain ⟨blk₀, hblk₀, rfl⟩ := Option.map_eq_some_iff.mp hc
      rw [newBlock_instRange] at hvc
      exact hf.disjoint v c b ⟨blk₀, hblk₀, InstRange.mem_toList.mp hvc⟩ hin
    rw [hrun]
    congr 3
    funext q
    rw [decide_eq_decide, mem_removedEdges]
    tauto
  other v inst hinst hphi :=
    ⟨inst, getElem?_dropIncomes_of_not_phi hinst hphi, hphi, fun _ => id⟩

/-! ## Decided conditions -/

variable {m : Machine} {w : World m.Ext} {s : State m.Ext}

/-- The edge a run takes out of a branch on `v` has the truth of `v`. -/
lemma edgeTruth_sound (hfull : isMarked f.lowWordTests s.block = false) {blk : Block} {b v : ℕ}
    {x : Word} {t : Bool} (hblk : f.blocks[s.block]? = some blk)
    (hb : m.branchTo f s blk.terminator = some b) (hx : s.regs.word v = some x)
    (ht : edgeTruth f s.block b v = some t) : t = decide (x ≠ 0) := by
  unfold edgeTruth at ht
  rw [hblk, Option.map_some] at ht
  cases hterm : blk.terminator with
  | bz cond target other =>
    rw [hterm] at hb ht
    obtain ⟨y, hy, rfl⟩ := Machine.branchTo_bz hfull hb
    dsimp only at ht
    split at ht
    · cases ht
    · rename_i hcond
      simp only [ne_eq, not_or, not_not] at hcond
      obtain ⟨rfl, hne⟩ := hcond
      obtain rfl := Option.some.inj (hx.symm.trans hy)
      by_cases hx0 : x = 0 <;> grind
  | bnz cond target other =>
    rw [hterm] at hb ht
    obtain ⟨y, hy, rfl⟩ := Machine.branchTo_bnz hfull hb
    dsimp only at ht
    split at ht
    · cases ht
    · rename_i hcond
      simp only [ne_eq, not_or, not_not] at hcond
      obtain ⟨rfl, hne⟩ := hcond
      obtain rfl := Option.some.inj (hx.symm.trans hy)
      by_cases hx0 : x = 0 <;> grind
  | _ =>
    rw [hterm] at ht
    cases ht

/-- A held value decided zero or non-zero is so. -/
lemma truthy_sound (hf : Verified f) (hfull : ∀ b, isMarked f.lowWordTests b = false)
    (h : m.Reaches f w s) {u : ℕ} {x : Word} (hu : Held f s.block s.pc u)
    (hx : s.regs u = some (.word x)) {depth : ℕ} {t : Bool}
    (ht : truthy f (blockIndex f) depth u = some t) : t = decide (x ≠ 0) := by
  refine h.held_rule hf (fun u y => ∀ depth t, truthy f (blockIndex f) depth u = some t →
    ∀ x, y = .word x → t = decide (x ≠ 0)) ?_ ?_ hu hx depth t ht x rfl
  · intro s inst r y _ _ _ hinst hphi hr hy depth t ht x hyx
    have hleaf : truthyLeaf f s.pc = some t := by
      cases depth with
      | zero => exact ht
      | succ depth =>
        rw [truthy, hinst] at ht
        cases inst with
        | phi incoming kind => cases hphi
        | _ => exact ht
    rw [truthyLeaf, hinst] at hleaf
    cases inst with
    | imm k =>
      obtain ⟨k', hk', rfl⟩ := Machine.exec_pure rfl hr
      obtain rfl : k = k' := Option.some.inj hk'
      simp only [Regs.set_self, Option.some.injEq] at hy hleaf
      subst hy
      rw [← hleaf, Val.word.inj hyx]
    | _ => cases hleaf
  · intro s blk b v incoming kind o y hs hblk _ hb hin hinst ho hget ih depth t ht x hyx
    cases depth with
    | zero => simp [truthy, truthyLeaf, hinst] at ht
    | succ depth =>
      rw [truthy, hinst] at ht
      simp only [blockIndex_eq hf hin] at ht
      have hall := agree_eq_some (Option.join_eq_some_iff.mp ht) (s.block, o) ho
      rcases Option.or_eq_some_iff.mp hall with hedge | ⟨-, hrec⟩
      · subst hyx
        exact edgeTruth_sound (hfull s.block) hblk hb (Regs.word_eq_some.mpr hget) hedge
      · exact ih depth t hrec x hyx

/-- A jump that replaces a branch goes where the branch goes. -/
lemma newTerm_branchTo (hf : Verified f) (hfull : ∀ b, isMarked f.lowWordTests b = false)
    (hundef : ∀ (b : ℕ) blk idx table, f.blocks[b]? = some blk →
      blk.terminator = .jumpTable idx table → NoUndef f idx)
    (h : m.Reaches f w s) {blk : Block} {b t : ℕ} {dropped : List ℕ}
    (hblk : f.blocks[s.block]? = some blk) (hpc : blk.instRange.stop ≤ s.pc)
    (hnew : newTerm f blk.terminator = some (.jmp t, dropped))
    (hb : m.branchTo f s blk.terminator = some b) : b = t := by
  have hreach := (h.placed hf hblk).1
  -- The condition or index is held where the block ends.
  have hheld : ∀ v ∈ blk.terminator.operands, ∀ x, s.regs.word v = some x →
      Held f s.block s.pc v ∧ s.regs v = some (.word x) := by
    intro v hv x hx
    obtain ⟨hne, hreg⟩ := Regs.get_eq_some (Regs.word_eq_some.mp hx)
    exact ⟨(hf.ends _ blk hblk hreach v (List.mem_append_left _ hv) hne).held_end hblk hpc, hreg⟩
  cases hterm : blk.terminator with
  | bz cond target other =>
    rw [hterm] at hnew hb hheld
    obtain ⟨x, hx, rfl⟩ := Machine.branchTo_bz (hfull _) hb
    obtain ⟨hheld, hreg⟩ := hheld cond (by simp [Terminator.operands]) x hx
    obtain ⟨nz, hnz, hjmp⟩ := Option.map_eq_some_iff.mp hnew
    obtain rfl := truthy_sound hf hfull h hheld hreg hnz
    by_cases hx0 : x = 0
    · simp only [hx0, ne_eq, not_true, decide_false, Bool.false_eq_true, if_false, jumpTo,
        Prod.mk.injEq, Terminator.jmp.injEq] at hjmp
      simp [hx0, hjmp.1]
    · simp only [hx0, ne_eq, not_false_iff, decide_true, if_true, jumpTo, Prod.mk.injEq,
        Terminator.jmp.injEq] at hjmp
      rw [if_neg hx0, hjmp.1]
  | bnz cond target other =>
    rw [hterm] at hnew hb hheld
    obtain ⟨x, hx, rfl⟩ := Machine.branchTo_bnz (hfull _) hb
    obtain ⟨hheld, hreg⟩ := hheld cond (by simp [Terminator.operands]) x hx
    obtain ⟨nz, hnz, hjmp⟩ := Option.map_eq_some_iff.mp hnew
    obtain rfl := truthy_sound hf hfull h hheld hreg hnz
    by_cases hx0 : x = 0
    · simp only [hx0, ne_eq, not_true, decide_false, Bool.false_eq_true, if_false, jumpTo,
        Prod.mk.injEq, Terminator.jmp.injEq] at hjmp
      simp [hx0, hjmp.1]
    · simp only [hx0, ne_eq, not_false_iff, decide_true, if_true, jumpTo, Prod.mk.injEq,
        Terminator.jmp.injEq] at hjmp
      rw [if_neg hx0, hjmp.1]
  | jumpTable idx table =>
    rw [hterm] at hnew hb hheld
    simp only [newTerm, bind, Option.bind_eq_some_iff, pure, Option.some.injEq,
      Prod.mk.injEq, Terminator.jmp.injEq] at hnew
    obtain ⟨k, hk, taken, htaken, rfl, -⟩ := hnew
    simp only [Machine.branchTo, bind, Option.bind_eq_some_iff] at hb
    obtain ⟨x, hx, targets, htargets, hget⟩ := hb
    obtain ⟨hheld, hreg⟩ := hheld idx (by simp [Terminator.operands]) x hx
    obtain rfl : x = k := by
      have := h.immThroughPhis hf hheld hreg (hundef s.block blk idx table hblk hterm) hk
      exact Val.word.inj this
    rw [List.getD_eq_getElem?_getD, htargets, Option.getD_some, hget] at htaken
    exact Option.some.inj htaken
  | _ =>
    rw [hterm] at hnew
    cases hnew

/-- Folding decided branches keeps the path of every run and the value of every instruction on
it, drops exactly the phi entries of the edges that are gone, and leaves a function the check
accepts, where no branch reads a low word only and no jump table's index merges an indeterminate
value. -/
theorem constfoldBranch_preserves (hf : Verify.check f = .ok ())
    (hfull : ∀ b, isMarked f.lowWordTests b = false)
    (hundef : ∀ (b : ℕ) blk idx table, f.blocks[b]? = some blk →
      blk.terminator = .jumpTable idx table → NoUndef f idx) :
    (∀ (m : Machine) (w : World m.Ext) n r, m.run f n (m.initial f w) = some r →
      m.run (runOne f).1 n (m.initial (runOne f).1 w) = some r) ∧
    (∀ (b v : ℕ) incoming kind, InBlock f v b → f.insts[v]? = some (.phi incoming kind) →
      (runOne f).1.insts[v]? = some (.phi
        (incoming.filter fun q => f.graph.Edge q.1 b → (runOne f).1.graph.Edge q.1 b) kind)) ∧
    Verify.check (runOne f).1 = .ok () := by
  rw [check_eq_ok_iff] at hf ⊢
  have htrim := trimmed_runOne hf
  refine ⟨fun m w n r hr => ?_, htrim.phi, htrim.verified hf⟩
  refine Machine.run_eq_of_step ?_ (fun s hs r hr => ?_) hr
  · simp only [Machine.initial, getElem?_runOne_blocks, Option.map_map, Function.comp_def,
      newBlock_instRange]
  · refine htrim.step hf ?_ ?_ (fun blk hblk => (hs.placed hf hblk).2.1) hr
    · intro inst inst' r' hinst hinst' _ hphi hr'
      have : (runOne f).1.insts[s.pc]? = some inst := getElem?_dropIncomes_of_not_phi hinst hphi
      obtain rfl := Option.some.inj (this.symm.trans hinst')
      exact hr'
    · intro blk blk' t b hblk hblk' hpc hjmp hne hb
      rw [getElem?_runOne_blocks, hblk, Option.map_some] at hblk'
      obtain rfl := Option.some.inj hblk'
      cases hnew : newTerm f blk.terminator with
      | none => simp only [newBlock, hnew] at hjmp; exact absurd hjmp hne
      | some r =>
        obtain ⟨term, dropped⟩ := r
        simp only [newBlock, hnew] at hjmp
        subst hjmp
        exact newTerm_branchTo hf hfull hundef hs hblk hpc hnew hb

/-- A jump table over a constant index, whose second target merges both ways in. -/
def constIndex : FunctionSsa where
  insts := [.imm 1, .phi [(0, 0), (1, 0)] .i64]
  blocks := [{ instRange := ⟨0, 1⟩, terminator := .jumpTable 0 0 },
    { instRange := ⟨1, 1⟩, terminator := .jmp 2 },
    { instRange := ⟨1, 2⟩, terminator := .ret 1 }]
  jumpTables := [[1, 2]]

/-- The constant index is folded, the run still returns 1, and the result passes the check. -/
theorem constfoldBranch_preserves_constIndex :
    (runOne constIndex).2 = true ∧
    Machine.null.run (runOne constIndex).1 4 (Machine.null.initial (runOne constIndex).1 .null) =
      some (.returned (some (.word 1)) .null) ∧
    Verify.check (runOne constIndex).1 = .ok () := by
  have hundef : ∀ (b : ℕ) blk idx table, constIndex.blocks[b]? = some blk →
      blk.terminator = .jumpTable idx table → NoUndef constIndex idx := by
    intro b blk idx table hblk hterm
    have hidx : idx = 0 := by
      have := List.mem_of_getElem? hblk
      simp only [constIndex, List.mem_cons, List.not_mem_nil, or_false] at this
      rcases this with rfl | rfl | rfl
      · exact (Terminator.jumpTable.inj hterm).1.symm
      · cases hterm
      · cases hterm
    subst hidx
    intro u hu
    cases hu with
    | refl => simp [constIndex]
    | income hphi => cases hphi
  have h := constfoldBranch_preserves (f := constIndex) rfl (fun b => by simp [isMarked, constIndex]) hundef
  exact ⟨rfl, h.1 Machine.null .null 4 _ rfl, h.2.2⟩

/-- A branch on `1 << 32` that reads the low word of its condition. -/
def lowWordBranch : FunctionSsa where
  insts := [.imm (BitVec.ofNat 64 (2 ^ 32))]
  blocks := [{ instRange := ⟨0, 1⟩, terminator := .bz 0 1 2 },
    { instRange := ⟨1, 1⟩, terminator := .ret noValue },
    { instRange := ⟨1, 1⟩, terminator := .ret noValue }]
  lowWordTests := [true]

/-- A jump table whose index merges an indeterminate value and the constant 1. -/
def undefIndex : FunctionSsa where
  insts := [.undef, .imm 1, .paramRef 0 .i64, .phi [(0, 0), (1, 1)] .i64]
  blocks := [{ instRange := ⟨0, 3⟩, terminator := .bz 2 2 1 },
    { instRange := ⟨3, 3⟩, terminator := .jmp 2 },
    { instRange := ⟨3, 4⟩, terminator := .jumpTable 3 0 },
    { instRange := ⟨4, 4⟩, terminator := .ret noValue },
    { instRange := ⟨4, 4⟩, terminator := .ret noValue }]
  jumpTables := [[3, 4]]

/-- Both functions pass the check and leave their path when folded: the first takes its branch
on the low word, the second its indeterminate index as zero. -/
theorem constfoldBranch_changes_path :
    (Verify.check lowWordBranch = .ok () ∧
      (Machine.null.run lowWordBranch 2 (Machine.null.initial lowWordBranch .null)).map
        Status.block = some (some 1) ∧
      (Machine.null.run (runOne lowWordBranch).1 2
        (Machine.null.initial (runOne lowWordBranch).1 .null)).map Status.block =
          some (some 2)) ∧
    (Verify.check undefIndex = .ok () ∧
      (Machine.null.run undefIndex 6 (Machine.null.initial undefIndex .null)).map
        Status.block = some (some 3) ∧
      (Machine.null.run (runOne undefIndex).1 6
        (Machine.null.initial (runOne undefIndex).1 .null)).map Status.block =
          some (some 4)) := by
  refine ⟨⟨?_, ?_, ?_⟩, ?_, ?_, ?_⟩
  · rfl
  · rfl
  · rfl
  · rfl
  · rfl
  · rfl

end ConstfoldBranch

end Badc
