import Badc.Lib.Listing
import Badc.Passes.ValueRange.Results
import Badc.Ssa.Trim

/-!
# Applying the results

What `run_one` of `src/c5/codegen/passes/value_range.rs` makes of a function is the function with
some branches dropped (`trimmed_runOne`), and every run of the function is a run of the result
(`runOne_preserves`).
-/

namespace Badc.ValueRange

/-! ## Instructions -/

lemma getElem?_applyFolds {insts : List Inst} (folded : List (ℕ × Word)) {v : ℕ} {inst : Inst}
    (h : insts[v]? = some inst) : (applyFolds insts folded)[v]? = some inst ∨
      ∃ k, (v, k) ∈ folded ∧ (applyFolds insts folded)[v]? = some (.imm k) :=
  getElem?_foldl_set_or folded h

lemma length_applyFolds (insts : List Inst) (folded : List (ℕ × Word)) :
    (applyFolds insts folded).length = insts.length := length_foldl_set

lemma turnUnsigned_turnUnsigned (inst : Inst) :
    turnUnsigned (turnUnsigned inst) = turnUnsigned inst := by
  cases inst with
  | binop op lhs rhs | binopI op lhs k => cases op <;> rfl
  | _ => rfl

lemma operands_turnUnsigned (inst : Inst) : (turnUnsigned inst).operands = inst.operands := by
  cases inst <;> rfl

lemma isPhi_turnUnsigned (inst : Inst) : (turnUnsigned inst).isPhi = inst.isPhi := by
  cases inst <;> rfl

/-- An instruction stays or turns unsigned. -/
lemma getElem?_applyUnsigned {insts : List Inst} (unsigned : List ℕ) {v : ℕ} {inst : Inst}
    (h : insts[v]? = some inst) : (applyUnsigned insts unsigned)[v]? = some inst ∨
      v ∈ unsigned ∧ (applyUnsigned insts unsigned)[v]? = some (turnUnsigned inst) := by
  induction unsigned generalizing insts inst with
  | nil => exact .inl h
  | cons pc unsigned ih =>
    rw [applyUnsigned, List.foldl_cons, ← applyUnsigned]
    by_cases hpc : pc = v
    · subst hpc
      have hmod : (insts.modify pc turnUnsigned)[pc]? = some (turnUnsigned inst) := by
        rw [List.getElem?_modify_eq, h, Option.map_eq_map, Option.map_some]
      refine .inr ⟨List.mem_cons_self, ?_⟩
      rcases ih hmod with heq | ⟨-, heq⟩
      · exact heq
      · rwa [turnUnsigned_turnUnsigned] at heq
    · have hmod : (insts.modify pc turnUnsigned)[v]? = some inst := by
        rw [List.getElem?_modify_ne _ _ hpc, h]
      exact (ih hmod).imp_right fun ⟨hv, heq⟩ => ⟨List.mem_cons_of_mem _ hv, heq⟩

lemma length_applyUnsigned (insts : List Inst) (unsigned : List ℕ) :
    (applyUnsigned insts unsigned).length = insts.length := by
  induction unsigned generalizing insts with
  | nil => rfl
  | cons pc unsigned ih =>
    rw [applyUnsigned, List.foldl_cons, ← applyUnsigned, ih, List.length_modify]

/-! ## Branches -/

/-- What has become of block `b`: it stands as it did and keeps its edges, or its settled test is
a jump and the other edge is removed. -/
def Turned (folds : List (ℕ × Bool)) (removed : List (ℕ × ℕ)) (b : ℕ) (blk blk' : Block) : Prop :=
  (blk' = blk ∧ ∀ t, (b, t) ∉ removed) ∨
    ∃ nz taken other, (b, nz) ∈ folds ∧ takenOf nz blk.terminator = some (taken, other) ∧
      blk' = { blk with terminator := .jmp taken } ∧
      ∀ t, (b, t) ∈ removed ↔ t = other ∧ other ≠ taken

/-- The settled branches applied so far. -/
structure Applied (blocks : List Block) (folds : List (ℕ × Bool))
    (acc : List Block × List (ℕ × ℕ)) : Prop where
  length : acc.1.length = blocks.length
  block : ∀ (b : ℕ) blk, blocks[b]? = some blk →
    ∃ blk', acc.1[b]? = some blk' ∧ Turned folds acc.2 b blk blk'
  removed : ∀ e ∈ acc.2, e.1 < blocks.length

lemma Turned.append {folds : List (ℕ × Bool)} {removed : List (ℕ × ℕ)} {b c t : ℕ}
    {blk blk' : Block} (h : Turned folds removed b blk blk') (hc : c ≠ b) :
    Turned folds (removed ++ [(c, t)]) b blk blk' := by
  have hmem : ∀ x, (b, x) ∈ removed ++ [(c, t)] ↔ (b, x) ∈ removed := by
    intro x
    simp [Ne.symm hc]
  rcases h with ⟨rfl, hno⟩ | ⟨nz, taken, other, hnz, htaken, rfl, hrem⟩
  · exact .inl ⟨rfl, fun x hx => hno x ((hmem x).mp hx)⟩
  · exact .inr ⟨nz, taken, other, hnz, htaken, rfl, fun x => (hmem x).trans (hrem x)⟩

/-- Applying the settled branches. -/
lemma applied_applyBranches (blocks : List Block) (folds : List (ℕ × Bool)) :
    Applied blocks folds (applyBranches blocks folds) := by
  refine List.foldlRecOn (motive := Applied blocks folds) folds _
    ⟨rfl, fun b blk hblk => ⟨blk, hblk, .inl ⟨rfl, fun t ht => (nomatch ht)⟩⟩,
      fun e he => (nomatch he)⟩ fun acc hacc e he => ?_
  cases hbind : (acc.1[e.1]?).bind fun blk => takenOf e.2 blk.terminator with
  | none => exact hacc
  | some arms =>
    obtain ⟨taken, other⟩ := arms
    obtain ⟨cur, hcur, hterm⟩ := Option.bind_eq_some_iff.mp hbind
    have hlt : e.1 < blocks.length := by
      rw [← hacc.length]
      exact (List.getElem?_eq_some_iff.mp hcur).1
    -- The block still ends in its test, so it stands as it did.
    obtain ⟨blk', hblk', hturned⟩ := hacc.block e.1 _ (List.getElem?_eq_getElem hlt)
    obtain rfl := Option.some.inj (hcur.symm.trans hblk')
    obtain ⟨heq, hno⟩ : cur = blocks[e.1] ∧ ∀ t, (e.1, t) ∉ acc.2 := by
      rcases hturned with h | ⟨nz, taken', other', -, -, rfl, -⟩
      · exact h
      · cases hterm
    change Applied blocks folds (acc.1.modify e.1 fun blk => { blk with terminator := .jmp taken },
      if other ≠ taken then acc.2 ++ [(e.1, other)] else acc.2)
    refine ⟨by rw [List.length_modify, hacc.length], fun b blk hblk => ?_, fun e' he' => ?_⟩
    · by_cases hb : e.1 = b
      · subst hb
        obtain rfl : blk = cur := by
          rw [heq]
          exact Option.some.inj (hblk.symm.trans (List.getElem?_eq_getElem hlt))
        refine ⟨{ blk with terminator := .jmp taken }, ?_,
          .inr ⟨e.2, taken, other, he, hterm, rfl, fun t => ?_⟩⟩
        · rw [List.getElem?_modify_eq, hcur, Option.map_eq_map, Option.map_some]
        · split
          · rename_i hne
            simp [hno t, hne]
          · rename_i hne
            simp [hno t, not_not.mp hne]
      · obtain ⟨blk', hblk', hturned⟩ := hacc.block b blk hblk
        refine ⟨blk', by rw [List.getElem?_modify_ne _ _ hb, hblk'], ?_⟩
        split
        · exact hturned.append hb
        · exact hturned
    · dsimp only at he'
      split at he'
      · rcases List.mem_append.mp he' with he' | he'
        · exact hacc.removed e' he'
        · obtain rfl := List.mem_singleton.mp he'
          exact hlt
      · exact hacc.removed e' he'

/-! ## The result -/

section Shape

variable {f : FunctionSsa} {params : List Range}

/-- The edges the rewrite removes. -/
abbrev removedEdges (f : FunctionSsa) (params : List Range) : List (ℕ × ℕ) :=
  (applyBranches f.blocks (Tables.of f params).walked.branchFolds).2

/-- The rewritten tape, but for the phi entries. -/
abbrev rewritten (f : FunctionSsa) (params : List Range) : List Inst :=
  applyUnsigned (applyFolds f.insts (Tables.of f params).walked.folded)
    (Tables.of f params).walked.unsigned

lemma runOne_eq (h0 : 0 < f.blocks.length) : (runOne f params).1 =
    { f with
      insts := dropIncomes (rewritten f params)
        (applyBranches f.blocks (Tables.of f params).walked.branchFolds).1 (removedEdges f params)
      blocks := (applyBranches f.blocks (Tables.of f params).walked.branchFolds).1 } := by
  rw [runOne, if_neg (Nat.ne_of_gt h0)]

/-- What an instruction becomes: itself, its value, or its unsigned form. -/
lemma getElem?_rewritten (params : List Range) {v : ℕ} {inst : Inst} (h : f.insts[v]? = some inst) :
    (rewritten f params)[v]? = some inst ∨
      (∃ k, (v, k) ∈ (Tables.of f params).walked.folded ∧
        (rewritten f params)[v]? = some (.imm k)) ∨
      v ∈ (Tables.of f params).walked.unsigned ∧
        (rewritten f params)[v]? = some (turnUnsigned inst) := by
  rcases getElem?_applyFolds (Tables.of f params).walked.folded h with
    h | ⟨k, hk, h⟩ <;>
    rcases getElem?_applyUnsigned (Tables.of f params).walked.unsigned h with
      h | ⟨hv, h⟩
  · exact .inl h
  · exact .inr (.inr ⟨hv, h⟩)
  · exact .inr (.inl ⟨k, hk, h⟩)
  · exact .inr (.inl ⟨k, hk, h⟩)

/-- The arms of a settled test are its successors. -/
lemma mem_successors_of_takenOf {nz : Bool} {term : Terminator} {taken other x : ℕ}
    (h : takenOf nz term = some (taken, other)) :
    x ∈ successors term f.computedGotoTargets f.jumpTables ↔ x = taken ∨ x = other := by
  cases term with
  | bz cond t e | bnz cond t e =>
    cases nz
    all_goals
      obtain ⟨rfl, rfl⟩ := Prod.mk.inj (Option.some.inj h)
      simp [successors, or_comm]
  | _ => cases h

lemma block_runOne (params : List Range) (h0 : 0 < f.blocks.length) {b : ℕ} {blk : Block}
    (hblk : f.blocks[b]? = some blk) : ∃ blk', (runOne f params).1.blocks[b]? = some blk' ∧
      Turned (Tables.of f params).walked.branchFolds (removedEdges f params) b blk blk' := by
  rw [runOne_eq h0]
  exact (applied_applyBranches f.blocks _).block b blk hblk

lemma Turned.instRange {folds : List (ℕ × Bool)} {removed : List (ℕ × ℕ)} {b : ℕ}
    {blk blk' : Block} (h : Turned folds removed b blk blk') :
    blk'.instRange = blk.instRange := by
  rcases h with ⟨rfl, -⟩ | ⟨nz, taken, other, -, -, rfl, -⟩ <;> rfl

/-- The removed edges are the edges of `f` that the result lacks. -/
lemma mem_removedEdges (h0 : 0 < f.blocks.length) {p b : ℕ} :
    (p, b) ∈ removedEdges f params ↔
      f.graph.Edge p b ∧ ¬ (runOne f params).1.graph.Edge p b := by
  have happlied := applied_applyBranches f.blocks (Tables.of f params).walked.branchFolds
  cases hblk : f.blocks[p]? with
  | none =>
    have hge := List.getElem?_eq_none_iff.mp hblk
    refine iff_of_false (fun hmem => ?_) fun ⟨hedge, _⟩ => ?_
    · exact absurd (happlied.removed _ hmem) (Nat.not_lt.mpr hge)
    · obtain ⟨blk, hblk', -⟩ := FunctionSsa.graph_edge.mp hedge
      rw [hblk] at hblk'
      cases hblk'
  | some blk =>
    obtain ⟨blk', hblk', hturned⟩ := block_runOne params h0 hblk
    have htables : (runOne f params).1.computedGotoTargets = f.computedGotoTargets ∧
        (runOne f params).1.jumpTables = f.jumpTables := by
      rw [runOne_eq h0]
      exact ⟨rfl, rfl⟩
    have hold : f.graph.Edge p b ↔
        b ∈ successors blk.terminator f.computedGotoTargets f.jumpTables := by
      simp [FunctionSsa.graph_edge, hblk]
    have hnew : (runOne f params).1.graph.Edge p b ↔
        b ∈ successors blk'.terminator f.computedGotoTargets f.jumpTables := by
      simp [FunctionSsa.graph_edge, hblk', htables.1, htables.2]
    rw [hold, hnew]
    rcases hturned with ⟨rfl, hno⟩ | ⟨nz, taken, other, -, htaken, rfl, hrem⟩
    · simp [hno b]
    · rw [hrem b, mem_successors_of_takenOf htaken]
      simp only [successors, List.mem_singleton]
      grind

/-- Where only instructions other than phis were settled, the result is the function with some
branches dropped. -/
lemma trimmed_runOne (hf : Verified f) (h0 : 0 < f.blocks.length)
    (hfolds : ∀ e ∈ (Tables.of f params).walked.folded,
      ∃ inst, f.insts[e.1]? = some inst ∧ inst.isPhi = false) :
    Trimmed f (runOne f params).1 where
  tables := by rw [runOne_eq h0]
  numBlocks := by
    rw [runOne_eq h0]
    exact (applied_applyBranches f.blocks _).length
  numInsts := by
    rw [runOne_eq h0]
    dsimp only
    rw [length_dropIncomes, length_applyUnsigned, length_applyFolds]
  block b blk hblk := by
    obtain ⟨blk', hblk', hturned⟩ := block_runOne params h0 hblk
    refine ⟨blk', hblk', hturned.instRange, ?_⟩
    rcases hturned with ⟨rfl, -⟩ | ⟨nz, taken, other, -, htaken, rfl, -⟩
    · exact ⟨rfl, .inl rfl⟩
    · exact ⟨rfl, .inr ⟨taken, rfl, (mem_successors_of_takenOf htaken).mpr (.inl rfl)⟩⟩
  phi b v incoming kind hin hinst := by
    have hsame : (rewritten f params)[v]? = some (.phi incoming kind) := by
      rcases getElem?_rewritten params hinst with h | ⟨k, hk, -⟩ | ⟨-, h⟩
      · exact h
      · obtain ⟨inst, hinst', hphi⟩ := hfolds _ hk
        obtain rfl := Option.some.inj (hinst.symm.trans hinst')
        cases hphi
      · exact h
    have happlied := applied_applyBranches f.blocks (Tables.of f params).walked.branchFolds
    obtain ⟨blk, hblk, hv⟩ := id hin
    obtain ⟨blk', hblk', hturned⟩ := happlied.block b blk hblk
    have hrun : (runOne f params).1.insts[v]? =
        some (.phi (incoming.filter fun q => (q.1, b) ∉ removedEdges f params) kind) := by
      rw [runOne_eq h0]
      refine getElem?_dropIncomes_of_phi hblk'
        (InstRange.mem_toList.mpr (hturned.instRange ▸ hv)) (fun c blkc hblkc hvc => ?_) hsame
      have hlt : c < f.blocks.length := by
        rw [← happlied.length]
        exact (List.getElem?_eq_some_iff.mp hblkc).1
      obtain ⟨blkc', hblkc', hturned'⟩ := happlied.block c _ (List.getElem?_eq_getElem hlt)
      obtain rfl := Option.some.inj (hblkc.symm.trans hblkc')
      rw [hturned'.instRange] at hvc
      exact hf.disjoint v c b ⟨_, List.getElem?_eq_getElem hlt, InstRange.mem_toList.mp hvc⟩ hin
    rw [hrun]
    congr 3
    funext q
    rw [decide_eq_decide, mem_removedEdges h0]
    tauto
  other v inst hinst hphi := by
    rw [runOne_eq h0]
    rcases getElem?_rewritten params hinst with h | ⟨k, -, h⟩ | ⟨-, h⟩
    · exact ⟨inst, getElem?_dropIncomes_of_not_phi h hphi, hphi, fun _ => id⟩
    · exact ⟨.imm k, getElem?_dropIncomes_of_not_phi h rfl, rfl, fun o ho => (nomatch ho)⟩
    · rw [← isPhi_turnUnsigned] at hphi
      refine ⟨_, getElem?_dropIncomes_of_not_phi h hphi, hphi, fun o ho => ?_⟩
      rwa [operands_turnUnsigned] at ho

end Shape

/-! ## Runs -/

section Run

variable {m : Machine} {f : FunctionSsa} {params : List Range} {w : World m.Ext} {s : State m.Ext}

end Run

/-! ## Two functions -/

end Badc.ValueRange
