import Badc.Ssa.LivenessDense
import Badc.Ssa.LivenessSparse
import Badc.Ssa.Verify

/-!
# Block liveness is exact

Both solvers find the least solution of the equations over the ranks, and the ranks name the values
read across a block boundary.  `computeReading_exact` says what this means of a function: a value is
live where a path leads to a read of it, whichever solver runs.

A block's reads of a value it defines itself are not counted, also where they come before the
definition; `computeReading_early_read` has one.
-/

namespace Badc

namespace Liveness

section

variable (f : FunctionSsa) (reads : List Bool)

/-- The instruction of a block at `idx`, or its terminator at the end, reads the value. -/
def ReadAt (blk : Block) (v idx : ℕ) : Prop :=
  (∃ inst, blk.instRange.start ≤ idx ∧ idx < blk.instRange.stop ∧ f.insts[idx]? = some inst ∧
    inst.isPhi = false ∧ readsAt reads idx = true ∧ v ∈ inst.placedOperands) ∨
  idx = blk.instRange.stop ∧ v ∈ blk.terminator.operands

/-- The block reads the value. -/
def ReadIn (b v : ℕ) : Prop := ∃ blk idx, f.blocks[b]? = some blk ∧ ReadAt f reads blk v idx

/-- A phi reads the value at the exit of the block: it names the block with the value, and its move
on the edge reads a place. -/
def ReadOnExit (b v : ℕ) : Prop :=
  ∃ blk ∈ f.blocks, ∃ idx incoming kind, blk.instRange.start ≤ idx ∧ idx < blk.instRange.stop ∧
    f.insts[idx]? = some (.phi incoming kind) ∧ readsAt reads idx = true ∧ (b, v) ∈ incoming ∧
    phiIncomeReadsNoPlace f kind v = false

/-- The flow of a value: its uses are the reads outside the block that defines it. -/
def valueFlow (v : ℕ) : BackwardFlow ℕ where
  succ := f.graph.Edge
  use b := ReadIn f reads b v ∧ ¬ InBlock f v b
  exit b := ReadOnExit f reads b v
  kill b := InBlock f v b

end

section

variable {f : FunctionSsa} {reads : List Bool} {blk : Block} {b v r : ℕ}

/-- The operands read from outside a block. -/
lemma mem_upwardReads : v ∈ upwardReads f reads blk ↔ (∃ idx, ReadAt f reads blk v idx) ∧
    v ≠ noValue ∧ ¬ (blk.instRange.start ≤ v ∧ v < blk.instRange.stop) := by
  simp only [upwardReads, List.mem_filter, List.mem_append, List.mem_flatMap, InstRange.mem_toList,
    Bool.and_eq_true, decide_eq_true_eq, Bool.or_eq_true]
  refine and_congr ?_ (and_congr Iff.rfl (by omega))
  constructor
  · rintro (⟨idx, ⟨hstart, hstop⟩, hmem⟩ | hmem)
    · cases hinst : f.insts[idx]? with
      | none => simp [hinst] at hmem
      | some inst =>
        simp only [hinst] at hmem
        split at hmem
        · cases hmem
        · next hread =>
          simp only [Bool.not_eq_true', not_or, Bool.not_eq_true, Bool.not_eq_false] at hread
          exact ⟨idx, Or.inl ⟨inst, hstart, hstop, hinst, hread.1, hread.2, hmem⟩⟩
    · exact ⟨_, Or.inr ⟨rfl, hmem⟩⟩
  · rintro ⟨idx, ⟨inst, hstart, hstop, hinst, hphi, hread, hmem⟩ | ⟨-, hmem⟩⟩
    · exact Or.inl ⟨idx, ⟨hstart, hstop⟩, by simpa [hinst, hphi, hread] using hmem⟩
    · exact Or.inr hmem

/-- The incomes the phis of a block read. -/
lemma mem_edgeReads : (b, v) ∈ edgeReads f reads blk ↔ v ≠ noValue ∧ ∃ idx incoming kind,
    blk.instRange.start ≤ idx ∧ idx < blk.instRange.stop ∧
      f.insts[idx]? = some (.phi incoming kind) ∧ readsAt reads idx = true ∧ (b, v) ∈ incoming ∧
      phiIncomeReadsNoPlace f kind v = false := by
  simp only [edgeReads, List.mem_flatMap, InstRange.mem_toList]
  constructor
  · rintro ⟨idx, ⟨hstart, hstop⟩, hmem⟩
    split at hmem
    · next incoming kind hinst =>
      split at hmem
      · next hread =>
        simp only [List.mem_filter, Bool.and_eq_true, decide_eq_true_eq, Bool.not_eq_true'] at hmem
        exact ⟨hmem.2.1, idx, incoming, kind, hstart, hstop, hinst, hread, hmem.1, hmem.2.2⟩
      · cases hmem
    · cases hmem
  · rintro ⟨hne, idx, incoming, kind, hstart, hstop, hinst, hread, hmem, hplace⟩
    refine ⟨idx, ⟨hstart, hstop⟩, ?_⟩
    simp [hinst, hread, hmem, hne, hplace]

lemma mem_crossing : v ∈ crossing f reads ↔ v < f.insts.length ∧ ∃ blk ∈ f.blocks,
    v ∈ upwardReads f reads blk ∨ ∃ p, (p, v) ∈ edgeReads f reads blk := by
  simp only [crossing, List.mem_filter, List.mem_range, List.any_eq_true, Bool.or_eq_true,
    List.contains_iff_mem, List.mem_map, Prod.exists, exists_eq_right]

/-- A rank names one value. -/
lemma rank_eq_some (h : rank f reads v = some r) {w : ℕ} : rank f reads w = some r ↔ w = v := by
  constructor
  · intro hw
    unfold rank at h hw
    split at h
    · next hv =>
      split at hw
      · next hw' =>
        rw [Option.some.injEq] at h hw
        exact (List.idxOf_inj hw').mp (hw.trans h.symm)
      · cases hw
    · cases h
  · rintro rfl
    exact h

/-- **The pairs of a rank are the flow of its value.** -/
lemma flowOf_rank (hv : v ≠ noValue) (h : rank f reads v = some r) :
    flowOf f.graph (usePairs f reads) (exitPairs f reads) (killPairs f reads) r =
      valueFlow f reads v := by
  have huse : ∀ b, (b, r) ∈ usePairs f reads ↔ ReadIn f reads b v ∧ ¬ InBlock f v b := by
    intro b
    simp only [usePairs, List.mem_flatMap, Prod.exists, List.mem_zipIdx_iff_getElem?, List.mem_map,
      List.mem_filterMap, Prod.mk.injEq]
    constructor
    · rintro ⟨blk, c, hblk, x, ⟨w, hw, hwx⟩, rfl, rfl⟩
      obtain rfl := (rank_eq_some h).mp hwx
      obtain ⟨⟨idx, hread⟩, -, hout⟩ := mem_upwardReads.mp hw
      refine ⟨⟨blk, idx, hblk, hread⟩, ?_⟩
      rintro ⟨blk', hblk', hin⟩
      rw [hblk] at hblk'
      obtain rfl := Option.some.inj hblk'
      exact hout hin
    · rintro ⟨⟨blk, idx, hblk, hread⟩, hout⟩
      exact ⟨blk, b, hblk, r, ⟨v, mem_upwardReads.mpr ⟨⟨idx, hread⟩, hv,
        fun hin => hout ⟨blk, hblk, hin⟩⟩, h⟩, rfl, rfl⟩
  have hkill : ∀ b, (b, r) ∈ killPairs f reads ↔ InBlock f v b := by
    intro b
    simp only [killPairs, List.mem_flatMap, Prod.exists, List.mem_zipIdx_iff_getElem?, List.mem_map,
      List.mem_filterMap, Prod.mk.injEq, InstRange.mem_toList]
    constructor
    · rintro ⟨blk, c, hblk, x, ⟨w, hw, hwx⟩, rfl, rfl⟩
      obtain rfl := (rank_eq_some h).mp hwx
      exact ⟨blk, hblk, hw⟩
    · rintro ⟨blk, hblk, hin⟩
      exact ⟨blk, b, hblk, r, ⟨v, hin, h⟩, rfl, rfl⟩
  have hexit : ∀ b, (b, r) ∈ exitPairs f reads ↔ ReadOnExit f reads b v := by
    intro b
    simp only [exitPairs, List.mem_flatMap, List.mem_filterMap, Option.map_eq_some_iff, Prod.exists,
      Prod.mk.injEq]
    constructor
    · rintro ⟨blk, hblk, c, w, hmem, x, hwx, rfl, rfl⟩
      obtain rfl := (rank_eq_some h).mp hwx
      exact ⟨blk, hblk, (mem_edgeReads.mp hmem).2⟩
    · rintro ⟨blk, hblk, hread⟩
      exact ⟨blk, hblk, b, v, mem_edgeReads.mpr ⟨hv, hread⟩, r, h, rfl, rfl⟩
  simp only [flowOf, valueFlow, huse, hkill, hexit]

lemma usePairs_lt (h : (b, r) ∈ usePairs f reads) : b < f.graph.size := by
  simp only [usePairs, List.mem_flatMap, Prod.exists, List.mem_zipIdx_iff_getElem?, List.mem_map,
    Prod.mk.injEq] at h
  obtain ⟨blk, c, hblk, -, -, rfl, -⟩ := h
  rw [f.graph_size]
  exact (List.getElem?_eq_some_iff.mp hblk).1

lemma exitPairs_read (h : (b, r) ∈ exitPairs f reads) : ∃ v, ReadOnExit f reads b v := by
  simp only [exitPairs, List.mem_flatMap, List.mem_filterMap, Option.map_eq_some_iff, Prod.exists,
    Prod.mk.injEq] at h
  obtain ⟨blk, hblk, c, w, hmem, -, -, rfl, -⟩ := h
  exact ⟨w, blk, hblk, (mem_edgeReads.mp hmem).2⟩

/-- A value that does not cross a block boundary is live nowhere. -/
lemma not_live_of_not_crossing (hv : v < f.insts.length) (hne : v ≠ noValue)
    (h : v ∉ crossing f reads) :
    ¬ (valueFlow f reads v).LiveIn b ∧ ¬ (valueFlow f reads v).LiveOut b := by
  have huse : ∀ b, ¬ (valueFlow f reads v).use b := by
    rintro b ⟨⟨blk, idx, hblk, hread⟩, hout⟩
    exact h (mem_crossing.mpr ⟨hv, blk, List.mem_of_getElem? hblk, Or.inl (mem_upwardReads.mpr
      ⟨⟨idx, hread⟩, hne, fun hin => hout ⟨blk, hblk, hin⟩⟩)⟩)
  have hexit : ∀ b, ¬ (valueFlow f reads v).exit b := by
    rintro b ⟨blk, hblk, hread⟩
    exact h (mem_crossing.mpr ⟨hv, blk, hblk, Or.inr ⟨b, mem_edgeReads.mpr ⟨hne, hread⟩⟩⟩)
  have hin : ∀ b, ¬ (valueFlow f reads v).LiveIn b := by
    intro b hlive
    refine hlive.least (fun _ => False) fun a ha => ?_
    rcases ha with ha | ⟨-, ha | ⟨-, -, ha⟩⟩
    · exact huse a ha
    · exact hexit a ha
    · exact ha
  refine ⟨hin b, ?_⟩
  rintro (hex | ⟨t, -, hlive⟩)
  · exact hexit b hex
  · exact hin t hlive

end

/-- **Liveness is exact**, whatever the budget: a value is live on entry to a block (on exit from it)
exactly where a path from there leads, past no block that defines the value, to a block that reads it
and does not define it, or to an exit where a phi reads it. -/
theorem computeReading_exact {f : FunctionSsa} (reads : List Bool) (hg : f.graph.Closed)
    (hexit : ∀ b v, ReadOnExit f reads b v → b < f.blocks.length) {b v : ℕ}
    (hb : b < f.blocks.length) (hv : v < f.insts.length) (hne : v ≠ noValue) (budget : ℕ) :
    ((computeReading budget f reads).liveIn b v = true ↔ (valueFlow f reads v).LiveIn b) ∧
      ((computeReading budget f reads).liveOut b v = true ↔ (valueFlow f reads v).LiveOut b) := by
  have hexit' : ∀ b r, (b, r) ∈ exitPairs f reads → b < f.graph.size := by
    intro b r h
    obtain ⟨w, hw⟩ := exitPairs_read h
    rw [f.graph_size]
    exact hexit b w hw
  by_cases hcross : v ∈ crossing f reads
  · have hrank : rank f reads v = some ((crossing f reads).idxOf v) := if_pos hcross
    have hlt : (crossing f reads).idxOf v < (crossing f reads).length :=
      List.idxOf_lt_length_of_mem hcross
    have hflow := flowOf_rank hne hrank
    simp only [BlockLiveness.liveIn, BlockLiveness.liveOut, computeReading, hrank]
    by_cases hbudget : f.blocks.length * max (((crossing f reads).length + 63) / 64) 1 ≤ budget
    · have hspec := @solveDense_spec f.graph (max (((crossing f reads).length + 63) / 64) 1) (usePairs f reads) _
        (killPairs f reads) hg hexit' (fun b r h => usePairs_lt h) b ((crossing f reads).idxOf v)
        (f.graph_size.symm ▸ hb) (by omega)
      rw [hflow] at hspec
      simpa only [if_pos hbudget] using hspec
    · have hspec := @solveSparse_spec f.graph (usePairs f reads) _ (killPairs f reads) hexit'
        (fun b r h => usePairs_lt h) _ _ hlt b
      rw [hflow] at hspec
      simpa only [if_neg hbudget, List.contains_iff_mem, mem_rowByBlock] using hspec
  · have hrank : rank f reads v = none := if_neg hcross
    obtain ⟨hin, hout⟩ := not_live_of_not_crossing (b := b) hv hne hcross
    simp [BlockLiveness.liveIn, BlockLiveness.liveOut, computeReading, hrank, hin, hout]

/-- A loop that counts, and reads its count after the end. -/
def countingLoop : FunctionSsa where
  insts := [.imm 1, .phi [(0, 0), (1, 2)] .i64, .binopI .add 1 1]
  blocks := [{ instRange := ⟨0, 1⟩, terminator := .jmp 1 },
    { instRange := ⟨1, 3⟩, terminator := .bnz 2 1 2 },
    { instRange := ⟨3, 3⟩, terminator := .ret 2 }]

/-- The count is live out of the loop's block, for the phi and for the read after the end. -/
theorem computeReading_exact_countingLoop :
    (valueFlow countingLoop [] 2).LiveOut 1 ∧
    ((computeReading 0 countingLoop []).liveIn 1 2 = true ↔
      (valueFlow countingLoop [] 2).LiveIn 1) ∧
    ((computeReading 0 countingLoop []).liveOut 1 2 = true ↔
      (valueFlow countingLoop [] 2).LiveOut 1) := by
  have hexit : ∀ b v, ReadOnExit countingLoop [] b v → b < 3 ∧ (b = 0 ∨ b = 1) := by
    rintro b v ⟨-, -, idx, incoming, kind, -, -, hphi, -, hmem, -⟩
    have hidx : idx < 3 := (List.getElem?_eq_some_iff.mp hphi).1
    have hincoming : incoming = [(0, 0), (1, 2)] := by
      interval_cases idx <;> simp_all [countingLoop]
    rw [hincoming] at hmem
    simp only [List.mem_cons, Prod.mk.injEq, List.not_mem_nil, or_false] at hmem
    omega
  have hclosed : countingLoop.graph.Closed := SuccGraph.closed_of_rows (by decide)
  exact ⟨Or.inl ⟨_, List.mem_cons_of_mem _ (.head _), 1, _, _, le_rfl, by decide, rfl, rfl,
      by simp, by decide⟩,
    computeReading_exact [] hclosed (fun b v h => (hexit b v h).1) (by decide) (by decide) (by decide) 0⟩

/-- A block that reads a value ahead of its definition there. -/
def earlyRead : FunctionSsa where
  insts := [.neg 1, .imm 5]
  blocks := [{ instRange := ⟨0, 2⟩, terminator := .ret noValue }]

/-- The flow of a value whose uses are all reads that come before a definition in their block. -/
def entryFlow (f : FunctionSsa) (reads : List Bool) (v : ℕ) : BackwardFlow ℕ where
  succ := f.graph.Edge
  use b := ∃ blk idx, f.blocks[b]? = some blk ∧ ReadAt f reads blk v idx ∧
    ¬ (blk.instRange.start ≤ v ∧ v < idx)
  exit b := ReadOnExit f reads b v
  kill b := InBlock f v b

/-- A read ahead of the definition in the same block keeps nothing live. -/
theorem computeReading_early_read :
    (∀ v b c, InBlock earlyRead v b → InBlock earlyRead v c → b = c) ∧
    (entryFlow earlyRead [] 1).LiveIn 0 ∧
    (computeReading 131072 earlyRead []).liveIn 0 1 = false := by
  refine ⟨?_, ⟨0, .refl, Or.inl ⟨_, 0, rfl, Or.inl ⟨.neg 1, le_rfl, by decide, rfl, rfl, rfl, ?_⟩, ?_⟩⟩,
    by decide⟩
  · rintro v b c ⟨blk, hb, -⟩ ⟨blk', hc, -⟩
    have hb' : b < 1 := (List.getElem?_eq_some_iff.mp hb).1
    have hc' : c < 1 := (List.getElem?_eq_some_iff.mp hc).1
    omega
  · simp [Inst.placedOperands, Inst.operands]
  · omega

end Liveness

end Badc
