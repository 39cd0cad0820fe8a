import Badc.Lib.Listing
import Badc.Ssa.Rename

/-!
# Block permutation and block-id remapping

`permute_blocks` and `remap_block_ids` of `src/c5/codegen/passes/remap_blocks.rs`.  A reference
to a block the map does not keep faults in the source; here it becomes `noBlock`.  The table of
low-word tests has an entry for each block and is not rewritten: it is set when the blocks have
their final order.

`Scrubbed.renamed` says that after the references to dropped blocks are gone, the remapped
function is the old one under the new names.
-/

namespace Badc

/-- The id no block has. -/
def noBlock : ℕ := 2 ^ 32 - 1

/-- Map one recorded reference. -/
def mapped (newId : List ℕ) (old : ℕ) : ℕ := newId.getD old noBlock

/-- The guarded region of each block, by the new ids. -/
def remapBlockSeh (blockSeh : List (Option ℕ)) (numBlocks : ℕ) (newId : List ℕ) :
    List (Option ℕ) :=
  if blockSeh.isEmpty then []
  else (newId.zipIdx.map fun p => (p.1, blockSeh.getD p.2 none)).foldl
    (fun scopes p => scopes.set p.1 p.2) (List.replicate numBlocks none)

/-- Rewrite every block-id reference through `newId`, indexed by the old id. -/
def remapBlockIds (f : FunctionSsa) (newId : List ℕ) : FunctionSsa :=
  { f with
    blocks := f.blocks.map fun blk =>
      { blk with terminator := blk.terminator.mapBlocks (mapped newId) }
    insts := f.insts.map (Inst.mapBlocks (mapped newId))
    jumpTables := f.jumpTables.map fun table => table.map (mapped newId)
    computedGotoTargets := f.computedGotoTargets.map (mapped newId)
    labelDataRelocs := f.labelDataRelocs.map fun r => { r with block := mapped newId r.block }
    sehScopes := f.sehScopes.map fun s => { s with target := s.target.map (mapped newId) }
    blockSeh := remapBlockSeh f.blockSeh f.blocks.length newId }

/-- The new id of each of `n` blocks when the blocks in `order` are kept, in this order. -/
def newIds (n : ℕ) (order : List ℕ) : List ℕ :=
  order.zipIdx.foldl (fun ids p => ids.set p.1 p.2) (List.replicate n noBlock)

/-- Reorder the blocks so that old block `order[i]` becomes block `i`. -/
def permuteBlocks (f : FunctionSsa) (order : List ℕ) : FunctionSsa :=
  remapBlockIds { f with blocks := order.map fun old => f.blocks.getD old default }
    (newIds f.blocks.length order)

/-- Every block the instructions and the tables of a function name is one of its blocks, and the
ids of its blocks fit their type. -/
structure NamesInRange (f : FunctionSsa) : Prop where
  count : f.blocks.length ≤ noBlock
  addresses : ∀ (v t : ℕ), f.insts[v]? = some (.blockAddr t) → t < f.blocks.length
  incomes : ∀ (v : ℕ) incoming kind, f.insts[v]? = some (.phi incoming kind) →
    ∀ q ∈ incoming, q.1 < f.blocks.length
  rows : ∀ row ∈ f.jumpTables, ∀ t ∈ row, t < f.blocks.length
  labels : ∀ r ∈ f.labelDataRelocs, r.block < f.blocks.length
  scopes : ∀ s ∈ f.sehScopes, ∀ t, s.target = some t → t < f.blocks.length

section

variable {n : ℕ} {order : List ℕ}

/-- The table of new ids has an entry for each block. -/
lemma length_newIds (n : ℕ) (order : List ℕ) : (newIds n order).length = n := by
  suffices h : ∀ (l : List (ℕ × ℕ)) (ids : List ℕ),
      (l.foldl (fun ids p => ids.set p.1 p.2) ids).length = ids.length by
    simp [newIds, h]
  intro l
  induction l with
  | nil => exact fun _ => rfl
  | cons p l ih =>
    intro ids
    rw [List.foldl_cons, ih, List.length_set]

lemma mapped_newIds (hnd : order.Nodup) {b : ℕ} (hb : b ∈ order) (hlt : b < n) :
    mapped (newIds n order) b = order.idxOf b := by
  have hget : (newIds n order)[b]? = some (order.idxOf b) := by
    refine getElem?_foldl_set (by simpa using hlt)
      ⟨(b, order.idxOf b), List.mem_zipIdx_iff_getElem?.mpr (getElem?_idxOf hb), rfl⟩ ?_
    rintro ⟨c, i⟩ hc rfl
    exact (idxOf_of_getElem? hnd (List.mem_zipIdx_iff_getElem?.mp hc)).symm
  rw [mapped, List.getD_eq_getElem?_getD, hget, Option.getD_some]

/-- A dropped block has no new id. -/
lemma getElem?_newIds_of_notMem {b : ℕ} (hb : b ∉ order) (hlt : b < n) :
    (newIds n order)[b]? = some noBlock := by
  suffices h : ∀ (l : List (ℕ × ℕ)) (ids : List ℕ), (∀ p ∈ l, p.1 ≠ b) →
      (l.foldl (fun ids p => ids.set p.1 p.2) ids)[b]? = ids[b]? by
    rw [newIds, h]
    · simp [hlt]
    · rintro ⟨c, i⟩ hc rfl
      exact hb (List.mem_of_getElem? (List.mem_zipIdx_iff_getElem?.mp hc))
  intro l
  induction l with
  | nil => exact fun _ _ => rfl
  | cons p l ih =>
    intro ids hne
    rw [List.foldl_cons, ih _ fun q hq => hne q (.tail _ hq),
      List.getElem?_set_ne (hne p (by simp))]

/-- A kept block keeps its guarded region. -/
lemma getD_remapBlockSeh (hnd : order.Nodup) (hlt : ∀ b ∈ order, b < n) (hn : n ≤ noBlock)
    (blockSeh : List (Option ℕ)) {i b : ℕ} (hi : order[i]? = some b) :
    (remapBlockSeh blockSeh order.length (newIds n order)).getD i none = blockSeh.getD b none := by
  unfold remapBlockSeh
  split
  · rename_i hempty
    rw [List.isEmpty_iff] at hempty
    simp [hempty]
  · have hb := List.mem_of_getElem? hi
    have hlen : i < order.length := (List.getElem?_eq_some_iff.mp hi).1
    have hget : ∀ c, c < n → (newIds n order)[c]? = some i → c = b := by
      intro c hc hci
      by_cases hco : c ∈ order
      · have := mapped_newIds hnd hco hc
        rw [mapped, List.getD_eq_getElem?_getD, hci, Option.getD_some] at this
        exact (idxOf_eq_iff hnd hi hco).mp this.symm
      · have hle := (hnd.subperm fun c hc => List.mem_range.mpr (hlt c hc)).length_le
        rw [getElem?_newIds_of_notMem hco hc, Option.some.injEq] at hci
        rw [List.length_range] at hle
        omega
    have hset := getElem?_foldl_set (l := (newIds n order).zipIdx.map fun p =>
        (p.1, blockSeh.getD p.2 none)) (a := List.replicate order.length none) (k := i)
      (x := blockSeh.getD b none) (by simpa using hlen) ?_ ?_
    · rw [List.getD_eq_getElem?_getD, hset, Option.getD_some]
    · have hm := mapped_newIds hnd hb (hlt b hb)
      rw [idxOf_of_getElem? hnd hi, mapped, List.getD_eq_getElem?_getD] at hm
      have hbl : b < (newIds n order).length := by
        rw [length_newIds]
        exact hlt b hb
      rw [List.getElem?_eq_getElem hbl, Option.getD_some] at hm
      refine ⟨(i, blockSeh.getD b none), List.mem_map.mpr ⟨(i, b), ?_, rfl⟩, rfl⟩
      rw [List.mem_zipIdx_iff_getElem?, List.getElem?_eq_getElem hbl, hm]
    · intro p hp hpi
      obtain ⟨⟨c, k⟩, hc, rfl⟩ := List.mem_map.mp hp
      rw [List.mem_zipIdx_iff_getElem?] at hc
      obtain rfl : c = i := hpi
      have hk : k < n := by
        rw [← length_newIds n order]
        exact (List.getElem?_eq_some_iff.mp hc).1
      rw [hget k hk hc]

end

/-- Mapping the blocks an instruction names depends on these blocks only. -/
lemma Inst.mapBlocks_congr {g h : ℕ → ℕ} {inst : Inst} (haddr : ∀ t, inst = .blockAddr t → g t = h t)
    (hphi : ∀ incoming kind, inst = .phi incoming kind → ∀ q ∈ incoming, g q.1 = h q.1) :
    inst.mapBlocks g = inst.mapBlocks h := by
  cases inst with
  | blockAddr t => simp only [mapBlocks, haddr t rfl]
  | phi incoming kind =>
    simp only [mapBlocks, Inst.phi.injEq, and_true]
    refine List.map_congr_left fun q hq => ?_
    rw [hphi incoming kind rfl q hq]
  | _ => rfl

lemma Terminator.mapBlocks_congr {g h : ℕ → ℕ} {term : Terminator} {tables : List (List ℕ)}
    (heq : ∀ t ∈ term.targets tables, g t = h t) : term.mapBlocks g = term.mapBlocks h := by
  cases term with
  | jmp t | fallThrough t => simp only [mapBlocks, heq t (by simp [targets])]
  | bz cond t e | bnz cond t e =>
    simp only [mapBlocks, heq t (by simp [targets]), heq e (by simp [targets])]
  | _ => rfl

/-- A terminator whose blocks exist branches to blocks that exist. -/
lemma TargetsExist.targets_lt {f : FunctionSsa} {term : Terminator} (h : TargetsExist f term) :
    ∀ t ∈ term.targets f.jumpTables, t < f.blocks.length := by
  intro t ht
  cases term with
  | jmp u | fallThrough u =>
    simp only [Terminator.targets, List.mem_singleton] at ht
    exact ht ▸ h
  | bz cond u e | bnz cond u e =>
    simp only [Terminator.targets, List.mem_cons, List.not_mem_nil, or_false] at ht
    rcases ht with rfl | rfl
    · exact h.1
    · exact h.2
  | jumpTable idx table | asmGoto table =>
    obtain ⟨row, hrow, hall⟩ := h
    refine hall t ?_
    simpa [Terminator.targets, List.getD_eq_getElem?_getD, hrow] using ht
  | _ => simp [Terminator.targets] at ht

/-- `g` is `f` with the blocks in `order` only, and nothing that still counts names a block that
is not among them. -/
structure Scrubbed (order : List ℕ) (f g : FunctionSsa) : Prop where
  nodup : order.Nodup
  entry : order[0]? = some 0
  count : f.blocks.length ≤ noBlock
  inRange : ∀ b ∈ order, b < f.blocks.length
  blocks : g.blocks = order.map fun old => f.blocks.getD old default
  inst : ∀ b ∈ order, ∀ v, InBlock f v b →
    g.insts[v]? = (f.insts[v]?).map (Inst.keepIncomes order)
  targets : ∀ b ∈ order, ∀ blk, f.blocks[b]? = some blk →
    ∀ t ∈ blk.terminator.targets f.jumpTables, t ∈ order
  addresses : ∀ b ∈ order, ∀ v t, InBlock f v b → f.insts[v]? = some (.blockAddr t) → t ∈ order
  tables : ∀ b ∈ order, ∀ (blk : Block) (table : ℕ), f.blocks[b]? = some blk →
    blk.terminator.table? = some table → g.jumpTables[table]? = f.jumpTables[table]?
  gotoTargets : g.computedGotoTargets = f.computedGotoTargets.filter (· ∈ order)
  labels : g.labelDataRelocs = f.labelDataRelocs
  labelsKept : ∀ r ∈ f.labelDataRelocs, r.block ∈ order
  scopes : g.sehScopes = f.sehScopes
  scopesKept : ∀ s ∈ f.sehScopes, ∀ t, s.target = some t → t ∈ order
  blockSeh : g.blockSeh = f.blockSeh
  lowWordTests : ∀ i b : ℕ, order[i]? = some b →
    isMarked g.lowWordTests i = isMarked f.lowWordTests b
  symbol : ∀ b ∈ order, ∀ v, InBlock f v b → g.symbolOf v = f.symbolOf v
  f32Values : g.f32Values = f.f32Values
  cmp32 : g.cmp32 = f.cmp32
  div32 : g.div32 = f.div32

/-- Remapping the blocks that are left renames the function. -/
theorem Scrubbed.renamed {order : List ℕ} {f g : FunctionSsa} (h : Scrubbed order f g) :
    Renamed order f (remapBlockIds g (newIds f.blocks.length order)) := by
  have hmap : ∀ b ∈ order, mapped (newIds f.blocks.length order) b = order.idxOf b :=
    fun b hb => mapped_newIds h.nodup hb (h.inRange b hb)
  refine
    { nodup := h.nodup
      entry := h.entry
      numBlocks := by simp [remapBlockIds, h.blocks]
      block := ?_
      inst := ?_
      targets := h.targets
      addresses := h.addresses
      tables := ?_
      gotoTargets := ?_
      labels := ?_
      scopes := ?_
      blockSeh := ?_
      lowWordTests := h.lowWordTests
      symbol := h.symbol
      f32Values := h.f32Values
      cmp32 := h.cmp32
      div32 := h.div32 }
  · intro i b hi
    have hb := List.mem_of_getElem? hi
    have hblk := List.getElem?_eq_getElem (h.inRange b hb)
    refine ⟨_, hblk, ?_⟩
    simp only [remapBlockIds, h.blocks, List.map_map, List.getElem?_map, hi, Option.map_some,
      Function.comp, List.getD_eq_getElem?_getD, hblk, Option.getD_some]
    rw [Terminator.mapBlocks_congr fun t ht => hmap t (h.targets b hb _ hblk t ht)]
  · intro b hb v hv
    simp only [remapBlockIds, List.getElem?_map, h.inst b hb v hv, Option.map_map]
    cases hinst : f.insts[v]? with
    | none => rfl
    | some inst =>
      simp only [Option.map_some, Function.comp, Option.some.injEq]
      refine Inst.mapBlocks_congr ?_ ?_
      · intro t ht
        refine hmap t (h.addresses b hb v t hv ?_)
        cases inst with
        | blockAddr u =>
          cases ht
          exact hinst
        | _ => cases ht
      · intro incoming kind hphi q hq
        refine hmap q.1 ?_
        cases inst with
        | phi incoming₀ kind₀ =>
          cases hphi
          exact of_decide_eq_true (List.mem_filter.mp hq).2
        | _ => cases hphi
  · intro b hb blk table hblk htable
    simp only [remapBlockIds, List.getElem?_map, h.tables b hb blk table hblk htable]
    cases hrow : f.jumpTables[table]? with
    | none => rfl
    | some row =>
      have htargets : ∀ t ∈ row, t ∈ order := by
        intro t ht
        refine h.targets b hb blk hblk t ?_
        cases hterm : blk.terminator with
        | jumpTable idx k | asmGoto k =>
          rw [hterm] at htable
          obtain rfl : k = table := Option.some.inj htable
          simpa [Terminator.targets, List.getD_eq_getElem?_getD, hrow] using ht
        | _ =>
          rw [hterm] at htable
          cases htable
      simp only [Option.map_some, Option.some.injEq]
      exact List.map_congr_left fun t ht => hmap t (htargets t ht)
  · simp only [remapBlockIds, h.gotoTargets]
    exact List.map_congr_left fun t ht => hmap t (of_decide_eq_true (List.mem_filter.mp ht).2)
  · simp only [remapBlockIds, h.labels]
    refine List.map_congr_left fun r hr => ?_
    rw [hmap r.block (h.labelsKept r hr)]
  · simp only [remapBlockIds, h.scopes]
    refine List.map_congr_left fun s hs => ?_
    cases htarget : s.target with
    | none => rfl
    | some t => simp only [Option.map_some, hmap t (h.scopesKept s hs t htarget)]
  · intro i b hi
    have hlen : g.blocks.length = order.length := by simp [h.blocks]
    simp only [remapBlockIds, h.blockSeh, hlen]
    exact getD_remapBlockSeh h.nodup h.inRange h.count f.blockSeh hi

/-- Permuting the blocks of a function without low-word tests renames it. -/
theorem permuteBlocks_renamed {f : FunctionSsa} {order : List ℕ} (hn : NamesInRange f)
    (hlow : ∀ b, isMarked f.lowWordTests b = false) (hperm : order.Perm (List.range f.blocks.length))
    (hentry : order[0]? = some 0)
    (htargets : ∀ (b : ℕ) blk, f.blocks[b]? = some blk → TargetsExist f blk.terminator)
    (hgoto : ∀ t ∈ f.computedGotoTargets, t < f.blocks.length) :
    Renamed order f (permuteBlocks f order) := by
  have hmem : ∀ b, b ∈ order ↔ b < f.blocks.length := by
    intro b
    rw [hperm.mem_iff, List.mem_range]
  refine Scrubbed.renamed
    { nodup := hperm.nodup_iff.mpr List.nodup_range
      entry := hentry
      count := hn.count
      inRange := fun b hb => (hmem b).mp hb
      blocks := rfl
      inst := ?_
      targets := ?_
      addresses := fun _ _ v t _ ht => (hmem t).mpr (hn.addresses v t ht)
      tables := fun _ _ _ _ _ _ => rfl
      gotoTargets := ?_
      labels := rfl
      labelsKept := fun r hr => (hmem r.block).mpr (hn.labels r hr)
      scopes := rfl
      scopesKept := fun s hs t ht => (hmem t).mpr (hn.scopes s hs t ht)
      blockSeh := rfl
      lowWordTests := fun i b _ => (hlow i).trans (hlow b).symm
      symbol := fun _ _ _ _ => rfl
      f32Values := rfl
      cmp32 := rfl
      div32 := rfl }
  · intro b _ v _
    cases hinst : f.insts[v]? with
    | none => rfl
    | some inst =>
      cases inst with
      | phi incoming kind =>
        simp only [Option.map_some, Inst.keepIncomes, Option.some.injEq, Inst.phi.injEq, and_true]
        refine (List.filter_eq_self.mpr fun q hq => ?_).symm
        exact decide_eq_true ((hmem q.1).mpr (hn.incomes v incoming kind hinst q hq))
      | _ => rfl
  · intro b _ blk hblk t ht
    exact (hmem t).mpr ((htargets b blk hblk).targets_lt t ht)
  · exact (List.filter_eq_self.mpr fun t ht => decide_eq_true ((hmem t).mpr (hgoto t ht))).symm

end Badc
