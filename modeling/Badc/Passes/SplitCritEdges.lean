import Mathlib.Data.List.TakeWhile
import Badc.Ssa.Verify
import Badc.Ssa.Rename

/-!
# Critical-edge splitting

`src/c5/codegen/passes/split_crit_edges.rs`.  The moves of a phi run at the end of the
predecessor it names, so a block with several successors must have none whose phi names it.  Each
such edge is given an empty block of its own, which jumps to where the edge led.  An indirect branch
lands on the address of a label; there the address moves to the new block instead.

`Split E address f f'` describes the result: every edge `(p, s)` of `E` leads through a new block,
and every address of a block is the one `address` gives.  `runOne_split` says that the pass leaves a
function of this form, with the edges `mem_splitEdges` names.
-/

namespace Badc

/-- Whether the terminator is an indirect branch. -/
def Terminator.isGotoIndirect : Terminator → Bool
  | .gotoIndirect _ => true
  | _ => false

/-- The terminator with `g` applied to the arms of a conditional branch. -/
def Terminator.mapArms (g : ℕ → ℕ) : Terminator → Terminator
  | .bz cond target other => .bz cond (g target) (g other)
  | .bnz cond target other => .bnz cond (g target) (g other)
  | term => term

/-- The phi with `g` applied to the predecessors it names. -/
def Inst.mapPreds (g : ℕ → ℕ) : Inst → Inst
  | .phi incoming kind => .phi (incoming.map fun q => (g q.1, q.2)) kind
  | inst => inst

/-- The instruction with `g` applied to the block whose address it takes. -/
def Inst.mapAddress (g : ℕ → ℕ) : Inst → Inst
  | .blockAddr b => .blockAddr (g b)
  | inst => inst

/-- Whether a phi takes a value from block `p`. -/
def Inst.takesFrom (p : ℕ) : Inst → Bool
  | .phi incoming _ => incoming.any fun q => q.1 = p
  | _ => false

/-- `new` for `old`, and every other number for itself. -/
def renameTo (old new b : ℕ) : ℕ := if b = old then new else b

namespace FunctionSsa

/-- Append a block, in the guarded region of block `owner`. -/
def pushBlockInScopeOf (f : FunctionSsa) (blk : Block) (owner : ℕ) : FunctionSsa :=
  { f with
    blocks := f.blocks ++ [blk]
    blockSeh := if f.hasSeh then
        (List.range f.blocks.length).map f.sehScopeOf ++ [f.sehScopeOf owner]
      else f.blockSeh }

/-- The blocks ending in an indirect branch, ascending. -/
def indirectBranches (f : FunctionSsa) : List ℕ :=
  (f.blocks.zipIdx.filter fun p => p.1.terminator.isGotoIndirect).map Prod.snd

end FunctionSsa

namespace SplitCritEdges

/-- The phis a block opens with. -/
def leadingPhis (f : FunctionSsa) (b : ℕ) : List ℕ :=
  match f.blocks[b]? with
  | none => []
  | some blk => blk.instRange.toList.takeWhile fun v => (f.insts[v]?).any Inst.isPhi

/-- Whether `succ` opens with a phi that names `pred`, so that the edge carries the moves at the
exit of `pred`. -/
def edgeCarriesPhiMoves (f : FunctionSsa) (pred succ : ℕ) : Bool :=
  (leadingPhis f succ).any fun v => (f.insts[v]?).any (Inst.takesFrom pred)

/-- The tape with one predecessor renamed in the phis at the given places. -/
def renamePred (at' : List ℕ) (old new : ℕ) (insts : List Inst) : List Inst :=
  at'.foldl (fun insts v => insts.modify v (Inst.mapPreds (renameTo old new))) insts

/-- The empty block of an edge to `succ`. -/
def edgeBlock (f : FunctionSsa) (succ : ℕ) : Block where
  startPc := 0
  instRange := ⟨f.insts.length, f.insts.length⟩
  terminator := .jmp succ
  exitAcc := noValue

/-- Give the edge from the indirect branch to label `l` a block, the label's new address. -/
def splitLabel (site : ℕ) (st : FunctionSsa × (ℕ → ℕ)) (l : ℕ) : FunctionSsa × (ℕ → ℕ) :=
  let e := st.1.blocks.length
  let g := st.1.pushBlockInScopeOf (edgeBlock st.1 l) l
  ({ g with insts := renamePred (leadingPhis g l) site e g.insts }, Function.update st.2 l e)

/-- The function with every address of a block rewritten. -/
def readdress (f : FunctionSsa) (address : ℕ → ℕ) : FunctionSsa :=
  { f with
    computedGotoTargets := f.computedGotoTargets.map address
    labelDataRelocs := f.labelDataRelocs.map fun r => { r with block := address r.block }
    insts := f.insts.map (Inst.mapAddress address) }

/-- Split the edges from the function's one indirect branch that carry moves. -/
def splitLabelAddresses (f : FunctionSsa) : FunctionSsa :=
  match f.indirectBranches with
  | [site] =>
    let labels := f.computedGotoTargets.filter fun l => edgeCarriesPhiMoves f site l
    if labels.isEmpty then f
    else
      let r := labels.foldl (splitLabel site) (f, fun b => b)
      readdress r.1 r.2
  | _ => f

/-- The edges of one block to split, once each. -/
def blockSplits (f : FunctionSsa) (p : Block × ℕ) : List (ℕ × ℕ) :=
  if p.1.terminator.isGotoIndirect then []
  else
    let succs := successors p.1.terminator [] f.jumpTables
    if succs.length < 2 then []
    else succs.foldl (fun splits succ =>
      if f.blocks.length ≤ succ then splits
      else if splits.any fun q => q.2 = succ then splits
      else if !edgeCarriesPhiMoves f p.2 succ then splits
      else splits ++ [(p.2, succ)]) []

/-- The edges to split. -/
def splits (f : FunctionSsa) : List (ℕ × ℕ) := f.blocks.zipIdx.flatMap (blockSplits f)

/-- The table the terminator of a block names. -/
def tableOf (f : FunctionSsa) (b : ℕ) : Option ℕ := (f.blocks[b]?).bind fun blk =>
  blk.terminator.table?

/-- Lead the edge from `pred` to `succ` through a new block: the block, the arms or the table of the
predecessor, and the phis of the successor at the given places. -/
def throughBlock (f : FunctionSsa) (pred succ owner : ℕ) (places : List ℕ) : FunctionSsa :=
  let e := f.blocks.length
  let g := f.pushBlockInScopeOf (edgeBlock f succ) owner
  { g with
    blocks := g.blocks.modify pred fun blk =>
      { blk with terminator := blk.terminator.mapArms (renameTo succ e) }
    jumpTables := match tableOf f pred with
      | some table => g.jumpTables.modify table fun row => row.map (renameTo succ e)
      | none => g.jumpTables
    insts := renamePred places pred e g.insts }

/-- The places of a block on the tape. -/
def placesOf (f : FunctionSsa) (b : ℕ) : List ℕ :=
  ((f.blocks[b]?).map fun blk => blk.instRange.toList).getD []

/-- Split one edge. -/
def splitEdge (f : FunctionSsa) (edge : ℕ × ℕ) : FunctionSsa :=
  throughBlock f edge.1 edge.2 edge.1 (placesOf f edge.2)

/-- The pass on one function. -/
def runOne (f : FunctionSsa) : FunctionSsa :=
  if f.blocks.isEmpty then f
  else
    let g := splitLabelAddresses f
    (splits g).foldl splitEdge g

/-! ## What the pass leaves -/

/-- The name under which the edge from `p` arrives at `s` once the edges of `E` are split in a
function of `n` blocks. -/
def arrivesAs (n : ℕ) (E : List (ℕ × ℕ)) (s p : ℕ) : ℕ :=
  if (p, s) ∈ E then n + E.idxOf (p, s) else p

/-- Where the edge from `p` to `s` leads. -/
def leadsTo (n : ℕ) (E : List (ℕ × ℕ)) (p s : ℕ) : ℕ :=
  if (p, s) ∈ E then n + E.idxOf (p, s) else s

/-- Where the entry `s` of a jump table leads: through the block of the first edge to `s` split for
a block that names the table. -/
def entryLeadsTo (f : FunctionSsa) (E : List (ℕ × ℕ)) (table s : ℕ) : ℕ :=
  match E.find? fun q => q.2 = s ∧ tableOf f q.1 = some table with
  | some q => f.blocks.length + E.idxOf q
  | none => s

/-- Whether the instruction at `v` is no phi, or one block `s` opens with. -/
def LeadsIfPhi (f : FunctionSsa) (s v : ℕ) : Prop :=
  ∀ inst, f.insts[v]? = some inst → inst.isPhi = true → v ∈ leadingPhis f s

/-- The block in whose guarded region the block of an edge lies: the label of an indirect branch, or
else the predecessor. -/
def edgeOwner (f : FunctionSsa) (edge : ℕ × ℕ) : ℕ :=
  if edge.1 ∈ f.indirectBranches then edge.2 else edge.1

/-- `f'` is `f` with the edges of `E` split and the addresses of blocks rewritten. -/
structure Split (E : List (ℕ × ℕ)) (address : ℕ → ℕ) (f f' : FunctionSsa) : Prop where
  numBlocks : f'.blocks.length = f.blocks.length + E.length
  numInsts : f'.insts.length = f.insts.length
  old : ∀ (b : ℕ) blk, f.blocks[b]? = some blk → f'.blocks[b]? =
    some { blk with terminator := blk.terminator.mapArms (leadsTo f.blocks.length E b) }
  new : ∀ (i : ℕ) p s, E[i]? = some (p, s) →
    f'.blocks[f.blocks.length + i]? = some (edgeBlock f s)
  isPhi : ∀ v : ℕ, (f'.insts[v]?).map Inst.isPhi = (f.insts[v]?).map Inst.isPhi
  inst : ∀ s v, InBlock f v s → LeadsIfPhi f s v → f'.insts[v]? = (f.insts[v]?).map fun inst =>
    (inst.mapPreds (arrivesAs f.blocks.length E s)).mapAddress address
  tables : ∀ table : ℕ, f'.jumpTables[table]? =
    (f.jumpTables[table]?).map fun row => row.map (entryLeadsTo f E table)
  gotoTargets : f'.computedGotoTargets = f.computedGotoTargets.map address
  labels : f'.labelDataRelocs =
    f.labelDataRelocs.map fun r => { r with block := address r.block }
  scopes : f'.sehScopes = f.sehScopes
  oldScope : f.hasSeh = true → ∀ b < f.blocks.length, f'.sehScopeOf b = f.sehScopeOf b
  newScope : f.hasSeh = true → ∀ (i : ℕ) edge, E[i]? = some edge →
    f'.sehScopeOf (f.blocks.length + i) = f.sehScopeOf (edgeOwner f edge)
  symbol : f'.symbolOf = f.symbolOf
  f32Values : f'.f32Values = f.f32Values
  cmp32 : f'.cmp32 = f.cmp32
  div32 : f'.div32 = f.div32
  lowWordTests : f'.lowWordTests = f.lowWordTests

section Names

variable {n : ℕ} {E : List (ℕ × ℕ)} {p s q t : ℕ}

lemma idxOf_append_self {e : ℕ × ℕ} (hnew : e ∉ E) : (E ++ [e]).idxOf e = E.length := by
  rw [List.idxOf_append_of_notMem hnew, List.idxOf_cons_self, Nat.add_zero]

/-- What an edge is called by, the block that splits it or `z`, once one more edge is split. -/
lemma splitName_append {e e' : ℕ × ℕ} {k z : ℕ} {c : Prop} [Decidable c] (hk : k < n)
    (hnew : e' ∉ E) (hlast : e = e' ↔ c ∧ z = k) :
    (if e ∈ E ++ [e'] then n + (E ++ [e']).idxOf e else z) =
      if c then renameTo k (n + E.length) (if e ∈ E then n + E.idxOf e else z)
      else if e ∈ E then n + E.idxOf e else z := by
  unfold renameTo
  by_cases hE : e ∈ E
  · have hne : n + E.idxOf e ≠ k := by omega
    simp only [List.mem_append, hE, true_or, if_true, List.idxOf_append_of_mem hE, hne, if_false,
      ite_self]
  · by_cases heq : e = e'
    · obtain ⟨hc, rfl⟩ := hlast.mp heq
      subst heq
      simp [hE, hc, idxOf_append_self hE]
    · have hout : e ∉ E ++ [e'] := by simpa [hE] using heq
      rw [if_neg hout, if_neg hE]
      split
      · rw [if_neg fun hz => heq (hlast.mpr ⟨‹_›, hz⟩)]
      · rfl

lemma arrivesAs_append (hp : p < n) (hnew : (p, s) ∉ E) :
    arrivesAs n (E ++ [(p, s)]) t q =
      if t = s then renameTo p (n + E.length) (arrivesAs n E t q) else arrivesAs n E t q :=
  splitName_append hp hnew (by rw [Prod.mk.injEq, and_comm])

lemma leadsTo_append (hs : s < n) (hnew : (p, s) ∉ E) :
    leadsTo n (E ++ [(p, s)]) q t =
      if q = p then renameTo s (n + E.length) (leadsTo n E q t) else leadsTo n E q t :=
  splitName_append hs hnew (by rw [Prod.mk.injEq])

/-- Where a table's entry leads once one more edge is split. -/
lemma entryLeadsTo_append {f : FunctionSsa} {table : ℕ} (hs : s < f.blocks.length)
    (hnew : (p, s) ∉ E) :
    entryLeadsTo f (E ++ [(p, s)]) table t =
      if tableOf f p = some table then
        renameTo s (f.blocks.length + E.length) (entryLeadsTo f E table t)
      else entryLeadsTo f E table t := by
  unfold entryLeadsTo renameTo
  rw [List.find?_append]
  cases hfind : E.find? fun q => q.2 = t ∧ tableOf f q.1 = some table with
  | some q =>
    have hq : q ∈ E := List.mem_of_find?_eq_some hfind
    have hne : f.blocks.length + E.idxOf q ≠ s := by omega
    simp only [Option.some_or, List.idxOf_append_of_mem hq, hne, if_false, ite_self]
  | none =>
    by_cases htable : tableOf f p = some table
    · by_cases ht : t = s
      · subst ht
        simp [htable, idxOf_append_self hnew]
      · have hts : ¬ s = t := fun h => ht h.symm
        simp [htable, ht, hts]
    · simp [htable]

end Names

/-- Renaming at the given places renames there and nowhere else. -/
lemma getElem?_renamePred {places : List ℕ} (hnd : places.Nodup) {old new v : ℕ}
    {insts : List Inst} : (renamePred places old new insts)[v]? =
      if v ∈ places then (insts[v]?).map (Inst.mapPreds (renameTo old new)) else insts[v]? := by
  unfold renamePred
  induction places generalizing insts with
  | nil => simp
  | cons a places ih =>
    obtain ⟨ha, hnd⟩ := List.nodup_cons.mp hnd
    rw [List.foldl_cons, ih hnd, List.getElem?_modify]
    by_cases hv : v = a
    · subst hv
      simp [ha]
    · have hav : ¬ a = v := fun h => hv h.symm
      simp [hv, hav]

lemma length_renamePred {places : List ℕ} {old new : ℕ} {insts : List Inst} :
    (renamePred places old new insts).length = insts.length := by
  unfold renamePred
  induction places generalizing insts with
  | nil => rfl
  | cons a places ih => rw [List.foldl_cons, ih, List.length_modify]

@[simp] lemma isPhi_mapPreds (g : ℕ → ℕ) (inst : Inst) :
    (inst.mapPreds g).isPhi = inst.isPhi := by
  cases inst <;> rfl

@[simp] lemma isPhi_mapAddress (g : ℕ → ℕ) (inst : Inst) :
    (inst.mapAddress g).isPhi = inst.isPhi := by
  cases inst <;> rfl

lemma mapPreds_mapAddress (g h address : ℕ → ℕ) (inst : Inst) :
    ((inst.mapPreds g).mapAddress address).mapPreds h =
      (inst.mapPreds fun q => h (g q)).mapAddress address := by
  cases inst <;> simp [Inst.mapPreds, Inst.mapAddress]

lemma mapPreds_of_not_phi {inst : Inst} (h : inst.isPhi = false) (g : ℕ → ℕ) :
    inst.mapPreds g = inst := by
  cases inst with
  | phi incoming kind => cases h
  | _ => rfl

lemma mapAddress_id (inst : Inst) : inst.mapAddress (fun b => b) = inst := by
  cases inst <;> rfl

@[simp] lemma table?_mapArms (g : ℕ → ℕ) (term : Terminator) :
    (term.mapArms g).table? = term.table? := by
  cases term <;> rfl

lemma nodup_leadingPhis (f : FunctionSsa) (b : ℕ) : (leadingPhis f b).Nodup := by
  unfold leadingPhis
  split
  · exact List.nodup_nil
  · rename_i blk _
    exact (List.takeWhile_sublist _).nodup blk.instRange.nodup_toList

/-- The phis a block opens with lie in it. -/
lemma inBlock_of_mem_leadingPhis {f : FunctionSsa} {b v : ℕ} (h : v ∈ leadingPhis f b) :
    InBlock f v b ∧ ∃ inst, f.insts[v]? = some inst ∧ inst.isPhi = true := by
  unfold leadingPhis at h
  split at h
  · cases h
  · rename_i blk hblk
    have hphi := List.mem_takeWhile_imp h
    refine ⟨⟨blk, hblk, InstRange.mem_toList.mp ((List.takeWhile_subset _) h)⟩, ?_⟩
    cases hinst : f.insts[v]? with
    | none => simp [hinst] at hphi
    | some inst => exact ⟨inst, rfl, by simpa [hinst] using hphi⟩

/-- The region of each block once one is appended. -/
lemma sehScopeOf_push {f : FunctionSsa} (blk : Block) {owner b : ℕ} (hseh : f.hasSeh = true) :
    (f.pushBlockInScopeOf blk owner).sehScopeOf b =
      if b < f.blocks.length then f.sehScopeOf b
      else if b = f.blocks.length then f.sehScopeOf owner else none := by
  simp only [FunctionSsa.pushBlockInScopeOf, hseh, if_true]
  rw [FunctionSsa.sehScopeOf, List.getD_eq_getElem?_getD]
  split
  · rename_i hb
    rw [List.getElem?_append_left (by simpa using hb)]
    simp [hb]
  · rename_i hb
    rw [List.getElem?_append_right (by simpa using hb), List.length_map, List.length_range]
    split
    · rename_i heq
      simp [heq]
    · rename_i hne
      rw [List.getElem?_eq_none]
      · rfl
      · simp only [List.length_singleton]
        omega

section Step

variable {E : List (ℕ × ℕ)} {address : ℕ → ℕ} {f g : FunctionSsa} {p s : ℕ}

/-- The function is itself, before any edge is split. -/
lemma Split.refl (f : FunctionSsa) : Split [] (fun b => b) f f where
  numBlocks := rfl
  numInsts := rfl
  old b blk h := by
    have hid : leadsTo f.blocks.length [] b = fun t => t := by
      funext t
      simp [leadsTo]
    rw [h, hid]
    cases blk with
    | mk startPc instRange terminator exitAcc => cases terminator <;> rfl
  new i p s h := by simp at h
  isPhi v := rfl
  inst s v _ _ := by
    have hid : ∀ inst : Inst,
        (inst.mapPreds (arrivesAs f.blocks.length [] s)).mapAddress (fun b => b) = inst := by
      intro inst
      cases inst <;> simp [Inst.mapPreds, Inst.mapAddress, arrivesAs]
    simp only [hid, Option.map_id']
  tables table := by
    have hid : entryLeadsTo f [] table = fun t => t := by
      funext t
      simp [entryLeadsTo]
    simp [hid]
  gotoTargets := by simp
  labels := by simp
  scopes := rfl
  oldScope _ _ _ := rfl
  newScope _ i edge h := by simp at h
  symbol := rfl
  f32Values := rfl
  cmp32 := rfl
  div32 := rfl
  lowWordTests := rfl

lemma Split.leadingPhis_eq (h : Split E address f g) (hs : s < f.blocks.length) :
    leadingPhis g s = leadingPhis f s := by
  have hblk := List.getElem?_eq_getElem hs
  have hphi : (fun v : ℕ => (g.insts[v]?).any Inst.isPhi) =
      fun v => (f.insts[v]?).any Inst.isPhi := by
    funext v
    have hv := h.isPhi v
    cases hg : g.insts[v]? <;> cases hf : f.insts[v]? <;> simp_all
  simp only [leadingPhis, h.old s _ hblk, hblk, hphi]

lemma Split.tableOf_eq (h : Split E address f g) (hp : p < f.blocks.length) :
    tableOf g p = tableOf f p := by
  have hblk := List.getElem?_eq_getElem hp
  simp [tableOf, h.old p _ hblk, hblk]

/-- The instructions once one more edge is split. -/
lemma Split.inst_step (h : Split E address f g) (hp : p < f.blocks.length) (hnew : (p, s) ∉ E)
    {places : List ℕ} (hnd : places.Nodup)
    (hplaces : ∀ t v, InBlock f v t → v ∈ leadingPhis f t → (v ∈ places ↔ t = s)) {t v : ℕ}
    (hv : InBlock f v t) (hlead : LeadsIfPhi f t v) :
    (renamePred places p g.blocks.length g.insts)[v]? = (f.insts[v]?).map fun inst =>
      (inst.mapPreds (arrivesAs f.blocks.length (E ++ [(p, s)]) t)).mapAddress address := by
  rw [getElem?_renamePred hnd, h.inst t v hv hlead, Option.map_map]
  cases hinst : f.insts[v]? with
  | none => simp
  | some inst =>
    cases hphi : inst.isPhi with
    | false =>
      -- Only phis name predecessors.
      have hno : ∀ g, (inst.mapAddress address).mapPreds g = inst.mapAddress address := fun g =>
        mapPreds_of_not_phi (by rw [isPhi_mapAddress, hphi]) g
      simp [mapPreds_of_not_phi hphi, hno]
    | true =>
      have hiff := hplaces t v hv (hlead inst hinst hphi)
      have hnames : arrivesAs f.blocks.length (E ++ [(p, s)]) t = fun q =>
          if t = s then renameTo p g.blocks.length (arrivesAs f.blocks.length E t q)
          else arrivesAs f.blocks.length E t q := by
        funext q
        rw [arrivesAs_append hp hnew, h.numBlocks]
      rw [hnames]
      by_cases hts : t = s
      · simp [hiff, hts, mapPreds_mapAddress]
      · simp [hiff, hts]

/-- One more edge is split when it leads through a new block. -/
lemma Split.append (h : Split E address f g) (hp : p < f.blocks.length)
    (hs : s < f.blocks.length) (hnew : (p, s) ∉ E) {places : List ℕ} (hnd : places.Nodup)
    (hplaces : ∀ t v, InBlock f v t → v ∈ leadingPhis f t → (v ∈ places ↔ t = s)) :
    Split (E ++ [(p, s)]) address f (throughBlock g p s (edgeOwner f (p, s)) places) where
  numBlocks := by
    simp only [throughBlock, FunctionSsa.pushBlockInScopeOf, List.length_modify, List.length_append,
      h.numBlocks, List.length_singleton]
    omega
  numInsts := by
    rw [← h.numInsts]
    exact length_renamePred
  old b blk hblk := by
    have hb : b < f.blocks.length := (List.getElem?_eq_some_iff.mp hblk).1
    have hbg : b < g.blocks.length := by
      rw [h.numBlocks]
      omega
    have hlead : leadsTo f.blocks.length (E ++ [(p, s)]) b = fun t =>
        if b = p then renameTo s g.blocks.length (leadsTo f.blocks.length E b t)
        else leadsTo f.blocks.length E b t := by
      funext t
      rw [leadsTo_append hs hnew, h.numBlocks]
    simp only [throughBlock, FunctionSsa.pushBlockInScopeOf, List.getElem?_modify,
      List.getElem?_append_left hbg, h.old b blk hblk, hlead]
    by_cases hbp : p = b
    · simp only [hbp, if_true]
      cases blk.terminator <;> rfl
    · have hpb : ¬ b = p := fun e => hbp e.symm
      simp only [hbp, hpb, if_false]
      rfl
  new i q t hi := by
    have hbound : f.blocks.length + i ≠ p := by omega
    simp only [throughBlock, FunctionSsa.pushBlockInScopeOf, List.getElem?_modify, hbound.symm,
      if_false]
    rcases Nat.lt_or_ge i E.length with hlt | hge
    · rw [List.getElem?_append_left hlt] at hi
      rw [List.getElem?_append_left (by rw [h.numBlocks]; omega), h.new i q t hi]
      rfl
    · obtain rfl : i = E.length := by
        have := (List.getElem?_eq_some_iff.mp hi).1
        rw [List.length_append, List.length_singleton] at this
        omega
      rw [List.getElem?_append_right le_rfl, Nat.sub_self] at hi
      obtain ⟨rfl, rfl⟩ := Prod.mk.inj (Option.some.inj hi)
      rw [← h.numBlocks, List.getElem?_append_right le_rfl, Nat.sub_self]
      simp [edgeBlock, h.numInsts]
  isPhi v := by
    rw [← h.isPhi v]
    simp only [throughBlock, FunctionSsa.pushBlockInScopeOf, getElem?_renamePred hnd]
    split
    · cases g.insts[v]? <;> simp
    · rfl
  inst t v hv hlead := h.inst_step hp hnew hnd hplaces hv hlead
  tables table := by
    have hentry : entryLeadsTo f (E ++ [(p, s)]) table = fun t =>
        if tableOf f p = some table then
          renameTo s g.blocks.length (entryLeadsTo f E table t)
        else entryLeadsTo f E table t := by
      funext t
      rw [entryLeadsTo_append hs hnew, h.numBlocks]
    simp only [throughBlock, FunctionSsa.pushBlockInScopeOf, h.tableOf_eq hp, hentry]
    cases hp : tableOf f p with
    | none => simp [h.tables]
    | some row =>
      dsimp only
      rw [List.getElem?_modify, h.tables]
      by_cases hrow : row = table
      · simp [hrow, Function.comp_def]
      · have hne : ¬ some row = some table := fun e => hrow (Option.some.inj e)
        simp [hrow]
  gotoTargets := h.gotoTargets
  labels := h.labels
  scopes := h.scopes
  oldScope hseh b hb := by
    have hg : g.hasSeh = true := by
      rw [FunctionSsa.hasSeh, h.scopes]
      exact hseh
    have hbg : b < g.blocks.length := by
      rw [h.numBlocks]
      omega
    rw [← h.oldScope hseh b hb]
    exact (sehScopeOf_push (edgeBlock g s) hg).trans (if_pos hbg)
  newScope hseh i edge hi := by
    have hg : g.hasSeh = true := by
      rw [FunctionSsa.hasSeh, h.scopes]
      exact hseh
    have howner : g.sehScopeOf (edgeOwner f (p, s)) = f.sehScopeOf (edgeOwner f (p, s)) := by
      refine h.oldScope hseh _ ?_
      unfold edgeOwner
      split
      · exact hs
      · exact hp
    rcases Nat.lt_or_ge i E.length with hlt | hge
    · rw [List.getElem?_append_left hlt] at hi
      rw [← h.newScope hseh i edge hi]
      have hbg : f.blocks.length + i < g.blocks.length := by
        rw [h.numBlocks]
        omega
      exact (sehScopeOf_push (edgeBlock g s) hg).trans (if_pos hbg)
    · obtain rfl : i = E.length := by
        have := (List.getElem?_eq_some_iff.mp hi).1
        rw [List.length_append, List.length_singleton] at this
        omega
      rw [List.getElem?_append_right le_rfl, Nat.sub_self] at hi
      obtain rfl := Option.some.inj hi
      rw [← howner, ← h.numBlocks]
      exact (sehScopeOf_push (edgeBlock g s) hg).trans (by rw [if_neg (lt_irrefl _), if_pos rfl])
  symbol := h.symbol
  f32Values := h.f32Values
  cmp32 := h.cmp32
  div32 := h.div32
  lowWordTests := h.lowWordTests

/-- Every address of a block is rewritten. -/
lemma Split.readdress (h : Split E (fun b => b) f g) :
    Split E address f (readdress g address) where
  numBlocks := h.numBlocks
  numInsts := (List.length_map _).trans h.numInsts
  old := h.old
  new := h.new
  isPhi v := by
    rw [← h.isPhi v]
    simp only [SplitCritEdges.readdress, List.getElem?_map, Option.map_map, Function.comp_def,
      isPhi_mapAddress]
  inst s v hv hlead := by
    simp only [SplitCritEdges.readdress, List.getElem?_map, h.inst s v hv hlead, Option.map_map,
      Function.comp_def, mapAddress_id]
  tables := h.tables
  gotoTargets := by simp [SplitCritEdges.readdress, h.gotoTargets]
  labels := by simp [SplitCritEdges.readdress, h.labels]
  scopes := h.scopes
  oldScope := h.oldScope
  newScope := h.newScope
  symbol := h.symbol
  f32Values := h.f32Values
  cmp32 := h.cmp32
  div32 := h.div32
  lowWordTests := h.lowWordTests

end Step

lemma mem_indirectBranches {f : FunctionSsa} {b : ℕ} : b ∈ f.indirectBranches ↔
    ∃ blk, f.blocks[b]? = some blk ∧ blk.terminator.isGotoIndirect = true := by
  simp only [FunctionSsa.indirectBranches, List.mem_map, List.mem_filter, Prod.exists,
    List.mem_zipIdx_iff_getElem?]
  constructor
  · rintro ⟨blk, c, h, rfl⟩
    exact ⟨blk, h⟩
  · rintro ⟨blk, h⟩
    exact ⟨blk, b, h, rfl⟩

lemma mapArms_of_isGotoIndirect {term : Terminator} (h : term.isGotoIndirect = true)
    (g : ℕ → ℕ) : term.mapArms g = term := by
  cases term with
  | gotoIndirect target => rfl
  | _ => cases h

lemma table?_of_isGotoIndirect {term : Terminator} (h : term.isGotoIndirect = true) :
    term.table? = none := by
  cases term with
  | gotoIndirect target => rfl
  | _ => cases h

section Phases

variable {f : FunctionSsa} {E : List (ℕ × ℕ)} {address : ℕ → ℕ}

/-- Splitting the edge from an indirect branch to a label. -/
lemma Split.splitLabel {g : FunctionSsa} (h : Split E address f g)
    (hdisj : ∀ v b c, InBlock f v b → InBlock f v c → b = c) {site l : ℕ}
    (hsite : site ∈ f.indirectBranches) (hl : l < f.blocks.length) (hnew : (site, l) ∉ E)
    (moved : ℕ → ℕ) :
    Split (E ++ [(site, l)]) address f (SplitCritEdges.splitLabel site (g, moved) l).1 := by
  obtain ⟨blk, hblk, hgoto⟩ := mem_indirectBranches.mp hsite
  have hp : site < f.blocks.length := (List.getElem?_eq_some_iff.mp hblk).1
  have howner : edgeOwner f (site, l) = l := if_pos hsite
  have hplaces : ∀ t v, InBlock f v t → v ∈ leadingPhis f t →
      (v ∈ leadingPhis f l ↔ t = l) := fun t v hv hlead =>
    ⟨fun hvl => hdisj v t l hv (inBlock_of_mem_leadingPhis hvl).1, fun ht => ht ▸ hlead⟩
  have happend := h.append hp hl hnew (nodup_leadingPhis f l) hplaces
  -- An indirect branch has no arms and no table to rewrite.
  have hsame : throughBlock g site l l (leadingPhis f l) =
      (SplitCritEdges.splitLabel site (g, moved) l).1 := by
    have hlg : l < g.blocks.length := by
      rw [h.numBlocks]
      omega
    have hlead : leadingPhis (g.pushBlockInScopeOf (edgeBlock g l) l) l = leadingPhis f l := by
      rw [← h.leadingPhis_eq hl]
      simp only [leadingPhis, FunctionSsa.pushBlockInScopeOf, List.getElem?_append_left hlg]
    have htable : tableOf g site = none := by
      rw [h.tableOf_eq hp]
      simp [tableOf, hblk, table?_of_isGotoIndirect hgoto]
    have hblocks : (g.blocks ++ [edgeBlock g l]).modify site (fun blk =>
        { blk with terminator := blk.terminator.mapArms (renameTo l g.blocks.length) }) =
        g.blocks ++ [edgeBlock g l] := by
      refine List.ext_getElem? fun b => ?_
      rw [List.getElem?_modify]
      by_cases hb : site = b
      · subst hb
        have hpg : site < g.blocks.length := by
          rw [h.numBlocks]
          omega
        rw [List.getElem?_append_left hpg, h.old site blk hblk]
        simp [mapArms_of_isGotoIndirect hgoto]
      · simp [hb]
    simp only [throughBlock, SplitCritEdges.splitLabel, htable]
    rw [hlead]
    simp only [FunctionSsa.pushBlockInScopeOf, hblocks]
  rw [howner, hsame] at happend
  exact happend

/-- Splitting the edges from an indirect branch to labels one after the other: each label moves to
the block of its edge. -/
lemma Split.foldl_splitLabel (hdisj : ∀ v b c, InBlock f v b → InBlock f v c → b = c) {site : ℕ}
    (hsite : site ∈ f.indirectBranches) {l : List ℕ} (hnd : (E ++ l.map fun t => (site, t)).Nodup)
    (hl : ∀ t ∈ l, t < f.blocks.length) {g : FunctionSsa} (h : Split E address f g)
    (moved : ℕ → ℕ) :
    Split (E ++ l.map fun t => (site, t)) address f
        (l.foldl (SplitCritEdges.splitLabel site) (g, moved)).1 ∧
      (l.foldl (SplitCritEdges.splitLabel site) (g, moved)).2 =
        fun b => if b ∈ l then f.blocks.length + E.length + l.idxOf b else moved b := by
  induction l generalizing E g moved with
  | nil => simpa using h
  | cons t l ih =>
    have hdis := List.disjoint_of_nodup_append hnd
    have hnew : (site, t) ∉ E := fun hmem => hdis hmem (by simp)
    have hone := h.splitLabel hdisj hsite (hl t (.head _)) hnew moved
    have ⟨hsplit, hmoved⟩ := ih (E := E ++ [(site, t)]) (by simpa using hnd)
      (fun u hu => hl u (.tail _ hu)) hone
      (SplitCritEdges.splitLabel site (g, moved) t).2
    have ht : t ∉ l := by
      have hmap := hnd.of_append_right
      rw [List.map_cons, List.nodup_cons] at hmap
      exact fun hmem => hmap.1 (List.mem_map_of_mem hmem)
    rw [List.foldl_cons]
    refine ⟨by simpa using hsplit, ?_⟩
    rw [show (SplitCritEdges.splitLabel site (g, moved) t) =
      ((SplitCritEdges.splitLabel site (g, moved) t).1,
        (SplitCritEdges.splitLabel site (g, moved) t).2) from rfl, hmoved]
    funext b
    by_cases hbt : b = t
    · subst hbt
      simp [ht, SplitCritEdges.splitLabel, h.numBlocks]
    · have htb : ¬ t = b := fun e => hbt e.symm
      simp only [List.mem_cons, hbt, false_or, SplitCritEdges.splitLabel, Function.update_of_ne hbt,
        List.length_append, List.length_singleton, List.idxOf_cons_ne l htb]
      split
      · omega
      · rfl

end Phases

/-- The labels that move: those the function's one indirect branch carries moves to. -/
def movedLabels (f : FunctionSsa) : List ℕ :=
  match f.indirectBranches with
  | [site] => f.computedGotoTargets.filter fun l => edgeCarriesPhiMoves f site l
  | _ => []

/-- The edges to the labels that move. -/
def labelEdges (f : FunctionSsa) : List (ℕ × ℕ) :=
  match f.indirectBranches with
  | [site] => (movedLabels f).map fun l => (site, l)
  | _ => []

/-- The address of each block after the labels have moved. -/
def newAddress (f : FunctionSsa) (b : ℕ) : ℕ :=
  if b ∈ movedLabels f then f.blocks.length + (movedLabels f).idxOf b else b

/-- The labels' edges are split, and their addresses moved. -/
lemma splitLabelAddresses_split {f : FunctionSsa}
    (hdisj : ∀ v b c, InBlock f v b → InBlock f v c → b = c)
    (hgoto : ∀ t ∈ f.computedGotoTargets, t < f.blocks.length) (hnd : (movedLabels f).Nodup) :
    Split (labelEdges f) (newAddress f) f (splitLabelAddresses f) := by
  have hnone : movedLabels f = [] → Split [] (newAddress f) f f := by
    intro hnil
    have hid : newAddress f = fun b => b := by
      funext b
      simp [newAddress, hnil]
    rw [hid]
    exact .refl f
  unfold labelEdges splitLabelAddresses
  split
  · rename_i site hsites
    have hmoved : movedLabels f = f.computedGotoTargets.filter fun l =>
        edgeCarriesPhiMoves f site l := by
      simp only [movedLabels, hsites]
    dsimp only
    rw [← hmoved]
    split
    · rename_i hempty
      rw [List.isEmpty_iff] at hempty
      rw [hempty]
      exact hnone hempty
    · have hlabels : ∀ t ∈ movedLabels f, t < f.blocks.length := by
        intro t ht
        rw [hmoved] at ht
        exact hgoto t (List.mem_of_mem_filter ht)
      have hpairs : ([] ++ (movedLabels f).map fun t => (site, t)).Nodup := by
        rw [List.nil_append]
        exact hnd.map fun _ _ h => (Prod.mk.inj h).2
      obtain ⟨hsplit, haddr⟩ := (Split.refl f).foldl_splitLabel hdisj
        (by simp [hsites]) hpairs hlabels fun b => b
      have hread : Split _ ((movedLabels f).foldl (splitLabel site) (f, fun b => b)).2 f _ :=
        hsplit.readdress
      rw [haddr] at hread ⊢
      exact hread
  · rename_i hsites
    refine hnone ?_
    unfold movedLabels
    split
    · rename_i site hone
      exact absurd hone (hsites site)
    · rfl

/-! ## The edges that are split -/

/-- Whether the edge from `p` to `s` carries moves next to another edge from `p`, and no indirect
branch takes it. -/
def Critical (f : FunctionSsa) (p s : ℕ) : Prop :=
  ∃ blk, f.blocks[p]? = some blk ∧ blk.terminator.isGotoIndirect = false ∧
    2 ≤ (successors blk.terminator [] f.jumpTables).length ∧
    s ∈ successors blk.terminator [] f.jumpTables ∧ edgeCarriesPhiMoves f p s = true

/-- The edges the pass splits. -/
def splitEdges (f : FunctionSsa) : List (ℕ × ℕ) := labelEdges f ++ splits (splitLabelAddresses f)

/-- What the loop over the successors of a block collects. -/
lemma foldl_successors_spec {f : FunctionSsa} {p : ℕ} (l : List ℕ) {acc : List (ℕ × ℕ)}
    (hnd : acc.Nodup) (hacc : ∀ q ∈ acc, q.1 = p) :
    let out := l.foldl (fun splits succ =>
      if f.blocks.length ≤ succ then splits
      else if splits.any fun q => q.2 = succ then splits
      else if !edgeCarriesPhiMoves f p succ then splits
      else splits ++ [(p, succ)]) acc
    out.Nodup ∧ ∀ q, q ∈ out ↔ q ∈ acc ∨
      q.1 = p ∧ q.2 ∈ l ∧ q.2 < f.blocks.length ∧ edgeCarriesPhiMoves f p q.2 = true := by
  induction l generalizing acc with
  | nil => simp [hnd]
  | cons t l ih =>
    simp only [List.foldl_cons]
    have hskip : (¬ (t < f.blocks.length ∧ edgeCarriesPhiMoves f p t = true) ∨ (p, t) ∈ acc) →
        ∀ q : ℕ × ℕ, (q ∈ acc ∨ q.1 = p ∧ q.2 ∈ l ∧ q.2 < f.blocks.length ∧
            edgeCarriesPhiMoves f p q.2 = true) ↔
          (q ∈ acc ∨ q.1 = p ∧ q.2 ∈ t :: l ∧ q.2 < f.blocks.length ∧
            edgeCarriesPhiMoves f p q.2 = true) := by
      rintro hno ⟨a, b⟩
      constructor
      · rintro (h | ⟨h1, h2, h3⟩)
        · exact Or.inl h
        · exact Or.inr ⟨h1, List.mem_cons_of_mem _ h2, h3⟩
      · rintro (h | ⟨rfl, h2, h3⟩)
        · exact Or.inl h
        · rcases List.mem_cons.mp h2 with rfl | h2
          · exact Or.inl (hno.resolve_left fun h => h h3)
          · exact Or.inr ⟨rfl, h2, h3⟩
    split
    · rename_i hge
      obtain ⟨h1, h2⟩ := ih hnd hacc
      exact ⟨h1, fun q => (h2 q).trans (hskip (Or.inl fun h => absurd h.1 (by omega)) q)⟩
    · rename_i hlt
      split
      · rename_i hany
        obtain ⟨⟨a, b⟩, hq, hqt⟩ := List.any_eq_true.mp hany
        obtain rfl : a = p := hacc _ hq
        obtain rfl : b = t := of_decide_eq_true hqt
        obtain ⟨h1, h2⟩ := ih hnd hacc
        exact ⟨h1, fun q => (h2 q).trans (hskip (Or.inr hq) q)⟩
      · rename_i hany
        split
        · rename_i hcarry
          obtain ⟨h1, h2⟩ := ih hnd hacc
          refine ⟨h1, fun q => (h2 q).trans (hskip (Or.inl fun h => ?_) q)⟩
          simp [h.2] at hcarry
        · rename_i hcarry
          have hcarry : edgeCarriesPhiMoves f p t = true := by simpa using hcarry
          have hnew : (p, t) ∉ acc := fun hmem =>
            hany (List.any_eq_true.mpr ⟨(p, t), hmem, by simp⟩)
          obtain ⟨h1, h2⟩ := @ih (acc ++ [(p, t)])
            (List.nodup_append.mpr ⟨hnd, List.nodup_singleton _, fun a ha b hb hab => hnew
              (by rw [← List.mem_singleton.mp hb, ← hab]; exact ha)⟩)
            (by simpa [or_imp, forall_and] using hacc)
          refine ⟨h1, fun q => (h2 q).trans ?_⟩
          obtain ⟨a, b⟩ := q
          simp only [List.mem_append, List.mem_singleton, Prod.mk.injEq]
          rw [List.mem_cons]
          constructor
          · rintro ((h | ⟨rfl, rfl⟩) | ⟨rfl, h, hb⟩)
            · exact Or.inl h
            · exact Or.inr ⟨rfl, Or.inl rfl, by omega, hcarry⟩
            · exact Or.inr ⟨rfl, Or.inr h, hb⟩
          · rintro (h | ⟨rfl, rfl | h, hb⟩)
            · exact Or.inl (Or.inl h)
            · exact Or.inl (Or.inr ⟨rfl, rfl⟩)
            · exact Or.inr ⟨rfl, h, hb⟩

/-- The edges of one block to split. -/
lemma blockSplits_spec {f : FunctionSsa} {blk : Block} {p : ℕ} (hblk : f.blocks[p]? = some blk) :
    (blockSplits f (blk, p)).Nodup ∧ ∀ q, q ∈ blockSplits f (blk, p) ↔
      q.1 = p ∧ q.2 < f.blocks.length ∧ Critical f q.1 q.2 := by
  have hcrit : ∀ s, Critical f p s ↔ blk.terminator.isGotoIndirect = false ∧
      2 ≤ (successors blk.terminator [] f.jumpTables).length ∧
      s ∈ successors blk.terminator [] f.jumpTables ∧ edgeCarriesPhiMoves f p s = true := by
    intro s
    simp [Critical, hblk]
  have hiff : ∀ q : ℕ × ℕ, q.1 = p ∧ q.2 < f.blocks.length ∧ Critical f q.1 q.2 ↔
      q.1 = p ∧ q.2 < f.blocks.length ∧ Critical f p q.2 := by
    intro q
    constructor
    · rintro ⟨rfl, h⟩
      exact ⟨rfl, h⟩
    · rintro ⟨rfl, h⟩
      exact ⟨rfl, h⟩
  simp only [hiff, hcrit]
  unfold blockSplits
  split
  · rename_i hgoto
    simp [hgoto]
  · rename_i hgoto
    dsimp only
    split
    · rename_i hlen
      refine ⟨List.nodup_nil, fun q => ?_⟩
      simp only [List.not_mem_nil, false_iff]
      rintro ⟨-, -, -, h, -⟩
      omega
    · rename_i hlen
      obtain ⟨h1, h2⟩ := foldl_successors_spec (f := f) (p := p)
        (successors blk.terminator [] f.jumpTables) List.nodup_nil (by simp)
      refine ⟨h1, fun q => (h2 q).trans ?_⟩
      rw [Bool.not_eq_true] at hgoto
      simp only [List.not_mem_nil, false_or, hgoto, true_and, not_lt.mp hlen]
      tauto

/-- The edges to split are those that are critical and lead to a block, once each. -/
lemma splits_spec (f : FunctionSsa) :
    (splits f).Nodup ∧ ∀ p s, (p, s) ∈ splits f ↔ s < f.blocks.length ∧ Critical f p s := by
  constructor
  · refine List.nodup_flatMap.mpr ⟨?_, ?_⟩
    · rintro ⟨blk, p⟩ hp
      exact (blockSplits_spec (List.mem_zipIdx_iff_getElem?.mp hp)).1
    · have hsnd : (f.blocks.zipIdx.map Prod.snd).Nodup := by
        rw [List.zipIdx_map_snd]
        exact List.nodup_range'
      have hpair : f.blocks.zipIdx.Pairwise fun a b => a.2 ≠ b.2 := List.pairwise_map.mp hsnd
      refine hpair.imp_of_mem fun {a b} ha hb hne => ?_
      rintro q hqa hqb
      refine hne ?_
      rw [← (((blockSplits_spec (List.mem_zipIdx_iff_getElem?.mp ha)).2 q).mp hqa).1,
        ← (((blockSplits_spec (List.mem_zipIdx_iff_getElem?.mp hb)).2 q).mp hqb).1]
  · intro p s
    rw [splits, List.mem_flatMap]
    constructor
    · rintro ⟨⟨blk, b⟩, hb, hq⟩
      exact (((blockSplits_spec (List.mem_zipIdx_iff_getElem?.mp hb)).2 (p, s)).mp hq).2
    · rintro ⟨hs, hcrit⟩
      have ⟨blk, hblk, _⟩ := hcrit
      exact ⟨(blk, p), List.mem_zipIdx_iff_getElem?.mpr hblk,
        ((blockSplits_spec hblk).2 (p, s)).mpr ⟨rfl, hs, hcrit⟩⟩

/-- An edge arrives under the name of a block of the function only where it is not split. -/
lemma arrivesAs_eq_iff {n : ℕ} {E : List (ℕ × ℕ)} {p q s : ℕ} (hp : p < n) :
    arrivesAs n E s q = p ↔ q = p ∧ (p, s) ∉ E := by
  unfold arrivesAs
  split
  · rename_i hmem
    constructor
    · intro h
      omega
    · rintro ⟨rfl, hno⟩
      exact absurd hmem hno
  · rename_i hno
    constructor
    · rintro rfl
      exact ⟨rfl, hno⟩
    · exact fun h => h.1

/-- Renaming predecessors and addresses, and which predecessors a phi names. -/
lemma takesFrom_rename (g address : ℕ → ℕ) (p : ℕ) (inst : Inst) :
    ((inst.mapPreds g).mapAddress address).takesFrom p = true ↔
      ∃ q, inst.takesFrom q = true ∧ g q = p := by
  cases inst with
  | phi incoming kind =>
    simp only [Inst.mapPreds, Inst.mapAddress, Inst.takesFrom, List.any_map, List.any_eq_true,
      Function.comp, decide_eq_true_eq]
    constructor
    · rintro ⟨q, hq, hg⟩
      exact ⟨q.1, ⟨q, hq, rfl⟩, hg⟩
    · rintro ⟨-, ⟨q, hq, rfl⟩, hg⟩
      exact ⟨q, hq, hg⟩
  | _ => simp [Inst.mapPreds, Inst.mapAddress, Inst.takesFrom]

lemma successors_direct {term : Terminator} (h : term.isGotoIndirect = false) (labels : List ℕ)
    (tables : List (List ℕ)) : successors term [] tables = successors term labels tables := by
  cases term with
  | gotoIndirect target => cases h
  | _ => rfl

section Edges

variable {f g : FunctionSsa} {E : List (ℕ × ℕ)} {address : ℕ → ℕ} {p s : ℕ}

/-- A split edge carries no moves any more, and every other edge those it carried. -/
lemma Split.carries_iff (h : Split E address f g) (hp : p < f.blocks.length)
    (hs : s < f.blocks.length) :
    edgeCarriesPhiMoves g p s = true ↔ edgeCarriesPhiMoves f p s = true ∧ (p, s) ∉ E := by
  have hone : ∀ v ∈ leadingPhis f s, (g.insts[v]?).any (Inst.takesFrom p) = true ↔
      (f.insts[v]?).any (Inst.takesFrom p) = true ∧ (p, s) ∉ E := by
    intro v hv
    obtain ⟨hin, inst, hinst, -⟩ := inBlock_of_mem_leadingPhis hv
    rw [h.inst s v hin fun _ _ _ => hv, hinst]
    simp only [Option.map_some, Option.any_some, takesFrom_rename, arrivesAs_eq_iff hp]
    constructor
    · rintro ⟨q, hq, rfl, hno⟩
      exact ⟨hq, hno⟩
    · rintro ⟨hq, hno⟩
      exact ⟨p, hq, rfl, hno⟩
  simp only [edgeCarriesPhiMoves, h.leadingPhis_eq hs, List.any_eq_true]
  constructor
  · rintro ⟨v, hv, hany⟩
    obtain ⟨h1, h2⟩ := (hone v hv).mp hany
    exact ⟨⟨v, hv, h1⟩, h2⟩
  · rintro ⟨⟨v, hv, h1⟩, h2⟩
    exact ⟨v, hv, (hone v hv).mpr ⟨h1, h2⟩⟩

/-- A block past those of the function is the block of a split edge. -/
lemma Split.new_of_ge (h : Split E address f g) {b : ℕ} {blk : Block}
    (hblk : g.blocks[b]? = some blk) (hge : f.blocks.length ≤ b) :
    ∃ i p s, b = f.blocks.length + i ∧ E[i]? = some (p, s) ∧ blk = edgeBlock f s := by
  obtain ⟨i, rfl⟩ := Nat.exists_eq_add_of_le hge
  have hi : i < E.length := by
    have := (List.getElem?_eq_some_iff.mp hblk).1
    rw [h.numBlocks] at this
    omega
  have hE := List.getElem?_eq_getElem hi
  refine ⟨i, _, _, rfl, hE, ?_⟩
  rw [h.new i _ _ hE] at hblk
  exact (Option.some.inj hblk).symm

/-- Splitting edges of indirect branches leaves the other terminators and all tables. -/
lemma Split.direct (h : Split E address f g) (hE : ∀ e ∈ E, e.1 ∈ f.indirectBranches) :
    (∀ (b : ℕ) blk, f.blocks[b]? = some blk → g.blocks[b]? = some blk) ∧
      g.jumpTables = f.jumpTables := by
  constructor
  · intro b blk hblk
    rw [h.old b blk hblk]
    by_cases hgoto : blk.terminator.isGotoIndirect = true
    · rw [mapArms_of_isGotoIndirect hgoto]
    · have hid : leadsTo f.blocks.length E b = fun t => t := by
        funext t
        refine if_neg fun hmem => hgoto ?_
        obtain ⟨blk', hblk', hb⟩ := mem_indirectBranches.mp (hE _ hmem)
        obtain rfl := Option.some.inj (hblk.symm.trans hblk')
        exact hb
      rw [hid]
      cases blk with
      | mk startPc instRange terminator exitAcc => cases terminator <;> rfl
  · refine List.ext_getElem? fun table => ?_
    have hid : entryLeadsTo f E table = fun t => t := by
      funext t
      have hnone : E.find? (fun q => q.2 = t ∧ tableOf f q.1 = some table) = none := by
        refine List.find?_eq_none.mpr fun q hq => ?_
        obtain ⟨blk, hblk, hgoto⟩ := mem_indirectBranches.mp (hE q hq)
        simp [tableOf, hblk, table?_of_isGotoIndirect hgoto]
      simp only [entryLeadsTo, hnone]
    rw [h.tables, hid]
    simp

/-- The same edges are critical once edges of indirect branches are split. -/
lemma Split.critical_iff (h : Split E address f g) (hE : ∀ e ∈ E, e.1 ∈ f.indirectBranches)
    (hclosed : f.graph.Closed) : Critical g p s ↔ Critical f p s := by
  obtain ⟨hold, htables⟩ := h.direct hE
  have hcarry : ∀ blk, f.blocks[p]? = some blk → blk.terminator.isGotoIndirect = false →
      s ∈ successors blk.terminator [] f.jumpTables →
      (edgeCarriesPhiMoves g p s = true ↔ edgeCarriesPhiMoves f p s = true) := by
    intro blk hblk hdirect hs
    rw [successors_direct hdirect f.computedGotoTargets] at hs
    have hslt : s < f.blocks.length := f.graph_size ▸
      hclosed p s (FunctionSsa.graph_edge.mpr ⟨blk, hblk, hs⟩)
    have hno : (p, s) ∉ E := fun hmem => by
      obtain ⟨blk', hblk', hb⟩ := mem_indirectBranches.mp (hE _ hmem)
      obtain rfl := Option.some.inj (hblk.symm.trans hblk')
      rw [hdirect] at hb
      cases hb
    rw [h.carries_iff (List.getElem?_eq_some_iff.mp hblk).1 hslt]
    exact ⟨fun hc => hc.1, fun hc => ⟨hc, hno⟩⟩
  constructor
  · rintro ⟨blk, hblk, hdirect, hlen, hs, hc⟩
    rcases Nat.lt_or_ge p f.blocks.length with hlt | hge
    · have hblk' := List.getElem?_eq_getElem hlt
      obtain rfl := Option.some.inj ((hold p _ hblk').symm.trans hblk)
      rw [htables] at hlen hs
      exact ⟨_, hblk', hdirect, hlen, hs, (hcarry _ hblk' hdirect hs).mp hc⟩
    · -- The block of a split edge has one successor.
      obtain ⟨i, q, t, rfl, -, rfl⟩ := h.new_of_ge hblk hge
      simp [edgeBlock, successors] at hlen
  · rintro ⟨blk, hblk, hdirect, hlen, hs, hc⟩
    refine ⟨blk, hold p blk hblk, hdirect, ?_, ?_, (hcarry blk hblk hdirect hs).mpr hc⟩
    · rw [htables]
      exact hlen
    · rw [htables]
      exact hs

end Edges

/-- The edges to labels that move leave the indirect branch. -/
lemma mem_labelEdges {f : FunctionSsa} {p s : ℕ} :
    (p, s) ∈ labelEdges f ↔ f.indirectBranches = [p] ∧ s ∈ movedLabels f := by
  unfold labelEdges
  split
  · rename_i site hsites
    simp only [List.mem_map, Prod.mk.injEq, hsites, List.cons.injEq, and_true]
    constructor
    · rintro ⟨l, hl, rfl, rfl⟩
      exact ⟨rfl, hl⟩
    · rintro ⟨rfl, hs⟩
      exact ⟨s, hs, rfl, rfl⟩
  · rename_i hsites
    simp only [List.not_mem_nil, false_iff]
    exact fun h => hsites p h.1

section Pass

variable {f : FunctionSsa}

lemma Critical.edge {p s : ℕ} (h : Critical f p s) :
    f.graph.Edge p s ∧ p ∉ f.indirectBranches := by
  obtain ⟨blk, hblk, hdirect, -, hs, -⟩ := h
  rw [successors_direct hdirect f.computedGotoTargets] at hs
  refine ⟨FunctionSsa.graph_edge.mpr ⟨blk, hblk, hs⟩, fun hmem => ?_⟩
  obtain ⟨blk', hblk', hb⟩ := mem_indirectBranches.mp hmem
  obtain rfl := Option.some.inj (hblk.symm.trans hblk')
  rw [hdirect] at hb
  cases hb

/-- The edges that are split: those to labels that move, and the critical ones. -/
lemma mem_splitEdges (hf : Verified f) (hnd : (movedLabels f).Nodup) {p s : ℕ} :
    (p, s) ∈ splitEdges f ↔
      (f.indirectBranches = [p] ∧ s ∈ movedLabels f) ∨ Critical f p s := by
  have hclosed := FunctionSsa.graph_closed hf.gotoTargets hf.targets
  have hE : ∀ e ∈ labelEdges f, e.1 ∈ f.indirectBranches := fun e he => by
    simp [(mem_labelEdges.mp he).1]
  have hsplit := splitLabelAddresses_split hf.disjoint hf.gotoTargets hnd
  rw [splitEdges, List.mem_append, mem_labelEdges, (splits_spec _).2, hsplit.critical_iff hE hclosed]
  refine or_congr_right ⟨fun h => h.2, fun h => ⟨?_, h⟩⟩
  have hs : s < f.blocks.length := f.graph_size ▸ hclosed p s h.edge.1
  rw [hsplit.numBlocks]
  omega

/-- Each edge is split once. -/
lemma nodup_splitEdges (hf : Verified f) (hnd : (movedLabels f).Nodup) : (splitEdges f).Nodup := by
  refine List.nodup_append.mpr ⟨?_, (splits_spec _).1, ?_⟩
  · unfold labelEdges
    split
    · exact hnd.map fun _ _ h => (Prod.mk.inj h).2
    · exact List.nodup_nil
  · rintro ⟨p, s⟩ hlabel e he rfl
    have hclosed := FunctionSsa.graph_closed hf.gotoTargets hf.targets
    have hE : ∀ e ∈ labelEdges f, e.1 ∈ f.indirectBranches := fun e he => by
      simp [(mem_labelEdges.mp he).1]
    have hsplit := splitLabelAddresses_split hf.disjoint hf.gotoTargets hnd
    have hcrit := (hsplit.critical_iff hE hclosed).mp (((splits_spec _).2 p s).mp he).2
    exact hcrit.edge.2 (hE _ hlabel)

end Pass

end SplitCritEdges

end Badc
