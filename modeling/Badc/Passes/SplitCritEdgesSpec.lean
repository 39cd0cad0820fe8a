import Badc.Passes.SplitCritEdges

/-!
# What splitting critical edges keeps

A run of the split function is a run of the function that stops over at the new block of every split
edge: the block is empty, so nothing is seen of it, and its jump enters the successor under the name
the phis now have for the edge.

The pass rewrites the entries of a jump table for the first block that names it and has a critical
edge to their block.  `SplitsApart` asks that no block the entry reaches is a later one, that no
label moves twice and that the addresses the tape takes are of blocks; `runOne_correct` says that
the pass then does what it is for.
-/

namespace Badc

/-- The block whose address the new address of a block is. -/
def SplitCritEdges.oldAddress (f : FunctionSsa) (b : ℕ) : ℕ :=
  if b < f.blocks.length then b else (movedLabels f).getD (b - f.blocks.length) b

/-- The machine that runs the function with the labels moved: each label keeps its address. -/
def Machine.readdress (m : Machine) (f : FunctionSsa) : Machine where
  Ext := m.Ext
  frame := m.frame
  arg := m.arg
  overflowTraps := m.overflowTraps
  link site := match site.shape with
    | .blockAddr b => m.link { site with shape := .blockAddr (SplitCritEdges.oldAddress f b) }
    | _ => m.link site
  fp := m.fp
  loadFp := m.loadFp
  storeFp := m.storeFp
  quiet := m.quiet
  effect := m.effect
  observe := m.observe
  label a := (m.label a).bind fun b =>
    if b < f.blocks.length then some (SplitCritEdges.newAddress f b) else none
  asmTarget := m.asmTarget
  tail := m.tail

namespace SplitCritEdges

/-- No two blocks that name one jump table both have a critical edge to one of its blocks, the later
one being reached; no label moves twice; and the addresses taken are of blocks. -/
structure SplitsApart (f : FunctionSsa) : Prop where
  tables : ∀ p q table s, p < q → tableOf f p = some table → tableOf f q = some table →
    Critical f p s → Critical f q s → ¬ f.graph.Reach q
  labels : (movedLabels f).Nodup
  addresses : ∀ (v t : ℕ), f.insts[v]? = some (.blockAddr t) → t < f.blocks.length

/-- Every index up to one that passes a test passes it: the index is taken. -/
lemma mem_takeWhile_range' {test : ℕ → Bool} {start n v : ℕ} (h1 : start ≤ v) (h2 : v < start + n)
    (h : ∀ i, start ≤ i → i ≤ v → test i = true) :
    v ∈ (List.range' start n).takeWhile test := by
  induction n generalizing start with
  | zero => omega
  | succ n ih =>
    rw [List.range'_succ, List.takeWhile_cons_of_pos (h start le_rfl h1)]
    rcases h1.eq_or_lt with rfl | hlt
    · exact .head _
    · exact List.mem_cons_of_mem _ (ih hlt (by omega) fun i hi hiv => h i (by omega) hiv)

/-- The phis of a block the entry reaches lead it. -/
lemma leadsIfPhi_of_reach {f : FunctionSsa} (hf : Verified f) {s v : ℕ} (hs : f.graph.Reach s)
    (hv : InBlock f v s) : LeadsIfPhi f s v := by
  intro inst hinst hphi
  have ⟨blk, hblk, h1, h2⟩ := hv
  simp only [leadingPhis, hblk]
  refine mem_takeWhile_range' h1 (by omega) fun i hi hiv => ?_
  rcases hiv.eq_or_lt with rfl | hlt
  · simp [hinst, hphi]
  · obtain ⟨inst', hinst', hphi'⟩ :=
      hf.phisFirst s v i inst hs hv ⟨blk, hblk, hi, by omega⟩ hlt hinst hphi
    simp [hinst', hphi']

section Edges

variable {f : FunctionSsa} {p q s t : ℕ}

/-- Where two blocks name one table, an edge that is critical for one is critical for the other if it
carries moves. -/
lemma Critical.of_row {table : ℕ} (h : Critical f p s) (hp : tableOf f p = some table)
    (hq : tableOf f q = some table) (hcarry : f.graph.Edge q s → edgeCarriesPhiMoves f q s = true) :
    Critical f q s := by
  obtain ⟨blkp, hblkp, -, hlen, hs, -⟩ := h
  obtain ⟨blkq, hblkq, htq⟩ := Option.bind_eq_some_iff.mp hq
  have htp : blkp.terminator.table? = some table := by
    simpa [tableOf, hblkp] using hp
  -- The successors are the entries of the table.
  have hrow : ∀ term : Terminator, term.table? = some table → ∀ labels,
      successors term labels f.jumpTables = (f.jumpTables.getD table []).foldl
        (fun out t => if t ∈ out then out else out ++ [t]) [] := by
    intro term hterm labels
    cases term with
    | jumpTable idx row | asmGoto row => rw [← Option.some.inj hterm]; rfl
    | _ => cases hterm
  have hdirect : blkq.terminator.isGotoIndirect = false := by
    cases hterm : blkq.terminator with
    | gotoIndirect target => rw [hterm] at htq; cases htq
    | _ => rfl
  rw [hrow _ htp, ← hrow _ htq] at hlen hs
  exact ⟨blkq, hblkq, hdirect, hlen, hs, hcarry (FunctionSsa.graph_edge.mpr
    ⟨blkq, hblkq, by rwa [← successors_direct hdirect]⟩)⟩

/-- Such an edge carries moves if the other block is reached. -/
lemma Critical.of_table (hf : Verified f) {table : ℕ} (h : Critical f p s)
    (hp : tableOf f p = some table) (hq : tableOf f q = some table) (hreach : f.graph.Reach q) :
    Critical f q s := by
  refine h.of_row hp hq fun hedge => ?_
  obtain ⟨-, -, -, -, -, hcarry⟩ := h
  obtain ⟨v, hv, -⟩ := List.any_eq_true.mp hcarry
  obtain ⟨hin, inst, hinst, hphi⟩ := inBlock_of_mem_leadingPhis hv
  cases inst with
  | phi incoming kind =>
    obtain ⟨x, hx⟩ := hf.phiComplete s v incoming kind (hreach.step hedge) hin hinst q hedge hreach
    refine List.any_eq_true.mpr ⟨v, hv, ?_⟩
    rw [hinst, Option.any_some]
    exact List.any_eq_true.mpr ⟨(q, x), hx, by simp⟩
  | _ => cases hphi

/-- The edges to split are listed by predecessor. -/
lemma splits_ascending (f : FunctionSsa) : (splits f).Pairwise fun a b => a.1 ≤ b.1 := by
  have hfst : ∀ pair ∈ f.blocks.zipIdx, ∀ e ∈ blockSplits f pair, e.1 = pair.2 := by
    rintro ⟨blk, b⟩ hb e he
    exact (((blockSplits_spec (List.mem_zipIdx_iff_getElem?.mp hb)).2 e).mp he).1
  have hsnd : (f.blocks.zipIdx.map Prod.snd).Pairwise (· < ·) := by
    rw [List.zipIdx_map_snd]
    exact List.pairwise_lt_range'
  refine List.pairwise_flatMap.mpr ⟨fun pair hpair => ?_, ?_⟩
  · refine List.pairwise_of_forall_mem_list fun a ha b hb => ?_
    rw [hfst pair hpair a ha, hfst pair hpair b hb]
  · refine (List.pairwise_map.mp hsnd).imp_of_mem fun {a b} ha hb hlt x hx y hy => ?_
    rw [hfst a ha x hx, hfst b hb y hy]
    exact hlt.le

/-- The first member of an ordered list that passes a test comes before the others that do. -/
lemma find?_le {l : List (ℕ × ℕ)} {test : ℕ × ℕ → Bool} {a b : ℕ × ℕ}
    (hl : l.Pairwise fun a b => a.1 ≤ b.1) (ha : l.find? test = some a) (hb : b ∈ l)
    (htest : test b = true) : a.1 ≤ b.1 := by
  obtain ⟨-, before, after, rfl, hbefore⟩ := List.find?_eq_some_iff_append.mp ha
  rcases List.mem_append.mp hb with hb | hb
  · have := hbefore b hb
    rw [htest] at this
    cases this
  · rcases List.mem_cons.mp hb with rfl | hb
    · exact le_rfl
    · exact (List.pairwise_cons.mp (List.pairwise_append.mp hl).2.1).1 b hb

lemma critical_of_mem_splitEdges (hf : Verified f) (hnd : (movedLabels f).Nodup) {table : ℕ}
    (hp : tableOf f p = some table) (h : (p, s) ∈ splitEdges f) : Critical f p s := by
  refine ((mem_splitEdges hf hnd).mp h).resolve_left ?_
  rintro ⟨hsites, -⟩
  obtain ⟨blk, hblk, hgoto⟩ := mem_indirectBranches.mp (hsites ▸ List.mem_singleton_self p)
  simp [tableOf, hblk, table?_of_isGotoIndirect hgoto] at hp

/-- For a block the entry reaches, the entries of its table lead where its edges do. -/
lemma SplitsApart.entryLeadsTo_eq (hc : SplitsApart f) (hf : Verified f) {table : ℕ}
    (hq : tableOf f q = some table) (hreach : f.graph.Reach q) :
    entryLeadsTo f (splitEdges f) table s = leadsTo f.blocks.length (splitEdges f) q s := by
  unfold entryLeadsTo leadsTo
  cases hfind : (splitEdges f).find? fun e => e.2 = s ∧ tableOf f e.1 = some table with
  | none =>
    have hno : (q, s) ∉ splitEdges f := fun hmem => by
      have := List.find?_eq_none.mp hfind (q, s) hmem
      simp [hq] at this
    rw [if_neg hno]
  | some e =>
    obtain ⟨p, s'⟩ := e
    have htest := List.find?_some hfind
    simp only [decide_eq_true_eq] at htest
    obtain ⟨rfl, hp⟩ := htest
    have hmem := List.mem_of_find?_eq_some hfind
    have hcrit := critical_of_mem_splitEdges hf hc.labels hp hmem
    have hcrit' := hcrit.of_table hf hp hq hreach
    have hmem' : (q, s') ∈ splitEdges f := (mem_splitEdges hf hc.labels).mpr (Or.inr hcrit')
    -- The first block that names the table and has the edge is this one.
    have hpq : p ≤ q := by
      have hlabels : (labelEdges f).find? (fun e => e.2 = s' ∧ tableOf f e.1 = some table) =
          none := by
        refine List.find?_eq_none.mpr fun e he => ?_
        obtain ⟨blk, hblk, hgoto⟩ := mem_indirectBranches.mp
          ((mem_labelEdges.mp he).1 ▸ List.mem_singleton_self e.1)
        simp [tableOf, hblk, table?_of_isGotoIndirect hgoto]
      rw [splitEdges, List.find?_append, hlabels, Option.none_or] at hfind
      refine find?_le (b := (q, s')) (splits_ascending _) hfind ?_ (by simp [hq])
      refine (List.mem_append.mp hmem').resolve_left fun hlab => ?_
      have := List.find?_eq_none.mp hlabels (q, s') hlab
      simp [hq] at this
    obtain rfl : p = q := by
      by_contra hne
      exact hc.tables p q table s' (by omega) hp hq hcrit hcrit' hreach
    rw [if_pos hmem]

/-- An indirect branch leads to the new address of a label. -/
lemma leadsTo_label (hf : Verified f) (hnd : (movedLabels f).Nodup)
    (hp : p ∈ f.indirectBranches) :
    leadsTo f.blocks.length (splitEdges f) p t = newAddress f t := by
  have hiff : (p, t) ∈ splitEdges f ↔ t ∈ movedLabels f := by
    rw [mem_splitEdges hf hnd]
    constructor
    · rintro (⟨-, ht⟩ | hcrit)
      · exact ht
      · exact absurd hp hcrit.edge.2
    · intro ht
      refine Or.inl ⟨?_, ht⟩
      unfold movedLabels at ht
      split at ht
      · rename_i site hsites
        rw [hsites, List.mem_singleton] at hp
        rw [hsites, hp]
      · cases ht
  unfold leadsTo newAddress
  by_cases ht : t ∈ movedLabels f
  · rw [if_pos (hiff.mpr ht), if_pos ht]
    refine congrArg _ (idxOf_of_getElem? (nodup_splitEdges hf hnd) ?_)
    have hedges : labelEdges f = (movedLabels f).map fun l => (p, l) := by
      unfold labelEdges
      split
      · rename_i site hsites
        rw [hsites, List.mem_singleton] at hp
        rw [hp]
      · rename_i hsites
        unfold movedLabels at ht
        split at ht
        · rename_i site hone
          exact absurd hone (hsites site)
        · cases ht
    have hlt := List.idxOf_lt_length_of_mem ht
    rw [splitEdges, List.getElem?_append_left (by simpa [hedges] using hlt), hedges,
      List.getElem?_map, getElem?_idxOf ht]
    rfl
  · rw [if_neg fun h => ht (hiff.mp h), if_neg ht]

end Edges

/-! ## Runs -/

section Runs

variable {f f' : FunctionSsa} {m : Machine}

lemma oldAddress_newAddress {t : ℕ} (ht : t < f.blocks.length) :
    oldAddress f (newAddress f t) = t := by
  unfold oldAddress newAddress
  by_cases hmem : t ∈ movedLabels f
  · rw [if_pos hmem, if_neg (by omega), Nat.add_sub_cancel_left, List.getD_eq_getElem?_getD,
      getElem?_idxOf hmem]
    rfl
  · rw [if_neg hmem, if_pos ht]

lemma newAddress_injective {t u : ℕ} (ht : t < f.blocks.length) (hu : u < f.blocks.length)
    (h : newAddress f t = newAddress f u) : t = u := by
  rw [← oldAddress_newAddress ht, h, oldAddress_newAddress hu]

/-- A pure instruction computes what it did. -/
lemma Split.pureWord_eq (h : Split (splitEdges f) (newAddress f) f f') (hc : SplitsApart f) {v : ℕ}
    {regs : Regs} {inst : Inst} (hinst : f.insts[v]? = some inst) :
    (m.readdress f).pureWord f' v regs (inst.mapAddress (newAddress f)) =
      m.pureWord f v regs inst := by
  have hsite : ∀ inst, f'.site v inst = f.site v inst := fun inst => by
    simp only [FunctionSsa.site, h.symbol, h.f32Values]
  have hbinop : ∀ op x y, (m.readdress f).binop f' v op x y = m.binop f v op x y := by
    intro op x y
    simp only [Machine.binop, hsite, isDiv32, isCmp32, h.cmp32, h.div32]
    rfl
  cases inst with
  | blockAddr t =>
    have ht := hc.addresses v t hinst
    simp only [Machine.pureWord, Inst.mapAddress, Machine.readdress, FunctionSsa.site,
      Inst.mapOperands, h.symbol, h.f32Values, oldAddress_newAddress ht]
  | _ => simp only [Machine.pureWord, Inst.mapAddress, hsite, hbinop] <;> rfl

/-- An instruction does what it did. -/
lemma Split.exec_eq (h : Split (splitEdges f) (newAddress f) f f') (hc : SplitsApart f) {v : ℕ}
    {regs : Regs} {w : World m.Ext} {inst : Inst} (hinst : f.insts[v]? = some inst) (g : ℕ → ℕ) :
    (m.readdress f).exec f' v regs w ((inst.mapPreds g).mapAddress (newAddress f)) =
      m.exec f v regs w inst := by
  have hsite : ∀ inst, f'.site v inst = f.site v inst := fun inst => by
    simp only [FunctionSsa.site, h.symbol, h.f32Values]
  cases hphi : inst.isPhi with
  | true =>
    cases inst with
    | phi incoming kind => rfl
    | _ => cases hphi
  | false =>
    have hpure : (m.readdress f).pureWord f' v regs (inst.mapAddress (newAddress f)) =
        m.pureWord f v regs inst := h.pureWord_eq hc hinst
    rw [mapPreds_of_not_phi hphi]
    cases hrole : inst.role with
    | pure =>
      have hrole' : (inst.mapAddress (newAddress f)).role = .pure := by
        cases inst <;> exact hrole
      simp only [Machine.exec, hrole, hrole', hpure]
      rfl
    | _ =>
      have hmap : inst.mapAddress (newAddress f) = inst := by
        cases inst with
        | blockAddr t => cases hrole
        | _ => rfl
      rw [hmap]
      simp only [Machine.exec, hrole, Machine.execLoad, Machine.execStore, Machine.execQuiet,
        Machine.execEffect, hsite, h.f32Values]
      rfl

/-- Where `a` is the name under which the edge from `p` arrives, the phis take the values they
took. -/
lemma Split.enterRegs_eq (h : Split (splitEdges f) (newAddress f) f f') (hf : Verified f)
    {a p t : ℕ} {blk blk' : Block} {regs : Regs} (ht : f.graph.Reach t)
    (hblk : f.blocks[t]? = some blk) (hrange : blk'.instRange = blk.instRange)
    (hname : ∀ q < f.blocks.length,
      arrivesAs f.blocks.length (splitEdges f) t q = a ↔ q = p) :
    enterRegs f' a blk' regs = enterRegs f p blk regs := by
  funext v
  unfold enterRegs
  rw [hrange]
  split
  · rename_i hv
    have hin : InBlock f v t := ⟨blk, hblk, hv⟩
    rw [h.inst t v hin (leadsIfPhi_of_reach hf ht hin)]
    cases hinst : f.insts[v]? with
    | none => rfl
    | some inst =>
      cases inst with
      | phi incoming kind =>
        simp only [Option.map_some, Inst.mapPreds, Inst.mapAddress, phiValue, List.find?_map,
          Option.bind_map]
        have hfind : incoming.find? ((fun q => decide (q.1 = a)) ∘ fun q : ℕ × ℕ =>
              (arrivesAs f.blocks.length (splitEdges f) t q.1, q.2)) =
            incoming.find? fun q => decide (q.1 = p) := by
          refine List.find?_congr fun q hq => ?_
          have hlt := (hf.phiEdges t v incoming kind ht hin hinst q hq).1.lt_size
          rw [f.graph_size] at hlt
          simp [hname q.1 hlt]
        rw [hfind]
        rfl
      | _ => rfl
  · rfl

lemma Split.block_of_mem {E : List (ℕ × ℕ)} {address : ℕ → ℕ} (h : Split E address f f') {p t : ℕ}
    (hmem : (p, t) ∈ E) :
    f'.blocks[f.blocks.length + E.idxOf (p, t)]? = some (edgeBlock f t) := by
  have hlt := List.idxOf_lt_length_of_mem hmem
  refine h.new _ p t ?_
  rw [List.getElem?_eq_getElem hlt, List.getElem_idxOf]

/-- A label is found under its new address. -/
lemma Split.label_goto_eq (h : Split (splitEdges f) (newAddress f) f f') (hf : Verified f)
    (x : Word) :
    (((m.readdress f).label x).bind fun b =>
        if b ∈ f'.computedGotoTargets then some b else none) =
      ((m.label x).bind fun b => if b ∈ f.computedGotoTargets then some b else none).map
        (newAddress f) := by
  cases hx : m.label x with
  | none => simp [Machine.readdress, hx]
  | some b =>
    simp only [Machine.readdress, hx, Option.bind_some]
    by_cases hb : b < f.blocks.length
    · have hiff : newAddress f b ∈ f'.computedGotoTargets ↔ b ∈ f.computedGotoTargets := by
        rw [h.gotoTargets, List.mem_map]
        constructor
        · rintro ⟨c, hc, hcb⟩
          rwa [← newAddress_injective (hf.gotoTargets c hc) hb hcb]
        · exact fun hb => ⟨b, hb, rfl⟩
      simp only [hb, if_true, Option.bind_some, hiff]
      split <;> rfl
    · have hno : b ∉ f.computedGotoTargets := fun hc => hb (hf.gotoTargets b hc)
      simp [hb, hno]

/-- A terminator branches to where its edge leads. -/
lemma Split.branchTo_eq (h : Split (splitEdges f) (newAddress f) f f') (hf : Verified f)
    (hc : SplitsApart f) {s : State m.Ext} {blk : Block} (hs : f.graph.Reach s.block)
    (hblk : f.blocks[s.block]? = some blk) :
    (m.readdress f).branchTo f' s (blk.terminator.mapArms
        (leadsTo f.blocks.length (splitEdges f) s.block)) =
      (m.branchTo f s blk.terminator).map
        (leadsTo f.blocks.length (splitEdges f) s.block) := by
  have htest : ∀ cond, Machine.testWord f' s.block s.regs cond =
      Machine.testWord f s.block s.regs cond := by
    intro cond
    simp only [Machine.testWord, h.lowWordTests]
  -- A block with one successor has no critical edge.
  have hsingle : ∀ t, blk.terminator.isGotoIndirect = false →
      (successors blk.terminator [] f.jumpTables).length < 2 →
      leadsTo f.blocks.length (splitEdges f) s.block t = t := by
    intro t hdirect hlen
    refine if_neg fun hmem => ?_
    rcases (mem_splitEdges hf hc.labels).mp hmem with ⟨hsites, -⟩ | ⟨blk', hblk', -, hlen', -⟩
    · obtain ⟨blk', hblk', hgoto⟩ := mem_indirectBranches.mp (hsites ▸ List.mem_singleton_self _)
      obtain rfl := Option.some.inj (hblk.symm.trans hblk')
      rw [hdirect] at hgoto
      cases hgoto
    · obtain rfl := Option.some.inj (hblk.symm.trans hblk')
      omega
  -- The entries of the block's table lead where its edges do.
  have hrow : ∀ table, blk.terminator.table? = some table → f'.jumpTables[table]? =
      (f.jumpTables[table]?).map fun row => row.map
        (leadsTo f.blocks.length (splitEdges f) s.block) := by
    intro table htable
    have hq : tableOf f s.block = some table := by
      simp [tableOf, hblk, htable]
    rw [h.tables]
    congr 1
    funext row
    exact List.map_congr_left fun t _ => hc.entryLeadsTo_eq hf hq hs
  cases hterm : blk.terminator with
  | jmp b | fallThrough b =>
    rw [hterm] at hsingle
    simp only [Terminator.mapArms, Machine.branchTo, Option.map_some,
      hsingle b rfl (by simp [successors])]
  | bz cond b e | bnz cond b e =>
    simp only [Terminator.mapArms, Machine.branchTo, htest, Option.map_map]
    congr 1
    funext c
    simp only [Function.comp]
    split <;> rfl
  | gotoIndirect a =>
    have hp : s.block ∈ f.indirectBranches :=
      mem_indirectBranches.mpr ⟨blk, hblk, by rw [hterm]; rfl⟩
    have hlead : leadsTo f.blocks.length (splitEdges f) s.block = newAddress f :=
      funext fun t => leadsTo_label hf hc.labels hp
    simp only [Terminator.mapArms, Machine.branchTo, bind, hlead]
    cases s.regs.word a with
    | none => rfl
    | some x => exact h.label_goto_eq hf x
  | jumpTable idx table =>
    rw [hterm] at hrow
    simp only [Terminator.mapArms, Machine.branchTo, bind, hrow table rfl]
    cases s.regs.word idx with
    | none => rfl
    | some x => cases f.jumpTables[table]? <;> simp
  | asmGoto table =>
    rw [hterm] at hrow
    simp only [Terminator.mapArms, Machine.branchTo, bind, hrow table rfl]
    cases f.jumpTables[table]? <;> simp [Machine.readdress]
  | ret v | tailExt v | unreachable => rfl

/-- The states of the split function and of the function that go together: the same state, or the
block of a split edge and the end of its predecessor. -/
inductive At (f : FunctionSsa) (m : Machine) : ℕ → State m.Ext → State m.Ext → Prop
  | same {s : State m.Ext} {blk : Block} : f.graph.Reach s.block →
      f.blocks[s.block]? = some blk → blk.instRange.start ≤ s.pc → At f m 1 s s
  | between {s : State m.Ext} {blk : Block} {t : ℕ} : f.graph.Reach s.block →
      f.blocks[s.block]? = some blk → blk.instRange.stop ≤ s.pc →
      m.branchTo f s blk.terminator = some t → (s.block, t) ∈ splitEdges f →
      At f m 0 ⟨f.blocks.length + (splitEdges f).idxOf (s.block, t), f.insts.length, s.regs,
        s.world⟩ s

/-- From the end of a block, the split function stops over at the block of the edge where that is
split, and enters the successor where it is not. -/
lemma Split.move_end (h : Split (splitEdges f) (newAddress f) f f') (hf : Verified f)
    (hc : SplitsApart f) {s : State m.Ext} {blk blkt : Block} {t : ℕ} (hs : f.graph.Reach s.block)
    (hblk : f.blocks[s.block]? = some blk) (hpc : blk.instRange.stop ≤ s.pc)
    (hb : m.branchTo f s blk.terminator = some t) (hblkt : f.blocks[t]? = some blkt) :
    (m.readdress f).move f' s = .step none
      (if (s.block, t) ∈ splitEdges f then
        ⟨f.blocks.length + (splitEdges f).idxOf (s.block, t), f.insts.length, s.regs, s.world⟩
      else ⟨t, blkt.instRange.start, enterRegs f s.block blkt s.regs, s.world⟩) := by
  have hbranch := h.branchTo_eq hf hc hs hblk
  rw [hb, Option.map_some] at hbranch
  have hblk' := h.old s.block blk hblk
  have hp : s.block < f.blocks.length := (List.getElem?_eq_some_iff.mp hblk).1
  split
  · rename_i hmem
    rw [leadsTo, if_pos hmem] at hbranch
    have hempty : enterRegs f' s.block (edgeBlock f t) s.regs = s.regs := by
      funext v
      refine if_neg ?_
      simp only [edgeBlock]
      omega
    have hmove := Machine.move_branch (m := m.readdress f) hblk' hpc hbranch (h.block_of_mem hmem)
    rw [hempty] at hmove
    exact hmove
  · rename_i hmem
    rw [leadsTo, if_neg hmem] at hbranch
    have ht : f.graph.Reach t := hs.step (Machine.branchTo_edge hblk hb)
    obtain ⟨blkt', hblkt', hrange⟩ : ∃ blkt', f'.blocks[t]? = some blkt' ∧
        blkt'.instRange = blkt.instRange := ⟨_, h.old t blkt hblkt, rfl⟩
    have hregs : enterRegs f' s.block blkt' s.regs = enterRegs f s.block blkt s.regs :=
      h.enterRegs_eq hf ht hblkt hrange fun q _ => by
        rw [arrivesAs_eq_iff hp]
        exact ⟨fun hq => hq.1, fun hq => ⟨hq, hq ▸ hmem⟩⟩
    have hmove := Machine.move_branch (m := m.readdress f) hblk' hpc hbranch hblkt'
    rw [hregs, hrange] at hmove
    exact hmove

/-- From the block of a split edge the run enters the successor, as it did over the edge. -/
lemma Split.move_between (h : Split (splitEdges f) (newAddress f) f f') (hf : Verified f)
    {s : State m.Ext} {blk blkt : Block} {t : ℕ} (hs : f.graph.Reach s.block)
    (hblk : f.blocks[s.block]? = some blk) (hb : m.branchTo f s blk.terminator = some t)
    (hblkt : f.blocks[t]? = some blkt) (hmem : (s.block, t) ∈ splitEdges f) :
    (m.readdress f).move f'
        ⟨f.blocks.length + (splitEdges f).idxOf (s.block, t), f.insts.length, s.regs, s.world⟩ =
      .step none ⟨t, blkt.instRange.start, enterRegs f s.block blkt s.regs, s.world⟩ := by
  have ht : f.graph.Reach t := hs.step (Machine.branchTo_edge hblk hb)
  obtain ⟨blkt', hblkt', hrange⟩ : ∃ blkt', f'.blocks[t]? = some blkt' ∧
      blkt'.instRange = blkt.instRange := ⟨_, h.old t blkt hblkt, rfl⟩
  have hregs : enterRegs f' (f.blocks.length + (splitEdges f).idxOf (s.block, t)) blkt' s.regs =
      enterRegs f s.block blkt s.regs := by
    refine h.enterRegs_eq hf ht hblkt hrange fun q hq => ?_
    unfold arrivesAs
    split
    · rename_i hqt
      constructor
      · intro heq
        have hidx : (splitEdges f).idxOf (q, t) = (splitEdges f).idxOf (s.block, t) := by omega
        exact (Prod.mk.inj ((List.idxOf_inj hqt).mp hidx)).1
      · rintro rfl
        rfl
    · rename_i hqt
      constructor
      · intro heq
        omega
      · rintro rfl
        exact absurd hmem hqt
  have hmove := Machine.move_branch (m := m.readdress f) (f := f')
    (s := ⟨f.blocks.length + (splitEdges f).idxOf (s.block, t), f.insts.length, s.regs, s.world⟩)
    (h.block_of_mem hmem) le_rfl rfl hblkt'
  rw [hregs, hrange] at hmove
  exact hmove

/-- Inside a block, and at the end of one that is left for good, the split function does what the
function does. -/
lemma Split.move_eq (h : Split (splitEdges f) (newAddress f) f f') (hf : Verified f)
    (hc : SplitsApart f) {s : State m.Ext} {blk : Block} (hs : f.graph.Reach s.block)
    (hblk : f.blocks[s.block]? = some blk) (hstart : blk.instRange.start ≤ s.pc)
    (hno : s.pc < blk.instRange.stop ∨ m.branchTo f s blk.terminator = none) :
    (m.readdress f).move f' s = m.move f s := by
  have hblk' := h.old s.block blk hblk
  have hstep : (m.readdress f).step f' s = m.step f s := by
    unfold Machine.step
    simp only [hblk, hblk']
    split
    · rename_i hlt
      have hin : InBlock f s.pc s.block := ⟨blk, hblk, hstart, hlt⟩
      rw [h.inst s.block s.pc hin (leadsIfPhi_of_reach hf hs hin)]
      cases hinst : f.insts[s.pc]? with
      | none => rfl
      | some inst =>
        have hexec := @Split.exec_eq f f' m h hc s.pc s.regs s.world inst hinst
          (arrivesAs f.blocks.length (splitEdges f) s.block)
        simp only [Option.map_some, hexec]
        rfl
    · rename_i hge
      have hnone := hno.resolve_left hge
      have hbranch := h.branchTo_eq hf hc hs hblk
      rw [hnone, Option.map_none] at hbranch
      cases hterm : blk.terminator with
      | ret v | tailExt v => rfl
      | _ =>
        rw [hterm] at hnone hbranch
        simp only [Terminator.mapArms] at hbranch ⊢
        simp only [Machine.leave, hnone, hbranch]
        rfl
  have hevent : (m.readdress f).event f' s = m.event f s := by
    by_cases hlt : s.pc < blk.instRange.stop
    · have hin : InBlock f s.pc s.block := ⟨blk, hblk, hstart, hlt⟩
      have hinst := h.inst s.block s.pc hin (leadsIfPhi_of_reach hf hs hin)
      have hmark : ∀ (inst : Inst) (g g' : ℕ → ℕ),
          ((inst.mapPreds g).mapAddress g').isLifetimeMarker = inst.isLifetimeMarker := by
        intro inst g g'
        cases inst <;> rfl
      cases hi : f.insts[s.pc]? with
      | none =>
        simp only [Machine.event, hblk, hblk', hinst, hi]
        rfl
      | some inst =>
        simp only [Machine.event, hblk, hblk', hinst, hi, Option.map_some, bind,
          Option.bind_some, hmark]
        rfl
    · have hnone : ∀ (x : Option Inst) (e : Event m.Ext), (x.bind fun inst =>
          if s.pc < blk.instRange.stop ∧ inst.isLifetimeMarker = false then some e else none) =
          none := by
        intro x e
        cases x <;> simp [hlt]
      simp only [Machine.event, hblk, hblk', bind, Option.bind_some, hnone]
      exact hnone _ _
  unfold Machine.move
  rw [hstep, hevent]
  cases m.step f s with
  | none => rfl
  | some r => cases r <;> rfl

/-- States that go together move alike, or the split function stops over. -/
lemma Split.move_at (h : Split (splitEdges f) (newAddress f) f f') (hf : Verified f)
    (hc : SplitsApart f) {i : ℕ} {s₁ s₂ : State m.Ext} (hat : At f m i s₁ s₂) :
    ((m.readdress f).move f' s₁ = m.move f s₂ ∧
        ∀ e t, m.move f s₂ = .step e t → At f m 1 t t) ∨
      ∃ t, (m.readdress f).move f' s₁ = .step none t ∧ 0 < i ∧ At f m 0 t s₂ := by
  have hclosed := FunctionSsa.graph_closed hf.gotoTargets hf.targets
  -- A move of the function leads to a state that goes with itself.
  have hnext : ∀ (s : State m.Ext) (blk : Block), f.graph.Reach s.block →
      f.blocks[s.block]? = some blk → (blk.instRange.start ≤ s.pc ∨ blk.instRange.stop ≤ s.pc) →
      ∀ e t, m.move f s = .step e t → At f m 1 t t := by
    intro s blk hs hblk hpc e t hmove
    obtain ⟨ht, -⟩ := Machine.move_eq_step.mp hmove
    obtain ⟨blk₁, hblk₁, ⟨hlt, inst, r, -, -, rfl⟩ | ⟨-, b, blkb, hb, hblkb, rfl⟩⟩ :=
      Machine.step_cases ht
    · obtain rfl := Option.some.inj (hblk.symm.trans hblk₁)
      refine .same hs hblk (Nat.le_succ_of_le ?_)
      omega
    · exact .same (hs.step (Machine.branchTo_edge hblk₁ hb)) hblkb le_rfl
  have hblkt : ∀ (s : State m.Ext) (blk : Block) (t : ℕ), f.blocks[s.block]? = some blk →
      m.branchTo f s blk.terminator = some t → ∃ blkt, f.blocks[t]? = some blkt := by
    intro s blk t hblk hb
    have ht := hclosed _ _ (Machine.branchTo_edge hblk hb)
    rw [f.graph_size] at ht
    exact ⟨_, List.getElem?_eq_getElem ht⟩
  cases hat with
  | @same _ blk hs hblk hstart =>
    by_cases hno : s₁.pc < blk.instRange.stop ∨ m.branchTo f s₁ blk.terminator = none
    · exact Or.inl ⟨h.move_eq hf hc hs hblk hstart hno, hnext s₁ blk hs hblk (Or.inl hstart)⟩
    · obtain ⟨hpc, hb⟩ := not_or.mp hno
      obtain ⟨t, ht⟩ := Option.ne_none_iff_exists'.mp hb
      obtain ⟨blkt, htblk⟩ := hblkt s₁ blk t hblk ht
      have hmove := h.move_end hf hc hs hblk (not_lt.mp hpc) ht htblk
      split at hmove
      · rename_i hmem
        exact Or.inr ⟨_, hmove, Nat.one_pos, .between hs hblk (not_lt.mp hpc) ht hmem⟩
      · refine Or.inl ⟨hmove.trans ?_, hnext s₁ blk hs hblk (Or.inl hstart)⟩
        exact (Machine.move_branch hblk (not_lt.mp hpc) ht htblk).symm
  | @between _ blk t hs hblk hpc hb hmem =>
    obtain ⟨blkt, htblk⟩ := hblkt s₂ blk t hblk hb
    refine Or.inl ⟨(h.move_between hf hs hblk hb htblk hmem).trans ?_,
      hnext s₂ blk hs hblk (Or.inr hpc)⟩
    exact (Machine.move_branch hblk hpc hb htblk).symm

/-- The split function runs as the function does. -/
theorem Split.sameRuns (h : Split (splitEdges f) (newAddress f) f f') (hf : Verified f)
    (hc : SplitsApart f) (hne : f.blocks ≠ []) (w : World m.Ext) :
    SameRuns (m.move f) ((m.readdress f).move f') (m.initial f w)
      ((m.readdress f).initial f' w) := by
  have hsim : StutterSim ((m.readdress f).move f') (m.move f) (At f m) := by
    refine ⟨?_, ?_, ?_⟩
    · intro i s₁ s₂ e t' hat hmove
      rcases h.move_at hf hc hat with ⟨heq, hnext⟩ | ⟨t, ht, hi, hat'⟩
      · rw [heq] at hmove
        exact Or.inl ⟨1, t', hmove, hnext e t' hmove⟩
      · rw [ht] at hmove
        obtain ⟨rfl, rfl⟩ := Move.step.inj hmove
        exact Or.inr ⟨rfl, 0, hi, hat'⟩
    · intro i s₁ s₂ r hat hmove
      rcases h.move_at hf hc hat with ⟨heq, -⟩ | ⟨t, ht, -⟩
      · rwa [heq] at hmove
      · rw [ht] at hmove
        cases hmove
    · intro i s₁ s₂ hat hmove
      rcases h.move_at hf hc hat with ⟨heq, -⟩ | ⟨t, ht, -⟩
      · rwa [heq] at hmove
      · rw [ht] at hmove
        cases hmove
  have h0 : 0 < f.blocks.length := List.length_pos_iff.mpr hne
  have hblk := List.getElem?_eq_getElem h0
  have hinit : (m.readdress f).initial f' w = m.initial f w := by
    simp only [Machine.initial, hblk, h.old 0 _ hblk, Option.map_some, Option.getD_some]
    rfl
  rw [hinit]
  have hstart : At f m 1 (m.initial f w) (m.initial f w) :=
    .same reach_entry hblk (by simp [Machine.initial, hblk])
  exact (hsim.sameRuns hstart).symm

end Runs

/-! ## Phis -/

/-- Where an edge of a block leads: through the table it names, or by itself. -/
def destOf (f : FunctionSsa) (E : List (ℕ × ℕ)) (b t : ℕ) : ℕ :=
  match tableOf f b with
  | some table => entryLeadsTo f E table t
  | none => leadsTo f.blocks.length E b t

section Phis

variable {f f' : FunctionSsa} {E : List (ℕ × ℕ)} {b p s t : ℕ}

/-- The edges of a block of the function. -/
lemma Split.edge_iff (h : Split (splitEdges f) (newAddress f) f f') (hf : Verified f)
    (hnd : (movedLabels f).Nodup) (hb : b < f.blocks.length) {u : ℕ} :
    f'.graph.Edge b u ↔ ∃ t, f.graph.Edge b t ∧ destOf f (splitEdges f) b t = u := by
  have hblk := List.getElem?_eq_getElem hb
  have hE : ∀ t, f.graph.Edge b t ↔
      t ∈ successors f.blocks[b].terminator f.computedGotoTargets f.jumpTables := by
    intro t
    rw [FunctionSsa.graph_edge, hblk]
    simp
  have hE' : f'.graph.Edge b u ↔ u ∈ successors (f.blocks[b].terminator.mapArms
      (leadsTo f.blocks.length (splitEdges f) b)) f'.computedGotoTargets f'.jumpTables := by
    rw [FunctionSsa.graph_edge, h.old b _ hblk]
    simp
  rw [hE']
  simp only [hE]
  have htable : tableOf f b = f.blocks[b].terminator.table? := by
    simp [tableOf, hblk]
  have hdest : ∀ t, f.blocks[b].terminator.table? = none →
      destOf f (splitEdges f) b t = leadsTo f.blocks.length (splitEdges f) b t := by
    intro t hno
    rw [destOf, htable, hno]
  have hsingle : ∀ t, (b, t) ∈ splitEdges f → f.blocks[b].terminator.isGotoIndirect = false →
      2 ≤ (successors f.blocks[b].terminator [] f.jumpTables).length := by
    intro t hmem hdirect
    rcases (mem_splitEdges hf hnd).mp hmem with ⟨hsites, -⟩ | ⟨blk, hblk', -, hlen, -⟩
    · obtain ⟨blk, hblk', hgoto⟩ := mem_indirectBranches.mp (hsites ▸ List.mem_singleton_self _)
      obtain rfl := Option.some.inj (hblk.symm.trans hblk')
      rw [hdirect] at hgoto
      cases hgoto
    · obtain rfl := Option.some.inj (hblk.symm.trans hblk')
      exact hlen
  have hrow : ∀ table, f.blocks[b].terminator.table? = some table →
      (u ∈ f'.jumpTables.getD table [] ↔
        ∃ t ∈ f.jumpTables.getD table [], destOf f (splitEdges f) b t = u) := by
    intro table hsome
    have hd : ∀ t, destOf f (splitEdges f) b t = entryLeadsTo f (splitEdges f) table t := by
      intro t
      rw [destOf, htable, hsome]
    simp only [hd, List.getD_eq_getElem?_getD, h.tables]
    cases f.jumpTables[table]? <;> simp
  cases hterm : f.blocks[b].terminator with
  | jmp c | fallThrough c =>
    rw [hterm] at hdest hsingle
    have hid : leadsTo f.blocks.length (splitEdges f) b c = c := by
      refine if_neg fun hmem => ?_
      have := hsingle c hmem rfl
      simp [successors] at this
    simp only [Terminator.mapArms, successors, List.mem_singleton, exists_eq_left,
      hdest c rfl, hid]
    exact eq_comm
  | bz cond c d | bnz cond c d =>
    rw [hterm] at hdest
    simp only [Terminator.mapArms, successors, List.mem_cons, List.not_mem_nil, or_false,
      exists_eq_or_imp, exists_eq_left, hdest c rfl, hdest d rfl]
    exact or_congr eq_comm eq_comm
  | gotoIndirect a =>
    rw [hterm] at hdest
    have hp : b ∈ f.indirectBranches :=
      mem_indirectBranches.mpr ⟨_, hblk, by rw [hterm]; rfl⟩
    simp only [Terminator.mapArms, successors, h.gotoTargets, List.mem_map, hdest _ rfl,
      leadsTo_label hf hnd hp]
  | jumpTable idx table | asmGoto table =>
    rw [hterm] at hrow
    simp only [Terminator.mapArms, successors, mem_foldl_insert_end, List.not_mem_nil, false_or]
    exact hrow table rfl
  | ret v | tailExt v | unreachable => simp [Terminator.mapArms, successors]

/-- A split edge is an edge. -/
lemma edge_of_mem_splitEdges (hf : Verified f) (hnd : (movedLabels f).Nodup)
    (h : (p, t) ∈ splitEdges f) : f.graph.Edge p t := by
  rcases (mem_splitEdges hf hnd).mp h with ⟨hsites, ht⟩ | hcrit
  · obtain ⟨blk, hblk, hgoto⟩ := mem_indirectBranches.mp (hsites ▸ List.mem_singleton_self p)
    refine FunctionSsa.graph_edge.mpr ⟨blk, hblk, ?_⟩
    cases hterm : blk.terminator with
    | gotoIndirect target =>
      unfold movedLabels at ht
      split at ht
      · exact List.mem_of_mem_filter ht
      · cases ht
    | _ => rw [hterm] at hgoto; cases hgoto
  · exact hcrit.edge.1

lemma Split.new_edge {address : ℕ → ℕ} (h : Split E address f f') {u : ℕ} (hge : f.blocks.length ≤ b)
    (hedge : f'.graph.Edge b u) : ∃ i p, b = f.blocks.length + i ∧ E[i]? = some (p, u) := by
  obtain ⟨blk, hblk, hu⟩ := FunctionSsa.graph_edge.mp hedge
  obtain ⟨i, p, s, rfl, hi, rfl⟩ := h.new_of_ge hblk hge
  obtain rfl : u = s := by simpa [edgeBlock, successors] using hu
  exact ⟨i, p, rfl, hi⟩

lemma SplitsApart.destOf_eq (hc : SplitsApart f) (hf : Verified f) (hb : f.graph.Reach b) :
    destOf f (splitEdges f) b t = leadsTo f.blocks.length (splitEdges f) b t := by
  unfold destOf
  split
  · rename_i table htable
    exact hc.entryLeadsTo_eq hf htable hb
  · rfl

/-- What the split function reaches: blocks the function reaches, and the blocks of their edges. -/
lemma Split.reach (h : Split (splitEdges f) (newAddress f) f f') (hf : Verified f)
    (hc : SplitsApart f) (hne : f.blocks ≠ []) (hb : f'.graph.Reach b) :
    (b < f.blocks.length → f.graph.Reach b) ∧
      ∀ i p t, b = f.blocks.length + i → (splitEdges f)[i]? = some (p, t) → f.graph.Reach p := by
  have hpos : 0 < f.blocks.length := List.length_pos_iff.mpr hne
  have hclosed := FunctionSsa.graph_closed hf.gotoTargets hf.targets
  induction hb with
  | entry => exact ⟨fun _ => reach_entry, fun i p t h0 => by omega⟩
  | @step a b _ hab _ ih =>
    rcases Nat.lt_or_ge a f.blocks.length with hlt | hge
    · have ha := ih.1 hlt
      obtain ⟨t, hat, hdest⟩ := (h.edge_iff hf hc.labels hlt).mp hab
      rw [hc.destOf_eq hf ha] at hdest
      unfold leadsTo at hdest
      split at hdest
      · rename_i hmem
        refine ⟨fun hbl => by omega, fun i p u hb hi => ?_⟩
        have hidx : (splitEdges f).idxOf (a, t) = i := by omega
        have hget := List.getElem?_eq_getElem (List.idxOf_lt_length_of_mem hmem)
        rw [List.getElem_idxOf, hidx, hi] at hget
        rw [(Prod.mk.inj (Option.some.inj hget)).1]
        exact ha
      · subst hdest
        have ht := hclosed _ _ hat
        rw [f.graph_size] at ht
        exact ⟨fun _ => ha.step hat, fun i p u hb => by omega⟩
    · obtain ⟨i, p, rfl, hi⟩ := h.new_edge hge hab
      have hp := ih.2 i p b rfl hi
      have hedge := edge_of_mem_splitEdges hf hc.labels (List.mem_of_getElem? hi)
      have ht := hclosed _ _ hedge
      rw [f.graph_size] at ht
      exact ⟨fun _ => hp.step hedge, fun j q u hb => by omega⟩

end Phis

end SplitCritEdges

end Badc
