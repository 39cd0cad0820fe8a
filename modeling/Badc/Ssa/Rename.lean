import Badc.Lib.Stutter
import Badc.Ssa.Held

/-!
# Renaming blocks

A run seen from outside is the sequence of instructions it executes, each with the block, by the
part of the tape it holds, the registers and the world it is executed in: `Machine.move`.  The
end of a slot's lifetime is no event.

`Renamed order f f'` says that `f'` consists of the blocks of `f` listed in `order`, under their
positions in that list, with every table that names a block, or has an entry for each block,
rewritten accordingly.  A machine that runs `f'` gives a block the address it had: it is
`Machine.relabel`.  `Renamed.sameRuns` says that the two functions run alike.
-/

namespace Badc

/-- The execution of one instruction, as it is seen from outside. -/
structure Event (Ext : Type) where
  block : InstRange
  pc : ℕ
  regs : Regs
  world : World Ext

namespace Machine

variable (m : Machine) (f : FunctionSsa)

/-- The event of the next step: the instruction it executes, unless that is a lifetime marker. -/
def event (s : State m.Ext) : Option (Event m.Ext) := do
  let blk ← f.blocks[s.block]?
  let inst ← f.insts[s.pc]?
  if s.pc < blk.instRange.stop ∧ inst.isLifetimeMarker = false then
    some ⟨blk.instRange, s.pc, s.regs, s.world⟩
  else none

/-- What the function does in a state. -/
def move (s : State m.Ext) :
    Move (State m.Ext) (Event m.Ext) (Option Val × World m.Ext) :=
  match m.step f s with
  | none => .stuck
  | some (.running t) => .step (m.event f s) t
  | some (.returned v w) => .stop (v, w)

/-- The machine that runs a function made of the blocks listed in `order`: each block keeps its
address. -/
def relabel (order : List ℕ) : Machine where
  Ext := m.Ext
  frame := m.frame
  arg := m.arg
  overflowTraps := m.overflowTraps
  link site := match site.shape with
    | .blockAddr b => m.link { site with shape := .blockAddr (order.getD b b) }
    | _ => m.link site
  fp := m.fp
  loadFp := m.loadFp
  storeFp := m.storeFp
  quiet := m.quiet
  effect := m.effect
  observe := m.observe
  label a := (m.label a).bind fun b => if b ∈ order then some (order.idxOf b) else none
  asmTarget := m.asmTarget
  tail := m.tail

end Machine

namespace Machine

variable {m : Machine} {f : FunctionSsa} {s : State m.Ext}

lemma move_eq_step {e : Option (Event m.Ext)} {t : State m.Ext} :
    m.move f s = .step e t ↔ m.step f s = some (.running t) ∧ m.event f s = e := by
  unfold move
  split <;> simp_all [and_comm]

lemma move_eq_stop {r : Option Val × World m.Ext} :
    m.move f s = .stop r ↔ m.step f s = some (.returned r.1 r.2) := by
  unfold move
  split <;> simp_all [Prod.ext_iff]

lemma move_eq_stuck : m.move f s = .stuck ↔ m.step f s = none := by
  unfold move
  split <;> simp_all

lemma move_branch {blk blk' : Block} {b : ℕ} (hblk : f.blocks[s.block]? = some blk)
    (hpc : blk.instRange.stop ≤ s.pc) (hb : m.branchTo f s blk.terminator = some b)
    (hblk' : f.blocks[b]? = some blk') : m.move f s =
      .step none ⟨b, blk'.instRange.start, enterRegs f s.block blk' s.regs, s.world⟩ := by
  refine move_eq_step.mpr ⟨?_, ?_⟩
  · simp only [step, hblk, not_lt.mpr hpc, if_false, leave_of_branchTo hb, State.goTo, hblk',
      Option.map_some]
  · simp only [event, hblk, not_lt.mpr hpc, bind, Option.bind_some, false_and, if_false]
    cases f.insts[s.pc]? <;> rfl

/-- A run that returns stops with what it returns. -/
lemma stops_of_run {n : ℕ} {v : Option Val} {w : World m.Ext}
    (h : m.run f n s = some (.returned v w)) :
    ∃ tr t, Shows (m.move f) s tr t ∧ m.move f t = .stop (v, w) := by
  induction n generalizing s with
  | zero => cases h
  | succ n ih =>
    obtain ⟨r, hr, hrun⟩ := Option.bind_eq_some_iff.mp h
    cases r with
    | running t =>
      obtain ⟨tr, u, hu, hstop⟩ := ih hrun
      exact ⟨_, u, .step (move_eq_step.mpr ⟨hr, rfl⟩) hu, hstop⟩
    | returned v' w' =>
      cases hrun
      exact ⟨[], s, .refl s, move_eq_stop.mpr hr⟩

end Machine

/-- The word a run returns. -/
def returnedWord {Ext : Type} : Option (Status Ext) → Option Word
  | some (.returned (some (.word x)) _) => some x
  | _ => none

lemma eq_of_returnedWord {Ext : Type} {r : Option (Status Ext)} {x : Word}
    (h : returnedWord r = some x) : ∃ w, r = some (.returned (some (.word x)) w) := by
  unfold returnedWord at h
  split at h
  · exact ⟨_, by rw [Option.some.inj h]⟩
  · cases h

/-- The terminator with `g` applied to the blocks it names. -/
def Terminator.mapBlocks (g : ℕ → ℕ) : Terminator → Terminator
  | .jmp t => .jmp (g t)
  | .fallThrough t => .fallThrough (g t)
  | .bz cond target other => .bz cond (g target) (g other)
  | .bnz cond target other => .bnz cond (g target) (g other)
  | term => term

/-- The instruction with `g` applied to the blocks it names. -/
def Inst.mapBlocks (g : ℕ → ℕ) : Inst → Inst
  | .blockAddr b => .blockAddr (g b)
  | .phi incoming kind => .phi (incoming.map fun q => (g q.1, q.2)) kind
  | inst => inst

/-- A phi without its values from blocks that are not listed. -/
def Inst.keepIncomes (order : List ℕ) : Inst → Inst
  | .phi incoming kind => .phi (incoming.filter fun q => q.1 ∈ order) kind
  | inst => inst

/-- The blocks a terminator branches to, an indirect jump's labels apart. -/
def Terminator.targets (jumpTables : List (List ℕ)) : Terminator → List ℕ
  | .jmp t | .fallThrough t => [t]
  | .bz _ target other | .bnz _ target other => [target, other]
  | .jumpTable _ table | .asmGoto table => jumpTables.getD table []
  | _ => []

section

-- The equations are made here, once for all the lemmas that unfold these.
attribute [local simp] Terminator.mapBlocks Inst.mapBlocks Terminator.targets

end

/-- The jump table a terminator names. -/
def Terminator.table? : Terminator → Option ℕ
  | .jumpTable _ table | .asmGoto table => some table
  | _ => none

/-- `f'` has the blocks of `f` listed in `order`, under their positions there, and every id of a
block is renamed. -/
structure Renamed (order : List ℕ) (f f' : FunctionSsa) : Prop where
  nodup : order.Nodup
  entry : order[0]? = some 0
  numBlocks : f'.blocks.length = order.length
  block : ∀ i b : ℕ, order[i]? = some b → ∃ blk : Block, f.blocks[b]? = some blk ∧
    f'.blocks[i]? = some { blk with terminator := blk.terminator.mapBlocks order.idxOf }
  inst : ∀ b ∈ order, ∀ v, InBlock f v b →
    f'.insts[v]? = (f.insts[v]?).map fun inst => (inst.keepIncomes order).mapBlocks order.idxOf
  targets : ∀ b ∈ order, ∀ blk, f.blocks[b]? = some blk →
    ∀ t ∈ blk.terminator.targets f.jumpTables, t ∈ order
  addresses : ∀ b ∈ order, ∀ v t, InBlock f v b → f.insts[v]? = some (.blockAddr t) → t ∈ order
  tables : ∀ b ∈ order, ∀ (blk : Block) (table : ℕ), f.blocks[b]? = some blk →
    blk.terminator.table? = some table →
    f'.jumpTables[table]? = (f.jumpTables[table]?).map fun row => row.map order.idxOf
  gotoTargets : f'.computedGotoTargets =
    (f.computedGotoTargets.filter (· ∈ order)).map order.idxOf
  labels : f'.labelDataRelocs =
    f.labelDataRelocs.map fun r => { r with block := order.idxOf r.block }
  scopes : f'.sehScopes =
    f.sehScopes.map fun s => { s with target := s.target.map order.idxOf }
  blockSeh : ∀ i b : ℕ, order[i]? = some b → f'.blockSeh.getD i none = f.blockSeh.getD b none
  lowWordTests : ∀ i b : ℕ, order[i]? = some b →
    isMarked f'.lowWordTests i = isMarked f.lowWordTests b
  symbol : ∀ b ∈ order, ∀ v, InBlock f v b → f'.symbolOf v = f.symbolOf v
  f32Values : f'.f32Values = f.f32Values
  cmp32 : f'.cmp32 = f.cmp32
  div32 : f'.div32 = f.div32

lemma idxOf_of_getElem? {α : Type*} [BEq α] [LawfulBEq α] {order : List α} (hnd : order.Nodup)
    {i : ℕ} {b : α} (h : order[i]? = some b) : order.idxOf b = i := by
  obtain ⟨hi, rfl⟩ := List.getElem?_eq_some_iff.mp h
  exact hnd.idxOf_getElem i hi

lemma getElem?_idxOf {order : List ℕ} {b : ℕ} (h : b ∈ order) : order[order.idxOf b]? = some b := by
  rw [List.getElem?_eq_getElem (List.idxOf_lt_length_of_mem h), List.getElem_idxOf]

lemma idxOf_eq_iff {order : List ℕ} (hnd : order.Nodup) {i b c : ℕ} (h : order[i]? = some b)
    (hc : c ∈ order) : order.idxOf c = i ↔ c = b := by
  constructor
  · rintro rfl
    exact Option.some.inj ((getElem?_idxOf hc).symm.trans h)
  · rintro rfl
    exact idxOf_of_getElem? hnd h

namespace Renamed

variable {order : List ℕ} {f f' : FunctionSsa} {m : Machine}

lemma site_eq (h : Renamed order f f') {b v : ℕ} (hb : b ∈ order) (hv : InBlock f v b)
    (inst : Inst) : f'.site v inst = f.site v inst := by
  simp only [FunctionSsa.site, h.symbol b hb v hv, h.f32Values]

/-- A pure instruction computes what it did. -/
lemma pureWord_eq (h : Renamed order f f') {b v : ℕ} (hb : b ∈ order) (hv : InBlock f v b)
    {regs : Regs} {inst : Inst} (hinst : f.insts[v]? = some inst) :
    (m.relabel order).pureWord f' v regs (inst.mapBlocks order.idxOf) =
      m.pureWord f v regs inst := by
  have hsite := h.site_eq hb hv
  have hbinop : ∀ op x y, (m.relabel order).binop f' v op x y = m.binop f v op x y := by
    intro op x y
    simp only [Machine.binop, hsite, isDiv32, isCmp32, h.cmp32, h.div32]
    rfl
  cases inst with
  | blockAddr t =>
    have ht := h.addresses b hb v t hv hinst
    simp only [Machine.pureWord, Inst.mapBlocks, Machine.relabel, FunctionSsa.site,
      Inst.mapOperands, h.symbol b hb v hv, h.f32Values,
      List.getD_eq_getElem?_getD, getElem?_idxOf ht, Option.getD_some]
  | _ => simp only [Machine.pureWord, Inst.mapBlocks, hsite, hbinop] <;> rfl

/-- An instruction of a listed block does what it did. -/
lemma exec_eq (h : Renamed order f f') {b v : ℕ} (hb : b ∈ order) (hv : InBlock f v b)
    {regs : Regs} {w : World m.Ext} {inst : Inst} (hinst : f.insts[v]? = some inst) :
    (m.relabel order).exec f' v regs w ((inst.keepIncomes order).mapBlocks order.idxOf) =
      m.exec f v regs w inst := by
  have hsite := h.site_eq hb hv
  cases hphi : inst.isPhi with
  | true =>
    cases inst with
    | phi incoming kind => rfl
    | _ => cases hphi
  | false =>
    have hkeep : inst.keepIncomes order = inst := by
      cases inst with
      | phi incoming kind => cases hphi
      | _ => rfl
    have hpure : (m.relabel order).pureWord f' v regs (inst.mapBlocks order.idxOf) =
        m.pureWord f v regs inst := h.pureWord_eq hb hv hinst
    rw [hkeep]
    cases hrole : inst.role with
    | pure =>
      have hrole' : (inst.mapBlocks order.idxOf).role = .pure := by
        cases inst <;> exact hrole
      simp only [Machine.exec, hrole, hrole', hpure]
      rfl
    | _ =>
      have hmap : inst.mapBlocks order.idxOf = inst := by
        cases inst with
        | phi incoming kind => cases hphi
        | blockAddr t => cases hrole
        | _ => rfl
      rw [hmap]
      simp only [Machine.exec, hrole, Machine.execLoad, Machine.execStore, Machine.execQuiet,
        Machine.execEffect, hsite, h.f32Values]
      rfl

/-- Over an edge between listed blocks, the phis take the values they took. -/
lemma enterRegs_eq (h : Renamed order f f') {i p b : ℕ} {blk blk' : Block} {regs : Regs}
    (hp : order[i]? = some p) (hb : b ∈ order) (hblk : f.blocks[b]? = some blk)
    (hrange : blk'.instRange = blk.instRange) :
    enterRegs f' i blk' regs = enterRegs f p blk regs := by
  funext v
  unfold enterRegs
  rw [hrange]
  split
  · rename_i hv
    rw [h.inst b hb v ⟨blk, hblk, hv⟩]
    cases hinst : f.insts[v]? with
    | none => rfl
    | some inst =>
      cases inst with
      | phi incoming kind =>
        simp only [Option.map_some, Inst.keepIncomes, Inst.mapBlocks, phiValue, List.find?_map,
          List.find?_filter, Option.bind_map]
        congr 2
        funext q
        simp only [Function.comp]
        by_cases hq : q.1 ∈ order
        · simp [hq, idxOf_eq_iff h.nodup hp hq]
        · have : q.1 ≠ p := fun heq => hq (heq ▸ List.mem_of_getElem? hp)
          simp [hq, this]
      | _ => rfl
  · rfl

/-- A run that stands in a listed block branches to a listed block, where a label address names
only a block that is listed or no label of the function. -/
lemma branchTo_mem (h : Renamed order f f')
    (hlabel : ∀ a b, m.label a = some b → b ∈ f.computedGotoTargets → b ∈ order)
    {s : State m.Ext} {blk : Block} {t : ℕ} (hb : s.block ∈ order)
    (hblk : f.blocks[s.block]? = some blk) (ht : m.branchTo f s blk.terminator = some t) :
    t ∈ order := by
  have hnamed := h.targets s.block hb blk hblk
  revert hnamed ht
  cases blk.terminator with
  | jmp b | fallThrough b =>
    intro ht hnamed
    exact hnamed t (by simpa [Terminator.targets, Machine.branchTo] using ht.symm)
  | bz cond b e | bnz cond b e =>
    intro ht hnamed
    obtain ⟨c, -, rfl⟩ := Option.map_eq_some_iff.mp ht
    refine hnamed _ ?_
    split <;> simp [Terminator.targets]
  | gotoIndirect a =>
    intro ht _
    simp only [Machine.branchTo, bind, Option.bind_eq_some_iff] at ht
    obtain ⟨x, -, b, hb', hif⟩ := ht
    split at hif
    · rename_i hmem
      rw [← Option.some.inj hif]
      exact hlabel x b hb' hmem
    · cases hif
  | jumpTable idx table | asmGoto table =>
    intro ht hnamed
    simp only [Machine.branchTo, bind, Option.bind_eq_some_iff] at ht
    refine hnamed t ?_
    first
    | obtain ⟨x, -, row, hrow, ht⟩ := ht
      simpa [Terminator.targets, List.getD_eq_getElem?_getD, hrow] using List.mem_of_getElem? ht
    | obtain ⟨row, hrow, ht⟩ := ht
      simpa [Terminator.targets, List.getD_eq_getElem?_getD, hrow] using List.mem_of_getElem? ht
  | ret v | tailExt v | unreachable =>
    intro ht
    cases ht

/-- A label of the function is found under its new name. -/
lemma label_goto_eq (h : Renamed order f f')
    (hlabel : ∀ a b, m.label a = some b → b ∈ f.computedGotoTargets → b ∈ order) (x : Word) :
    (((m.relabel order).label x).bind fun b =>
        if b ∈ f'.computedGotoTargets then some b else none) =
      ((m.label x).bind fun b => if b ∈ f.computedGotoTargets then some b else none).map
        order.idxOf := by
  cases hx : m.label x with
  | none => simp [Machine.relabel, hx]
  | some b =>
    simp only [Machine.relabel, hx, Option.bind_some]
    by_cases hb : b ∈ order
    · have hiff : order.idxOf b ∈ f'.computedGotoTargets ↔ b ∈ f.computedGotoTargets := by
        rw [h.gotoTargets, List.mem_map]
        constructor
        · rintro ⟨c, hc, hcb⟩
          obtain ⟨hc, hco⟩ := List.mem_filter.mp hc
          rw [(idxOf_eq_iff h.nodup (getElem?_idxOf hb) (of_decide_eq_true hco)).mp hcb] at hc
          exact hc
        · intro hc
          exact ⟨b, List.mem_filter.mpr ⟨hc, decide_eq_true hb⟩, rfl⟩
      simp only [hb, if_true, Option.bind_some, hiff]
      split <;> rfl
    · have hno : b ∉ f.computedGotoTargets := fun hc => hb (hlabel x b hx hc)
      simp [hb, hno]

/-- A terminator branches to where it did, under the new name. -/
lemma branchTo_eq (h : Renamed order f f')
    (hlabel : ∀ a b, m.label a = some b → b ∈ f.computedGotoTargets → b ∈ order)
    {s : State m.Ext} {blk : Block} {i : ℕ} (hi : order[i]? = some s.block)
    (hblk : f.blocks[s.block]? = some blk) :
    (m.relabel order).branchTo f' { s with block := i } (blk.terminator.mapBlocks order.idxOf) =
      (m.branchTo f s blk.terminator).map order.idxOf := by
  have hb := List.mem_of_getElem? hi
  have htables := h.tables s.block hb blk
  have htest : ∀ regs cond, Machine.testWord f' i regs cond =
      Machine.testWord f s.block regs cond := by
    intro regs cond
    simp only [Machine.testWord, h.lowWordTests i s.block hi]
  revert htables
  cases blk.terminator with
  | jmp b | fallThrough b =>
    intro _
    rfl
  | bz cond b e | bnz cond b e =>
    intro _
    simp only [Terminator.mapBlocks, Machine.branchTo, htest, Option.map_map]
    congr 1
    funext c
    simp only [Function.comp]
    split <;> rfl
  | gotoIndirect a =>
    intro _
    simp only [Terminator.mapBlocks, Machine.branchTo, bind]
    cases s.regs.word a with
    | none => rfl
    | some x => exact h.label_goto_eq hlabel x
  | jumpTable idx table =>
    intro htables
    simp only [Terminator.mapBlocks, Machine.branchTo, bind, htables table hblk rfl]
    cases s.regs.word idx with
    | none => rfl
    | some x => cases f.jumpTables[table]? <;> simp
  | asmGoto table =>
    intro htables
    simp only [Terminator.mapBlocks, Machine.branchTo, bind, htables table hblk rfl]
    cases f.jumpTables[table]? <;> simp [Machine.relabel]
  | ret v | tailExt v | unreachable =>
    intro _
    rfl

lemma isLifetimeMarker_rename (inst : Inst) :
    ((inst.keepIncomes order).mapBlocks order.idxOf).isLifetimeMarker = inst.isLifetimeMarker := by
  cases inst <;> rfl

/-- The next step shows the same event. -/
lemma event_eq (h : Renamed order f f') {s : State m.Ext} {i : ℕ} {blk : Block}
    (hi : order[i]? = some s.block) (hblk : f.blocks[s.block]? = some blk)
    (hpc : blk.instRange.start ≤ s.pc) :
    (m.relabel order).event f' { s with block := i } = m.event f s := by
  obtain ⟨blk', hblk₁, hblk'⟩ := h.block i s.block hi
  obtain rfl := Option.some.inj (hblk.symm.trans hblk₁)
  by_cases hlt : s.pc < blk.instRange.stop
  · have hin := h.inst s.block (List.mem_of_getElem? hi) s.pc ⟨blk, hblk, hpc, hlt⟩
    cases hinst : f.insts[s.pc]? with
    | none =>
      simp only [Machine.event, hblk, hblk', hin, hinst]
      rfl
    | some inst =>
      simp only [Machine.event, hblk, hblk', hin, hinst, Option.map_some, bind,
        Option.bind_some, isLifetimeMarker_rename]
      rfl
  · have hnone : ∀ (x : Option Inst) (e : Event m.Ext), (x.bind fun inst =>
        if s.pc < blk.instRange.stop ∧ inst.isLifetimeMarker = false then some e else none) =
        none := by
      intro x e
      cases x <;> simp [hlt]
    simp only [Machine.event, hblk, hblk', bind, Option.bind_some, hnone]
    exact hnone _ _

/-- Taking a terminator ends the call as it did, or enters the block of the old branch. -/
lemma leave_eq (h : Renamed order f f')
    (hlabel : ∀ a b, m.label a = some b → b ∈ f.computedGotoTargets → b ∈ order)
    {s : State m.Ext} {blk : Block} {i : ℕ} (hi : order[i]? = some s.block)
    (hblk : f.blocks[s.block]? = some blk) :
    (m.relabel order).leave f' { s with block := i } (blk.terminator.mapBlocks order.idxOf) =
      (m.leave f s blk.terminator).map fun
        | .running t => .running { t with block := order.idxOf t.block }
        | .returned v w => .returned v w := by
  have hbranch := h.branchTo_eq hlabel hi hblk
  have hmem := fun t => h.branchTo_mem (t := t) hlabel (List.mem_of_getElem? hi) hblk
  -- Entering a listed block gives the same state, under the new name of the block.
  have hgo : (((m.branchTo f s blk.terminator).map order.idxOf).bind fun b =>
        (State.goTo f' { s with block := i } b).map Status.running) =
      ((m.branchTo f s blk.terminator).bind fun b =>
        (s.goTo f b).map Status.running).map fun
        | .running t => .running { t with block := order.idxOf t.block }
        | .returned v w => .returned v w := by
    cases hb : m.branchTo f s blk.terminator with
    | none => rfl
    | some t =>
      have ht := hmem t hb
      obtain ⟨blkt, hblkt, hblkt'⟩ := h.block _ t (getElem?_idxOf ht)
      have hregs : enterRegs f' i
          { blkt with terminator := blkt.terminator.mapBlocks order.idxOf } s.regs =
          enterRegs f s.block blkt s.regs := h.enterRegs_eq hi ht hblkt rfl
      simp only [Option.map_some, Option.bind_some, State.goTo, hblkt, hblkt', hregs]
  unfold Machine.leave
  cases hterm : blk.terminator with
  | ret v =>
    simp only [Terminator.mapBlocks]
    split
    · rfl
    · cases s.regs.get v <;> rfl
  | tailExt binding =>
    show (m.tail binding s.world).map _ = ((m.tail binding s.world).map _).map _
    rw [Option.map_map]
    rfl
  | _ =>
    rw [hterm] at hbranch hgo
    simp only [Terminator.mapBlocks] at hbranch ⊢
    rw [hbranch]
    exact hgo

/-- One step of the renamed function is a step of the function. -/
lemma step_eq (h : Renamed order f f')
    (hlabel : ∀ a b, m.label a = some b → b ∈ f.computedGotoTargets → b ∈ order)
    {s : State m.Ext} {blk : Block} {i : ℕ} (hi : order[i]? = some s.block)
    (hblk : f.blocks[s.block]? = some blk) (hpc : blk.instRange.start ≤ s.pc) :
    (m.relabel order).step f' { s with block := i } =
      (m.step f s).map fun
        | .running t => .running { t with block := order.idxOf t.block }
        | .returned v w => .returned v w := by
  obtain ⟨blk', hblk₁, hblk'⟩ := h.block i s.block hi
  obtain rfl := Option.some.inj (hblk.symm.trans hblk₁)
  have hb := List.mem_of_getElem? hi
  unfold Machine.step
  simp only [hblk, hblk']
  split
  · rename_i hlt
    rw [h.inst s.block hb s.pc ⟨blk, hblk, hpc, hlt⟩]
    cases hinst : f.insts[s.pc]? with
    | none => rfl
    | some inst =>
      have hexec : (m.relabel order).exec f' s.pc s.regs s.world
          ((inst.keepIncomes order).mapBlocks order.idxOf) =
          m.exec f s.pc s.regs s.world inst := h.exec_eq hb ⟨blk, hblk, hpc, hlt⟩ hinst
      simp only [Option.map_some, hexec, Option.map_map]
      congr 1
      funext r
      simp only [Function.comp, idxOf_of_getElem? h.nodup hi]
  · exact h.leave_eq hlabel hi hblk

/-- The renamed function runs as the function does, where a label address names only a listed
block or no label of the function. -/
theorem sameRuns (h : Renamed order f f')
    (hlabel : ∀ a b, m.label a = some b → b ∈ f.computedGotoTargets → b ∈ order)
    (w : World m.Ext) :
    SameRuns (m.move f) ((m.relabel order).move f') (m.initial f w)
      ((m.relabel order).initial f' w) := by
  let R : ℕ → State m.Ext → State m.Ext → Prop := fun _ s s' =>
    ∃ i blk, order[i]? = some s.block ∧ f.blocks[s.block]? = some blk ∧
      blk.instRange.start ≤ s.pc ∧ s' = { s with block := i }
  have hsim : StutterSim (m.move f) ((m.relabel order).move f') R := by
    refine ⟨?_, ?_, ?_⟩
    · rintro - s - e t ⟨i, blk, hi, hblk, hpc, rfl⟩ hmove
      obtain ⟨ht, rfl⟩ := Machine.move_eq_step.mp hmove
      have hstep := h.step_eq hlabel hi hblk hpc
      rw [ht, Option.map_some] at hstep
      refine Or.inl ⟨0, { t with block := order.idxOf t.block },
        Machine.move_eq_step.mpr ⟨hstep, h.event_eq hi hblk hpc⟩, ?_⟩
      -- A step stays in its block or enters a listed one at its start.
      obtain ⟨blk₁, hblk₁, hcase⟩ := Machine.step_cases ht
      obtain rfl := Option.some.inj (hblk.symm.trans hblk₁)
      rcases hcase with ⟨-, inst, r, -, -, rfl⟩ | ⟨-, b, blkb, hb, hblkb, rfl⟩
      · refine ⟨i, blk, hi, hblk, Nat.le_succ_of_le hpc, ?_⟩
        exact congrArg (fun b => State.mk b _ _ _) (idxOf_of_getElem? h.nodup hi)
      · have hmem := h.branchTo_mem hlabel (List.mem_of_getElem? hi) hblk hb
        exact ⟨order.idxOf b, blkb, getElem?_idxOf hmem, hblkb, le_rfl, rfl⟩
    · rintro - s - r ⟨i, blk, hi, hblk, hpc, rfl⟩ hmove
      have hstep := h.step_eq hlabel hi hblk hpc
      rw [Machine.move_eq_stop.mp hmove, Option.map_some] at hstep
      exact Machine.move_eq_stop.mpr hstep
    · rintro - s - ⟨i, blk, hi, hblk, hpc, rfl⟩ hmove
      have hstep := h.step_eq hlabel hi hblk hpc
      rw [Machine.move_eq_stuck.mp hmove, Option.map_none] at hstep
      exact Machine.move_eq_stuck.mpr hstep
  obtain ⟨blk, hblk, hblk'⟩ := h.block 0 0 h.entry
  have hinit : (m.relabel order).initial f' w = m.initial f w := by
    simp only [Machine.initial, hblk, hblk', Option.map_some, Option.getD_some]
    rfl
  rw [hinit]
  exact hsim.sameRuns (i := 0) ⟨0, blk, h.entry, hblk, by simp [Machine.initial, hblk], rfl⟩

end Renamed

end Badc
