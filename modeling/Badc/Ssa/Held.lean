import Badc.Ssa.Machine
import Badc.Ssa.Verify

/-!
# Values in scope along a run

A value is *held* at a point of a block when its definition has run on every path there: it is
defined earlier in the block, or is a phi of the block, or is defined in a dominating block.  In
a verified function a step changes no held value other than the one it defines, so a property of
values that each definition establishes holds of every held value in every state of a run
(`Reaches.held_rule`), and the equation of a pure instruction holds in the current registers
(`Reaches.pure_eq`).
-/

namespace Badc

/-- The block that owns each instruction. -/
def blockIndex (f : FunctionSsa) (v : ℕ) : Option ℕ :=
  if v < f.insts.length then
    f.blocks.zipIdx.foldl (fun owner p =>
      if p.1.instRange.start ≤ v ∧ v < p.1.instRange.stop then some p.2 else owner) none
  else none

/-- In a verified function the owner of an instruction is the block that holds it. -/
lemma blockIndex_eq {f : FunctionSsa} (hf : Verified f) {v b : ℕ} (h : InBlock f v b) :
    blockIndex f v = some b := by
  obtain ⟨blk, hblk, hv⟩ := id h
  have hlt : v < f.insts.length := by
    have := hf.range b blk hblk
    omega
  rw [blockIndex, if_pos hlt]
  -- The fold ends at the last block of the list that holds `v`.
  have key : ∀ (l : List (Block × ℕ)) (owner : Option ℕ), (∀ p ∈ l, f.blocks[p.2]? = some p.1) →
      (owner = some b ∨ (blk, b) ∈ l) →
      l.foldl (fun owner p =>
        if p.1.instRange.start ≤ v ∧ v < p.1.instRange.stop then some p.2 else owner) owner =
        some b := by
    intro l
    induction l with
    | nil => simp
    | cons p l ih =>
      intro owner hl hcase
      rw [List.foldl_cons]
      refine ih _ (fun q hq => hl q (.tail _ hq)) ?_
      split
      · rename_i hin
        left
        rw [hf.disjoint v p.2 b ⟨p.1, hl p (.head _), hin⟩ h]
      · rename_i hnot
        rcases hcase with hcase | hcase
        · exact Or.inl hcase
        · rcases List.mem_cons.mp hcase with rfl | hmem
          · exact absurd hv hnot
          · exact Or.inr hmem
  refine key _ none (fun p hp => by simpa using List.mem_zipIdx_iff_getElem?.mp hp) (Or.inr ?_)
  exact List.mem_zipIdx_iff_getElem?.mpr (by simpa using hblk)

/-- A phi stands at `v`. -/
def IsPhi (f : FunctionSsa) (v : ℕ) : Prop :=
  ∃ inst, f.insts[v]? = some inst ∧ inst.isPhi = true

/-- The value `v` is held by a run that stands at `pc` of block `b`. -/
def Held (f : FunctionSsa) (b pc v : ℕ) : Prop :=
  ∃ db, InBlock f v db ∧ (db = b → v < pc ∨ IsPhi f v) ∧ (db ≠ b → f.graph.Dom db b)

section Held

variable {f : FunctionSsa} {a b pc u v : ℕ}

lemma Available.held (h : Available f v b (some pc)) : Held f b pc v := by
  obtain ⟨db, hin, hlt, hdom⟩ := h
  exact ⟨db, hin, fun hdb => Or.inl (hlt hdb pc rfl), hdom⟩

lemma Available.held_end {blk : Block} (h : Available f v b none) (hblk : f.blocks[b]? = some blk)
    (hpc : blk.instRange.stop ≤ pc) : Held f b pc v := by
  obtain ⟨db, hin, -, hdom⟩ := h
  refine ⟨db, hin, fun hdb => Or.inl ?_, hdom⟩
  obtain ⟨blk', hblk', hv⟩ := hin
  subst hdb
  obtain rfl := Option.some.inj (hblk.symm.trans hblk')
  omega

/-- The operands of a held instruction are held. -/
lemma Held.operand (hf : Verified f) (hu : Held f b pc u) {inst : Inst}
    (hinst : f.insts[u]? = some inst) (hphi : inst.isPhi = false) (hb : f.graph.Reach b)
    (hv : v ∈ inst.operands) (hne : v ≠ noValue) : Held f b pc v := by
  obtain ⟨db, hin, hlt, hdom⟩ := hu
  by_cases hdb : db = b
  · subst hdb
    have hupc : u < pc := by
      rcases hlt rfl with hlt | ⟨inst', hinst', hphi'⟩
      · exact hlt
      · rw [hinst] at hinst'
        rw [← Option.some.inj hinst', hphi] at hphi'
        cases hphi'
    obtain ⟨dv, hinv, hvlt, hvdom⟩ := hf.reads db u inst hb hin hinst hphi v hv hne
    exact ⟨dv, hinv, fun hd => Or.inl ((hvlt hd u rfl).trans hupc), hvdom⟩
  · have hdb' := hdom hdb
    obtain ⟨dv, hinv, hvlt, hvdom⟩ :=
      hf.reads db u inst hdb'.reach_left hin hinst hphi v hv hne
    by_cases hdv : dv = db
    · subst hdv
      exact ⟨dv, hinv, fun h => absurd h hdb, fun _ => hdb'⟩
    · refine ⟨dv, hinv, fun h => ?_, fun _ => (hvdom hdv).trans hdb'⟩
      subst h
      exact absurd ((hvdom hdv).antisymm hdb') hdv

lemma Held.operand_notMem (hf : Verified f) (hu : Held f b pc u) (hub : ¬ InBlock f u b)
    {inst : Inst} (hinst : f.insts[u]? = some inst) (hphi : inst.isPhi = false)
    (hv : v ∈ inst.operands) (hne : v ≠ noValue) : ¬ InBlock f v b := by
  obtain ⟨db, hin, -, hdom⟩ := hu
  have hdb : db ≠ b := fun h => hub (h ▸ hin)
  obtain ⟨dv, hinv, -, hvdom⟩ := hf.reads db u inst (hdom hdb).reach_left hin hinst hphi v hv hne
  intro hvb
  obtain rfl := hf.disjoint v dv b hinv hvb
  exact hdb (((hvdom (Ne.symm hdb)).antisymm (hdom hdb)).symm)

/-- Past an instruction, its own value is held besides those held before it. -/
lemma Held.of_succ (h : Held f b (pc + 1) u) : u = pc ∧ InBlock f pc b ∨ Held f b pc u := by
  obtain ⟨db, hin, hlt, hdom⟩ := h
  by_cases hdb : db = b
  · subst hdb
    by_cases hu : u = pc
    · exact Or.inl ⟨hu, hu ▸ hin⟩
    · refine Or.inr ⟨db, hin, fun _ => ?_, fun h => absurd rfl h⟩
      rcases hlt rfl with hlt | hphi
      · left
        omega
      · exact Or.inr hphi
  · exact Or.inr ⟨db, hin, fun h => absurd h hdb, hdom⟩

lemma Held.ne_pc (hf : Verified f) (hpc : InBlock f pc b) (hphi : ¬ IsPhi f pc)
    (h : Held f b pc u) : u ≠ pc := by
  rintro rfl
  obtain ⟨db, hin, hlt, -⟩ := h
  rcases hlt (hf.disjoint u db b hin hpc) with hlt | h
  · omega
  · exact hphi h

/-- On entry to a block its phis are held, and of the rest only what the predecessor held. -/
lemma Held.of_enter {blk blk' : Block} (hf : Verified f) (ha : f.graph.Reach a)
    (hab : f.graph.Edge a b) (hblk : f.blocks[a]? = some blk) (hpc : blk.instRange.stop ≤ pc)
    (hblk' : f.blocks[b]? = some blk') (h : Held f b blk'.instRange.start u) :
    InBlock f u b ∧ IsPhi f u ∨ ¬ InBlock f u b ∧ Held f a pc u := by
  obtain ⟨db, hin, hlt, hdom⟩ := h
  by_cases hdb : db = b
  · subst hdb
    left
    refine ⟨hin, (hlt rfl).resolve_left fun hlt => ?_⟩
    obtain ⟨blk'', hblk'', hu⟩ := hin
    obtain rfl := Option.some.inj (hblk'.symm.trans hblk'')
    omega
  · right
    refine ⟨fun hb => hdb (hf.disjoint u db b hin hb), db, hin, fun hda => Or.inl ?_, fun _ =>
      (hdom hdb).of_edge hdb ha hab⟩
    obtain ⟨blk'', hblk'', hu⟩ := hin
    subst hda
    obtain rfl := Option.some.inj (hblk.symm.trans hblk'')
    omega

/-- At a call's start only phis are held. -/
lemma Held.isPhi_of_start {blk : Block} (hblk : f.blocks[0]? = some blk)
    (h : Held f 0 blk.instRange.start u) : IsPhi f u := by
  obtain ⟨db, hin, hlt, hdom⟩ := h
  by_cases hdb : db = 0
  · subst hdb
    refine (hlt rfl).resolve_left fun hlt => ?_
    obtain ⟨blk'', hblk'', hu⟩ := hin
    obtain rfl := Option.some.inj (hblk.symm.trans hblk'')
    omega
  · have := hdom hdb
    exact absurd (this.antisymm (dom_entry this.reach_left)) hdb

end Held

lemma Regs.set_of_ne {regs : Regs} {u v : ℕ} {x : Option Val} (h : u ≠ v) :
    regs.set v x u = regs u := by
  simp [Regs.set, h]

@[simp] lemma Regs.set_self {regs : Regs} {v : ℕ} {x : Option Val} : regs.set v x v = x := by
  simp [Regs.set]

lemma Regs.get_of_ne {regs : Regs} {v : ℕ} (h : v ≠ noValue) : regs.get v = regs v := if_neg h

lemma Regs.get_eq_some {regs : Regs} {v : ℕ} {x : Val} (h : regs.get v = some x) :
    v ≠ noValue ∧ regs v = some x := by
  unfold Regs.get at h
  split at h
  · cases h
  · exact ⟨‹_›, h⟩

lemma Regs.word_eq_some {regs : Regs} {v : ℕ} {x : Word} :
    regs.word v = some x ↔ regs.get v = some (.word x) := by
  unfold Regs.word
  split
  · rename_i y hy
    simp [hy]
  · rename_i hne
    simp only [reduceCtorEq, false_iff]
    exact hne x

lemma enterRegs_of_notMem {f : FunctionSsa} {p b u : ℕ} {blk : Block} {regs : Regs}
    (hblk : f.blocks[b]? = some blk) (hu : ¬ InBlock f u b) :
    enterRegs f p blk regs u = regs u := by
  unfold enterRegs
  rw [if_neg]
  exact fun h => hu ⟨blk, hblk, h⟩

lemma enterRegs_of_phi {f : FunctionSsa} {p b u : ℕ} {blk : Block} {regs : Regs}
    {incoming : List (ℕ × ℕ)} {kind : LoadKind} (hblk : f.blocks[b]? = some blk)
    (hu : InBlock f u b) (hphi : f.insts[u]? = some (.phi incoming kind)) :
    enterRegs f p blk regs u = phiValue incoming p regs := by
  obtain ⟨blk', hblk', hin⟩ := hu
  obtain rfl := Option.some.inj (hblk.symm.trans hblk')
  unfold enterRegs
  rw [if_pos hin, hphi]

/-- Entry to a block leaves the registers of instructions other than phis. -/
lemma enterRegs_of_not_phi {f : FunctionSsa} {p u : ℕ} {blk : Block} {regs : Regs} {inst : Inst}
    (hinst : f.insts[u]? = some inst) (hphi : inst.isPhi = false) :
    enterRegs f p blk regs u = regs u := by
  unfold enterRegs
  split
  · rw [hinst]
    cases inst with
    | phi incoming kind => cases hphi
    | _ => rfl
  · rfl

lemma phiValue_eq_some {incoming : List (ℕ × ℕ)} {p : ℕ} {regs : Regs} {x : Val}
    (h : phiValue incoming p regs = some x) :
    ∃ v, (p, v) ∈ incoming ∧ regs.get v = some x := by
  obtain ⟨q, hq, hx⟩ := Option.bind_eq_some_iff.mp h
  have hp := List.find?_some hq
  simp only [decide_eq_true_eq] at hp
  exact ⟨q.2, hp ▸ List.mem_of_find?_eq_some hq, hx⟩

namespace Machine

variable {m : Machine} {f : FunctionSsa} {w : World m.Ext} {s : State m.Ext}

/-- A run stands in a reachable block, inside its range. -/
lemma Reaches.placed (hf : Verified f) (h : m.Reaches f w s) {blk : Block}
    (hblk : f.blocks[s.block]? = some blk) :
    f.graph.Reach s.block ∧ blk.instRange.start ≤ s.pc ∧ s.pc ≤ blk.instRange.stop := by
  induction h generalizing blk with
  | initial =>
    have hstart : (m.initial f w).pc = blk.instRange.start := by
      have h0 : f.blocks[0]? = some blk := hblk
      simp [Machine.initial, h0]
    have := hf.range _ blk hblk
    exact ⟨reach_entry, hstart.ge, by omega⟩
  | step hs hstep ih =>
    obtain ⟨blk₁, hblk₁, ⟨hlt, inst, r, -, -, rfl⟩ | ⟨-, b, blk', hb, hblk', rfl⟩⟩ :=
      step_cases hstep
    · obtain rfl := Option.some.inj (hblk.symm.trans hblk₁)
      obtain ⟨h1, h2, h3⟩ := ih hblk
      exact ⟨h1, by dsimp only; omega, by dsimp only; omega⟩
    · obtain rfl := Option.some.inj (hblk.symm.trans hblk')
      have := hf.range _ blk hblk
      exact ⟨(ih hblk₁).1.step (branchTo_edge hblk₁ hb), le_rfl, this.1⟩

lemma Reaches.held_income (hf : Verified f) (h : m.Reaches f w s) {blk : Block} {b u v : ℕ}
    {incoming : List (ℕ × ℕ)} {kind : LoadKind} (hblk : f.blocks[s.block]? = some blk)
    (hpc : blk.instRange.stop ≤ s.pc) (hb : m.branchTo f s blk.terminator = some b)
    (hv : InBlock f v b) (hphi : f.insts[v]? = some (.phi incoming kind))
    (hu : (s.block, u) ∈ incoming) (hne : u ≠ noValue) : Held f s.block s.pc u := by
  have hreach := (h.placed hf hblk).1
  have hedge := branchTo_edge hblk hb
  have := (hf.phiEdges b v incoming kind (hreach.step hedge) hv hphi (s.block, u) hu).2 hne hreach
  exact this.held_end hblk hpc

/-- A property of values that every definition establishes, a phi's from the entry it takes,
holds of every held value in every state of a run. -/
theorem Reaches.held_rule (hf : Verified f) (P : ℕ → Val → Prop)
    (hexec : ∀ s inst r x, m.Reaches f w s →
      (∀ u y, Held f s.block s.pc u → s.regs u = some y → P u y) →
      InBlock f s.pc s.block → f.insts[s.pc]? = some inst → inst.isPhi = false →
      m.exec f s.pc s.regs s.world inst = some r → r.1 s.pc = some x → P s.pc x)
    (hphi : ∀ (s : State m.Ext) blk b v incoming kind u x, m.Reaches f w s →
      f.blocks[s.block]? = some blk → blk.instRange.stop ≤ s.pc →
      m.branchTo f s blk.terminator = some b → InBlock f v b →
      f.insts[v]? = some (.phi incoming kind) → (s.block, u) ∈ incoming →
      s.regs.get u = some x → P u x → P v x)
    (h : m.Reaches f w s) {u : ℕ} {y : Val} (hu : Held f s.block s.pc u)
    (hy : s.regs u = some y) : P u y := by
  induction h generalizing u y with
  | initial => cases hy
  | step hs hstep ih =>
    rename_i s₀ s'
    obtain ⟨blk, hblk, ⟨hlt, inst, r, hinst, hr, rfl⟩ | ⟨hge, b, blk', hb, hblk', rfl⟩⟩ :=
      step_cases hstep
    · obtain ⟨x, hx⟩ := exec_regs hr
      have hpc : InBlock f s₀.pc s₀.block := ⟨blk, hblk, (hs.placed hf hblk).2.1, hlt⟩
      dsimp only at hu hy
      cases hisphi : inst.isPhi with
      | true =>
        -- A phi took its value on entry to the block.
        have hsame : r.1 = s₀.regs := by
          rw [exec_phi hisphi] at hr
          rw [← Option.some.inj hr]
        rcases hu.of_succ with ⟨rfl, -⟩ | hu
        · refine ih ⟨s₀.block, hpc, fun _ => Or.inr ⟨inst, hinst, hisphi⟩, fun h => absurd rfl h⟩ ?_
          rw [← hsame]
          exact hy
        · exact ih hu (hsame ▸ hy)
      | false =>
        have hnot : ¬ IsPhi f s₀.pc := by
          rintro ⟨inst', hinst', hphi'⟩
          rw [hinst] at hinst'
          rw [← Option.some.inj hinst', hisphi] at hphi'
          cases hphi'
        by_cases hupc : u = s₀.pc
        · subst hupc
          exact hexec s₀ inst r y hs (fun u y => ih) hpc hinst hisphi hr hy
        · rcases hu.of_succ with ⟨h, -⟩ | hu
          · exact absurd h hupc
          · rw [hx, Regs.set_of_ne hupc] at hy
            exact ih hu hy
    · have hreach := (hs.placed hf hblk).1
      dsimp only at hu hy
      rcases hu.of_enter hf hreach (branchTo_edge hblk hb) hblk hge hblk' with
        ⟨hin, inst, hinst, hisphi⟩ | ⟨hnot, hu⟩
      · cases inst with
        | phi incoming kind =>
          rw [enterRegs_of_phi hblk' hin hinst] at hy
          obtain ⟨o, ho, hget⟩ := phiValue_eq_some hy
          obtain ⟨hne, hreg⟩ := Regs.get_eq_some hget
          exact hphi s₀ blk b u incoming kind o y hs hblk hge hb hin hinst ho hget
            (ih (hs.held_income hf hblk hge hb hin hinst ho hne) hreg)
        | _ => cases hisphi
      · rw [enterRegs_of_notMem hblk' hnot] at hy
        exact ih hu hy

/-- A pure instruction reads its operands only. -/
lemma pureWord_congr {v : ℕ} {regs regs' : Regs} {inst : Inst}
    (h : ∀ o ∈ inst.operands, regs.get o = regs'.get o) :
    m.pureWord f v regs inst = m.pureWord f v regs' inst := by
  have hword : ∀ o ∈ inst.operands, regs.word o = regs'.word o := by
    intro o ho
    simp only [Regs.word, h o ho]
  cases inst with
  | binop op lhs rhs | shiftOp op lhs rhs shift amount =>
    simp only [pureWord, hword lhs (by simp [Inst.operands]), hword rhs (by simp [Inst.operands])]
  | binopI op a k | neg a | fneg a | bitField a span signed | extend a kind nsw | bswap a width
  | bitCount op a width | fpCast kind a =>
    simp only [pureWord, hword a (by simp [Inst.operands])]
  | fma a b c np na | mulAdd a b c np | udiv128 a b c =>
    simp only [pureWord, hword a (by simp [Inst.operands]), hword b (by simp [Inst.operands]),
      hword c (by simp [Inst.operands])]
  | _ => rfl

lemma exec_pure {v : ℕ} {regs : Regs} {world : World m.Ext} {inst : Inst}
    {r : Regs × World m.Ext} (hrole : inst.role = .pure)
    (h : m.exec f v regs world inst = some r) :
    ∃ x, m.pureWord f v regs inst = some x ∧ r = (regs.set v (some (.word x)), world) := by
  rw [exec, hrole] at h
  obtain ⟨x, hx, rfl⟩ := Option.map_eq_some_iff.mp h
  exact ⟨x, hx, rfl⟩

lemma isPhi_of_role_pure {inst : Inst} (h : inst.role = .pure) : inst.isPhi = false := by
  cases inst <;> first | rfl | cases h

/-- In every state of a run, the equation of each held pure instruction holds in the registers
as they are now. -/
theorem Reaches.pure_eq (hf : Verified f) (h : m.Reaches f w s) {blk : Block}
    (hblk : f.blocks[s.block]? = some blk) {u : ℕ} {inst : Inst}
    (hu : Held f s.block s.pc u) (hinst : f.insts[u]? = some inst) (hrole : inst.role = .pure) :
    ∃ x, s.regs u = some (.word x) ∧ m.pureWord f u s.regs inst = some x := by
  have hnotphi : ¬ IsPhi f u := by
    rintro ⟨inst', hinst', hphi'⟩
    rw [hinst] at hinst'
    rw [← Option.some.inj hinst', isPhi_of_role_pure hrole] at hphi'
    cases hphi'
  induction h generalizing blk with
  | initial =>
    have h0 : f.blocks[0]? = some blk := hblk
    have hpc : (m.initial f w).pc = blk.instRange.start := by simp [Machine.initial, h0]
    rw [hpc] at hu
    exact absurd (hu.isPhi_of_start h0) hnotphi
  | step hs hstep ih =>
    rename_i s₀ s'
    -- The registers the equation reads are the same before and after the step.
    have hkeep : ∀ regs regs' : Regs, (∀ o ∈ inst.operands, o ≠ noValue → regs o = regs' o) →
        m.pureWord f u regs inst = m.pureWord f u regs' inst := by
      refine fun regs regs' hsame => pureWord_congr fun o ho => ?_
      by_cases hne : o = noValue
      · simp [hne, Regs.get]
      · rw [Regs.get_of_ne hne, Regs.get_of_ne hne, hsame o ho hne]
    obtain ⟨blk₀, hblk₀, ⟨hlt, inst', r, hinst', hr, rfl⟩ | ⟨hge, b, blk', hb, hblk', rfl⟩⟩ :=
      step_cases hstep
    · obtain ⟨x, hx⟩ := exec_regs hr
      obtain ⟨hreach, hstart, -⟩ := hs.placed hf hblk₀
      have hpc : InBlock f s₀.pc s₀.block := ⟨blk₀, hblk₀, hstart, hlt⟩
      dsimp only at hu ⊢
      by_cases hphi : IsPhi f s₀.pc
      · have hsame : r.1 = s₀.regs := by
          obtain ⟨i', hi', hphi'⟩ := hphi
          obtain rfl := Option.some.inj (hinst'.symm.trans hi')
          rw [exec_phi hphi'] at hr
          rw [← Option.some.inj hr]
        rw [hsame]
        rcases hu.of_succ with ⟨rfl, -⟩ | hu
        · exact absurd hphi hnotphi
        · exact ih hblk₀ hu
      · have hother : ∀ o, Held f s₀.block s₀.pc o → r.1 o = s₀.regs o := by
          intro o ho
          rw [hx, Regs.set_of_ne (ho.ne_pc hf hpc hphi)]
        rcases hu.of_succ with ⟨rfl, -⟩ | hu
        · obtain rfl := Option.some.inj (hinst'.symm.trans hinst)
          obtain ⟨y, hy, rfl⟩ := exec_pure hrole hr
          refine ⟨y, by simp, ?_⟩
          rw [← hy]
          refine hkeep _ _ fun o ho hne => hother o ?_
          exact (hf.reads _ _ _ hreach hpc hinst (isPhi_of_role_pure hrole) o ho hne).held
        · obtain ⟨y, hy, hword⟩ := ih hblk₀ hu
          refine ⟨y, by rw [hother u hu, hy], ?_⟩
          rw [← hword]
          exact hkeep _ _ fun o ho hne => hother o
            (hu.operand hf hinst (isPhi_of_role_pure hrole) hreach ho hne)
    · have hreach := (hs.placed hf hblk₀).1
      dsimp only at hu ⊢
      rcases hu.of_enter hf hreach (branchTo_edge hblk₀ hb) hblk₀ hge hblk' with
        ⟨-, hphi⟩ | ⟨hnot, hu₀⟩
      · exact absurd hphi hnotphi
      · obtain ⟨y, hy, hword⟩ := ih hblk₀ hu₀
        refine ⟨y, by rw [enterRegs_of_notMem hblk' hnot, hy], ?_⟩
        rw [← hword]
        exact hkeep _ _ fun o ho hne => enterRegs_of_notMem hblk'
          (hu.operand_notMem hf hnot hinst (isPhi_of_role_pure hrole) ho hne)

lemma Reaches.held_word (hf : Verified f) (h : m.Reaches f w s) {blk : Block}
    (hblk : f.blocks[s.block]? = some blk) {u o : ℕ} {inst : Inst} {x : Word}
    (hu : Held f s.block s.pc u) (hinst : f.insts[u]? = some inst) (hrole : inst.role = .pure)
    (ho : o ∈ inst.operands) (hx : s.regs.word o = some x) :
    Held f s.block s.pc o ∧ s.regs o = some (.word x) := by
  obtain ⟨hne, hreg⟩ := Regs.get_eq_some (Regs.word_eq_some.mp hx)
  exact ⟨hu.operand hf hinst (isPhi_of_role_pure hrole) (h.placed hf hblk).1 ho hne, hreg⟩

/-- A held operation on two registers, with the words it read. -/
lemma Reaches.binop_eq (hf : Verified f) (h : m.Reaches f w s) {blk : Block}
    (hblk : f.blocks[s.block]? = some blk) {u lhs rhs : ℕ} {op : BinOp} {x : Word}
    (hu : Held f s.block s.pc u) (hinst : f.insts[u]? = some (.binop op lhs rhs))
    (hx : s.regs u = some (.word x)) :
    ∃ a b, (Held f s.block s.pc lhs ∧ s.regs lhs = some (.word a)) ∧
      (Held f s.block s.pc rhs ∧ s.regs rhs = some (.word b)) ∧ m.binop f u op a b = some x := by
  obtain ⟨x', hx', heq⟩ := h.pure_eq hf hblk hu hinst rfl
  obtain rfl := Val.word.inj (Option.some.inj (hx.symm.trans hx'))
  simp only [pureWord, bind, Option.bind_eq_some_iff] at heq
  obtain ⟨a, ha, b, hb, heq⟩ := heq
  exact ⟨a, b, h.held_word hf hblk hu hinst rfl (by simp [Inst.operands]) ha,
    h.held_word hf hblk hu hinst rfl (by simp [Inst.operands]) hb, heq⟩

/-- A held operation on a register and an immediate, with the word it read. -/
lemma Reaches.binopI_eq (hf : Verified f) (h : m.Reaches f w s) {blk : Block}
    (hblk : f.blocks[s.block]? = some blk) {u lhs : ℕ} {op : BinOp} {k x : Word}
    (hu : Held f s.block s.pc u) (hinst : f.insts[u]? = some (.binopI op lhs k))
    (hx : s.regs u = some (.word x)) :
    ∃ a, (Held f s.block s.pc lhs ∧ s.regs lhs = some (.word a)) ∧
      m.binop f u op a k = some x := by
  obtain ⟨x', hx', heq⟩ := h.pure_eq hf hblk hu hinst rfl
  obtain rfl := Val.word.inj (Option.some.inj (hx.symm.trans hx'))
  simp only [pureWord, bind, Option.bind_eq_some_iff] at heq
  obtain ⟨a, ha, heq⟩ := heq
  exact ⟨a, h.held_word hf hblk hu hinst rfl (by simp [Inst.operands]) ha, heq⟩

end Machine

end Badc
