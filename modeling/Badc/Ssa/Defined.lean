import Badc.Ssa.Held

/-!
# What the verifier promises of runs

`verify::check` of `src/c5/codegen/ssa/verify.rs` reads a function; its promise is about runs.  A value a run reads was
defined in that run and has not changed since (`reads_defined`), and where a pure instruction defined it, computing that
instruction again from the registers as they are gives the value (`reads_recompute`), which is what moving and
rematerializing instructions rests on.
-/

namespace Badc

namespace Machine

variable {m : Machine} {f : FunctionSsa} {w : World m.Ext} {s s' : State m.Ext} {u : ℕ}

/-- The next instruction or the terminator of a run's state reads `u`; a phi reads on the edge. -/
def Reads (f : FunctionSsa) (s : State m.Ext) (u : ℕ) : Prop :=
  u ≠ noValue ∧ ∃ blk, f.blocks[s.block]? = some blk ∧
    (s.pc < blk.instRange.stop ∧ (∃ inst, f.insts[s.pc]? = some inst ∧ inst.isPhi = false ∧ u ∈ inst.operands) ∨
      blk.instRange.stop ≤ s.pc ∧ u ∈ blk.terminator.operands)

/-- The run goes on from one state to the other. -/
def Leads (f : FunctionSsa) : State m.Ext → State m.Ext → Prop :=
  Relation.ReflTransGen fun s s' => m.step f s = some (.running s')

/-- The run has just defined `u`: by executing it, or as a phi on entry to its block. -/
def JustDefined (f : FunctionSsa) (w : World m.Ext) (u : ℕ) (s : State m.Ext) : Prop :=
  (¬ IsPhi f u ∧ ∃ s₀, m.Reaches f w s₀ ∧ s₀.pc = u ∧ InBlock f u s₀.block ∧ m.step f s₀ = some (.running s)) ∨
    (IsPhi f u ∧ m.Reaches f w s ∧ InBlock f u s.block ∧ ∃ blk, f.blocks[s.block]? = some blk ∧
      s.pc = blk.instRange.start)

lemma Reads.held (hf : Verified f) (h : m.Reaches f w s) (hr : Reads f s u) : Held f s.block s.pc u := by
  obtain ⟨hne, blk, hblk, ⟨hlt, inst, hinst, hphi, hu⟩ | ⟨hge, hu⟩⟩ := hr
  · obtain ⟨hreach, hle, -⟩ := h.placed hf hblk
    exact (hf.reads _ _ inst hreach ⟨blk, hblk, hle, hlt⟩ hinst hphi u hu hne).held
  · exact (hf.ends _ blk hblk (h.placed hf hblk).1 u (List.mem_append_left _ hu) hne).held_end hblk hge

/-- A held value was defined, and has not changed since.  By induction on the run. -/
lemma Reaches.held_defined (hf : Verified f) (h : m.Reaches f w s) {blk : Block}
    (hblk : f.blocks[s.block]? = some blk) (hu : Held f s.block s.pc u) :
    ∃ s₁, JustDefined f w u s₁ ∧ Leads f s₁ s ∧ s.regs u = s₁.regs u := by
  induction h generalizing blk with
  | initial =>
    have hpc : (m.initial f w).pc = blk.instRange.start := by
      have h0 : f.blocks[0]? = some blk := hblk
      simp [Machine.initial, h0]
    rw [hpc] at hu
    have hphi := hu.isPhi_of_start (show f.blocks[0]? = some blk from hblk)
    obtain ⟨db, hin, -, hdom⟩ := hu
    have hdb : db = (m.initial f w).block := by
      by_contra hne
      exact hne ((hdom hne).antisymm (dom_entry (hdom hne).reach_left))
    exact ⟨_, .inr ⟨hphi, .initial, hdb ▸ hin, blk, hblk, hpc⟩, .refl, rfl⟩
  | @step s₀ s hs hstep ih =>
    have hnext : ∀ {s₁}, Leads f s₁ s₀ → Leads f s₁ s := fun hl => hl.tail hstep
    obtain ⟨blk₀, hblk₀, ⟨hlt, inst, r, hinst, hr, rfl⟩ | ⟨hge, b, blk', hb, hblk', rfl⟩⟩ := step_cases hstep
    · obtain ⟨x, hx⟩ := exec_regs hr
      have hpc : InBlock f s₀.pc s₀.block := ⟨blk₀, hblk₀, (hs.placed hf hblk₀).2.1, hlt⟩
      by_cases hnew : u = s₀.pc ∧ ¬ IsPhi f u
      · obtain ⟨rfl, hphi⟩ := hnew
        exact ⟨_, .inl ⟨hphi, s₀, hs, rfl, hpc, hstep⟩, .refl, rfl⟩
      · -- The instruction leaves the value: it is another one, or a phi.
        have hheld : Held f s₀.block s₀.pc u := by
          rcases Held.of_succ hu with ⟨rfl, -⟩ | hu
          · exact ⟨s₀.block, hpc, fun _ => .inr (by simpa using hnew), fun h => absurd rfl h⟩
          · exact hu
        have hsame : r.1 u = s₀.regs u := by
          by_cases hus : u = s₀.pc
          · obtain ⟨inst', hinst', hphi⟩ : IsPhi f u := by simpa [hus] using hnew
            rw [hus, hinst] at hinst'
            obtain rfl := Option.some.inj hinst'
            rw [exec_phi hphi] at hr
            rw [← Option.some.inj hr]
          · rw [hx, Regs.set_of_ne hus]
        obtain ⟨s₁, hdef, hl, heq⟩ := ih hblk₀ hheld
        exact ⟨s₁, hdef, hnext hl, hsame.trans heq⟩
    · rcases hu.of_enter hf (hs.placed hf hblk₀).1 (branchTo_edge hblk₀ hb) hblk₀ hge hblk' with
        ⟨hin, hphi⟩ | ⟨hnot, hu⟩
      · exact ⟨_, .inr ⟨hphi, hs.step hstep, hin, blk', hblk', rfl⟩, .refl, rfl⟩
      · obtain ⟨s₁, hdef, hl, heq⟩ := ih hblk₀ hu
        exact ⟨s₁, hdef, hnext hl, (enterRegs_of_notMem hblk' hnot).trans heq⟩

/-- **What a run reads it has defined**, and the value has not changed since. -/
theorem reads_defined (hcheck : Verify.check f = .ok ()) (h : m.Reaches f w s) (hr : Reads f s u) :
    ∃ s₁, JustDefined f w u s₁ ∧ Leads f s₁ s ∧ s.regs u = s₁.regs u := by
  have hf := check_eq_ok_iff.mp hcheck
  obtain ⟨-, blk, hblk, -⟩ := id hr
  exact h.held_defined hf hblk (hr.held hf h)

/-- **What a run reads can be computed again** from the registers as they are, where a pure instruction defined it, and
so can what that instruction reads. -/
theorem reads_recompute (hcheck : Verify.check f = .ok ()) (h : m.Reaches f w s) (hr : Reads f s u) {v : ℕ}
    (hv : Relation.ReflTransGen (fun a b => b ≠ noValue ∧ ∃ inst, f.insts[a]? = some inst ∧ inst.role = .pure ∧
      b ∈ inst.operands) u v) {inst : Inst} (hinst : f.insts[v]? = some inst) (hpure : inst.role = .pure) :
    ∃ x, s.regs v = some (.word x) ∧ m.pureWord f v s.regs inst = some x := by
  have hf := check_eq_ok_iff.mp hcheck
  obtain ⟨-, blk, hblk, -⟩ := id hr
  have hheld : Held f s.block s.pc v := by
    induction hv generalizing inst with
    | refl => exact hr.held hf h
    | tail _ hbc ih =>
      obtain ⟨hne, inst', hinst', hpure', hmem⟩ := hbc
      exact (ih hinst' hpure').operand hf hinst' (isPhi_of_role_pure hpure') (h.placed hf hblk).1 hmem hne
  exact h.pure_eq hf hblk hheld hinst hpure

end Machine

/-- A constant and its negation. -/
def negatedOne : FunctionSsa where
  insts := [.imm 1, .neg 0]
  blocks := [{ instRange := ⟨0, 2⟩, terminator := .ret 1 }]

/-- The negation reads the constant. -/
theorem Machine.reads_defined_negatedOne : ∃ s s₁ : State Machine.null.Ext, s.pc = 1 ∧
    JustDefined negatedOne .null 0 s₁ ∧ Leads negatedOne s₁ s := by
  have hstep : Machine.null.step negatedOne (Machine.null.initial negatedOne .null) = some (.running _) := rfl
  obtain ⟨s₁, hdef, hl, -⟩ := reads_defined (by decide +kernel) (.step .initial hstep) (u := 0)
    ⟨by decide, _, rfl, .inl ⟨by decide, _, rfl, rfl, by decide⟩⟩
  exact ⟨_, s₁, rfl, hdef, hl⟩

/-- The return reads the negation, which can be computed again. -/
theorem Machine.reads_recompute_negatedOne : ∃ s : State Machine.null.Ext, s.pc = 2 ∧
    ∃ x, s.regs 1 = some (.word x) ∧ Machine.null.pureWord negatedOne 1 s.regs (.neg 0) = some x := by
  have hone : Machine.null.step negatedOne (Machine.null.initial negatedOne .null) = some (.running _) := rfl
  exact ⟨_, rfl, reads_recompute (by decide +kernel) (.step (.step .initial hone) rfl) (u := 1)
    ⟨by decide, _, rfl, .inr ⟨by decide, by decide⟩⟩ .refl rfl rfl⟩

end Badc
