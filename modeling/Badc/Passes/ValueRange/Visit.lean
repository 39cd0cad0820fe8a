import Badc.Passes.ValueRange.Branch

/-!
# One instruction of the walk

What `run_one` of `src/c5/codegen/passes/value_range.rs` records at an instruction is true past it
(`Sound.visitInst`): the range of the value it leaves, what a store left in memory, and the
settled comparisons, operations and divisions (`FoldHolds`, `UnsignedHolds`).

The walk takes two things for granted of every step of a run, and nothing in it checks them:
a vector instruction leaves memory alone, and a division in the 32-bit form leaves what the
64-bit division leaves (`StepFits`).
-/

namespace Badc

namespace ValueRange

lemma of_mem_loadKindsOfStore {kind : StoreKind} {k : LoadKind} (h : k ∈ loadKindsOfStore kind) :
    loadWidth k = storeWidth kind ∧ k.isFloating = false ∧ k ≠ .v128 := by
  cases kind with
  | i8 | i16 | i32 | i64 =>
    simp only [loadKindsOfStore, List.mem_cons, List.not_mem_nil, or_false] at h
    rcases h with rfl | rfl
    all_goals exact ⟨rfl, rfl, by simp⟩
  | _ => cases h

/-- A load of a kind that reads a store back unchanged gives what was stored. -/
lemma loaded_write {m : Machine} {single : Bool} {mem : Mem} {a x : Word} {kind : StoreKind}
    {k : LoadKind} {r : Range} (hk : k ∈ storedKinds kind r) (hx : r.Has x) :
    m.loaded single (mem.write a (storeWidth kind) x.toNat) a k = .word x := by
  unfold storedKinds at hk
  split at hk
  · cases hk
  · obtain ⟨hmem, hfit⟩ := List.mem_filter.mp hk
    obtain ⟨hwidth, hfp, hvec⟩ := of_mem_loadKindsOfStore hmem
    have hlt : loadWidth k < 2 ^ 64 := by cases k <;> norm_num [loadWidth]
    rw [loaded_eq hfp hvec, ← hwidth, Mem.read_write hlt, extendLoad_low hfp hvec]
    congr 1
    cases hw : extendRange k with
    | none =>
      cases k with
      | i64 => rfl
      | v128 => exact absurd rfl hvec
      | f32 | f64 | f80 | f128 => cases hfp
      | _ => cases hw
    | some w =>
      rw [hw, Option.all_some] at hfit
      exact extendLoad_of_has hw (Range.has_of_contains hfit hx)

namespace Tables

variable (cx : Tables)

/-- The range of the value an instruction leaves, before the value is settled. -/
def rangeAt (facts : Facts) (pc : ℕ) (inst : Inst) : Range :=
  let r := (eval (M := Id) inst cx.params (cx.held facts)).meet (cx.held facts pc)
  match loadExprKey cx.func cx.ranges.numbers pc with
  | some ek => r.meet (facts.get ek)
  | none => r

/-- The settled value of an instruction. -/
def valueAt (facts : Facts) (pc : ℕ) (inst : Inst) : Option Word :=
  ((cx.decided facts pc inst).map boolWord).or (point (cx.rangeAt facts pc inst) inst)

/-- The range recorded for an instruction. -/
def recordedAt (facts : Facts) (pc : ℕ) (inst : Inst) : Range :=
  match cx.valueAt facts pc inst with
  | some v => .exact v
  | none => cx.rangeAt facts pc inst

/-- What the walk records at an instruction, in these terms. -/
lemma visitInst_eq {env : Env} {pc : ℕ} {inst : Inst} (hinst : cx.func.insts[pc]? = some inst) :
    cx.visitInst env pc =
      let env := cx.wipe inst env
      let key := keyOf cx.func cx.ranges.numbers pc
      let r := cx.recordedAt env.facts pc inst
      { env with
        facts := match loadExprKey cx.func cx.ranges.numbers pc with
          | some ek => (env.facts.set key r).set ek r
          | none => env.facts.set key r
        folded := match cx.valueAt env.facts pc inst with
          | some v => env.folded ++ [(pc, v)]
          | none => env.folded
        unsigned := if cx.turnsUnsigned env.facts inst then env.unsigned ++ [pc] else env.unsigned
        loadEpoch := if (loadExprKey cx.func cx.ranges.numbers pc).isSome
          then Function.update env.loadEpoch pc env.epoch else env.loadEpoch } := by
  unfold visitInst
  rw [hinst]
  rfl

end Tables

/-! ## A step of a run -/

/-- The words a two-operand instruction reads. -/
def operandWords (regs : Regs) : Inst → Option (Word × Word)
  | .binop _ lhs rhs => do return (← regs.word lhs, ← regs.word rhs)
  | .binopI _ lhs k => do return (← regs.word lhs, k)
  | _ => none

/-- What the walk takes for granted of the instruction a state executes: a vector instruction
leaves memory as it was, and a division in the 32-bit form reads words that are their own low
words and leaves what the 64-bit division leaves. -/
structure StepFits (m : Machine) (f : FunctionSsa) (s : State m.Ext) : Prop where
  simd : ∀ op imm args r, f.insts[s.pc]? = some (.x86Simd op imm args) →
    m.exec f s.pc s.regs s.world (.x86Simd op imm args) = some r → r.2.mem = s.world.mem
  divs : ∀ inst op x y z, f.insts[s.pc]? = some inst → inst.op? = some op →
    isNarrowDiv f s.pc = true → operandWords s.regs inst = some (x, y) →
    m.binop f s.pc op x y = some z →
    (lowWindow op).Has x ∧ (lowWindow op).Has y ∧ applyBinop op x y = some z

/-- The immediate of every comparison marked for 32-bit operands is what the comparison reads of
it. -/
def CmpImmsFit (f : FunctionSsa) : Prop :=
  ∀ (v : ℕ) op lhs k, f.insts[v]? = some (.binopI op lhs k) → (comparison op).isSome →
    (widthOf f v op).read k = k

/-- A state of a run, the instruction it executes and what that leaves. -/
structure Executes (m : Machine) (f : FunctionSsa) (w : World m.Ext) (s : State m.Ext)
    (inst : Inst) (r : Regs × World m.Ext) : Prop where
  reaches : m.Reaches f w s
  inBlock : InBlock f s.pc s.block
  found : f.insts[s.pc]? = some inst
  result : m.exec f s.pc s.regs s.world inst = some r

/-- The state past an instruction. -/
def past {Ext : Type} (s : State Ext) (r : Regs × World Ext) : State Ext :=
  { s with pc := s.pc + 1, regs := r.1, world := r.2 }

/-- An instruction that is not listed as a write leaves memory, but for a vector instruction. -/
lemma mem_of_not_writes {m : Machine} {f : FunctionSsa} {v : ℕ} {regs : Regs} {w : World m.Ext}
    {inst : Inst} {r : Regs × World m.Ext} (h : m.exec f v regs w inst = some r)
    (hw : writesMemory inst = false) (hsimd : ∀ op imm args, inst ≠ .x86Simd op imm args) :
    r.2.mem = w.mem := by
  cases hrole : inst.role with
  | marker =>
    rw [Machine.exec, hrole] at h
    rw [← Option.some.inj h]
  | copy a =>
    rw [Machine.exec, hrole] at h
    obtain ⟨_, -, rfl⟩ := Option.map_eq_some_iff.mp h
    rfl
  | pure =>
    rw [Machine.exec, hrole] at h
    obtain ⟨_, -, rfl⟩ := Option.map_eq_some_iff.mp h
    rfl
  | load kind =>
    rw [Machine.exec, hrole] at h
    obtain ⟨_, -, rfl⟩ := Machine.execLoad_eq_some.mp h
    rfl
  | quiet =>
    rw [Machine.exec, hrole] at h
    obtain ⟨_, _, _, -, -, rfl⟩ := Machine.execQuiet_eq_some.mp h
    rfl
  | store value kind vol | mcpy dst src size | mzero dst size | effect =>
    -- These roles are those of the writes listed and of the vector instructions.
    cases inst with
    | x86Simd op imm args => exact absurd rfl (hsimd op imm args)
    | load addr disp kind vol align pcRel | loadLocal off disp kind vol =>
      cases vol <;> cases hrole
    | _ => first | (cases hrole; done) | cases hw

section Step

variable {m : Machine} {f : FunctionSsa} {params : List Range} {w : World m.Ext}
  {s : State m.Ext} {inst : Inst} {r : Regs × World m.Ext} {env : Env}

namespace Executes

lemma block (h : Executes m f w s inst r) : ∃ blk, f.blocks[s.block]? = some blk ∧
    s.pc < blk.instRange.stop := by
  obtain ⟨blk, hblk, -, hlt⟩ := h.inBlock
  exact ⟨blk, hblk, hlt⟩

lemma past_reaches (h : Executes m f w s inst r) : m.Reaches f w (past s r) := by
  obtain ⟨blk, hblk, hlt⟩ := h.block
  refine h.reaches.step ?_
  simp only [Machine.step, hblk, hlt, if_true, h.found, h.result, Option.map_some, past]

lemma held_self (h : Executes m f w s inst r) : Held f s.block (s.pc + 1) s.pc :=
  ⟨s.block, h.inBlock, fun _ => .inl (Nat.lt_succ_self _), fun hne => absurd rfl hne⟩

/-- The instruction leaves the values held where it stands. -/
lemma keeps (h : Executes m f w s inst r) (hf : Verified f) (mem mem' : Mem) :
    Point.Keeps ⟨Held f s.block s.pc, s.regs, mem⟩ ⟨Held f s.block (s.pc + 1), r.1, mem'⟩ := by
  intro u hu
  refine ⟨?_, ?_⟩
  · obtain ⟨db, hin, hlt, hdom⟩ := hu
    exact ⟨db, hin, fun hdb => (hlt hdb).imp_left Nat.lt_succ_of_lt, hdom⟩
  · obtain ⟨x, hx⟩ := Machine.exec_regs h.result
    cases hphi : inst.isPhi with
    | true =>
      have hr := h.result
      rw [Machine.exec_phi hphi] at hr
      rw [← Option.some.inj hr]
    | false =>
      have hnot : ¬ IsPhi f s.pc := by
        rintro ⟨inst', hinst', hphi'⟩
        obtain rfl := Option.some.inj (h.found.symm.trans hinst')
        rw [hphi] at hphi'
        cases hphi'
      change r.1 u = s.regs u
      rw [hx, Regs.set_of_ne (hu.ne_pc hf h.inBlock hnot)]

lemma held_word (h : Executes m f w s inst r) (hf : Verified f) (hphi : inst.isPhi = false)
    {o : ℕ} {x : Word} (ho : o ∈ inst.operands) (hx : s.regs.word o = some x) :
    Held f s.block s.pc o ∧ s.regs o = some (.word x) := by
  obtain ⟨hne, hreg⟩ := Regs.get_eq_some (Regs.word_eq_some.mp hx)
  obtain ⟨blk, hblk, -⟩ := h.block
  exact ⟨(hf.reads _ _ _ (h.reaches.placed hf hblk).1 h.inBlock h.found hphi o ho hne).held, hreg⟩

lemma names (h : Executes m f w s inst r) (hf : Verified f) (hphi : inst.isPhi = false)
    {o : ℕ} {x : Word} (ho : o ∈ inst.operands) (hx : s.regs.word o = some x) :
    (Point.of f (past s r)).Names f ((valueNumbers f).of o) x := by
  obtain ⟨hheld, hreg⟩ := h.held_word hf hphi ho hx
  exact (names_of hheld hreg).keep (h.keeps hf _ _)

/-- A store whose kind reads back writes a word. -/
lemma stored (h : Executes m f w s inst r) {value : ℕ} {kind : StoreKind}
    (hrole : inst.role = .store value kind false) {k : LoadKind} {range : Range}
    (hk : k ∈ storedKinds kind range) : ∃ a x, m.address s.regs inst = some a ∧
      s.regs.word value = some x ∧
      r.2.mem = s.world.mem.write a (storeWidth kind) x.toNat := by
  have hr := h.result
  rw [Machine.exec, hrole] at hr
  obtain ⟨a, x, bytes, ha, hx, hbytes, rfl⟩ := Machine.execStore_eq_some.mp hr
  have hkind : loadKindsOfStore kind ≠ [] := by
    unfold storedKinds at hk
    split at hk
    · cases hk
    · exact List.ne_nil_of_mem (List.mem_filter.mp hk).1
  cases x with
  | vec y =>
    simp only [Machine.storedBytes, Option.ite_none_right_eq_some] at hbytes
    rw [hbytes.1] at hkind
    exact absurd rfl hkind
  | word y =>
    refine ⟨a, y, ha, Regs.word_eq_some.mpr hx, ?_⟩
    cases kind with
    | i8 | i16 | i32 | i64 =>
      obtain rfl := Option.some.inj hbytes
      rfl
    | _ => exact absurd rfl hkind

/-- What a store establishes about a later load holds past it. -/
lemma holds_stored (h : Executes m f w s inst r) (hf : Verified f) {rangeOf : ℕ → Range}
    (hrange : ∀ o x, Held f s.block s.pc o → s.regs o = some (.word x) → (rangeOf o).Has x)
    {e : FactKey × Range} (he : e ∈ storedFacts (valueNumbers f) rangeOf inst) :
    Holds m f (Point.of f (past s r)) e.1 e.2 := by
  -- The bound is that of the word stored, which a load of the kind reads back.
  have hback : ∀ {a x : Word} {kind : StoreKind} {k : LoadKind} {range : Range},
      k ∈ storedKinds kind range → range.Has x →
      (past s r).world.mem = s.world.mem.write a (storeWidth kind) x.toNat →
      ∀ y, some (m.loaded false (past s r).world.mem a k) = some (.word y) → range.Has y := by
    intro a x kind k range hk hx hmem y hy
    rw [hmem, loaded_write hk hx] at hy
    obtain rfl := Val.word.inj (Option.some.inj hy)
    exact hx
  have hsingle : ∀ {kind : StoreKind} {k : LoadKind} {range : Range}, k ∈ storedKinds kind range →
      k.isFloating = false := by
    intro kind k range hk
    unfold storedKinds at hk
    split at hk
    · cases hk
    · exact (of_mem_loadKindsOfStore (List.mem_filter.mp hk).1).2.1
  unfold storedFacts at he
  split at he
  · rename_i addr disp value kind align pcRel
    obtain ⟨k, hk, rfl⟩ := List.mem_map.mp he
    obtain ⟨a, x, ha, hx, hmem⟩ := h.stored rfl hk
    obtain ⟨b, hb, rfl⟩ := Option.map_eq_some_iff.mp ha
    obtain ⟨hheld, hreg⟩ := h.held_word hf rfl (by simp [Inst.operands]) hx
    refine ⟨_, ⟨b, false, h.names hf rfl (by simp [Inst.operands]) hb, fun hfp => ?_, rfl⟩,
      hback hk (hrange value x hheld hreg) hmem⟩
    exact absurd ((hsingle hk).symm.trans hfp) (by simp)
  · rename_i off disp value kind nsw
    obtain ⟨k, hk, rfl⟩ := List.mem_map.mp he
    obtain ⟨a, x, ha, hx, hmem⟩ := h.stored rfl hk
    obtain rfl := Option.some.inj ha
    obtain ⟨hheld, hreg⟩ := h.held_word hf rfl (by simp [Inst.operands]) hx
    refine ⟨_, ⟨false, fun hfp => ?_, rfl⟩, hback hk (hrange value x hheld hreg) hmem⟩
    exact absurd ((hsingle hk).symm.trans hfp) (by simp)
  · rename_i base index ext scale value kind absBase
    obtain ⟨k, hk, rfl⟩ := List.mem_map.mp he
    obtain ⟨a, x, ha, hx, hmem⟩ := h.stored rfl hk
    simp only [Machine.address, bind, Option.bind_eq_some_iff, pure, Option.some.injEq] at ha
    obtain ⟨b, hb, i, hi, rfl⟩ := ha
    obtain ⟨hheld, hreg⟩ := h.held_word hf rfl (by simp [Inst.operands]) hx
    refine ⟨_, ⟨b, i, false, h.names hf rfl (by simp [Inst.operands]) hb,
      h.names hf rfl (by simp [Inst.operands]) hi, fun hfp => ?_, rfl⟩,
      hback hk (hrange value x hheld hreg) hmem⟩
    exact absurd ((hsingle hk).symm.trans hfp) (by simp)
  · cases he

lemma mem_eq (h : Executes m f w s inst r) (hfit : StepFits m f s)
    (hw : writesMemory inst = false) : r.2.mem = s.world.mem := by
  by_cases hsimd : ∃ op imm args, inst = .x86Simd op imm args
  · obtain ⟨op, imm, args, rfl⟩ := hsimd
    exact hfit.simd op imm args r h.found h.result
  · push Not at hsimd
    exact mem_of_not_writes h.result hw hsimd

/-- Past the instruction the facts are true, those a write ended left out. -/
lemma known_wipe (h : Executes m f w s inst r) (hc : Setting m f params) (hfit : StepFits m f s)
    (hn : env.facts.Noted) (hk : Known m f (Point.of f s) env.facts) :
    Known m f (Point.of f (past s r)) ((Tables.of f params).wipe inst env).facts := by
  have hkeeps : (Point.of f s).Keeps (Point.of f (past s r)) := h.keeps hc.verified _ _
  unfold Tables.wipe
  split
  · obtain ⟨blk, hblk, -⟩ := h.block
    refine List.foldlRecOn (motive := fun facts => Known m f (Point.of f (past s r)) facts) _ _
      (hk.wipe hn hkeeps) fun facts hfacts e he => hfacts.set ?_
    exact h.holds_stored hc.verified (fun o x ho hx => hk.has_held hc h.reaches hblk ho hx) he
  · rename_i hw
    exact hk.keep hkeeps fun _ _ _ => h.mem_eq hfit (by simpa using hw)

section Value

variable {x : Word} {facts : Facts}

lemma has_operand (h : Executes m f w s inst r) (hc : Setting m f params)
    (hk : Known m f (Point.of f (past s r)) facts) (hphi : inst.isPhi = false) {o : ℕ} {y : Word}
    (ho : o ∈ inst.operands) (hy : s.regs.word o = some y) :
    ((Tables.of f params).held facts o).Has y := by
  obtain ⟨blk, hblk, -⟩ := h.block
  obtain ⟨hheld, hreg⟩ := h.held_word hc.verified hphi ho hy
  obtain ⟨hheld', hreg'⟩ := h.keeps hc.verified s.world.mem r.2.mem o hheld
  exact hk.has_held hc h.past_reaches (s := past s r) hblk hheld' (hreg'.trans hreg)

/-- Where a division fits, an operation other than a comparison or a floating-point one leaves what
the operator computes of whole registers. -/
lemma binop_fits (h : Executes m f w s inst r) (hfit : StepFits m f s) {op : BinOp} {y z : Word}
    (hop : inst.op? = some op) (hops : operandWords s.regs inst = some (y, z))
    (hx : m.binop f s.pc op y z = some x) : isFpOp op = true ∨
      (comparison op).isSome ∧ (⟨0, 1⟩ : Range).Has x ∨ applyBinop op y z = some x := by
  cases hnarrow : isNarrowDiv f s.pc with
  | true => exact .inr (.inr (hfit.divs inst op y z x h.found hop hnarrow hops hx).2.2)
  | false =>
    refine Machine.binop_cases ?_ hx
    cases inst with
    | binop op' lhs rhs | binopI op' lhs k =>
      obtain rfl := Option.some.inj hop
      simpa [isNarrowDiv, h.found] using hnarrow
    | _ => cases hop

/-- The value of the instruction is in the bounds its shape gives. -/
lemma has_eval (h : Executes m f w s inst r) (hc : Setting m f params) (hfit : StepFits m f s)
    (hk : Known m f (Point.of f (past s r)) facts) (hx : r.1 s.pc = some (.word x)) :
    (eval (M := Id) inst params ((Tables.of f params).held facts)).Has x := by
  have hone : ∀ b, eval inst params (fun o => some ((Tables.of f params).held facts o)) = some b →
      b.Has x → (eval (M := Id) inst params ((Tables.of f params).held facts)).Has x := by
    intro b hb hhas
    rw [eval_some] at hb
    rwa [Option.some.inj hb]
  cases hphi : inst.isPhi with
  | true =>
    cases inst with
    | phi incoming kind =>
      exact hone _ (Machine.eval_of_role (by simp [Inst.role]) (by simp [Inst.role]) (by simp [Inst.role])
        (by simp [Inst.role])) (Range.has_univ x)
    | _ => cases hphi
  | false =>
    have hops : ∀ o ∈ inst.operands, ∀ y, s.regs.word o = some y →
        ∃ a, some ((Tables.of f params).held facts o) = some a ∧ a.InWord ∧ a.Has y :=
      fun o ho y hy => ⟨_, rfl, inWord_held f params facts o, h.has_operand hc hk hphi ho hy⟩
    cases hnarrow : isNarrowDiv f s.pc with
    | false =>
      obtain ⟨b, hb, hhas⟩ := Machine.has_eval h.result hx h.found hnarrow hc.params hops
      exact hone b hb hhas
    | true =>
      have hword := fun hrole => Machine.exec_pure hrole h.result
      cases inst with
      | binop op lhs rhs =>
        obtain ⟨x', hx', rfl⟩ := hword rfl
        simp only [Regs.set_self, Option.some.injEq, Val.word.injEq] at hx
        subst hx
        simp only [Machine.pureWord, bind, Option.bind_eq_some_iff] at hx'
        obtain ⟨y, hy, z, hz, hx'⟩ := hx'
        have hwords : operandWords s.regs (.binop op lhs rhs) = some (y, z) := by
          simp [operandWords, hy, hz]
        obtain ⟨-, -, happly⟩ := hfit.divs _ op y z _ h.found rfl hnarrow hwords hx'
        exact Range.has_binop (inWord_held f params facts lhs) (inWord_held f params facts rhs)
          (h.has_operand hc hk rfl (by simp [Inst.operands]) hy)
          (h.has_operand hc hk rfl (by simp [Inst.operands]) hz) happly
      | binopI op lhs k =>
        obtain ⟨x', hx', rfl⟩ := hword rfl
        simp only [Regs.set_self, Option.some.injEq, Val.word.injEq] at hx
        subst hx
        simp only [Machine.pureWord, bind, Option.bind_eq_some_iff] at hx'
        obtain ⟨y, hy, hx'⟩ := hx'
        have hwords : operandWords s.regs (.binopI op lhs k) = some (y, k) := by
          simp [operandWords, hy]
        have hbounds : ∃ b, eval (.binopI op lhs k) params
            (fun o => some ((Tables.of f params).held facts o)) = some b ∧ b.Has x' :=
          Machine.has_eval_binopI rfl (inWord_held f params facts lhs)
            (h.has_operand hc hk rfl (by simp [Inst.operands]) hy)
            (h.binop_fits hfit rfl hwords hx')
        obtain ⟨b, hb, hhas⟩ := hbounds
        exact hone b hb hhas
      | _ => simp [isNarrowDiv, h.found] at hnarrow

lemma has_held_self (h : Executes m f w s inst r) (hc : Setting m f params)
    (hk : Known m f (Point.of f (past s r)) facts) (hx : r.1 s.pc = some (.word x)) :
    ((Tables.of f params).held facts s.pc).Has x := by
  obtain ⟨blk, hblk, -⟩ := h.block
  exact hk.has_held hc h.past_reaches (s := past s r) hblk h.held_self hx

/-- Past a load, its key denotes what it read. -/
lemma den_load (h : Executes m f w s inst r) (hc : Setting m f params) {ek : FactKey}
    (hek : loadExprKey f (valueNumbers f) s.pc = some ek) :
    Den m f (Point.of f (past s r)) ek (r.1 s.pc) := by
  have hsingle : ∀ {key}, loadExprKey f (valueNumbers f) s.pc = some key →
      Single f key (isMarked f.f32Values s.pc) := fun hkey _ => ⟨s.pc, hkey, rfl⟩
  have hr := h.result
  unfold loadExprKey at hek
  rw [h.found] at hek
  split at hek
  · rename_i addr disp kind align pcRel heq
    obtain rfl := Option.some.inj heq
    obtain rfl := Option.some.inj hek
    obtain ⟨a, ha, rfl⟩ := Machine.execLoad_eq_some.mp hr
    obtain ⟨b, hb, rfl⟩ := Option.map_eq_some_iff.mp ha
    refine ⟨b, _, h.names hc.verified rfl (by simp [Inst.operands]) hb,
      hsingle (by simp [loadExprKey, h.found]), ?_⟩
    simp [past, Point.of]
  · rename_i off disp kind heq
    obtain rfl := Option.some.inj heq
    obtain rfl := Option.some.inj hek
    obtain ⟨a, ha, rfl⟩ := Machine.execLoad_eq_some.mp hr
    obtain rfl := Option.some.inj ha
    refine ⟨_, hsingle (by simp [loadExprKey, h.found]), ?_⟩
    simp [past, Point.of]
  · rename_i base index ext scale kind absBase heq
    obtain rfl := Option.some.inj heq
    obtain rfl := Option.some.inj hek
    obtain ⟨a, ha, rfl⟩ := Machine.execLoad_eq_some.mp hr
    simp only [Machine.address, bind, Option.bind_eq_some_iff, pure, Option.some.injEq] at ha
    obtain ⟨b, hb, i, hi, rfl⟩ := ha
    refine ⟨b, i, _, h.names hc.verified rfl (by simp [Inst.operands]) hb,
      h.names hc.verified rfl (by simp [Inst.operands]) hi,
      hsingle (by simp [loadExprKey, h.found]), ?_⟩
    simp [past, Point.of]
  · cases hek

/-- The value of the instruction is in the range found for it. -/
lemma has_rangeAt (h : Executes m f w s inst r) (hc : Setting m f params) (hfit : StepFits m f s)
    (hk : Known m f (Point.of f (past s r)) facts) (hx : r.1 s.pc = some (.word x)) :
    ((Tables.of f params).rangeAt facts s.pc inst).Has x := by
  have hboth := Range.has_meet.mpr ⟨h.has_eval hc hfit hk hx, h.has_held_self hc hk hx⟩
  unfold Tables.rangeAt
  split
  · rename_i ek hek
    have hden := h.den_load hc hek
    rw [hx] at hden
    have hagree := agrees_of hc.verified hc.widths.marks h.past_reaches
    exact Range.has_meet.mpr ⟨hboth, hk.has hc.loads hagree hden⟩
  · exact hboth

/-- A settled comparison leaves its answer. -/
lemma eq_of_decided (h : Executes m f w s inst r) (hc : Setting m f params) (himm : CmpImmsFit f)
    (hk : Known m f (Point.of f (past s r)) facts) (hx : r.1 s.pc = some (.word x)) {t : Bool}
    (ht : (Tables.of f params).decided facts s.pc inst = some t) : x = boolWord t := by
  have hcmp : ∀ {op : BinOp} {a b : Range}, Range.decide op a b = some t →
      (comparison op).isSome := by
    intro op a b hd
    unfold Range.decide at hd
    split at hd
    · cases hd
    · rename_i u hu
      simp [hu]
  unfold Tables.decided at ht
  split at ht
  · rename_i op lhs k
    obtain ⟨x', hx', rfl⟩ := Machine.exec_pure rfl h.result
    simp only [Regs.set_self, Option.some.injEq, Val.word.injEq] at hx
    subst hx
    simp only [Machine.pureWord, bind, Option.bind_eq_some_iff] at hx'
    obtain ⟨y, hy, hx'⟩ := hx'
    have happly := Machine.binop_of_comparison (hcmp ht) hx'
    rw [himm _ _ _ _ h.found (hcmp ht)] at happly
    have hd := Range.applyBinop_of_decide
      (has_readAt (h.has_operand hc hk rfl (by simp [Inst.operands]) hy)) (Range.has_exact k) ht
    exact Option.some.inj (happly.symm.trans hd)
  · rename_i op lhs rhs
    obtain ⟨x', hx', rfl⟩ := Machine.exec_pure rfl h.result
    simp only [Regs.set_self, Option.some.injEq, Val.word.injEq] at hx
    subst hx
    simp only [Machine.pureWord, bind, Option.bind_eq_some_iff] at hx'
    obtain ⟨y, hy, z, hz, hx'⟩ := hx'
    have happly := Machine.binop_of_comparison (hcmp ht) hx'
    have hd := Range.applyBinop_of_decide
      (has_readAt (h.has_operand hc hk rfl (by simp [Inst.operands]) hy))
      (has_readAt (h.has_operand hc hk rfl (by simp [Inst.operands]) hz)) ht
    exact Option.some.inj (happly.symm.trans hd)
  · cases ht

lemma eq_of_point {range : Range} {v : Word} (hhas : range.Has x) (hv : Tables.point range inst = some v) :
    x = v := by
  have hone : range.lo = range.hi ∧ BitVec.ofInt 64 range.lo = v := by
    cases inst with
    | binop op lhs rhs | binopI op lhs k =>
      obtain ⟨h, hv⟩ := Option.ite_none_right_eq_some.mp hv
      exact ⟨h.1, Option.some.inj hv⟩
    | _ => cases hv
  rw [← hone.2, le_antisymm hhas.1 (hone.1 ▸ hhas.2), BitVec.ofInt_toInt]

lemma eq_of_valueAt (h : Executes m f w s inst r) (hc : Setting m f params) (himm : CmpImmsFit f)
    (hfit : StepFits m f s) (hk : Known m f (Point.of f (past s r)) facts)
    (hx : r.1 s.pc = some (.word x)) {v : Word}
    (hv : (Tables.of f params).valueAt facts s.pc inst = some v) : x = v := by
  rcases Option.or_eq_some_iff.mp hv with hd | ⟨-, hp⟩
  · obtain ⟨t, ht, rfl⟩ := Option.map_eq_some_iff.mp hd
    exact h.eq_of_decided hc himm hk hx ht
  · exact eq_of_point (h.has_rangeAt hc hfit hk hx) hp

/-- The value of the instruction is in the range recorded for it. -/
lemma has_recordedAt (h : Executes m f w s inst r) (hc : Setting m f params) (himm : CmpImmsFit f)
    (hfit : StepFits m f s) (hk : Known m f (Point.of f (past s r)) facts)
    (hx : r.1 s.pc = some (.word x)) :
    ((Tables.of f params).recordedAt facts s.pc inst).Has x := by
  unfold Tables.recordedAt
  split
  · rename_i v hv
    rw [h.eq_of_valueAt hc himm hfit hk hx hv]
    exact Range.has_exact v
  · exact h.has_rangeAt hc hfit hk hx

/-- Of words that are not negative a signed division is the unsigned one. -/
lemma applyBinop_unsignedForm {op op' : BinOp} {y z : Word} (hop : unsignedForm op = some op')
    (hy : 0 ≤ y.toInt) (hz : 0 ≤ z.toInt) : applyBinop op' y z = applyBinop op y z := by
  have hmsb : ∀ {y : Word}, 0 ≤ y.toInt → y.msb = false := fun hy => by
    rw [BitVec.msb_eq_toInt]
    simpa using hy
  cases op with
  | div =>
    obtain rfl := Option.some.inj hop
    simp [applyBinop, BitVec.sdiv_eq, hmsb hy, hmsb hz]
  | mod =>
    obtain rfl := Option.some.inj hop
    simp [applyBinop, BitVec.srem_eq, hmsb hy, hmsb hz]
  | _ => cases hop

lemma foldBinop_unsignedForm {op op' : BinOp} (hop : unsignedForm op = some op') (y z : Word) :
    foldBinop op' y z = applyBinop op' y z := by
  cases op with
  | div | mod =>
    obtain rfl := Option.some.inj hop
    simp [foldBinop, isFpOp, isFpArithOp, isFpComparisonOp]
  | _ => cases hop

/-- The low words of words that are not negative and their own signed low words. -/
lemma lowWord_unsignedForm {op op' : BinOp} {y : Word} (hop : unsignedForm op = some op')
    (hwin : (lowWindow op).Has y) (hy : 0 ≤ y.toInt) : lowWord op' y = y ∧ lowWord op y = y := by
  have hunsigned : zext32 y = y := by
    refine zext32_of_has ⟨hy, hwin.2.trans ?_⟩
    cases op <;> decide
  cases op with
  | div | mod =>
    obtain rfl := Option.some.inj hop
    exact ⟨hunsigned, sext32_of_has hwin⟩
  | _ => cases hop

/-- A signed division of words that are not negative by a positive word may be turned unsigned. -/
lemma binop_unsignedForm (h : Executes m f w s inst r) (hfit : StepFits m f s) {op op' : BinOp}
    {y z : Word} (hinst : inst.op? = some op) (hwords : operandWords s.regs inst = some (y, z))
    (hop : unsignedForm op = some op') (hy : 0 ≤ y.toInt) (hz : 0 < z.toInt)
    (hx : m.binop f s.pc op y z = some x) : m.binop f s.pc op' y z = some x := by
  have hshape : isFpOp op = false ∧ isFpOp op' = false ∧ isDivmodOp op = true ∧
      isDivmodOp op' = true ∧ op' ≠ .div ∧ op' ≠ .mod := by
    cases op with
    | div | mod =>
      obtain rfl := Option.some.inj hop
      simp [isFpOp, isFpArithOp, isFpComparisonOp, isDivmodOp]
    | _ => cases hop
  obtain ⟨hfp, hfp', hdiv, hdiv', hne, hne'⟩ := hshape
  have hnarrow : isNarrowDiv f s.pc = isDiv32 f s.pc := by
    cases inst with
    | binop op'' lhs rhs | binopI op'' lhs k =>
      obtain rfl := Option.some.inj hinst
      simp [isNarrowDiv, h.found, hdiv]
    | _ => cases hinst
  have hfull := applyBinop_unsignedForm hop hy hz.le
  have hcmp : isIntComparisonOp op = false ∧ isIntComparisonOp op' = false := by
    constructor
    · cases op <;> first | rfl | cases hdiv
    · cases op' <;> first | rfl | cases hdiv'
  cases h32 : isDiv32 f s.pc with
  | false =>
    simp only [Machine.binop, hfp, hfp', hdiv, hdiv', h32, hcmp, hne, hne', Machine.divTraps,
      Bool.and_false, Bool.false_and, Bool.false_eq_true, if_false, decide_false, Bool.or_self]
      at hx ⊢
    rw [hfull]
    exact (Option.ite_none_left_eq_some.mp hx).2
  | true =>
    rw [h32] at hnarrow
    obtain ⟨hwy, hwz, -⟩ := hfit.divs inst op y z x h.found hinst hnarrow hwords hx
    obtain ⟨hly', hly⟩ := lowWord_unsignedForm hop hwy hy
    obtain ⟨hlz', hlz⟩ := lowWord_unsignedForm hop hwz hz.le
    obtain ⟨x₀, hx₀, rfl⟩ := Machine.binop_narrow hdiv h32 hx
    rw [hly, hlz, ← hfull] at hx₀
    have hfold : foldDiv32 op' y z = some (zext32 x₀) := by
      have hlow : ∀ y, (if op' = .divu ∨ op' = .modu then zext32 y else sext32 y) = lowWord op' y :=
        fun _ => rfl
      simp only [foldDiv32, hlow, hly', hlz', foldBinop_unsignedForm hop, hx₀, Option.map_some]
    simp only [Machine.binop, hfp', hdiv', h32, hne, hne', Machine.divTraps, Bool.and_true,
      Bool.and_false, Bool.false_and, Bool.false_eq_true, if_true, if_false, decide_false,
      Bool.or_self]
    exact hfold

lemma pos_of_isPowerOfTwo {d : Range} {z : Word} (hd : Tables.isPowerOfTwo d = true)
    (hz : d.Has z) : 0 < z.toInt := by
  simp only [Tables.isPowerOfTwo, Bool.and_eq_true, decide_eq_true_eq] at hd
  exact hd.1.2.trans_le hz.1

/-- A division the walk turns unsigned leaves the same. -/
lemma exec_turnUnsigned (h : Executes m f w s inst r) (hc : Setting m f params)
    (hfit : StepFits m f s) (hk : Known m f (Point.of f (past s r)) facts)
    (ht : (Tables.of f params).turnsUnsigned facts inst = true) :
    m.exec f s.pc s.regs s.world (turnUnsigned inst) = some r := by
  cases inst with
  | binopI op lhs k =>
    simp only [Tables.turnsUnsigned, Bool.and_eq_true] at ht
    obtain ⟨op', hop⟩ := Option.isSome_iff_exists.mp ht.1.1
    obtain ⟨x, hx, rfl⟩ := Machine.exec_pure rfl h.result
    simp only [Machine.pureWord, bind, Option.bind_eq_some_iff] at hx
    obtain ⟨y, hy, hx⟩ := hx
    have hwords : operandWords s.regs (.binopI op lhs k) = some (y, k) := by
      simp [operandWords, hy]
    have hpos := pos_of_isPowerOfTwo ht.1.2 (Range.has_exact k)
    have hnn := Range.nonneg_of_has ht.2 (h.has_operand hc hk rfl (by simp [Inst.operands]) hy)
    have := h.binop_unsignedForm hfit rfl hwords hop hnn hpos hx
    simp [turnUnsigned, hop, Machine.exec, Inst.role, Machine.pureWord, hy, this]
  | binop op lhs rhs =>
    simp only [Tables.turnsUnsigned, Bool.and_eq_true] at ht
    obtain ⟨op', hop⟩ := Option.isSome_iff_exists.mp ht.1.1
    obtain ⟨x, hx, rfl⟩ := Machine.exec_pure rfl h.result
    simp only [Machine.pureWord, bind, Option.bind_eq_some_iff] at hx
    obtain ⟨y, hy, z, hz, hx⟩ := hx
    have hwords : operandWords s.regs (.binop op lhs rhs) = some (y, z) := by
      simp [operandWords, hy, hz]
    have hpos := pos_of_isPowerOfTwo ht.1.2
      (h.has_operand hc hk rfl (by simp [Inst.operands]) hz)
    have hnn := Range.nonneg_of_has ht.2 (h.has_operand hc hk rfl (by simp [Inst.operands]) hy)
    have := h.binop_unsignedForm hfit rfl hwords hop hnn hpos hx
    simp [turnUnsigned, hop, Machine.exec, Inst.role, Machine.pureWord, hy, hz, this]
  | _ => cases ht

/-- A settled instruction is a pure one, and leaves its value. -/
lemma eq_of_settled (h : Executes m f w s inst r) (hc : Setting m f params) (himm : CmpImmsFit f)
    (hfit : StepFits m f s) (hk : Known m f (Point.of f (past s r)) facts) {v : Word}
    (hv : (Tables.of f params).valueAt facts s.pc inst = some v) :
    r = (s.regs.set s.pc (some (.word v)), s.world) := by
  have hrole : inst.role = .pure := by
    rcases Option.or_eq_some_iff.mp hv with hd | ⟨-, hp⟩
    · obtain ⟨t, ht, -⟩ := Option.map_eq_some_iff.mp hd
      cases inst <;> first | rfl | cases ht
    · cases inst <;> first | rfl | cases hp
  obtain ⟨x, -, rfl⟩ := Machine.exec_pure hrole h.result
  rw [h.eq_of_valueAt (x := x) hc himm hfit hk (by simp) hv]

end Value

/-- Past the instruction, what the walk recorded at it is true. -/
theorem sound_visitInst (h : Executes m f w s inst r) (hc : Setting m f params)
    (himm : CmpImmsFit f) (hfit : StepFits m f s) (hn : env.facts.Noted)
    (hstamp : ∀ v, Held f s.block s.pc v → (loadExprKey f (valueNumbers f) v).isSome →
      env.loadEpoch v ≤ env.epoch) (henv : Sound m f env s) :
    Sound m f ((Tables.of f params).visitInst env s.pc) (past s r) := by
  obtain ⟨blk, hblk, -⟩ := h.block
  have hk := h.known_wipe hc hfit hn henv.known
  have hwords : ∀ {x}, r.1 s.pc = some (.word x) → ((Tables.of f params).recordedAt
      ((Tables.of f params).wipe inst env).facts s.pc inst).Has x :=
    fun hx => h.has_recordedAt hc himm hfit hk hx
  rw [Tables.visitInst_eq _ h.found]
  constructor
  · -- The range of the value is recorded under its own key, and under the key of a load.
    have hown := hk.set ⟨_, den_keyOf hc.verified hc.widths.marks h.past_reaches (s := past s r)
      hblk h.held_self, fun x hx => hwords hx⟩
    dsimp only [Tables.of] at hown ⊢
    split
    · rename_i ek hek
      exact hown.set ⟨_, h.den_load hc hek, fun x hx => hwords hx⟩
    · exact hown
  · intro v ek hv hek hepoch
    by_cases hvpc : v = s.pc
    · subst hvpc
      exact h.den_load hc hek
    · have hheld : Held f s.block s.pc v := hv.of_succ.resolve_left fun hpc => hvpc hpc.1
      have hkeep := h.keeps hc.verified s.world.mem r.2.mem
      have hload : ((Tables.of f params).wipe inst env).loadEpoch v = env.loadEpoch v := by
        unfold Tables.wipe
        split <;> rfl
      have hsame : env.loadEpoch v = ((Tables.of f params).wipe inst env).epoch := by
        rw [← hload]
        dsimp only at hepoch
        split at hepoch
        · rwa [Function.update_of_ne hvpc] at hepoch
        · exact hepoch
      have hle := hstamp v hheld (by simp [hek])
      unfold Tables.wipe at hsame
      split at hsame
      · simp only at hsame
        omega
      · rename_i hw
        have hden := henv.current v ek hheld hek hsame
        have hreg := (hkeep v hheld).2
        change Den m f _ ek (r.1 v)
        rw [show r.1 v = s.regs v from hreg]
        exact hden.keep hkeep fun _ => h.mem_eq hfit (by simpa using hw)

end Executes

end Step

end ValueRange

end Badc
