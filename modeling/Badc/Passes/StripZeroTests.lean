import Badc.Ir.LowWord
import Badc.Ssa.Operands
import Badc.Ssa.Held

/-!
# Stripping zero tests from branches

`strip_zero_test_conds` of `src/c5/codegen/passes/constfold_branch.rs`: a branch on `x == 0` or
`x != 0` becomes the branch on `x`, one link of a chain after another, and `lowWordTests` says
whether it reads the low word of `x` only.

A link reads in place of a value the operand of the instruction that defines it, so in a run the
branch goes the same way: the value is held where the branch stands, so the equation of its
instruction holds there (`Link.sameBranch`).
-/

namespace Badc

namespace ConstfoldBranch

/-! ## The pass -/

/-- An integer test against zero: its operator and its operand. -/
def zeroCompare (f : FunctionSsa) (v : ℕ) : Option (BinOp × ℕ) :=
  match f.insts[v]? with
  | some (.binopI op lhs k) => if k = 0 then some (op, lhs) else none
  | some (.binop op lhs rhs) => if f.insts[rhs]? = some (.imm 0) then some (op, lhs) else none
  | _ => none

/-- Whether a comparison with zero tests for zero. -/
def senseOf : BinOp → Option Bool
  | .eq => some true
  | .ne => some false
  | _ => none

/-- The operand `v` tests against zero, whether the test is for zero, and whether it reads the low
word only. -/
def zeroTest (f : FunctionSsa) (v : ℕ) : Option (ℕ × Bool × Bool) := do
  let (op, lhs) ← zeroCompare f v
  let negate ← senseOf op
  let producer ← f.insts[lhs]?
  if producesFpResult producer || isMarked f.f32Values lhs then none
  else some (lhs, negate, isCmp32 f v)

/-- The operand whose low word decides `v`, where the branch alone reads `v`. -/
def lowWordOf (f : FunctionSsa) (uses : ℕ → ℕ) (v : ℕ) : Option (ℕ × Bool × Bool) :=
  match f.insts[v]? with
  | some (.extend value .i32 _) => if uses v = 1 then some (value, false, true) else none
  | some (.binopI .and value k) =>
    if k = 0xFFFFFFFF ∧ uses v = 1 then some (value, false, true) else none
  | _ => none

/-- A conditional branch, and whether it goes to its target on zero. -/
def condOf : Terminator → Option (ℕ × Bool × ℕ × ℕ)
  | .bz cond target fallThrough => some (cond, true, target, fallThrough)
  | .bnz cond target fallThrough => some (cond, false, target, fallThrough)
  | _ => none

/-- State of the pass. -/
structure Strip where
  uses : ℕ → ℕ
  blocks : List Block
  tests : List Bool
  changed : Bool

/-- The uses when a branch reads `lhs` in place of `cond`. -/
def rereadUses (f : FunctionSsa) (uses : ℕ → ℕ) (cond lhs : ℕ) : ℕ → ℕ :=
  let release := fun (u : ℕ → ℕ) v =>
    if v < f.insts.length then Function.update u v (u v - 1) else u
  let uses := if lhs < f.insts.length then Function.update uses lhs (uses lhs + 1) else uses
  let uses := release uses cond
  match f.insts[cond]? with
  | some inst => if uses cond = 0 && inst.isPure then inst.placedOperands.foldl release uses else uses
  | none => uses

/-- Mark in a table with an entry for each block whether a branch reads the low word. -/
def setTest (n : ℕ) (tests : List Bool) (b : ℕ) (lowWord : Bool) : List Bool :=
  (tests ++ List.replicate (n - tests.length) false).set b lowWord

/-- One link of the test block `b` ends in. -/
def stripStep (f : FunctionSsa) (b : ℕ) (s : Strip) : Option Strip := do
  let blk ← s.blocks[b]?
  let (cond, onZero, target, fallThrough) ← condOf blk.terminator
  let (lhs, negate, lowWord) ← (zeroTest f cond).or (lowWordOf f s.uses cond)
  let term := if onZero != negate then Terminator.bz lhs target fallThrough
    else .bnz lhs target fallThrough
  return {
    uses := rereadUses f s.uses cond lhs
    blocks := s.blocks.set b { blk with terminator := term }
    tests := setTest s.blocks.length s.tests b lowWord
    changed := true }

/-- The state after the pass. -/
def stripBlocks (f : FunctionSsa) : Strip :=
  (List.range f.blocks.length).foldl (fun s b => whileSome (stripStep f b) f.insts.length s)
    ⟨computeUseCounts f, f.blocks, f.lowWordTests, false⟩

/-- Strip the zero tests branches read, and whether any branch changed. -/
def stripZeroTestConds (f : FunctionSsa) : FunctionSsa × Bool :=
  let s := stripBlocks f
  ({ f with blocks := s.blocks, lowWordTests := s.tests }, s.changed)

/-! ## One link -/

section

variable {f g : FunctionSsa} {b v : ℕ} {s s' : Strip} {m : Machine} {w : World m.Ext}
  {st : State m.Ext}

/-- The marks of other blocks stay. -/
lemma isMarked_setTest {n : ℕ} {tests : List Bool} {c : ℕ} {lowWord : Bool} (hb : b < n) :
    isMarked (setTest n tests b lowWord) c = if c = b then lowWord else isMarked tests c := by
  unfold isMarked setTest
  rw [List.getD_eq_getElem?_getD, List.getElem?_set]
  by_cases hc : c = b
  · subst hc
    have hlen : c < (tests ++ List.replicate (n - tests.length) false).length := by
      rw [List.length_append, List.length_replicate]
      omega
    rw [if_pos rfl, if_pos hlen, if_pos rfl, Option.getD_some]
  · rw [if_neg (Ne.symm hc), if_neg hc, List.getD_eq_getElem?_getD]
    by_cases hlt : c < tests.length
    · rw [List.getElem?_append_left hlt]
    · rw [List.getElem?_append_right (by omega), List.getElem?_eq_none (l := tests) (by omega),
        List.getElem?_replicate]
      split <;> rfl

/-- The word a branch tests, of the word its condition holds. -/
def testOf (lowWord : Bool) (x : Word) : Word := if lowWord then zext32 x else x

/-- A comparison with zero, at its width, in a run. -/
lemma zeroCompare_eq (hf : Verified f) (h : m.Reaches f w st) {blk : Block}
    (hblk : f.blocks[st.block]? = some blk) {op : BinOp} {lhs : ℕ} {x : Word}
    (hv : Held f st.block st.pc v) (hx : st.regs v = some (.word x))
    (hcmp : zeroCompare f v = some (op, lhs)) :
    ∃ a, Held f st.block st.pc lhs ∧ st.regs.word lhs = some a ∧ m.binop f v op a 0 = some x := by
  unfold zeroCompare at hcmp
  split at hcmp
  · next op' lhs' k hinst =>
    split at hcmp
    · next hk =>
      obtain ⟨rfl, rfl⟩ := Prod.mk.inj (Option.some.inj hcmp)
      obtain ⟨y, hy, hword⟩ := h.pure_eq hf hblk hv hinst rfl
      obtain rfl := Val.word.inj (Option.some.inj (hx.symm.trans hy))
      simp only [Machine.pureWord, bind, Option.bind_eq_some_iff, hk] at hword
      obtain ⟨a, ha, heq⟩ := hword
      exact ⟨a, (h.held_word hf hblk hv hinst rfl (by simp [Inst.operands]) ha).1, ha, heq⟩
    · cases hcmp
  · next op' lhs' rhs hinst =>
    split at hcmp
    · next himm =>
      obtain ⟨rfl, rfl⟩ := Prod.mk.inj (Option.some.inj hcmp)
      obtain ⟨y, hy, hword⟩ := h.pure_eq hf hblk hv hinst rfl
      obtain rfl := Val.word.inj (Option.some.inj (hx.symm.trans hy))
      simp only [Machine.pureWord, bind, Option.bind_eq_some_iff] at hword
      obtain ⟨a, ha, c, hc, heq⟩ := hword
      obtain ⟨hrhs, hreg⟩ := h.held_word hf hblk hv hinst rfl (by simp [Inst.operands]) hc
      obtain ⟨z, hz, hzero⟩ := h.pure_eq hf hblk hrhs himm rfl
      have hz0 : z = 0 := (Option.some.inj hzero).symm
      rw [hreg, hz0] at hz
      obtain rfl := Val.word.inj (Option.some.inj hz)
      exact ⟨a, (h.held_word hf hblk hv hinst rfl (by simp [Inst.operands]) ha).1, ha, heq⟩
    · cases hcmp
  · cases hcmp

/-- A test for zero at the width of its comparison. -/
lemma binop_zero {op : BinOp} {negate : Bool} {a x : Word}
    (hop : op = .eq ∧ negate = true ∨ op = .ne ∧ negate = false)
    (h : m.binop f v op a 0 = some x) :
    x = boolWord (decide (testOf (isCmp32 f v) a = 0) == negate) := by
  have hzero : sext32 0#64 = 0#64 := by decide
  unfold Machine.binop at h
  unfold testOf
  rcases hop with ⟨rfl, rfl⟩ | ⟨rfl, rfl⟩ <;> cases hmark : isCmp32 f v <;>
    simp [hmark, isFpOp, isFpArithOp, isFpComparisonOp, isDivmodOp, isIntComparisonOp,
      Machine.divTraps, applyBinop, foldAtWidth, foldBinop, isUnsignedCmp, hzero,
      sext32_eq_zero] at h ⊢ <;> rw [← h]

/-- **What one link reads decides as what it replaces did**, whichever width that was read at. -/
theorem link_spec (hf : Verified f) (h : m.Reaches f w st) {blk : Block}
    (hblk : f.blocks[st.block]? = some blk) {uses : ℕ → ℕ} {cond lhs : ℕ} {negate lowWord : Bool}
    {x : Word} (hcond : Held f st.block st.pc cond) (hx : st.regs cond = some (.word x))
    (hlink : (zeroTest f cond).or (lowWordOf f uses cond) = some (lhs, negate, lowWord)) :
    ∃ a, Held f st.block st.pc lhs ∧ st.regs.word lhs = some a ∧
      ∀ old, testOf old x = 0 ↔ (testOf lowWord a = 0 ↔ negate = false) := by
  rcases Option.or_eq_some_iff.mp hlink with hzero | ⟨-, hlow⟩
  · simp only [zeroTest, bind, Option.bind_eq_some_iff, Prod.exists] at hzero
    obtain ⟨op, lhs', hcmp, negate', hneg, producer, -, hrest⟩ := hzero
    split at hrest
    · cases hrest
    · obtain ⟨rfl, hpair⟩ := Prod.mk.inj (Option.some.inj hrest)
      obtain ⟨rfl, rfl⟩ := Prod.mk.inj hpair
      obtain ⟨a, hheld, ha, hbin⟩ := zeroCompare_eq hf h hblk hcond hx hcmp
      have hop : op = .eq ∧ negate' = true ∨ op = .ne ∧ negate' = false := by
        cases op <;> simp_all [senseOf]
      refine ⟨a, hheld, ha, fun old => ?_⟩
      rw [binop_zero hop hbin]
      have hsame : testOf old (boolWord (decide (testOf (isCmp32 f cond) a = 0) == negate')) =
          boolWord (decide (testOf (isCmp32 f cond) a = 0) == negate') := by
        unfold testOf
        cases old <;> simp
      rw [hsame]
      refine boolWord_eq_zero.trans ?_
      cases negate' <;> simp
  · unfold lowWordOf at hlow
    split at hlow
    · next value nsw hinst =>
      split at hlow
      · obtain ⟨rfl, hpair⟩ := Prod.mk.inj (Option.some.inj hlow)
        obtain ⟨rfl, rfl⟩ := Prod.mk.inj hpair
        obtain ⟨y, hy, hword⟩ := h.pure_eq hf hblk hcond hinst rfl
        rw [hx] at hy
        obtain rfl := Val.word.inj (Option.some.inj hy)
        obtain ⟨a, ha, hax⟩ := Option.map_eq_some_iff.mp hword
        obtain ⟨hheld, -⟩ := h.held_word hf hblk hcond hinst rfl (by simp [Inst.operands]) ha
        refine ⟨a, hheld, ha, fun old => ?_⟩
        rw [← hax]
        cases old <;> simp [testOf, evalExtend, sext32_eq_zero]
      · cases hlow
    · next value k hinst =>
      split at hlow
      · next hk =>
        obtain ⟨rfl, hpair⟩ := Prod.mk.inj (Option.some.inj hlow)
        obtain ⟨rfl, rfl⟩ := Prod.mk.inj hpair
        obtain ⟨y, hy, hword⟩ := h.pure_eq hf hblk hcond hinst rfl
        obtain rfl := Val.word.inj (Option.some.inj (hx.symm.trans hy))
        simp only [Machine.pureWord, bind, Option.bind_eq_some_iff] at hword
        obtain ⟨a, ha, hbin⟩ := hword
        obtain ⟨hheld, -⟩ := h.held_word hf hblk hcond hinst rfl (by simp [Inst.operands]) ha
        refine ⟨a, hheld, ha, fun old => ?_⟩
        rw [Machine.binop_plain rfl rfl rfl, hk.1] at hbin
        have hval : x = zext32 a := by
          rw [← and_lowMask a]
          exact (Option.some.inj hbin).symm
        rw [hval]
        cases old <;> simp [testOf]
      · cases hlow
    · cases hlow

/-! ## Branches -/

/-- Entering a block reads of a function its tape and its ranges. -/
lemma goTo_congr (hinsts : g.insts = f.insts)
    (hranges : ∀ c : ℕ, (g.blocks[c]?).map Block.instRange = (f.blocks[c]?).map Block.instRange)
    (t : ℕ) : st.goTo g t = st.goTo f t := by
  have ht := hranges t
  unfold State.goTo
  cases hg : g.blocks[t]? with
  | none =>
    cases hf : f.blocks[t]? with
    | none => rfl
    | some blk => simp [hg, hf] at ht
  | some blk' =>
    cases hf : f.blocks[t]? with
    | none => simp [hg, hf] at ht
    | some blk =>
      have hrange : blk'.instRange = blk.instRange := by simpa [hg, hf] using ht
      have henter : enterRegs g st.block blk' st.regs = enterRegs f st.block blk st.regs := by
        funext v
        simp only [enterRegs, hinsts, hrange]
      simp only [Option.map_some, hrange, henter]

/-- Taking a terminator reads of a function its tables, its ranges and the mark of the block. -/
lemma leave_congr (hinsts : g.insts = f.insts) (hgoto : g.computedGotoTargets = f.computedGotoTargets)
    (htables : g.jumpTables = f.jumpTables)
    (hranges : ∀ c : ℕ, (g.blocks[c]?).map Block.instRange = (f.blocks[c]?).map Block.instRange)
    (hmark : isMarked g.lowWordTests st.block = isMarked f.lowWordTests st.block)
    (term : Terminator) : m.leave g st term = m.leave f st term := by
  have htest : ∀ cond, Machine.testWord g st.block st.regs cond =
      Machine.testWord f st.block st.regs cond := by
    intro cond
    unfold Machine.testWord
    rw [hmark]
  have hbranch : m.branchTo g st term = m.branchTo f st term := by
    cases term <;> simp only [Machine.branchTo, htest, hgoto, htables]
  unfold Machine.leave
  split
  · rfl
  · rfl
  · rw [hbranch]
    exact congrArg _ (funext fun t => by rw [goTo_congr hinsts hranges t])

/-- A conditional branch goes to its target where its test is zero as it asks. -/
lemma leave_cond {term : Terminator} {cond target fallThrough : ℕ} {onZero : Bool}
    (h : condOf term = some (cond, onZero, target, fallThrough)) :
    m.leave g st term = ((st.regs.word cond).map fun x =>
      if decide (testOf (isMarked g.lowWordTests st.block) x = 0) = onZero then target
      else fallThrough).bind fun t => (st.goTo g t).map .running := by
  have hleave : m.leave g st term =
      (m.branchTo g st term).bind fun t => (st.goTo g t).map .running := by
    cases term <;> first | rfl | cases h
  rw [hleave]
  congr 1
  cases term <;> simp only [condOf, Option.some.injEq, Prod.mk.injEq, reduceCtorEq] at h
  all_goals
    obtain ⟨rfl, rfl, rfl, rfl⟩ := h
    rw [Machine.branchTo, Machine.testWord, Option.map_map]
    refine congrArg (fun g => (st.regs.word _).map g) (funext fun x => ?_)
    simp only [Function.comp, testOf]
    split <;> simp_all

/-- The function of a state of the pass. -/
def stripped (f : FunctionSsa) (s : Strip) : FunctionSsa :=
  { f with blocks := s.blocks, lowWordTests := s.tests }

/-- What the pass keeps: the ranges, and the way a run that stands at the end of a block leaves
it, by a condition held there. -/
structure StripInv (m : Machine) (f : FunctionSsa) (st : State m.Ext) (r : Status m.Ext) (s : Strip) :
    Prop where
  ranges : ∀ c : ℕ, (s.blocks[c]?).map Block.instRange = (f.blocks[c]?).map Block.instRange
  leaves : ∃ blk, s.blocks[st.block]? = some blk ∧ m.leave (stripped f s) st blk.terminator = some r ∧
    ∀ q, condOf blk.terminator = some q → Held f st.block st.pc q.1

/-- What one link changes. -/
lemma stripStep_spec (hstep : stripStep f b s = some s') :
    ∃ blk cond onZero target fallThrough lhs negate lowWord,
      s.blocks[b]? = some blk ∧ condOf blk.terminator = some (cond, onZero, target, fallThrough) ∧
      (zeroTest f cond).or (lowWordOf f s.uses cond) = some (lhs, negate, lowWord) ∧
      s'.blocks = s.blocks.set b { blk with
        terminator := if onZero != negate then .bz lhs target fallThrough
          else .bnz lhs target fallThrough } ∧
      s'.tests = setTest s.blocks.length s.tests b lowWord := by
  simp only [stripStep, bind, pure, Option.bind_eq_some_iff, Option.some.injEq, Prod.exists] at hstep
  obtain ⟨blk, hblk, cond, onZero, target, fallThrough, hcond, lhs, negate, lowWord, hlink, rfl⟩ := hstep
  exact ⟨blk, cond, onZero, target, fallThrough, lhs, negate, lowWord, hblk, hcond, hlink, rfl, rfl⟩

/-- One link keeps the ranges. -/
lemma ranges_stripStep (hstep : stripStep f b s = some s') (c : ℕ) :
    (s'.blocks[c]?).map Block.instRange = (s.blocks[c]?).map Block.instRange := by
  obtain ⟨blk, _, _, _, _, _, _, _, hblk, -, -, hblocks, -⟩ := stripStep_spec hstep
  rw [hblocks, List.getElem?_set]
  split
  · next hbc =>
    subst hbc
    rw [hblk, if_pos (List.getElem?_eq_some_iff.mp hblk).1]
    rfl
  · rfl

/-- One link keeps the way a run goes. -/
lemma StripInv.step (hf : Verified f) (h : m.Reaches f w st) {r : Status m.Ext}
    (hs : StripInv m f st r s) (hstep : stripStep f b s = some s') : StripInv m f st r s' := by
  have hranges := ranges_stripStep hstep
  obtain ⟨blk₁, cond, onZero, target, fallThrough, lhs, negate, lowWord, hblk₁, hcond, hlink,
    hblocks, htests⟩ := stripStep_spec hstep
  have hb : b < s.blocks.length := (List.getElem?_eq_some_iff.mp hblk₁).1
  obtain ⟨blk, hblk, hleave, hheld⟩ := hs.leaves
  refine ⟨fun c => (hranges c).trans (hs.ranges c), ?_⟩
  have hmark : isMarked (stripped f s').lowWordTests st.block =
      if st.block = b then lowWord else isMarked s.tests st.block := by
    show isMarked s'.tests st.block = _
    rw [htests, isMarked_setTest hb]
  by_cases hbs : st.block = b
  · subst hbs
    rw [if_pos rfl] at hmark
    obtain rfl := Option.some.inj (hblk.symm.trans hblk₁)
    set term := if onZero != negate then Terminator.bz lhs target fallThrough
      else .bnz lhs target fallThrough with hterm
    have hcondOf : condOf term = some (lhs, onZero != negate, target, fallThrough) := by
      rw [hterm]
      cases onZero <;> cases negate <;> rfl
    rw [leave_cond hcond] at hleave
    obtain ⟨t, ht, hgo⟩ := Option.bind_eq_some_iff.mp hleave
    obtain ⟨x, hx, htx⟩ := Option.map_eq_some_iff.mp ht
    have hreg := (Regs.get_eq_some (Regs.word_eq_some.mp hx)).2
    obtain ⟨blkf, hblkf⟩ : ∃ blkf, f.blocks[st.block]? = some blkf := by
      have hr := hs.ranges st.block
      rw [hblk] at hr
      cases hfb : f.blocks[st.block]? with
      | none => simp [hfb] at hr
      | some blkf => exact ⟨blkf, rfl⟩
    obtain ⟨a, hheldL, ha, hsame⟩ := link_spec hf h hblkf (hheld _ hcond) hreg hlink
    refine ⟨_, by rw [hblocks]; exact List.getElem?_set_self hb, ?_, fun q hq => ?_⟩
    · rw [leave_cond hcondOf]
      refine Option.bind_eq_some_iff.mpr ⟨t, Option.map_eq_some_iff.mpr ⟨a, ha, ?_⟩, ?_⟩
      · have hiff := hsame (isMarked (stripped f s).lowWordTests st.block)
        rw [← htx, hmark]
        refine if_congr ?_ rfl rfl
        cases onZero <;> cases negate <;> simp_all
      · rw [← hgo]
        exact congrArg _ (goTo_congr (f := stripped f s) (g := stripped f s') rfl hranges t)
    · rw [hcondOf] at hq
      obtain rfl := Option.some.inj hq
      exact hheldL
  · rw [if_neg hbs] at hmark
    refine ⟨blk, by rw [hblocks, List.getElem?_set_ne (Ne.symm hbs)]; exact hblk, ?_, hheld⟩
    exact (leave_congr (f := stripped f s) (g := stripped f s') rfl rfl rfl hranges hmark
      blk.terminator).trans hleave

/-! ## The pass keeps every run -/

/-- The way a run leaves a block is kept to the end of the pass. -/
lemma stripInv_stripBlocks (hf : Verified f) (h : m.Reaches f w st) {blk : Block}
    (hblk : f.blocks[st.block]? = some blk) (hpc : blk.instRange.stop ≤ st.pc) {r : Status m.Ext}
    (hr : m.leave f st blk.terminator = some r) : StripInv m f st r (stripBlocks f) := by
  have hstart : StripInv m f st r ⟨computeUseCounts f, f.blocks, f.lowWordTests, false⟩ := by
    refine ⟨fun _ => rfl, blk, hblk, hr, fun q hq => ?_⟩
    have hreach := (h.placed hf hblk).1
    have hop : q.1 ∈ blk.terminator.operands := by
      cases hterm : blk.terminator <;> rw [hterm] at hq <;> cases hq <;> simp [Terminator.operands]
    have hne : q.1 ≠ noValue := by
      obtain ⟨cond, onZero, target, fallThrough⟩ := q
      rw [leave_cond hq] at hr
      obtain ⟨t, ht, -⟩ := Option.bind_eq_some_iff.mp hr
      obtain ⟨x, hx, -⟩ := Option.map_eq_some_iff.mp ht
      exact (Regs.get_eq_some (Regs.word_eq_some.mp hx)).1
    exact (hf.ends _ _ hblk hreach _ (List.mem_append_left _ hop) hne).held_end hblk hpc
  unfold stripBlocks
  generalize List.range f.blocks.length = l
  generalize Strip.mk (computeUseCounts f) f.blocks f.lowWordTests false = s at hstart
  induction l generalizing s with
  | nil => exact hstart
  | cons b l ih =>
    exact ih _ (whileSome_invariant (StripInv m f st r) (fun s s' hs hstep => hs.step hf h hstep) _
      hstart)

/-- The blocks of the result. -/
lemma stripZeroTestConds_ranges (c : ℕ) :
    ((stripZeroTestConds f).1.blocks[c]?).map Block.instRange =
      (f.blocks[c]?).map Block.instRange := by
  show ((stripBlocks f).blocks[c]?).map Block.instRange = _
  unfold stripBlocks
  have hfold : ∀ (l : List ℕ) (s : Strip), ((l.foldl
      (fun s b => whileSome (stripStep f b) f.insts.length s) s).blocks[c]?).map Block.instRange =
        (s.blocks[c]?).map Block.instRange := by
    intro l
    induction l with
    | nil => exact fun s => rfl
    | cons b l ih =>
      intro s
      rw [List.foldl_cons, ih]
      exact whileSome_invariant
        (fun t : Strip => (t.blocks[c]?).map Block.instRange = (s.blocks[c]?).map Block.instRange)
        (fun t t' ht htt' => (ranges_stripStep htt' c).trans ht) _ rfl
  exact hfold _ _

/-- The result takes each step of a run as the function did. -/
lemma step_stripZeroTestConds (hf : Verified f) (h : m.Reaches f w st) {r : Status m.Ext}
    (hr : m.step f st = some r) : m.step (stripZeroTestConds f).1 st = some r := by
  unfold Machine.step at hr ⊢
  cases hblk : f.blocks[st.block]? with
  | none => simp [hblk] at hr
  | some blk =>
    simp only [hblk] at hr
    have hrange := stripZeroTestConds_ranges (f := f) st.block
    cases hblk' : (stripZeroTestConds f).1.blocks[st.block]? with
    | none => simp [hblk, hblk'] at hrange
    | some blk' =>
      have hr' : blk'.instRange = blk.instRange := by simpa [hblk, hblk'] using hrange
      simp only [hr']
      split
      · next hpc =>
        rw [if_pos hpc] at hr
        exact hr
      · next hpc =>
        rw [if_neg hpc] at hr
        obtain ⟨blk₂, hblk₂, hleave, -⟩ :=
          (stripInv_stripBlocks hf h hblk (not_lt.mp hpc) hr).leaves
        obtain rfl := Option.some.inj (hblk'.symm.trans hblk₂)
        exact hleave

end

/-- **Stripping zero tests changes no branch**: where a run of the function takes a branch, the
result takes it to the same successor, and it has the same runs. -/
theorem stripZeroTestConds_correct {f : FunctionSsa} (hcheck : Verify.check f = .ok ()) (m : Machine)
    (w : World m.Ext) :
    (∀ s blk blk', m.Reaches f w s → f.blocks[s.block]? = some blk →
      (stripZeroTestConds f).1.blocks[s.block]? = some blk' → blk.instRange.stop ≤ s.pc →
      ∀ t, m.branchTo f s blk.terminator = some t →
        m.branchTo (stripZeroTestConds f).1 s blk'.terminator = some t) ∧
    ∀ n r, m.run f n (m.initial f w) = some r →
      m.run (stripZeroTestConds f).1 n (m.initial (stripZeroTestConds f).1 w) = some r := by
  have hf : Verified f := check_eq_ok_iff.mp hcheck
  constructor
  · intro s blk blk' h hblk hblk' hpc t ht
    obtain ⟨blkt, hblkt⟩ : ∃ blkt, f.blocks[t]? = some blkt := by
      have hlt := FunctionSsa.graph_closed hf.gotoTargets hf.targets _ _
        (Machine.branchTo_edge hblk ht)
      rw [f.graph_size] at hlt
      exact ⟨_, List.getElem?_eq_getElem hlt⟩
    have hleave : m.leave f s blk.terminator =
        some (.running ⟨t, blkt.instRange.start, enterRegs f s.block blkt s.regs, s.world⟩) := by
      rw [Machine.leave_of_branchTo ht, State.goTo, hblkt]
      rfl
    obtain ⟨blk₂, hblk₂, hleave₂, -⟩ := (stripInv_stripBlocks hf h hblk hpc hleave).leaves
    obtain rfl := Option.some.inj (hblk'.symm.trans hblk₂)
    exact Machine.branchTo_of_leave hleave₂
  · intro n r hrun
    refine Machine.run_eq_of_step ?_ (fun s h r hr => step_stripZeroTestConds hf h hr) hrun
    have hrange := stripZeroTestConds_ranges (f := f) 0
    unfold Machine.initial
    cases hblk : f.blocks[0]? <;> cases hblk' : (stripZeroTestConds f).1.blocks[0]? <;>
      simp [hblk, hblk'] at hrange ⊢
    rw [hrange]

/-- A branch on `((x as u32) == 0) != 0`, the comparison marked 32-bit. -/
def testChain : FunctionSsa where
  insts := [.paramRef 0 .i64, .binopI .and 0 0xFFFFFFFF, .binopI .eq 1 0, .binopI .ne 2 0]
  blocks := [{ instRange := ⟨0, 4⟩, terminator := .bz 3 1 2 },
    { instRange := ⟨4, 4⟩, terminator := .ret noValue },
    { instRange := ⟨4, 4⟩, terminator := .ret 0 }]
  cmp32 := [false, false, true, false]

/-- The chain is stripped to the low word of `x`, and the run returns what it did. -/
theorem stripZeroTestConds_correct_testChain :
    (stripZeroTestConds testChain).1.blocks.map Block.terminator =
      [.bnz 0 1 2, .ret noValue, .ret 0] ∧
    (stripZeroTestConds testChain).1.lowWordTests = [true, false, false] ∧
    Machine.null.run (stripZeroTestConds testChain).1 6
        (Machine.null.initial (stripZeroTestConds testChain).1 .null) =
      some (.returned (some (.word 0)) .null) :=
  ⟨by decide, by decide, (stripZeroTestConds_correct (f := testChain) rfl Machine.null .null).2 6 _ rfl⟩

end ConstfoldBranch

end Badc
