import Badc.Lib.ScopedWalk
import Badc.Passes.ValueRange.Facts
import Badc.Passes.ValueRange.Ranges
import Badc.Ssa.Trim

/-!
# The dominator walk

`run_one` of `src/c5/codegen/passes/value_range.rs`: a walk over the dominator tree carries ranges
per expression, gained from the definitions, the branches that dominate a block and the loads and
stores since the last write to memory, and settles comparisons, pure integer operations, signed
divisions by a power of two and the zero tests that end a block.  What it settled is applied after
the walk.
-/

namespace Badc

/-- Answer a comparison from its operand ranges, where they do not leave it open. -/
def Range.decide (op : BinOp) (a b : Range) : Option Bool :=
  match comparison op with
  | none => none
  | some unsigned =>
    if unsigned && !(a.nonNegative && b.nonNegative) then none
    else
      let lt : Bool := a.hi < b.lo
      let gt : Bool := b.hi < a.lo
      let eq : Bool := a.lo = a.hi && b.lo = b.hi && a.lo = b.lo
      match op with
      | .eq => if eq then some true else if lt || gt then some false else none
      | .ne => if eq then some false else if lt || gt then some true else none
      | .lt | .ult => if lt then some true else if b.hi ≤ a.lo then some false else none
      | .le | .ule => if a.hi ≤ b.lo then some true else if gt then some false else none
      | .gt | .ugt => if gt then some true else if a.hi ≤ b.lo then some false else none
      | _ => if b.hi ≤ a.lo then some true else if lt then some false else none

namespace ValueRange

/-- The comparison that is false exactly where `op` is true. -/
def negate : BinOp → Option BinOp
  | .eq => some .ne
  | .ne => some .eq
  | .lt => some .ge
  | .ge => some .lt
  | .gt => some .le
  | .le => some .gt
  | .ult => some .uge
  | .uge => some .ult
  | .ugt => some .ule
  | .ule => some .ugt
  | _ => none

/-- The unsigned form of a signed division. -/
def unsignedForm : BinOp → Option BinOp
  | .div => some .divu
  | .mod => some .modu
  | _ => none

/-- The integer load kinds that read back exactly the bytes a store of `kind` wrote. -/
def loadKindsOfStore : StoreKind → List LoadKind
  | .i8 => [.i8, .u8]
  | .i16 => [.i16, .u16]
  | .i32 => [.i32, .u32]
  | .i64 => [.i64]
  | .f32 | .f64 | .f80 | .f128 | .v128 => []

/-- What a store of a value of range `r` establishes about a later load of the location: the load
kinds that read it back unchanged. -/
def storedKinds (kind : StoreKind) (r : Range) : List LoadKind :=
  if r = .univ then []
  else (loadKindsOfStore kind).filter fun k => (extendRange k).all fun w => w.contains r

/-- What a store establishes about a later load of the location it wrote, its value of the given
range. -/
def storedFacts (numbers : Numbering) (rangeOf : ℕ → Range) (inst : Inst) :
    List (FactKey × Range) :=
  match inst with
  | .store addr disp value kind false .. =>
      (storedKinds kind (rangeOf value)).map fun k =>
        (.load (numbers.of addr) k disp, rangeOf value)
  | .storeLocal off disp value kind false _ =>
      (storedKinds kind (rangeOf value)).map fun k => (.loadLocal disp k off, rangeOf value)
  | .storeIndexed base index ext scale value kind _ =>
      (storedKinds kind (rangeOf value)).map fun k =>
        (.loadIndexed (numbers.of base) (numbers.of index) ext scale k, rangeOf value)
  | _ => []

/-- Whether an instruction may write memory, or transfer control to code that can. -/
def writesMemory : Inst → Bool
  | .store .. | .storeLocal .. | .storeIndexed .. | .segStore .. | .call .. | .callIndirect ..
  | .callExt .. | .tailExt _ | .mcpy .. | .mzero .. | .atomicRmw .. | .atomicCas ..
  | .atomicCas16 .. | .atomicLoad .. | .atomicStore .. | .intrinsic .. | .inlineAsm ..
  | .allocaInit _ => true
  | _ => false

/-- Tables the walk consults and does not change. -/
structure Tables where
  func : FunctionSsa
  params : List Range
  ranges : Ranges

/-- The tables of a function. -/
def Tables.of (f : FunctionSsa) (params : List Range) : Tables := ⟨f, params, Ranges.compute f params⟩

/-- The state of the walk. -/
structure Env where
  facts : Facts
  /-- Comparisons and operations settled, with their values. -/
  folded : List (ℕ × Word)
  /-- Divisions `unsignedForm` applies to. -/
  unsigned : List ℕ
  /-- Blocks whose zero test is settled, and whether the condition is non-zero. -/
  branchFolds : List (ℕ × Bool)
  /-- Bumped at every potential write. -/
  epoch : ℕ
  /-- The epoch at each load. -/
  loadEpoch : ℕ → ℕ

namespace Tables

variable (cx : Tables)

/-- What is known about `v` here: the facts recorded for its expression, met with what its
definition alone says. -/
def held (facts : Facts) (v : ℕ) : Range :=
  (facts.get (keyOf cx.func cx.ranges.numbers v)).meet (cx.ranges.ofDef v)

/-- Rewrite `lhs op k` into an equivalent comparison on the value `lhs` was built from. -/
def peel (op : BinOp) (lhs : ℕ) (k : Word) : Option (ℕ × Word) :=
  match cx.func.insts[lhs]? with
  | some (.binopI step inner c) =>
    let equality := op = .eq || op = .ne
    match step with
    -- A mask that clears no bit the operand can hold is the identity.
    | .and =>
        if Range.isLowMask c && Range.contains ⟨0, c.toInt⟩ (cx.ranges.ofDef inner) then some (inner, k)
        else none
    -- Bijections on the register keep equalities.
    | .xor => if equality then some (inner, k ^^^ c) else none
    | .add => if equality then some (inner, k - c) else none
    | .sub => if equality then some (inner, k + c) else none
    | _ => none
  | _ => none

/-- A comparison settled on an edge, and its negation. -/
def settleCompare (op : BinOp) (lhs : ℕ) (k : Word) (narrow holds : Bool) (facts : Facts) : Facts :=
  [(some op, holds), (negate op, !holds)].foldl (fun facts e =>
    match e.1 with
    | some op =>
        if (comparison op).isSome then
          facts.narrow (cmpKey cx.ranges.numbers lhs op k narrow) (.exact (boolWord e.2))
        else facts
    | none => facts) facts

/-- The facts after the bound a comparison implies, on its operand and on the load that is. -/
def boundFacts (env : Env) (op : BinOp) (holds : Bool) (lhs : ℕ) (k : Word) (facts : Facts) :
    Facts :=
  match implied op (.exact k) holds (cx.held facts lhs) with
  | some r =>
      let facts := facts.narrow (keyOf cx.func cx.ranges.numbers lhs) r
      match loadExprKey cx.func cx.ranges.numbers lhs with
      | some ek => if env.loadEpoch lhs = env.epoch then facts.narrow ek r else facts
      | none => facts
  | none => facts

/-- Walk down the expression a comparison was built from, recording the bound each rewriting
implies. -/
def peelFacts (env : Env) (op : BinOp) (narrow holds : Bool) :
    ℕ → ℕ → Word → Facts → Facts
  | 0, _, _, facts => facts
  | fuel + 1, lhs, k, facts =>
    let facts := cx.settleCompare op lhs k narrow holds facts
    -- The steps below rewrite a comparison of the whole register.
    if narrow then facts
    else
      let facts := match implied op (.exact k) holds (cx.held facts lhs) with
        | some r =>
            let facts := facts.narrow (keyOf cx.func cx.ranges.numbers lhs) r
            -- The bound describes a later load only while nothing can have written in between.
            match loadExprKey cx.func cx.ranges.numbers lhs with
            | some ek => if env.loadEpoch lhs = env.epoch then facts.narrow ek r else facts
            | none => facts
        | none => facts
      match cx.peel op lhs k with
      | some (inner, next) => peelFacts env op narrow holds fuel inner next facts
      | none => facts

/-- The comparison a condition settles: its operator, left operand and right value. -/
def settledCompare (facts : Facts) (cond : ℕ) : Option (BinOp × ℕ × Word) :=
  match cx.func.insts[cond]? with
  | some (.binopI op lhs k) =>
      if (comparison op).isSome then some (op, lhs, k) else some (.ne, cond, 0)
  | some (.binop op lhs rhs) =>
      if (comparison op).isSome then
        let r := cx.held facts rhs
        if r.lo = r.hi ∧ r.InWord then some (op, lhs, BitVec.ofInt 64 r.lo) else none
      else some (.ne, cond, 0)
  | some _ => some (.ne, cond, 0)
  | none => none

/-- Facts the edge from `pred` into a block it alone enters carries. -/
def applyEdge (env : Env) (pred : ℕ) (holds : Bool) : Facts :=
  match (cx.func.blocks[pred]?).map Block.terminator with
  | some (.bz cond ..) | some (.bnz cond ..) =>
    let facts := (edgeBounds cx.func cx.ranges.numbers cx.params cond holds).foldl
      (fun facts e =>
        let key := keyOf cx.func cx.ranges.numbers e.1
        facts.set key (e.2.narrow (facts.get key))) env.facts
    match cx.settledCompare facts cond with
    | some (op, lhs, k) =>
        cx.peelFacts env op (widthOf cx.func cond op ≠ .full) holds
          (min cx.func.insts.length 8) lhs k facts
    | none => facts
  | _ => env.facts

/-- The facts and the epoch on entry to a block. -/
def enterEdge (b : ℕ) (env : Env) : Env :=
  match solePred cx.func b with
  | some p =>
    match edgeCondition cx.func p b with
    | some (_, holds) => { env with facts := cx.applyEdge env p holds }
    | none => env
  | none => { env with facts := env.facts.wipeLoads, epoch := env.epoch + 1 }

/-- A write to memory ends the load facts; what a store puts there is read back. -/
def wipe (inst : Inst) (env : Env) : Env :=
  if writesMemory inst then
    { env with
      facts := (storedFacts cx.ranges.numbers (cx.held env.facts) inst).foldl
        (fun facts e => facts.set e.1 e.2) env.facts.wipeLoads
      epoch := env.epoch + 1 }
  else env

/-- The answer of a comparison, its operands read at its own width. -/
def decided (facts : Facts) (pc : ℕ) : Inst → Option Bool
  | .binopI op lhs k =>
      Range.decide op (readAt (widthOf cx.func pc op) (cx.held facts lhs)) (.exact k)
  | .binop op lhs rhs =>
      Range.decide op (readAt (widthOf cx.func pc op) (cx.held facts lhs))
        (readAt (widthOf cx.func pc op) (cx.held facts rhs))
  | _ => none

/-- Whether the divisor's range is one power of two. -/
def isPowerOfTwo (d : Range) : Bool :=
  d.lo = d.hi && decide (0 < d.lo) && (d.lo.toNat &&& (d.lo.toNat - 1) = 0)

/-- Whether an instruction is a signed division by a power of two of what is not negative. -/
def turnsUnsigned (facts : Facts) : Inst → Bool
  | .binopI op lhs k => (unsignedForm op).isSome && isPowerOfTwo (.exact k) &&
      (cx.held facts lhs).nonNegative
  | .binop op lhs rhs => (unsignedForm op).isSome && isPowerOfTwo (cx.held facts rhs) &&
      (cx.held facts lhs).nonNegative
  | _ => false

/-- The one value of a pure integer operation's range. -/
def point (r : Range) : Inst → Option Word
  | .binopI op .. | .binop op .. =>
      if r.lo = r.hi ∧ isPureInt op ∧ r.InWord then some (BitVec.ofInt 64 r.lo) else none
  | _ => none

/-- One instruction of a block. -/
def visitInst (env : Env) (pc : ℕ) : Env :=
  match cx.func.insts[pc]? with
  | none => env
  | some inst =>
    let env := cx.wipe inst env
    let key := keyOf cx.func cx.ranges.numbers pc
    let ekey := loadExprKey cx.func cx.ranges.numbers pc
    let r := (eval (M := Id) inst cx.params (cx.held env.facts)).meet (cx.held env.facts pc)
    -- At the load itself the fact about memory is current.
    let r := match ekey with
      | some ek => r.meet (env.facts.get ek)
      | none => r
    let value := ((cx.decided env.facts pc inst).map boolWord).or (point r inst)
    let r := match value with
      | some v => .exact v
      | none => r
    { env with
      facts := match ekey with
        | some ek => (env.facts.set key r).set ek r
        | none => env.facts.set key r
      folded := match value with
        | some v => env.folded ++ [(pc, v)]
        | none => env.folded
      unsigned := if cx.turnsUnsigned env.facts inst then env.unsigned ++ [pc] else env.unsigned
      loadEpoch := if ekey.isSome then Function.update env.loadEpoch pc env.epoch
        else env.loadEpoch }

/-- The zero test that ends a block, where the facts there settle it. -/
def visitEnd (b : ℕ) (env : Env) : Env :=
  match (cx.func.blocks[b]?).map Block.terminator with
  | some (.bz cond ..) | some (.bnz cond ..) =>
    if cond = noValue then env
    else match Range.decide .ne (cx.held env.facts cond) (.exact 0) with
      | some nz => { env with branchFolds := env.branchFolds ++ [(b, nz)] }
      | none => env
  | _ => env

/-- The instructions of a block. -/
def blockInsts (b : ℕ) : List ℕ :=
  match cx.func.blocks[b]? with
  | some blk => List.range' blk.instRange.start (blk.instRange.stop - blk.instRange.start)
  | none => []

/-- One block of the walk. -/
def visitBlock (b : ℕ) (env : Env) : Env :=
  cx.visitEnd b ((cx.blockInsts b).foldl cx.visitInst (cx.enterEdge b env))

/-- The walk over the dominator tree. -/
def walk : ScopedWalk Env (ℕ × ℕ) where
  children := domChildren cx.func.graph.dominatorsOf cx.func.blocks.length
  enter := cx.visitBlock
  mark env := (env.facts.map.mark, env.epoch)
  leave note env := { env with facts := env.facts.rewind note.1, epoch := note.2 }

/-- The walk's results. -/
def walked : Env :=
  (whileSome cx.walk.round (2 * cx.func.blocks.length)
    ⟨[.enter 0], ⟨.empty, [], [], [], 1, fun _ => 0⟩⟩).env

end Tables

/-! ## Applying the results -/

/-- Replace the settled instructions by their values. -/
def applyFolds (insts : List Inst) (folded : List (ℕ × Word)) : List Inst :=
  folded.foldl (fun insts e => insts.set e.1 (.imm e.2)) insts

/-- The unsigned form of an instruction. -/
def turnUnsigned : Inst → Inst
  | .binopI op lhs k => .binopI ((unsignedForm op).getD op) lhs k
  | .binop op lhs rhs => .binop ((unsignedForm op).getD op) lhs rhs
  | inst => inst

/-- Turn the divisions unsigned. -/
def applyUnsigned (insts : List Inst) (unsigned : List ℕ) : List Inst :=
  unsigned.foldl (fun insts pc => insts.modify pc turnUnsigned) insts

/-- Where a settled zero test goes, and where it does not. -/
def takenOf (nonzero : Bool) : Terminator → Option (ℕ × ℕ)
  | .bz _ target other => some (if nonzero then (other, target) else (target, other))
  | .bnz _ target other => some (if nonzero then (target, other) else (other, target))
  | _ => none

/-- Turn the settled branches into jumps, and list the edges that are gone. -/
def applyBranches (blocks : List Block) (folds : List (ℕ × Bool)) : List Block × List (ℕ × ℕ) :=
  folds.foldl (fun acc e =>
    match (acc.1[e.1]?).bind fun blk => takenOf e.2 blk.terminator with
    | some (taken, other) =>
        (acc.1.modify e.1 fun blk => { blk with terminator := .jmp taken },
          if other ≠ taken then acc.2 ++ [(e.1, other)] else acc.2)
    | none => acc) (blocks, [])

/-- Rewrite what the dominating conditions settle, and whether anything was folded. -/
def runOne (f : FunctionSsa) (params : List Range) : FunctionSsa × Bool :=
  if f.blocks.length = 0 then (f, false)
  else
    let env := (Tables.of f params).walked
    let (blocks, removed) := applyBranches f.blocks env.branchFolds
    ({ f with
        insts := dropIncomes (applyUnsigned (applyFolds f.insts env.folded) env.unsigned) blocks
          removed
        blocks },
      !env.folded.isEmpty || !env.branchFolds.isEmpty)

end ValueRange

end Badc
