import Badc.Ssa.Operands
import Badc.Lib.BackwardFlow

/-!
# Block liveness

`BlockLiveness` and `SparseLive` of `src/c5/codegen/ssa/liveness.rs`.  The values that cross a block
boundary get ranks; over them the backward equations are solved in one of two ways, with a bit row
for each block and a worklist (`solveDense`), or with a walk back from the uses of each value
(`solveSparse`), as the area of the rows is within a budget or not.

A row of bits is a function from word indices.  The pairs that the sparse solver sorts into rows by
block or by element are read off the list of pairs.
-/

namespace Badc

/-- Whether the operands of the instruction at `idx` count as read. -/
def readsAt (reads : List Bool) (idx : ℕ) : Bool := reads.getD idx true

namespace Liveness

section

variable (f : FunctionSsa) (reads : List Bool)

/-- The operands a block's instructions and terminator read that lie outside the block. -/
def upwardReads (blk : Block) : List ℕ :=
  ((blk.instRange.toList.flatMap fun idx =>
      match f.insts[idx]? with
      | some inst => if inst.isPhi || !readsAt reads idx then [] else inst.placedOperands
      | none => []) ++ blk.terminator.operands).filter
    fun v => v ≠ noValue && (v < blk.instRange.start || blk.instRange.stop ≤ v)

/-- The incomes a block's phis read, each with its predecessor. -/
def edgeReads (blk : Block) : List (ℕ × ℕ) :=
  blk.instRange.toList.flatMap fun idx =>
    match f.insts[idx]? with
    | some (Inst.phi incoming kind) =>
      if readsAt reads idx then
        incoming.filter fun p => p.2 ≠ noValue && !phiIncomeReadsNoPlace f kind p.2
      else []
    | _ => []

/-- The values read across a block boundary, ascending. -/
def crossing : List ℕ :=
  (List.range f.insts.length).filter fun v => f.blocks.any fun blk =>
    (upwardReads f reads blk).contains v || ((edgeReads f reads blk).map Prod.snd).contains v

/-- The place of a value among them. -/
def rank (v : ℕ) : Option ℕ :=
  if v ∈ crossing f reads then some ((crossing f reads).idxOf v) else none

/-- The blocks with an upward-exposed use, each with the rank of the value. -/
def usePairs : List (ℕ × ℕ) :=
  f.blocks.zipIdx.flatMap fun p =>
    ((upwardReads f reads p.1).filterMap (rank f reads)).map fun r => (p.2, r)

/-- The blocks that define a value. -/
def killPairs : List (ℕ × ℕ) :=
  f.blocks.zipIdx.flatMap fun p =>
    (p.1.instRange.toList.filterMap (rank f reads)).map fun r => (p.2, r)

/-- The blocks a phi reads a value at the exit of. -/
def exitPairs : List (ℕ × ℕ) :=
  f.blocks.flatMap fun blk =>
    (edgeReads f reads blk).filterMap fun p => (rank f reads p.2).map fun r => (p.1, r)

end

/-- The flow of the element `r` given by pairs of block and element. -/
def flowOf (g : SuccGraph) (use exit kill : List (ℕ × ℕ)) (r : ℕ) : BackwardFlow ℕ where
  succ := g.Edge
  use b := (b, r) ∈ use
  exit b := (b, r) ∈ exit
  kill b := (b, r) ∈ kill

/-! ## Bit rows -/

/-- A row of bits, 64 to a word. -/
abbrev Row := ℕ → BitVec 64

/-- Set a bit. -/
def Row.set (row : Row) (r : ℕ) : Row :=
  Function.update row (r / 64) (row (r / 64) ||| 1#64 <<< (r % 64))

/-- Whether a bit is set. -/
def Row.isSet (row : Row) (r : ℕ) : Bool := row (r / 64) &&& 1#64 <<< (r % 64) != 0

/-- A row for each block. -/
def rowsOf (pairs : List (ℕ × ℕ)) : ℕ → Row :=
  pairs.foldl (fun rows p => Function.update rows p.1 ((rows p.1).set p.2)) fun _ _ => 0

/-- The blocks in the order a backward sweep takes them: the postorder, then the unreached. -/
def backwardOrder (g : SuccGraph) : List ℕ :=
  g.postorder ++ (List.range g.size).filter fun b => !g.postorder.contains b

/-- The rows, and the blocks to visit with the next in front. -/
structure Dense where
  liveIn : ℕ → Row
  liveOut : ℕ → Row
  worklist : List ℕ
  queued : ℕ → Bool

/-- Queue a block, unless it is queued. -/
def Dense.push (s : Dense) (p : ℕ) : Dense :=
  if s.queued p then s
  else { s with queued := Function.update s.queued p true, worklist := p :: s.worklist }

/-- Visit a block: where its row grows, its predecessors are visited again. -/
def denseStep (g : SuccGraph) (words : ℕ) (used kill phiOut : ℕ → Row) (s : Dense) :
    Option Dense :=
  match s.worklist with
  | [] => none
  | b :: rest =>
    let out : Row := fun w => (g.of b).foldl (fun acc t => acc ||| s.liveIn t w) 0 ||| phiOut b w
    let ni : Row := fun w => used b w ||| out w &&& ~~~ kill b w
    let changed := (List.range words).any fun w => ni w ≠ s.liveIn b w
    let s' : Dense :=
      { liveIn := Function.update s.liveIn b fun w => if w < words then ni w else s.liveIn b w
        liveOut := Function.update s.liveOut b fun w => if w < words then out w else s.liveOut b w
        worklist := rest
        queued := Function.update s.queued b false }
    some (if changed then (g.predsOf b).foldl Dense.push s' else s')

/-- Rounds the worklist takes at most. -/
def denseFuel (g : SuccGraph) (words : ℕ) : ℕ := g.size * (64 * words) * (g.size + 1) + g.size

/-- The fixed point over bit rows. -/
def solveDense (g : SuccGraph) (words : ℕ) (use exit kill : List (ℕ × ℕ)) : Dense :=
  whileSome (denseStep g words (rowsOf use) (rowsOf kill) (rowsOf exit)) (denseFuel g words)
    ⟨fun _ _ => 0, fun _ _ => 0, backwardOrder g, fun _ => true⟩

/-! ## A walk for each value -/

/-- The element each block was last marked for, and the pairs of block and element recorded. -/
structure Stamped where
  stamp : ℕ → Option ℕ
  pairs : List (ℕ × ℕ)

/-- Mark a block for an element. -/
def Stamped.record (s : Stamped) (e b : ℕ) : Stamped :=
  ⟨Function.update s.stamp b (some e), s.pairs ++ [(b, e)]⟩

/-- State of the walks. -/
structure Sparse where
  ins : Stamped
  outs : Stamped
  killStamp : ℕ → Option ℕ
  stack : List ℕ

/-- The element is live before `b`. -/
def markIn (e : ℕ) (s : Sparse) (b : ℕ) : Sparse :=
  if s.ins.stamp b = some e then s
  else { s with ins := s.ins.record e b, stack := b :: s.stack }

/-- The element is live after `b`. -/
def markOut (e : ℕ) (s : Sparse) (b : ℕ) : Sparse :=
  if s.outs.stamp b = some e then s
  else
    let s := { s with outs := s.outs.record e b }
    if s.killStamp b = some e then s else markIn e s b

/-- Go back from a block the element is live before. -/
def sparseStep (g : SuccGraph) (e : ℕ) (s : Sparse) : Option Sparse :=
  match s.stack with
  | [] => none
  | b :: rest => some ((g.predsOf b).foldl (markOut e) { s with stack := rest })

/-- The payloads of the pairs of an element. -/
def rowOfElem (pairs : List (ℕ × ℕ)) (e : ℕ) : List ℕ :=
  (pairs.filter fun p => p.1 = e).map Prod.snd

/-- The walk of one element. -/
def walkElem (g : SuccGraph) (use exit kill : List (ℕ × ℕ)) (s : Sparse) (e : ℕ) : Sparse :=
  let s := { s with
    killStamp := (rowOfElem kill e).foldl (fun st b => Function.update st b (some e)) s.killStamp }
  let s := (rowOfElem use e).foldl (markIn e) s
  let s := (rowOfElem exit e).foldl (markOut e) s
  whileSome (sparseStep g e) g.size s

/-- `SparseLive::solve`: the seeds are pairs of element and block. -/
def SparseLive.solve (nelems : ℕ) (g : SuccGraph) (use exit kill : List (ℕ × ℕ)) : Sparse :=
  (List.range nelems).foldl (walkElem g use exit kill)
    ⟨⟨fun _ => none, []⟩, ⟨fun _ => none, []⟩, fun _ => none, []⟩

/-- Uses are seeded once for each block in a row. -/
def dedupUses (pairs : List (ℕ × ℕ)) : List (ℕ × ℕ) :=
  (pairs.foldl (fun (s : (ℕ → Option ℕ) × List (ℕ × ℕ)) p =>
    if s.1 p.2 = some p.1 then s
    else (Function.update s.1 p.2 (some p.1), s.2 ++ [(p.2, p.1)])) (fun _ => none, [])).2

/-- The fixed point by a walk for each value. -/
def solveSparse (g : SuccGraph) (nelems : ℕ) (use exit kill : List (ℕ × ℕ)) : Sparse :=
  SparseLive.solve nelems g (dedupUses use) (exit.map Prod.swap) (kill.map Prod.swap)

/-- The row of a block. -/
def rowByBlock (pairs : List (ℕ × ℕ)) (b : ℕ) : List ℕ :=
  (pairs.filter fun p => p.1 = b).map Prod.snd

/-! ## The live sets of a function -/

/-- The live sets in one of their two forms. -/
inductive LiveSets
  | dense (rows : Dense)
  | sparse (rows : Sparse)

/-- Per-block live sets. -/
structure BlockLiveness where
  rank : ℕ → Option ℕ
  live : LiveSets

/-- The live sets, as bit rows where their area is within the budget. -/
def computeReading (budget : ℕ) (f : FunctionSsa) (reads : List Bool) : BlockLiveness :=
  let nelems := (crossing f reads).length
  let words := max ((nelems + 63) / 64) 1
  { rank := rank f reads
    live :=
      if f.blocks.length * words ≤ budget then
        .dense (solveDense f.graph words (usePairs f reads) (exitPairs f reads) (killPairs f reads))
      else
        .sparse
          (solveSparse f.graph nelems (usePairs f reads) (exitPairs f reads) (killPairs f reads)) }

/-- Whether a value is live on entry to a block. -/
def BlockLiveness.liveIn (l : BlockLiveness) (b v : ℕ) : Bool :=
  match l.rank v with
  | some r =>
    match l.live with
    | .dense rows => (rows.liveIn b).isSet r
    | .sparse rows => (rowByBlock rows.ins.pairs b).contains r
  | none => false

/-- Whether a value is live on exit from a block. -/
def BlockLiveness.liveOut (l : BlockLiveness) (b v : ℕ) : Bool :=
  match l.rank v with
  | some r =>
    match l.live with
    | .dense rows => (rows.liveOut b).isSet r
    | .sparse rows => (rowByBlock rows.outs.pairs b).contains r
  | none => false

end Liveness

end Badc
