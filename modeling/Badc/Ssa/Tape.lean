import Mathlib.Data.Prod.Lex
import Badc.Ssa.Graph

/-!
# Placing and moving instructions on the tape

`insert` and `concat` of `src/c5/codegen/ssa/tape.rs`.  Both shift the value id of other
instructions, so everything a function keys by value id moves with the tape: the tables parallel
to it, the operands, the terminators and the relocation tables.

The five vectors an insertion grows together are one list of `Slot`s here.  The blocks that hold
no instruction are read off one tape index at a time, ascending by id, as the sorted list of the
source gives them.
-/

namespace Badc

namespace Tape

/-! ## Renaming value ids -/

/-- A value id through the table of new ids; one past the table stays. -/
def renumbered (remap : List ℕ) (op : ℕ) : ℕ :=
  if op ≠ noValue ∧ op < remap.length then remap.getD op noValue else op

/-- A relocation table with its entries under the new ids.  An instruction that was dropped, or
that the table of new ids does not know, loses its entries. -/
def rekeyTable (remap : List ℕ) (table : List (ℕ × ℕ)) : List (ℕ × ℕ) :=
  (table.map fun r => (remap.getD r.1 noValue, r.2)).filter fun r => r.1 ≠ noValue

/-- The relocation tables under the new ids. -/
def rekey (f : FunctionSsa) (remap : List ℕ) : FunctionSsa :=
  { f with
    externCallRefs := rekeyTable remap f.externCallRefs
    externImmCodeRefs := rekeyTable remap f.externImmCodeRefs
    externImmDataRefs := rekeyTable remap f.externImmDataRefs
    externTlsRefs := rekeyTable remap f.externTlsRefs }

/-- A block with its operands renamed. -/
def renumberBlock (remap : List ℕ) (blk : Block) : Block :=
  { blk with
    exitAcc := renumbered remap blk.exitAcc
    terminator := blk.terminator.mapOperands (renumbered remap) }

/-- Rewrite every recorded value id.  The tape is already in the new order. -/
def renumber (f : FunctionSsa) (remap : List ℕ) : FunctionSsa :=
  rekey
    { f with
      insts := f.insts.map (Inst.mapOperands (renumbered remap))
      blocks := f.blocks.map (renumberBlock remap) }
    remap

/-- A tape index lies strictly inside no range of a block, so an instruction placed there joins
no other block. -/
def atBoundary (blocks : List Block) (place : ℕ) : Bool :=
  !(blocks.any fun b => b.instRange.start < place && place < b.instRange.stop)

/-! ## Insertions -/

/-- Where an inserted instruction goes, in old tape indices: ahead of an instruction, after one, or
into a block that holds none. -/
inductive At
  | before (k : ℕ)
  | after (k : ℕ)
  | empty (b : ℕ)
  deriving DecidableEq, Repr

/-- The range of a block. -/
def rangeOf (blocks : List Block) (b : ℕ) : InstRange := (blocks.getD b default).instRange

/-- Tape order of insertions: the old index the instruction lands ahead of; at one index, those
after the preceding instruction, then those of the empty blocks there by id, then those ahead of
the index. -/
def At.order (blocks : List Block) : At → ℕ ×ₗ ℕ ×ₗ ℕ
  | .after k => toLex (k + 1, toLex (0, 0))
  | .empty b => toLex ((rangeOf blocks b).start, toLex (1, b))
  | .before k => toLex (k, toLex (2, 0))

/-- One instruction to place.  Its operands are old value ids; one at or past the length of the
old tape names the insertion that far past it. -/
structure Insertion where
  place : At
  inst : Inst
  isF32 : Bool
  deriving DecidableEq

/-- Old-to-new value ids, and the id each insertion received. -/
structure Rewrite where
  remap : List ℕ
  ids : List ℕ
  deriving DecidableEq, Repr

/-- The parts of a function an insertion replaces. -/
structure Undo where
  insts : List Inst
  instSrc : List (ℕ × ℕ)
  f32Values : List Bool
  cmp32 : List Bool
  div32 : List Bool
  blocks : List Block
  externCallRefs : List (ℕ × ℕ)
  externImmCodeRefs : List (ℕ × ℕ)
  externImmDataRefs : List (ℕ × ℕ)
  externTlsRefs : List (ℕ × ℕ)
  deriving DecidableEq

/-- Put the replaced parts back. -/
def Undo.restore (undo : Undo) (f : FunctionSsa) : FunctionSsa :=
  { f with
    insts := undo.insts
    instSrc := undo.instSrc
    f32Values := undo.f32Values
    cmp32 := undo.cmp32
    div32 := undo.div32
    blocks := undo.blocks
    externCallRefs := undo.externCallRefs
    externImmCodeRefs := undo.externImmCodeRefs
    externImmDataRefs := undo.externImmDataRefs
    externTlsRefs := undo.externTlsRefs }

/-- One place of the new tape: the instruction and its entries in the parallel tables. -/
structure Slot where
  inst : Inst
  src : ℕ × ℕ
  isF32 : Bool
  isCmp32 : Bool
  isDiv32 : Bool
  deriving DecidableEq

/-- The empty blocks at a tape index, ascending by id. -/
def emptiesAt (blocks : List Block) (old : ℕ) : List ℕ :=
  (List.range blocks.length).filter fun b =>
    (rangeOf blocks b).stop ≤ (rangeOf blocks b).start ∧ (rangeOf blocks b).start = old

/-- State of the walk over the old tape: the new tape so far, the next insertion, and what has
been recorded of the old indices and of the empty blocks. -/
structure Placing where
  slots : List Slot := []
  cur : ℕ := 0
  ids : List ℕ := []
  remap : List ℕ := []
  endAt : List ℕ := []
  startAt : List ℕ := []
  ranges : List InstRange

/-- The old instruction at an index with its entries. -/
def oldSlot (f : FunctionSsa) (old : ℕ) (inst : Inst) : Slot where
  inst := inst
  src := f.instSrc.getD old (0, 0)
  isF32 := f.f32Values.getD old false
  isCmp32 := f.cmp32.getD old false
  isDiv32 := f.div32.getD old false

/-- An insertion placed while the walk stands at `old`.  It carries no narrow-operation mark, and
takes the source position of the instruction it goes ahead of or after, or of the one after an
empty block. -/
def newSlot (f : FunctionSsa) (old : ℕ) (i : Insertion) : Slot where
  inst := i.inst
  src := match i.place with
    | .before k | .after k => f.instSrc.getD k (0, 0)
    | .empty _ => f.instSrc.getD old (0, 0)
  isF32 := i.isF32
  isCmp32 := false
  isDiv32 := false

variable (f : FunctionSsa) (ins : List Insertion)

/-- Place the next insertions while they go to `(old, rank, block)`. -/
def take (old rank block : ℕ) (st : Placing) : Placing :=
  let taken := (ins.drop st.cur).takeWhile fun i =>
    i.place.order f.blocks = toLex (old, toLex (rank, block))
  { st with
    slots := st.slots ++ taken.map (newSlot f old)
    ids := st.ids ++ List.range' st.slots.length taken.length
    cur := st.cur + taken.length }

/-- Place the insertions of one empty block, and record its range. -/
def takeEmpty (old : ℕ) (st : Placing) (b : ℕ) : Placing :=
  let st' := take f ins old 1 b st
  { st' with ranges := st'.ranges.set b ⟨st.slots.length, st'.slots.length⟩ }

/-- Place what goes to an old index, ahead of the instruction there. -/
def placeAt (old : ℕ) (st : Placing) : Placing :=
  let st := take f ins old 0 0 st
  let st := { st with endAt := st.endAt ++ [st.slots.length] }
  let st := (emptiesAt f.blocks old).foldl (takeEmpty f ins old) st
  let st := { st with startAt := st.startAt ++ [st.slots.length] }
  take f ins old 2 0 st

/-- Place the instruction at an old index. -/
def keepAt (old : ℕ) (st : Placing) : Placing :=
  match f.insts[old]? with
  | none => st
  | some inst =>
    { st with
      remap := st.remap ++ [st.slots.length]
      slots := st.slots ++ [oldSlot f old inst] }

/-- The walk over the old tape and its end. -/
def placed : Placing :=
  (List.range (f.insts.length + 1)).foldl (fun st old => keepAt f old (placeAt f ins old st))
    { ranges := f.blocks.map Block.instRange }

/-- The new range of a block. -/
def newRange (st : Placing) (b : ℕ) (r : InstRange) : InstRange :=
  if r.start = r.stop then st.ranges.getD b r
  else ⟨st.startAt.getD r.start 0, st.endAt.getD r.stop 0⟩

/-- What an insertion replaces of a function. -/
def undoOf : Undo where
  insts := f.insts
  instSrc := f.instSrc
  f32Values := f.f32Values
  cmp32 := f.cmp32
  div32 := f.div32
  blocks := f.blocks
  externCallRefs := f.externCallRefs
  externImmCodeRefs := f.externImmCodeRefs
  externImmDataRefs := f.externImmDataRefs
  externTlsRefs := f.externTlsRefs

/-- Place insertions, ascending by `At.order`, into the tape and move everything keyed by value id
with it. -/
def insert : FunctionSsa × Rewrite × Undo :=
  let st := placed f ins
  let ids := st.ids ++ List.replicate (ins.length - st.cur) noValue
  let g :=
    { f with
      insts := st.slots.map Slot.inst
      instSrc := st.slots.map Slot.src
      f32Values := st.slots.map Slot.isF32
      cmp32 := st.slots.map Slot.isCmp32
      div32 := st.slots.map Slot.isDiv32
      blocks := f.blocks.zipIdx.map fun p =>
        { p.1 with instRange := newRange st p.2 p.1.instRange } }
  -- an operand past the old tape names an insertion
  (renumber g (st.remap ++ ids), ⟨st.remap, ids⟩, undoOf f)

/-! ## Concatenating chains of blocks -/

/-- Whether a range holds no instruction. -/
def isEmptyRange (r : InstRange) : Bool := r.stop ≤ r.start

/-- The instructions that move, and the chain whose later members go behind a tape index. -/
structure Moves where
  moved : ℕ → Bool := fun _ => false
  tailOf : ℕ → Option ℕ := fun _ => none

/-- The ranges of a chain's members that hold instructions, in chain order. -/
def fullRanges (blocks : List Block) (chain : List ℕ) : List InstRange :=
  (chain.map (rangeOf blocks)).filter fun r => !isEmptyRange r

/-- What one chain moves: the members behind its first non-empty one. -/
def markChain (blocks : List Block) (st : Moves) (p : List ℕ × ℕ) : Moves :=
  match fullRanges blocks p.1 with
  | [] => st
  | base :: rest =>
    { moved := rest.foldl (fun m r v => m v || (r.start ≤ v && v < r.stop)) st.moved
      tailOf := Function.update st.tailOf (base.stop - 1) (some p.2) }

/-- What the chains move. -/
def movesOf (blocks : List Block) (chains : List (List ℕ)) : Moves :=
  chains.zipIdx.foldl (markChain blocks) {}

/-- What a chain puts behind its first non-empty member: the members that moved. -/
def tailsOf (blocks : List Block) (mv : Moves) (chain : List ℕ) : List ℕ :=
  chain.flatMap fun b =>
    let r := rangeOf blocks b
    if !isEmptyRange r && mv.moved r.start then r.toList else []

/-- What an old tape index contributes to the new order. -/
def chunk (blocks : List Block) (chains : List (List ℕ)) (mv : Moves) (place : ℕ) : List ℕ :=
  if mv.moved place then []
  else place :: match mv.tailOf place with
    | none => []
    | some c => tailsOf blocks mv (chains.getD c [])

/-- The old indices in their new order. -/
def newOrder (n : ℕ) (blocks : List Block) (chains : List (List ℕ)) : List ℕ :=
  (List.range n).flatMap (chunk blocks chains (movesOf blocks chains))

/-- The new index of each old one. -/
def inverse (n : ℕ) (order : List ℕ) : List ℕ :=
  order.zipIdx.foldl (fun remap p => remap.set p.1 p.2) (List.replicate n noValue)

/-- Where an empty range goes: ahead of the first instruction at or past its start that stays. -/
def landings (n : ℕ) (moved : ℕ → Bool) (remap : List ℕ) : List ℕ :=
  (List.range n).foldr
    (fun place landing =>
      (if moved place then landing.headD n else remap.getD place noValue) :: landing)
    [n]

/-- The new place of an old range: it moves with its first instruction, an empty one to its
landing. -/
def movedTo (n : ℕ) (remap landing : List ℕ) (r : InstRange) : InstRange :=
  let start := if isEmptyRange r then landing.getD r.start n else remap.getD r.start n
  ⟨start, start + (r.stop - r.start)⟩

/-- Give the first block of a chain the instructions of the whole chain, and leave the others
empty behind it. -/
def giveChain (blocks : List Block) (target : InstRange → InstRange) (ranges : List InstRange)
    (chain : List ℕ) : List InstRange :=
  let len := (chain.map fun b => (rangeOf blocks b).stop - (rangeOf blocks b).start).sum
  let start := match (chain.map (rangeOf blocks)).find? fun r => !isEmptyRange r with
    | none => (ranges.getD (chain.headD 0) ⟨0, 0⟩).start
    | some r => (target r).start
  ((chain.tail).foldl (fun rs b => rs.set b ⟨start + len, start + len⟩) ranges).set
    (chain.headD 0) ⟨start, start + len⟩

/-- Reorder a table parallel to the tape; an empty one stays empty. -/
def permute {α : Type*} (dflt : α) (table : List α) (order : List ℕ) : List α :=
  if table.isEmpty then table else order.map fun place => table.getD place dflt

/-- Give the first block of each chain the instructions of the whole chain, in chain order, and
leave the other members empty.  The instructions of the new tape are taken from their old places,
each of which the order names once. -/
def concat (chains : List (List ℕ)) : FunctionSsa :=
  let n := f.insts.length
  let mv := movesOf f.blocks chains
  let order := newOrder n f.blocks chains
  let remap := inverse n order
  let target := movedTo n remap (landings n mv.moved remap)
  let ranges := chains.foldl (giveChain f.blocks target)
    (f.blocks.map fun blk => target blk.instRange)
  let g := { f with
    blocks := f.blocks.zipIdx.map fun p =>
      { p.1 with instRange := ranges.getD p.2 p.1.instRange } }
  if order.zipIdx.all fun p => p.2 = p.1 then g
  else
    renumber
      { g with
        insts := order.map fun place => f.insts.getD place (.imm 0)
        instSrc := permute (0, 0) f.instSrc order
        f32Values := permute false f.f32Values order
        cmp32 := permute false f.cmp32 order
        div32 := permute false f.div32 order }
      remap

end Tape

end Badc
