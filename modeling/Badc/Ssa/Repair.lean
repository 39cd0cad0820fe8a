import Badc.Lib.Explore
import Badc.Lib.Reaching
import Badc.Ssa.Tape

/-!
# Repairing single assignment

`src/c5/codegen/ssa/repair.rs`: after an edit of the control-flow graph gave a value a second
definition, each read outside the value's home is renamed to the definition that reaches it, with a
phi where two meet.  `plan` decides over given predecessor lists which blocks need a phi and what
each read becomes; `apply` inserts the phis and renames.

A `Redefined` is the value together with what its edges carry; a `Src` names a value, or what
reaches the start of a block.  A map from blocks is the list of its entries.
-/

namespace Badc

namespace Repair

/-- A value that is the definition at the end of each `home` block, while each edge in `edges`
carries its own value: `(from, to, v)`. -/
structure Redefined where
  value : ℕ
  kind : LoadKind
  home : List ℕ
  edges : List (ℕ × ℕ × ℕ)
  deriving DecidableEq

/-- A value, or the one reaching the start of a block. -/
abbrev Source := Src ℕ ℕ

/-- A read of a redefined value outside its home: the operands of an instruction, the incoming of a
phi from a block, or the terminator and the exit value of a block. -/
inductive Read
  | operand (i : ℕ) (src : Source)
  | incoming (i q : ℕ) (src : Source)
  | atEnd (b : ℕ) (src : Source)
  deriving DecidableEq

/-- The blocks that need a phi, with each predecessor's source, and the reads with theirs. -/
structure Plan where
  phis : List (ℕ × List (ℕ × Source))
  reads : List Read
  deriving DecidableEq

/-! ## The plan -/

section

variable (f : FunctionSsa) (preds : List (List ℕ))

/-- The successors of a block over the predecessor lists. -/
def succsOf (q : ℕ) : List ℕ :=
  (List.range preds.length).flatMap fun b => ((preds.getD b []).filter (· = q)).map fun _ => b

/-- Where a run can start: the entry, the targets of a computed goto and the handlers. -/
def roots : List ℕ := 0 :: f.computedGotoTargets ++ f.sehScopes.filterMap SehScope.target

/-- The blocks reachable from those over `preds`. -/
def reachable : List ℕ :=
  (Explore.run (fun b => some (succsOf preds b))
    (Explore.measure (fun b => some (succsOf preds b)) preds.length { stack := (roots f).reverse })
    { stack := (roots f).reverse }).seen

variable (live : List ℕ) (r : Redefined)

/-- What the edge from `q` to `b` brings. -/
def onEdge (q b : ℕ) : Source :=
  match r.edges.find? fun e => e.1 = q && e.2.1 = b with
  | some e => .val e.2.2
  | none => if q ∈ r.home then .val r.value else .entry q

/-- The reads of an instruction of block `b`: a phi reads at the end of the predecessor, also in a
home block. -/
def readsOfInst (b i : ℕ) : Inst → List Read
  | .phi incoming _ => incoming.filterMap fun p =>
      if p.2 ≠ r.value ∨ p.1 ∈ r.home ∨ p.1 ∉ live then none
      else some (.incoming i p.1 (onEdge r p.1 b))
  | inst =>
      if b ∈ r.home then []
      else if r.value ∈ inst.operands then [.operand i (.entry b)] else []

/-- The reads of a block. -/
def readsOfBlock (b : ℕ) (blk : Block) : List Read :=
  (blk.instRange.toList.flatMap fun i =>
    ((f.insts[i]?).map (readsOfInst live r b i)).getD []) ++
  if b ∈ r.home then []
  else if blk.exitAcc = r.value ∨ r.value ∈ blk.terminator.operands then [.atEnd b (.entry b)]
  else []

/-- The reads of the blocks that can be reached. -/
def readsOf : List Read :=
  f.blocks.zipIdx.flatMap fun p => if p.2 ∈ live then readsOfBlock f live r p.2 p.1 else []

/-- The source of a read. -/
def Read.src : Read → Source
  | .operand _ s | .incoming _ _ s | .atEnd _ s => s

/-- The block a source asks for. -/
def wanted : Source → Option ℕ
  | .val _ => none
  | .entry b => some b

/-- The sources the start of a block merges, from its predecessors; none where it has no
predecessor, or one that cannot be reached. -/
def sourcesOf (b : ℕ) : Option (List (ℕ × Source)) :=
  let ps := ((preds.getD b []).insertionSort (· ≤ ·)).dedup
  if ps.isEmpty || ps.any (· ∉ live) then none
  else some (ps.map fun q => (q, onEdge r q b))

/-- The blocks the sources of a block's start ask for. -/
def nextOf (b : ℕ) : Option (List ℕ) :=
  (sourcesOf preds live r b).map fun incoming => incoming.filterMap fun p => wanted p.2

/-- The blocks whose start a read needs, directly or through the sources of another. -/
def explored (reads : List Read) : Explore ℕ :=
  let start : Explore ℕ := { stack := (reads.filterMap fun r => wanted r.src).reverse }
  Explore.run (nextOf preds live r)
    (Explore.measure (nextOf preds live r) preds.length start) start

/-- Those blocks, ascending, with the sources each merges. -/
def nodesOf (reads : List Read) : Option (List (ℕ × List (ℕ × Source))) :=
  let e := explored preds live r reads
  if e.failed then none
  else some ((e.seen.insertionSort (· ≤ ·)).map fun b =>
    (b, (sourcesOf preds live r b).getD []))

/-- Look up one start that was found equal to one source. -/
def resolveStep (same : List (ℕ × Source)) : Source → Option Source
  | .val _ => none
  | .entry b => same.lookup b

/-- A source through the starts found equal to one source. -/
def resolve (same : List (ℕ × Source)) (s : Source) : Source :=
  whileSome (resolveStep same) (same.length + 1) s

/-- The different sources of a start, itself aside. -/
def distinct (same : List (ℕ × Source)) (node : ℕ × List (ℕ × Source)) : List Source :=
  ((node.2.map fun p => resolve same p.2).filter (· ≠ .entry node.1)).dedup

/-- A start whose sources are one source is that source; one with no source at all has no
definition. -/
def mergeNode (st : List (ℕ × Source) × Bool) (node : ℕ × List (ℕ × Source)) :
    Option (List (ℕ × Source) × Bool) :=
  if (st.1.lookup node.1).isSome then some st
  else match distinct st.1 node with
    | [] => none
    | [s] => some ((node.1, s) :: st.1, true)
    | _ => some st

/-- Go over the starts until no more is found equal to one source. -/
def mergeAll (nodes : List (ℕ × List (ℕ × Source))) : ℕ → List (ℕ × Source) →
    Option (List (ℕ × Source))
  | 0, same => some same
  | fuel + 1, same =>
    match nodes.foldlM mergeNode (same, false) with
    | none => none
    | some (same', changed) => if changed then mergeAll nodes fuel same' else some same'

/-- A read with another source. -/
def Read.mapSrc (g : Source → Source) : Read → Read
  | .operand i s => .operand i (g s)
  | .incoming i q s => .incoming i q (g s)
  | .atEnd b s => .atEnd b (g s)

/-- The phis and renames for one item. -/
def planOne : Option Plan := do
  let reads := readsOf f live r
  let nodes ← nodesOf preds live r reads
  let same ← mergeAll nodes (nodes.length + 1) []
  return {
    phis := (nodes.filter fun node => (same.lookup node.1).isNone).map fun node =>
      (node.1, node.2.map fun p => (p.1, resolve same p.2))
    reads := reads.map (Read.mapSrc (resolve same)) }

end

/-- The phis and renames that rename every read of each item outside its home, over the graph whose
predecessor lists are `preds`; none when a read is reached by no definition. -/
def plan (f : FunctionSsa) (preds : List (List ℕ)) (items : List Redefined) : Option (List Plan) :=
  items.mapM (planOne f preds (reachable f preds))

/-! ## Its application -/

section

variable (f : FunctionSsa)

/-- The phi at the start of block `b`, its entries still to come. -/
def insertionFor (r : Redefined) (b : ℕ) : Tape.Insertion where
  place :=
    let range := Tape.rangeOf f.blocks b
    if range.stop ≤ range.start then .empty b else .before range.start
  inst := .phi [] r.kind
  isF32 := f.f32Values.getD r.value false

/-- The phis of all items in tape order, each with its item and its block. -/
def placements (items : List Redefined) (plans : List Plan) : List (ℕ × ℕ × Tape.Insertion) :=
  ((items.zip plans).zipIdx.flatMap fun p =>
    p.1.2.phis.map fun node => (p.2, node.1, insertionFor f p.1.1 node.1)).insertionSort
    fun p q => p.2.2.place.order f.blocks ≤ q.2.2.place.order f.blocks

/-- The number of an item's phi in a block. -/
def slotOf (placed : List (ℕ × ℕ × Tape.Insertion)) (k b : ℕ) : ℕ :=
  placed.findIdx fun p => p.1 = k && p.2.1 = b

/-- The new id of an item's source. -/
def idOf (rw : Tape.Rewrite) (placed : List (ℕ × ℕ × Tape.Insertion)) (k : ℕ) : Source → ℕ
  | .val v => rw.remap.getD v noValue
  | .entry b => rw.ids.getD (slotOf placed k b) noValue

/-- A value renamed. -/
def rename (old new v : ℕ) : ℕ := if v = old then new else v

/-- A phi with the entries it was waiting for. -/
def fillPhi (merged : List (ℕ × ℕ)) : Inst → Inst
  | .phi _ kind => .phi merged kind
  | inst => inst

/-- A phi with its entries from block `q` renamed. -/
def renameIncoming (old new q : ℕ) : Inst → Inst
  | .phi incoming kind =>
      .phi (incoming.map fun p => if p.1 = q then (p.1, rename old new p.2) else p) kind
  | inst => inst

/-- Rename one read. -/
def applyRead (rw : Tape.Rewrite) (id : Source → ℕ) (old : ℕ) (g : FunctionSsa) :
    Read → FunctionSsa
  | .operand i s =>
      let edit := Inst.mapOperands (rename old (id s))
      { g with insts := g.insts.modify (rw.remap.getD i noValue) edit }
  | .incoming i q s =>
      { g with insts := g.insts.modify (rw.remap.getD i noValue) (renameIncoming old (id s) q) }
  | .atEnd b s =>
      { g with blocks := g.blocks.modify b fun blk => { blk with
          exitAcc := rename old (id s) blk.exitAcc
          terminator := blk.terminator.mapOperands (rename old (id s)) } }

/-- Fill the phis of one item, and rename its reads. -/
def applyItem (rw : Tape.Rewrite) (placed : List (ℕ × ℕ × Tape.Insertion)) (g : FunctionSsa)
    (p : (Redefined × Plan) × ℕ) : FunctionSsa :=
  let id := idOf rw placed p.2
  let fill := fun (g : FunctionSsa) (node : ℕ × List (ℕ × Source)) =>
    let merged := node.2.map fun q => (q.1, id q.2)
    { g with insts := g.insts.modify (id (.entry node.1)) (fillPhi merged) }
  let g := p.1.2.phis.foldl fill g
  p.1.2.reads.foldl (applyRead rw id (rw.remap.getD p.1.1.value noValue)) g

/-- Insert the phis of `plans` and rename the reads. -/
def apply (items : List Redefined) (plans : List Plan) : FunctionSsa :=
  let placed := placements f items plans
  let inserted := Tape.insert f (placed.map fun p => p.2.2)
  (items.zip plans).zipIdx.foldl (applyItem inserted.2.1 placed) inserted.1

/-- Plan over `preds` and apply, and report whether there was a plan. -/
def repair (preds : List (List ℕ)) (items : List Redefined) : FunctionSsa × Bool :=
  match plan f preds items with
  | none => (f, false)
  | some plans => (apply f items plans, true)

end

end Repair

end Badc
