import Badc.Ir.Eval
import Badc.Lib.Checked
import Badc.Passes.LoopForest

/-!
# Loads of stored constants

`fold_const_loads` of `src/c5/codegen/passes/store_forward.rs`, with the slot sets of
`src/c5/codegen/ssa/mem2reg.rs` it rests on: a load that reads back a constant the function stored
becomes that constant.

A table lists the locations the code before a point wrote a constant to: a pointer and a
displacement, or a slot of the frame.  Each instruction changes the table (`Tables.after`): a store
drops what it may overlap and adds what it writes.  The table at the end of a block carries into a
block that has no other predecessor, the blocks in reverse postorder.  A set of slots is the test
whether a slot is in it.
-/

namespace Badc

/-! ## Slots without an address -/

/-- Whether an instruction pins a slot to memory. -/
def pinsSlot (off : ℤ) : Inst → Bool
  | .loadLocal o disp kind isVolatile =>
      o = off && (isVolatile || kind = .f80 || kind = .f128 || disp ≠ 0)
  | .storeLocal o disp _ kind isVolatile _ =>
      o = off && (isVolatile || kind = .f80 || kind = .f128 || disp ≠ 0)
  | .allocaInit o => o = off && o < 0
  | _ => false

/-- Whether an instruction accesses a slot at its base. -/
def touchesSlot (off : ℤ) : Inst → Bool
  | .loadLocal o disp .. | .storeLocal o disp .. => o = off && disp = 0
  | _ => false

/-- The slots promotion may serve. -/
def candidateSlots (f : FunctionSsa) (off : ℤ) : Bool :=
  f.insts.any (touchesSlot off) && !f.insts.any (pinsSlot off)

/-- The candidate slots no instruction takes the address of. -/
def addressFreeSlots (f : FunctionSsa) (off : ℤ) : Bool :=
  candidateSlots f off && !f.insts.contains (.localAddr off)

namespace StoreForward

/-- The slot a call writes its result to. -/
def retSlot : Inst → Option ℤ
  | .call _ _ _ _ site | .callIndirect _ _ _ _ _ site | .callExt _ _ site => some site.retSlotLocal
  | _ => none

/-- The slots only accesses at their base write. -/
def forwardableSlots (f : FunctionSsa) (off : ℤ) : Bool :=
  addressFreeSlots f off && !f.insts.any fun inst => retSlot inst = some off

/-- Whether an instruction accesses a slot. -/
def accessesSlot (off : ℤ) : Inst → Bool
  | .loadLocal o .. | .storeLocal o .. => o = off
  | _ => false

/-- The other slots the body accesses, but the one reserved for dynamic allocation. -/
def exposedSlots (f : FunctionSsa) (off : ℤ) : Bool :=
  f.insts.any (accessesSlot off) && !forwardableSlots f off &&
    !(decide (off < 0) && f.insts.contains (.allocaInit off))

/-! ## Locations -/

/-- Access width in bytes for a load kind. -/
def loadWidth : LoadKind → ℕ
  | .i64 | .f64 => 8
  | .i32 | .u32 | .f32 => 4
  | .i16 | .u16 => 2
  | .i8 | .u8 => 1
  | .f80 | .f128 | .v128 => 16

/-- Access width in bytes for a store kind. -/
def storeWidth : StoreKind → ℕ
  | .i64 | .f64 => 8
  | .i32 | .f32 => 4
  | .i16 => 2
  | .i8 => 1
  | .f80 | .f128 | .v128 => 16

/-- The integer store kinds. -/
def isIntStore : StoreKind → Bool
  | .i64 | .i32 | .i16 | .i8 => true
  | _ => false

/-- The value a load of `kind` yields where the low bytes of a location hold `bits`; none for the
floating and vector kinds. -/
def constForLoad (bits : Word) : LoadKind → Option Word
  | .i64 => some bits
  | .i32 => some (sext32 bits)
  | .u32 => some (zext32 bits)
  | .i16 => some ((bits.setWidth 16).signExtend 64)
  | .u16 => some ((bits.setWidth 16).setWidth 64)
  | .i8 => some ((bits.setWidth 8).signExtend 64)
  | .u8 => some ((bits.setWidth 8).setWidth 64)
  | .f32 | .f64 | .f80 | .f128 | .v128 => none

/-- The operand and the constant of an addition of a constant. -/
def addend (f : FunctionSsa) (v : ℕ) : Option (ℕ × Word) :=
  match f.insts[v]? with
  | some (.binopI .add lhs k) => some (lhs, k)
  | some (.binop .add lhs rhs) =>
    match f.insts[lhs]?, f.insts[rhs]? with
    | _, some (.imm k) => some (lhs, k)
    | some (.imm k), _ => some (rhs, k)
    | _, _ => none
  | _ => none

/-- Look through one addition of a constant to an address. -/
def addStep (f : FunctionSsa) (p : ℕ × ℤ) : Option (ℕ × ℤ) := do
  let (lhs, k) ← addend f p.1
  let next ← checked 64 (p.2 + k.toInt)
  return (lhs, next)

/-- The base and the displacement an access address denotes, through the constant additions of a
member path. -/
def baseDisp (f : FunctionSsa) (addr : ℕ) (disp : ℤ) : ℕ × ℤ := whileSome (addStep f) 8 (addr, disp)

/-- Whether two byte ranges overlap. -/
def overlaps64 (a : ℤ) (aw : ℕ) (b : ℤ) (bw : ℕ) : Bool := a < b + bw && b < a + aw

/-- The constant an integer store writes, if it writes one. -/
def storedConst (f : FunctionSsa) (value : ℕ) (kind : StoreKind) (isVolatile : Bool) : Option Word :=
  if isVolatile || !isIntStore kind then none
  else match f.insts[value]? with
    | some (.imm k) => some k
    | _ => none

/-! ## The tables -/

/-- A location the code before wrote a constant to. -/
structure ConstEntry where
  addr : ℕ
  disp : ℤ
  width : ℕ
  /-- The stored constant; a load reads its low `width` bytes. -/
  bits : Word
  deriving DecidableEq

/-- The same for a slot of the frame. -/
structure ConstSlotEntry where
  off : ℤ
  width : ℕ
  bits : Word
  deriving DecidableEq

/-- The known locations. -/
structure Tables where
  table : List ConstEntry := []
  slotTable : List ConstSlotEntry := []
  deriving DecidableEq

/-- Instructions that can write through a pointer the pass does not model. -/
def killsPointers : Inst → Bool
  | .storeIndexed .. | .mcpy .. | .mzero .. | .atomicRmw .. | .atomicCas .. | .atomicCas16 ..
  | .atomicLoad .. | .atomicStore .. | .allocaInit _ | .call .. | .callIndirect .. | .callExt ..
  | .intrinsic .. | .x86Simd .. | .inlineAsm .. | .tailExt _ => true
  | _ => false

/-- What is known after an instruction. -/
def Tables.after (f : FunctionSsa) (t : Tables) (inst : Inst) : Tables :=
  match inst with
  | .store addr disp value kind isVolatile .. =>
    let (addr, disp) := baseDisp f addr disp
    let w := storeWidth kind
    { table := (t.table.filter fun e => e.addr = addr && !overlaps64 e.disp e.width disp w) ++
        ((storedConst f value kind isVolatile).map fun bits => ⟨addr, disp, w, bits⟩).toList
      slotTable := t.slotTable.filter fun e => !exposedSlots f e.off }
  | .storeLocal off disp value kind isVolatile _ =>
    let w := storeWidth kind
    { table := []
      slotTable :=
        (t.slotTable.filter fun e => !overlaps64 (8 * e.off) e.width (8 * off + disp) w) ++
        if disp = 0 && (forwardableSlots f off || exposedSlots f off) then
          ((storedConst f value kind isVolatile).map fun bits => ⟨off, w, bits⟩).toList
        else [] }
  | inst =>
    if killsPointers inst then
      { table := [], slotTable := t.slotTable.filter fun e => !exposedSlots f e.off }
    else t

/-- The constant a load reads back. -/
def foldOf (f : FunctionSsa) (t : Tables) : Inst → Option Word
  | .load addr disp kind isVolatile .. =>
    if isVolatile then none
    else do
      let (addr, disp) := baseDisp f addr disp
      let e ← t.table.find? fun e => e.addr = addr && e.disp = disp && e.width = loadWidth kind
      constForLoad e.bits kind
  | .loadLocal off disp kind isVolatile =>
    if isVolatile || disp ≠ 0 then none
    else do
      let e ← t.slotTable.find? fun e => e.off = off && e.width = loadWidth kind
      constForLoad e.bits kind
  | _ => none

/-! ## The pass -/

/-- Walk instructions of a block: what is known after them, and the loads that fold. -/
def walk (f : FunctionSsa) (t : Tables) : List ℕ → Tables × List (ℕ × Word)
  | [] => (t, [])
  | i :: is =>
    match f.insts[i]? with
    | none => (t, [])
    | some inst =>
      let r := walk f (t.after f inst) is
      (r.1, ((foldOf f t inst).map fun c => (i, c)).toList ++ r.2)

/-- What is known on entry to a block: where it has one predecessor, what the walk of that left. -/
def entryTables (f : FunctionSsa) (exitTables : ℕ → Option Tables) (b : ℕ) : Tables :=
  match f.predecessors b with
  | [p] => if p ≠ b then (exitTables p).getD {} else {}
  | _ => {}

/-- The instructions of a block. -/
def rangeOf (f : FunctionSsa) (b : ℕ) : List ℕ :=
  ((f.blocks[b]?).map fun blk => blk.instRange.toList).getD []

/-- Walk one block, and record what it leaves. -/
def walkBlock (f : FunctionSsa) (st : (ℕ → Option Tables) × List (ℕ × Word)) (b : ℕ) :
    (ℕ → Option Tables) × List (ℕ × Word) :=
  let r := walk f (entryTables f st.1 b) (rangeOf f b)
  (Function.update st.1 b (some r.1), st.2 ++ r.2)

/-- The blocks in reverse postorder, the unreachable ones last. -/
def blockOrder (f : FunctionSsa) : List ℕ :=
  let key := fun b => (rpoNumbers f b).getD (2 ^ 64 - 1)
  (List.range f.blocks.length).insertionSort fun a b => key a ≤ key b

/-- The loads of known constants. -/
def constFolds (f : FunctionSsa) : List (ℕ × Word) :=
  ((blockOrder f).foldl (walkBlock f) (fun _ => none, [])).2

/-- Whether an instruction can add to the tables. -/
def seedsTables : Inst → Bool
  | .store .. => true
  | .storeLocal _ disp .. => disp = 0
  | _ => false

/-- Replace each load of a known constant by the constant, and report whether there was one. -/
def foldConstLoads (f : FunctionSsa) : FunctionSsa × Bool :=
  if f.hasSeh || f.blocks.isEmpty || !f.insts.any seedsTables then (f, false)
  else
    let folds := constFolds f
    if folds.isEmpty then (f, false)
    else ({ f with insts := folds.foldl (fun insts p => insts.set p.1 (.imm p.2)) f.insts }, true)

end StoreForward

end Badc
