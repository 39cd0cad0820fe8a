import Badc.Ir.Eval
import Badc.Ssa.Graph

/-!
# Running a function

The meaning of a `FunctionSsa`, after `run_func` and `run_inst` of `src/c5/vm/ssa.rs`: one step
executes one instruction or takes one terminator.  A phi has its value on entry to its block; all
phis of a block read the registers as the predecessor left them.

A `Machine` stands for what the tape does not fix: the link-time addresses, floating-point
arithmetic, callees, inline assembly, the value a volatile read or an `Undef` yields.  Integer
arithmetic, the memory accesses and the control flow are concrete.  Two choices of the target
are parameters as well: where the frame lies, and whether a signed division that overflows
traps.

A run that divides by zero, reads an absent operand or leaves a jump table has no meaning: the
step is `none`.  Three readings differ from the interpreter's, which sees no optimised tape: a
comparison marked in `cmp32` and a division marked in `div32` read low words, and so does a
branch marked in `lowWordTests`.
-/

namespace Badc

/-- The contents of a register: a machine word, or a 128-bit vector. -/
inductive Val
  | word (x : Word)
  | vec (x : BitVec 128)
  deriving DecidableEq

/-- A register file; a value not yet defined has no contents. -/
abbrev Regs := ℕ → Option Val

/-- The value of an operand; the absent operand has none. -/
def Regs.get (regs : Regs) (v : ℕ) : Option Val := if v = noValue then none else regs v

/-- The word an operand holds. -/
def Regs.word (regs : Regs) (v : ℕ) : Option Word :=
  match regs.get v with
  | some (.word x) => some x
  | _ => none

/-- The register file with one value defined. -/
def Regs.set (regs : Regs) (v : ℕ) (x : Option Val) : Regs := Function.update regs v x

/-- Byte-addressed memory. -/
abbrev Mem := Word → BitVec 8

/-- The number the `n` bytes from `a` hold, the lowest address least significant. -/
def Mem.read (mem : Mem) (a : Word) : ℕ → ℕ
  | 0 => 0
  | n + 1 => (mem a).toNat + 256 * Mem.read mem (a + 1) n

/-- Memory with the low `n` bytes of `x` written from `a` on. -/
def Mem.write (mem : Mem) (a : Word) (n x : ℕ) : Mem := fun b =>
  if (b - a).toNat < n then BitVec.ofNat 8 (x / 256 ^ (b - a).toNat) else mem b

/-- Memory with `n` bytes copied from `src` to `dst`, all read before any is written. -/
def Mem.copy (mem : Mem) (dst src : Word) (n : ℕ) : Mem := fun b =>
  if (b - dst).toNat < n then mem (src + (b - dst)) else mem b

/-- Memory, and the state of everything else a run touches. -/
structure World (Ext : Type) where
  mem : Mem
  ext : Ext

/-- An instruction as the code outside the tape sees it: operands erased, the symbol a fixup
resolves it to, and whether its value is single precision. -/
structure Site where
  shape : Inst
  symbol : Option ℕ
  single : Bool
  deriving DecidableEq

/-- What a run takes from outside the tape. -/
structure Machine where
  Ext : Type
  /-- The address of slot 0 of the frame. -/
  frame : Word
  /-- The incoming argument words. -/
  arg : ℕ → Word
  /-- Whether a signed division whose quotient overflows traps. -/
  overflowTraps : Bool
  /-- Addresses of data, code and labels. -/
  link : Site → Word
  /-- Floating-point arithmetic, comparison and conversion. -/
  fp : Site → List Word → Word
  /-- The register image of a floating-point object. -/
  loadFp : LoadKind → Bool → ℕ → Word
  /-- The memory image of a floating-point register. -/
  storeFp : StoreKind → Bool → Word → ℕ
  /-- The result of an instruction that leaves memory as it is. -/
  quiet : Site → List Val → World Ext → Option (Val × Ext)
  /-- The result and effect of an instruction that may write memory. -/
  effect : Site → List Val → World Ext → Option (Option Val × World Ext)
  /-- What the environment sees of a volatile store. -/
  observe : Site → List Val → World Ext → Ext
  /-- The block a label address names. -/
  label : Word → Option ℕ
  /-- The entry of its table an inline-asm branch takes. -/
  asmTarget : World Ext → ℕ
  /-- A jump out of the function. -/
  tail : ℤ → World Ext → Option (Option Val × World Ext)

/-- The symbol a fixup table names for an instruction. -/
def FunctionSsa.symbolOf (f : FunctionSsa) (v : ℕ) : Option ℕ :=
  (f.externCallRefs ++ f.externImmCodeRefs ++ f.externImmDataRefs ++ f.externTlsRefs).lookup v

/-- The instruction at `v` as the code outside the tape sees it. -/
def FunctionSsa.site (f : FunctionSsa) (v : ℕ) (inst : Inst) : Site where
  shape := inst.mapOperands fun _ => 0
  symbol := f.symbolOf v
  single := isMarked f.f32Values v

/-- Bytes a load reads. -/
def loadWidth : LoadKind → ℕ
  | .f80 => 10
  | .f128 | .v128 => 16
  | .i64 | .f64 => 8
  | .i32 | .u32 | .f32 => 4
  | .i16 | .u16 => 2
  | .i8 | .u8 => 1

/-- Bytes a store writes. -/
def storeWidth : StoreKind → ℕ
  | .f80 => 10
  | .f128 | .v128 => 16
  | .i64 | .f64 => 8
  | .i32 | .f32 => 4
  | .i16 => 2
  | .i8 => 1

/-- A value truncated to a store's width; the floating kinds keep it. -/
def narrowStore (x : Word) : StoreKind → Word
  | .i32 => sext32 x
  | .i16 => (x.setWidth 16).signExtend 64
  | .i8 => (x.setWidth 8).signExtend 64
  | .i64 | .f32 | .f64 | .f80 | .f128 | .v128 => x

/-- The part of an index register an indexed access reads. -/
def readIndex (x : Word) : IndexExt → Word
  | .none => x
  | .sxtw => sext32 x
  | .uxtw => zext32 x

/-- The low `width` bytes of a word, zero-extended. -/
def zextBytes (x : Word) (width : ℕ) : Word :=
  match width with
  | 1 => (x.setWidth 8).setWidth 64
  | 2 => (x.setWidth 16).setWidth 64
  | 4 => zext32 x
  | _ => x

/-- Whether an inline-asm statement's value is a flag output. -/
def AsmBlock.flagValue (asm : AsmBlock) : Bool :=
  match asm.operands.find? fun o => o.value && o.isOutput with
  | some o => match o.constraint with
    | .flags _ => true
    | _ => false
  | none => false

/-- The form in which an instruction leaves a word the environment supplies: a narrow read is
extended, an atomic read zero-extended, a flag is 0 or 1. -/
def fixWord (x : Word) : Inst → Word
  | .load _ _ kind .. | .loadLocal _ _ kind _ | .segLoad _ kind .. | .paramPart _ _ kind
  | .retPart _ kind | .asmOut _ kind => extendLoad x kind
  | .atomicLoad _ width _ | .atomicCas _ _ _ width _ => zextBytes x width
  | .atomicCas16 .. => boolWord (x ≠ 0)
  | .inlineAsm asm _ => if asm.flagValue then boolWord (x ≠ 0) else x
  | _ => x

/-- What an instruction does, as far as its operands' values and memory go. -/
inductive Role
  | marker
  | copy (value : ℕ)
  | load (kind : LoadKind)
  | store (value : ℕ) (kind : StoreKind) (isVolatile : Bool)
  | mcpy (dst src : ℕ) (size : ℤ)
  | mzero (dst : ℕ) (size : ℤ)
  | quiet
  | effect
  | pure
  deriving DecidableEq

/-- The role of each instruction.  A phi and a lifetime marker do nothing where they stand; a
volatile load is left to the environment, which may change the object at any time. -/
def Inst.role : Inst → Role
  | .phi .. | .lifetimeEnd _ => .marker
  | .copy a _ => .copy a
  | .load _ _ kind isVolatile .. | .loadLocal _ _ kind isVolatile =>
      if isVolatile then .quiet else .load kind
  | .loadIndexed _ _ _ _ kind _ => .load kind
  | .store _ _ value kind isVolatile .. | .storeLocal _ _ value kind isVolatile _ =>
      .store value kind isVolatile
  | .storeIndexed _ _ _ _ value kind _ => .store value kind false
  | .mcpy dst src size _ => .mcpy dst src size
  | .mzero dst size _ => .mzero dst size
  | .exceptionCode | .undef | .tlsAddr _ | .parentLocalAddr .. | .segLoad .. | .paramPart ..
  | .retPart .. | .asmOut .. | .aggParts .. => .quiet
  | .segStore .. | .call .. | .callIndirect .. | .callExt .. | .tailExt _ | .atomicRmw ..
  | .atomicCas .. | .atomicCas16 .. | .atomicLoad .. | .atomicStore .. | .intrinsic ..
  | .x86Simd .. | .inlineAsm .. | .allocaInit _ => .effect
  | .imm _ | .immData _ | .immCode _ | .immExtCode _ | .blockAddr _ | .localAddr _ | .paramRef ..
  | .binop .. | .binopI .. | .neg _ | .fneg _ | .fma .. | .mulAdd .. | .shiftOp .. | .bitField ..
  | .udiv128 .. | .extend .. | .bswap .. | .bitCount .. | .fpCast .. => .pure

/-- `fixWord` on a register's contents. -/
def fixVal (inst : Inst) : Val → Val
  | .word x => .word (fixWord x inst)
  | .vec x => .vec x

namespace Machine

variable (m : Machine) (f : FunctionSsa)

/-- The address of a byte of a frame slot. -/
def slot (off disp : ℤ) : Word := m.frame + BitVec.ofInt 64 (8 * off + disp)

/-- Whether a signed division of these words overflows and the target traps on it. -/
def divTraps (op : BinOp) (lhs rhs min : Word) : Bool :=
  m.overflowTraps && (op = .div || op = .mod) && lhs = min && rhs = -1

/-- A binary operation at `v` on two words, at the widths the side tables give it. -/
def binop (v : ℕ) (op : BinOp) (lhs rhs : Word) : Option Word :=
  if isFpOp op then some (m.fp (f.site v (.binop op 0 0)) [lhs, rhs])
  else if isDivmodOp op && isDiv32 f v then
    if m.divTraps op (sext32 lhs) (sext32 rhs) (sext32 (BitVec.ofNat 64 (2 ^ 31))) then none
    else foldDiv32 op lhs rhs
  else if isIntComparisonOp op && isCmp32 f v then foldAtWidth op lhs rhs true
  else if m.divTraps op lhs rhs wordMin then none
  else applyBinop op lhs rhs

/-- The word a pure instruction computes from its operands. -/
def pureWord (v : ℕ) (regs : Regs) : Inst → Option Word
  | .imm k => some k
  | .immData off => some (m.link (f.site v (.immData off)))
  | .immCode pc => some (m.link (f.site v (.immCode pc)))
  | .immExtCode b => some (m.link (f.site v (.immExtCode b)))
  | .blockAddr b => some (m.link (f.site v (.blockAddr b)))
  | .localAddr off => some (m.slot off 0)
  | .paramRef idx kind => some (extendLoad (m.arg idx) kind)
  | .binop op lhs rhs => do m.binop f v op (← regs.word lhs) (← regs.word rhs)
  | .binopI op lhs k => do m.binop f v op (← regs.word lhs) k
  | .neg a => (regs.word a).map fun x => -x
  | .fneg a => (regs.word a).map fun x => m.fp (f.site v (.fneg 0)) [x]
  | .fma a b c np na => do
      return m.fp (f.site v (.fma 0 0 0 np na)) [← regs.word a, ← regs.word b, ← regs.word c]
  | .mulAdd a b c negProduct => do
      let product := (← regs.word a) * (← regs.word b)
      let addend ← regs.word c
      return if negProduct then addend - product else addend + product
  | .shiftOp op lhs rhs shift amount => do
      let shifted := (applyBinop shift.binop (← regs.word rhs) (BitVec.ofNat 64 amount)).getD 0
      return (applyBinop op.binop (← regs.word lhs) shifted).getD 0
  | .bitField a span signed => (regs.word a).map fun x => evalBitField x span signed
  | .udiv128 hi lo divisor => do
      Badc.udiv128 (← regs.word hi) (← regs.word lo) (← regs.word divisor)
  | .extend a kind _ => (regs.word a).map fun x => evalExtend x kind
  | .bswap a width => (regs.word a).map fun x => evalBswap x width
  | .bitCount op a width => (regs.word a).map fun x => evalBitCount op x width
  | .fpCast kind a => (regs.word a).map fun x => m.fp (f.site v (.fpCast kind 0)) [x]
  | _ => none

/-- The address an access names. -/
def address (regs : Regs) : Inst → Option Word
  | .load a disp .. | .store a disp .. => (regs.word a).map fun x => x + BitVec.ofInt 64 disp
  | .loadLocal off disp .. | .storeLocal off disp .. => some (m.slot off disp)
  | .loadIndexed base index ext scale .. | .storeIndexed base index ext scale .. => do
      return (← regs.word base) + readIndex (← regs.word index) ext * BitVec.ofNat 64 scale
  | _ => none

/-- What a load of `kind` at `a` leaves in its register. -/
def loaded (single : Bool) (mem : Mem) (a : Word) (kind : LoadKind) : Val :=
  match kind with
  | .v128 => .vec (BitVec.ofNat 128 (mem.read a 16))
  | .f32 | .f64 | .f80 | .f128 => .word (m.loadFp kind single (mem.read a (loadWidth kind)))
  | _ => .word (extendLoad (BitVec.ofNat 64 (mem.read a (loadWidth kind))) kind)

/-- The bytes a store of `kind` writes for a register's contents. -/
def storedBytes (single : Bool) (kind : StoreKind) : Val → Option ℕ
  | .vec x => if kind = .v128 then some x.toNat else none
  | .word x => match kind with
    | .v128 => none
    | .f32 | .f64 | .f80 | .f128 => some (m.storeFp kind single x)
    | _ => some x.toNat

/-- The value a store leaves as its own. -/
def storedVal (kind : StoreKind) : Val → Val
  | .vec x => .vec x
  | .word x => .word (narrowStore x kind)

/-- A load at `v` from the address its operands give. -/
def execLoad (v : ℕ) (inst : Inst) (kind : LoadKind) (regs : Regs) (w : World m.Ext) :
    Option (Regs × World m.Ext) := do
  let a ← m.address regs inst
  return (regs.set v (some (m.loaded (isMarked f.f32Values v) w.mem a kind)), w)

/-- A store at `v`; a volatile one is seen by the environment. -/
def execStore (v : ℕ) (inst : Inst) (value : ℕ) (kind : StoreKind) (isVolatile : Bool)
    (regs : Regs) (w : World m.Ext) : Option (Regs × World m.Ext) := do
  let a ← m.address regs inst
  let x ← regs.get value
  let bytes ← m.storedBytes (isMarked f.f32Values value) kind x
  let ext := if isVolatile then m.observe (f.site v inst) [.word a, x] w else w.ext
  return (regs.set v (some (storedVal kind x)), ⟨w.mem.write a (storeWidth kind) bytes, ext⟩)

/-- An instruction whose result the environment supplies, memory as it was. -/
def execQuiet (v : ℕ) (inst : Inst) (regs : Regs) (w : World m.Ext) :
    Option (Regs × World m.Ext) := do
  let vals ← inst.operands.mapM regs.get
  let (x, ext) ← m.quiet (f.site v inst) vals w
  return (regs.set v (some (fixVal inst x)), { w with ext })

/-- An instruction whose result and effect on memory the environment supplies. -/
def execEffect (v : ℕ) (inst : Inst) (regs : Regs) (w : World m.Ext) :
    Option (Regs × World m.Ext) := do
  let vals ← inst.operands.mapM regs.get
  let (x, w) ← m.effect (f.site v inst) vals w
  return (regs.set v (x.map (fixVal inst)), w)

/-- A block copy at `v`; its value is the destination. -/
def execMcpy (v dst src : ℕ) (size : ℤ) (regs : Regs) (w : World m.Ext) :
    Option (Regs × World m.Ext) := do
  let d ← regs.word dst
  let a ← regs.word src
  if size < 0 then none
  else some (regs.set v (some (.word d)), { w with mem := w.mem.copy d a size.toNat })

/-- A block clear at `v`, which has no value. -/
def execMzero (v dst : ℕ) (size : ℤ) (regs : Regs) (w : World m.Ext) :
    Option (Regs × World m.Ext) := do
  let d ← regs.word dst
  if size < 0 then none
  else some (regs.set v none, { w with mem := w.mem.write d size.toNat 0 })

/-- One instruction: the registers and the world it leaves. -/
def exec (v : ℕ) (regs : Regs) (w : World m.Ext) (inst : Inst) : Option (Regs × World m.Ext) :=
  match inst.role with
  | .marker => some (regs, w)
  | .copy a => (regs.get a).map fun x => (regs.set v (some x), w)
  | .load kind => m.execLoad f v inst kind regs w
  | .store value kind isVolatile => m.execStore f v inst value kind isVolatile regs w
  | .mcpy dst src size => m.execMcpy v dst src size regs w
  | .mzero dst size => m.execMzero v dst size regs w
  | .quiet => m.execQuiet f v inst regs w
  | .effect => m.execEffect f v inst regs w
  | .pure => (m.pureWord f v regs inst).map fun x => (regs.set v (some (.word x)), w)

end Machine

/-- A running function: the block, the next instruction, the registers and the world. -/
structure State (Ext : Type) where
  block : ℕ
  pc : ℕ
  regs : Regs
  world : World Ext

/-- Where a run stands: inside the function, or past its return. -/
inductive Status (Ext : Type)
  | running (s : State Ext)
  | returned (value : Option Val) (world : World Ext)

/-- The value a phi takes over the edge from `p`. -/
def phiValue (incoming : List (ℕ × ℕ)) (p : ℕ) (regs : Regs) : Option Val :=
  (incoming.find? fun q => q.1 = p).bind fun q => regs.get q.2

/-- The registers after the edge from `p` into `b`: each phi of `b` takes its value for `p`. -/
def enterRegs (f : FunctionSsa) (p : ℕ) (blk : Block) (regs : Regs) : Regs := fun v =>
  if blk.instRange.start ≤ v ∧ v < blk.instRange.stop then
    match f.insts[v]? with
    | some (.phi incoming _) => phiValue incoming p regs
    | _ => regs v
  else regs v

/-- Enter block `b` from the state's block. -/
def State.goTo {Ext : Type} (f : FunctionSsa) (s : State Ext) (b : ℕ) : Option (State Ext) :=
  (f.blocks[b]?).map fun blk =>
    ⟨b, blk.instRange.start, enterRegs f s.block blk s.regs, s.world⟩

namespace Machine

variable (m : Machine) (f : FunctionSsa)

/-- The word a branch of block `b` tests. -/
def testWord (b : ℕ) (regs : Regs) (cond : ℕ) : Option Word :=
  (regs.word cond).map fun x => if isMarked f.lowWordTests b then zext32 x else x

/-- The block a terminator continues in. -/
def branchTo (s : State m.Ext) : Terminator → Option ℕ
  | .jmp b | .fallThrough b => some b
  | .bz cond target fallThrough =>
      (testWord f s.block s.regs cond).map fun c => if c = 0 then target else fallThrough
  | .bnz cond target fallThrough =>
      (testWord f s.block s.regs cond).map fun c => if c = 0 then fallThrough else target
  | .gotoIndirect target => do
      let b ← m.label (← s.regs.word target)
      if b ∈ f.computedGotoTargets then some b else none
  | .jumpTable idx table => do
      let x ← s.regs.word idx
      (← f.jumpTables[table]?)[x.toNat]?
  | .asmGoto table => do (← f.jumpTables[table]?)[m.asmTarget s.world]?
  | .ret _ | .tailExt _ | .unreachable => none

/-- Take a terminator. -/
def leave (s : State m.Ext) (term : Terminator) : Option (Status m.Ext) :=
  match term with
  | .ret v =>
      if v = noValue then some (.returned none s.world)
      else (s.regs.get v).map fun x => .returned (some x) s.world
  | .tailExt binding => (m.tail binding s.world).map fun r => .returned r.1 r.2
  | _ => (m.branchTo f s term).bind fun b => (s.goTo f b).map .running

/-- One step of a run: an instruction of the block, or its terminator. -/
def step (s : State m.Ext) : Option (Status m.Ext) :=
  match f.blocks[s.block]? with
  | none => none
  | some blk =>
    if s.pc < blk.instRange.stop then
      match f.insts[s.pc]? with
      | none => none
      | some inst => (m.exec f s.pc s.regs s.world inst).map fun r =>
          .running { s with pc := s.pc + 1, regs := r.1, world := r.2 }
    else m.leave f s blk.terminator

/-- The first `n` steps of a run; a run that returns earlier stays there. -/
def run : ℕ → State m.Ext → Option (Status m.Ext)
  | 0, s => some (.running s)
  | n + 1, s => (m.step f s).bind fun
    | .running s' => run n s'
    | .returned v w => some (.returned v w)

/-- The state a call starts in. -/
def initial (w : World m.Ext) : State m.Ext where
  block := 0
  pc := ((f.blocks[0]?).map fun blk => blk.instRange.start).getD 0
  regs := fun _ => none
  world := w

/-- The states a call passes through. -/
inductive Reaches (w : World m.Ext) : State m.Ext → Prop
  | initial : Reaches w (m.initial f w)
  | step {s s' : State m.Ext} : Reaches w s → m.step f s = some (.running s') → Reaches w s'

end Machine

/-- The block a run stands in. -/
def Status.block {Ext : Type} : Status Ext → Option ℕ
  | .running s => some s.block
  | .returned .. => none

/-- The machine with nothing around the function: every word from outside is zero, and calls and
the like do nothing. -/
def Machine.null : Machine where
  Ext := Unit
  frame := 0
  arg _ := 0
  overflowTraps := false
  link _ := 0
  fp _ _ := 0
  loadFp _ _ _ := 0
  storeFp _ _ _ := 0
  quiet _ _ w := some (.word 0, w.ext)
  effect _ _ w := some (some (.word 0), w)
  observe _ _ w := w.ext
  label _ := none
  asmTarget _ := 0
  tail _ w := some (none, w)

/-- Memory of zeros, nothing else. -/
def World.null : World Unit := ⟨fun _ => 0, ()⟩

/-! ## Steps and runs -/

namespace Machine

variable {m : Machine} {f : FunctionSsa}

section Exec

variable {v : ℕ} {regs : Regs} {w : World m.Ext} {inst : Inst} {r : Regs × World m.Ext}

lemma execLoad_eq_some {kind : LoadKind} :
    m.execLoad f v inst kind regs w = some r ↔ ∃ a, m.address regs inst = some a ∧
      r = (regs.set v (some (m.loaded (isMarked f.f32Values v) w.mem a kind)), w) := by
  simp only [execLoad, bind, Option.bind_eq_some_iff, pure, Option.some.injEq]
  grind

lemma execStore_eq_some {value : ℕ} {kind : StoreKind} {isVolatile : Bool} :
    m.execStore f v inst value kind isVolatile regs w = some r ↔ ∃ a x bytes,
      m.address regs inst = some a ∧ regs.get value = some x ∧
      m.storedBytes (isMarked f.f32Values value) kind x = some bytes ∧
      r = (regs.set v (some (storedVal kind x)), ⟨w.mem.write a (storeWidth kind) bytes,
        if isVolatile then m.observe (f.site v inst) [.word a, x] w else w.ext⟩) := by
  simp only [execStore, bind, Option.bind_eq_some_iff, pure, Option.some.injEq]
  grind

lemma execQuiet_eq_some :
    m.execQuiet f v inst regs w = some r ↔ ∃ vals x ext,
      inst.operands.mapM regs.get = some vals ∧ m.quiet (f.site v inst) vals w = some (x, ext) ∧
      r = (regs.set v (some (fixVal inst x)), { w with ext }) := by
  simp only [execQuiet, bind, Option.bind_eq_some_iff, pure, Option.some.injEq]
  grind

lemma execEffect_eq_some :
    m.execEffect f v inst regs w = some r ↔ ∃ vals x w',
      inst.operands.mapM regs.get = some vals ∧ m.effect (f.site v inst) vals w = some (x, w') ∧
      r = (regs.set v (x.map (fixVal inst)), w') := by
  simp only [execEffect, bind, Option.bind_eq_some_iff, pure, Option.some.injEq]
  grind

lemma execMcpy_eq_some {dst src : ℕ} {size : ℤ} :
    m.execMcpy v dst src size regs w = some r ↔ ∃ d a, regs.word dst = some d ∧
      regs.word src = some a ∧ 0 ≤ size ∧
      r = (regs.set v (some (.word d)), { w with mem := w.mem.copy d a size.toNat }) := by
  simp only [execMcpy, bind, Option.bind_eq_some_iff]
  grind

lemma execMzero_eq_some {dst : ℕ} {size : ℤ} :
    m.execMzero v dst size regs w = some r ↔ ∃ d, regs.word dst = some d ∧ 0 ≤ size ∧
      r = (regs.set v none, { w with mem := w.mem.write d size.toNat 0 }) := by
  simp only [execMzero, bind, Option.bind_eq_some_iff]
  grind

/-- An instruction writes no register but its own. -/
lemma exec_regs (h : m.exec f v regs w inst = some r) : ∃ x, r.1 = regs.set v x := by
  unfold exec at h
  split at h
  · exact ⟨regs v, by rw [← Option.some.inj h, Regs.set, Function.update_eq_self]⟩
  · obtain ⟨x, -, rfl⟩ := Option.map_eq_some_iff.mp h
    exact ⟨_, rfl⟩
  · obtain ⟨_, -, rfl⟩ := execLoad_eq_some.mp h
    exact ⟨_, rfl⟩
  · obtain ⟨_, _, _, -, -, -, rfl⟩ := execStore_eq_some.mp h
    exact ⟨_, rfl⟩
  · obtain ⟨_, _, -, -, -, rfl⟩ := execMcpy_eq_some.mp h
    exact ⟨_, rfl⟩
  · obtain ⟨_, -, -, rfl⟩ := execMzero_eq_some.mp h
    exact ⟨_, rfl⟩
  · obtain ⟨_, _, _, -, -, rfl⟩ := execQuiet_eq_some.mp h
    exact ⟨_, rfl⟩
  · obtain ⟨_, _, _, -, -, rfl⟩ := execEffect_eq_some.mp h
    exact ⟨_, rfl⟩
  · obtain ⟨_, -, rfl⟩ := Option.map_eq_some_iff.mp h
    exact ⟨_, rfl⟩

lemma exec_phi (hphi : inst.isPhi = true) : m.exec f v regs w inst = some (regs, w) := by
  cases inst with
  | phi incoming kind => rfl
  | _ => cases hphi

end Exec

/-- A terminator continues in a successor of its block. -/
lemma branchTo_edge {s : State m.Ext} {blk : Block} {b : ℕ} (hblk : f.blocks[s.block]? = some blk)
    (h : m.branchTo f s blk.terminator = some b) : f.graph.Edge s.block b := by
  refine FunctionSsa.graph_edge.mpr ⟨blk, hblk, ?_⟩
  cases hterm : blk.terminator with
  | jmp t | fallThrough t =>
    rw [hterm] at h
    simp only [branchTo, Option.some.injEq] at h
    simp [successors, h]
  | bz cond t e | bnz cond t e =>
    rw [hterm] at h
    obtain ⟨c, -, hb⟩ := Option.map_eq_some_iff.mp h
    rw [← hb, successors]
    split <;> simp
  | gotoIndirect a =>
    rw [hterm] at h
    simp only [branchTo, bind, Option.bind_eq_some_iff] at h
    obtain ⟨x, -, t, -, ht⟩ := h
    split at ht
    · rename_i hmem
      rw [← Option.some.inj ht]
      exact hmem
    · cases ht
  | jumpTable idx table | asmGoto table =>
    rw [hterm] at h
    simp only [branchTo, bind, Option.bind_eq_some_iff] at h
    rw [successors, mem_foldl_insert_end]
    refine Or.inr ?_
    first
    | obtain ⟨x, -, ts, hts, ht⟩ := h
      simpa [List.getD_eq_getElem?_getD, hts] using List.mem_of_getElem? ht
    | obtain ⟨ts, hts, ht⟩ := h
      simpa [List.getD_eq_getElem?_getD, hts] using List.mem_of_getElem? ht
  | ret v | tailExt v | unreachable =>
    rw [hterm] at h
    cases h

lemma binop_plain {v : ℕ} {op : BinOp} {x y : Word} (hfp : isFpOp op = false)
    (hdiv : isDivmodOp op = false) (hcmp : isIntComparisonOp op = false) :
    m.binop f v op x y = applyBinop op x y := by
  have h1 : op ≠ .div := by rintro rfl; cases hdiv
  have h2 : op ≠ .mod := by rintro rfl; cases hdiv
  simp [binop, hfp, hdiv, hcmp, divTraps, h1, h2]

lemma branchTo_bz {s : State m.Ext}
    (hfull : isMarked f.lowWordTests s.block = false) {cond target other b : ℕ}
    (h : m.branchTo f s (.bz cond target other) = some b) :
    ∃ x, s.regs.word cond = some x ∧ b = if x = 0 then target else other := by
  obtain ⟨c, hc, rfl⟩ := Option.map_eq_some_iff.mp h
  obtain ⟨x, hx, rfl⟩ := Option.map_eq_some_iff.mp hc
  exact ⟨x, hx, by simp [hfull]⟩

lemma branchTo_bnz {s : State m.Ext}
    (hfull : isMarked f.lowWordTests s.block = false) {cond target other b : ℕ}
    (h : m.branchTo f s (.bnz cond target other) = some b) :
    ∃ x, s.regs.word cond = some x ∧ b = if x = 0 then other else target := by
  obtain ⟨c, hc, rfl⟩ := Option.map_eq_some_iff.mp h
  obtain ⟨x, hx, rfl⟩ := Option.map_eq_some_iff.mp hc
  exact ⟨x, hx, by simp [hfull]⟩

lemma leave_of_branchTo {term : Terminator} {s : State m.Ext} {t : ℕ} (h : m.branchTo f s term = some t) :
    m.leave f s term = (s.goTo f t).map .running := by
  have hleave : m.leave f s term =
      (m.branchTo f s term).bind fun t => (s.goTo f t).map .running := by
    cases term <;> first | rfl | cases h
  rw [hleave, h]
  rfl

/-- A terminator that leaves the function running continues in the block it enters. -/
lemma branchTo_of_leave {term : Terminator} {s s' : State m.Ext}
    (h : m.leave f s term = some (.running s')) : m.branchTo f s term = some s'.block := by
  have hbind : (m.branchTo f s term).bind (fun t => (s.goTo f t).map Status.running) =
      some (.running s') := by
    unfold leave at h
    split at h
    · split at h
      · cases h
      · obtain ⟨x, -, hx⟩ := Option.map_eq_some_iff.mp h
        cases hx
    · obtain ⟨x, -, hx⟩ := Option.map_eq_some_iff.mp h
      cases hx
    · exact h
  obtain ⟨t, ht, hgo⟩ := Option.bind_eq_some_iff.mp hbind
  obtain ⟨s₁, hs₁, heq⟩ := Option.map_eq_some_iff.mp hgo
  obtain ⟨blk, -, rfl⟩ := Option.map_eq_some_iff.mp hs₁
  cases heq
  exact ht

/-- What one step of a run can do: execute an instruction, or enter a block. -/
lemma step_cases {s s' : State m.Ext} (h : m.step f s = some (.running s')) :
    ∃ blk, f.blocks[s.block]? = some blk ∧
      ((s.pc < blk.instRange.stop ∧ ∃ inst r, f.insts[s.pc]? = some inst ∧
          m.exec f s.pc s.regs s.world inst = some r ∧
          s' = { s with pc := s.pc + 1, regs := r.1, world := r.2 }) ∨
        (blk.instRange.stop ≤ s.pc ∧ ∃ b blk', m.branchTo f s blk.terminator = some b ∧
          f.blocks[b]? = some blk' ∧
          s' = ⟨b, blk'.instRange.start, enterRegs f s.block blk' s.regs, s.world⟩)) := by
  unfold step at h
  split at h
  · cases h
  · rename_i blk hblk
    refine ⟨blk, hblk, ?_⟩
    split at h
    · rename_i hpc
      refine Or.inl ⟨hpc, ?_⟩
      split at h
      · cases h
      · rename_i inst hinst
        obtain ⟨r, hr, hs⟩ := Option.map_eq_some_iff.mp h
        exact ⟨inst, r, hinst, hr, by cases hs; rfl⟩
    · rename_i hpc
      refine Or.inr ⟨not_lt.mp hpc, ?_⟩
      have hb := branchTo_of_leave h
      rw [leave_of_branchTo hb] at h
      obtain ⟨s₁, hs₁, hs⟩ := Option.map_eq_some_iff.mp h
      obtain ⟨blk', hblk', rfl⟩ := Option.map_eq_some_iff.mp hs₁
      exact ⟨_, blk', hb, hblk', (Status.running.inj hs).symm⟩

/-- The states of the first steps of a run are passed through. -/
lemma Reaches.run {w : World m.Ext} {s s' : State m.Ext} (hs : m.Reaches f w s) {n : ℕ}
    (h : m.run f n s = some (.running s')) : m.Reaches f w s' := by
  induction n generalizing s with
  | zero =>
    obtain rfl := Status.running.inj (Option.some.inj h)
    exact hs
  | succ n ih =>
    obtain ⟨r, hr, hrun⟩ := Option.bind_eq_some_iff.mp h
    cases r with
    | running s₁ => exact ih (hs.step hr) hrun
    | returned v w => cases hrun

/-- A function that takes each step of a run the same way has the same run. -/
theorem run_eq_of_step {f' : FunctionSsa} {w : World m.Ext}
    (hinit : m.initial f' w = m.initial f w)
    (hstep : ∀ s, m.Reaches f w s → ∀ r, m.step f s = some r → m.step f' s = some r) {n : ℕ}
    {r : Status m.Ext} (h : m.run f n (m.initial f w) = some r) :
    m.run f' n (m.initial f' w) = some r := by
  rw [hinit]
  have hreach : m.Reaches f w (m.initial f w) := .initial
  generalize m.initial f w = s at h hreach
  induction n generalizing s with
  | zero => exact h
  | succ n ih =>
    obtain ⟨r₁, hr₁, hrun⟩ := Option.bind_eq_some_iff.mp h
    refine Option.bind_eq_some_iff.mpr ⟨r₁, hstep s hreach r₁ hr₁, ?_⟩
    cases r₁ with
    | running s₁ => exact ih s₁ hrun (hreach.step hr₁)
    | returned v w => exact hrun

section

-- The equations are made here, once for all the lemmas that unfold these.
attribute [local simp] pureWord

end

end Machine

end Badc
