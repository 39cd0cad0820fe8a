import Mathlib.Tactic

/-!
# The SSA intermediate representation

The instruction tape of a function as `src/c5/ir.rs` declares it: `Inst` is the sum of the
instruction variants, `Terminator` of the block terminators, and `FunctionSsa` holds the flat
tape, the blocks that cut it into ranges and the side tables the passes read.

A 64-bit machine integer (`i64`, `u64`) is a `Word`.  A value id is an index into the tape and a
block id one into the block list, both natural numbers; the sentinel `noValue` stands for an
absent operand.  Field ranges that the
source only documents (the signed narrow kinds of an `Extend`, `BitCount` over 4 or 8 bytes, the
bits of a `BitField`, the operators of a `ShiftOp`) are types here, so a value outside them cannot
be written down.  The metadata shared by the three call forms is the structure `CallSite`.
-/

namespace Badc

/-- A 64-bit machine integer, read signed (`toInt`) or unsigned (`toNat`) by each operation. -/
abbrev Word := BitVec 64

/-- The absent operand, `u32::MAX`. -/
def noValue : ℕ := 4294967295

/-- What a load reads from memory and how it extends it to a register. -/
inductive LoadKind
  | i64 | u8 | i8 | i32 | u32 | i16 | u16 | f32 | f64 | f80 | f128 | v128
  deriving DecidableEq, Repr

/-- The signed narrow kinds an `extend` sign-extends from. -/
inductive ExtendKind
  | i8 | i16 | i32
  deriving DecidableEq, Repr

/-- The load kind of the same width and signedness. -/
def ExtendKind.loadKind : ExtendKind → LoadKind
  | .i8 => .i8
  | .i16 => .i16
  | .i32 => .i32

/-- How much of an indexed access's index forms the address. -/
inductive IndexExt
  | none | sxtw | uxtw
  deriving DecidableEq, Repr

/-- What a store writes. -/
inductive StoreKind
  | i64 | i8 | i32 | i16 | f32 | f64 | f80 | f128 | v128
  deriving DecidableEq, Repr

/-- Integer and floating-point binary opcodes. -/
inductive BinOp
  | or | xor | and | eq | ne | lt | gt | le | ge | ult | ugt | ule | uge
  | shl | shr | shru | ror | add | sub | mul | mulh | mulhu | div | mod | divu | modu
  | fadd | fsub | fmul | fmulContractible | fdiv
  | feq | fne | flt | fgt | fle | fge | fone | funo
  deriving DecidableEq, Repr

/-- Integer relational and equality operators, signed and unsigned. -/
def isIntComparisonOp : BinOp → Bool
  | .eq | .ne | .lt | .gt | .le | .ge | .ult | .ugt | .ule | .uge => true
  | _ => false

/-- Floating-point relational and equality operators. -/
def isFpComparisonOp : BinOp → Bool
  | .feq | .fne | .flt | .fgt | .fle | .fge | .fone | .funo => true
  | _ => false

/-- Floating-point arithmetic operators. -/
def isFpArithOp : BinOp → Bool
  | .fadd | .fsub | .fmul | .fmulContractible | .fdiv => true
  | _ => false

/-- Floating-point arithmetic or comparison. -/
def isFpOp (op : BinOp) : Bool := isFpArithOp op || isFpComparisonOp op

/-- Integer division and remainder, signed and unsigned. -/
def isDivmodOp : BinOp → Bool
  | .div | .divu | .mod | .modu => true
  | _ => false

/-- The bits a `bitCount` counts. -/
inductive BitCountOp
  | clz | ctz | popcount | clrsb
  deriving DecidableEq, Repr

/-- The operand width of a `bitCount`, in bytes 4 or 8. -/
inductive CountWidth
  | w4 | w8
  deriving DecidableEq, Repr

/-- The width in bytes. -/
def CountWidth.bytes : CountWidth → ℕ
  | .w4 => 4
  | .w8 => 8

/-- The bits `lsb .. lsb + width` of a register, `width` in `1 ..= 63` and inside it. -/
structure FieldSpan where
  lsb : ℕ
  width : ℕ
  one_le : 1 ≤ width
  width_le : width ≤ 63
  fits : lsb + width ≤ 64
  deriving DecidableEq

/-- The operations that take a shifted operand. -/
inductive AluOp
  | add | sub | and | or | xor
  deriving DecidableEq, Repr

/-- The operator of the same name. -/
def AluOp.binop : AluOp → BinOp
  | .add => .add
  | .sub => .sub
  | .and => .and
  | .or => .or
  | .xor => .xor

/-- The shifts an operand can be taken through. -/
inductive ShiftKind
  | shl | shr | shru
  deriving DecidableEq, Repr

/-- The operator of the same name. -/
def ShiftKind.binop : ShiftKind → BinOp
  | .shl => .shl
  | .shr => .shr
  | .shru => .shru

/-- Operator of an atomic read-modify-write. -/
inductive AtomicRmwOp
  | xchg | add | sub | and | or | xor
  deriving DecidableEq, Repr

/-- Memory order of an atomic access. -/
inductive MemOrder
  | relaxed | acquire | release | acqRel | seqCst
  deriving DecidableEq, Repr

/-- Floating-point and integer conversions. -/
inductive FpCastKind
  | fpToInt | ufpToInt | intToFp | uintToFp | f32ToF64 | f64ToF32
  deriving DecidableEq, Repr

/-- Calling convention of a callee. -/
inductive CallConv
  | target | ms | sysV
  deriving DecidableEq, Repr

/-- Operand constraint of an inline-asm statement. -/
inductive AsmConstraint
  | reg | fp | fixed (r : ℕ) | bound (r : ℕ) | matching (i : ℕ)
  | regOrImm (reg : Option ℕ) (imm : Char) | imm | mem | flags (cc : ℕ) | memBase
  deriving DecidableEq, Repr

/-- Segment override of a memory reference. -/
inductive AsmSeg
  | none | gs | fs
  deriving DecidableEq, Repr

/-- One operand of an inline-asm statement. -/
structure AsmOperand where
  constraint : AsmConstraint
  isOutput : Bool := false
  isRw : Bool := false
  width : ℕ := 8
  seg : AsmSeg := .none
  staticArg : Bool := false
  value : Bool := false
  volatileObject : Bool := false
  earlyClobber : Bool := false
  fpLimit : ℕ := 0
  deriving DecidableEq, Repr

/-- The template, operands and clobbers of an inline-asm statement. -/
structure AsmBlock where
  template : List (BitVec 8)
  operands : List AsmOperand
  clobberRegs : BitVec 32 := 0
  clobberFpRegs : BitVec 32 := 0
  clobberMemory : Bool := false
  volatileAsm : Bool := false
  deriving DecidableEq

/-- What the three call forms record about their arguments and result. -/
structure CallSite where
  fpReturn : Bool := false
  fpArgMask : List Word := []
  lowWordArgs : Word := 0
  argWidths : BitVec 128 := 0
  argAggs : List (Option ℕ) := []
  retAgg : Option ℕ := none
  retSlotLocal : ℤ := 0
  deriving DecidableEq

/-- A single SSA instruction. -/
inductive Inst
  | imm (k : Word)
  | exceptionCode
  | undef
  | immData (off : ℤ)
  | immCode (pc : ℕ)
  | immExtCode (binding : ℤ)
  | blockAddr (b : ℕ)
  | localAddr (off : ℤ)
  | tlsAddr (off : ℤ)
  | parentLocalAddr (establisher : ℕ) (parent index : ℕ)
  | load (addr : ℕ) (disp : ℤ) (kind : LoadKind) (isVolatile : Bool) (align : ℕ)
      (pcRel : Bool)
  | store (addr : ℕ) (disp : ℤ) (value : ℕ) (kind : StoreKind) (isVolatile : Bool)
      (align : ℕ) (pcRel : Bool)
  | loadLocal (off disp : ℤ) (kind : LoadKind) (isVolatile : Bool)
  | storeLocal (off disp : ℤ) (value : ℕ) (kind : StoreKind) (isVolatile nsw : Bool)
  | loadIndexed (base index : ℕ) (indexExt : IndexExt) (scale : ℕ) (kind : LoadKind)
      (absBase : Bool)
  | storeIndexed (base index : ℕ) (indexExt : IndexExt) (scale : ℕ) (value : ℕ)
      (kind : StoreKind) (absBase : Bool)
  | segLoad (addr : ℕ) (kind : LoadKind) (isVolatile : Bool) (seg : AsmSeg)
  | segStore (addr value : ℕ) (kind : StoreKind) (isVolatile : Bool) (seg : AsmSeg)
  | binop (op : BinOp) (lhs rhs : ℕ)
  | binopI (op : BinOp) (lhs : ℕ) (rhsImm : Word)
  | neg (v : ℕ)
  | fneg (v : ℕ)
  | fma (a b c : ℕ) (negProduct negAddend : Bool)
  | mulAdd (a b c : ℕ) (negProduct : Bool)
  | shiftOp (op : AluOp) (lhs rhs : ℕ) (shift : ShiftKind) (amount : Fin 64)
  | bitField (value : ℕ) (span : FieldSpan) (signed : Bool)
  | udiv128 (hi lo divisor : ℕ)
  | extend (value : ℕ) (kind : ExtendKind) (nsw : Bool)
  | bswap (value : ℕ) (width : ℕ)
  | bitCount (op : BitCountOp) (value : ℕ) (width : CountWidth)
  | copy (value : ℕ) (isFp : Bool)
  | fpCast (kind : FpCastKind) (value : ℕ)
  | call (targetPc : ℕ) (args : List ℕ) (fixedArgs : ℕ) (conv : CallConv) (site : CallSite)
  | callIndirect (target : ℕ) (args : List ℕ) (calleeVariadic : Bool)
      (fixedArgs : ℕ) (conv : CallConv) (site : CallSite)
  | callExt (binding : ℤ) (args : List ℕ) (site : CallSite)
  | tailExt (binding : ℤ)
  | mzero (dst : ℕ) (size : ℤ) (align : ℕ)
  | mcpy (dst src : ℕ) (size : ℤ) (align : ℕ)
  | atomicRmw (op : AtomicRmwOp) (addr value : ℕ) (width : ℕ) (order : MemOrder)
  | atomicCas (addr expected desired : ℕ) (width : ℕ) (order : MemOrder)
  | atomicCas16 (addr expected desired : ℕ) (order : MemOrder)
  | atomicLoad (addr : ℕ) (width : ℕ) (order : MemOrder)
  | atomicStore (addr value : ℕ) (width : ℕ) (order : MemOrder)
  | intrinsic (kind : ℤ) (args : List ℕ)
  | x86Simd (op : ℕ) (imm : Option ℕ) (args : List ℕ)
  | inlineAsm (asm : AsmBlock) (args : List ℕ)
  | allocaInit (off : ℤ)
  | lifetimeEnd (off : ℤ)
  | paramRef (idx : ℕ) (kind : LoadKind)
  | paramPart (idx part : ℕ) (kind : LoadKind)
  | retPart (slot : ℕ) (kind : LoadKind)
  | asmOut (op : ℕ) (kind : LoadKind)
  | aggParts (desc : ℕ) (parts : List ℕ) (fpMask : List Word)
  | phi (incoming : List (ℕ × ℕ)) (kind : LoadKind)
  deriving DecidableEq

/-- Whether the argument at index `i` of an inline-asm statement is formed at the site. -/
def AsmBlock.isStatic (asm : AsmBlock) (i : ℕ) : Bool :=
  (asm.operands[i]?).any (·.staticArg)

/-- The operands `for_each_operand` visits, in its order.  A static operand of an inline-asm
statement is formed at the site and not visited. -/
def Inst.operands : Inst → List ℕ
  | .imm _ | .exceptionCode | .undef | .immData _ | .immCode _ | .immExtCode _ | .blockAddr _
  | .localAddr _ | .tlsAddr _ | .loadLocal .. | .tailExt _ | .allocaInit _ | .lifetimeEnd _
  | .paramRef .. | .paramPart .. | .retPart .. | .asmOut .. => []
  | .aggParts _ parts _ => parts
  | .load addr .. => [addr]
  | .store addr _ value .. => [addr, value]
  | .segLoad addr .. => [addr]
  | .segStore addr value .. => [addr, value]
  | .storeLocal _ _ value .. => [value]
  | .loadIndexed base index .. => [base, index]
  | .storeIndexed base index _ _ value .. => [base, index, value]
  | .binop _ lhs rhs => [lhs, rhs]
  | .shiftOp _ lhs rhs .. => [lhs, rhs]
  | .binopI _ lhs _ => [lhs]
  | .bitField value .. => [value]
  | .neg v | .fneg v | .parentLocalAddr v .. => [v]
  | .fma a b c .. => [a, b, c]
  | .mulAdd a b c _ => [a, b, c]
  | .udiv128 hi lo divisor => [hi, lo, divisor]
  | .extend value .. => [value]
  | .bswap value _ | .bitCount _ value _ | .copy value _ | .fpCast _ value => [value]
  | .call _ args .. | .callExt _ args _ | .intrinsic _ args | .x86Simd _ _ args => args
  | .inlineAsm asm args =>
      (args.zipIdx.filter fun p => p.1 != noValue && !asm.isStatic p.2).map Prod.fst
  | .callIndirect target args .. => target :: args
  | .mcpy dst src .. => [dst, src]
  | .mzero dst .. => [dst]
  | .atomicRmw _ addr value .. => [addr, value]
  | .atomicStore addr value .. => [addr, value]
  | .atomicLoad addr .. => [addr]
  | .atomicCas addr expected desired .. => [addr, expected, desired]
  | .atomicCas16 addr expected desired _ => [addr, expected, desired]
  | .phi incoming _ => incoming.map Prod.snd

/-- The instruction with `g` applied to every operand `for_each_operand_mut` visits.  Unlike
`operands`, the static operands of an inline-asm statement are visited. -/
def Inst.mapOperands (g : ℕ → ℕ) : Inst → Inst
  | .aggParts desc parts fpMask => .aggParts desc (parts.map g) fpMask
  | .load addr disp kind vol align pcRel => .load (g addr) disp kind vol align pcRel
  | .store addr disp value kind vol align pcRel =>
      .store (g addr) disp (g value) kind vol align pcRel
  | .segLoad addr kind vol seg => .segLoad (g addr) kind vol seg
  | .segStore addr value kind vol seg => .segStore (g addr) (g value) kind vol seg
  | .storeLocal off disp value kind vol nsw => .storeLocal off disp (g value) kind vol nsw
  | .loadIndexed base index ext scale kind ab => .loadIndexed (g base) (g index) ext scale kind ab
  | .storeIndexed base index ext scale value kind ab =>
      .storeIndexed (g base) (g index) ext scale (g value) kind ab
  | .binop op lhs rhs => .binop op (g lhs) (g rhs)
  | .shiftOp op lhs rhs shift amount => .shiftOp op (g lhs) (g rhs) shift amount
  | .binopI op lhs k => .binopI op (g lhs) k
  | .bitField value span signed => .bitField (g value) span signed
  | .neg v => .neg (g v)
  | .fneg v => .fneg (g v)
  | .parentLocalAddr v parent index => .parentLocalAddr (g v) parent index
  | .fma a b c np na => .fma (g a) (g b) (g c) np na
  | .mulAdd a b c np => .mulAdd (g a) (g b) (g c) np
  | .udiv128 hi lo divisor => .udiv128 (g hi) (g lo) (g divisor)
  | .extend value kind nsw => .extend (g value) kind nsw
  | .bswap value width => .bswap (g value) width
  | .bitCount op value width => .bitCount op (g value) width
  | .copy value isFp => .copy (g value) isFp
  | .fpCast kind value => .fpCast kind (g value)
  | .call pc args fixed conv site => .call pc (args.map g) fixed conv site
  | .callExt b args site => .callExt b (args.map g) site
  | .intrinsic kind args => .intrinsic kind (args.map g)
  | .x86Simd op k args => .x86Simd op k (args.map g)
  | .inlineAsm asm args => .inlineAsm asm (args.map fun a => if a = noValue then a else g a)
  | .callIndirect target args v fixed conv site =>
      .callIndirect (g target) (args.map g) v fixed conv site
  | .mcpy dst src size align => .mcpy (g dst) (g src) size align
  | .mzero dst size align => .mzero (g dst) size align
  | .atomicRmw op addr value width order => .atomicRmw op (g addr) (g value) width order
  | .atomicStore addr value width order => .atomicStore (g addr) (g value) width order
  | .atomicLoad addr width order => .atomicLoad (g addr) width order
  | .atomicCas addr expected desired width order =>
      .atomicCas (g addr) (g expected) (g desired) width order
  | .atomicCas16 addr expected desired order =>
      .atomicCas16 (g addr) (g expected) (g desired) order
  | .phi incoming kind => .phi (incoming.map fun p => (p.1, g p.2)) kind
  | inst => inst

/-- Whether the instruction is a phi. -/
def Inst.isPhi : Inst → Bool
  | .phi .. => true
  | _ => false

/-- Whether the instruction only marks the end of a slot's lifetime. -/
def Inst.isLifetimeMarker : Inst → Bool
  | .lifetimeEnd _ => true
  | _ => false

/-- A basic block's terminator. -/
inductive Terminator
  | jmp (target : ℕ)
  | bz (cond : ℕ) (target fallThrough : ℕ)
  | bnz (cond : ℕ) (target fallThrough : ℕ)
  | ret (value : ℕ)
  | tailExt (binding : ℤ)
  | gotoIndirect (target : ℕ)
  | jumpTable (idx : ℕ) (table : ℕ)
  | asmGoto (table : ℕ)
  | fallThrough (target : ℕ)
  | unreachable
  deriving DecidableEq, Repr

/-- The operands of a terminator; a `void` return has none. -/
def Terminator.operands : Terminator → List ℕ
  | .bz cond .. | .bnz cond .. => [cond]
  | .gotoIndirect target => [target]
  | .jumpTable idx _ => [idx]
  | .ret v => if v = noValue then [] else [v]
  | .jmp _ | .fallThrough _ | .tailExt _ | .asmGoto _ | .unreachable => []

/-- The terminator with `g` applied to its operand. -/
def Terminator.mapOperands (g : ℕ → ℕ) : Terminator → Terminator
  | .bz cond t f => .bz (g cond) t f
  | .bnz cond t f => .bnz (g cond) t f
  | .gotoIndirect target => .gotoIndirect (g target)
  | .jumpTable idx table => .jumpTable (g idx) table
  | .ret v => .ret (if v = noValue then v else g v)
  | t => t

section

-- The equations are made here, once for all the lemmas that unfold these.
attribute [local simp] Inst.operands Inst.mapOperands Terminator.operands Terminator.mapOperands

end

lemma Inst.mapOperands_id (inst : Inst) : inst.mapOperands (fun v => v) = inst := by
  cases inst <;> simp [Inst.mapOperands]

lemma Inst.mapOperands_mapOperands {g h : ℕ → ℕ} (hg : g noValue = noValue) (inst : Inst) :
    (inst.mapOperands h).mapOperands g = inst.mapOperands fun v => g (h v) := by
  cases inst <;> simp [Inst.mapOperands]
  rename_i asm args
  intro v _
  by_cases hv : v = noValue
  · simp [hv]
  · by_cases hh : h v = noValue <;> simp [hv, hh, hg]

lemma Terminator.mapOperands_mapOperands {g h : ℕ → ℕ} (hg : g noValue = noValue)
    (t : Terminator) : (t.mapOperands h).mapOperands g = t.mapOperands fun v => g (h v) := by
  cases t <;> simp [Terminator.mapOperands]
  rename_i v
  by_cases hv : v = noValue
  · simp [hv]
  · by_cases hh : h v = noValue <;> simp [hv, hh, hg]

lemma Terminator.mapOperands_id (t : Terminator) : t.mapOperands (fun v => v) = t := by
  cases t <;> simp [Terminator.mapOperands]

/-- A half-open range of tape indices. -/
structure InstRange where
  start : ℕ
  stop : ℕ
  deriving DecidableEq, Repr

/-- The indices of a range, ascending. -/
def InstRange.toList (r : InstRange) : List ℕ := List.range' r.start (r.stop - r.start)

@[simp] lemma InstRange.mem_toList {r : InstRange} {v : ℕ} :
    v ∈ r.toList ↔ r.start ≤ v ∧ v < r.stop := by
  simp only [toList, List.mem_range'_1]
  omega

lemma InstRange.nodup_toList (r : InstRange) : r.toList.Nodup := List.nodup_range'

/-- A basic block: a range of the tape and a terminator. -/
structure Block where
  startPc : ℕ := 0
  instRange : InstRange
  terminator : Terminator
  exitAcc : ℕ := noValue
  deriving DecidableEq, Repr

instance : Inhabited Block := ⟨{ instRange := ⟨0, 0⟩, terminator := .unreachable }⟩

/-- A data slot that holds the address of a block. -/
structure LabelDataReloc where
  dataOffset : ℕ
  block : ℕ
  deriving DecidableEq, Repr

/-- A guarded region: the region around it, and the entry of its handler. -/
structure SehScope where
  parent : Option ℕ
  target : Option ℕ
  deriving DecidableEq, Repr

/-- A function in SSA form: the fields the modelled passes read. -/
structure FunctionSsa where
  name : String := ""
  insts : List Inst
  instSrc : List (ℕ × ℕ) := []
  blocks : List Block
  externCallRefs : List (ℕ × ℕ) := []
  externImmCodeRefs : List (ℕ × ℕ) := []
  externImmDataRefs : List (ℕ × ℕ) := []
  externTlsRefs : List (ℕ × ℕ) := []
  f32Values : List Bool := []
  cmp32 : List Bool := []
  div32 : List Bool := []
  lowWordTests : List Bool := []
  computedGotoTargets : List ℕ := []
  jumpTables : List (List ℕ) := []
  labelDataRelocs : List LabelDataReloc := []
  sehScopes : List SehScope := []
  blockSeh : List (Option ℕ) := []
  deriving DecidableEq

namespace FunctionSsa

/-- Whether the function has guarded regions. -/
def hasSeh (f : FunctionSsa) : Bool := !f.sehScopes.isEmpty

/-- The innermost guarded region a block lies in. -/
def sehScopeOf (f : FunctionSsa) (b : ℕ) : Option ℕ := f.blockSeh.getD b none

end FunctionSsa

end Badc
