import Badc.Ir.Inst
import Badc.Lib.Bytes
import Mathlib.Data.List.Sort

/-!
# The data of a compiled unit

The parts of `Program` and `Symbol` (`src/c5/program.rs`, `src/c5/symbol.rs`) that say what the
unit's data holds: its image, the objects in it, and the slots that receive an address when the
unit is linked.
-/

namespace Badc

/-- An integer as a signed 64-bit register holds it. -/
def i64 (x : ℤ) : ℤ := (BitVec.ofInt 64 x).toInt

@[simp] lemma ofInt_i64 (x : ℤ) : BitVec.ofInt 64 (i64 x) = BitVec.ofInt 64 x := BitVec.ofInt_toInt

/-- Linkage of an identifier. -/
inductive Linkage
  | none | internal | external
  deriving DecidableEq

/-- ELF symbol visibility other than the default. -/
inductive SymVisibility
  | internal | hidden | prot
  deriving DecidableEq

/-- What a symbol's name is bound to; `unbound` once its scope is left. -/
inductive SymClass
  | unbound | glo | func | other
  deriving DecidableEq

/-- A symbol, as far as the unit's data goes. -/
structure Symbol where
  name : String
  /-- The name an `asm("...")` label gives. -/
  asmName : Option String := none
  symClass : SymClass := .glo
  linkage : Linkage := .external
  visibility : Option SymVisibility := none
  /-- The offset of the object in the unit's data. -/
  val : ℤ := 0
  reservedDataBytes : ℤ := 0
  storageIsConst : Bool := false
  hasInitializer : Bool := false
  definedHere : Bool := false
  isThreadLocal : Bool := false
  runtimeInitialized : Bool := false
  isWeak : Bool := false
  isAlias : Bool := false
  isExternDecl : Bool := false
  scopedFnDecl : Bool := false
  deriving DecidableEq

namespace Symbol

/-- The name the linker knows. -/
def linkName (s : Symbol) : String := s.asmName.getD s.name

/-- A definition a strong one in another unit overrides at link time. -/
def isWeakDefinition (s : Symbol) : Bool := s.isWeak && s.definedHere && s.linkage = .external

/-- Whether the symbol denotes a function. -/
def isFunEntity (s : Symbol) : Bool := s.symClass = .func || s.symClass = .unbound && s.scopedFnDecl

/-- A definition another component's may preempt. -/
def isInterposableDefinition (s : Symbol) : Bool :=
  s.definedHere && s.linkage = .external && s.visibility.isNone && !s.isAlias && !s.isThreadLocal &&
    !s.name.isEmpty && (s.isFunEntity || s.symClass = .glo)

end Symbol

/-- A slot that receives the address of an object of the unit's data. -/
structure DataReloc where
  dataOffset : ℕ
  targetOffset : ℕ
  /-- Start of the object `targetOffset` points into. -/
  targetAnchor : ℕ
  /-- The symbol of the object the anchor starts. -/
  targetSym : Option ℕ := none
  deriving DecidableEq

/-- A slot that receives the address of a data symbol, by name. -/
structure ExternDataReloc where
  dataOffset : ℕ
  symbolName : String
  addend : ℤ
  deriving DecidableEq

/-- A slot that receives the address of a function. -/
structure CodeReloc where
  dataOffset : ℕ
  targetEntPc : ℕ
  addend : ℤ
  deriving DecidableEq

/-- A function's entry and the data slots that receive addresses of its labels. -/
structure FinishedFunction where
  entPc : ℕ
  labelDataSlots : List ℕ
  deriving DecidableEq

/-- A compiled unit, as far as its data goes. -/
structure Program where
  data : List Byte
  symbols : List Symbol := []
  /-- Ranges of anonymous immutable data: string literals and the like. -/
  constDataRanges : List (ℤ × ℤ) := []
  dataRelocs : List DataReloc := []
  externDataRelocs : List ExternDataReloc := []
  codeRelocs : List CodeReloc := []
  finishedFunctions : List FinishedFunction := []
  /-- The entry and the binding of each library trampoline. -/
  sysTrampolines : List (ℕ × ℤ) := []
  bindTrampolineSlots : Bool := false
  /-- References name a weak definition by its symbol. -/
  weakRefsByName : Bool := false
  /-- References name an interposable definition by its symbol. -/
  interposableRefs : Bool := false
  deriving DecidableEq

namespace Program

variable (P : Program)

/-- The slots that receive label addresses, with the entry of their function. -/
def labelDataSlots : List (ℕ × ℕ) :=
  P.finishedFunctions.flatMap fun f => f.labelDataSlots.map fun off => (off, f.entPc)

/-- The binding a data slot naming the function at `entPc` is bound to. -/
def boundTrampoline (entPc : ℕ) : Option ℤ :=
  if !P.bindTrampolineSlots then none
  else (P.sysTrampolines.find? fun t => t.1 = entPc).map Prod.snd

/-- Every data offset a slot value is written into after the image is staged. -/
def dataRelocOffsets : List ℤ :=
  (P.dataRelocs.map (fun r => i64 r.dataOffset) ++ P.codeRelocs.map (fun r => i64 r.dataOffset) ++
    P.externDataRelocs.map (fun r => i64 r.dataOffset) ++
    P.labelDataSlots.map fun s => i64 s.1).insertionSort (· ≤ ·)

end Program

end Badc
