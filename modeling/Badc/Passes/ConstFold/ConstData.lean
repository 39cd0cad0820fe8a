import Badc.Ir.Program
import Badc.Ssa.Memory

/-!
# Constant data

The ranges of constant objects in a unit's data, of
`src/c5/codegen/passes/const_global_fold.rs`.

What the linked program holds is said by `Program.Loaded`: each slot the address the object writer
has the linker put there (`data_target_ref` of `src/c5/object/elf_reloc.rs`), each other byte of the
image itself, and zero in a constant object past the image.
-/

namespace Badc

namespace Symbol

/-- A constant object whose image is its value. -/
def isConstObject (s : Symbol) : Bool :=
  s.symClass = .glo && s.storageIsConst && s.hasInitializer && s.definedHere &&
    decide (0 < s.reservedDataBytes) && !s.isThreadLocal && !s.runtimeInitialized && !s.isWeak

end Symbol

namespace Program

variable (P : Program)

/-- The ranges of constant objects and of anonymous immutable data. -/
def constIntervals : List (ℤ × ℤ) :=
  (P.symbols.filter Symbol.isConstObject).map (fun s => (s.val, s.val + s.reservedDataBytes)) ++
    P.constDataRanges

end Program

/-! ## What the linked program holds -/

/-- Where the link puts a unit's data, the definitions names are bound to, functions and imports. -/
structure Link where
  data : Word
  name : String → Word
  code : ℕ → Word
  imported : ℤ → Word

namespace Program

variable (P : Program) (L : Link)

/-- The name of a symbol of the unit. -/
def symName (i : ℕ) : String := ((P.symbols[i]?).map Symbol.linkName).getD ""

/-- Whether the object writer has a reference to the symbol name it. -/
def named (s : Symbol) : Bool :=
  P.weakRefsByName && s.isWeakDefinition || P.interposableRefs && s.isInterposableDefinition

/-- The address the object writer has a slot with an object of the unit's data receive: by the
object's symbol where references name it, by its place in the data elsewhere. -/
def dataTarget (r : DataReloc) : Word :=
  match r.targetSym.filter fun i => (P.symbols[i]?).any P.named with
  | some i => Mem.offset (L.name (P.symName i)) ((r.targetOffset : ℤ) - r.targetAnchor)
  | none => Mem.offset L.data r.targetOffset

/-- The address a slot with a function receives. -/
def codeTarget (r : CodeReloc) : Word :=
  Mem.offset (match P.boundTrampoline r.targetEntPc with
    | some binding => L.imported binding
    | none => L.code r.targetEntPc) r.addend

/-- A byte of a constant object. -/
def ConstByte (o : ℤ) : Prop := ∃ i ∈ P.constIntervals, i.1 ≤ o ∧ o < i.2

/-- A byte of a slot that receives an address. -/
def SlotByte (o : ℤ) : Prop := ∃ r ∈ P.dataRelocOffsets, r ≤ o ∧ o < r + 8

/-- Memory holds the unit's data as linked: each slot its address, each other byte of the image, and
zero in a constant object past it. -/
structure Loaded (mem : Mem) : Prop where
  dataReloc : ∀ r ∈ P.dataRelocs,
    mem.read (Mem.offset L.data r.dataOffset) 8 = (P.dataTarget L r).toNat
  externDataReloc : ∀ r ∈ P.externDataRelocs, mem.read (Mem.offset L.data r.dataOffset) 8 =
    (Mem.offset (L.name r.symbolName) r.addend).toNat
  codeReloc : ∀ r ∈ P.codeRelocs,
    mem.read (Mem.offset L.data r.dataOffset) 8 = (P.codeTarget L r).toNat
  image : ∀ (o : ℕ) x, P.data[o]? = some x → ¬ P.SlotByte o → mem (Mem.offset L.data o) = x
  pastImage : ∀ o : ℤ, P.ConstByte o → P.data.length ≤ o → ¬ P.SlotByte o →
    mem (Mem.offset L.data o) = 0

end Program

end Badc
