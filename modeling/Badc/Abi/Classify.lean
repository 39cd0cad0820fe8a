import Badc.Types.Struct
import Mathlib.Data.List.DropRight

/-!
# Classification of aggregates

`abi_classify.rs`: how an aggregate is passed or returned on the host ABIs, from its size, the byte
ranges and kinds of its leaves, and the homogeneous aggregate it forms.
-/

namespace Badc.Abi

/-- The kind of a leaf. -/
inductive ScalarKind
  | int
  | f32
  | f64
  /-- An x87 `long double` in 16 bytes. -/
  | f80
  | f128
  /-- A vector at a width the conventions name. -/
  | vector
  deriving DecidableEq

/-- The leaf is a floating-point scalar. -/
def ScalarKind.isFpScalar : ScalarKind → Bool
  | .f32 | .f64 | .f80 | .f128 => true
  | _ => false

/-- A leaf of an aggregate. -/
structure FlatField where
  offset : ℕ
  size : ℕ
  kind : ScalarKind
  /-- The boundary that the System V classification requires of the offset. -/
  align : ℕ
  singleFpVector : Bool
  deriving DecidableEq

/-- A leaf of this kind and width is the base type of a homogeneous aggregate. -/
def isBase : ScalarKind → ℕ → Bool
  | .f32, w => w == 4
  | .f64, w => w == 8
  | .f128, w => w == 16
  | .vector, w => w == 8 || w == 16
  | _, _ => false

/-- One to four elements of one base type. -/
structure HomogeneousAggregate where
  kind : ScalarKind
  width : ℕ
  count : ℕ
  base : isBase kind width = true
  count_pos : 0 < count
  count_le : count ≤ 4
  deriving DecidableEq

/-- The homogeneous aggregate of so many elements, where there is one. -/
def HomogeneousAggregate.new (kind : ScalarKind) (width count : ℕ) : Option HomogeneousAggregate :=
  if h : isBase kind width = true ∧ 0 < count ∧ count ≤ 4 then
    some ⟨kind, width, count, h.1, h.2.1, h.2.2⟩
  else none

/-- The register class of a slot. -/
inductive RegClass
  | integer
  | sse
  /-- A whole 16-byte vector register. -/
  | vector
  /-- The top of the x87 register stack. -/
  | x87
  /-- An eightbyte no field overlaps. -/
  | noClass
  deriving DecidableEq

/-- A 16-byte element fills a vector register. -/
def HomogeneousAggregate.regClass (h : HomogeneousAggregate) : RegClass :=
  if h.width = 16 then .vector else .sse

/-- How an aggregate is passed or returned. -/
inductive AggClass
  | regs (classes : List RegClass)
  | byRef
  | byStack
  | returnIndirect
  deriving DecidableEq

/-- What the classification reads of an aggregate. -/
structure AggDesc where
  size : ℕ
  align : ℕ
  memberAlign : ℕ
  fields : List FlatField
  homogeneous : Option HomogeneousAggregate
  vector : Bool
  deriving DecidableEq

inductive Arch
  | x86_64
  | aarch64
  deriving DecidableEq

/-- What the classification reads of an ABI. -/
structure AbiRow where
  arch : Arch
  positionIndexedArgs : Bool
  deriving DecidableEq

/-- The ABI of a target. -/
def abiOf : Target → AbiRow
  | .macOSAarch64 | .linuxAarch64 | .windowsAarch64 => ⟨.aarch64, false⟩
  | .linuxX64 => ⟨.x86_64, false⟩
  | .windowsX64 => ⟨.x86_64, true⟩

/-- Win64: an aggregate of 1, 2, 4 or 8 bytes goes in a register. -/
def classifyWin64 (size : ℕ) (isReturn : Bool) : AggClass :=
  if size = 1 ∨ size = 2 ∨ size = 4 ∨ size = 8 then .regs [.integer]
  else if isReturn then .returnIndirect
  else .byRef

/-! ## System V -/

/-- The class of an eightbyte while the fields overlapping it merge. -/
inductive Eightbyte
  | noClass
  | integer
  | sse
  | sseUp
  | x87
  | x87Up
  | memory
  deriving DecidableEq

/-- Merge two classes. -/
def Eightbyte.merge (a b : Eightbyte) : Eightbyte :=
  if a = b then a
  else match a, b with
    | .noClass, c | c, .noClass => c
    | .memory, _ | _, .memory => .memory
    | .integer, _ | _, .integer => .integer
    | .x87, _ | .x87Up, _ | _, .x87 | _, .x87Up => .memory
    | _, _ => .sse

/-- The class a field gives to an eightbyte; `high` says it is not the field's first one. -/
def FlatField.eightbyte (f : FlatField) (high : Bool) : Eightbyte :=
  match f.kind with
  | .int => .integer
  | .f80 => if high then .x87Up else .x87
  | .vector | .f128 => if high then .sseUp else .sse
  | _ => .sse

/-- The class of the eightbyte from `lo` on. -/
def eightbyteAt (fields : List FlatField) (lo : ℕ) : Eightbyte :=
  fields.foldl
    (fun eb f =>
      if lo + 8 ≤ f.offset ∨ f.offset + f.size ≤ lo then eb
      else eb.merge (f.eightbyte (decide (f.offset < lo))))
    .noClass

/-- An x87 class without its other half. -/
def strayX87 (eightbytes : List Eightbyte) : Bool :=
  let x87Pair := fun k => eightbytes[k]? == some .x87 && eightbytes[k + 1]? == some .x87Up
  (List.range eightbytes.length).any fun k =>
    match eightbytes[k]? with
    | some .x87 => !x87Pair k
    | some .x87Up => k == 0 || !x87Pair (k - 1)
    | _ => false

/-- The register slots of eightbytes.  Classes sent to memory do not come here. -/
def slots : List Eightbyte → List RegClass
  | [] => []
  | .sse :: .sseUp :: rest => .vector :: slots rest
  | .x87 :: _ :: rest => .x87 :: slots rest
  | [.x87] => [.x87]
  | .integer :: rest => .integer :: slots rest
  | .noClass :: rest => .noClass :: slots rest
  | .sse :: rest | .sseUp :: rest => .sse :: slots rest
  | .x87Up :: rest | .memory :: rest => slots rest

/-- System V AMD64. -/
def classifySysv (size : ℕ) (fields : List FlatField) (isReturn : Bool) : AggClass :=
  let memory := if isReturn then .returnIndirect else .byStack
  if size = 0 then .regs []
  else if 16 < size ∨
      (fields.any fun f => f.singleFpVector || f.offset % max f.align 1 != 0) = true then memory
  else
    let eightbytes := (List.range ((size + 7) / 8)).map fun k => eightbyteAt fields (8 * k)
    if .memory ∈ eightbytes ∨ strayX87 eightbytes = true ∨ (isReturn = false ∧ .x87 ∈ eightbytes) then
      memory
    else .regs ((slots eightbytes).rdropWhile fun c => c == .noClass)

/-! ## AAPCS64 -/

/-- The width of an aggregate that is one vector and nothing else. -/
def soleVectorWidth (size : ℕ) : List FlatField → Option ℕ
  | [f] => if f.kind = .vector ∧ f.offset = 0 ∧ f.size = size then some size else none
  | _ => none

/-- The register class of a vector. -/
def vectorRegClass (width : ℕ) : Option RegClass :=
  if width = 16 then some .vector else if width = 8 then some .sse else none

/-- The conventions have a rule for vectors of this width. -/
def isAbiVectorWidth (width : ℕ) : Bool := (vectorRegClass width).isSome

/-- A vector narrower than the short vectors. -/
def isNarrowVector (desc : AggDesc) : Bool := desc.vector && decide (desc.size < 8)

/-- AAPCS64, on all AArch64 targets. -/
def classifyAapcs64 (desc : AggDesc) (isReturn : Bool) : AggClass :=
  match desc.homogeneous with
  | some hfa => .regs (List.replicate hfa.count hfa.regClass)
  | none =>
    if desc.size = 0 then .regs []
    else
      match (soleVectorWidth desc.size desc.fields).bind vectorRegClass with
      | some c => .regs [c]
      | none =>
        if isReturn && isNarrowVector desc then .regs [.sse]
        else if desc.size ≤ 16 then .regs (List.replicate ((desc.size + 7) / 8) .integer)
        else if isReturn then .returnIndirect
        else .byRef

/-- Classify an aggregate for an ABI, as a return value or an argument. -/
def classifyAggregate (desc : AggDesc) (abi : AbiRow) (isReturn : Bool) : AggClass :=
  if abi.arch = .x86_64 then
    if abi.positionIndexedArgs then classifyWin64 desc.size isReturn
    else classifySysv desc.size desc.fields isReturn
  else classifyAapcs64 desc isReturn

/-! ## What a class says of the size -/

/-- System V passes no argument by reference. -/
lemma classifySysv_ne_byRef (size : ℕ) (fields : List FlatField) (isReturn : Bool) :
    classifySysv size fields isReturn ≠ .byRef := by
  unfold classifySysv
  dsimp only
  split
  · simp
  · split
    · split <;> simp
    · split
      · split <;> simp
      · simp

/-- A vector that fills an aggregate of more than 16 bytes has no register class. -/
lemma soleVector_eq_none {size : ℕ} (hsize : 16 < size) (fields : List FlatField) :
    (soleVectorWidth size fields).bind vectorRegClass = none := by
  have hclass : vectorRegClass size = none := by
    unfold vectorRegClass
    rw [if_neg (by omega), if_neg (by omega)]
  unfold soleVectorWidth
  split
  · split
    · exact hclass
    · rfl
  · rfl

/-- AAPCS64 leaves registers for an aggregate of more than 16 bytes that is not homogeneous, and for no
other one. -/
lemma classifyAapcs64_eq (desc : AggDesc) (isReturn : Bool) :
    classifyAapcs64 desc isReturn = (if isReturn then .returnIndirect else .byRef) ↔
      desc.homogeneous = none ∧ 16 < desc.size := by
  unfold classifyAapcs64
  cases hhom : desc.homogeneous with
  | some hfa => cases isReturn <;> simp
  | none =>
    by_cases hsize : 16 < desc.size
    · have hnarrow : isNarrowVector desc = false := by
        unfold isNarrowVector
        rw [decide_eq_false (by omega), Bool.and_false]
      dsimp only
      rw [if_neg (by omega), soleVector_eq_none hsize]
      dsimp only
      rw [hnarrow, Bool.and_false, if_neg (by simp), if_neg (by omega)]
      simp [hsize]
    · simp only [true_and, hsize, iff_false]
      split
      · cases isReturn <;> simp
      · split
        · cases isReturn <;> simp
        · split
          · cases isReturn <;> simp
          · rw [if_pos (by omega)]
            cases isReturn <;> simp

end Badc.Abi
