import Badc.Lib.Descent
import Badc.Ir.Inst

/-!
# Aggregates

The struct table of a translation unit: for every aggregate its size and alignment, its members with
their offsets, its unnamed bit-fields, and the members promoted from anonymous aggregates.  A type is a
pointer, a scalar or an aggregate of the table; an aggregate is complete before another one holds it,
so that nesting goes down in rank.
-/

namespace Badc

/-! ## Targets -/

inductive Target
  | macOSAarch64
  | linuxAarch64
  | linuxX64
  | windowsX64
  | windowsAarch64
  deriving DecidableEq

inductive LongDoubleKind
  | f64
  | x87
  | binary128
  deriving DecidableEq

/-- Object size in bytes. -/
def LongDoubleKind.size : LongDoubleKind → ℕ
  | .f64 => 8
  | .x87 | .binary128 => 16

/-- The format of `long double`. -/
def Target.longDouble : Target → LongDoubleKind
  | .linuxX64 => .x87
  | .linuxAarch64 => .binary128
  | .macOSAarch64 | .windowsX64 | .windowsAarch64 => .f64

def Target.isWindows : Target → Bool
  | .windowsX64 | .windowsAarch64 => true
  | _ => false

def Target.isAarch64 : Target → Bool
  | .macOSAarch64 | .linuxAarch64 | .windowsAarch64 => true
  | _ => false

/-- The target whose ABI row a convention selects.  Off x86-64 the conventions are inert. -/
def Target.abiRow : Target → CallConv → Target
  | .linuxX64, .ms | .windowsX64, .ms => .windowsX64
  | .linuxX64, .sysV | .windowsX64, .sysV => .linuxX64
  | t, _ => t

/-! ## Types -/

inductive Scalar
  | bool | char | short | int | long | longLong | float | double | longDouble
  deriving DecidableEq

/-- The type of a member: a pointer, a scalar, or an aggregate of the table. -/
inductive Ty
  | pointer
  | scalar (s : Scalar)
  | struct (id : ℕ)
  deriving DecidableEq

/-- Byte width of a scalar or pointer. -/
def flatScalarSize (ty : Ty) (target : Target) : ℕ :=
  match ty with
  | .scalar .longDouble => target.longDouble.size
  | .scalar .bool | .scalar .char => 1
  | .scalar .short => 2
  | .scalar .int | .scalar .float => 4
  | .scalar .long => if target.isWindows then 4 else 8
  | _ => 8

/-- A member.  A bit-field has a width; its offset is that of its access unit. -/
structure StructField where
  offset : ℕ
  ty : Ty
  /-- The element count of an array, 0 for none, -1 for a flexible or zero-length array. -/
  arraySize : ℤ
  zeroLen : Bool
  bitOffset : ℕ
  bitWidth : ℕ
  bitUnitSize : ℕ
  explicitAlign : ℕ
  typeAlign : ℕ
  align : ℕ
  deriving DecidableEq

/-- An unnamed bit-field; `before` is the index of the next named member. -/
structure AnonBitfield where
  before : ℕ
  width : ℕ
  unit : ℕ
  align : ℕ
  explicitAlign : ℕ
  typeAlign : ℕ
  bitStart : ℕ
  deriving DecidableEq

/-- A member promoted from an anonymous aggregate: its entries in the list of members, its place and
size, and the aggregate. -/
structure AnonMember where
  first : ℕ
  count : ℕ
  offset : ℕ
  size : ℕ
  inner : ℕ
  deriving DecidableEq

/-- An aggregate. -/
structure StructDef where
  size : ℕ
  align : ℕ
  explicitAlign : ℕ
  naturalAlign : ℕ
  memberAlign : ℕ
  fields : List StructField
  anonBitfields : List AnonBitfield
  anonMembers : List AnonMember
  isUnion : Bool
  isVector : Bool
  deriving DecidableEq

/-- A tag without its body. -/
def StructDef.incomplete : StructDef := ⟨0, 1, 0, 0, 0, [], [], [], false, false⟩

/-- The aggregates that the members of an aggregate have as types. -/
def StructDef.holds (sd : StructDef) : List ℕ :=
  (sd.fields.filterMap fun f => match f.ty with
    | .struct id => some id
    | _ => none) ++ sd.anonMembers.map AnonMember.inner

/-- A table of complete aggregates: an aggregate holds only aggregates of lower rank. -/
structure StructTable where
  defs : List StructDef
  rank : ℕ → ℕ
  rank_le : ∀ id, rank id ≤ defs.length
  rank_lt : ∀ id, ∀ inner ∈ (defs.getD id .incomplete).holds, rank inner < rank id

/-- An aggregate of the table. -/
def StructTable.at (structs : StructTable) (id : ℕ) : StructDef := structs.defs.getD id .incomplete

/-- Compute a function of aggregates that calls itself on the aggregates they hold. -/
def StructTable.descend {β : Type} (structs : StructTable) (body : (ℕ → β) → StructDef → β)
    (bottom : β) (id : ℕ) : β :=
  Badc.descend (fun self id => body self (structs.at id)) bottom (structs.defs.length + 1) id

/-- The function satisfies its equation, where it only calls itself on aggregates that are held. -/
theorem StructTable.descend_eq {β : Type} (structs : StructTable) {body : (ℕ → β) → StructDef → β}
    {bottom : β}
    (hbody : ∀ f g sd, (∀ inner ∈ sd.holds, f inner = g inner) → body f sd = body g sd) (id : ℕ) :
    structs.descend body bottom id = body (structs.descend body bottom) (structs.at id) := by
  have hdepth : ∀ id, structs.rank id < structs.defs.length + 1 := fun id =>
    Nat.lt_succ_of_le (structs.rank_le id)
  have hcalls : ∀ (f g : ℕ → β) (id : ℕ), (∀ inner, inner ∈ (structs.at id).holds →
      f inner = g inner) → body f (structs.at id) = body g (structs.at id) :=
    fun f g id h => hbody f g (structs.at id) h
  exact Badc.descend_eq hcalls structs.rank_lt hdepth id

end Badc
