import Std.Data.ExtTreeMap
import Badc.Lib.Bytes
import Badc.Lib.Loop

/-!
# Property notes

An object file states properties in `.note.gnu.property` sections: notes of one type, each with a list
of properties, a property being a type and a payload.  A link merges the properties of its inputs, by
a rule that the type's range chooses, and writes what survives as one note.  A relocatable link and a
final link merge alike, so a note that was merged may be merged again.
-/

namespace Badc.GnuProperty

/-- The type of a note with properties. -/
def ntGnuPropertyType0 : ℕ := 5

/-- The stack a program asks for. -/
def gnuPropertyStackSize : ℕ := 1

/-- Protected symbols are not copied. -/
def gnuPropertyNoCopyOnProtected : ℕ := 2

/-- How a property type combines across inputs. -/
inductive Rule
  /-- Bitwise AND, where every input states the property. -/
  | and
  /-- Bitwise OR, where any input states it. -/
  | or
  /-- Bitwise OR, where every input states it. -/
  | orAnd
  /-- Numeric maximum, where any input states it. -/
  | max
  /-- Valueless, where any input states it. -/
  | present
  /-- No defined rule: the inputs must agree. -/
  | agree
  deriving DecidableEq

/-- Whether the rule reads the payload as a little-endian number. -/
def Rule.numeric (rule : Rule) : Bool := rule ≠ .agree ∧ rule ≠ .present

/-- The rule of a property type. -/
def ruleFor (ty : ℕ) : Rule :=
  if ty = gnuPropertyStackSize then .max
  else if ty = gnuPropertyNoCopyOnProtected then .present
  else if 0xb0000000 ≤ ty ∧ ty ≤ 0xb0007fff ∨ 0xc0000000 ≤ ty ∧ ty ≤ 0xc0007fff then .and
  else if 0xb0008000 ≤ ty ∧ ty ≤ 0xb000ffff ∨ 0xc0008000 ≤ ty ∧ ty ≤ 0xc000ffff then .or
  else if 0xc0010000 ≤ ty ∧ ty ≤ 0xc0017fff then .orAnd
  else .agree

/-- The number in the first eight bytes of a payload. -/
def readLe (data : List Byte) : ℕ := leNat data 0 (min data.length 8)

/-- A number as a payload of at most eight bytes. -/
def leBytesOf (value width : ℕ) : List Byte := leBytes (min width 8) value

/-- What has been combined for one property type. -/
structure Acc where
  rule : Rule
  data : List Byte
  seen : ℕ
  conflict : Bool
  deriving DecidableEq

/-- Combine a payload into what has been combined.  `within` folds one input's repeats of the type,
which unite rather than intersect. -/
def Acc.fold (acc : Acc) (data : List Byte) (within : Bool) : Acc :=
  let width := Nat.max acc.data.length data.length
  let a := readLe acc.data
  let b := readLe data
  match acc.rule with
  | .present => acc
  | .agree => { acc with conflict := acc.conflict || decide (acc.data ≠ data) }
  | .max => { acc with data := leBytesOf (Nat.max a b) width }
  | .and => { acc with data := leBytesOf (if within then a ||| b else a &&& b) width }
  | .or => { acc with data := leBytesOf (a ||| b) width }
  | .orAnd => { acc with data := leBytesOf (a ||| b) width }

/-- One property of a note. -/
structure Property where
  ty : ℕ
  data : List Byte
  deriving DecidableEq

/-! ## Reading notes -/

/-- The next multiple of `m`. -/
def nextMultipleOf (n m : ℕ) : ℕ := (n + (m - 1)) / m * m

/-- One property of a note's descriptor, which ends at `descEnd`: where the next one begins, and the
properties so far. -/
def propertyStep (note : List Byte) (descEnd align : ℕ) (s : ℕ × List Property) :
    Option (ℕ × List Property) :=
  let (d, out) := s
  if d + 8 ≤ descEnd then
    let ty := leNat note d 4
    let dsz := leNat note (d + 4) 4
    if descEnd < d + 8 + dsz then none
    else
      some (d + (8 + nextMultipleOf dsz align), out ++ [⟨ty, (note.drop (d + 8)).take dsz⟩])
  else none

/-- The name of the notes that hold properties, up to its terminator. -/
def gnuName : List Byte := [0x47, 0x4e, 0x55]

/-- One note of a section: where the next one begins, and the properties so far. -/
def noteStep (note : List Byte) (align : ℕ) (s : ℕ × List Property) :
    Option (ℕ × List Property) :=
  let (off, out) := s
  if off + 12 ≤ note.length then
    let namesz := leNat note off 4
    let descsz := leNat note (off + 4) 4
    let ntype := leNat note (off + 8) 4
    let nameEnd := off + 12 + nextMultipleOf namesz 4
    let descEnd := nameEnd + descsz
    if note.length < descEnd then none
    else
      some (nextMultipleOf descEnd 4,
        if ntype = ntGnuPropertyType0 ∧ 4 ≤ namesz ∧ (note.drop (off + 12)).take 3 = gnuName then
          (whileSome (propertyStep note descEnd align) note.length (nameEnd, out)).2
        else out)
  else none

/-- The properties of every property note of a section.  Each round of the two loops goes on by at
least one byte. -/
def properties (note : List Byte) (align : ℕ) : List Property :=
  (whileSome (noteStep note align) note.length (0, [])).2

/-! ## Merging -/

/-- What has been combined, by property type. -/
abbrev Accs := Std.ExtTreeMap ℕ Acc

/-- The property notes of an input, one body for each section.  An input without such a section has
none. -/
abbrev Input := List (List Byte)

/-- Whether the payload fits its type: a number has at most eight bytes. -/
def Property.admitted (p : Property) : Bool := !((ruleFor p.ty).numeric && decide (8 < p.data.length))

/-- A property an input states, added to what the input stated before. -/
def addStated (own : Accs) (p : Property) : Accs :=
  if p.admitted then
    own.alter p.ty fun
      | some acc => some (acc.fold p.data true)
      | none => some ⟨ruleFor p.ty, p.data, 1, false⟩
  else own

/-- What one input states. -/
def ownAccs (align : ℕ) (notes : Input) : Accs :=
  notes.foldl (fun own note => (properties note align).foldl addStated own) ∅

/-- What one input states of a type, combined with what the inputs before it stated. -/
def addOwn (accs : Accs) (o : ℕ × Acc) : Accs :=
  accs.alter o.1 fun
    | some acc =>
      let acc := acc.fold o.2.data false
      some { acc with conflict := acc.conflict || o.2.conflict, seen := acc.seen + 1 }
    | none => some o.2

/-- What all the inputs state. -/
def mergeAccs (inputs : List Input) (align : ℕ) : Accs :=
  inputs.foldl (fun accs notes => (ownAccs align notes).toList.foldl addOwn accs) ∅

/-- Whether a combined property is written.  A property every input must claim is withheld by an input
that does not, and an all-zero bit set claims nothing. -/
def Acc.survives (nInputs : ℕ) (a : Acc) : Bool :=
  match a.rule with
  | .and | .orAnd => a.seen = nInputs ∧ readLe a.data ≠ 0
  | .or => readLe a.data ≠ 0
  | .max | .present => true
  | .agree => a.seen = nInputs ∧ !a.conflict

/-- The merged properties of the inputs, by type. -/
def merge (inputs : List Input) (align : ℕ) : List Property :=
  ((mergeAccs inputs align).toList.filter fun p => p.2.survives inputs.length).map
    fun p => ⟨p.1, p.2.data⟩

/-! ## Writing the merged note -/

/-- A buffer filled up with zeros to a multiple of the alignment. -/
def padTo (align : ℕ) (desc : List Byte) : List Byte :=
  desc ++ List.replicate (nextMultipleOf desc.length align - desc.length) 0

/-- The descriptor that holds the properties.  A payload's length is written as 32 bits. -/
def encodeDesc (props : List Property) (align : ℕ) : List Byte :=
  props.foldl (fun desc p =>
    padTo align (desc ++ leBytes 4 p.ty ++ leBytes 4 p.data.length ++ p.data)) []

/-- Properties as a section body of one note.  The descriptor's length is written as 32 bits. -/
def encode (props : List Property) (align : ℕ) : List Byte :=
  let desc := encodeDesc props align
  leBytes 4 4 ++ leBytes 4 desc.length ++ leBytes 4 ntGnuPropertyType0 ++ (gnuName ++ [0]) ++ desc

/-- The merged section body of the inputs, where anything survives. -/
def mergeSection (inputs : List Input) (align : ℕ) : Option (List Byte) :=
  let props := merge inputs align
  if props ≠ [] then some (encode props align) else none

end Badc.GnuProperty
