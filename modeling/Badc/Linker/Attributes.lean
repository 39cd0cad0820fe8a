import Std.Data.ExtTreeMap
import Std.Data.ExtTreeSet
import Badc.Lib.Bytes

/-!
# Build attributes

An object file states build attributes in a section of vendor subsections: a format-version byte, then
subsections, each a length that covers itself, a NUL-terminated vendor name, a comprehension byte, a
value-type byte and tags with values.  A link merges the sections of its inputs tag by tag, by a rule
that the vendor chooses.
-/

namespace Badc.Attributes

/-- How a computation ends without a value: it reports an error, or it aborts the linker. -/
inductive Halt (ε : Type)
  | err (e : ε)
  | panic
  deriving DecidableEq

abbrev Run (ε : Type) := Except (Halt ε)

/-! ## Bytes -/

/-- The first `n` bytes, where there are that many. -/
def takeTo {ε : Type} (b : List Byte) (n : ℕ) : Run ε (List Byte) :=
  if n ≤ b.length then .ok (b.take n) else .error .panic

/-- What follows the first `n` bytes, where there are that many. -/
def dropTo {ε : Type} (b : List Byte) (n : ℕ) : Run ε (List Byte) :=
  if n ≤ b.length then .ok (b.drop n) else .error .panic

/-- The UTF-8 bytes of a string. -/
def utf8 (s : String) : List Byte := s.toByteArray.data.toList.map UInt8.toBitVec

/-- The string that bytes encode, if they do. -/
def fromUtf8 (b : List Byte) : Option String := String.fromUTF8? (b.map UInt8.ofBitVec).toByteArray

/-- A ULEB128 number, from what was read of it: 64 bits are kept, and a group that begins past them is
refused. -/
def readUlebFrom (v shift : ℕ) : List Byte → Option (ℕ × List Byte)
  | [] => none
  | b :: rest =>
    if 64 ≤ shift then none
    else
      let v := v ||| (b.toNat % 128) <<< shift % 2 ^ 64
      if b.toNat < 128 then some (v, rest) else readUlebFrom v (shift + 7) rest

/-- The ULEB128 number at the front of a buffer. -/
def readUleb (b : List Byte) : Option (ℕ × List Byte) := readUlebFrom 0 0 b

/-- A number in ULEB128. -/
def pushUleb (v : ℕ) : List Byte :=
  if v / 128 = 0 then [BitVec.ofNat 8 (v % 128)]
  else BitVec.ofNat 8 (v % 128 + 128) :: pushUleb (v / 128)
termination_by v

/-! ## Subsections -/

inductive Value
  | num (n : ℕ)
  | str (s : String)
  deriving DecidableEq

/-- How a subsection's tags combine across inputs. -/
inductive Rule
  /-- Bitwise AND, where an input without the tag contributes zero. -/
  | and
  /-- Every input carries the same tags and values. -/
  | matching
  deriving DecidableEq

/-- A vendor subsection. -/
structure Sub where
  optional : Bool
  ntbs : Bool
  tags : Std.ExtTreeMap ℕ Value

/-- The subsections of a section, by vendor. -/
abbrev Subs := Std.ExtTreeMap String Sub

def featureAndBits : String := "aeabi_feature_and_bits"

def pauthabi : String := "aeabi_pauthabi"

/-- The rule for a vendor. -/
def ruleFor (vendor : String) : Rule := if vendor = featureAndBits then .and else .matching

/-- The comprehension and value type the ABI defines for a vendor. -/
def abiShape (vendor : String) : Option (Bool × Bool) :=
  if vendor = featureAndBits then some (true, false)
  else if vendor = pauthabi then some (false, false)
  else none

/-! ## Reading -/

/-- Why a section is refused. -/
inductive ParseError
  | formatVersion
  | truncatedLength (off : ℕ)
  | pastSection (off len : ℕ)
  | unterminatedVendor (off : ℕ)
  | vendorNotUtf8 (off : ℕ)
  | noComprehension (vendor : String)
  | noValueType (vendor : String)
  | valueType (vendor : String) (ty : ℕ)
  | malformedTag (vendor : String)
  | unterminatedString (vendor : String)
  | stringNotUtf8 (vendor : String)
  | malformedValue (vendor : String)
  deriving DecidableEq

/-- Where the first NUL of a buffer is. -/
def position (b : List Byte) : Option ℕ := b.findIdx? fun c => c == 0

/-- The value behind a tag, and what follows it. -/
def readValue (vendor : String) (ntbs : Bool) (data : List Byte) : Run ParseError (Value × List Byte) :=
  if ntbs then
    match position data with
    | none => .error (.err (.unterminatedString vendor))
    | some e => do
      match fromUtf8 (← takeTo data e) with
      | none => .error (.err (.stringNotUtf8 vendor))
      | some s => return (.str s, ← dropTo data (e + 1))
  else
    match readUleb data with
    | none => .error (.err (.malformedValue vendor))
    | some (n, rest) => .ok (.num n, rest)

/-- The tags of a subsection with their values, in their order.  A round reads a byte at least, so the
rounds the data pays for are enough. -/
def readTags (vendor : String) (ntbs : Bool) : ℕ → List Byte → Run ParseError (List (ℕ × Value))
  | 0, _ => .ok []
  | fuel + 1, data =>
    if data = [] then .ok []
    else
      match readUleb data with
      | none => .error (.err (.malformedTag vendor))
      | some (tag, data) => do
        let (value, data) ← readValue vendor ntbs data
        let rest ← readTags vendor ntbs fuel data
        return (tag, value) :: rest

/-- A subsection as it is written, repeats included. -/
structure RawSub where
  vendor : String
  optional : Bool
  ntbs : Bool
  tags : List (ℕ × Value)

/-- The bytes of a subsection behind its length. -/
def readSub (off : ℕ) (sub : List Byte) : Run ParseError RawSub :=
  match position sub with
  | none => .error (.err (.unterminatedVendor off))
  | some nul => do
    match fromUtf8 (← takeTo sub nul) with
    | none => .error (.err (.vendorNotUtf8 off))
    | some vendor =>
      match ← dropTo sub (nul + 1) with
      | [] => .error (.err (.noComprehension vendor))
      | [_] => .error (.err (.noValueType vendor))
      | optional :: ty :: data =>
        if 1 < ty.toNat then .error (.err (.valueType vendor ty.toNat))
        else do
          let tags ← readTags vendor (ty.toNat == 1) data.length data
          return ⟨vendor, optional != 0, ty.toNat == 1, tags⟩

/-- The subsections behind an offset, in their order.  A round reads four bytes at least. -/
def readSubs : ℕ → ℕ → List Byte → Run ParseError (List RawSub)
  | 0, _, _ => .ok []
  | fuel + 1, off, rest =>
    if rest = [] then .ok []
    else if rest.length < 4 then .error (.err (.truncatedLength off))
    else
      let len := leNat rest 0 4
      if len < 4 ∨ rest.length < len then .error (.err (.pastSection off len))
      else do
        let sub ← readSub off (← dropTo (← takeTo rest len) 4)
        let subs ← readSubs fuel (off + len) (← dropTo rest len)
        return sub :: subs

/-- The format version. -/
def formatVersion : Byte := 0x41

/-- The subsections of a section, in their order. -/
def readBody (body : List Byte) : Run ParseError (List RawSub) :=
  match body with
  | [] => .error (.err .formatVersion)
  | v :: rest => if v = formatVersion then readSubs rest.length 1 rest else .error (.err .formatVersion)

/-- The tags by number; a later repeat replaces an earlier one. -/
def tagMap (tags : List (ℕ × Value)) : Std.ExtTreeMap ℕ Value :=
  tags.foldl (fun m p => m.insert p.1 p.2) ∅

/-- The subsections by vendor; a later repeat replaces an earlier one. -/
def subMap (subs : List RawSub) : Subs :=
  subs.foldl (fun m s => m.insert s.vendor ⟨s.optional, s.ntbs, tagMap s.tags⟩) ∅

/-- The subsections of a section. -/
def parse (body : List Byte) : Run ParseError Subs := subMap <$> readBody body

/-! ## Writing -/

/-- A byte that is zero or one. -/
def flagByte (b : Bool) : Byte := if b then 1 else 0

def encodeValue : Value → List Byte
  | .num n => pushUleb n
  | .str s => utf8 s ++ [0]

/-- A tag with its value. -/
def encodeTag (p : ℕ × Value) : List Byte := pushUleb p.1 ++ encodeValue p.2

/-- A subsection behind its length. -/
def subData (vendor : String) (sub : Sub) : List Byte :=
  utf8 vendor ++ [0, flagByte sub.optional, flagByte sub.ntbs] ++ sub.tags.toList.flatMap encodeTag

/-- A subsection.  Its length is written as 32 bits. -/
def encodeSub (p : String × Sub) : List Byte :=
  leBytes 4 ((subData p.1 p.2).length + 4) ++ subData p.1 p.2

/-- Subsections as a section. -/
def encode (subs : Subs) : List Byte := formatVersion :: subs.toList.flatMap encodeSub

/-! ## Merging -/

/-- The layout of a section, hence which merge rules apply. -/
inductive Format
  | aarch64
  | opaqueLayout
  deriving DecidableEq

/-- One input's section, if it has one, with the input's name. -/
abbrev Input := String × Option (List Byte)

/-- Why sections do not merge, with the inputs that are named. -/
inductive MergeError
  | parse (src : String) (e : ParseError)
  | disagrees (src first : String)
  | abiShape (src vendor : String) (optional ntbs : Bool)
  | shape (src vendor : String) (optional ntbs : Bool) (other : String) (optional' ntbs' : Bool)
  | noSubsection (src vendor holder : String)
  | holdsString (src vendor : String) (tag : ℕ)
  | differs (src vendor : String) (tag : ℕ) (v : Value) (holder : String) (want : Value)
  | noTag (src vendor : String) (tag : ℕ) (holder : String)
  deriving DecidableEq

/-- The inputs' subsections, with the inputs' names. -/
abbrev Parsed := List (String × Subs)

/-- The shape the inputs give a vendor's subsection, and the first input that carries it. -/
def shapeOf (vendor : String) : Option (String × Bool × Bool) → Parsed →
    Run MergeError (Option (String × Bool × Bool))
  | shape, [] => .ok shape
  | shape, (src, subs) :: rest =>
    match subs[vendor]? with
    | none => shapeOf vendor shape rest
    | some sub =>
      if (abiShape vendor).any fun want => want != (sub.optional, sub.ntbs) then
        .error (.err (.abiShape src vendor sub.optional sub.ntbs))
      else
        match shape with
        | none => shapeOf vendor (some (src, sub.optional, sub.ntbs)) rest
        | some (other, optional, ntbs) =>
          if (optional, ntbs) ≠ (sub.optional, sub.ntbs) then
            .error (.err (.shape src vendor sub.optional sub.ntbs other optional ntbs))
          else shapeOf vendor shape rest

/-- What an input holds of a vendor's tag. -/
def held (vendor : String) (tag : ℕ) (subs : Subs) : Option Value :=
  subs[vendor]?.bind fun s => s.tags[tag]?

/-- The AND of what the inputs hold of a tag. -/
def andTag (vendor : String) (tag : ℕ) : ℕ → Parsed → Run MergeError ℕ
  | acc, [] => .ok acc
  | acc, (src, subs) :: rest =>
    match held vendor tag subs with
    | none => andTag vendor tag (acc &&& 0) rest
    | some (.num n) => andTag vendor tag (acc &&& n) rest
    | some (.str _) => .error (.err (.holdsString src vendor tag))

/-- Every input holds the value of a tag that `holder` holds. -/
def matchTag (vendor : String) (tag : ℕ) (holder : String) (want : Value) : Parsed → Run MergeError Unit
  | [] => .ok ()
  | (src, subs) :: rest =>
    match held vendor tag subs with
    | none => .error (.err (.noTag src vendor tag holder))
    | some v =>
      if v = want then matchTag vendor tag holder want rest
      else .error (.err (.differs src vendor tag v holder want))

/-- The merged value of a tag. -/
def mergeTag (vendor : String) (parsed : Parsed) (tag : ℕ) : Run MergeError Value :=
  match ruleFor vendor with
  | .and => .num <$> andTag vendor tag (2 ^ 64 - 1) parsed
  | .matching =>
    match parsed.findSome? fun p => (held vendor tag p.2).map fun v => (p.1, v) with
    | none => .error .panic
    | some (holder, want) => (fun _ => want) <$> matchTag vendor tag holder want parsed

/-- The tags that any input holds, in order. -/
def tagsOf (vendor : String) (parsed : Parsed) : List ℕ :=
  (Std.ExtTreeSet.ofList ((parsed.filterMap fun p => p.2[vendor]?).flatMap fun s => s.tags.keys)
    compare).toList

/-- The merged subsection of a vendor. -/
def mergeSub (vendor : String) (parsed : Parsed) : Run MergeError Sub := do
  match ← shapeOf vendor none parsed with
  | none => .error .panic
  | some (holder, optional, ntbs) =>
    match if ruleFor vendor = .matching then parsed.find? fun p => p.2[vendor]?.isNone else none with
    | some (src, _) => .error (.err (.noSubsection src vendor holder))
    | none =>
      let tags ← (tagsOf vendor parsed).mapM fun tag => (fun v => (tag, v)) <$> mergeTag vendor parsed tag
      return ⟨optional, ntbs, tagMap tags⟩

/-- The vendors that any input carries, in order. -/
def vendorsOf (parsed : Parsed) : List String :=
  (Std.ExtTreeSet.ofList (parsed.flatMap fun p => p.2.keys) compare).toList

/-- The inputs' subsections; an input without the section has none. -/
def parseInputs (inputs : List Input) : Run MergeError Parsed :=
  inputs.mapM fun p =>
    match p.2 with
    | none => .ok (p.1, ∅)
    | some body =>
      match parse body with
      | .ok subs => .ok (p.1, subs)
      | .error (.err e) => .error (.err (.parse p.1 e))
      | .error .panic => .error .panic

/-- The merged subsections of the inputs. -/
def mergeParsed (parsed : Parsed) : Run MergeError Subs := do
  let subs ← (vendorsOf parsed).mapM fun vendor => (fun sub => (vendor, sub)) <$> mergeSub vendor parsed
  return subs.foldl (fun m p => m.insert p.1 p.2) ∅

/-- Merge sections of build attributes. -/
def mergeAarch64 (inputs : List Input) : Run MergeError (List Byte) := do
  return encode (← mergeParsed (← parseInputs inputs))

/-- Merge one attribute section across every input of a link; no section where no input carries one. -/
def merge (fmt : Format) (inputs : List Input) : Run MergeError (Option (List Byte)) :=
  let present := inputs.filterMap fun p => p.2.map fun b => (p.1, b)
  match present with
  | [] => .ok none
  | (firstSrc, first) :: _ =>
    -- Every input carrying the same body needs no rule to combine.
    if (present.all fun p => p.2 == first) ∧ present.length = inputs.length then .ok (some first)
    else
      match fmt with
      | .aarch64 => some <$> mergeAarch64 inputs
      | .opaqueLayout =>
        match present.find? fun p => p.2 != first with
        | some (src, _) => .error (.err (.disagrees src firstSrc))
        | none => .ok (some first)

end Badc.Attributes
