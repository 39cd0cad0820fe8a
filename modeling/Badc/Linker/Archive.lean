import Mathlib.Data.List.DropRight
import Badc.Linker.AttributesRead

/-!
# Static-library archives

The reader and the writer of `src/c5/linker/archive.rs`.  An archive is a magic and members, each a header of 60 ASCII
bytes and a body on an even boundary; symbol indexes and the table of long names are members too.  A Rust string is the
list of its UTF-8 bytes here, and additions of 64-bit numbers that do not fit abort.
-/

namespace Badc.Archive

open Attributes (Halt Run utf8 fromUtf8)

/-- The bytes of a string. -/
abbrev Text := List Byte

/-- The bytes of an ASCII text. -/
def ascii (s : String) : Text := s.toList.map fun c => BitVec.ofNat 8 c.toNat

/-! ## Strings -/

/-- How many bytes a character takes by its first one; `0` for no first byte. -/
def charWidth (b : Byte) : ℕ :=
  if b.toNat < 0x80 then 1
  else if 0xC2 ≤ b.toNat ∧ b.toNat ≤ 0xDF then 2
  else if 0xE0 ≤ b.toNat ∧ b.toNat ≤ 0xEF then 3
  else if 0xF0 ≤ b.toNat ∧ b.toNat ≤ 0xF4 then 4
  else 0

/-- Whether a byte can be the second of a character. -/
def isSecond (first b : Byte) : Bool :=
  (if first = 0xE0 then 0xA0 else if first = 0xF0 then 0x90 else 0x80) ≤ b.toNat &&
    b.toNat ≤ (if first = 0xED then 0x9F else if first = 0xF4 then 0x8F else 0xBF)

/-- How many bytes at the front go together, and whether they are a character. -/
def chunk : Text → ℕ × Bool
  | [] => (0, true)
  | first :: rest =>
    let follow := match rest.take (charWidth first - 1) with
      | [] => 0
      | second :: rest =>
        if isSecond first second then 1 + (rest.takeWhile fun b => 0x80 ≤ b.toNat && b.toNat ≤ 0xBF).length else 0
    (1 + follow, decide (charWidth first = 1 + follow))

/-- The text with a replacement character for each malformed chunk. -/
def replaceFrom : ℕ → Text → Text
  | 0, _ => []
  | _ + 1, [] => []
  | fuel + 1, b :: bs =>
    let c := chunk (b :: bs)
    (if c.2 then (b :: bs).take c.1 else [0xEF, 0xBF, 0xBD]) ++ replaceFrom fuel ((b :: bs).drop c.1)

/-- Whether bytes are a string. -/
def isUtf8 (b : Text) : Bool := (fromUtf8 b).isSome

/-- The string of bytes, malformed ones replaced. -/
def fromUtf8Lossy (b : Text) : Text := if isUtf8 b then b else replaceFrom b.length b

/-- The characters `trim` takes off. -/
def whitespace : List Text :=
  [[0x09], [0x0A], [0x0B], [0x0C], [0x0D], [0x20], [0xC2, 0x85], [0xC2, 0xA0], [0xE1, 0x9A, 0x80]] ++
    ((List.range 11).map fun k => [0xE2, 0x80, BitVec.ofNat 8 (0x80 + k)]) ++
    [[0xE2, 0x80, 0xA8], [0xE2, 0x80, 0xA9], [0xE2, 0x80, 0xAF], [0xE2, 0x81, 0x9F], [0xE3, 0x80, 0x80]]

/-- The text without the given characters at its front. -/
def trimFront (chars : List Text) : ℕ → Text → Text
  | 0, b => b
  | fuel + 1, b =>
    match chars.find? fun c => c.isPrefixOf b with
    | none => b
    | some c => trimFront chars fuel (b.drop c.length)

/-- The text without whitespace at its ends. -/
def trim (b : Text) : Text :=
  let b := trimFront whitespace b.length b
  (trimFront (whitespace.map List.reverse) b.length b.reverse).reverse

def isDigit (b : Byte) : Bool := 48 ≤ b.toNat && b.toNat ≤ 57

/-- The number that digits spell. -/
def digitsValue (b : Text) : ℕ := b.foldl (fun n d => 10 * n + (d.toNat - 48)) 0

/-- A number as a 64-bit `usize` reads it. -/
def parseUsize (b : Text) : Option ℕ :=
  let digits := if b.head? = some 43 then b.tail else b
  if digits ≠ [] ∧ digits.all isDigit = true ∧ digitsValue digits < 2 ^ 64 then some (digitsValue digits) else none

/-- The decimal digits of a number. -/
def decimal (n : ℕ) : Text :=
  if n < 10 then [BitVec.ofNat 8 (48 + n)] else decimal (n / 10) ++ [BitVec.ofNat 8 (48 + n % 10)]
termination_by n

/-! ## Headers -/

/-- A member header. -/
structure ArHeader where
  name : Text
  date : Text
  uid : Text
  gid : Text
  mode : Text
  size : Text
  fmag : Text

def arHeaderSize : ℕ := 60

/-- Why an archive is refused. -/
inductive ArchiveError
  | missingMagic
  | headerTruncated
  | headerMagic (cursor : ℕ)
  | badField (field : Text)
  | bodyTruncated
  | badLongNameOffset (rawName : Text)
  | badInlineNameLength (field : Text)
  | inlineNameExceeds (len body : ℕ)
  | inlineNameNotUtf8
  | longNameOutOfRange
  | longNameNotTerminated
  | longNameNotUtf8
  deriving DecidableEq

/-- A sum of two 64-bit numbers. -/
def add (a b : ℕ) : Run ArchiveError ℕ := if a + b < 2 ^ 64 then .ok (a + b) else .error .panic

/-- The bytes of a blob from `i` up to `j`. -/
def slice (b : Text) (i j : ℕ) : Text := (b.drop i).take (j - i)

/-- The header at an offset. -/
def readHeader (bytes : Text) (off : ℕ) : Run ArchiveError ArHeader :=
  if bytes.length < off + arHeaderSize then .error (.err .headerTruncated)
  else
    let h := bytes.drop off
    .ok ⟨slice h 0 16, slice h 16 28, slice h 28 34, slice h 34 40, slice h 40 48, slice h 48 58, slice h 58 60⟩

/-- A header's field, as a text without the blanks behind it. -/
def trimAscii (b : Text) : Text := fromUtf8Lossy (b.rdropWhile (· == 32))

/-- The number of a header's field. -/
def parseDec (s : Text) : Run ArchiveError ℕ :=
  let s := trim s
  if s = [] then .ok 0
  else
    match parseUsize s with
    | some n => .ok n
    | none => .error (.err (.badField s))

/-! ## Reading -/

/-- Where a member's bytes live. -/
inductive MemberSource
  | inline (bytes : List Byte)
  | external (path : Text)
  deriving DecidableEq

/-- The forms of the symbol index. -/
inductive IndexForm
  | sysV (wide : Bool)
  | bsd (wide : Bool)
  deriving DecidableEq

/-- A walk over the members: the members so far with their headers' offsets, and the first symbol index. -/
structure Walk where
  cursor : ℕ
  longNames : List Byte
  members : List (Text × MemberSource × ℕ)
  index : Option (IndexForm × List Byte)

/-- A BSD member's name and what follows it in its body. -/
def splitBsdName (field : Text) (body : List Byte) : Run ArchiveError (Text × List Byte) :=
  match parseUsize (trim field) with
  | none => .error (.err (.badInlineNameLength field))
  | some len =>
    if body.length < len then .error (.err (.inlineNameExceeds len body.length))
    else
      let name := (body.take len).takeWhile (· != 0)
      if isUtf8 name then .ok (name, body.drop len) else .error (.err .inlineNameNotUtf8)

/-- Whether a name is the BSD symbol index's. -/
def isBsdSymbolIndex (name : Text) : Bool :=
  name ∈ [ascii "__.SYMDEF", ascii "__.SYMDEF SORTED", ascii "__.SYMDEF_64", ascii "__.SYMDEF_64 SORTED"]

/-- A text without a suffix, where it ends so. -/
def stripSuffix (b suffix : Text) : Option Text :=
  if suffix.isSuffixOf b then some (b.take (b.length - suffix.length)) else none

/-- A text without a prefix, where it begins so. -/
def stripPrefix (b pre : Text) : Option Text := if pre.isPrefixOf b then some (b.drop pre.length) else none

/-- The name at an offset of the table of long names. -/
def extractLongName (table : List Byte) (off : ℕ) : Run ArchiveError Text :=
  if table.length ≤ off then .error (.err .longNameOutOfRange)
  else
    match (table.drop off).findIdx? fun b => b == 10 || b == 0 with
    | none => .error (.err .longNameNotTerminated)
    | some stop =>
      let name := slice table off (off + stop)
      let name := (stripSuffix name [47]).getD name
      if isUtf8 name then .ok name else .error (.err .longNameNotUtf8)

/-- A member's name and what is left of its body. -/
def decodeName (longNames : List Byte) (rawName : Text) (body : List Byte) :
    Run ArchiveError (Text × List Byte) :=
  match stripPrefix rawName (ascii "#1/") with
  | some rest => splitBsdName rest body
  | none =>
    match stripPrefix rawName (ascii "/") with
    | some rest =>
      match parseUsize (rest.takeWhile isDigit) with
      | none => .error (.err (.badLongNameOffset rawName))
      | some offset => do return (← extractLongName longNames offset, body)
    | none => .ok ((stripSuffix rawName (ascii "/")).getD rawName, body)

/-- What the reader does with a member whose header lies at an offset. -/
def takeMember (thin : Bool) (w : Walk) (headerAt : ℕ) (rawName : Text) (body : List Byte) :
    Run ArchiveError Walk := do
  if rawName = ascii "/" ∨ rawName = ascii "/SYM64/" ∨ rawName = ascii "/<ECSYMBOLS>/" then
    return { w with
      index := if rawName ≠ ascii "/<ECSYMBOLS>/" ∧ w.index = none
        then some (.sysV (rawName == ascii "/SYM64/"), body) else w.index }
  else if rawName = ascii "//" then return { w with longNames := body }
  else
    let (name, body) ← decodeName w.longNames rawName body
    if isBsdSymbolIndex name then
      return { w with
        index := if w.index = none then some (.bsd ((ascii "__.SYMDEF_64").isPrefixOf name), body) else w.index }
    else return { w with members := w.members ++ [(name, if thin then .external name else .inline body, headerAt)] }

/-- Read the member whose header lies at the cursor. -/
def readMember (blob : List Byte) (thin : Bool) (w : Walk) : Run ArchiveError Walk := do
  let hdr ← readHeader blob w.cursor
  if hdr.fmag ≠ [0x60, 0x0A] then .error (.err (.headerMagic w.cursor))
  else
    let rawName := trimAscii hdr.name
    let size ← parseDec (trimAscii hdr.size)
    let cursor ← add w.cursor arHeaderSize
    let isMeta := rawName = ascii "/" ∨ rawName = ascii "/SYM64/" ∨ rawName = ascii "//"
    if ¬ thin ∨ isMeta then
      let stop ← add cursor size
      if blob.length < stop then .error (.err .bodyTruncated)
      else takeMember thin { w with cursor := stop } w.cursor rawName (slice blob cursor stop)
    else takeMember thin { w with cursor } w.cursor rawName []

/-- The rounds of the walk; a round reads a header, so the rounds the blob pays for are enough. -/
def walkFrom (blob : List Byte) (thin : Bool) : ℕ → Walk → Run ArchiveError Walk
  | 0, _ => .error .panic
  | fuel + 1, w =>
    if blob.length ≤ w.cursor then .ok w
    else
      let cursor := w.cursor + w.cursor % 2
      if blob.length ≤ cursor then .ok { w with cursor }
      else do walkFrom blob thin fuel (← readMember blob thin { w with cursor })

/-- Walk the members of an archive. -/
def parseArchiveMembers (blob : List Byte) : Run ArchiveError Walk :=
  let thin := blob.take 8 = ascii "!<thin>\n"
  if ¬ thin ∧ blob.take 8 ≠ ascii "!<arch>\n" then .error (.err .missingMagic)
  else walkFrom blob thin (blob.length + 1) ⟨8, [], [], none⟩

/-! ## The symbol index -/

/-- The number of `n` bytes at an offset, where there are that many. -/
def num (body : List Byte) (at_ n : ℕ) (big : Bool) : Option ℕ :=
  if at_ + n ≤ body.length then
    some (leNat (if big then (slice body at_ (at_ + n)).reverse else slice body at_ (at_ + n)) 0 n)
  else none

/-- The NUL-terminated text at an offset. -/
def cstr (body : List Byte) (at_ : ℕ) : Option Text :=
  if at_ ≤ body.length then
    ((body.drop at_).findIdx? (· == 0)).map fun stop => fromUtf8Lossy ((body.drop at_).take stop)
  else none

/-- A number that must be there. -/
def need {α : Type} (x : Option α) : Run Unit α := (x.elim (.error (.err ())) .ok)

/-- A sum or a product that must fit. -/
def fits (n : ℕ) : Option ℕ := if n < 2 ^ 64 then some n else none

/-- The sum of two 64-bit numbers. -/
def plus (a b : ℕ) : Run Unit ℕ := if a + b < 2 ^ 64 then .ok (a + b) else .error .panic

/-- The entries of a SysV index from the `k`th on, whose name lies at an offset. -/
def sysVEntries (body : List Byte) (w : ℕ) : ℕ → ℕ → ℕ → Run Unit (List (ℕ × Text))
  | 0, _, _ => .ok []
  | left + 1, k, at_ => do
    let name ← need (cstr body at_)
    let next ← plus (← plus at_ name.length) 1
    let header ← need (num body (w * (k + 1)) w true)
    return (header, name) :: (← sysVEntries body w left (k + 1) next)

/-- The entries of a BSD index from the `k`th on. -/
def bsdEntries (body : List Byte) (w strings : ℕ) : ℕ → ℕ → Run Unit (List (ℕ × Text))
  | 0, _ => .ok []
  | left + 1, k => do
    let at_ ← plus w (2 * w * k)
    let strx ← need (num body at_ w false)
    let header ← need (num body (← plus at_ w) w false)
    let name ← need ((fits (strings + strx)).bind (cstr body))
    return (header, name) :: (← bsdEntries body w strings left (k + 1))

/-- The entries of an index: the offset of a member's header and a name. -/
def indexEntries (form : IndexForm) (body : List Byte) : Run Unit (List (ℕ × Text)) :=
  match form with
  | .sysV wide => do
    let w := if wide then 8 else 4
    let count ← need (num body 0 w true)
    let at_ ← need (((fits (count + 1)).map (w * ·)).bind fits)
    sysVEntries body w count 0 at_
  | .bsd wide => do
    let w := if wide then 8 else 4
    let size ← need (num body 0 w false)
    let strings ← need (((fits (w + size)).map (· + w)).bind fits)
    bsdEntries body w strings (size / (2 * w)) 0

/-- The names an index lists for each member, by the offsets of the members' headers. -/
def memberSymbols (form : IndexForm) (body : List Byte) (headers : List ℕ) : Run Unit (List (List Text)) := do
  let entries ← indexEntries form body
  if entries = [] then .error (.err ())
  else entries.foldlM (fun out e => do
    return out.modify (← need (headers.idxOf? e.1)) (· ++ [e.2])) (List.replicate headers.length [])

/-- Whether an archive carries the index of an ARM64X library. -/
def arm64xFrom (blob : List Byte) : ℕ → ℕ → Run ArchiveError Bool
  | 0, _ => .error .panic
  | fuel + 1, at_ =>
    match readHeader blob at_ with
    | .error _ => .ok false
    | .ok h =>
      match parseDec (trimAscii h.size) with
      | .error _ => .ok false
      | .ok size =>
        let name := trimAscii h.name
        if name = ascii "/<ECSYMBOLS>/" then .ok true
        else if name = ascii "/" ∨ name = ascii "//" then do
          arm64xFrom blob fuel (← add at_ (← add (← add arHeaderSize size) (size % 2)))
        else .ok false

def isArm64xArchive (blob : List Byte) : Run ArchiveError Bool :=
  if blob.take 8 = ascii "!<arch>\n" then arm64xFrom blob (blob.length + 1) 8 else .ok false

/-! ## Writing -/

/-- A member to be written. -/
structure ArchiveMember where
  name : Text
  bytes : List Byte

/-- Bytes cut or padded with blanks to a length. -/
def padTo (n : ℕ) (b : Text) : Text := b.take n ++ List.replicate (n - b.length) 32

/-- A member's header. -/
def arHeader (nameField : Text) (size : ℕ) : List Byte :=
  padTo 16 nameField ++ padTo 12 (ascii "0") ++ padTo 6 (ascii "0") ++ padTo 6 (ascii "0") ++ padTo 8 (ascii "0") ++
    padTo 10 (decimal size) ++ [0x60, 0x0A]

/-- A member on its even boundary. -/
def writeMember (nameField : Text) (body : List Byte) : List Byte :=
  arHeader nameField body.length ++ body ++ if body.length % 2 = 0 then [] else [10]

/-- The name fields of members behind a table of long names, and the table after them. -/
def nameForms : List ArchiveMember → List Byte → List Text × List Byte
  | [], table => ([], table)
  | m :: ms, table =>
    if m.name.length ≤ 15 then
      let (forms, table) := nameForms ms table
      ((m.name ++ ascii "/") :: forms, table)
    else
      let (forms, table') := nameForms ms (table ++ m.name ++ [10])
      ((ascii "/" ++ decimal table.length) :: forms, table')

def padded (n : ℕ) : ℕ := n + n % 2

/-- A 64-bit index is padded to 8 bytes. -/
def indexSize (wide : Bool) (raw : ℕ) : ℕ := if wide then (raw + 7) / 8 * 8 else raw

/-- The offsets of the headers of members of the given sizes, the first at an offset. -/
def headersFrom (at_ : ℕ) : List ℕ → List ℕ
  | [] => []
  | size :: sizes => at_ :: headersFrom (at_ + arHeaderSize + padded size) sizes

/-- The offset of each member's header behind an index of `names` and a long-name table of `longNames` bytes. -/
def indexHeaders (names : List (ℕ × Text)) (sizes : List ℕ) (longNames : ℕ) (wide : Bool) : List ℕ :=
  let strings := (names.map fun n => n.2.length + 1).sum
  let index := indexSize wide ((if wide then 8 else 4) * (1 + names.length) + strings)
  headersFrom (8 + arHeaderSize + padded index + if 0 < longNames then arHeaderSize + padded longNames else 0) sizes

/-- Whether the index takes 64-bit offsets, and the offset of each member's header. -/
def indexLayout (names : List (ℕ × Text)) (sizes : List ℕ) (longNames : ℕ) : Bool × List ℕ :=
  let narrow := indexHeaders names sizes longNames false
  if names.all fun n => narrow.getD n.1 0 < 2 ^ 32 then (false, narrow)
  else (true, indexHeaders names sizes longNames true)

/-- A number of the index, big-endian. -/
def number (wide : Bool) (n : ℕ) : List Byte := (leBytes (if wide then 8 else 4) n).reverse

/-- The symbol index member's name and body. -/
def symbolIndex (wide : Bool) (entries : List (ℕ × Text)) : Text × List Byte :=
  let body := number wide entries.length ++ entries.flatMap (fun e => number wide e.1) ++
    entries.flatMap fun e => e.2 ++ [0]
  (ascii (if wide then "/SYM64/" else "/"), body ++ List.replicate (indexSize wide body.length - body.length) 0)

/-- The symbols with their members, in order. -/
def symbolNames (symbols : List (ℕ × List Text)) : List (ℕ × Text) := symbols.flatMap fun s => s.2.map fun n => (s.1, n)

/-- The layout of an archive. -/
def layoutOf (members : List ArchiveMember) (symbols : List (ℕ × List Text)) : Bool × List ℕ :=
  indexLayout (symbolNames symbols) (members.map (·.bytes.length)) (nameForms members []).2.length

/-- The index member of an archive. -/
def indexOf (members : List ArchiveMember) (symbols : List (ℕ × List Text)) : Text × List Byte :=
  let layout := layoutOf members symbols
  symbolIndex layout.1 ((symbolNames symbols).map fun n => (layout.2.getD n.1 0, n.2))

/-- An archive of members, with an index of the symbols listed by member. -/
def writeArchive (members : List ArchiveMember) (symbols : List (ℕ × List Text)) : List Byte :=
  let (forms, longTable) := nameForms members []
  let (indexName, index) := indexOf members symbols
  ascii "!<arch>\n" ++ writeMember indexName index ++ (if longTable = [] then [] else writeMember (ascii "//") longTable) ++
    (List.zipWith (fun m form => writeMember form m.bytes) members forms).flatten

end Badc.Archive
