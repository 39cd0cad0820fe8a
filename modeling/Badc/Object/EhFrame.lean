import Badc.Lib.Checked
import Badc.Lib.WordBuffer

/-!
# The unwind table

`eh_frame.rs`: the walks over the records of an `.eh_frame` section, and the binary-search table of
`.eh_frame_hdr` built from it.  A section is a list of length-prefixed records: a CIE, whose id is 0, and
the FDEs that name one by the distance back to it.

A computation ends with a value, with an error, or in a panic.  Indices of a slice are mathematical
numbers where they only step through it; the sums of a position or an address with what the section says
are checked.
-/

namespace Badc.EhFrame

/-! ## Results -/

/-- What the readers reject. -/
inductive EhError
  | truncatedCie
  | version (v : Byte)
  | truncatedCodeAlignment
  | truncatedDataAlignment
  | truncatedReturnColumn
  | truncatedAugmentation
  | pastCie
  | truncatedPersonality
  | personalityEncoding
  | augmentation (c : Byte)
  | truncatedLength
  | wideEntry
  | lengthOverflows
  | pastSection
  | truncatedId
  | outsideSection
  | noLocation
  | pointerEncoding (enc : Byte)
  | outOfRange (dst src : ℕ)
  deriving DecidableEq

/-- How a computation ends without a value. -/
inductive Halt
  | panic
  | error (e : EhError)
  deriving DecidableEq

/-- A computation of the readers. -/
abbrev Run (α : Type) : Type := Except Halt α

/-- A sum in an unsigned type of `w` bits. -/
def add (w a b : ℕ) : Run ℕ := if a + b < 2 ^ w then pure (a + b) else throw .panic

/-- A value that is there, or else an error. -/
def okOr {α : Type} (e : EhError) : Option α → Run α
  | some a => pure a
  | none => throw (.error e)

/-- An error, where a condition holds. -/
def reject (e : EhError) (p : Prop) [Decidable p] : Run Unit := if p then throw (.error e) else pure ()

/-! ## Fields -/

/-- The pointer encodings of a CIE. -/
def dwEhPeOmit : Byte := 0xff
def dwEhPeAbsptr : Byte := 0x00
def dwEhPeUdata2 : Byte := 0x02
def dwEhPeUdata4 : Byte := 0x03
def dwEhPeUdata8 : Byte := 0x04
def dwEhPeSdata2 : Byte := 0x0a
def dwEhPeSdata4 : Byte := 0x0b
def dwEhPeSdata8 : Byte := 0x0c
def dwEhPePcrel : Byte := 0x10
def dwEhPeDatarel : Byte := 0x30

/-- The number in the `n` bytes from an index on. -/
def leAt (b : List Byte) (i n : ℕ) : Option ℕ := if i + n ≤ b.length then some (leNat b i n) else none

/-- The 32-bit number at an index. -/
def u32At (b : List Byte) (i : ℕ) : Option ℕ := leAt b i 4

/-- Read the bytes of a ULEB128 number: the number and the index behind it. -/
def ulebFrom (short : EhError) : List Byte → ℕ → ℕ → ℕ → Run (ℕ × ℕ)
  | [], _, _, _ => throw (.error short)
  | byte :: rest, i, v, shift =>
    if 64 ≤ shift ∧ byte &&& 0x7f ≠ 0 then throw (.error short)
    else
      let v := if shift < 64 then v ||| ((byte &&& 0x7f).toNat <<< shift % 2 ^ 64) else v
      if byte &&& 0x80 = 0 then pure (v, i + 1)
      else do
        let shift ← add 32 shift 7
        ulebFrom short rest (i + 1) v shift

/-- The ULEB128 number at an index and the index behind it; `short` is the caller's error. -/
def uleb (short : EhError) (b : List Byte) (i : ℕ) : Run (ℕ × ℕ) := ulebFrom short (b.drop i) i 0 0

/-- Step over the bytes of an SLEB128 number. -/
def skipSlebFrom (short : EhError) : List Byte → ℕ → Run ℕ
  | [], _ => throw (.error short)
  | byte :: rest, i => if byte &&& 0x80 = 0 then pure (i + 1) else skipSlebFrom short rest (i + 1)

/-- The index behind the SLEB128 number at an index. -/
def skipSleb (short : EhError) (b : List Byte) (i : ℕ) : Run ℕ := skipSlebFrom short (b.drop i) i

/-- Size in bytes of a pointer, for the fixed-width forms. -/
def encSize (enc : Byte) : Option ℕ :=
  let form := enc &&& 0x0f
  if form = dwEhPeAbsptr ∨ form = dwEhPeUdata8 ∨ form = dwEhPeSdata8 then some 8
  else if form = dwEhPeUdata2 ∨ form = dwEhPeSdata2 then some 2
  else if form = dwEhPeUdata4 ∨ form = dwEhPeSdata4 then some 4
  else none

/-- A signed number of `w` bits in 64 bits. -/
def signExtend (w x : ℕ) : ℕ := if x < 2 ^ (w - 1) then x else x + (2 ^ 64 - 2 ^ w)

/-- The bits of an encoded pointer, extended to 64. -/
def rawPointer (data : List Byte) (off : ℕ) (enc : Byte) : Option ℕ := do
  let size ← encSize enc
  if enc &&& 0x0f = dwEhPeSdata2 then (leAt data off 2).map (signExtend 16)
  else if enc &&& 0x0f = dwEhPeSdata4 then (leAt data off 4).map (signExtend 32)
  else leAt data off size

/-- Read an encoded pointer within a section at an address: the address it denotes. -/
def readPtr (data : List Byte) (off : ℕ) (enc : Byte) (secAddr : ℕ) : Run ℕ := do
  let raw ← okOr (.pointerEncoding enc) (rawPointer data off enc)
  if enc &&& 0x70 = dwEhPePcrel then do
    let at_ ← add 64 secAddr off
    pure ((at_ + raw) % 2 ^ 64)
  else if enc &&& 0x70 = dwEhPeDatarel then pure ((secAddr + raw) % 2 ^ 64)
  else if enc &&& 0x70 = 0 then pure raw
  else throw (.error (.pointerEncoding enc))

/-! ## The FDE pointer encoding of a CIE -/

/-- The bytes from one index to another. -/
def slice (data : List Byte) (first last : ℕ) : Run (List Byte) :=
  if first ≤ last ∧ last ≤ data.length then pure ((data.drop first).take (last - first))
  else throw .panic

/-- The byte of a character of an augmentation. -/
def byteOf (c : Char) : Byte := BitVec.ofNat 8 c.toNat

/-- The index behind the return address column at an index: a byte in version 1, a number else. -/
def returnColumn (data : List Byte) (version : Byte) (j : ℕ) : Run ℕ :=
  if version = 1 then pure (j + 1) else Prod.snd <$> uleb .truncatedReturnColumn data j

/-- The index of the augmentation data of a CIE and their length, behind the augmentation at an index. -/
def augData (data : List Byte) (version : Byte) (i : ℕ) : Run (ℕ × ℕ) := do
  let (_, j) ← uleb .truncatedCodeAlignment data i
  let j ← skipSleb .truncatedDataAlignment data j
  let j ← returnColumn data version j
  let (augLen, j) ← uleb .truncatedAugmentation data j
  return (j, augLen)

/-- The head of a CIE: none when it has no augmentation data, and otherwise its augmentation, the index of
the data and their length. -/
def cieHead (data : List Byte) (cieAt : ℕ) : Run (Option (List Byte × ℕ × ℕ)) := do
  let i ← add 64 cieAt 8
  let version ← okOr .truncatedCie data[i]?
  reject (.version version) (version ≠ 1 ∧ version ≠ 3)
  let augStart := i + 1
  let i := augStart + ((data.drop augStart).takeWhile fun byte => byte != 0).length
  let aug ← slice data augStart i
  if aug.head? ≠ some (byteOf 'z') then pure none
  else (fun (j, augLen) => some (aug, j, augLen)) <$> augData data version (i + 1)

/-- The encoding that the characters of an augmentation find in its data from `j` on. -/
def augEncoding (data : List Byte) : List Byte → ℕ → Run Byte
  | [], _ => pure dwEhPeAbsptr
  | c :: aug, j =>
    if c = byteOf 'R' then pure (data[j]?.getD dwEhPeAbsptr)
    else if c = byteOf 'L' then augEncoding data aug (j + 1)
    else if c = byteOf 'P' then do
      let enc ← okOr .truncatedPersonality data[j]?
      let size ← okOr .personalityEncoding (encSize enc)
      augEncoding data aug (j + (1 + size))
    else if c = byteOf 'S' ∨ c = byteOf 'B' ∨ c = byteOf 'G' then augEncoding data aug j
    else throw (.error (.augmentation c))

/-- The encoding a CIE declares for FDE pointers, absolute when it declares none. -/
def cieFdeEncoding (data : List Byte) (cieAt last : ℕ) : Run Byte := do
  match ← cieHead data cieAt with
  | none => pure dwEhPeAbsptr
  | some (aug, j, augLen) =>
    let augEnd ← add 64 j augLen
    reject .pastCie (last < augEnd)
    augEncoding data aug.tail j

/-! ## The walks -/

/-- An entry of a section: its offset, its size with the length field, and for an FDE the offset of its
CIE. -/
structure Entry where
  off : ℕ
  len : ℕ
  cie : Option ℕ
  deriving DecidableEq

/-- The distance of the id field from the start of a record. -/
def ciePointer : ℕ := 4

/-- The entries from a position on. -/
def entriesFrom (data : List Byte) (pos : ℕ) : Run (List Entry) :=
  if _h : pos + 8 ≤ data.length then
    match u32At data pos with
    | none => throw (.error .truncatedLength)
    | some len =>
      if len = 0 then pure []
      else if len = 0xffffffff then throw (.error .wideEntry)
      else if 2 ^ 64 ≤ pos + 4 + len then throw (.error .lengthOverflows)
      else if data.length < pos + 4 + len then throw (.error .pastSection)
      else do
        let id ← okOr .truncatedId (u32At data (pos + ciePointer))
        reject .outsideSection (id ≠ 0 ∧ pos + ciePointer < id)
        let cie := if id = 0 then none else some (pos + ciePointer - id)
        let rest ← entriesFrom data (pos + 4 + len)
        pure (⟨pos, 4 + len, cie⟩ :: rest)
  else pure []
  termination_by data.length - pos

/-- The entries of a section, up to the terminating zero length. -/
def entries (data : List Byte) : Run (List Entry) := entriesFrom data 0

/-- One FDE: the address it describes and where it sits. -/
structure FdeEntry where
  pc : ℕ
  fde : ℕ
  deriving DecidableEq

/-- The entry of the FDE record at a position, which names its CIE by `id`. -/
def readFde (data : List Byte) (secAddr pos last id : ℕ) : Run FdeEntry := do
  reject .outsideSection (pos + 4 < id)
  let enc ← cieFdeEncoding data (pos + 4 - id) last
  reject .noLocation (enc = dwEhPeOmit)
  let pc ← readPtr data (pos + 8) enc secAddr
  let fde ← add 64 secAddr pos
  return ⟨pc, fde⟩

/-- The entry of the record at a position, none for a CIE. -/
def fdeOf (data : List Byte) (secAddr pos last id : ℕ) : Run (List FdeEntry) :=
  if id = 0 then pure [] else (fun fde => [fde]) <$> readFde data secAddr pos last id

/-- The FDEs from a position on, in section order. -/
def scanFrom (data : List Byte) (secAddr pos : ℕ) : Run (List FdeEntry) :=
  if _h : pos + 4 ≤ data.length then
    match u32At data pos with
    | none => throw (.error .truncatedLength)
    | some len =>
      if len = 0 then pure []
      else if len = 0xffffffff then throw (.error .wideEntry)
      else if 2 ^ 64 ≤ pos + 4 + len then throw .panic
      else if data.length < pos + 4 + len then throw (.error .pastSection)
      else do
        let id ← okOr .truncatedId (u32At data (pos + 4))
        let fdes ← fdeOf data secAddr pos (pos + 4 + len) id
        let rest ← scanFrom data secAddr (pos + 4 + len)
        pure (fdes ++ rest)
  else pure []
  termination_by data.length - pos

/-- One entry for each FDE of a section at an address, in address order. -/
def scan (data : List Byte) (secAddr : ℕ) : Run (List FdeEntry) :=
  (fun fdes => fdes.insertionSort fun a b => a.pc ≤ b.pc) <$> scanFrom data secAddr 0

/-- The signed 32-bit displacement from one address to another. -/
def delta32 (src dst : ℕ) : Run ℤ :=
  let d := (BitVec.ofNat 64 dst - BitVec.ofNat 64 src).toInt
  if FitsIn 32 d then pure d else throw (.error (.outOfRange dst src))

/-- The displacements of entries from the header. -/
def tableOf (hdrAddr : ℕ) : List FdeEntry → Run (List ℤ)
  | [] => pure []
  | e :: entries => do
    let pc ← delta32 hdrAddr e.pc
    let fde ← delta32 hdrAddr e.fde
    let rest ← tableOf hdrAddr entries
    pure (pc :: fde :: rest)

/-- The contents of `.eh_frame_hdr`: the header, then the table relative to the address of the section. -/
def build (hdrAddr ehFrameAddr : ℕ) (entries : List FdeEntry) : Run (List Byte) := do
  let ptr ← add 64 hdrAddr 4
  let delta ← delta32 ptr ehFrameAddr
  let table ← tableOf hdrAddr entries
  return [1, dwEhPePcrel ||| dwEhPeSdata4, dwEhPeUdata4, dwEhPeDatarel ||| dwEhPeSdata4] ++
    wordBytes (BitVec.ofInt 32 delta) ++ wordBytes (BitVec.ofNat 32 entries.length) ++
    table.flatMap fun d => wordBytes (BitVec.ofInt 32 d)

end Badc.EhFrame
