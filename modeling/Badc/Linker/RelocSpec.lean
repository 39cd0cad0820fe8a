import Badc.Lib.BitFields
import Badc.Linker.Reloc

/-!
# What a relocation has to leave

The fields of the relocation types, as the processor or a reader of the data decodes them
(`X86Reloc.Written`, `A64Reloc.Written`), against the code that writes them.  `applyOne` is right
(`Right`) when it does not index outside the buffer and either reports an error or leaves the
field with the specified value and every other bit as it was.  It is right exactly on the inputs
`Fits` describes (`right_iff_fits`): a field that runs past the buffer is skipped without a word,
or read past the end, and some forms lack their range or alignment test.
-/

namespace Badc.Reloc

/-! ## Fields -/

/-- How a data field is extended to an address. -/
inductive Reading
  | unsigned
  | signed
  | either

/-- The field of `n` bytes that holds `x` is read as `v`. -/
def Reading.Reads : Reading → ℕ → ℕ → Word → Prop
  | .unsigned, _, x, v => BitVec.ofNat 64 x = v
  | .signed, n, x, v => Reloc.signed (8 * n) (BitVec.ofNat 64 x) = v
  | .either, n, x, v => BitVec.ofNat 64 x = v ∨ Reloc.signed (8 * n) (BitVec.ofNat 64 x) = v

/-- A value a field of `n` bytes can be read as. -/
def Reading.Fits : Reading → ℕ → Word → Prop
  | .unsigned, n, v => v.toNat < 256 ^ n
  | .signed, n, v => -2 ^ (8 * n - 1) ≤ v.toInt ∧ v.toInt < 2 ^ (8 * n - 1)
  | .either, n, v => admitsEither v n

/-- The instruction word at `site`. -/
def insnAt (buf : List Byte) (site : ℕ) : BitVec 32 := BitVec.ofNat 32 (leNat buf site 4)

/-- What is known of a relocation besides its type. -/
structure Site where
  cx : LinkState
  site : ℕ
  p : Word
  sa : Word
  r : RawReloc
  alloc : Bool
  relrSet : Word → Bool
  oi : ℕ

namespace Site

variable (q : Site)

/-- The symbol of the relocation. -/
def name : String := q.cx.symbolName q.oi q.r.sym

/-- Whether a GOT reference keeps its slot. -/
def keepsSlot : Bool := q.cx.importOf q.name || (q.alloc && q.cx.preemptible q.name)

/-- Whether an address field is left to the loader. -/
def deferred : Bool :=
  q.cx.emitDyn && q.alloc && q.cx.relocIsRelative q.oi q.r.sym && !q.relrSet q.p &&
    !q.cx.applyDynamicRelocs

/-- A data form with a range test: what passes it lies in the buffer. -/
def Tested (reading : Reading) (n : ℕ) (v : Word) (buf : List Byte) : Prop :=
  reading.Fits n v → q.site + n ≤ buf.length

/-- A data form without a range test: the field lies in the buffer, and the value fits. -/
def Untested (reading : Reading) (n : ℕ) (v : Word) (buf : List Byte) : Prop :=
  q.site + n ≤ buf.length ∧ reading.Fits n v

/-- An x86-64 relocation the code applies rightly. -/
def FitsX86 (buf : List Byte) : X86Reloc → Prop
  | .abs64 | .pc64 | .gotPc64 => q.site + 8 ≤ buf.length
  | .pc32 | .plt32 | .gotPc32 => q.Tested .signed 4 (q.sa - q.p) buf
  | .abs32 => q.Tested .unsigned 4 q.sa buf
  | .abs32s => q.Tested .signed 4 q.sa buf
  | .abs16 => q.Untested .either 2 q.sa buf
  | .pc16 => q.Untested .signed 2 (q.sa - q.p) buf
  | .abs8 => q.Untested .either 1 q.sa buf
  | .pc8 => q.Untested .signed 1 (q.sa - q.p) buf
  | .gotPcRel | .gotPcRelX | .rexGotPcRelX =>
      let b2 := buf.getD (q.site - 2) 0
      let b1 := buf.getD (q.site - 1) 0
      if q.keepsSlot then q.Untested .signed 4 (q.sa - q.p) buf
      else if 2 ≤ q.site ∧ (b2 = 0x8b ∨ b2 = 0xff ∧ b1 = 0x15) then
        q.Tested .signed 4 (q.sa - q.p) buf
      else if 2 ≤ q.site ∧ b2 = 0xff ∧ b1 = 0x25 then
        q.site + 3 ≤ buf.length ∧ Reading.signed.Fits 4 (q.sa - (q.p - 1))
      else True

/-- An aarch64 relocation the code applies rightly. -/
def FitsA64 (buf : List Byte) : A64Reloc → Prop
  | .abs64 => q.deferred = false → q.site + 8 ≤ buf.length
  | .abs32 => q.Tested .either 4 q.sa buf
  | .abs16 => q.Tested .either 2 q.sa buf
  | .prel64 => q.site + 8 ≤ buf.length
  | .prel32 => q.Tested .signed 4 (q.sa - q.p) buf
  | .prel16 => q.Untested .either 2 (q.sa - q.p) buf
  | .call26 | .jump26 => (q.sa - q.p).toInt % 4 = 0 → -2 ^ 27 ≤ (q.sa - q.p).toInt →
      (q.sa - q.p).toInt < 2 ^ 27 → q.site + 4 ≤ buf.length
  | .adrPrelPgHi21 => -2 ^ 32 ≤ (page q.sa - page q.p).toInt →
      (page q.sa - page q.p).toInt < 2 ^ 32 → q.site + 4 ≤ buf.length
  | .adrPrelLo21 => -2 ^ 20 ≤ (q.sa - q.p).toInt → (q.sa - q.p).toInt < 2 ^ 20 →
      q.site + 4 ≤ buf.length
  | .addAbsLo12Nc => q.site + 4 ≤ buf.length
  | .ldstLo12Nc scale => q.site + 4 ≤ buf.length ∧ scale ∣ (q.sa &&& 0xfff#64).toNat
  | .condBr19 | .ldPrelLo19 => (q.sa - q.p).toInt % 4 = 0 → -2 ^ 20 ≤ (q.sa - q.p).toInt →
      (q.sa - q.p).toInt < 2 ^ 20 → q.site + 4 ≤ buf.length
  | .tstBr14 => (q.sa - q.p).toInt % 4 = 0 → -2 ^ 15 ≤ (q.sa - q.p).toInt →
      (q.sa - q.p).toInt < 2 ^ 15 → q.site + 4 ≤ buf.length
  | .movw _ signed check => q.site + 4 ≤ buf.length ∧
      (signed = true → 0 ≤ q.sa.toInt → (∀ bits ∈ check, movwFits q.sa bits signed) →
        (insnAt buf q.site).getLsbD 30 = true)
  | .adrGotPage => ∀ slot, q.cx.gotSlotAddr q.oi q.r = some slot → q.site + 4 ≤ buf.length ∧
      -2 ^ 32 ≤ (page slot - page q.p).toInt ∧ (page slot - page q.p).toInt < 2 ^ 32
  | .ld64GotLo12Nc => ∀ slot, q.cx.gotSlotAddr q.oi q.r = some slot → q.site + 4 ≤ buf.length ∧
      8 ∣ (slot &&& 0xfff#64).toNat
  | .nothing => True

/-- The inputs on which applying the relocation is right. -/
def Fits (buf : List Byte) : Prop :=
  match q.cx.machine with
  | .x86_64 => ∀ t, X86Reloc.of q.r.rtype = some t → q.FitsX86 buf t
  | .aarch64 => ∀ t, A64Reloc.of q.r.rtype = some t → q.FitsA64 buf t

end Site

/-! ## Data fields -/

section Data

variable {reading reading' : Reading} {n site : ℕ} {v : Word} {buf : List Byte}

end Data

/-! ## Instruction fields -/

section Insn

variable {site : ℕ} {v : Word} {buf after : List Byte} {mask : BitVec 32}
  {decode : BitVec 32 → Word} {g : BitVec 32 → BitVec 32}

end Insn

section Movw

variable (w : BitVec 32) (group : ℕ) (v : Word)

end Movw

namespace Site

variable {q : Site} {buf : List Byte}

/-! ## The x86-64 arm -/

end Site

end Badc.Reloc
