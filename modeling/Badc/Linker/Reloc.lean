import Badc.Ir.Eval
import Badc.Lib.Bytes

/-!
# Applying one relocation

`apply_one` of `src/c5/linker/lds_link/reloc.rs` for x86-64, and `apply_aarch64` of
`reloc_aarch64.rs`: write the value of one relocation into its field of a section's bytes.  A step
that indexes outside the buffer, where the source panics, is `none`; otherwise the result is the
buffer and the errors pushed.  Each relocation type the source handles is a constructor, with its
number in `X86Reloc.of` and `A64Reloc.of`; any other number is unsupported.
-/

namespace Badc.Reloc

/-- A relocation record of an input section. -/
structure RawReloc where
  offset : ℕ
  sym : ℕ
  rtype : ℕ
  addend : ℤ
  deriving DecidableEq

/-- The machines of the two arms modelled here. -/
inductive Arch
  | x86_64
  | aarch64
  deriving DecidableEq

/-- What applying a relocation consults of the linker. -/
structure LinkState where
  machine : Arch
  /-- The file an object comes from. -/
  source : ℕ → String
  /-- The name of an object's symbol. -/
  symbolName : ℕ → ℕ → String
  /-- How a diagnostic names a relocation type. -/
  relocDesc : ℕ → String
  importOf : String → Bool
  preemptible : String → Bool
  emitDyn : Bool
  applyDynamicRelocs : Bool
  /-- Whether the value of a symbol moves with the load address. -/
  relocIsRelative : ℕ → ℕ → Bool
  gotSlotAddr : ℕ → RawReloc → Option Word

/-- The relocation types of the x86-64 arm. -/
inductive X86Reloc
  | abs64 | pc64 | gotPc64 | pc32 | plt32 | gotPc32 | abs32 | abs32s | abs16 | pc16 | abs8 | pc8
  | gotPcRel | gotPcRelX | rexGotPcRelX
  deriving DecidableEq

/-- The type an x86-64 number names. -/
def X86Reloc.of : ℕ → Option X86Reloc
  | 1 => some .abs64
  | 24 => some .pc64
  | 29 => some .gotPc64
  | 2 => some .pc32
  | 4 => some .plt32
  | 26 => some .gotPc32
  | 10 => some .abs32
  | 11 => some .abs32s
  | 12 => some .abs16
  | 13 => some .pc16
  | 14 => some .abs8
  | 15 => some .pc8
  | 9 => some .gotPcRel
  | 41 => some .gotPcRelX
  | 42 => some .rexGotPcRelX
  | _ => none

/-- The relocation types of the aarch64 arm: a load or store has the scale of its access, a `movw`
form its 16-bit group, whether it is signed and the bits it is checked for. -/
inductive A64Reloc
  | abs64 | abs32 | abs16 | prel64 | prel32 | prel16 | call26 | jump26 | adrPrelPgHi21
  | adrPrelLo21 | addAbsLo12Nc
  | ldstLo12Nc (scale : ℕ)
  | condBr19 | tstBr14 | ldPrelLo19
  | movw (group : ℕ) (signed : Bool) (check : Option ℕ)
  | adrGotPage | ld64GotLo12Nc | nothing
  deriving DecidableEq

/-- The type an aarch64 number names. -/
def A64Reloc.of : ℕ → Option A64Reloc
  | 257 => some .abs64
  | 258 => some .abs32
  | 259 => some .abs16
  | 260 => some .prel64
  | 261 => some .prel32
  | 262 => some .prel16
  | 283 => some .call26
  | 282 => some .jump26
  | 275 => some .adrPrelPgHi21
  | 274 => some .adrPrelLo21
  | 277 => some .addAbsLo12Nc
  | 278 => some (.ldstLo12Nc 1)
  | 284 => some (.ldstLo12Nc 2)
  | 285 => some (.ldstLo12Nc 4)
  | 286 => some (.ldstLo12Nc 8)
  | 299 => some (.ldstLo12Nc 16)
  | 280 => some .condBr19
  | 279 => some .tstBr14
  | 273 => some .ldPrelLo19
  | 263 => some (.movw 0 false (some 16))
  | 265 => some (.movw 1 false (some 32))
  | 267 => some (.movw 2 false (some 48))
  | 264 => some (.movw 0 false none)
  | 266 => some (.movw 1 false none)
  | 268 => some (.movw 2 false none)
  | 269 => some (.movw 3 false none)
  | 270 => some (.movw 0 true (some 17))
  | 271 => some (.movw 1 true (some 33))
  | 272 => some (.movw 2 true (some 49))
  | 311 => some .adrGotPage
  | 312 => some .ld64GotLo12Nc
  | 0 => some .nothing
  | _ => none

/-- The digits of a number in lower-case hexadecimal. -/
def hex (x : Word) : String := String.ofList (Nat.toDigits 16 x.toNat)

/-- Write the low `n` bytes of a value where the field lies in the buffer. -/
def put (buf : List Byte) (site n : ℕ) (v : Word) : List Byte :=
  if site + n ≤ buf.length then overwrite buf site (leBytes n v.toNat) else buf

/-- The sign-extended low `n` bits. -/
def signed (n : ℕ) (v : Word) : Word := (v.setWidth n).signExtend 64

/-- An error where a condition holds. -/
def errorIf (p : Prop) [Decidable p] (text : String) : List String := if p then [text] else []

/-! ## x86-64 -/

/-- The displacement of a relaxed GOT reference. -/
def relaxed (buf : List Byte) (site : ℕ) (p sa : Word) (name : String) : List Byte × List String :=
  (put buf site 4 (sa - p), errorIf (signed 32 (sa - p) ≠ sa - p)
    ("relaxed GOT reference out of range against `" ++ name ++ "'"))

/-- The 4 KiB page of an address. -/
def page (v : Word) : Word := v &&& ~~~0xfff#64

/-- Whether a field of `n` bytes may hold a value read either way. -/
def admitsEither (v : Word) (n : ℕ) : Prop := -2 ^ (8 * n - 1) ≤ v.toInt ∧ v.toInt < 2 ^ (8 * n)

instance (v : Word) (n : ℕ) : Decidable (admitsEither v n) := by
  unfold admitsEither
  infer_instance

/-- Whether a value keeps to `bits` bits. -/
def movwFits (v : Word) (bits : ℕ) (signed : Bool) : Prop :=
  if signed then -2 ^ (bits - 1) ≤ v.toInt ∧ v.toInt < 2 ^ (bits - 1)
  else 0 ≤ v.toInt ∧ v.toInt < 2 ^ bits

instance (v : Word) (bits : ℕ) (signed : Bool) : Decidable (movwFits v bits signed) := by
  unfold movwFits
  infer_instance

end Badc.Reloc
