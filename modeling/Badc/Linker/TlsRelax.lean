import Badc.Lib.Bytes
import Badc.Linker.Attributes

/-!
# Rewriting thread-local accesses

An executable link rewrites the initial-exec, general- and local-dynamic and descriptor sequences to
local-exec, since its thread-locals sit at offsets it knows, and a shared library's link rewrites the
general-dynamic and descriptor ones to initial-exec.  `x86_64Rewrite` and `aarch64Rewrite` rewrite what
one relocation names; a site whose bytes are not the stated sequence is refused.
-/

namespace Badc.TlsRelax

open Attributes (Halt)

@[match_pattern] abbrev R_X86_64_TLSGD : ℕ := 19
@[match_pattern] abbrev R_X86_64_TLSLD : ℕ := 20
@[match_pattern] abbrev R_X86_64_GOTTPOFF : ℕ := 22
@[match_pattern] abbrev R_X86_64_GOTPC32_TLSDESC : ℕ := 34
@[match_pattern] abbrev R_X86_64_TLSDESC_CALL : ℕ := 35
@[match_pattern] abbrev R_AARCH64_TLSGD_ADR_PAGE21 : ℕ := 513
@[match_pattern] abbrev R_AARCH64_TLSGD_ADD_LO12_NC : ℕ := 514
@[match_pattern] abbrev R_AARCH64_TLSIE_ADR_GOTTPREL_PAGE21 : ℕ := 541
@[match_pattern] abbrev R_AARCH64_TLSIE_LD64_GOTTPREL_LO12_NC : ℕ := 542
@[match_pattern] abbrev R_AARCH64_TLSDESC_ADR_PAGE21 : ℕ := 562
@[match_pattern] abbrev R_AARCH64_TLSDESC_LD64_LO12 : ℕ := 563
@[match_pattern] abbrev R_AARCH64_TLSDESC_ADD_LO12 : ℕ := 564
@[match_pattern] abbrev R_AARCH64_TLSDESC_CALL : ℕ := 569

/-- The model a rewritten sequence ends in. -/
inductive Model
  /-- Local-exec, with the variable's offset from the thread pointer. -/
  | localExec (tpoff : BitVec 32)
  /-- Initial-exec, reading that offset from a GOT slot the loader fills. -/
  | initialExec
  deriving DecidableEq

/-- Where a sequence rewritten to initial-exec addresses its GOT slot: the field's offset and the
relocation type that now describes it. -/
abbrev SlotField := Option (ℕ × ℕ)

/-- What a rewrite returns, and the text it leaves. -/
abbrev Out := Except (Halt String) SlotField × List Byte

/-- The text is refused as it stands. -/
def refuse (want : String) (text : List Byte) : Out := (.error (.err want), text)

/-- A sum of offsets, which aborts past 64 bits. -/
def plus (a b : ℕ) (k : ℕ → List Byte → Out) (text : List Byte) : Out :=
  if a + b < 2 ^ 64 then k (a + b) text else (.error .panic, text)

/-- The `n` bytes at an offset, where the text has them. -/
def read (text : List Byte) (at_ n : ℕ) : Option (List Byte) :=
  if at_ + n < 2 ^ 64 ∧ at_ + n ≤ text.length then some ((text.drop at_).take n) else none

/-- Bytes copied over the text, which has to reach that far. -/
def put (at_ : ℕ) (bytes : List Byte) (k : List Byte → Out) (text : List Byte) : Out :=
  if at_ + bytes.length ≤ text.length then k (overwrite text at_ bytes) else (.error .panic, text)

/-! ## x86-64 -/

/-- `mov %fs:0, %rax` -/
def x64LoadTp : List Byte := [0x64, 0x48, 0x8b, 0x04, 0x25, 0, 0, 0, 0]

/-- An initial-exec load or add of the slot. -/
def gottpoff (at_ : ℕ) (imm : List Byte) (text : List Byte) : Out :=
  let want := "`mov` or `add` from a RIP-relative quadword to a register"
  if at_ < 3 then refuse want text
  else
    let start := at_ - 3
    match read text start 3, read text at_ 4 with
    | some [rex, op, modrm], some _ =>
      if ¬((rex = 0x48 ∨ rex = 0x4c) ∧ (op = 0x8b ∨ op = 0x03) ∧ modrm &&& 0xc7 = 0x05) then
        refuse want text
      else
        let reg := modrm >>> 3 &&& 7
        let high := rex >>> 2 &&& 1
        let insn :=
          if op = 0x8b then [0x48 ||| high, 0xc7, 0xc0 ||| reg]
          -- `lea` from %rsp or %r12 needs a SIB byte.
          else if reg = 4 then [0x48 ||| high, 0x81, 0xc0 ||| reg]
          else [0x48 ||| high <<< 2 ||| high, 0x8d, 0x80 ||| reg <<< 3 ||| reg]
        put start insn (put at_ imm fun text => (.ok none, text)) text
    | _, _ => refuse want text

/-- A general-dynamic call. -/
def tlsgd (at_ : ℕ) (imm : Option (List Byte)) (text : List Byte) : Out :=
  let want := "`data16 lea` to %rdi, then the `__tls_get_addr` call"
  if at_ < 4 then refuse want text
  else
    let start := at_ - 4
    match read text start 4 with
    | none => refuse want text
    | some lead => text |> plus at_ 4 fun next text =>
      match read text next 4 with
      | none => refuse want text
      | some call => text |> plus at_ 8 fun next text =>
        if (read text next 4).isNone then refuse want text
        else if lead ≠ [0x66, 0x48, 0x8d, 0x3d] ∨
            ¬(call = [0x66, 0x66, 0x48, 0xe8] ∨ call = [0x66, 0x48, 0xff, 0x15]) then refuse want text
        else
          let second : List Byte → Out := match imm with
            -- `add x@gottpoff(%rip), %rax`
            | none => put (start + 9) [0x48, 0x03, 0x05] fun text =>
              (.ok (some (start + 12, R_X86_64_GOTTPOFF)), text)
            | some imm => put (start + 9) [0x48, 0x8d, 0x80]
              (put (start + 12) imm fun text => (.ok none, text))
          put start x64LoadTp second text

/-- A local-dynamic call. -/
def tlsld (at_ : ℕ) (text : List Byte) : Out :=
  let want := "`lea` to %rdi, then the `__tls_get_addr` call"
  if at_ < 3 then refuse want text
  else
    let start := at_ - 3
    let rewrite (len : ℕ) : List Byte → Out := plus start len fun stop text =>
      if text.length < stop then refuse want text
      else put start (List.replicate (len - 9) 0x66)
        (put (stop - 9) x64LoadTp fun text => (.ok none, text)) text
    -- Both bounds of the range are summed, whatever the lead is.
    text |> plus at_ 4 fun next => plus at_ 6 fun _ text =>
      match read text start 3, read text next 2 with
      | some lead, some call =>
        if lead = [0x48, 0x8d, 0x3d] ∧ call.head? = some 0xe8 then rewrite 12 text
        else if lead = [0x48, 0x8d, 0x3d] ∧ call = [0xff, 0x15] then rewrite 13 text
        else refuse want text
      | _, _ => refuse want text

/-- The address of a descriptor. -/
def gotpc32Tlsdesc (at_ : ℕ) (imm : Option (List Byte)) (text : List Byte) : Out :=
  let want := "`lea` of the descriptor to a register"
  if at_ < 3 then refuse want text
  else
    let start := at_ - 3
    match read text start 3, read text at_ 4 with
    | some [rex, op, modrm], some _ =>
      if rex &&& 0xfb ≠ 0x48 ∨ op ≠ 0x8d ∨ modrm &&& 0xc7 ≠ 0x05 then refuse want text
      else match imm with
        -- `mov x@gottpoff(%rip), %reg`
        | none => put (start + 1) [0x8b] (fun text => (.ok (some (at_, R_X86_64_GOTTPOFF)), text)) text
        | some imm => put start [0x48 ||| rex >>> 2 &&& 1, 0xc7, 0xc0 ||| modrm >>> 3 &&& 7]
          (put at_ imm fun text => (.ok none, text)) text
    | _, _ => refuse want text

/-- The call through a descriptor. -/
def tlsdescCall (at_ : ℕ) (text : List Byte) : Out :=
  if read text at_ 2 ≠ some [0xff, 0x10] then refuse "the descriptor call `call *(%rax)`" text
  -- `xchg %ax, %ax`
  else put at_ [0x66, 0x90] (fun text => (.ok none, text)) text

/-- Rewrite the x86-64 sequence whose `rtype` relocation sits at `at_` in `text` to the model `to_`. -/
def x86_64Rewrite (text : List Byte) (at_ rtype : ℕ) (to_ : Model) : Out :=
  let imm := match to_ with
    | .localExec tpoff => some (leBytes 4 tpoff.toNat)
    | .initialExec => none
  match rtype, imm with
  | R_X86_64_GOTTPOFF, some imm => gottpoff at_ imm text
  | R_X86_64_TLSGD, imm => tlsgd at_ imm text
  | R_X86_64_TLSLD, some _ => tlsld at_ text
  | R_X86_64_GOTPC32_TLSDESC, imm => gotpc32Tlsdesc at_ imm text
  | R_X86_64_TLSDESC_CALL, _ => tlsdescCall at_ text
  | _, some _ => refuse "a thread-local access sequence" text
  | _, none => refuse "a general-dynamic or descriptor sequence" text

/-! ## AArch64 -/

def a64Nop : BitVec 32 := 0xd503201f
/-- `mrs x1, tpidr_el0` -/
def a64MrsX1Tp : BitVec 32 := 0xd53bd041
/-- `add x0, x1, x0` -/
def a64AddX0X1X0 : BitVec 32 := 0x8b000020
/-- `ldr x0, [x0]` -/
def a64LdrX0X0 : BitVec 32 := 0xf9400000

/-- The word at an offset. -/
def word (text : List Byte) (at_ : ℕ) : Option (BitVec 32) :=
  (read text at_ 4).map fun bytes => BitVec.ofNat 32 (leNat bytes 0 4)

/-- A word written at an offset. -/
def putWord (at_ : ℕ) (w : BitVec 32) : (List Byte → Out) → List Byte → Out := put at_ (leBytes 4 w.toNat)

/-- The high half of the offset, moved. -/
def movz (t rd : BitVec 32) : BitVec 32 := 0xd2a00000 ||| (t >>> 16) <<< 5 ||| rd

/-- The low half of the offset, kept under. -/
def movk (t rd : BitVec 32) : BitVec 32 := 0xf2800000 ||| (t &&& 0xffff) <<< 5 ||| rd

/-- Rewrite the aarch64 instruction the `rtype` relocation at `at_` in `text` names to its part of the
model `to_`. -/
def aarch64Rewrite (text : List Byte) (at_ rtype : ℕ) (to_ : Model) : Out :=
  match word text at_ with
  | none => refuse "an instruction" text
  | some insn =>
    let finish (new : BitVec 32) (field : SlotField) : List Byte → Out :=
      putWord at_ new fun text => (.ok field, text)
    -- The initial-exec instruction and the GOT slot field it leaves.
    let slot (insn : BitVec 32) (rtype : ℕ) := finish insn (some (at_, rtype))
    let low : List Byte → Out := match to_ with
      | .localExec t => finish (movk t 0) none
      | .initialExec => slot a64LdrX0X0 R_AARCH64_TLSIE_LD64_GOTTPREL_LO12_NC
    match rtype, to_ with
    | R_AARCH64_TLSIE_ADR_GOTTPREL_PAGE21, .localExec t =>
      if insn &&& 0x9f000000 ≠ 0x90000000 then refuse "`adrp`" text
      else finish (movz t (insn &&& 0x1f)) none text
    | R_AARCH64_TLSIE_LD64_GOTTPREL_LO12_NC, .localExec t =>
      -- The `movk` completes the `movz` only in the register the page took.
      if insn &&& 0xffc00000 ≠ 0xf9400000 ∨ insn &&& 0x1f ≠ insn >>> 5 &&& 0x1f then
        refuse "`ldr` of a 64-bit GOT entry into its base register" text
      else finish (movk t (insn &&& 0x1f)) none text
    | R_AARCH64_TLSGD_ADR_PAGE21, _ | R_AARCH64_TLSDESC_ADR_PAGE21, _ =>
      if insn &&& 0x9f00001f ≠ 0x90000000 then refuse "`adrp` to x0" text
      else match to_ with
        | .localExec t => finish (movz t 0) none text
        -- The `adrp` stands; its page becomes the GOT slot's.
        | .initialExec => slot insn R_AARCH64_TLSIE_ADR_GOTTPREL_PAGE21 text
    | R_AARCH64_TLSGD_ADD_LO12_NC, _ =>
      let want := "`add` to x0 from x0, then `bl __tls_get_addr` and `nop`"
      text |> plus at_ 4 fun callAt text =>
        match word text callAt with
        | none => refuse want text
        | some call => text |> plus at_ 8 fun nopAt text =>
          match word text nopAt with
          | none => refuse want text
          | some nop =>
            if insn &&& 0xffc003ff ≠ 0x91000000 ∨ call &&& 0xfc000000 ≠ 0x94000000 ∨ nop ≠ a64Nop then
              refuse want text
            else putWord callAt a64MrsX1Tp (putWord nopAt a64AddX0X1X0 low) text
    | R_AARCH64_TLSDESC_LD64_LO12, _ =>
      if insn &&& 0xffc003e0 ≠ 0xf9400000 then refuse "`ldr` of a 64-bit descriptor word from x0" text
      else low text
    | R_AARCH64_TLSDESC_ADD_LO12, _ =>
      if insn &&& 0xffc003ff ≠ 0x91000000 then refuse "`add` to x0 from x0" text
      else finish a64Nop none text
    | R_AARCH64_TLSDESC_CALL, _ =>
      if insn &&& 0xfffffc1f ≠ 0xd63f0000 then refuse "`blr`" text else finish a64Nop none text
    | _, .localExec _ => refuse "a thread-local access sequence" text
    | _, .initialExec => refuse "a general-dynamic or descriptor sequence" text

end Badc.TlsRelax
