import Badc.Aarch64.LoadImm
import Badc.Linker.TlsRelax

/-!
# Rewritten thread-local accesses

`Runs` and `execA64` are what the instructions of the sequences do.  A rewrite either refuses a site or
changes the bytes of its sequence alone, and these then leave the thread pointer plus the variable's
offset, or the offset, in the sequence's register (`X64Exact`, `A64Exact`, `A64Sequences`).  A
local-dynamic site within six bytes of the end of the address space aborts the link instead
(`rewrites_exact_iff`).
-/

namespace Badc.TlsRelax

open Attributes (Halt)
open Aarch64 (readX encMovz encMovk exec exec_movz exec_movk encMoveWide encMoveWide_fields)

variable {text text' bytes code b : List Byte} {at_ rtype i j m n start : ℕ} {to_ : Model}

/-! ## The buffer -/

lemma read_eq_some : read text i n = some b ↔
    (i + n < 2 ^ 64 ∧ i + n ≤ text.length) ∧ (text.drop i).take n = b := by
  rw [read, Option.ite_none_right_eq_some, Option.some.injEq]

lemma length_of_read (h : read text i n = some b) : b.length = n ∧ i + n ≤ text.length := by
  obtain ⟨hfit, rfl⟩ := read_eq_some.mp h
  rw [List.length_take, List.length_drop]
  omega

lemma read_of_le (hlen : text.length < 2 ^ 63) (h : i + n ≤ text.length) :
    read text i n = some ((text.drop i).take n) := if_pos ⟨by omega, h⟩

lemma plus_of_lt {k : ℕ → List Byte → Out} (h : i + j < 2 ^ 64) : plus i j k text = k (i + j) text := if_pos h

/-- A read depends on the bytes it covers. -/
lemma read_congr (hlen : text'.length = text.length) (h : ∀ j, i ≤ j → j < i + n → text'[j]? = text[j]?) :
    read text' i n = read text i n := by
  rw [read, read, hlen]
  split
  · refine congrArg some (List.ext_getElem? fun j => ?_)
    rw [List.getElem?_take, List.getElem?_take]
    split
    · rw [List.getElem?_drop, List.getElem?_drop, h _ (by omega) (by omega)]
    · rfl
  · rfl

lemma read_append {a : List Byte} (ha : read text i m = some a) (hb : read text (i + m) n = some b) :
    read text i (m + n) = some (a ++ b) := by
  obtain ⟨-, rfl⟩ := read_eq_some.mp ha
  obtain ⟨hfit, rfl⟩ := read_eq_some.mp hb
  rw [read, if_pos (by omega), List.take_add, List.drop_drop]

/-- What bytes written inside a buffer leave of it. -/
lemma overwrite_eq (h : i + b.length ≤ bytes.length) :
    overwrite bytes i b = bytes.take i ++ (b ++ bytes.drop (i + b.length)) := by
  refine List.ext_getElem? fun j => ?_
  rcases Nat.lt_or_ge j i with hj | hj
  · rw [getElem?_overwrite_of_outside (.inl hj), List.getElem?_append_left (by rw [List.length_take]; omega),
      List.getElem?_take, if_pos hj]
  have htake : (bytes.take i).length = i := by rw [List.length_take]; omega
  rw [List.getElem?_append_right (by omega), htake]
  rcases Nat.lt_or_ge j (i + b.length) with hj' | hj'
  · obtain ⟨k, rfl⟩ := Nat.exists_eq_add_of_le hj
    rw [getElem?_overwrite_of_inside (by omega) h, Nat.add_sub_cancel_left, List.getElem?_append_left (by omega)]
  · rw [getElem?_overwrite_of_outside (.inr hj'), List.getElem?_append_right (by omega), List.getElem?_drop]
    congr 1
    omega

/-- A text that a rewrite has reached: `code` stands in the window, and nothing else has changed. -/
structure Holds (text : List Byte) (start n : ℕ) (code text' : List Byte) : Prop where
  length : text'.length = text.length
  rest : ∀ j, j < start ∨ start + n ≤ j → text'[j]? = text[j]?
  code : read text' start n = some code

/-- Bytes are written inside the window. -/
lemma Holds.put_eq {k : List Byte → Out} (h : Holds text start n code text') (hfit : j + b.length ≤ n) :
    put (start + j) b k text' = k (overwrite text' (start + j) b) := by
  have hin := (length_of_read h.code).2
  exact if_pos (by omega)

/-- They go to the code. -/
lemma Holds.put (h : Holds text start n code text') (hfit : j + b.length ≤ n) :
    Holds text start n (code.take j ++ (b ++ code.drop (j + b.length))) (overwrite text' (start + j) b) := by
  obtain ⟨hcode, hin⟩ := length_of_read h.code
  refine ⟨length_overwrite.trans h.length, fun i hi => ?_, ?_⟩
  · rw [getElem?_overwrite_of_outside (by omega), h.rest i hi]
  · obtain ⟨hread, rfl⟩ := read_eq_some.mp h.code
    rw [← overwrite_eq (by omega), read, if_pos (by rw [length_overwrite]; exact hread)]
    refine congrArg some (List.ext_getElem? fun i => ?_)
    rw [List.getElem?_take, overwrite, overwrite, List.getElem?_mapIdx, List.getElem?_take, List.getElem?_drop,
      List.getElem?_drop, List.getElem?_mapIdx]
    split
    · congr 1
      funext x
      rw [Nat.add_sub_add_left]
      exact if_congr (Nat.add_le_add_iff_left) rfl rfl
    · rfl

lemma Holds.refl (h : read text start n = some code) : Holds text start n code text := ⟨rfl, fun _ _ => rfl, h⟩

/-- The site is refused and the text stays, or the window alone has changed, to a code with a property. -/
def Outcome (text : List Byte) (start n : ℕ) (P : SlotField → List Byte → List Byte → Prop) (o : Out) : Prop :=
  (∃ want, o = refuse want text) ∨ ∃ field text' code code', o = (.ok field, text') ∧
    read text start n = some code ∧ Holds text start n code' text' ∧ P field code code'

/-! ## x86-64 instructions -/

/-- A processor: its general registers and its flags. -/
structure Cpu where
  regs : BitVec 4 → Word
  flags : Word

/-- What surrounds the code: the thread pointer, which stands at `%fs:0`, the memory, the address that the
RIP-relative operand with its field at an offset names, and the flags of a sum. -/
structure Env where
  tp : Word
  mem : Word → Word
  address : ℕ → Word
  addFlags : Word → Word → Word

/-- A register set. -/
def Cpu.set (c : Cpu) (r : BitVec 4) (v : Word) : Cpu := { c with regs := Function.update c.regs r v }

/-- A value added to a register. -/
def Cpu.add (env : Env) (c : Cpu) (r : BitVec 4) (v : Word) : Cpu :=
  ⟨Function.update c.regs r (c.regs r + v), env.addFlags (c.regs r) v⟩

/-- The 64-bit instructions of three bytes and a 32-bit field. -/
inductive Form
  | loadRip (reg : BitVec 4)
  | addRip (reg : BitVec 4)
  | leaRip (reg : BitVec 4)
  | movImm (reg : BitVec 4)
  | addImm (reg : BitVec 4)
  | lea (reg base : BitVec 4)
  deriving DecidableEq

/-- The instruction of a REX prefix with W, an opcode and a ModRM byte that no SIB byte follows. -/
def formOf (rex op modrm : Byte) : Option Form :=
  let reg : BitVec 4 := rex.extractLsb' 2 1 ++ modrm.extractLsb' 3 3
  let rm : BitVec 4 := rex.extractLsb' 0 1 ++ modrm.extractLsb' 0 3
  if rex &&& 0xf8 ≠ 0x48 then none
  else if modrm &&& 0xc7 = 0x05 then
    if op = 0x8b then some (.loadRip reg) else if op = 0x03 then some (.addRip reg)
    else if op = 0x8d then some (.leaRip reg) else none
  else if modrm &&& 0xf8 = 0xc0 then
    if op = 0xc7 then some (.movImm rm) else if op = 0x81 then some (.addImm rm) else none
  else if modrm &&& 0xc0 = 0x80 ∧ modrm &&& 0x07 ≠ 0x04 ∧ op = 0x8d then some (.lea reg rm)
  else none

/-- The instruction at the front of a code. -/
def frontForm : List Byte → Option Form
  | rex :: op :: modrm :: _ => formOf rex op modrm
  | _ => none

/-- What an instruction does, with its field at an offset. -/
def Form.exec (env : Env) (field : ℕ) (imm : BitVec 32) (c : Cpu) : Form → Cpu
  | .loadRip r => c.set r (env.mem (env.address field))
  | .addRip r => c.add env r (env.mem (env.address field))
  | .leaRip r => c.set r (env.address field)
  | .movImm r => c.set r (imm.signExtend 64)
  | .addImm r => c.add env r (imm.signExtend 64)
  | .lea r base => c.set r (c.regs base + imm.signExtend 64)

/-- One instruction of the code at an offset, and its length.  `data16` prefixes say nothing beside a REX
prefix with W. -/
def step (env : Env) (c : Cpu) : ℕ → List Byte → Option (Cpu × ℕ)
  | _, [] => none
  | pos, first :: rest =>
    if first = 0x66 ∧ rest.head? = some 0x90 then some (c, 2)
    else if first = 0x66 then (step env c (pos + 1) rest).map fun s => (s.1, s.2 + 1)
    else if first = 0x64 then if rest.take 8 = x64LoadTp.tail then some (c.set 0 env.tp, 9) else none
    else if rest.length < 6 then none
    else (frontForm (first :: rest)).map fun f =>
      (f.exec env (pos + 3) (BitVec.ofNat 32 (leNat (rest.drop 2) 0 4)) c, 7)

/-- The code at an offset runs to its end. -/
inductive Runs (env : Env) : ℕ → List Byte → Cpu → Cpu → Prop
  | done (pos : ℕ) (c : Cpu) : Runs env pos [] c c
  | step {pos n : ℕ} {code : List Byte} {c c' c'' : Cpu} : step env c pos code = some (c', n) →
    Runs env (pos + n) (code.drop n) c' c'' → Runs env pos code c c''

/-- The variable's offset from the thread pointer, as the rewritten code has it: its own, or the quadword
of the slot. -/
def x64Offset (env : Env) : Model → SlotField → Option Word
  | .localExec t, none => some (t.signExtend 64)
  | .initialExec, some (f, R_X86_64_GOTTPOFF) => some (env.mem (env.address f))
  | _, _ => none

/-- The first byte of a sequence and its length. -/
def x64Window (text : List Byte) (at_ : ℕ) : ℕ → ℕ × ℕ
  | R_X86_64_GOTTPOFF | R_X86_64_GOTPC32_TLSDESC => (at_ - 3, 7)
  | R_X86_64_TLSGD => (at_ - 4, 16)
  | R_X86_64_TLSLD => (at_ - 3, if text[at_ + 4]? = some 0xe8 then 12 else 13)
  | _ => (at_, 2)

/-- What the rewritten sequence does.  The flags are the original's to write in an addition and in a call. -/
def X64Effect (rtype : ℕ) (off : Option Word) (env : Env) (code : List Byte) (c c' : Cpu) : Prop :=
  match rtype with
  | R_X86_64_GOTTPOFF => ∃ v r, off = some v ∧
    (frontForm code = some (.loadRip r) ∧ c' = c.set r v ∨
      frontForm code = some (.addRip r) ∧ c'.regs = Function.update c.regs r (c.regs r + v))
  | R_X86_64_TLSGD => ∃ v, off = some v ∧ c'.regs = Function.update c.regs 0 (env.tp + v)
  | R_X86_64_TLSLD => c' = c.set 0 env.tp
  | R_X86_64_GOTPC32_TLSDESC => ∃ v r, off = some v ∧ frontForm code = some (.leaRip r) ∧ c' = c.set r v
  | R_X86_64_TLSDESC_CALL => c' = c
  | _ => False

/-- An x86-64 rewrite refuses the site, or changes its sequence to code with the right effect. -/
def X64Exact (text : List Byte) (at_ rtype : ℕ) (to_ : Model) : Prop :=
  Outcome text (x64Window text at_ rtype).1 (x64Window text at_ rtype).2
    (fun field code code' => ∀ env c, ∃ c', Runs env (x64Window text at_ rtype).1 code' c c' ∧
      X64Effect rtype (x64Offset env to_ field) env code c c')
    (x86_64Rewrite text at_ rtype to_)

variable {env : Env} {c c' : Cpu} {rex op modrm : Byte} {f : Form} {pos : ℕ}

/-- An instruction with a field runs. -/
lemma step_form (hf : formOf rex op modrm = some f) (h : 4 ≤ b.length) :
    step env c pos (rex :: op :: modrm :: b) =
      some (f.exec env (pos + 3) (BitVec.ofNat 32 (leNat b 0 4)) c, 7) := by
  have hrex : rex &&& 0xf8 = 0x48 := by
    by_contra hne
    rw [formOf, if_pos hne] at hf
    cases hf
  have h66 : rex ≠ 0x66 := by rintro rfl; exact absurd hrex (by decide)
  have h64 : rex ≠ 0x64 := by rintro rfl; exact absurd hrex (by decide)
  rw [step, if_neg (fun h => h66 h.1), if_neg h66, if_neg h64,
    if_neg (by simp only [List.length_cons]; omega), frontForm, hf]
  rfl

lemma imm_leBytes (t : BitVec 32) (rest : List Byte) : BitVec.ofNat 32 (leNat (leBytes 4 t.toNat ++ rest) 0 4) = t := by
  have h := leNat_append_leBytes (n := 4) (x := t.toNat) [] rest
  rw [List.nil_append, List.length_nil] at h
  rw [h, Nat.mod_eq_of_lt (show t.toNat < 256 ^ 4 from t.isLt), BitVec.ofNat_toNat, BitVec.setWidth_eq]

lemma Runs.form (hf : formOf rex op modrm = some f) (h : b.length = 4) :
    Runs env pos (rex :: op :: modrm :: b) c (f.exec env (pos + 3) (BitVec.ofNat 32 (leNat b 0 4)) c) := by
  refine .step (step_form hf h.ge) ?_
  rw [show (rex :: op :: modrm :: b).drop 7 = [] from List.drop_eq_nil_of_le (by simp [h])]
  exact .done _ _

lemma Runs.imm (hf : formOf rex op modrm = some f) (t : BitVec 32) :
    Runs env pos (rex :: op :: modrm :: leBytes 4 t.toNat) c (f.exec env (pos + 3) t c) := by
  have h := @Runs.form (leBytes 4 t.toNat) env c rex op modrm f pos hf length_leBytes
  have himm := imm_leBytes t []
  rw [List.append_nil] at himm
  rwa [himm] at h

/-! ## The x86-64 rewrites -/

/-- The instructions an initial-exec one is rewritten to. -/
lemma gottpoff_forms (hrex : rex = 0x48 ∨ rex = 0x4c) (hmodrm : modrm &&& 0xc7 = 0x05) :
    ∃ r, formOf rex 0x8b modrm = some (.loadRip r) ∧ formOf rex 0x03 modrm = some (.addRip r) ∧
      formOf rex 0x8d modrm = some (.leaRip r) ∧
      formOf (0x48 ||| rex >>> 2 &&& 1) 0xc7 (0xc0 ||| modrm >>> 3 &&& 7) = some (.movImm r) ∧
      formOf (0x48 ||| rex >>> 2 &&& 1) 0x81 (0xc0 ||| modrm >>> 3 &&& 7) = some (.addImm r) ∧
      (modrm >>> 3 &&& 7 ≠ 4 → formOf (0x48 ||| (rex >>> 2 &&& 1) <<< 2 ||| rex >>> 2 &&& 1) 0x8d
        (0x80 ||| (modrm >>> 3 &&& 7) <<< 3 ||| modrm >>> 3 &&& 7) = some (.lea r r)) := by
  refine ⟨rex.extractLsb' 2 1 ++ modrm.extractLsb' 3 3, ?_⟩
  obtain rfl | rfl := hrex
  · revert modrm
    decide +kernel
  · revert modrm
    decide +kernel

/-- Three bytes and a field, written over a window. -/
lemma put_insn (hwin : read text start 7 = some code) (insn : List Byte) {imm : List Byte} (hinsn : insn.length = 3)
    (himm : imm.length = 4) :
    ∃ text', put start insn (put (start + 3) imm fun text => (.ok none, text)) text = (.ok none, text') ∧
      Holds text start 7 (insn ++ imm) text' := by
  have h := (Holds.refl hwin).put (j := 0) (show 0 + insn.length ≤ 7 by omega)
  have h' := h.put (j := 3) (show 3 + imm.length ≤ 7 by omega)
  refine ⟨_, ((Holds.refl hwin).put_eq (j := 0) (by omega)).trans (h.put_eq (j := 3) (by omega)), ?_⟩
  have hcode := (length_of_read hwin).1
  have hrest : (insn ++ code.drop (0 + insn.length)).drop (3 + imm.length) = [] :=
    List.drop_eq_nil_of_le (by rw [List.length_append, List.length_drop]; omega)
  rwa [List.take_zero, List.nil_append, hrest, List.append_nil, List.take_left' hinsn] at h'

/-- **Initial-exec.** -/
lemma gottpoff_exact (t : BitVec 32) : X64Exact text at_ R_X86_64_GOTTPOFF (.localExec t) := by
  show Outcome text (at_ - 3) 7 _ (gottpoff at_ (leBytes 4 t.toNat) text)
  unfold gottpoff
  dsimp only
  split
  · exact .inl ⟨_, rfl⟩
  obtain ⟨start, rfl⟩ : ∃ s, at_ = s + 3 := ⟨at_ - 3, by omega⟩
  rw [Nat.add_sub_cancel]
  split
  · rename_i rex op modrm field hlead hfield
    split
    · exact .inl ⟨_, rfl⟩
    rename_i hc
    obtain ⟨hrex, hop, hmodrm⟩ := not_not.mp hc
    obtain ⟨r, hload, hadd, -, hmov, hsum, hlea⟩ := gottpoff_forms hrex hmodrm
    have hwin := read_append hlead hfield
    generalize hinsn : (if op = 0x8b then _ else _ : List Byte) = insn
    have h3 : insn.length = 3 := by rw [← hinsn]; split_ifs <;> rfl
    obtain ⟨text', hput, h⟩ := put_insn hwin _ h3 (length_leBytes (n := 4) (x := t.toNat))
    refine .inr ⟨none, text', _, _, hput, hwin, h, fun env c => ?_⟩
    rw [← hinsn]
    obtain rfl | rfl := hop
    · exact ⟨_, .imm hmov t, _, r, rfl, .inl ⟨hload, rfl⟩⟩
    · rw [if_neg (by decide)]
      split
      · exact ⟨_, .imm hsum t, _, r, rfl, .inr ⟨hadd, rfl⟩⟩
      · rename_i hreg
        exact ⟨_, .imm (hlea hreg) t, _, r, rfl, .inr ⟨hadd, rfl⟩⟩
  · exact .inl ⟨_, rfl⟩

/-- The bytes of the offset that a model takes. -/
def offsetBytes : Model → Option (List Byte)
  | .localExec t => some (leBytes 4 t.toNat)
  | .initialExec => none

/-- **The descriptor's address.** -/
lemma gotpc32Tlsdesc_exact : X64Exact text at_ R_X86_64_GOTPC32_TLSDESC to_ := by
  have hdesc : x86_64Rewrite text at_ R_X86_64_GOTPC32_TLSDESC to_ =
      gotpc32Tlsdesc at_ (offsetBytes to_) text := by cases to_ <;> rfl
  have hrex4 : ∀ rex : Byte, rex &&& 0xfb = 0x48 → rex = 0x48 ∨ rex = 0x4c := by decide +kernel
  show Outcome text (at_ - 3) 7 _ (x86_64Rewrite text at_ R_X86_64_GOTPC32_TLSDESC to_)
  rw [hdesc, gotpc32Tlsdesc]
  dsimp only
  split
  · exact .inl ⟨_, rfl⟩
  obtain ⟨start, rfl⟩ : ∃ s, at_ = s + 3 := ⟨at_ - 3, by omega⟩
  rw [Nat.add_sub_cancel]
  split
  · rename_i rex op modrm field hlead hfield
    split
    · exact .inl ⟨_, rfl⟩
    rename_i hc
    simp only [not_or, not_not] at hc
    obtain ⟨hrex, rfl, hmodrm⟩ := hc
    obtain ⟨r, hload, -, hlea, hmov, -, -⟩ := gottpoff_forms (hrex4 _ hrex) hmodrm
    have hwin := read_append hlead hfield
    cases to_ with
    | localExec t =>
      obtain ⟨text', hput, h⟩ := put_insn hwin [_, _, _] rfl (length_leBytes (n := 4) (x := t.toNat))
      exact .inr ⟨none, text', _, _, hput, hwin, h, fun env c =>
        ⟨_, .imm hmov t, _, r, rfl, hlea, rfl⟩⟩
    | initialExec =>
      have hfit : 1 + [(0x8b : Byte)].length ≤ 7 := by decide
      exact .inr ⟨_, _, _, _, (Holds.refl hwin).put_eq hfit, hwin, (Holds.refl hwin).put hfit, fun env c =>
        ⟨_, .form hload (length_of_read hfield).1, _, r, rfl, hlea, rfl⟩⟩
  · exact .inl ⟨_, rfl⟩

/-- **The call through a descriptor.** -/
lemma tlsdescCall_exact : X64Exact text at_ R_X86_64_TLSDESC_CALL to_ := by
  have hcall : x86_64Rewrite text at_ R_X86_64_TLSDESC_CALL to_ = tlsdescCall at_ text := by cases to_ <;> rfl
  show Outcome text at_ 2 _ (x86_64Rewrite text at_ R_X86_64_TLSDESC_CALL to_)
  rw [hcall, tlsdescCall]
  split
  · exact .inl ⟨_, rfl⟩
  rename_i hread
  have hwin := Holds.refl (not_not.mp hread)
  have hfit : 0 + [(0x66 : Byte), 0x90].length ≤ 2 := by decide
  exact .inr ⟨_, _, _, _, hwin.put_eq hfit, hwin.code, hwin.put hfit, fun env c => ⟨c, .step rfl (.done _ _), rfl⟩⟩

lemma step_loadTp : step env c pos (x64LoadTp ++ b) = some (c.set 0 env.tp, 9) := rfl

/-- **General-dynamic.** -/
lemma tlsgd_exact (hlen : text.length < 2 ^ 63) : X64Exact text at_ R_X86_64_TLSGD to_ := by
  have hgd : x86_64Rewrite text at_ R_X86_64_TLSGD to_ = tlsgd at_ (offsetBytes to_) text := by
    cases to_ <;> rfl
  show Outcome text (at_ - 4) 16 _ (x86_64Rewrite text at_ R_X86_64_TLSGD to_)
  rw [hgd, tlsgd]
  dsimp only
  split
  · exact .inl ⟨_, rfl⟩
  obtain ⟨start, rfl⟩ : ∃ s, at_ = s + 4 := ⟨at_ - 4, by omega⟩
  rw [Nat.add_sub_cancel]
  split
  · exact .inl ⟨_, rfl⟩
  rename_i lead hlead
  have hat := (length_of_read hlead).2
  rw [plus_of_lt (by omega)]
  split
  · exact .inl ⟨_, rfl⟩
  rw [plus_of_lt (by omega)]
  split
  · exact .inl ⟨_, rfl⟩
  rename_i hlast
  obtain ⟨last, hlast⟩ := Option.ne_none_iff_exists'.mp fun h => hlast (Option.isNone_iff_eq_none.mpr h)
  have hend := (length_of_read hlast).2
  split
  · exact .inl ⟨_, rfl⟩
  have hwin := read_of_le hlen (show start + 16 ≤ text.length by omega)
  generalize (text.drop start).take 16 = code at hwin
  have hcode := (length_of_read hwin).1
  have hfirst : 0 + x64LoadTp.length ≤ 16 := by decide
  have hsecond : 9 + [(0x48 : Byte), 0x8d, 0x80].length ≤ 16 := by decide
  have h := (Holds.refl hwin).put hfirst
  rw [List.take_zero, List.nil_append, Nat.zero_add] at h
  have hregs : ∀ (c : Cpu) (tp v : Word), Function.update (Function.update c.regs 0 tp) 0
      (Function.update c.regs 0 tp 0 + v) = Function.update c.regs 0 (tp + v) := fun c tp v => by
    rw [Function.update_self, Function.update_idem]
  cases to_ with
  | localExec t =>
    have h1 := h.put (b := [0x48, 0x8d, 0x80]) hsecond
    have hthird : 12 + (leBytes 4 t.toNat).length ≤ 16 := by rw [length_leBytes]
    have h2 := h1.put hthird
    rw [List.drop_eq_nil_of_le ((length_of_read h1.code).1.trans_le (by rw [length_leBytes]))] at h2
    exact .inr ⟨_, _, _, _, ((Holds.refl hwin).put_eq hfirst).trans ((h.put_eq hsecond).trans (h1.put_eq hthird)),
      hwin, h2, fun env c => ⟨_, .step step_loadTp (Runs.imm (f := .lea 0 0) (by decide) t), _, rfl, hregs c _ _⟩⟩
  | initialExec =>
    have h1 := h.put (b := [0x48, 0x03, 0x05]) hsecond
    refine .inr ⟨_, _, _, _, ((Holds.refl hwin).put_eq hfirst).trans (h.put_eq hsecond), hwin, h1, fun env c => ?_⟩
    have hfield : ((x64LoadTp ++ code.drop 9).drop 12).length = 4 := by
      rw [List.length_drop, List.length_append, List.length_drop, hcode]
      rfl
    exact ⟨_, .step step_loadTp (Runs.form (f := .addRip 0) (by decide) hfield), _, rfl, hregs c _ _⟩

lemma step_data16 (n : ℕ) : step env c pos (List.replicate n 0x66 ++ x64LoadTp) = some (c.set 0 env.tp, n + 9) := by
  induction n generalizing pos with
  | zero => rfl
  | succ n ih =>
    have hhead : (List.replicate n 0x66 ++ x64LoadTp).head? ≠ some 0x90 := by cases n <;> simp [x64LoadTp, List.replicate_succ]
    rw [List.replicate_succ, List.cons_append, step, if_neg (fun h => hhead h.2), if_pos rfl, ih]
    rfl

lemma head_of_read (h : read text i (n + 1) = some b) : b.head? = text[i]? := by
  obtain ⟨-, rfl⟩ := read_eq_some.mp h
  rw [List.head?_take, if_neg (Nat.succ_ne_zero n), List.head?_drop]

/-- **Local-dynamic.**  The site is refused or rewritten where the sum of its bound does not overflow. -/
lemma tlsld_exact (hlen : text.length < 2 ^ 63) (hat : at_ + 6 < 2 ^ 64) (t : BitVec 32) :
    X64Exact text at_ R_X86_64_TLSLD (.localExec t) := by
  show Outcome text (at_ - 3) (if text[at_ + 4]? = some 0xe8 then 12 else 13) _ (tlsld at_ text)
  unfold tlsld
  dsimp only
  by_cases h3 : at_ < 3
  · rw [if_pos h3]
    exact .inl ⟨_, rfl⟩
  obtain ⟨start, rfl⟩ : ∃ s, at_ = s + 3 := ⟨at_ - 3, by omega⟩
  rw [if_neg h3, plus_of_lt (by omega), plus_of_lt hat, Nat.add_sub_cancel]
  cases read text start 3 with
  | none => exact .inl ⟨_, rfl⟩
  | some lead =>
    cases hcall : read text (start + 3 + 4) 2 with
    | none => exact .inl ⟨_, rfl⟩
    | some call =>
    have hhead := head_of_read hcall
    have hat' := (length_of_read hcall).2
    -- Either form of the call is rewritten over its whole length.
    have hrewrite : ∀ len, 9 ≤ len → len ≤ 13 → Outcome text start len (fun field _ code' => ∀ (env : Env) (c : Cpu), ∃ c',
        Runs env start code' c c' ∧ c' = c.set 0 env.tp)
        (plus start len (fun stop text =>
          if text.length < stop then refuse "`lea` to %rdi, then the `__tls_get_addr` call" text
          else put start (List.replicate (len - 9) 0x66)
            (put (stop - 9) x64LoadTp fun text => (.ok none, text)) text) text) := by
      intro len hlen9 hlen13
      rw [plus_of_lt (by omega)]
      split
      · exact .inl ⟨_, rfl⟩
      rename_i hfit
      have hwin := read_of_le hlen (Nat.le_of_not_lt hfit)
      have hfirst : 0 + (List.replicate (len - 9) (0x66 : Byte)).length ≤ len := by
        rw [List.length_replicate]
        omega
      have hsecond : len - 9 + x64LoadTp.length ≤ len := (Nat.sub_add_cancel hlen9).le
      have h := (Holds.refl hwin).put hfirst
      rw [List.take_zero, List.nil_append] at h
      have h1 := h.put hsecond
      have hend : len - 9 + x64LoadTp.length = len := Nat.sub_add_cancel hlen9
      rw [List.take_left' List.length_replicate, hend, List.drop_eq_nil_of_le (length_of_read h.code).1.le,
        List.append_nil] at h1
      refine .inr ⟨none, _, _, _, ((Holds.refl hwin).put_eq hfirst).trans ?_, hwin, h1, fun env c =>
        ⟨_, .step (step_data16 _) ?_, rfl⟩⟩
      · rw [Nat.add_sub_assoc hlen9]
        exact h.put_eq hsecond
      · rw [List.drop_eq_nil_of_le (by rw [List.length_append, List.length_replicate]; exact le_rfl)]
        exact .done _ _
    by_cases hc : lead = [0x48, 0x8d, 0x3d] ∧ call.head? = some 0xe8
    · dsimp only
      rw [if_pos hc, ← hhead, if_pos hc.2]
      exact hrewrite 12 (by decide) (by decide)
    dsimp only
    rw [if_neg hc]
    by_cases hc' : lead = [0x48, 0x8d, 0x3d] ∧ call = [0xff, 0x15]
    · rw [if_pos hc', ← hhead, hc'.2, if_neg (by decide)]
      exact hrewrite 13 (by decide) (by decide)
    · rw [if_neg hc']
      exact .inl ⟨_, rfl⟩

/-! ## AArch64 instructions -/

/-- What surrounds the code: the thread pointer, the memory, the page that the `adrp` at an offset names and
the offset in it that the `ldr` at an offset adds, as they are relocated. -/
structure A64Env where
  tp : Word
  mem : Word → Word
  page : ℕ → Word
  lo12 : ℕ → Word

/-- A register set; register 31 is the zero register. -/
def setX (x : BitVec 5 → Word) (r : BitVec 5) (v : Word) : BitVec 5 → Word :=
  if r = 31 then x else Function.update x r v

/-- What the instruction at an offset does. -/
def execA64 (env : A64Env) (x : BitVec 5 → Word) (at_ : ℕ) (w : BitVec 32) : Option (BitVec 5 → Word) :=
  let rd := w.extractLsb' 0 5
  let rn := w.extractLsb' 5 5
  if w = a64Nop then some x
  else if w &&& 0xffffffe0 = 0xd53bd040 then some (setX x rd env.tp)
  else if w &&& 0xffe0fc00 = 0x8b000000 then
    some (setX x rd (readX x rn + readX x (w.extractLsb' 16 5)))
  else if w &&& 0x9f000000 = 0x90000000 then some (setX x rd (env.page at_))
  else if w &&& 0xffc00000 = 0xf9400000 ∧ rn ≠ 31 then some (setX x rd (env.mem (x rn + env.lo12 at_)))
  -- A move-wide instruction to the zero register.
  else if w.extractLsb' 23 9 &&& 0x3f = 0x25 ∧ rd = 31 then some x
  else exec x w

/-- The instructions at some offsets, one after the other. -/
def runA64 (env : A64Env) (text : List Byte) : List ℕ → (BitVec 5 → Word) → Option (BitVec 5 → Word)
  | [], x => some x
  | at_ :: ats, x => (word text at_).bind fun w => (execA64 env x at_ w).bind (runA64 env text ats)

/-- A relocation to rewrite at, and its model. -/
structure Site where
  at_ : ℕ
  rtype : ℕ
  to_ : Model

/-- The bytes a relocation's rewrite covers. -/
def a64Span : ℕ → ℕ
  | R_AARCH64_TLSGD_ADD_LO12_NC => 12
  | _ => 4

/-- Two sites that cover different bytes. -/
def Site.Apart (s s' : Site) : Prop := s.at_ + a64Span s.rtype ≤ s'.at_ ∨ s'.at_ + a64Span s'.rtype ≤ s.at_

/-- The relocations of a text rewritten one at a time, none refused. -/
def rewriteAll (text : List Byte) : List Site → Option (List Byte)
  | [] => some text
  | s :: sites => match aarch64Rewrite text s.at_ s.rtype s.to_ with
    | (.ok _, text) => rewriteAll text sites
    | _ => none

/-- The slot field a rewrite returns. -/
def a64Field (at_ : ℕ) : ℕ → Model → SlotField
  | R_AARCH64_TLSGD_ADR_PAGE21, .initialExec | R_AARCH64_TLSDESC_ADR_PAGE21, .initialExec =>
    some (at_, R_AARCH64_TLSIE_ADR_GOTTPREL_PAGE21)
  | R_AARCH64_TLSGD_ADD_LO12_NC, .initialExec | R_AARCH64_TLSDESC_LD64_LO12, .initialExec =>
    some (at_, R_AARCH64_TLSIE_LD64_GOTTPREL_LO12_NC)
  | _, _ => none

/-- An aarch64 rewrite refuses the site, or changes its instructions alone. -/
def A64Exact (text : List Byte) (at_ rtype : ℕ) (to_ : Model) : Prop :=
  Outcome text at_ (a64Span rtype) (fun field _ _ => field = a64Field at_ rtype to_)
    (aarch64Rewrite text at_ rtype to_)

/-- The variable's offset, as the rewritten code has it: its own, or that in the slot. -/
def A64Env.offset (env : A64Env) (page load : ℕ) : Model → Word
  | .localExec t => t.setWidth 64
  | .initialExec => env.mem (env.page page + env.lo12 load)

/-- The sequences of a text whose relocations, among others, are rewritten one at a time: an initial-exec one
in any register, a general-dynamic one, which may write x1 as its call may, and a descriptor's. -/
def A64Sequences (text : List Byte) : Prop :=
  ∀ (sites : List Site) (text' : List Byte), sites.Pairwise Site.Apart → rewriteAll text sites = some text' →
  ∀ (env : A64Env) (x : BitVec 5 → Word),
    (∀ page load t p l, ⟨page, R_AARCH64_TLSIE_ADR_GOTTPREL_PAGE21, .localExec t⟩ ∈ sites →
      ⟨load, R_AARCH64_TLSIE_LD64_GOTTPREL_LO12_NC, .localExec t⟩ ∈ sites → word text page = some p →
      word text load = some l → l.extractLsb' 5 5 = p.extractLsb' 0 5 →
      runA64 env text' [page, load] x = some (setX x (p.extractLsb' 0 5) (t.setWidth 64))) ∧
    (∀ page add to_, ⟨page, R_AARCH64_TLSGD_ADR_PAGE21, to_⟩ ∈ sites →
      ⟨add, R_AARCH64_TLSGD_ADD_LO12_NC, to_⟩ ∈ sites →
      runA64 env text' [page, add, add + 4, add + 8] x =
        some (Function.update (Function.update x 1 env.tp) 0 (env.tp + env.offset page add to_))) ∧
    ∀ page load add call to_, ⟨page, R_AARCH64_TLSDESC_ADR_PAGE21, to_⟩ ∈ sites →
      ⟨load, R_AARCH64_TLSDESC_LD64_LO12, to_⟩ ∈ sites → ⟨add, R_AARCH64_TLSDESC_ADD_LO12, to_⟩ ∈ sites →
      ⟨call, R_AARCH64_TLSDESC_CALL, to_⟩ ∈ sites →
      runA64 env text' [page, load, add, call] x = some (Function.update x 0 (env.offset page load to_))

variable {aenv : A64Env} {x : BitVec 5 → Word} {w insn t : BitVec 32} {rd : BitVec 5} {sites : List Site} {s : Site}

lemma and_of_and {a v k : BitVec 32} (h : w &&& a = v) (hk : a &&& k = k) : w &&& k = v &&& k := by
  rw [← h, BitVec.and_assoc, hk]

lemma top_of_and {a v : BitVec 32} (h : w &&& a = v) :
    w.extractLsb' 23 9 &&& a.extractLsb' 23 9 = v.extractLsb' 23 9 := by
  rw [← BitVec.extractLsb'_and, h]

/-- A move-wide instruction. -/
lemma execA64_wide (h0 : w.extractLsb' 0 5 = rd) (h23 : w.extractLsb' 23 9 = 0x1a5 ∨ w.extractLsb' 23 9 = 0x1e5) :
    execA64 aenv x at_ w = if rd = 31 then some x else exec x w := by
  have hmask : ∀ a v : BitVec 32, 0x1a5 &&& a.extractLsb' 23 9 ≠ v.extractLsb' 23 9 →
      0x1e5 &&& a.extractLsb' 23 9 ≠ v.extractLsb' 23 9 → ¬ w &&& a = v := by
    intro a v h1 h2 h
    have := top_of_and h
    obtain h23 | h23 := h23 <;> rw [h23] at this
    · exact h1 this
    · exact h2 this
  have hnop : w ≠ a64Nop := by
    rintro rfl
    exact absurd h23 (by decide)
  have hwide : w.extractLsb' 23 9 &&& 0x3f = 0x25 := by obtain h23 | h23 := h23 <;> rw [h23] <;> rfl
  rw [execA64, if_neg hnop, if_neg (hmask _ _ (by decide) (by decide)), if_neg (hmask _ _ (by decide) (by decide)),
    if_neg (hmask _ _ (by decide) (by decide)), if_neg fun h => hmask _ _ (by decide) (by decide) h.1, h0]
  simp only [hwide, true_and]

lemma field_eq (w : BitVec 32) (k : ℕ) : w >>> k &&& 0x1f = (w.extractLsb' k 5).setWidth 32 := by
  refine BitVec.eq_of_getLsbD_eq fun i hi => ?_
  have hmask : (0x1f : BitVec 32).getLsbD i = decide (i < 5) := by
    revert i
    decide
  rw [BitVec.getLsbD_and, BitVec.getLsbD_ushiftRight, hmask, BitVec.getLsbD_setWidth, BitVec.getLsbD_extractLsb',
    decide_eq_true hi, Bool.true_and, Bool.and_comm]

lemma field_inj {a b : BitVec 5} (h : a.setWidth 32 = b.setWidth 32) : a = b := by
  have h' := congrArg (BitVec.setWidth 5) h
  rwa [BitVec.setWidth_setWidth_of_le _ (by decide), BitVec.setWidth_setWidth_of_le _ (by decide), BitVec.setWidth_eq,
    BitVec.setWidth_eq] at h'

/-- The `movz` is the architecture's. -/
lemma movz_eq (t insn : BitVec 32) :
    movz t (insn &&& 0x1f) = encMovz (insn.extractLsb' 0 5) (t.extractLsb' 16 16) 1 := by
  have hhigh : t >>> 16 = (t.extractLsb' 16 16).setWidth 32 := by
    refine BitVec.eq_of_getLsbD_eq fun i hi => ?_
    rw [BitVec.getLsbD_ushiftRight, BitVec.getLsbD_setWidth, BitVec.getLsbD_extractLsb', decide_eq_true hi, Bool.true_and]
    by_cases h : i < 16
    · rw [decide_eq_true h, Bool.true_and]
    · rw [decide_eq_false h, Bool.false_and, BitVec.getLsbD_of_ge _ _ (by omega)]
  have hrd := field_eq insn 0
  rw [BitVec.ushiftRight_zero] at hrd
  rw [movz, encMovz, encMoveWide, hhigh, hrd]
  rfl

/-- So is the `movk`. -/
lemma movk_eq (t insn : BitVec 32) :
    movk t (insn &&& 0x1f) = encMovk (insn.extractLsb' 0 5) (t.setWidth 16) 0 := by
  have hlow : t &&& 0xffff = (t.setWidth 16).setWidth 32 := by
    refine BitVec.eq_of_getLsbD_eq fun i hi => ?_
    have hmask : (0xffff : BitVec 32).getLsbD i = decide (i < 16) := by
      revert i
      decide
    rw [BitVec.getLsbD_and, hmask, BitVec.getLsbD_setWidth, BitVec.getLsbD_setWidth, decide_eq_true hi, Bool.true_and,
      Bool.and_comm]
  have hrd := field_eq insn 0
  rw [BitVec.ushiftRight_zero] at hrd
  rw [movk, encMovk, encMoveWide, hlow, hrd]
  rfl

lemma execA64_movz : execA64 aenv x at_ (movz t (insn &&& 0x1f)) =
    some (setX x (insn.extractLsb' 0 5) ((t.extractLsb' 16 16).setWidth 64 <<< 16)) := by
  obtain ⟨h0, -, -, h23⟩ := @encMoveWide_fields (insn.extractLsb' 0 5) (t.extractLsb' 16 16) 1 0xD2800000 (by decide)
    (by decide)
  rw [movz_eq, encMovz, execA64_wide h0 (.inl h23), setX]
  by_cases h : insn.extractLsb' 0 5 = 31
  · rw [if_pos h, if_pos h]
  · rw [if_neg h, if_neg h]
    exact exec_movz h (by decide)

lemma execA64_movk : execA64 aenv x at_ (movk t (insn &&& 0x1f)) = some (setX x (insn.extractLsb' 0 5)
    (insertBits (x (insn.extractLsb' 0 5)) 0 16 ((t.setWidth 16).setWidth 64))) := by
  obtain ⟨h0, -, -, h23⟩ := @encMoveWide_fields (insn.extractLsb' 0 5) (t.setWidth 16) 0 0xF2800000 (by decide)
    (by decide)
  rw [movk_eq, encMovk, execA64_wide h0 (.inr h23), setX]
  by_cases h : insn.extractLsb' 0 5 = 31
  · rw [if_pos h, if_pos h]
  · rw [if_neg h, if_neg h]
    exact exec_movk h (by decide)

/-- The halves make the offset. -/
lemma insertBits_halves (t : BitVec 32) :
    insertBits ((t.extractLsb' 16 16).setWidth 64 <<< 16) 0 16 ((t.setWidth 16).setWidth 64) =
      (t.setWidth 64 : Word) := by
  refine BitVec.eq_of_getLsbD_eq fun i hi => ?_
  rw [getLsbD_insertBits _ _ _ _ hi]
  split
  · simp only [Nat.sub_zero, BitVec.getLsbD_setWidth]
    simp [hi, show i < 16 by omega]
  · have h : 16 ≤ i := by omega
    rw [BitVec.getLsbD_shiftLeft, BitVec.getLsbD_setWidth, BitVec.getLsbD_extractLsb', BitVec.getLsbD_setWidth]
    simp only [hi, decide_true, Bool.true_and, Nat.not_lt.mpr h, decide_false, Bool.not_false,
      Nat.add_sub_cancel' h, show i - 16 < 64 by omega]
    by_cases h' : i - 16 < 16
    · simp [h']
    · rw [decide_eq_false h', Bool.false_and, BitVec.getLsbD_of_ge _ _ (by omega)]

lemma setX_setX (x : BitVec 5 → Word) (r : BitVec 5) (u v : Word) : setX (setX x r u) r v = setX x r v := by
  unfold setX
  split
  · rfl
  · exact Function.update_idem _ _ _

lemma execA64_halves (hrd : insn.extractLsb' 0 5 = w.extractLsb' 0 5) {i : ℕ} :
    (execA64 aenv x at_ (movz t (insn &&& 0x1f))).bind (fun x => execA64 aenv x i (movk t (w &&& 0x1f))) =
      some (setX x (insn.extractLsb' 0 5) (t.setWidth 64)) := by
  rw [execA64_movz, Option.bind_some, execA64_movk, ← hrd, setX_setX]
  unfold setX
  by_cases h : insn.extractLsb' 0 5 = 31
  · rw [if_pos h, if_pos h]
  · rw [if_neg h, if_neg h, if_neg h, Function.update_self, insertBits_halves]

/-- An `adrp` to x0. -/
lemma execA64_adrp (h : insn &&& 0x9f00001f = 0x90000000) :
    execA64 aenv x at_ insn = some (Function.update x 0 (aenv.page at_)) := by
  have hpage : insn &&& 0x9f000000 = 0x90000000 := and_of_and h (by decide)
  have hmask : ∀ a v : BitVec 32, a &&& 0x9f000000 = 0x9f000000 → v &&& 0x9f000000 ≠ 0x90000000 → ¬ insn &&& a = v :=
    fun a v ha hv h => hv ((and_of_and h ha).symm.trans hpage)
  have hnop : insn ≠ a64Nop := by
    rintro rfl
    exact absurd hpage (by decide)
  have hrd : insn.extractLsb' 0 5 = 0 := by
    have h0 : insn &&& 0x1f = 0 := and_of_and h (by decide)
    have hfield := field_eq insn 0
    rw [BitVec.ushiftRight_zero, h0] at hfield
    exact (field_inj (a := 0) hfield).symm
  rw [execA64, if_neg hnop, if_neg (hmask _ _ (by decide) (by decide)), if_neg (hmask _ _ (by decide) (by decide)),
    if_pos hpage, hrd]
  rfl

/-! ## The AArch64 rewrites -/

/-- The part of the offset that a sequence's first word takes. -/
def pageWord (insn : BitVec 32) : Model → BitVec 32
  | .localExec t => movz t 0
  | .initialExec => insn

/-- The part its second one does. -/
def lowWord : Model → BitVec 32
  | .localExec t => movk t 0
  | .initialExec => a64LdrX0X0

/-- The words of a rewrite. -/
def a64Part (insn : BitVec 32) : ℕ → Model → List (BitVec 32)
  | R_AARCH64_TLSIE_ADR_GOTTPREL_PAGE21, .localExec t => [movz t (insn &&& 0x1f)]
  | R_AARCH64_TLSIE_LD64_GOTTPREL_LO12_NC, .localExec t => [movk t (insn &&& 0x1f)]
  | R_AARCH64_TLSGD_ADR_PAGE21, to_ | R_AARCH64_TLSDESC_ADR_PAGE21, to_ => [pageWord insn to_]
  | R_AARCH64_TLSGD_ADD_LO12_NC, to_ => [lowWord to_, a64MrsX1Tp, a64AddX0X1X0]
  | R_AARCH64_TLSDESC_LD64_LO12, to_ => [lowWord to_]
  | R_AARCH64_TLSDESC_ADD_LO12, _ | R_AARCH64_TLSDESC_CALL, _ => [a64Nop]
  | _, _ => [insn]

/-- What a rewrite has checked of the instruction, as far as the sequences rest on it. -/
def A64Checked (insn : BitVec 32) : ℕ → Prop
  | R_AARCH64_TLSIE_LD64_GOTTPREL_LO12_NC => insn &&& 0x1f = insn >>> 5 &&& 0x1f
  | R_AARCH64_TLSGD_ADR_PAGE21 | R_AARCH64_TLSDESC_ADR_PAGE21 => insn &&& 0x9f00001f = 0x90000000
  | _ => True

/-- The bytes of words. -/
def bytesOf (ws : List (BitVec 32)) : List Byte := ws.flatMap fun w => leBytes 4 w.toNat

/-- The window of a site after its rewrite. -/
def Wrote (text : List Byte) (at_ rtype : ℕ) (to_ : Model) (text' : List Byte) : Prop :=
  ∃ insn, word text at_ = some insn ∧ A64Checked insn rtype ∧
    Holds text at_ (a64Span rtype) (bytesOf (a64Part insn rtype to_)) text'

lemma word_eq_some (h : word text at_ = some w) : ∃ b, read text at_ 4 = some b := by
  obtain ⟨b, hb, -⟩ := Option.map_eq_some_iff.mp h
  exact ⟨b, hb⟩

lemma putWord_word (h : word text at_ = some insn) (field : SlotField) :
    ∃ text', putWord at_ w (fun text => (.ok field, text)) text = (.ok field, text') ∧
      Holds text at_ 4 (bytesOf [w]) text' := by
  obtain ⟨b, hb⟩ := word_eq_some h
  have hfit : 0 + (leBytes 4 w.toNat).length ≤ 4 := by rw [length_leBytes]
  have hput := (Holds.refl hb).put hfit
  rw [List.drop_eq_nil_of_le (by rw [length_leBytes, (length_of_read hb).1])] at hput
  exact ⟨_, (Holds.refl hb).put_eq hfit, hput⟩

/-- Two words written in turn below and the first one last. -/
lemma Holds.words {w₀ w₁ w₂ : BitVec 32} (hlen : text.length < 2 ^ 63) (hfit : at_ + 12 ≤ text.length)
    (field : SlotField) :
    ∃ text', putWord (at_ + 4) w₁ (putWord (at_ + 8) w₂ (putWord at_ w₀ fun text => (.ok field, text))) text =
      (.ok field, text') ∧ Holds text at_ 12 (bytesOf [w₀, w₁, w₂]) text' := by
  have hwin := read_of_le hlen hfit
  generalize (text.drop at_).take 12 = code at hwin
  have hcode := (length_of_read hwin).1
  have h4 : ∀ j ≤ 8, ∀ w : BitVec 32, j + (leBytes 4 w.toNat).length ≤ 12 := fun j hj w => by
    rw [length_leBytes]
    omega
  have h := (Holds.refl hwin).put (h4 4 (by decide) w₁)
  have h' := h.put (h4 8 (by decide) w₂)
  have h'' := h'.put (h4 0 (by decide) w₀)
  have hwords : (code.take 4).length = 4 := by rw [List.length_take, hcode]; rfl
  refine ⟨_, ((Holds.refl hwin).put_eq (h4 4 (by decide) w₁)).trans
    ((h.put_eq (h4 8 (by decide) w₂)).trans (h'.put_eq (h4 0 (by decide) w₀))), ?_⟩
  have htake : (code.take 4 ++ (leBytes 4 w₁.toNat ++ code.drop (4 + (leBytes 4 w₁.toNat).length))).take 8 =
      code.take 4 ++ leBytes 4 w₁.toNat := by
    rw [← List.append_assoc, List.take_left' (by rw [List.length_append, hwords, length_leBytes])]
  rw [htake, List.drop_eq_nil_of_le ((length_of_read h.code).1.trans_le (by rw [length_leBytes])), List.append_nil,
    List.append_assoc, length_leBytes, List.drop_left' hwords] at h''
  exact h''

/-- **One rewrite.**  The site is refused, or its words are written. -/
lemma a64_spec (at_ rtype : ℕ) (to_ : Model) (hlen : text.length < 2 ^ 63) :
    (∃ want, aarch64Rewrite text at_ rtype to_ = refuse want text) ∨
    ∃ text', aarch64Rewrite text at_ rtype to_ = (.ok (a64Field at_ rtype to_), text') ∧
      Wrote text at_ rtype to_ text' := by
  unfold aarch64Rewrite
  cases hword : word text at_ with
  | none => exact .inl ⟨_, rfl⟩
  | some insn =>
    have hone : ∀ w field, a64Span rtype = 4 → A64Checked insn rtype → a64Part insn rtype to_ = [w] →
        a64Field at_ rtype to_ = field → ∃ text', putWord at_ w (fun text => (.ok field, text)) text =
          (.ok (a64Field at_ rtype to_), text') ∧ Wrote text at_ rtype to_ text' := by
      rintro w field hspan hchecked hpart rfl
      obtain ⟨text', hput, h⟩ := putWord_word hword (a64Field at_ rtype to_)
      exact ⟨text', hput, insn, hword, hchecked, by rwa [hspan, hpart]⟩
    dsimp only
    split
    · split
      · exact .inl ⟨_, rfl⟩
      · exact .inr (hone _ _ rfl trivial rfl rfl)
    · split
      · exact .inl ⟨_, rfl⟩
      · rename_i hc
        rw [not_or, not_not, not_not] at hc
        exact .inr (hone _ _ rfl hc.2 rfl rfl)
    · split
      · exact .inl ⟨_, rfl⟩
      · rename_i hc
        rw [ne_eq, not_not] at hc
        cases to_ <;> exact .inr (hone _ _ rfl hc rfl rfl)
    · split
      · exact .inl ⟨_, rfl⟩
      · rename_i hc
        rw [ne_eq, not_not] at hc
        cases to_ <;> exact .inr (hone _ _ rfl hc rfl rfl)
    · obtain ⟨b, hb⟩ := word_eq_some hword
      have hat := (length_of_read hb).2
      rw [plus_of_lt (by omega)]
      split
      · exact .inl ⟨_, rfl⟩
      rw [plus_of_lt (by omega)]
      split
      · exact .inl ⟨_, rfl⟩
      rename_i hnop
      obtain ⟨b', hb'⟩ := word_eq_some hnop
      split
      · exact .inl ⟨_, rfl⟩
      cases to_ <;>
      · obtain ⟨text', hput, h⟩ := Holds.words hlen (length_of_read hb').2 _
        exact .inr ⟨text', hput, insn, hword, trivial, h⟩
    · split
      · exact .inl ⟨_, rfl⟩
      · cases to_ <;> exact .inr (hone _ _ rfl trivial rfl rfl)
    · split
      · exact .inl ⟨_, rfl⟩
      · cases to_ <;> exact .inr (hone _ _ rfl trivial rfl rfl)
    · split
      · exact .inl ⟨_, rfl⟩
      · cases to_ <;> exact .inr (hone _ _ rfl trivial rfl rfl)
    · exact .inl ⟨_, rfl⟩
    · exact .inl ⟨_, rfl⟩

/-- Bytes outside the sites stay. -/
lemma rewriteAll_frame (hlen : text.length < 2 ^ 63) (h : rewriteAll text sites = some text') :
    text'.length = text.length ∧
      ((∀ s ∈ sites, j < s.at_ ∨ s.at_ + a64Span s.rtype ≤ j) → text'[j]? = text[j]?) := by
  induction sites generalizing text with
  | nil =>
    obtain rfl := Option.some.inj h
    exact ⟨rfl, fun _ => rfl⟩
  | cons s sites ih =>
    obtain ⟨want, hrefuse⟩ | ⟨text₁, hok, insn, -, -, hholds⟩ := a64_spec s.at_ s.rtype s.to_ hlen
    · rw [rewriteAll, hrefuse] at h
      cases h
    · rw [rewriteAll, hok] at h
      obtain ⟨hlength, hrest⟩ := ih (hholds.length ▸ hlen) h
      refine ⟨hlength.trans hholds.length, fun hj => ?_⟩
      rw [hrest fun s' hs' => hj s' (.tail _ hs'), hholds.rest j (hj s (.head _))]

/-- **Every site is rewritten**, whichever others are. -/
lemma rewriteAll_wrote (hlen : text.length < 2 ^ 63) (happart : sites.Pairwise Site.Apart)
    (h : rewriteAll text sites = some text') (hs : s ∈ sites) :
    ∃ insn, word text s.at_ = some insn ∧ A64Checked insn s.rtype ∧
      read text' s.at_ (a64Span s.rtype) = some (bytesOf (a64Part insn s.rtype s.to_)) := by
  induction sites generalizing text with
  | nil => cases hs
  | cons head sites ih =>
    obtain ⟨hhead, htail⟩ := List.pairwise_cons.mp happart
    obtain ⟨want, hrefuse⟩ | ⟨text₁, hok, insn, hword, hchecked, hholds⟩ := a64_spec head.at_
      head.rtype head.to_ hlen
    · rw [rewriteAll, hrefuse] at h
      cases h
    rw [rewriteAll, hok] at h
    have hlen₁ : text₁.length < 2 ^ 63 := hholds.length ▸ hlen
    obtain rfl | hs := List.mem_cons.mp hs
    · refine ⟨insn, hword, hchecked, ?_⟩
      rw [read_congr (rewriteAll_frame hlen₁ h (j := 0)).1 fun j hj hj' => (rewriteAll_frame hlen₁ h).2 fun s' hs' => ?_]
      · exact hholds.code
      · have := hhead s' hs'
        unfold Site.Apart at this
        omega
    · obtain ⟨insn', hword', hchecked', hread⟩ := ih hlen₁ htail h hs
      refine ⟨insn', ?_, hchecked', hread⟩
      have hspan : 4 ≤ a64Span s.rtype := by unfold a64Span; split <;> decide
      rw [← hword', word, word, read_congr hholds.length fun j hj hj' => hholds.rest j ?_]
      have := hhead s hs
      unfold Site.Apart at this
      omega

/-- A word of a rewritten site. -/
lemma word_of_read {l l' : List (BitVec 32)} (h : read text at_ n = some (bytesOf (l ++ w :: l'))) :
    word text (at_ + 4 * l.length) = some w := by
  have hlength : ∀ ws, (bytesOf ws).length = 4 * ws.length := fun ws => by
    rw [bytesOf, List.length_flatMap]
    simp only [length_leBytes, List.map_const', List.sum_replicate, smul_eq_mul, Nat.mul_comm]
  have hn := (length_of_read h).1
  rw [hlength, List.length_append, List.length_cons] at hn
  obtain ⟨hfit, htake⟩ := read_eq_some.mp h
  have hread : read text (at_ + 4 * l.length) 4 = some (leBytes 4 w.toNat) := by
    rw [read_eq_some]
    refine ⟨by omega, ?_⟩
    have hfirst : (l.flatMap fun w : BitVec 32 => leBytes 4 w.toNat).length = 4 * l.length := hlength l
    have hdrop := congrArg (fun b => (b.drop (4 * l.length)).take 4) htake
    rw [List.drop_take, List.drop_drop, List.take_take, Nat.min_eq_left (by omega), bytesOf, List.flatMap_append,
      List.drop_left' hfirst, List.flatMap_cons, List.take_left' length_leBytes] at hdrop
    exact hdrop
  have himm := imm_leBytes w []
  rw [List.append_nil] at himm
  rw [word, hread, Option.map_some, himm]

lemma runA64_cons {ats : List ℕ} (h : word text at_ = some w) :
    runA64 aenv text (at_ :: ats) x = (execA64 aenv x at_ w).bind (runA64 aenv text ats) := by
  rw [runA64, h, Option.bind_some]

lemma runA64_two {ats : List ℕ} {w' : BitVec 32} {x' : BitVec 5 → Word} (h : word text i = some w)
    (h' : word text j = some w')
    (hexec : (execA64 aenv x i w).bind (fun x => execA64 aenv x j w') = some x') :
    runA64 aenv text (i :: j :: ats) x = runA64 aenv text ats x' := by
  obtain ⟨y, hy, hy'⟩ := Option.bind_eq_some_iff.mp hexec
  rw [runA64_cons h, hy, Option.bind_some, runA64_cons h', hy', Option.bind_some]

/-- The two words that take the offset leave it in x0. -/
lemma execA64_offset (h : insn &&& 0x9f00001f = 0x90000000) :
    (execA64 aenv x i (pageWord insn to_)).bind (fun x => execA64 aenv x j (lowWord to_)) =
      some (Function.update x 0 (aenv.offset i j to_)) := by
  cases to_ with
  | localExec t => exact @execA64_halves i aenv x 0 0 t rfl j
  | initialExec =>
    have hldr : ∀ x, execA64 aenv x j a64LdrX0X0 = some (setX x 0 (aenv.mem (x 0 + aenv.lo12 j))) := fun _ => rfl
    show (execA64 aenv x i insn).bind (fun x => execA64 aenv x j a64LdrX0X0) = _
    rw [execA64_adrp h, Option.bind_some, hldr, setX, if_neg (by decide), Function.update_self, Function.update_idem]
    rfl

/-- **The sequences.** -/
lemma a64_sequences (hlen : text.length < 2 ^ 63) : A64Sequences text := by
  intro sites text' happart hall env x
  have hwrote := fun s hs => rewriteAll_wrote (s := s) hlen happart hall hs
  refine ⟨fun page load t p l hpage hload hp hl hjoin => ?_, fun page add to_ hpage hadd => ?_,
    fun page load add call to_ hpage hload hadd hcall => ?_⟩
  · obtain ⟨insn, hinsn, -, hread⟩ := hwrote _ hpage
    obtain rfl := Option.some.inj (hinsn.symm.trans hp)
    obtain ⟨insn', hinsn', hchecked, hread'⟩ := hwrote _ hload
    obtain rfl := Option.some.inj (hinsn'.symm.trans hl)
    -- The `ldr` goes through the register that the page took.
    have hbase : insn'.extractLsb' 0 5 = insn'.extractLsb' 5 5 := by
      refine field_inj ?_
      rw [← field_eq, ← field_eq, BitVec.ushiftRight_zero]
      exact hchecked
    exact runA64_two (word_of_read (l := []) hread) (word_of_read (l := []) hread')
      (execA64_halves (hjoin.symm.trans hbase.symm))
  · obtain ⟨insn, -, hchecked, hread⟩ := hwrote _ hpage
    obtain ⟨insn', -, -, hread'⟩ := hwrote _ hadd
    refine (runA64_two (word_of_read (l := []) hread) (word_of_read (l := []) hread')
      (execA64_offset hchecked)).trans ?_
    refine runA64_two (word_of_read (l := [_]) hread') (word_of_read (l := [_, _]) hread') (congrArg some ?_)
    generalize env.offset page add to_ = v
    have hregs : a64MrsX1Tp.extractLsb' 0 5 = 1 ∧ a64AddX0X1X0.extractLsb' 0 5 = 0 ∧
        a64AddX0X1X0.extractLsb' 5 5 = 1 ∧ a64AddX0X1X0.extractLsb' 16 5 = 0 := by decide
    obtain ⟨hmrs, hdst, hlhs, hrhs⟩ := hregs
    rw [hmrs, hdst, hlhs, hrhs]
    simp only [setX, readX]
    rw [if_neg (by decide), if_neg (by decide), if_neg (by decide), if_neg (by decide)]
    rw [Function.update_self, Function.update_of_ne (by decide), Function.update_self,
      Function.update_comm (by decide), Function.update_idem]
    exact Function.update_comm (by decide) _ _ _
  · obtain ⟨insn, -, hchecked, hread⟩ := hwrote _ hpage
    obtain ⟨insn', -, -, hread'⟩ := hwrote _ hload
    obtain ⟨addInsn, -, -, hadd'⟩ := hwrote _ hadd
    obtain ⟨callInsn, -, -, hcall'⟩ := hwrote _ hcall
    refine (runA64_two (word_of_read (l := []) hread) (word_of_read (l := []) hread')
      (execA64_offset hchecked)).trans ?_
    exact runA64_two (word_of_read (l := []) hadd') (word_of_read (l := []) hcall') rfl

/-! ## Both machines -/

/-- An x86-64 rewrite is exact unless a sum of its bounds overflows. -/
lemma x64_exact_iff (hlen : text.length < 2 ^ 63) : X64Exact text at_ rtype to_ ↔
    ¬(rtype = R_X86_64_TLSLD ∧ to_ ≠ .initialExec ∧ 2 ^ 64 ≤ at_ + 6) := by
  constructor
  · rintro h ⟨rfl, hto, hat⟩
    cases to_ with
    | initialExec => exact hto rfl
    | localExec t =>
      have hpanic : x86_64Rewrite text at_ R_X86_64_TLSLD (.localExec t) = (.error .panic, text) := by
        show tlsld at_ text = _
        rw [tlsld]
        dsimp only
        rw [if_neg (by omega), plus]
        split
        · exact if_neg (by omega)
        · rfl
      rw [X64Exact, hpanic] at h
      obtain ⟨want, h⟩ | ⟨field, text', code, code', h, -⟩ := h <;> cases h
  · intro h
    by_cases hld : rtype = R_X86_64_TLSLD
    · subst hld
      cases to_ with
      | initialExec => exact .inl ⟨_, rfl⟩
      | localExec t => exact tlsld_exact hlen (by by_contra hat; exact h ⟨rfl, nofun, by omega⟩) t
    by_cases hie : rtype = R_X86_64_GOTTPOFF
    · subst hie
      cases to_ with
      | initialExec => exact .inl ⟨_, rfl⟩
      | localExec t => exact gottpoff_exact t
    by_cases hgd : rtype = R_X86_64_TLSGD
    · exact hgd ▸ tlsgd_exact hlen
    by_cases hdesc : rtype = R_X86_64_GOTPC32_TLSDESC
    · exact hdesc ▸ gotpc32Tlsdesc_exact
    by_cases hcall : rtype = R_X86_64_TLSDESC_CALL
    · exact hcall ▸ tlsdescCall_exact
    · refine .inl ?_
      unfold x86_64Rewrite
      cases to_ <;>
      · dsimp only
        split <;> first | exact absurd rfl ‹_› | exact ⟨_, rfl⟩

/-- **The rewrites of thread-local accesses are exact**, each of them and the sequences they make up, unless a
local-dynamic site lies within six bytes of the end of the address space. -/
theorem rewrites_exact_iff (hlen : text.length < 2 ^ 63) :
    X64Exact text at_ rtype to_ ∧ A64Exact text at_ rtype to_ ∧ A64Sequences text ↔
      ¬(rtype = R_X86_64_TLSLD ∧ to_ ≠ .initialExec ∧ 2 ^ 64 ≤ at_ + 6) := by
  have ha64 : A64Exact text at_ rtype to_ := by
    obtain hrefuse | ⟨text', hok, insn, hword, -, hholds⟩ := a64_spec at_ rtype to_ hlen
    · exact .inl hrefuse
    · have hfit := (length_of_read hholds.code).2
      exact .inr ⟨_, text', _, _, hok, read_of_le hlen (hholds.length ▸ hfit), hholds, rfl⟩
  exact ⟨fun h => (x64_exact_iff hlen).mp h.1, fun h => ⟨(x64_exact_iff hlen).mpr h, ha64, a64_sequences hlen⟩⟩

/-- A general-dynamic call, rewritten. -/
theorem rewrites_exact_call :
    X64Exact [0x66, 0x48, 0x8d, 0x3d, 0, 0, 0, 0, 0x66, 0x66, 0x48, 0xe8, 0, 0, 0, 0] 4 R_X86_64_TLSGD (.localExec 8) ∧
      A64Exact [0x66, 0x48, 0x8d, 0x3d, 0, 0, 0, 0, 0x66, 0x66, 0x48, 0xe8, 0, 0, 0, 0] 4 R_X86_64_TLSGD (.localExec 8) ∧
      A64Sequences [0x66, 0x48, 0x8d, 0x3d, 0, 0, 0, 0, 0x66, 0x66, 0x48, 0xe8, 0, 0, 0, 0] :=
  (rewrites_exact_iff (by decide)).mpr (by decide)

/-- A local-dynamic relocation at the last offset aborts the link. -/
theorem not_exact_lastOffset : ¬ X64Exact [] (2 ^ 64 - 1) R_X86_64_TLSLD (.localExec 0) := fun h =>
  (x64_exact_iff (by decide)).mp h (by decide)

end Badc.TlsRelax
