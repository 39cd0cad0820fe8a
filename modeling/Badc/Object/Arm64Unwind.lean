import Badc.Lib.Listing
import Badc.Lib.WordBuffer

/-!
# ARM64 unwind records

`stepCode` is the unwind code of a prologue or epilogue step, and `xdata` the record of a function:
a header, the scopes of its epilogs, and a pool of codes in which epilogs share those of the prolog
or of one another.  `decodeCode` and `decodeXdata` read codes and records by the unwind format.

A code reads back as its step (`decodeCode_stepCode`), and a record as the length of the function in
whole instructions, the prolog's codes last first, and for every epilog its start and exactly its
own codes (`decodeXdata_xdata`).
-/

namespace Badc.Arm64Unwind

/-! ## Codes -/

/-- A step of a prologue, or of an epilogue that reverses it. -/
inductive A64Step
  | nop
  | pacSignLr
  | alloc (n : ℕ)
  | saveFpLrX (n : ℕ)
  | setFp
  | saveReg (fp : Bool) (reg : ℕ) (reg2 : Option ℕ) (pre : Bool) (bytes : ℕ)
  | saveFpLr (off : ℕ)
  | addFp (off : ℕ)
  deriving DecidableEq

/-- `as u8`. -/
def u8 (n : ℕ) : Byte := BitVec.ofNat 8 n

/-- The code that ends a sequence. -/
def endCode : Byte := 0xE4

/-- The code of an instruction without effect on the unwinding. -/
def nopCode : Byte := 0xE3

/-- `alloc_s` / `alloc_m` / `alloc_l` for `sub sp, sp, #bytes`. -/
def alloc (bytes : ℕ) : Option (List Byte) :=
  let x := bytes / 16
  if bytes % 16 ≠ 0 then none
  else if x < 32 then some [u8 x]
  else if x < 2048 then some [(0xC0 : Byte) ||| u8 (x >>> 8), u8 x]
  else if x < 0x1000000 then some [0xE0, u8 (x >>> 16), u8 (x >>> 8), u8 x]
  else none

/-- The opcode of a callee save, and whether its offset is narrow. -/
def saveOp : Bool → Bool → Bool → ℕ × Bool
  | false, true, false => (0xC8, false)
  | false, true, true => (0xCC, false)
  | false, false, false => (0xD0, false)
  | false, false, true => (0xD4, true)
  | true, true, false => (0xD8, false)
  | true, true, true => (0xDA, false)
  | true, false, false => (0xDC, false)
  | true, false, true => (0xDE, true)

/-- The first register a save can name, and how many. -/
def saveRegs (fp : Bool) : ℕ × ℕ := if fp then (8, 8) else (19, 10)

/-- Whether a save is of a pair: the second register follows the first. -/
def isPair (rt x count : ℕ) : Option ℕ → Option Bool
  | none => some false
  | some r => if r = rt + 1 ∧ x + 1 < count then some true else none

/-- The code of a save of the `x`th register, of `bytes` as an offset or as a pre-index. -/
def saveCode (fp pair pre : Bool) (x bytes : ℕ) : Option (List Byte) :=
  if bytes % 8 ≠ 0 then none
  -- `save_r19r20_x`, which assemblers take for the pair it fits.
  else if !fp ∧ pair ∧ x = 0 ∧ pre ∧ bytes / 8 < 32 then some [u8 (0x20 ||| bytes / 8)]
  else if bytes / 8 < pre.toNat then none
  else
    let z := bytes / 8 - pre.toNat
    let op := saveOp fp pair pre
    if op.2 = false ∧ z < 64 then some [u8 (op.1 ||| x >>> 2), u8 ((x &&& 3) <<< 6 ||| z)]
    else if op.2 = true ∧ z < 32 then some [u8 (op.1 ||| x >>> 3), u8 ((x &&& 7) <<< 5 ||| z)]
    else none

/-- The `save_reg*` / `save_freg*` code of a callee save of x19-x28 or d8-d15, alone or paired with
the next register, at `[sp, #off]` or pre-indexing `pre` bytes. -/
def save (fp : Bool) (rt : ℕ) (rt2 : Option ℕ) (pre : Option ℕ) (off : ℕ) : Option (List Byte) :=
  let x := rt - (saveRegs fp).1
  if rt < (saveRegs fp).1 ∨ (saveRegs fp).2 ≤ x then none
  else (isPair rt x (saveRegs fp).2 rt2).bind fun pair =>
    saveCode fp pair pre.isSome x (pre.getD off)

/-- An offset in units of eight bytes, up to a largest one. -/
def scaled (n max : ℕ) : Option ℕ := if n % 8 = 0 ∧ n / 8 ≤ max then some (n / 8) else none

/-- A step's unwind code; `none` for a step no code describes. -/
def stepCode : A64Step → Option (List Byte)
  | .nop => some [nopCode]
  | .pacSignLr => some [0xFC]
  | .alloc n => alloc n
  | .saveFpLrX n => (scaled n 64).bind fun z => if z < 1 then none else some [u8 (0x80 ||| (z - 1))]
  | .setFp => some [0xE1]
  | .saveReg fp reg reg2 pre bytes =>
    if pre then save fp reg reg2 (some bytes) 0 else save fp reg reg2 none bytes
  | .saveFpLr off => (scaled off 63).map fun z => [u8 (0x40 ||| z)]
  | .addFp off => (scaled off 255).map fun z => [0xE2, u8 z]

/-- Each step's unwind code, in the order of the steps. -/
def stepCodes (steps : List A64Step) : Option (List (List Byte)) := steps.mapM stepCode

/-! ## The record -/

/-- What is gathered of the epilogs: the pool, the epilogs appended to it with their indexes, and
the scopes. -/
structure Pool where
  pool : List Byte
  appended : List (List (List Byte) × ℕ)
  scopes : List (ℕ × ℕ)

/-- Place an epilog: over the end of the prolog it reverses, over an earlier epilog it repeats, or
behind the pool. -/
def placeEpilog (unwind : List (List Byte)) (p : Pool) (exit : ℕ × List (List Byte)) : Pool :=
  let start := unwind.length - exit.2.length
  if exit.2.length ≤ unwind.length ∧ unwind.drop start = exit.2 then
    { p with scopes := p.scopes ++ [(exit.1 / 4, ((unwind.take start).map List.length).sum)] }
  else
    match p.appended.find? (·.1 == exit.2) with
    | some (_, i) => { p with scopes := p.scopes ++ [(exit.1 / 4, i)] }
    | none =>
      { pool := p.pool ++ exit.2.flatten ++ [endCode]
        appended := p.appended ++ [(exit.2, p.pool.length)]
        scopes := p.scopes ++ [(exit.1 / 4, p.pool.length)] }

/-- The codes and the scopes of a function, before padding. -/
def poolOf (prolog : List (List Byte)) (exits : List (ℕ × List (List Byte))) : Pool :=
  exits.foldl (placeEpilog prolog.reverse)
    { pool := prolog.reverse.flatten ++ [endCode], appended := [], scopes := [] }

/-- Pad the codes to whole words. -/
def padded (pool : List Byte) : List Byte :=
  pool ++ List.replicate ((4 - pool.length % 4) % 4) nopCode

/-- Whether the header holds the epilog: a single one that ends the function. -/
def packed (len : ℕ) (exits : List (ℕ × List (List Byte))) (scopes : List (ℕ × ℕ))
    (codeWords : ℕ) : Option ℕ :=
  match exits, scopes with
  | [(start, epilog)], [(_, index)] =>
    if start + 4 * (epilog.length + 1) = len ∧ index < 32 ∧ codeWords < 32 then some index else none
  | _, _ => none

/-- `as u32`. -/
def u32 (n : ℕ) : BitVec 32 := BitVec.ofNat 32 n

/-- The header and the scopes. -/
def recordWords (words codeWords : ℕ) (scopes : List (ℕ × ℕ)) : Option ℕ → List (BitVec 32)
  | some index => [u32 words ||| (1 : BitVec 32) <<< 21 ||| u32 index <<< 22 ||| u32 codeWords <<< 27]
  | none =>
    (if scopes.length < 32 ∧ codeWords < 32 then
      [u32 words ||| u32 scopes.length <<< 22 ||| u32 codeWords <<< 27]
    else [u32 words, u32 scopes.length ||| u32 codeWords <<< 16]) ++
      scopes.map fun s => u32 s.1 ||| u32 s.2 <<< 22

/-- The `.xdata` record of a function of `len` bytes, from the codes of its prolog in execution order
and its exits, each an epilog's byte offset and its codes; `none` past the format's fields. -/
def xdata (len : ℕ) (prolog : List (List Byte)) (exits : List (ℕ × List (List Byte))) :
    Option (List Byte) :=
  let words := len / 4
  if 2 ^ 18 ≤ words then none
  else
    let p := poolOf prolog exits
    let pool := padded p.pool
    let codeWords := pool.length / 4
    if 0xFF < codeWords ∨ 0xFFFF < p.scopes.length ∨ ∃ s ∈ p.scopes, 2 ^ 10 ≤ s.2 then none
    else
      some ((recordWords words codeWords p.scopes (packed len exits p.scopes codeWords)).flatMap
        wordBytes ++ pool)

/-! ## The unwind format -/

/-- The step a code stands for. -/
def decodeCode (code : List Byte) : Option A64Step :=
  match code.map BitVec.toNat with
  | [b] =>
    if b < 0x20 then some (.alloc (16 * b))
    else if b < 0x40 then some (.saveReg false 19 (some 20) true (8 * (b % 32)))
    else if b < 0x80 then some (.saveFpLr (8 * (b % 64)))
    else if b < 0xC0 then some (.saveFpLrX (8 * (b % 64 + 1)))
    else if b = 0xE1 then some .setFp
    else if b = 0xE3 then some .nop
    else if b = 0xFC then some .pacSignLr
    else none
  | [b, c] =>
    let x := b % 4 * 4 + c / 64
    let xFp := b % 2 * 4 + c / 64
    if b < 0xC0 then none
    else if b < 0xC8 then some (.alloc (16 * (b % 8 * 256 + c)))
    else if b < 0xCC then some (.saveReg false (19 + x) (some (20 + x)) false (8 * (c % 64)))
    else if b < 0xD0 then some (.saveReg false (19 + x) (some (20 + x)) true (8 * (c % 64 + 1)))
    else if b < 0xD4 then some (.saveReg false (19 + x) none false (8 * (c % 64)))
    else if b < 0xD6 then
      some (.saveReg false (19 + (b % 2 * 8 + c / 32)) none true (8 * (c % 32 + 1)))
    else if b < 0xD8 then none
    else if b < 0xDA then some (.saveReg true (8 + xFp) (some (9 + xFp)) false (8 * (c % 64)))
    else if b < 0xDC then some (.saveReg true (8 + xFp) (some (9 + xFp)) true (8 * (c % 64 + 1)))
    else if b < 0xDE then some (.saveReg true (8 + xFp) none false (8 * (c % 64)))
    else if b = 0xDE then some (.saveReg true (8 + c / 32) none true (8 * (c % 32 + 1)))
    else if b = 0xE2 then some (.addFp (8 * c))
    else none
  | [b, c, d, e] => if b = 0xE0 then some (.alloc (16 * (c * 65536 + d * 256 + e))) else none
  | _ => none

/-- The length of a code by its first byte. -/
def codeLength (b : ℕ) : ℕ :=
  if b < 0xC0 then 1
  else if b < 0xE0 then 2
  else if b = 0xE0 then 4
  else if b = 0xE2 then 2
  else if b = 0xE7 then 3
  else if b = 0xF8 then 2
  else if b = 0xF9 then 3
  else if b = 0xFA then 4
  else if b = 0xFB then 5
  else 1

/-- The codes up to the one that ends the sequence; `none` where they run past the pool. -/
def unwindCodes : ℕ → List Byte → Option (List (List Byte))
  | 0, _ => none
  | _, [] => none
  | fuel + 1, b :: rest =>
    if b = endCode then some []
    else
      let n := codeLength b.toNat
      if rest.length + 1 < n then none
      else (unwindCodes fuel ((b :: rest).drop n)).map fun codes => (b :: rest).take n :: codes

/-- A record: the length of the function in bytes, the codes of the prolog, and of every epilog the
offset and the codes. -/
structure Record where
  len : ℕ
  prolog : List (List Byte)
  epilogs : List (ℕ × List (List Byte))
  deriving DecidableEq

/-- The codes at an index of the pool. -/
def codesAt (codes : List Byte) (index : ℕ) : Option (List (List Byte)) :=
  unwindCodes (codes.length + 1) (codes.drop index)

/-- An epilog of the scope list: the word holds its offset and the index of its codes. -/
def scopeOf (codes : List Byte) (word : BitVec 32) : Option (ℕ × List (List Byte)) :=
  (codesAt codes (word.extractLsb' 22 10).toNat).map fun epilog =>
    (4 * (word.extractLsb' 0 18).toNat, epilog)

/-- The epilog count and the code words, and where the scopes start: in the first word, or in the
extension where both are zero there. -/
def counts (record : List Byte) (word : BitVec 32) : Option (ℕ × ℕ × ℕ) :=
  if (word.extractLsb' 22 5).toNat = 0 ∧ (word.extractLsb' 27 5).toNat = 0 then
    (wordAt record 4).map fun ext => ((ext.extractLsb' 0 16).toNat, (ext.extractLsb' 16 8).toNat, 8)
  else some ((word.extractLsb' 22 5).toNat, (word.extractLsb' 27 5).toNat, 4)

/-- The epilogs of a record.  With the E bit the count is the index of the codes of a single epilog
that ends the function, which has an instruction for each of its codes and one for the end. -/
def epilogsOf (record codes : List Byte) (len count start : ℕ) (packed : Bool) :
    Option (List (ℕ × List (List Byte))) :=
  if packed then (codesAt codes count).map fun epilog => [(len - 4 * (epilog.length + 1), epilog)]
  else (List.range count).mapM fun i => (wordAt record (start + 4 * i)).bind (scopeOf codes)

/-- Read a record. -/
def decodeXdata (record : List Byte) : Option Record :=
  (wordAt record 0).bind fun word =>
  (counts record word).bind fun c =>
  let packed := word.getLsbD 21
  let codesStart := if packed then c.2.2 else c.2.2 + 4 * c.1
  let codes := (record.drop codesStart).take (4 * c.2.1)
  let len := 4 * (word.extractLsb' 0 18).toNat
  (codesAt codes 0).bind fun prolog =>
  (epilogsOf record codes len c.1 c.2.2 packed).map fun epilogs => ⟨len, prolog, epilogs⟩

variable {steps : List A64Step} {step : A64Step} {code : List Byte} {n z x : ℕ}

/-! ## Codes read back -/

lemma toNat_u8 (n : ℕ) : (u8 n).toNat = n % 256 := BitVec.toNat_ofNat n 8

/-- `alloc_s`, `alloc_m` and `alloc_l` read back. -/
lemma decodeCode_alloc (h : alloc n = some code) : decodeCode code = some (.alloc n) := by
  unfold alloc at h
  dsimp only at h
  have hor : ∀ y < 8, ((0xC0 : Byte) ||| u8 y).toNat = 0xC0 + y := by decide
  split_ifs at h with h16 hs hm hl
  · obtain rfl := Option.some.inj h
    have hb : (u8 (n / 16)).toNat = n / 16 := by rw [toNat_u8, Nat.mod_eq_of_lt (by omega)]
    simp only [decodeCode, List.map_cons, List.map_nil, hb]
    rw [if_pos hs, show 16 * (n / 16) = n by omega]
  · obtain rfl := Option.some.inj h
    have hb := hor ((n / 16) >>> 8) (by omega)
    unfold decodeCode
    rw [List.map_cons, List.map_cons, List.map_nil, hb, toNat_u8]
    dsimp only
    rw [if_neg (by omega), if_pos (by omega)]
    exact congrArg (fun m => some (A64Step.alloc m)) (by omega)
  · obtain rfl := Option.some.inj h
    unfold decodeCode
    rw [List.map_cons, List.map_cons, List.map_cons, List.map_cons, List.map_nil, toNat_u8, toNat_u8,
      toNat_u8]
    refine (if_pos rfl).trans (congrArg (fun m => some (A64Step.alloc m)) ?_)
    omega

lemma decodeCode_save_wide : ∀ x < 10, ∀ z < 64,
    decodeCode [u8 (0xC8 ||| x >>> 2), u8 ((x &&& 3) <<< 6 ||| z)] =
      some (.saveReg false (19 + x) (some (19 + x + 1)) false (8 * z)) ∧
    decodeCode [u8 (0xCC ||| x >>> 2), u8 ((x &&& 3) <<< 6 ||| z)] =
      some (.saveReg false (19 + x) (some (19 + x + 1)) true (8 * (z + 1))) ∧
    decodeCode [u8 (0xD0 ||| x >>> 2), u8 ((x &&& 3) <<< 6 ||| z)] =
      some (.saveReg false (19 + x) none false (8 * z)) := by decide

lemma decodeCode_save_wide_fp : ∀ x < 8, ∀ z < 64,
    decodeCode [u8 (0xD8 ||| x >>> 2), u8 ((x &&& 3) <<< 6 ||| z)] =
      some (.saveReg true (8 + x) (some (8 + x + 1)) false (8 * z)) ∧
    decodeCode [u8 (0xDA ||| x >>> 2), u8 ((x &&& 3) <<< 6 ||| z)] =
      some (.saveReg true (8 + x) (some (8 + x + 1)) true (8 * (z + 1))) ∧
    decodeCode [u8 (0xDC ||| x >>> 2), u8 ((x &&& 3) <<< 6 ||| z)] =
      some (.saveReg true (8 + x) none false (8 * z)) := by decide

lemma decodeCode_save_narrow : ∀ z < 32,
    (∀ x < 10, decodeCode [u8 (0xD4 ||| x >>> 3), u8 ((x &&& 7) <<< 5 ||| z)] =
      some (.saveReg false (19 + x) none true (8 * (z + 1)))) ∧
    (∀ x < 8, decodeCode [u8 (0xDE ||| x >>> 3), u8 ((x &&& 7) <<< 5 ||| z)] =
      some (.saveReg true (8 + x) none true (8 * (z + 1)))) ∧
    decodeCode [u8 (0x20 ||| z)] = some (.saveReg false 19 (some 20) true (8 * z)) := by decide

/-- The code of a save reads back. -/
lemma decodeCode_saveCode {fp pair pre : Bool} {bytes : ℕ} (hx : x < (saveRegs fp).2)
    (h : saveCode fp pair pre x bytes = some code) :
    decodeCode code = some (.saveReg fp ((saveRegs fp).1 + x)
      (if pair then some ((saveRegs fp).1 + x + 1) else none) pre bytes) := by
  unfold saveCode at h
  dsimp only at h
  split_ifs at h with h8 hspecial hz hwide hnarrow
  all_goals obtain rfl := Option.some.inj h
  · obtain ⟨hfp, hpair, rfl, hpre, h32⟩ := hspecial
    obtain rfl : fp = false := by simpa using hfp
    subst hpair hpre
    have := (decodeCode_save_narrow _ h32).2.2
    rwa [show 8 * (bytes / 8) = bytes by omega] at this
  · obtain ⟨hop, h64⟩ := hwide
    obtain ⟨z, hz⟩ := Nat.exists_eq_add_of_le (Nat.not_lt.mp hz)
    rw [hz, Nat.add_sub_cancel_left] at h64 ⊢
    have hbytes : bytes = 8 * (pre.toNat + z) := by omega
    rw [hbytes]
    cases fp with
    | false =>
      obtain ⟨hoff, hpre, hsingle⟩ := decodeCode_save_wide x hx z h64
      cases pair <;> cases pre
      · rw [Bool.toNat_false, Nat.zero_add]
        exact hsingle
      · exact absurd hop (by decide)
      · rw [Bool.toNat_false, Nat.zero_add]
        exact hoff
      · rw [Bool.toNat_true, Nat.add_comm 1 z]
        exact hpre
    | true =>
      obtain ⟨hoff, hpre, hsingle⟩ := decodeCode_save_wide_fp x hx z h64
      cases pair <;> cases pre
      · rw [Bool.toNat_false, Nat.zero_add]
        exact hsingle
      · exact absurd hop (by decide)
      · rw [Bool.toNat_false, Nat.zero_add]
        exact hoff
      · rw [Bool.toNat_true, Nat.add_comm 1 z]
        exact hpre
  · obtain ⟨hop, h32⟩ := hnarrow
    obtain ⟨z, hz⟩ := Nat.exists_eq_add_of_le (Nat.not_lt.mp hz)
    rw [hz, Nat.add_sub_cancel_left] at h32 ⊢
    have hbytes : bytes = 8 * (pre.toNat + z) := by omega
    obtain ⟨hint, hfloat, -⟩ := decodeCode_save_narrow z h32
    rw [hbytes]
    cases fp <;> cases pair <;> cases pre
    all_goals first
      | exact absurd hop (by decide)
      | rw [Bool.toNat_true, Nat.add_comm 1 z]
    · exact hint x hx
    · exact hfloat x hx

/-- A callee save reads back. -/
lemma decodeCode_save {fp : Bool} {rt : ℕ} {rt2 pre : Option ℕ} {off : ℕ}
    (h : save fp rt rt2 pre off = some code) :
    decodeCode code = some (.saveReg fp rt rt2 pre.isSome (pre.getD off)) := by
  obtain ⟨hreg, h⟩ := Option.ite_none_left_eq_some.mp h
  obtain ⟨pair, hpair, h⟩ := Option.bind_eq_some_iff.mp h
  rw [not_or, not_lt, not_le] at hreg
  have hrt2 : rt2 = if pair then some (rt + 1) else none := by
    cases rt2 with
    | none => rw [← Option.some.inj hpair]; rfl
    | some r =>
      obtain ⟨hr, hp⟩ := Option.ite_none_right_eq_some.mp hpair
      rw [← Option.some.inj hp, hr.1]
      rfl
  rw [decodeCode_saveCode hreg.2 h, Nat.add_sub_cancel' hreg.1, hrt2]

lemma scaled_eq_some {max : ℕ} (h : scaled n max = some z) : n = 8 * z ∧ z ≤ max := by
  obtain ⟨⟨h8, hle⟩, hz⟩ := Option.ite_none_right_eq_some.mp h
  have := Option.some.inj hz
  omega

/-- **A code reads back as its step**: its register, pair, pre-index and byte count. -/
lemma decodeCode_stepCode (h : stepCode step = some code) : decodeCode code = some step := by
  cases step with
  | nop =>
    obtain rfl := Option.some.inj h
    rfl
  | pacSignLr =>
    obtain rfl := Option.some.inj h
    rfl
  | alloc n => exact decodeCode_alloc h
  | saveFpLrX n =>
    obtain ⟨z, hz, hcode⟩ := Option.bind_eq_some_iff.mp h
    obtain ⟨rfl, hle⟩ := scaled_eq_some hz
    obtain ⟨hpos, hcode⟩ := Option.ite_none_left_eq_some.mp hcode
    obtain rfl := Option.some.inj hcode
    have hread : ∀ y < 64, decodeCode [u8 (0x80 ||| y)] = some (.saveFpLrX (8 * (y + 1))) := by decide
    rw [hread (z - 1) (by omega), Nat.sub_add_cancel (by omega)]
  | setFp =>
    obtain rfl := Option.some.inj h
    rfl
  | saveReg fp reg reg2 pre bytes =>
    cases pre with
    | false => exact decodeCode_save h
    | true => exact decodeCode_save h
  | saveFpLr off =>
    obtain ⟨z, hz, rfl⟩ := Option.map_eq_some_iff.mp h
    obtain ⟨rfl, hle⟩ := scaled_eq_some hz
    have hread : ∀ y < 64, decodeCode [u8 (0x40 ||| y)] = some (.saveFpLr (8 * y)) := by decide
    exact hread z (by omega)
  | addFp off =>
    obtain ⟨z, hz, rfl⟩ := Option.map_eq_some_iff.mp h
    obtain ⟨rfl, hle⟩ := scaled_eq_some hz
    unfold decodeCode
    rw [List.map_cons, List.map_cons, List.map_nil, toNat_u8, Nat.mod_eq_of_lt (by omega)]
    rfl

/-- A code tells its length in its first byte, and does not end a sequence. -/
def Framed (code : List Byte) : Prop :=
  ∃ b rest, code = b :: rest ∧ b ≠ endCode ∧ codeLength b.toNat = code.length

/-- A code that reads back is framed. -/
lemma framed_of_decodeCode (h : decodeCode code = some step) : Framed code := by
  have hend : ∀ b : Byte, b.toNat ≠ 0xE4 → b ≠ endCode := fun b hb he => hb (he ▸ rfl)
  match code, h with
  | [], h => cases h
  | [b], h =>
    unfold decodeCode at h
    rw [List.map_cons, List.map_nil] at h
    dsimp only at h
    have hone : b.toNat < 0xC0 ∨ b.toNat = 0xE1 ∨ b.toNat = 0xE3 ∨ b.toNat = 0xFC := by
      by_contra hno
      rw [not_or, not_or, not_or] at hno
      rw [if_neg (by omega), if_neg (by omega), if_neg (by omega), if_neg (by omega),
        if_neg hno.2.1, if_neg hno.2.2.1, if_neg hno.2.2.2] at h
      cases h
    refine ⟨b, [], rfl, hend b (by omega), ?_⟩
    rcases hone with hlt | heq | heq | heq
    · rw [codeLength, if_pos hlt]
      rfl
    all_goals
      rw [heq]
      rfl
  | [b, c], h =>
    unfold decodeCode at h
    rw [List.map_cons, List.map_cons, List.map_nil] at h
    dsimp only at h
    have hlow : ¬ b.toNat < 0xC0 := fun hlt => by
      rw [if_pos hlt] at h
      cases h
    have htwo : b.toNat < 0xE0 ∨ b.toNat = 0xE2 := by
      by_contra hno
      rw [not_or] at hno
      rw [if_neg hlow, if_neg (by omega), if_neg (by omega), if_neg (by omega), if_neg (by omega),
        if_neg (by omega), if_neg (by omega), if_neg (by omega), if_neg (by omega),
        if_neg (by omega), if_neg (by omega), if_neg (by omega)] at h
      cases h
    refine ⟨b, [c], rfl, hend b (by omega), ?_⟩
    rcases htwo with hlt | heq
    · rw [codeLength, if_neg hlow, if_pos hlt]
      rfl
    · rw [heq]
      rfl
  | [b, c, d], h => cases h
  | [b, c, d, e], h =>
    refine ⟨b, [c, d, e], rfl, ?_⟩
    obtain ⟨hb, -⟩ := Option.ite_none_right_eq_some.mp h
    refine ⟨hend b (by omega), ?_⟩
    rw [hb]
    rfl
  | b :: c :: d :: e :: f :: rest, h => cases h

/-! ## Sequences of codes -/

variable {codes : List (List Byte)} {pool tail : List Byte} {i : ℕ}

/-- **Framed codes up to the end are read as they are.** -/
lemma unwindCodes_flatten {fuel : ℕ} (h : ∀ c ∈ codes, Framed c) (hfuel : codes.length < fuel) :
    unwindCodes fuel (codes.flatten ++ endCode :: tail) = some codes := by
  induction codes generalizing fuel with
  | nil =>
    obtain ⟨fuel, rfl⟩ := Nat.exists_eq_add_of_le' (Nat.zero_lt_of_lt hfuel)
    rw [List.flatten_nil, List.nil_append, unwindCodes, if_pos rfl]
  | cons c codes ih =>
    obtain ⟨fuel, rfl⟩ := Nat.exists_eq_add_of_le' (show 1 ≤ fuel by omega)
    obtain ⟨b, rest, hc, hb, hlen⟩ := h c (List.mem_cons_self ..)
    have hbytes : (c :: codes).flatten ++ endCode :: tail =
        b :: (rest ++ (codes.flatten ++ endCode :: tail)) := by
      rw [List.flatten_cons, hc, List.cons_append, List.cons_append, List.append_assoc]
    have hrest : b :: (rest ++ (codes.flatten ++ endCode :: tail)) =
        c ++ (codes.flatten ++ endCode :: tail) := by rw [hc]; rfl
    rw [hbytes, unwindCodes, if_neg hb]
    dsimp only
    rw [hlen, if_neg (by rw [hc]; simp), hrest, List.drop_left, List.take_left,
      ih (fun c' hc' => h c' (.tail _ hc')) (by simpa using hfuel), Option.map_some]

/-- Codes stand at an index of the pool, up to the end of the sequence. -/
def Holds (pool : List Byte) (i : ℕ) (codes : List (List Byte)) : Prop :=
  ∃ before after, pool = before ++ (codes.flatten ++ endCode :: after) ∧ before.length = i

lemma Holds.append (h : Holds pool i codes) : Holds (pool ++ tail) i codes := by
  obtain ⟨before, after, rfl, hi⟩ := h
  exact ⟨before, after ++ tail, by simp, hi⟩

lemma length_le_flatten (h : ∀ c ∈ codes, Framed c) : codes.length ≤ codes.flatten.length := by
  induction codes with
  | nil => exact Nat.le_refl 0
  | cons c codes ih =>
    obtain ⟨b, rest, hc, -, -⟩ := h c (List.mem_cons_self ..)
    have := ih fun c' hc' => h c' (.tail _ hc')
    rw [List.flatten_cons, List.length_append, hc, List.length_cons, List.length_cons]
    omega

lemma Holds.codesAt (h : Holds pool i codes) (hframed : ∀ c ∈ codes, Framed c) :
    codesAt pool i = some codes := by
  obtain ⟨before, after, rfl, rfl⟩ := h
  have := length_le_flatten hframed
  rw [Arm64Unwind.codesAt, List.drop_left]
  refine unwindCodes_flatten hframed ?_
  simp only [List.length_append, List.length_cons]
  omega

/-! ## The pool -/

variable {prolog : List (List Byte)} {exits : List (ℕ × List (List Byte))} {p : Pool}

/-- What holds while epilogs are placed: the prolog's codes come first, the appended epilogs stand
at their indexes, and so do those of the scopes. -/
structure Gathered (prolog : List (List Byte)) (exits : List (ℕ × List (List Byte))) (p : Pool) :
    Prop where
  base : ∃ after, p.pool = prolog.reverse.flatten ++ endCode :: after
  appended : ∀ a ∈ p.appended, Holds p.pool a.2 a.1
  scopes : List.Forall₂ (fun exit scope => scope.1 = exit.1 / 4 ∧ Holds p.pool scope.2 exit.2)
    exits p.scopes

/-- Placing an epilog adds a scope at which its codes stand. -/
lemma Gathered.placeEpilog (h : Gathered prolog exits p) (exit : ℕ × List (List Byte)) :
    Gathered prolog (exits ++ [exit]) (placeEpilog prolog.reverse p exit) := by
  rw [Arm64Unwind.placeEpilog]
  split_ifs with hmirror
  · -- The epilog reverses the prolog from some step on.
    obtain ⟨after, hbase⟩ := h.base
    refine ⟨h.base, h.appended, List.rel_append h.scopes (.cons ⟨rfl, ?_⟩ .nil)⟩
    refine ⟨(prolog.reverse.take (prolog.reverse.length - exit.2.length)).flatten, after, ?_,
      List.length_flatten⟩
    rw [hbase, ← List.append_assoc, ← List.flatten_append]
    conv_lhs => rw [← List.take_append_drop (prolog.reverse.length - exit.2.length) prolog.reverse,
      hmirror.2]
  · cases hfind : p.appended.find? (·.1 == exit.2) with
    | some a =>
      have hmem := List.mem_of_find?_eq_some hfind
      have heq : a.1 = exit.2 := by
        have := List.find?_some hfind
        exact beq_iff_eq.mp this
      exact ⟨h.base, h.appended,
        List.rel_append h.scopes (.cons ⟨rfl, heq ▸ h.appended a hmem⟩ .nil)⟩
    | none =>
      have hnew : Holds (p.pool ++ exit.2.flatten ++ [endCode]) p.pool.length exit.2 :=
        ⟨p.pool, [], by rw [List.append_assoc], rfl⟩
      have hgrow : ∀ {i codes}, Holds p.pool i codes →
          Holds (p.pool ++ exit.2.flatten ++ [endCode]) i codes := fun hold => hold.append.append
      obtain ⟨after, hbase⟩ := h.base
      refine ⟨⟨after ++ exit.2.flatten ++ [endCode], ?_⟩, fun a ha => ?_, ?_⟩
      · rw [hbase]
        simp
      · rcases List.mem_append.mp ha with ha | ha
        · exact hgrow (h.appended a ha)
        · obtain rfl := List.mem_singleton.mp ha
          exact hnew
      · exact List.rel_append (h.scopes.imp fun _ _ hs => ⟨hs.1, hgrow hs.2⟩)
          (.cons ⟨rfl, hnew⟩ .nil)

/-- The pool of a function holds its prolog and its epilogs. -/
lemma gathered_poolOf : Gathered prolog exits (poolOf prolog exits) := by
  have hrun : ∀ (before : List (ℕ × List (List Byte))) (p : Pool), Gathered prolog before p →
      Gathered prolog (before ++ exits) (exits.foldl (placeEpilog prolog.reverse) p) := by
    induction exits with
    | nil =>
      intro before p h
      rwa [List.append_nil]
    | cons exit exits ih =>
      intro before p h
      rw [List.foldl_cons, List.append_cons]
      exact ih _ _ (h.placeEpilog exit)
  exact hrun [] _ ⟨⟨[], rfl⟩, by simp, .nil⟩

/-! ## The record read back -/

lemma or_shiftLeft {a b k : ℕ} (ha : a < 2 ^ k) (hb : b * 2 ^ k + a < 2 ^ 32) :
    u32 a ||| u32 b <<< k = u32 (a + b * 2 ^ k) := by
  have ha32 : a < 2 ^ 32 := by omega
  have hb32 : b < 2 ^ 32 := (Nat.le_mul_of_pos_right b (Nat.two_pow_pos k)).trans_lt (by omega)
  refine BitVec.eq_of_toNat_eq ?_
  rw [BitVec.toNat_or, BitVec.toNat_shiftLeft, u32, u32, u32, BitVec.toNat_ofNat, BitVec.toNat_ofNat,
    BitVec.toNat_ofNat, Nat.mod_eq_of_lt ha32, Nat.mod_eq_of_lt hb32, Nat.shiftLeft_eq,
    Nat.mod_eq_of_lt (show b * 2 ^ k < 2 ^ 32 by omega), Nat.mod_eq_of_lt (by omega), Nat.or_comm,
    ← Nat.shiftLeft_eq, ← Nat.shiftLeft_add_eq_or_of_lt ha, Nat.add_comm]

lemma toNat_extractLsb'_u32 {n s l : ℕ} (hn : n < 2 ^ 32) :
    ((u32 n).extractLsb' s l).toNat = n / 2 ^ s % 2 ^ l := by
  rw [BitVec.extractLsb'_toNat, u32, BitVec.toNat_ofNat, Nat.mod_eq_of_lt hn,
    Nat.shiftRight_eq_div_pow]

lemma drop_record {ws : List (BitVec 32)} {n : ℕ} (hws : ws.length = n) :
    (ws.flatMap wordBytes ++ pool).drop (4 * n) = pool := by
  rw [← hws, ← length_flatMap_wordBytes, List.drop_left]

lemma length_padded : (padded pool).length % 4 = 0 := by
  rw [padded, List.length_append, List.length_replicate]
  omega

/-- The scopes of a record are the epilogs. -/
lemma mapM_scopes {ws : List (BitVec 32)} {scopes : List (ℕ × ℕ)}
    (hframed : ∀ e ∈ exits, ∀ c ∈ e.2, Framed c)
    (hscopes : List.Forall₂ (fun exit scope => scope.1 = exit.1 / 4 ∧ Holds pool scope.2 exit.2)
      exits scopes)
    (hstart : ∀ e ∈ exits, 4 ∣ e.1 ∧ e.1 / 4 < 2 ^ 18) (hindex : ∀ s ∈ scopes, s.2 < 2 ^ 10) :
    (List.range scopes.length).mapM (fun i =>
      (wordAt ((ws ++ scopes.map fun s => u32 s.1 ||| u32 s.2 <<< 22).flatMap wordBytes ++ pool)
        (4 * ws.length + 4 * i)).bind (scopeOf pool)) = some exits := by
  have hlen := hscopes.length_eq
  have hread : ∀ i (hi : i < exits.length),
      (wordAt ((ws ++ scopes.map fun s => u32 s.1 ||| u32 s.2 <<< 22).flatMap wordBytes ++ pool)
        (4 * ws.length + 4 * i)).bind (scopeOf pool) = some exits[i] := by
    intro i hi
    have hi' : i < scopes.length := hlen ▸ hi
    obtain ⟨hat, hholds⟩ := (List.forall₂_iff_get.mp hscopes).2 i hi hi'
    obtain ⟨hdvd, h18⟩ := hstart _ (List.getElem_mem hi)
    have h10 := hindex _ (List.getElem_mem hi')
    change scopes[i].1 = exits[i].1 / 4 at hat
    change Holds pool scopes[i].2 exits[i].2 at hholds
    rw [← Nat.mul_add, wordAt_flatMap_append (by simp; omega),
      List.getElem?_append_right (Nat.le_add_right _ _), Nat.add_sub_cancel_left, List.getElem?_map,
      List.getElem?_eq_getElem hi', Option.map_some, Option.bind_some,
      or_shiftLeft (by rw [hat]; omega) (by rw [hat]; omega), scopeOf,
      toNat_extractLsb'_u32 (by rw [hat]; omega), toNat_extractLsb'_u32 (by rw [hat]; omega), hat,
      show (exits[i].1 / 4 + scopes[i].2 * 2 ^ 22) / 2 ^ 22 % 2 ^ 10 = scopes[i].2 by omega,
      hholds.codesAt (hframed _ (List.getElem_mem hi)), Option.map_some,
      show 4 * ((exits[i].1 / 4 + scopes[i].2 * 2 ^ 22) / 2 ^ 0 % 2 ^ 18) = exits[i].1 by omega]
  rw [← hlen]
  exact mapM_range hread

/-- A record is read from its parts. -/
lemma decodeXdata_eq {out codes : List Byte} {w : BitVec 32} {c : ℕ × ℕ × ℕ} {len : ℕ}
    {epilogs : List (ℕ × List (List Byte))} (hword : wordAt out 0 = some w)
    (hcounts : counts out w = some c)
    (hcodes : (out.drop (if w.getLsbD 21 then c.2.2 else c.2.2 + 4 * c.1)).take (4 * c.2.1) = codes)
    (hlen : 4 * (w.extractLsb' 0 18).toNat = len) (hprolog : codesAt codes 0 = some prolog)
    (hepilogs : epilogsOf out codes len c.1 c.2.2 (w.getLsbD 21) = some epilogs) :
    decodeXdata out = some ⟨len, prolog, epilogs⟩ := by
  rw [decodeXdata, hword, Option.bind_some, hcounts, Option.bind_some]
  dsimp only
  rw [hcodes, hlen, hprolog, Option.bind_some, hepilogs, Option.map_some]

lemma getLsbD_u32 {n : ℕ} : (u32 n).getLsbD 21 = decide (n / 2 ^ 21 % 2 = 1) := by
  rw [u32, BitVec.getLsbD_ofNat, decide_eq_true (by decide), Bool.true_and, Nat.testBit,
    Nat.shiftRight_eq_div_pow, Nat.one_and_eq_mod_two]
  rcases Nat.mod_two_eq_zero_or_one (n / 2 ^ 21) with h | h <;> rw [h] <;> rfl

/-- A packed record reads back. -/
lemma decodeXdata_packed {words codeWords index start : ℕ} {epilog codes : List (List Byte)}
    {scopes : List (ℕ × ℕ)} (hwords : words < 2 ^ 18) (hpos : 1 ≤ codeWords) (hcw : codeWords < 32)
    (hindex : index < 32) (hpool : pool.length = 4 * codeWords)
    (hprolog : codesAt pool 0 = some codes) (hepilog : codesAt pool index = some epilog)
    (hend : start + 4 * (epilog.length + 1) = 4 * words) :
    decodeXdata ((recordWords words codeWords scopes (some index)).flatMap wordBytes ++ pool) =
      some ⟨4 * words, codes, [(start, epilog)]⟩ := by
  have hw : u32 words ||| (1 : BitVec 32) <<< 21 ||| u32 index <<< 22 ||| u32 codeWords <<< 27 =
      u32 (words + 1 * 2 ^ 21 + index * 2 ^ 22 + codeWords * 2 ^ 27) := by
    have hbit : u32 words ||| (1 : BitVec 32) <<< 21 = u32 (words + 1 * 2 ^ 21) :=
      @or_shiftLeft words 1 21 (by omega) (by omega)
    rw [hbit, or_shiftLeft (by omega) (by omega), or_shiftLeft (by omega) (by omega)]
  rw [recordWords, hw]
  have hbit : (u32 (words + 1 * 2 ^ 21 + index * 2 ^ 22 + codeWords * 2 ^ 27)).getLsbD 21 = true := by
    rw [getLsbD_u32]
    exact decide_eq_true (by omega)
  refine decodeXdata_eq (c := (index, codeWords, 4)) (@wordAt_flatMap_append _ 0 _ (by simp)) ?_ ?_
    ?_ hprolog ?_
  · rw [counts, toNat_extractLsb'_u32 (by omega), toNat_extractLsb'_u32 (by omega), if_neg (by omega)]
    congr 3 <;> omega
  · rw [hbit, if_pos rfl]
    have := @drop_record pool [u32 (words + 1 * 2 ^ 21 + index * 2 ^ 22 + codeWords * 2 ^ 27)] 1 rfl
    rw [this, ← hpool, List.take_length]
  · rw [toNat_extractLsb'_u32 (by omega)]
    omega
  · rw [hbit, epilogsOf, if_pos rfl, hepilog, Option.map_some, ← hend, Nat.add_sub_cancel]

/-- A record with scopes reads back, given what its header says. -/
lemma decodeXdata_scopes {words codeWords : ℕ} {codes : List (List Byte)} {ws : List (BitVec 32)}
    {w : BitVec 32} {scopes : List (ℕ × ℕ)} (hpool : pool.length = 4 * codeWords)
    (hhead : ws[0]? = some w) (hbit : w.getLsbD 21 = false)
    (hlen : (w.extractLsb' 0 18).toNat = words)
    (hcounts : counts ((ws ++ scopes.map fun s => u32 s.1 ||| u32 s.2 <<< 22).flatMap wordBytes ++ pool)
      w = some (scopes.length, codeWords, 4 * ws.length))
    (hprolog : codesAt pool 0 = some codes) (hframed : ∀ e ∈ exits, ∀ c ∈ e.2, Framed c)
    (hscopes : List.Forall₂ (fun exit scope => scope.1 = exit.1 / 4 ∧ Holds pool scope.2 exit.2)
      exits scopes)
    (hstart : ∀ e ∈ exits, 4 ∣ e.1 ∧ e.1 / 4 < 2 ^ 18) (hindex : ∀ s ∈ scopes, s.2 < 2 ^ 10) :
    decodeXdata ((ws ++ scopes.map fun s => u32 s.1 ||| u32 s.2 <<< 22).flatMap wordBytes ++ pool) =
      some ⟨4 * words, codes, exits⟩ := by
  obtain ⟨hpos, -⟩ := List.getElem?_eq_some_iff.mp hhead
  refine decodeXdata_eq (w := w) ?_ hcounts ?_ (by rw [hlen]) hprolog ?_
  · refine (@wordAt_flatMap_append _ 0 _ (by simp; omega)).trans ?_
    rw [List.getElem?_append_left hpos, hhead]
  · rw [hbit, if_neg Bool.false_ne_true, ← Nat.mul_add, drop_record (by simp), ← hpool,
      List.take_length]
  · rw [hbit, epilogsOf, if_neg Bool.false_ne_true]
    exact mapM_scopes hframed hscopes hstart hindex

/-- A packed record has one epilog, which ends the function. -/
lemma packed_eq_some {len codeWords index : ℕ} {scopes : List (ℕ × ℕ)}
    (h : packed len exits scopes codeWords = some index) : ∃ start epilog s,
      exits = [(start, epilog)] ∧ scopes = [(s, index)] ∧ start + 4 * (epilog.length + 1) = len ∧
      index < 32 ∧ codeWords < 32 := by
  unfold packed at h
  split at h
  · obtain ⟨hcond, hidx⟩ := Option.ite_none_right_eq_some.mp h
    obtain rfl := Option.some.inj hidx
    exact ⟨_, _, _, rfl, rfl, hcond⟩
  · cases h

/-- **A record reads back**: the length in whole instructions, the prolog's codes last first, and
for every epilog its start and exactly its own codes. -/
lemma decodeXdata_xdata {len : ℕ} {out : List Byte} (hprolog : ∀ c ∈ prolog, Framed c)
    (hexits : ∀ e ∈ exits, ∀ c ∈ e.2, Framed c) (hstart : ∀ e ∈ exits, 4 ∣ e.1 ∧ e.1 < len)
    (h : xdata len prolog exits = some out) :
    decodeXdata out = some ⟨4 * (len / 4), prolog.reverse, exits⟩ := by
  obtain ⟨hwords, h⟩ := Option.ite_none_left_eq_some.mp h
  obtain ⟨hfields, h⟩ := Option.ite_none_left_eq_some.mp h
  rw [not_or, not_or, not_exists] at hfields
  obtain ⟨hcw, hcount, hindex⟩ := hfields
  obtain rfl := Option.some.inj h
  have hgathered := @gathered_poolOf prolog exits
  obtain ⟨after, hbase⟩ := hgathered.base
  generalize poolOf prolog exits = p at *
  have hpool : (padded p.pool).length = 4 * ((padded p.pool).length / 4) := by
    have := @length_padded p.pool
    omega
  have hpos : 1 ≤ (padded p.pool).length / 4 := by
    have : 0 < (padded p.pool).length := by
      rw [padded, hbase]
      simp
    omega
  have hcodes : codesAt (padded p.pool) 0 = some prolog.reverse :=
    Holds.codesAt (Holds.append ⟨[], after, hbase, rfl⟩) fun c hc => hprolog c (List.mem_reverse.mp hc)
  have hscopes : List.Forall₂ (fun exit scope => scope.1 = exit.1 / 4 ∧
      Holds (padded p.pool) scope.2 exit.2) exits p.scopes :=
    hgathered.scopes.imp fun _ _ hs => ⟨hs.1, hs.2.append⟩
  have hsmall : ∀ s ∈ p.scopes, s.2 < 2 ^ 10 := fun s hs =>
    Nat.lt_of_not_le fun hle => hindex s ⟨hs, hle⟩
  have hstart' : ∀ e ∈ exits, 4 ∣ e.1 ∧ e.1 / 4 < 2 ^ 18 := fun e he =>
    ⟨(hstart e he).1, by have := (hstart e he).2; omega⟩
  generalize (padded p.pool).length / 4 = codeWords at *
  cases hpacked : packed len exits p.scopes codeWords with
  | some index =>
    obtain ⟨start, epilog, s, rfl, hsc, hend, hidx, hcw32⟩ := packed_eq_some hpacked
    rw [hsc] at hscopes
    obtain ⟨⟨-, hholds⟩, -⟩ := List.forall₂_cons.mp hscopes
    have hdvd := (hstart _ (List.mem_singleton_self _)).1
    exact decodeXdata_packed (by omega) hpos hcw32 hidx hpool hcodes
      (hholds.codesAt (hexits _ (List.mem_singleton_self _))) (by omega)
  | none =>
    rw [recordWords]
    split_ifs with hshort
    · -- The counts fit the first word.
      have hw : u32 (len / 4) ||| u32 p.scopes.length <<< 22 ||| u32 codeWords <<< 27 =
          u32 (len / 4 + p.scopes.length * 2 ^ 22 + codeWords * 2 ^ 27) := by
        rw [or_shiftLeft (by omega) (by omega), or_shiftLeft (by omega) (by omega)]
      rw [hw]
      refine decodeXdata_scopes hpool rfl ?_ ?_ ?_ hcodes hexits hscopes hstart' hsmall
      · rw [getLsbD_u32]
        exact decide_eq_false (by omega)
      · rw [toNat_extractLsb'_u32 (by omega)]
        omega
      · rw [counts, toNat_extractLsb'_u32 (by omega), toNat_extractLsb'_u32 (by omega),
          if_neg (by omega)]
        congr 3 <;> omega
    · -- The first word's counts are zero and the extension word holds them.
      have hw : u32 p.scopes.length ||| u32 codeWords <<< 16 =
          u32 (p.scopes.length + codeWords * 2 ^ 16) := or_shiftLeft (by omega) (by omega)
      rw [hw]
      refine decodeXdata_scopes hpool rfl ?_ ?_ ?_ hcodes hexits hscopes hstart' hsmall
      · rw [getLsbD_u32]
        exact decide_eq_false (by omega)
      · rw [toNat_extractLsb'_u32 (by omega)]
        omega
      · rw [counts, toNat_extractLsb'_u32 (by omega), toNat_extractLsb'_u32 (by omega),
          if_pos (by omega)]
        have hext := @wordAt_flatMap_append ([u32 (len / 4), u32 (p.scopes.length + codeWords * 2 ^ 16)] ++
          p.scopes.map fun s => u32 s.1 ||| u32 s.2 <<< 22) 1 (padded p.pool) (by simp)
        rw [show 4 * 1 = 4 from rfl] at hext
        rw [hext, List.getElem?_append_left (by simp)]
        change some ((BitVec.extractLsb' 0 16 (u32 (p.scopes.length + codeWords * 2 ^ 16))).toNat,
          (BitVec.extractLsb' 16 8 (u32 (p.scopes.length + codeWords * 2 ^ 16))).toNat, 8) = _
        rw [toNat_extractLsb'_u32 (by omega), toNat_extractLsb'_u32 (by omega)]
        congr 3 <;> omega

/-! ## Steps -/

/-- The codes of steps read back. -/
lemma mapM_decodeCode {codes : List (List Byte)} (h : stepCodes steps = some codes) :
    codes.mapM decodeCode = some steps ∧ ∀ c ∈ codes, Framed c := by
  rw [stepCodes] at h
  induction steps generalizing codes with
  | nil =>
    obtain rfl := Option.some.inj h
    exact ⟨rfl, by simp⟩
  | cons step steps ih =>
    rw [List.mapM_cons] at h
    obtain ⟨c, hc, h⟩ := Option.bind_eq_some_iff.mp h
    obtain ⟨cs, hcs, h⟩ := Option.bind_eq_some_iff.mp h
    obtain rfl := Option.some.inj h
    obtain ⟨hdec, hframed⟩ := ih hcs
    have hstep := decodeCode_stepCode hc
    refine ⟨by rw [List.mapM_cons, hstep, hdec]; rfl, fun c' hc' => ?_⟩
    rcases List.mem_cons.mp hc' with rfl | hc'
    · exact framed_of_decodeCode hstep
    · exact hframed c' hc'

/-- The codes of exits, each with its offset. -/
def exitCodes (exits : List (ℕ × List A64Step)) : Option (List (ℕ × List (List Byte))) :=
  exits.mapM fun e => (stepCodes e.2).map fun codes => (e.1, codes)

/-- The steps a record describes: its length, those of the prolog last first, and of every epilog
the offset and the steps. -/
def stepsOf (record : Record) : Option (ℕ × List A64Step × List (ℕ × List A64Step)) :=
  (record.prolog.mapM decodeCode).bind fun prolog =>
  (record.epilogs.mapM fun e : ℕ × List (List Byte) =>
    (e.2.mapM decodeCode).map fun steps => (e.1, steps)).map fun epilogs =>
      (record.len, prolog, epilogs)

/-- The codes of exits read back, at the same offsets. -/
lemma mapM_exitCodes {exits : List (ℕ × List A64Step)} {codes : List (ℕ × List (List Byte))}
    (h : exitCodes exits = some codes) :
    codes.mapM (fun e : ℕ × List (List Byte) =>
      (e.2.mapM decodeCode).map fun steps => (e.1, steps)) = some exits ∧
      (∀ e ∈ codes, ∀ c ∈ e.2, Framed c) ∧ codes.map Prod.fst = exits.map Prod.fst := by
  rw [exitCodes] at h
  induction exits generalizing codes with
  | nil =>
    obtain rfl := Option.some.inj h
    exact ⟨rfl, by simp, rfl⟩
  | cons exit exits ih =>
    rw [List.mapM_cons] at h
    obtain ⟨e, he, h⟩ := Option.bind_eq_some_iff.mp h
    obtain ⟨es, hes, h⟩ := Option.bind_eq_some_iff.mp h
    obtain ⟨c, hc, rfl⟩ := Option.map_eq_some_iff.mp he
    obtain rfl := Option.some.inj h
    obtain ⟨hdec, hframed, hat⟩ := ih hes
    obtain ⟨hstep, hcodes⟩ := mapM_decodeCode hc
    refine ⟨by rw [List.mapM_cons, hstep, hdec]; rfl, fun e' he' => ?_, by
      rw [List.map_cons, hat, List.map_cons]⟩
    rcases List.mem_cons.mp he' with rfl | he'
    · exact hcodes
    · exact hframed e' he'

/-- Reading codes backwards gives their steps backwards. -/
lemma mapM_reverse {α β : Type*} {f : α → Option β} {l : List α} {l' : List β}
    (h : l.mapM f = some l') : l.reverse.mapM f = some l'.reverse := by
  induction l generalizing l' with
  | nil =>
    obtain rfl := Option.some.inj h
    rfl
  | cons a l ih =>
    rw [List.mapM_cons] at h
    obtain ⟨b, hb, h⟩ := Option.bind_eq_some_iff.mp h
    obtain ⟨bs, hbs, h⟩ := Option.bind_eq_some_iff.mp h
    obtain rfl := Option.some.inj h
    rw [List.reverse_cons, List.mapM_append, ih hbs]
    simp [hb]

/-- **A record decodes to what was encoded**: the function's length in whole instructions, the
codes of the prolog last first, and for every exit its start offset and exactly its own codes; and
the codes are those of the steps, with their registers, pairs, pre-indexes and byte counts. -/
theorem xdata_spec {exits : List (ℕ × List A64Step)} {prolog : List (List Byte)}
    {epilogs : List (ℕ × List (List Byte))} {len : ℕ} {out : List Byte}
    (hsteps : stepCodes steps = some prolog) (hexits : exitCodes exits = some epilogs)
    (hstart : ∀ e ∈ exits, 4 ∣ e.1 ∧ e.1 < len) (h : xdata len prolog epilogs = some out) :
    decodeXdata out = some ⟨4 * (len / 4), prolog.reverse, epilogs⟩ ∧
      (decodeXdata out).bind stepsOf = some (4 * (len / 4), steps.reverse, exits) := by
  obtain ⟨hprolog, hframed⟩ := mapM_decodeCode hsteps
  obtain ⟨hepilogs, hframed', hat⟩ := mapM_exitCodes hexits
  have hdecode := decodeXdata_xdata hframed hframed' (fun e he => by
    have hmem : e.1 ∈ exits.map Prod.fst := hat ▸ List.mem_map_of_mem he
    obtain ⟨e', he', heq⟩ := List.mem_map.mp hmem
    rw [← heq]
    exact hstart e' he') h
  refine ⟨hdecode, ?_⟩
  rw [hdecode, Option.bind_some, stepsOf, mapM_reverse hprolog, hepilogs]
  rfl

/-- A frame record and an epilog that reverses part of it. -/
theorem xdata_spec_fold : decodeXdata [0x07, 0x00, 0xA0, 0x10, 0xE2, 0x02, 0x42, 0x24, 0xE4, 0xE3,
    0xE3, 0xE3] = some ⟨28, [[0xE2, 0x02], [0x42], [0x24]], [(16, [[0x42], [0x24]])]⟩ :=
  (@xdata_spec [.saveReg false 19 (some 20) true 32, .saveFpLr 16, .addFp 16]
    [(16, [.saveFpLr 16, .saveReg false 19 (some 20) true 32])] [[0x24], [0x42], [0xE2, 0x02]]
    [(16, [[0x42], [0x24]])] 28 _ (by decide) (by decide) (by decide) (by decide)).1

/-- A function whose length is no multiple of four loses the rest of it. -/
theorem xdata_length : stepCodes [.saveFpLrX 16, .setFp] = some [[0x81], [0xE1]] ∧
    xdata 6 [[0x81], [0xE1]] [] = some [0x01, 0x00, 0x00, 0x08, 0xE1, 0x81, 0xE4, 0xE3] ∧
    (decodeXdata [0x01, 0x00, 0x00, 0x08, 0xE1, 0x81, 0xE4, 0xE3]).map Record.len = some 4 := by
  decide

end Badc.Arm64Unwind
