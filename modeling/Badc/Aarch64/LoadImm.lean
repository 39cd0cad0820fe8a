import Badc.Aarch64.LogicalImm
import Badc.Lib.BitFields

/-!
# Constants in a register

`loadImm64` builds a 64-bit constant: with one `orr` of a bitmask immediate, or lane by lane with
`movz` or `movn` and then `movk`s.  `exec` is what these instructions do, read off their words.  The
words leave the constant in the register, there are `imm64Insts` of them, and no sequence of either
kind is shorter (`loadImm64_spec`).
-/

namespace Badc.Aarch64

/-! ## The encoder -/

/-- A 16-bit lane of a word. -/
def lane (value : Word) (hw : ℕ) : BitVec 16 := (value >>> (16 * hw)).setWidth 16

/-- A move of a 16-bit immediate to a lane. -/
def encMoveWide (opcode : BitVec 32) (rd : BitVec 5) (imm16 : BitVec 16) (hw : ℕ) : BitVec 32 :=
  opcode ||| (BitVec.ofNat 32 hw <<< 21) ||| (imm16.setWidth 32 <<< 5) ||| rd.setWidth 32

/-- `MOVZ <Xd>, #imm16, LSL #(hw*16)`: the immediate, zero-extended. -/
def encMovz : BitVec 5 → BitVec 16 → ℕ → BitVec 32 := encMoveWide 0xD2800000

/-- `MOVK <Xd>, #imm16, LSL #(hw*16)`: overwrite one lane. -/
def encMovk : BitVec 5 → BitVec 16 → ℕ → BitVec 32 := encMoveWide 0xF2800000

/-- `MOVN <Xd>, #imm16, LSL #(hw*16)`: the complement of the immediate in its lane. -/
def encMovn : BitVec 5 → BitVec 16 → ℕ → BitVec 32 := encMoveWide 0x92800000

/-- The lanes of a word other than `fill`. -/
def lanesBut (fill : BitVec 16) (value : Word) : List ℕ :=
  (List.range 4).filter fun hw => lane value hw ≠ fill

/-- Lanes of `value` that are not zero, at least one. -/
def nonzeroLanes (value : Word) : ℕ := max (lanesBut 0 value).length 1

/-- The form for `value` and its instruction count: `none` for one `orr` from the zero register,
else lanes opened by `movz` or (`true`) `movn`. -/
def imm64Plan (value : Word) : Option Bool × ℕ :=
  let zeros := nonzeroLanes value
  let ones := nonzeroLanes (~~~value)
  if 1 < min zeros ones ∧ (encodeLogicalImm value true).isSome then (none, 1)
  else (some (decide (ones < zeros)), min zeros ones)

/-- The instructions `loadImm64` issues for `value`. -/
def imm64Insts (value : Word) : ℕ := (imm64Plan value).2

/-- The move of a lane: the first one opens the register. -/
def moveLane (rd : BitVec 5) (lane : BitVec 16) (hw : ℕ) : Bool → Bool → BitVec 32
  | false, _ => encMovk rd lane hw
  | true, false => encMovz rd lane hw
  | true, true => encMovn rd (~~~lane) hw

/-- The moves of some lanes; a lane that is the fill is left out, the lowest one excepted where all
are. -/
def moveLanes (rd : BitVec 5) (value : Word) (invert allFill : Bool) (fill : BitVec 16) :
    Bool → List ℕ → List (BitVec 32)
  | _, [] => []
  | first, hw :: hws =>
    let lane := lane value hw
    if lane = fill ∧ ¬(allFill ∧ hw = 0) then moveLanes rd value invert allFill fill first hws
    else moveLane rd lane hw first invert :: moveLanes rd value invert allFill fill false hws

/-- Build an immediate in `rd` in the fewest instructions of the `movz` / `movn` + `movk` sequences
and the `orr` bitmask form. -/
def loadImm64 (rd : BitVec 5) (value : Word) : Option (List (BitVec 32)) :=
  match (imm64Plan value).1 with
  | none => (encLogicalImm .orr true rd 31 value).map fun word => [word]
  | some invert =>
    let fill := if invert then 0xFFFF else 0
    let allFill := if invert then value == BitVec.allOnes 64 else value == 0
    some (moveLanes rd value invert allFill fill true (List.range 4))

/-! ## The architecture -/

/-- A general register as a source; register 31 is the zero register. -/
def readX (x : BitVec 5 → Word) (r : BitVec 5) : Word := if r = 31 then 0 else x r

/-- A 64-bit move-wide or `orr`-immediate instruction.  Register 31 as the destination is the zero
register or the stack pointer, which are not held here. -/
def exec (x : BitVec 5 → Word) (w : BitVec 32) : Option (BitVec 5 → Word) :=
  let rd := w.extractLsb' 0 5
  let imm16 : Word := (w.extractLsb' 5 16).setWidth 64
  let shift := 16 * (w.extractLsb' 21 2).toNat
  let field := (w.extractLsb' 10 13).setWidth 32
  if rd = 31 then none
  else if w.extractLsb' 23 9 = 0x1A5 then some (Function.update x rd (imm16 <<< shift))
  else if w.extractLsb' 23 9 = 0x125 then some (Function.update x rd (~~~(imm16 <<< shift)))
  else if w.extractLsb' 23 9 = 0x1E5 then
    some (Function.update x rd (insertBits (x rd) shift 16 imm16))
  else if w.extractLsb' 23 9 = 0x164 then
    (decodeBitMasks 64 (fieldN field) (fieldImms field) (fieldImmr field)).map fun mask =>
      Function.update x rd (readX x (w.extractLsb' 5 5) ||| mask)
  else none

/-- Instructions one after the other. -/
def execAll (x : BitVec 5 → Word) (ws : List (BitVec 32)) : Option (BitVec 5 → Word) :=
  ws.foldlM exec x

/-- The sequences that build a constant: a `movz` or `movn` and `movk`s, or one `orr` of the zero
register with an immediate. -/
inductive Builds (rd : BitVec 5) : List (BitVec 32) → Prop
  | movz (imm16 : BitVec 16) (hw : ℕ) (keeps : List (BitVec 16 × ℕ)) :
    hw < 4 → (∀ k ∈ keeps, k.2 < 4) →
    Builds rd (encMovz rd imm16 hw :: keeps.map fun k => encMovk rd k.1 k.2)
  | movn (imm16 : BitVec 16) (hw : ℕ) (keeps : List (BitVec 16 × ℕ)) :
    hw < 4 → (∀ k ∈ keeps, k.2 < 4) →
    Builds rd (encMovn rd imm16 hw :: keeps.map fun k => encMovk rd k.1 k.2)
  | orr (w : BitVec 32) :
    w.extractLsb' 23 9 = 0x164 → w.extractLsb' 5 5 = 31 → w.extractLsb' 0 5 = rd → Builds rd [w]

variable {rd : BitVec 5} {imm16 fill : BitVec 16} {hw i : ℕ} {v value : Word}
  {x y : BitVec 5 → Word}

/-! ## Lanes -/

lemma getLsbD_lane (hi : i < 16) : (lane v hw).getLsbD i = v.getLsbD (16 * hw + i) := by
  rw [lane, BitVec.getLsbD_setWidth, BitVec.getLsbD_ushiftRight, decide_eq_true hi, Bool.true_and]

lemma eq_of_lane_eq {w : Word} (h : ∀ hw < 4, lane v hw = lane w hw) : v = w := by
  refine BitVec.eq_of_getLsbD_eq fun j hj => ?_
  have := congrArg (BitVec.getLsbD · (j % 16)) (h (j / 16) (by omega))
  rwa [getLsbD_lane (Nat.mod_lt _ (by decide)), getLsbD_lane (Nat.mod_lt _ (by decide)),
    Nat.div_add_mod] at this

lemma lane_not (hhw : hw < 4) : lane (~~~v) hw = ~~~lane v hw := by
  refine BitVec.eq_of_getLsbD_eq fun i hi => ?_
  rw [getLsbD_lane hi, BitVec.getLsbD_not, BitVec.getLsbD_not, getLsbD_lane hi,
    decide_eq_true (by omega), decide_eq_true hi]

lemma lane_insertBits (hhw : hw < 4) {k : ℕ} :
    lane (insertBits v (16 * k) 16 (imm16.setWidth 64)) hw = if hw = k then imm16 else lane v hw := by
  refine BitVec.eq_of_getLsbD_eq fun i hi => ?_
  rw [getLsbD_lane hi, getLsbD_insertBits _ _ _ _ (by omega)]
  by_cases h : hw = k
  · rw [if_pos h, if_pos (by omega), h, Nat.add_sub_cancel_left, BitVec.getLsbD_setWidth,
      decide_eq_true (by omega), Bool.true_and]
  · rw [if_neg h, if_neg (by omega), getLsbD_lane hi]

/-- The lanes of a shifted immediate. -/
lemma lane_shiftLeft (hhw : hw < 4) {k : ℕ} (hk : k < 4) :
    lane (imm16.setWidth 64 <<< (16 * k)) hw = if hw = k then imm16 else 0 := by
  refine BitVec.eq_of_getLsbD_eq fun i hi => ?_
  have h64 : 16 * hw + i < 64 := by omega
  have hsub : 16 * hw + i - 16 * k < 64 := by omega
  rw [getLsbD_lane hi, BitVec.getLsbD_shiftLeft, BitVec.getLsbD_setWidth, decide_eq_true h64,
    decide_eq_true hsub, Bool.true_and, Bool.true_and]
  by_cases h : hw = k
  · rw [if_pos h, h, decide_eq_false (by omega), Bool.not_false, Bool.true_and,
      Nat.add_sub_cancel_left]
  · have hzero : (0 : BitVec 16).getLsbD i = false := BitVec.getLsbD_zero
    rw [if_neg h, hzero]
    rcases Nat.lt_or_gt_of_ne h with hlt | hgt
    · rw [decide_eq_true (by omega), Bool.not_true, Bool.false_and]
    · rw [BitVec.getLsbD_of_ge _ _ (by omega), Bool.and_false]

lemma mem_lanesBut : hw ∈ lanesBut fill v ↔ hw < 4 ∧ lane v hw ≠ fill := by
  rw [lanesBut, List.mem_filter, List.mem_range, decide_eq_true_iff]

lemma lanesBut_not : lanesBut 0 (~~~v) = lanesBut 0xFFFF v := by
  refine List.filter_congr fun hw hmem => ?_
  rw [lane_not (List.mem_range.mp hmem)]
  refine decide_eq_decide.mpr (not_congr ⟨fun h => ?_, fun h => ?_⟩)
  · rw [← @BitVec.not_not _ (lane v hw), h]
    rfl
  · rw [h]
    rfl

/-! ## Words -/

/-- The bits of a move. -/
lemma getLsbD_encMoveWide {opcode : BitVec 32} {j : ℕ} (hj : j < 32) :
    (encMoveWide opcode rd imm16 hw).getLsbD j =
      (opcode.getLsbD j || (decide (21 ≤ j) && hw.testBit (j - 21)) ||
        (decide (5 ≤ j) && imm16.getLsbD (j - 5)) || rd.getLsbD j) := by
  have h21 : (!decide (j < 21)) = decide (21 ≤ j) := by
    rw [← decide_not]
    exact decide_eq_decide.mpr Nat.not_lt
  have h5 : (!decide (j < 5)) = decide (5 ≤ j) := by
    rw [← decide_not]
    exact decide_eq_decide.mpr Nat.not_lt
  rw [encMoveWide, BitVec.getLsbD_or, BitVec.getLsbD_or, BitVec.getLsbD_or,
    BitVec.getLsbD_shiftLeft, BitVec.getLsbD_shiftLeft, BitVec.getLsbD_setWidth,
    BitVec.getLsbD_setWidth, BitVec.getLsbD_ofNat, h21, h5, decide_eq_true hj,
    decide_eq_true (show j - 21 < 32 by omega), decide_eq_true (show j - 5 < 32 by omega)]
  simp only [Bool.true_and]

/-- The fields of a move. -/
lemma encMoveWide_fields {opcode : BitVec 32} (hop : ∀ j < 23, opcode.getLsbD j = false)
    (hhw : hw < 4) :
    (encMoveWide opcode rd imm16 hw).extractLsb' 0 5 = rd ∧
    (encMoveWide opcode rd imm16 hw).extractLsb' 5 16 = imm16 ∧
    ((encMoveWide opcode rd imm16 hw).extractLsb' 21 2).toNat = hw ∧
    (encMoveWide opcode rd imm16 hw).extractLsb' 23 9 = opcode.extractLsb' 23 9 := by
  have hhigh : ∀ k, 2 ≤ k → hw.testBit k = false := fun k hk =>
    Nat.testBit_lt_two_pow ((show hw < 2 ^ 2 from hhw).trans_le
      (Nat.pow_le_pow_right two_pos hk))
  refine ⟨BitVec.eq_of_getLsbD_eq fun i hi => ?_, BitVec.eq_of_getLsbD_eq fun i hi => ?_, ?_,
    BitVec.eq_of_getLsbD_eq fun i hi => ?_⟩
  · rw [BitVec.getLsbD_extractLsb', decide_eq_true hi, getLsbD_encMoveWide (by omega),
      hop _ (by omega), decide_eq_false (by omega), decide_eq_false (by omega)]
    simp
  · rw [BitVec.getLsbD_extractLsb', decide_eq_true hi, getLsbD_encMoveWide (by omega),
      hop _ (by omega), decide_eq_false (by omega), decide_eq_true (by omega),
      BitVec.getLsbD_of_ge rd _ (by omega), Nat.add_sub_cancel_left]
    simp
  · have hfield : (encMoveWide opcode rd imm16 hw).extractLsb' 21 2 = BitVec.ofNat 2 hw := by
      refine BitVec.eq_of_getLsbD_eq fun i hi => ?_
      rw [BitVec.getLsbD_extractLsb', decide_eq_true hi, getLsbD_encMoveWide (by omega),
        hop _ (by omega), decide_eq_true (by omega), decide_eq_true (by omega),
        BitVec.getLsbD_of_ge imm16 _ (by omega), BitVec.getLsbD_of_ge rd _ (by omega),
        Nat.add_sub_cancel_left, BitVec.getLsbD_ofNat, decide_eq_true hi]
      simp
    rw [hfield, BitVec.toNat_ofNat, Nat.mod_eq_of_lt hhw]
  · rw [BitVec.getLsbD_extractLsb', BitVec.getLsbD_extractLsb', decide_eq_true hi,
      getLsbD_encMoveWide (by omega), hhigh _ (by omega),
      BitVec.getLsbD_of_ge imm16 _ (by omega), BitVec.getLsbD_of_ge rd _ (by omega)]
    simp

lemma exec_movz (hrd : rd ≠ 31) (hhw : hw < 4) : exec x (encMovz rd imm16 hw) =
    some (Function.update x rd (imm16.setWidth 64 <<< (16 * hw))) := by
  obtain ⟨h0, h5, h21, h23⟩ := @encMoveWide_fields rd imm16 hw 0xD2800000 (by decide) hhw
  rw [exec, encMovz, h0, h5, h21, h23, if_neg hrd]
  exact if_pos (by decide)

lemma exec_movn (hrd : rd ≠ 31) (hhw : hw < 4) : exec x (encMovn rd imm16 hw) =
    some (Function.update x rd (~~~(imm16.setWidth 64 <<< (16 * hw)))) := by
  obtain ⟨h0, h5, h21, h23⟩ := @encMoveWide_fields rd imm16 hw 0x92800000 (by decide) hhw
  rw [exec, encMovn, h0, h5, h21, h23, if_neg hrd]
  exact (if_neg (by decide)).trans (if_pos (by decide))

lemma exec_movk (hrd : rd ≠ 31) (hhw : hw < 4) : exec x (encMovk rd imm16 hw) =
    some (Function.update x rd (insertBits (x rd) (16 * hw) 16 (imm16.setWidth 64))) := by
  obtain ⟨h0, h5, h21, h23⟩ := @encMoveWide_fields rd imm16 hw 0xF2800000 (by decide) hhw
  rw [exec, encMovk, h0, h5, h21, h23, if_neg hrd]
  exact (if_neg (by decide)).trans ((if_neg (by decide)).trans (if_pos (by decide)))

/-- The fields of an `orr` of the zero register. -/
lemma encLogicalImm_orr_fields {w : BitVec 32} (h : encLogicalImm .orr true rd 31 value = some w) :
    w.extractLsb' 0 5 = rd ∧ w.extractLsb' 5 5 = 31 ∧ w.extractLsb' 23 9 = 0x164 := by
  obtain ⟨f, hf, rfl⟩ := Option.map_eq_some_iff.mp h
  have hhigh : ∀ k, 13 ≤ k → f.getLsbD k = false := fun k hk =>
    Nat.testBit_lt_two_pow (((encodeLogicalImm_spec value).2.1 f hf).1.trans_le
      (Nat.pow_le_pow_right two_pos hk))
  have hword : ((BitVec.ofBool true).setWidth 32 <<< 31 ||| LogicalOp.orr.opc <<< 29 |||
      (0x12000000 : BitVec 32) ||| f <<< 10 ||| (31 : BitVec 5).setWidth 32 <<< 5 |||
      rd.setWidth 32) = (0xB20003E0 : BitVec 32) ||| f <<< 10 ||| rd.setWidth 32 := by
    rw [show (BitVec.ofBool true).setWidth 32 <<< 31 ||| LogicalOp.orr.opc <<< 29 |||
      (0x12000000 : BitVec 32) = 0xB2000000 from by decide,
      show (31 : BitVec 5).setWidth 32 <<< 5 = (0x3E0 : BitVec 32) from by decide,
      BitVec.or_assoc 0xB2000000, BitVec.or_comm (f <<< 10), ← BitVec.or_assoc 0xB2000000]
    rfl
  have hbits : ∀ j < 32, ((0xB20003E0 : BitVec 32) ||| f <<< 10 ||| rd.setWidth 32).getLsbD j =
      ((0xB20003E0 : BitVec 32).getLsbD j || (!decide (j < 10) && f.getLsbD (j - 10)) ||
        rd.getLsbD j) := by
    intro j hj
    rw [BitVec.getLsbD_or, BitVec.getLsbD_or, BitVec.getLsbD_shiftLeft, BitVec.getLsbD_setWidth,
      decide_eq_true hj, Bool.true_and, Bool.true_and]
  rw [hword]
  refine ⟨BitVec.eq_of_getLsbD_eq fun i hi => ?_, BitVec.eq_of_getLsbD_eq fun i hi => ?_,
    BitVec.eq_of_getLsbD_eq fun i hi => ?_⟩
  · have hconst : ∀ i < 5, (0xB20003E0 : BitVec 32).getLsbD (0 + i) = false := by decide
    rw [BitVec.getLsbD_extractLsb', decide_eq_true hi, hbits _ (by omega), hconst i hi,
      decide_eq_true (by omega), Nat.zero_add]
    simp
  · have hconst : ∀ i < 5, (0xB20003E0 : BitVec 32).getLsbD (5 + i) = (31 : BitVec 5).getLsbD i := by
      decide
    rw [BitVec.getLsbD_extractLsb', decide_eq_true hi, hbits _ (by omega), hconst i hi,
      decide_eq_true (by omega), BitVec.getLsbD_of_ge rd _ (by omega)]
    simp
  · have hconst : ∀ i < 9, (0xB20003E0 : BitVec 32).getLsbD (23 + i) =
        (0x164 : BitVec 9).getLsbD i := by decide
    rw [BitVec.getLsbD_extractLsb', decide_eq_true hi, hbits _ (by omega), hconst i hi,
      hhigh _ (by omega), BitVec.getLsbD_of_ge rd _ (by omega)]
    simp

/-- What `orr` of the zero register does. -/
lemma exec_orr {w : BitVec 32} (hrd : rd ≠ 31)
    (h : encLogicalImm .orr true rd 31 value = some w) :
    exec x w = some (Function.update x rd value) := by
  obtain ⟨h0, h5, h23⟩ := encLogicalImm_orr_fields h
  obtain ⟨f, hf, h10⟩ := encLogicalImm_field h
  obtain ⟨hlt, hdec⟩ := (encodeLogicalImm_spec value).2.1 f hf
  have hfield : (f.setWidth 13).setWidth 32 = f := by
    refine BitVec.eq_of_toNat_eq ?_
    rw [BitVec.toNat_setWidth, BitVec.toNat_setWidth, Nat.mod_eq_of_lt hlt, Nat.mod_eq_of_lt f.isLt]
  rw [exec, h0, h5, h23, h10, hfield, if_neg hrd, hdec]
  refine (if_neg (by decide)).trans ((if_neg (by decide)).trans ((if_neg (by decide)).trans
    ((if_pos rfl).trans ?_)))
  rw [readX, if_pos rfl, Option.map_some]
  exact congrArg (fun v => some (Function.update x rd v)) BitVec.zero_or

/-! ## Lanes are moved -/

/-- `movk`s leave the lanes of the value where the register held the fill. -/
lemma execAll_moveLanes (hrd : rd ≠ 31) {invert allFill : Bool} {hws : List ℕ} (hnodup : hws.Nodup)
    (hlt : ∀ hw ∈ hws, hw < 4) (hfill : ∀ hw ∈ hws, lane (x rd) hw = fill) :
    ∃ v, execAll x (moveLanes rd value invert allFill fill false hws) =
        some (Function.update x rd v) ∧
      ∀ hw < 4, lane v hw = if hw ∈ hws then lane value hw else lane (x rd) hw := by
  induction hws generalizing x with
  | nil => exact ⟨x rd, by rw [Function.update_eq_self]; rfl, fun hw _ => rfl⟩
  | cons k hws ih =>
    obtain ⟨hk, hnodup⟩ := List.nodup_cons.mp hnodup
    have hlt' : ∀ hw ∈ hws, hw < 4 := fun hw h => hlt hw (.tail _ h)
    rw [moveLanes]
    split_ifs with h
    · obtain ⟨v, hrun, hv⟩ := ih hnodup hlt' fun hw h => hfill hw (.tail _ h)
      refine ⟨v, hrun, fun hw hhw => ?_⟩
      rw [hv hw hhw]
      by_cases heq : hw = k
      · rw [heq, if_neg hk, if_pos (List.mem_cons_self ..), hfill k (List.mem_cons_self ..), h.1]
      · simp only [List.mem_cons, heq, false_or]
    · have hk4 := hlt k (List.mem_cons_self ..)
      have hlane : ∀ hw < 4, lane (Function.update x rd (insertBits (x rd) (16 * k) 16
          ((lane value k).setWidth 64)) rd) hw = if hw = k then lane value k else lane (x rd) hw := by
        intro hw hhw
        rw [Function.update_self, lane_insertBits hhw]
      obtain ⟨v, hrun, hv⟩ := @ih (Function.update x rd (insertBits (x rd) (16 * k) 16
          ((lane value k).setWidth 64))) hnodup hlt' fun hw h => by
        rw [hlane hw (hlt' hw h), if_neg (fun heq : hw = k => hk (heq ▸ h)),
          hfill hw (.tail _ h)]
      refine ⟨v, ?_, fun hw hhw => ?_⟩
      · rw [execAll, List.foldlM_cons, moveLane, exec_movk hrd hk4]
        refine hrun.trans ?_
        rw [Function.update_idem]
      · rw [hv hw hhw, hlane hw hhw]
        by_cases heq : hw = k
        · rw [heq, if_neg hk, if_pos rfl, if_pos (List.mem_cons_self ..)]
        · simp only [List.mem_cons, heq, false_or, if_false]

/-- What lanes a sequence opens with: the fill of a `movz` or a `movn`. -/
def fillOf (invert : Bool) : BitVec 16 := if invert then 0xFFFF else 0

/-- The first instruction leaves its lane and fills the others. -/
lemma exec_opening (hrd : rd ≠ 31) (invert : Bool) (hhw : hw < 4) :
    ∃ v, exec x (moveLane rd imm16 hw true invert) = some (Function.update x rd v) ∧
      ∀ k < 4, lane v k = if k = hw then imm16 else fillOf invert := by
  cases invert with
  | false => exact ⟨_, exec_movz hrd hhw, fun k hk => lane_shiftLeft hk hhw⟩
  | true =>
    refine ⟨_, exec_movn hrd hhw, fun k hk => ?_⟩
    rw [lane_not hk, lane_shiftLeft hk hhw]
    split_ifs
    · exact BitVec.not_not
    · rfl

/-- Moves that open the register leave the lanes of the value over the fill, unless every lane is
the fill. -/
lemma execAll_moveLanes_first (hrd : rd ≠ 31) {invert allFill : Bool} {hws : List ℕ}
    (hnodup : hws.Nodup) (hlt : ∀ hw ∈ hws, hw < 4) :
    (∀ hw ∈ hws, lane value hw = fillOf invert ∧ ¬(allFill ∧ hw = 0)) ∨
    ∃ v, execAll x (moveLanes rd value invert allFill (fillOf invert) true hws) =
        some (Function.update x rd v) ∧
      ∀ hw < 4, lane v hw = if hw ∈ hws then lane value hw else fillOf invert := by
  induction hws with
  | nil => exact Or.inl (by simp)
  | cons k hws ih =>
    obtain ⟨hk, hnodup⟩ := List.nodup_cons.mp hnodup
    have hlt' : ∀ hw ∈ hws, hw < 4 := fun hw h => hlt hw (.tail _ h)
    rw [moveLanes]
    split_ifs with h
    · rcases ih hnodup hlt' with hall | ⟨v, hrun, hv⟩
      · refine Or.inl fun hw hmem => ?_
        rcases List.mem_cons.mp hmem with rfl | hmem
        · exact h
        · exact hall hw hmem
      · refine Or.inr ⟨v, hrun, fun hw hhw => ?_⟩
        rw [hv hw hhw]
        by_cases heq : hw = k
        · rw [heq, if_neg hk, if_pos (List.mem_cons_self ..), h.1]
        · simp only [List.mem_cons, heq, false_or]
    · have hk4 := hlt k (List.mem_cons_self ..)
      obtain ⟨u, hopen, hu⟩ := @exec_opening rd (lane value k) k x hrd invert hk4
      obtain ⟨v, hrun, hv⟩ := @execAll_moveLanes rd (fillOf invert) value (Function.update x rd u)
        hrd invert allFill hws hnodup hlt' fun hw h => by
          rw [Function.update_self, hu hw (hlt' hw h), if_neg (fun heq : hw = k => hk (heq ▸ h))]
      refine Or.inr ⟨v, ?_, fun hw hhw => ?_⟩
      · rw [execAll, List.foldlM_cons, hopen]
        refine hrun.trans ?_
        rw [Function.update_idem]
      · rw [hv hw hhw, Function.update_self, hu hw hhw]
        by_cases heq : hw = k
        · rw [heq, if_neg hk, if_pos rfl, if_pos (List.mem_cons_self ..)]
        · simp only [List.mem_cons, heq, false_or, if_false]

/-! ## How many words -/

/-- There is a move for each lane that is not left out. -/
lemma length_moveLanes {invert allFill first : Bool} {hws : List ℕ} :
    (moveLanes rd value invert allFill fill first hws).length =
      (hws.filter fun hw => ¬(lane value hw = fill ∧ ¬(allFill ∧ hw = 0))).length := by
  induction hws generalizing first with
  | nil => rfl
  | cons k hws ih =>
    rw [moveLanes, List.filter_cons]
    by_cases h : lane value k = fill ∧ ¬(allFill ∧ k = 0)
    · rw [if_pos h, if_neg (by rw [decide_eq_true_iff]; exact not_not.mpr h), ih]
    · rw [if_neg h, if_pos (by rw [decide_eq_true_iff]; exact h), List.length_cons,
        List.length_cons, ih]

/-- A word of one lane value throughout. -/
def allFilled (invert : Bool) (value : Word) : Bool :=
  if invert then value == BitVec.allOnes 64 else value == 0

/-- A word all of whose lanes are the fill. -/
lemma allFilled_of_lanesBut {invert : Bool} (h : lanesBut (fillOf invert) value = []) :
    allFilled invert value = true := by
  have hlane : ∀ hw < 4, lane value hw = fillOf invert := fun hw hhw => by
    by_contra hne
    exact List.not_mem_nil (h ▸ mem_lanesBut.mpr ⟨hhw, hne⟩)
  cases invert with
  | false =>
    rw [allFilled, if_neg Bool.false_ne_true, beq_iff_eq]
    exact eq_of_lane_eq fun hw hhw => (hlane hw hhw).trans
      ((by decide : ∀ hw < 4, (fillOf false : BitVec 16) = lane 0 hw) hw hhw)
  | true =>
    rw [allFilled, if_pos rfl, beq_iff_eq]
    exact eq_of_lane_eq fun hw hhw => (hlane hw hhw).trans
      ((by decide : ∀ hw < 4, fillOf true = lane (BitVec.allOnes 64) hw) hw hhw)

/-- There is a move for each lane other than the fill, and at least one. -/
lemma length_moveLanes_range (invert : Bool) :
    (moveLanes rd value invert (allFilled invert value) (fillOf invert) true (List.range 4)).length =
      max (lanesBut (fillOf invert) value).length 1 := by
  rw [length_moveLanes]
  cases hall : allFilled invert value with
  | false =>
    have hfilter : ((List.range 4).filter fun hw =>
        ¬(lane value hw = fillOf invert ∧ ¬(false = true ∧ hw = 0))) =
        lanesBut (fillOf invert) value := by simp [lanesBut]
    have hpos : 1 ≤ (lanesBut (fillOf invert) value).length := by
      rw [Nat.one_le_iff_ne_zero, Ne, List.length_eq_zero_iff]
      intro h
      exact Bool.false_ne_true (hall.symm.trans (allFilled_of_lanesBut h))
    rw [hfilter, max_eq_left hpos]
  | true =>
    cases invert with
    | false =>
      obtain rfl : value = 0 := beq_iff_eq.mp hall
      decide
    | true =>
      obtain rfl : value = BitVec.allOnes 64 := beq_iff_eq.mp hall
      decide

/-- The plan's count without `orr`. -/
lemma imm64Plan_some {invert : Bool} (h : (imm64Plan value).1 = some invert) :
    imm64Insts value = max (lanesBut (fillOf invert) value).length 1 ∧
      imm64Insts value = min (nonzeroLanes value) (nonzeroLanes (~~~value)) := by
  have hones : nonzeroLanes (~~~value) = max (lanesBut 0xFFFF value).length 1 := by
    rw [nonzeroLanes, lanesBut_not]
  rw [imm64Insts]
  unfold imm64Plan at h ⊢
  dsimp only at h ⊢
  split_ifs at h ⊢
  refine ⟨?_, rfl⟩
  obtain rfl := Option.some.inj h
  by_cases hlt : nonzeroLanes (~~~value) < nonzeroLanes value
  · rw [min_eq_right hlt.le, decide_eq_true hlt]
    exact hones
  · rw [min_eq_left (Nat.not_lt.mp hlt), decide_eq_false hlt]
    rfl

/-- The plan never counts more than the moves take. -/
lemma imm64Insts_le : imm64Insts value ≤ min (nonzeroLanes value) (nonzeroLanes (~~~value)) := by
  cases h : (imm64Plan value).1 with
  | some invert => exact (imm64Plan_some h).2.le
  | none =>
    have hone : imm64Insts value = 1 := by
      rw [imm64Insts]
      unfold imm64Plan at h ⊢
      dsimp only at h ⊢
      split_ifs at h ⊢
      rfl
    rw [hone]
    exact le_min (le_max_right _ _) (le_max_right _ _)

/-! ## No sequence is shorter -/

lemma length_lanesBut_le {hws : List ℕ} (h : ∀ hw < 4, hw ∉ hws → lane v hw = fill) :
    (lanesBut fill v).length ≤ hws.length := by
  refine (List.Nodup.subperm (List.nodup_range.filter _) fun hw hmem => ?_).length_le
  obtain ⟨hhw, hne⟩ := mem_lanesBut.mp hmem
  by_contra hnot
  exact hne (h hw hhw hnot)

/-- `movk`s leave the other lanes as they are. -/
lemma lane_execAll_movk (hrd : rd ≠ 31) {keeps : List (BitVec 16 × ℕ)}
    (hkeeps : ∀ k ∈ keeps, k.2 < 4)
    (hrun : execAll x (keeps.map fun k => encMovk rd k.1 k.2) = some y) (hhw : hw < 4)
    (hnot : hw ∉ keeps.map Prod.snd) : lane (y rd) hw = lane (x rd) hw := by
  induction keeps generalizing x with
  | nil =>
    obtain rfl : x = y := Option.some.inj hrun
    rfl
  | cons k keeps ih =>
    rw [List.map_cons, List.mem_cons, not_or] at hnot
    rw [List.map_cons, execAll, List.foldlM_cons,
      exec_movk hrd (hkeeps k (List.mem_cons_self ..))] at hrun
    rw [ih (fun k hk => hkeeps k (.tail _ hk)) hrun hnot.2, Function.update_self,
      lane_insertBits hhw, if_neg hnot.1]

/-- A sequence of moves is no shorter than the lanes other than its fill are many. -/
lemma length_of_moves (hrd : rd ≠ 31) (invert : Bool) {keeps : List (BitVec 16 × ℕ)}
    (hhw : hw < 4) (hkeeps : ∀ k ∈ keeps, k.2 < 4)
    (hrun : execAll x (moveLane rd imm16 hw true invert ::
      keeps.map fun k => encMovk rd k.1 k.2) = some y) :
    max (lanesBut (fillOf invert) (y rd)).length 1 ≤ keeps.length + 1 := by
  obtain ⟨u, hopen, hu⟩ := @exec_opening rd imm16 hw x hrd invert hhw
  rw [execAll, List.foldlM_cons, hopen] at hrun
  refine max_le ?_ (Nat.le_add_left _ _)
  have := @length_lanesBut_le (fillOf invert) (y rd) (hw :: keeps.map Prod.snd) fun k hk hnot => by
    rw [List.mem_cons, not_or] at hnot
    rw [lane_execAll_movk hrd hkeeps hrun hk hnot.2, Function.update_self, hu k hk, if_neg hnot.1]
  simpa using this

/-- What a field stands for is a bitmask. -/
lemma isBitmask_of_decodeBitMasks {immN imms immr : ℕ}
    (h : decodeBitMasks 64 immN imms immr = some v) : IsBitmask v := by
  unfold decodeBitMasks at h
  dsimp only at h
  split_ifs at h with hlen hones
  rw [not_or, not_or] at hlen
  obtain ⟨-, hpos, hle⟩ := hlen
  obtain rfl := Option.some.inj h
  generalize Nat.log2 (immN * 64 + (63 - imms)) = len at *
  have hlen6 : len ≤ 6 := by
    by_contra hgt
    have : 2 ^ 7 ≤ 2 ^ len := Nat.pow_le_pow_right two_pos (by omega)
    omega
  have hpow : 0 < 2 ^ len := Nat.two_pow_pos len
  have hmem : 2 ^ len ∈ [2, 4, 8, 16, 32, 64] := by
    obtain ⟨n, rfl⟩ := Nat.exists_eq_add_of_lt (Nat.lt_of_not_le (fun h => hpos (Nat.lt_one_iff.mpr
      (Nat.le_zero.mp h))) : 0 < len)
    rw [Nat.zero_add]
    exact mem_of_pow n (by omega)
  have hand : ∀ a : ℕ, a &&& (2 ^ len - 1) < 2 ^ len := fun a => by
    rw [Nat.and_two_pow_sub_one_eq_mod]
    exact Nat.mod_lt _ hpow
  refine ⟨2 ^ len, hmem, by omega, _, _, Nat.succ_pos _, ?_, hand immr, rfl⟩
  have := hand imms
  omega

/-- **No sequence of the forms is shorter than the plan.** -/
lemma imm64Insts_le_length (hrd : rd ≠ 31) {ws : List (BitVec 32)} (h : Builds rd ws)
    (hrun : execAll x ws = some y) : imm64Insts (y rd) ≤ ws.length := by
  cases h with
  | movz imm16 hw keeps hhw hkeeps =>
    have := length_of_moves hrd false hhw hkeeps hrun
    rw [List.length_cons, List.length_map]
    exact (imm64Insts_le.trans (min_le_left _ _)).trans this
  | movn imm16 hw keeps hhw hkeeps =>
    rw [← @BitVec.not_not _ imm16] at hrun
    have := length_of_moves hrd true hhw hkeeps hrun
    rw [List.length_cons, List.length_map]
    refine (imm64Insts_le.trans (min_le_right _ _)).trans (le_trans (le_of_eq ?_) this)
    rw [nonzeroLanes, lanesBut_not]
    rfl
  | orr w hop hrn hdest =>
    have hbitmask : IsBitmask (y rd) := by
      obtain ⟨z, hz, hzy⟩ := Option.bind_eq_some_iff.mp hrun
      obtain rfl : z = y := Option.some.inj hzy
      rw [exec, hop, hrn, hdest, if_neg hrd] at hz
      replace hz := (if_neg (by decide)).symm.trans hz
      replace hz := (if_neg (by decide)).symm.trans hz
      replace hz := (if_neg (by decide)).symm.trans hz
      obtain ⟨mask, hmask, rfl⟩ := Option.map_eq_some_iff.mp ((if_pos rfl).symm.trans hz)
      rw [Function.update_self, readX, if_pos rfl]
      have hzero : (0 : Word) ||| mask = mask := BitVec.zero_or
      rw [hzero]
      exact isBitmask_of_decodeBitMasks hmask
    have hsome := (encodeLogicalImm_spec (y rd)).1.mpr hbitmask
    rw [List.length_singleton, imm64Insts, imm64Plan]
    split_ifs with hplan
    · exact le_rfl
    · rw [not_and] at hplan
      exact Nat.not_lt.mp fun hlt => hplan hlt hsome

/-- **`loadImm64` builds every constant, in the fewest instructions of its forms**: the words leave
the value in the register and nothing else changed, the plan counts them, and no `movz` or `movn`
followed by `movk`s, and no `orr` of a bitmask immediate, builds the value in fewer. -/
theorem loadImm64_spec (value : Word) (rd : BitVec 5) (hrd : rd ≠ 31) :
    ∃ words, loadImm64 rd value = some words ∧
      (∀ x, execAll x words = some (Function.update x rd value)) ∧
      words.length = imm64Insts value ∧
      ∀ ws, Builds rd ws → ∀ x y, execAll x ws = some y → y rd = value →
        imm64Insts value ≤ ws.length := by
  have hmin : ∀ ws, Builds rd ws → ∀ x y, execAll x ws = some y → y rd = value →
      imm64Insts value ≤ ws.length := fun ws hws x y hrun hy => hy ▸ imm64Insts_le_length hrd hws hrun
  cases hplan : (imm64Plan value).1 with
  | none =>
    have hplan' := hplan
    unfold imm64Plan at hplan'
    dsimp only at hplan'
    split_ifs at hplan' with h
    obtain ⟨f, hf⟩ := Option.isSome_iff_exists.mp h.2
    obtain ⟨w, hw⟩ : ∃ w, encLogicalImm .orr true rd 31 value = some w := by
      rw [encLogicalImm, hf]
      exact ⟨_, rfl⟩
    refine ⟨[w], by rw [loadImm64, hplan, hw]; rfl, fun x => ?_, ?_, hmin⟩
    · rw [execAll, List.foldlM_cons, exec_orr hrd hw]
      rfl
    · rw [imm64Insts, imm64Plan, if_pos h]
      rfl
  | some invert =>
    have hload : loadImm64 rd value = some (moveLanes rd value invert (allFilled invert value)
        (fillOf invert) true (List.range 4)) := by
      rw [loadImm64, hplan]
      rfl
    refine ⟨_, hload, fun x => ?_, ?_, hmin⟩
    · rcases @execAll_moveLanes_first rd value x hrd invert (allFilled invert value) (List.range 4)
        List.nodup_range (fun hw h => List.mem_range.mp h) with hall | ⟨v, hrun, hv⟩
      · -- All lanes are the fill, and then the lowest one is moved.
        have hfilled : allFilled invert value = true := allFilled_of_lanesBut (by
          rw [List.eq_nil_iff_forall_not_mem]
          intro hw hmem
          obtain ⟨hhw, hne⟩ := mem_lanesBut.mp hmem
          exact hne (hall hw (List.mem_range.mpr hhw)).1)
        exact absurd ⟨hfilled, rfl⟩ (hall 0 (by decide)).2
      · rw [hrun, @eq_of_lane_eq v value fun hw hhw => by
          rw [hv hw hhw, if_pos (List.mem_range.mpr hhw)]]
    · rw [length_moveLanes_range, (imm64Plan_some hplan).1]

/-- The complement of a lane, which takes one `movn`. -/
theorem loadImm64_spec_negative : (0 : BitVec 5) ≠ 31 ∧
    loadImm64 0 0xFFFFFFFFFFFF1234 = some [0x929DB960] ∧
    ∀ x, execAll x [0x929DB960] = some (Function.update x 0 0xFFFFFFFFFFFF1234) := by
  have hload : loadImm64 0 0xFFFFFFFFFFFF1234 = some [0x929DB960] := by decide
  obtain ⟨words, hwords, hrun, -⟩ := loadImm64_spec 0xFFFFFFFFFFFF1234 0 (by decide)
  obtain rfl : [0x929DB960] = words := Option.some.inj (hload.symm.trans hwords)
  exact ⟨by decide, hload, hrun⟩

end Badc.Aarch64
