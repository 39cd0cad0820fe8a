import Badc.Ir.Inst
import Badc.Lib.BitRuns
import Badc.Lib.Loop

/-!
# Logical immediates

The logical instructions of AArch64 take an immediate of 13 bits that stands for a rotated run of
ones, replicated over the register.  `encodeLogicalImm` finds the field of a value, and the
architecture's `decodeBitMasks` reads a field.  A value has a field exactly if it is such a bitmask,
and the field reads back as the value (`encodeLogicalImm_spec`).
-/

namespace Badc.Aarch64

/-! ## The encoder -/

/-- The low `n` bits of a word. -/
def onesMask (n : ℕ) : Word := if n = 64 then BitVec.allOnes 64 else (1 : Word) <<< n - 1

/-- Halve the element size while both halves are equal. -/
def halveStep (value : Word) (esize : ℕ) : Option ℕ :=
  if 2 < esize then
    let h := esize / 2
    let m := (1 : Word) <<< h - 1
    if value &&& m ≠ (value >>> h) &&& m then none else some h
  else none

/-- The ones of a word stand side by side. -/
def isShiftedMask (x : Word) : Bool :=
  if x = 0 then false
  else
    let y := x >>> ctz x
    y &&& (y + 1) == 0

/-- Where the run of an element starts, and its length. -/
def runOf (value : Word) (esize : ℕ) : Option (ℕ × ℕ) :=
  let emask := onesMask esize
  let elem := value &&& emask
  if isShiftedMask elem then
    let i := ctz elem
    some (i, cto (elem >>> i))
  else
    -- The run wraps round the element, so that its complement is one run.
    let widened := elem ||| ~~~emask
    if !isShiftedMask (~~~widened) then none
    else
      let lead := leadingOnes widened
      some (64 - lead, lead + cto widened - (64 - esize))

/-- The rotation of a run that starts at bit `i`. -/
def immrOf (esize i : ℕ) : BitVec 32 :=
  (BitVec.ofNat 32 esize - BitVec.ofNat 32 i) &&& (BitVec.ofNat 32 esize - 1)

/-- The element size and the length of a run, in seven bits. -/
def nimmsOf (esize run : ℕ) : BitVec 32 :=
  ((~~~(BitVec.ofNat 32 esize - 1) <<< 1) ||| (BitVec.ofNat 32 run - 1)) &&& 0x7F

/-- The field of a rotated run. -/
def fieldOf (esize i run : ℕ) : BitVec 32 :=
  let nimms := nimmsOf esize run
  let n := ((nimms >>> 6) &&& 1) ^^^ 1
  (n <<< 12) ||| (immrOf esize i <<< 6) ||| (nimms &&& 0x3F)

/-- The logical-immediate field `N<<12 | immr<<6 | imms` of `value`. -/
def encodeLogicalImm (value : Word) (is64 : Bool) : Option (BitVec 32) :=
  let size := if is64 then 64 else 32
  if !is64 && !(value >>> 32 == 0 || value >>> 32 == 0xFFFFFFFF) then none
  else
    let value := if is64 then value else value &&& 0xFFFFFFFF
    if value = 0 ∨ value = onesMask size then none
    else
      let esize := whileSome (halveStep value) size size
      (runOf value esize).map fun r => fieldOf esize r.1 r.2

/-- The logical operations with an immediate form. -/
inductive LogicalOp
  | and
  | orr
  | eor
  deriving DecidableEq

/-- The `opc` field of an operation. -/
def LogicalOp.opc : LogicalOp → BitVec 32
  | .and => 0
  | .orr => 1
  | .eor => 2

/-- `<op> Rd, Rn, #value`, where the value has a field. -/
def encLogicalImm (op : LogicalOp) (is64 : Bool) (rd rn : BitVec 5) (value : Word) :
    Option (BitVec 32) :=
  (encodeLogicalImm value is64).map fun field : BitVec 32 =>
    ((BitVec.ofBool is64).setWidth 32 <<< 31) ||| (op.opc <<< 29) ||| (0x12000000 : BitVec 32) |||
      (field <<< 10) ||| (rn.setWidth 32 <<< 5) ||| rd.setWidth 32

/-! ## The architecture -/

/-- Elements of `e` bits, each of `c` ones rotated right by `r`. -/
def bitmask (M e c r : ℕ) : BitVec M :=
  ((((BitVec.allOnes c).setWidth e).rotateRight r).replicate (M / e)).setWidth M

/-- The value of a field, where the architecture defines one. -/
def decodeBitMasks (M immN imms immr : ℕ) : Option (BitVec M) :=
  let highest := immN * 64 + (63 - imms)
  let len := Nat.log2 highest
  if highest = 0 ∨ len < 1 ∨ M < 2 ^ len then none
  else
    let levels := 2 ^ len - 1
    if imms &&& levels = levels then none
    else some (bitmask M (2 ^ len) ((imms &&& levels) + 1) (immr &&& levels))

/-- A replicated rotated run of ones, shorter than its element. -/
def IsBitmask {M : ℕ} (v : BitVec M) : Prop :=
  ∃ e ∈ [2, 4, 8, 16, 32, 64], e ≤ M ∧ ∃ c r, 0 < c ∧ c < e ∧ r < e ∧ v = bitmask M e c r

/-- The `N` bit of a field. -/
def fieldN (f : BitVec 32) : ℕ := (f.extractLsb' 12 1).toNat

/-- The rotation of a field. -/
def fieldImmr (f : BitVec 32) : ℕ := (f.extractLsb' 6 6).toNat

/-- The size and length bits of a field. -/
def fieldImms (f : BitVec 32) : ℕ := (f.extractLsb' 0 6).toNat

variable {M e c r i k run : ℕ} {value : Word}

/-! ## Fields -/

lemma immrOf_toNat : ∀ e ∈ [2, 4, 8, 16, 32, 64], ∀ i ≤ e, (immrOf e i).toNat = (e - i) % e := by
  decide

lemma nimmsOf_toNat : ∀ e ∈ [2, 4, 8, 16, 32, 64], ∀ run < e, 0 < run →
    (nimmsOf e run).toNat = 128 - 2 * e + (run - 1) := by
  decide

/-- The field is built of bits that do not overlap. -/
lemma fieldOf_toNat (hr : (immrOf e i).toNat < 64) (hs : (nimmsOf e run).toNat < 128) :
    (fieldOf e i run).toNat = (1 - (nimmsOf e run).toNat / 64) * 4096 +
      (immrOf e i).toNat * 64 + (nimmsOf e run).toNat % 64 := by
  have hn : ((((nimmsOf e run) >>> 6) &&& 1) ^^^ 1).toNat = 1 - (nimmsOf e run).toNat / 64 := by
    rw [BitVec.toNat_xor, BitVec.toNat_and, BitVec.toNat_ushiftRight, Nat.shiftRight_eq_div_pow]
    have hlt : (nimmsOf e run).toNat / 2 ^ 6 < 2 := by omega
    generalize (nimmsOf e run).toNat / 2 ^ 6 = q at hlt ⊢
    interval_cases q <;> rfl
  have hnle := Nat.sub_le 1 ((nimmsOf e run).toNat / 64)
  unfold fieldOf
  rw [BitVec.toNat_or, BitVec.toNat_or, BitVec.toNat_shiftLeft, BitVec.toNat_shiftLeft, hn,
    BitVec.toNat_and, Nat.shiftLeft_eq, Nat.shiftLeft_eq, Nat.mod_eq_of_lt (by omega),
    Nat.mod_eq_of_lt (by omega)]
  have hlow : (nimmsOf e run).toNat &&& (0x3F : BitVec 32).toNat = (nimmsOf e run).toNat % 64 :=
    Nat.and_two_pow_sub_one_eq_mod _ 6
  have hmod := Nat.mod_lt (nimmsOf e run).toNat (show 0 < 64 by norm_num)
  have hjoin : (immrOf e i).toNat * 64 ||| (nimmsOf e run).toNat % 64 =
      (immrOf e i).toNat * 64 + (nimmsOf e run).toNat % 64 := by
    rw [Nat.mul_comm]
    exact (Nat.two_pow_add_eq_or_of_lt (i := 6) hmod _).symm
  rw [hlow, Nat.lor_assoc, hjoin, Nat.mul_comm _ (2 ^ 12)]
  rw [← Nat.two_pow_add_eq_or_of_lt (i := 12) (by omega)]
  omega

/-- A field of the encoder reads back as its rotation, element size and length. -/
lemma fieldOf_fields (he : e ∈ [2, 4, 8, 16, 32, 64]) (hi : i ≤ e) (hpos : 0 < run) (hrun : run < e) :
    (fieldOf e i run).toNat < 2 ^ 13 ∧ fieldN (fieldOf e i run) = e / 64 ∧
    fieldImmr (fieldOf e i run) = (e - i) % e ∧
    fieldImms (fieldOf e i run) = (128 - 2 * e + (run - 1)) % 64 := by
  have hr := immrOf_toNat e he i hi
  have hs := nimmsOf_toNat e he run hrun hpos
  have hsize : ∀ e ∈ [2, 4, 8, 16, 32, 64], 2 ≤ e ∧ (e ≤ 32 ∨ e = 64) := by decide
  have he64 := hsize e he
  have hmod : (e - i) % e < e := Nat.mod_lt _ (by omega)
  have hf := @fieldOf_toNat e i run (by omega) (by omega)
  rw [hr, hs] at hf
  unfold fieldN fieldImmr fieldImms
  rw [BitVec.extractLsb'_toNat, BitVec.extractLsb'_toNat, BitVec.extractLsb'_toNat, hf]
  simp only [Nat.shiftRight_eq_div_pow]
  omega

/-- The element size and the length read back. -/
lemma decodeBitMasks_eq {n : ℕ} (hn : n < 6) (he : e = 2 ^ (n + 1)) (hM : e ≤ M) (hpos : 0 < run)
    (hrun : run < e) (hr : r < e) :
    decodeBitMasks M (e / 64) ((128 - 2 * e + (run - 1)) % 64) r = some (bitmask M e run r) := by
  have hhigh : e / 64 * 64 + (63 - (128 - 2 * e + (run - 1)) % 64) = 2 * e - run := by
    subst he
    interval_cases n <;> omega
  have hlog : Nat.log2 (2 * e - run) = n + 1 := by
    rw [Nat.log2_eq_iff (by omega)]
    rw [he, pow_succ _ (n + 1)] at *
    omega
  unfold decodeBitMasks
  dsimp only
  have himms : (128 - 2 * e + (run - 1)) % 64 &&& 2 ^ (n + 1) - 1 = run - 1 := by
    rw [Nat.and_two_pow_sub_one_eq_mod]
    subst he
    interval_cases n <;> omega
  have himmr : r &&& 2 ^ (n + 1) - 1 = r := by
    rw [Nat.and_two_pow_sub_one_eq_mod, ← he, Nat.mod_eq_of_lt hr]
  rw [hhigh, hlog, himms, himmr, if_neg (by omega), if_neg (by omega), ← he, Nat.sub_add_cancel hpos]

/-- The bits of a bitmask. -/
lemma getLsbD_bitmask (hdvd : e ∣ M) (hc : c ≤ e) (hr : r < e) :
    Cyclic e c r M (bitmask M e c r).getLsbD := by
  intro j hj
  have hmod : j % e < e := Nat.mod_lt _ (by omega)
  unfold bitmask
  rw [BitVec.getLsbD_setWidth, BitVec.getLsbD_replicate, BitVec.getLsbD_rotateRight,
    Nat.mul_div_cancel' hdvd]
  rw [BitVec.getLsbD_setWidth, BitVec.getLsbD_setWidth, BitVec.getLsbD_allOnes, BitVec.getLsbD_allOnes]
  rw [Nat.mod_eq_of_lt hr, ← Nat.mod_add_mod]
  generalize j % e = p at hmod ⊢
  by_cases hlow : p < e - r
  · rw [decide_eq_true hlow, cond_true, Nat.mod_eq_of_lt (show p + r < e by omega), Bool.eq_iff_iff]
    simp only [Bool.and_eq_true, decide_eq_true_eq]
    omega
  · rw [decide_eq_false hlow, cond_false, Nat.mod_eq_sub_mod (show e ≤ p + r by omega),
      Nat.mod_eq_of_lt (show p + r - e < e by omega), Bool.eq_iff_iff]
    simp only [Bool.and_eq_true, decide_eq_true_eq]
    omega

/-! ## The element size -/

/-- The bits of a mask of fewer than 64 ones. -/
lemma getLsbD_lowMask {n : ℕ} (hn : n < 64) (j : ℕ) :
    ((1 : Word) <<< n - 1).getLsbD j = decide (j < n) := by
  have hpow : 2 ^ n < 2 ^ 64 := Nat.pow_lt_pow_right (by norm_num) hn
  have hpos : 0 < 2 ^ n := Nat.two_pow_pos n
  have hshift : ((1 : Word) <<< n).toNat = 2 ^ n := by
    rw [BitVec.toNat_shiftLeft, Nat.shiftLeft_eq]
    exact (congrArg (· % 2 ^ 64) (Nat.one_mul _)).trans (Nat.mod_eq_of_lt hpow)
  have hle : (1 : Word) ≤ (1 : Word) <<< n := by
    rw [BitVec.le_def, hshift]
    exact hpos
  rw [← BitVec.testBit_toNat, BitVec.toNat_sub_of_le hle, hshift]
  exact Nat.testBit_two_pow_sub_one n j

lemma getLsbD_onesMask {n j : ℕ} (hn : n ≤ 64) (hj : j < 64) :
    (onesMask n).getLsbD j = decide (j < n) := by
  unfold onesMask
  split
  · rw [BitVec.getLsbD_allOnes, decide_eq_decide]
    omega
  · exact getLsbD_lowMask (by omega) j

/-- Every bit of the value below `M` is one of its element. -/
def Periodic (value : Word) (M e : ℕ) : Prop := ∀ j < M, value.getLsbD j = value.getLsbD (j % e)

/-- The halves of an element that is halved are equal. -/
lemma halveStep_eq_some {h : ℕ} (hs : halveStep value e = some h) (he : e ≤ 64) :
    2 < e ∧ h = e / 2 ∧ ∀ t < h, value.getLsbD t = value.getLsbD (h + t) := by
  unfold halveStep at hs
  split at hs
  · rename_i hlt
    dsimp only at hs
    split at hs
    · cases hs
    · rename_i heq
      obtain rfl := Option.some.inj hs
      refine ⟨hlt, rfl, fun t ht => ?_⟩
      have hbit := congrArg (fun x : Word => x.getLsbD t) (not_not.mp heq)
      simpa only [BitVec.getLsbD_and, BitVec.getLsbD_ushiftRight,
        getLsbD_lowMask (show e / 2 < 64 by omega), decide_eq_true ht, Bool.and_true] using hbit
  · cases hs

/-- An element that is not halved is the smallest, or its halves differ. -/
lemma halveStep_eq_none (hs : halveStep value e = none) (he : e ≤ 64) :
    e ≤ 2 ∨ ∃ t < e / 2, value.getLsbD t ≠ value.getLsbD (e / 2 + t) := by
  unfold halveStep at hs
  split at hs
  · dsimp only at hs
    split at hs
    · rename_i hne
      refine Or.inr ?_
      by_contra hall
      push Not at hall
      refine hne (BitVec.eq_of_getLsbD_eq fun t ht => ?_)
      rw [BitVec.getLsbD_and, BitVec.getLsbD_and, BitVec.getLsbD_ushiftRight,
        getLsbD_lowMask (by omega)]
      by_cases hte : t < e / 2
      · rw [hall t hte]
      · rw [decide_eq_false hte, Bool.and_false, Bool.and_false]
    · cases hs
  · exact Or.inl (by omega)

/-- The size the halving ends at: a power of two that is a period of the value, and cannot be
halved. -/
lemma elementSize_spec (value : Word) {m : ℕ} (hm : M = 2 ^ (m + 1)) (hm6 : m < 6) :
    (∃ n ≤ m, whileSome (halveStep value) M M = 2 ^ (n + 1)) ∧
    Periodic value M (whileSome (halveStep value) M M) ∧
    halveStep value (whileSome (halveStep value) M M) = none := by
  have hM64 : M ≤ 2 ^ 6 := hm.trans_le (Nat.pow_le_pow_right two_pos (by omega))
  have hstep : ∀ e h, ((∃ n ≤ m, e = 2 ^ (n + 1)) ∧ Periodic value M e) →
      halveStep value e = some h → (∃ n ≤ m, h = 2 ^ (n + 1)) ∧ Periodic value M h := by
    rintro e h ⟨⟨n, hn, rfl⟩, hper⟩ hs
    have hle : 2 ^ (n + 1) ≤ 2 ^ (m + 1) := Nat.pow_le_pow_right two_pos (by omega)
    obtain ⟨hlt, rfl, hhalf⟩ := halveStep_eq_some hs (by omega)
    cases n with
    | zero => exact absurd hlt (by norm_num)
    | succ n =>
      rw [pow_succ, Nat.mul_div_cancel _ (by norm_num)] at *
      refine ⟨⟨n, by omega, rfl⟩, fun j hj => ?_⟩
      rw [hper j hj]
      have hpos : 0 < 2 ^ (n + 1) := Nat.two_pow_pos _
      have hmod := Nat.mod_mul (a := 2 ^ (n + 1)) (b := 2) (x := j)
      rcases Nat.mod_two_eq_zero_or_one (j / 2 ^ (n + 1)) with h0 | h1
      · rw [hmod, h0, Nat.mul_zero, Nat.add_zero]
      · rw [hmod, h1, Nat.mul_one, Nat.add_comm]
        exact (hhalf _ (Nat.mod_lt _ hpos)).symm
  have hstart : (∃ n ≤ m, M = 2 ^ (n + 1)) ∧ Periodic value M M :=
    ⟨⟨m, le_refl m, hm⟩, fun j hj => by rw [Nat.mod_eq_of_lt hj]⟩
  obtain ⟨hpow, hper⟩ := whileSome_invariant _ hstep M hstart
  refine ⟨hpow, hper, whileSome_done _ id (fun e h hI hs => ⟨hstep e h hI hs, ?_⟩) hstart le_rfl⟩
  obtain ⟨⟨n, hn, rfl⟩, -⟩ := hI
  have hle : 2 ^ (n + 1) ≤ 2 ^ (m + 1) := Nat.pow_le_pow_right two_pos (by omega)
  obtain ⟨hlt, rfl, -⟩ := halveStep_eq_some hs (by omega)
  exact Nat.div_lt_self (by omega) (by norm_num)

/-- The size of a bitmask is the one the halving ends at. -/
lemma elementSize_of_cyclic {m n : ℕ} (hm : M = 2 ^ (m + 1)) (hm6 : m < 6) (hn : n ≤ m)
    (he : e = 2 ^ (n + 1)) (hc : 0 < c) (hce : c < e) (hr : r < e)
    (h : Cyclic e c r M value.getLsbD) : whileSome (halveStep value) M M = e := by
  obtain ⟨⟨l, hl, hpow⟩, hper, hnone⟩ := elementSize_spec value hm hm6
  rw [hpow] at hper hnone ⊢
  have heM : e ≤ M := by rw [he, hm]; exact Nat.pow_le_pow_right two_pos (by omega)
  have hlM : 2 ^ (l + 1) ≤ 2 ^ (m + 1) := Nat.pow_le_pow_right two_pos (by omega)
  have hM64 : M ≤ 2 ^ 6 := by rw [hm]; exact Nat.pow_le_pow_right two_pos (by omega)
  rcases lt_trichotomy l n with hlt | rfl | hgt
  · -- The halves of the element would be equal.
    exfalso
    obtain ⟨t, ht, hne⟩ := h.halves_differ hc hce hr heM (k := 2 ^ n) (by rw [he, pow_succ]; ring)
    have hpowE : e = 2 ^ n * 2 := by rw [he, pow_succ]
    obtain ⟨q, hq⟩ : 2 ^ (l + 1) ∣ 2 ^ n := pow_dvd_pow 2 (by omega)
    refine hne ?_
    rw [hper t (by omega), hper (2 ^ n + t) (by omega), hq, Nat.mul_add_mod]
  · exact he.symm
  · -- A larger element has equal halves.
    exfalso
    rcases halveStep_eq_none hnone (by omega) with hle | ⟨t, ht, hne⟩
    · have hfour : 2 ^ 2 ≤ 2 ^ (l + 1) := Nat.pow_le_pow_right two_pos (by omega)
      omega
    · refine hne ?_
      rw [pow_succ, Nat.mul_div_cancel _ (by norm_num)] at ht ⊢
      obtain ⟨q, hq⟩ : e ∣ 2 ^ l := by rw [he]; exact pow_dvd_pow 2 (by omega)
      have hpl : 2 ^ (l + 1) = 2 ^ l * 2 := pow_succ 2 l
      rw [h t (by omega), h (2 ^ l + t) (by omega), hq, Nat.add_assoc, Nat.mul_add_mod]


/-! ## The run of an element -/

lemma isShiftedMask_iff (x : Word) : isShiftedMask x = true ↔ ∃ i k, IsRun x i k := by
  rw [exists_isRun_iff (by norm_num), isShiftedMask]
  by_cases h : x = 0
  · simp [h]
  · rw [if_neg h, beq_iff_eq]
    exact (and_iff_right h).symm

lemma getLsbD_elem (he : e ≤ 64) {j : ℕ} (hj : j < 64) :
    (value &&& onesMask e).getLsbD j = (value.getLsbD j && decide (j < e)) := by
  rw [BitVec.getLsbD_and, getLsbD_onesMask he hj]

lemma getLsbD_not_widened (he : e ≤ 64) {j : ℕ} (hj : j < 64) :
    (~~~(value &&& onesMask e ||| ~~~onesMask e)).getLsbD j =
      (!value.getLsbD j && decide (j < e)) := by
  rw [BitVec.getLsbD_not, BitVec.getLsbD_or, BitVec.getLsbD_not, getLsbD_elem he hj,
    getLsbD_onesMask he hj]
  by_cases hje : j < e <;> simp [hj, hje]

lemma le_of_isRun {x : Word} (h : IsRun x i k) (hx : ∀ j < 64, e ≤ j → x.getLsbD j = false) :
    i + k ≤ e := by
  have hpos := h.pos
  have hle := h.le
  by_contra hc
  have hlast := hx (i + k - 1) (by omega) (by omega)
  rw [h.bit _ (by omega), decide_eq_false_iff_not] at hlast
  omega

/-- What the encoder finds is a run of the value, where the element is neither empty nor full. -/
lemma cyclic_of_runOf (hper : Periodic value M e) (he : e ≤ 64) (hepos : 0 < e)
    (hone : ∃ j < M, value.getLsbD j = true) (hzero : ∃ j < M, value.getLsbD j = false)
    (hrun : runOf value e = some (i, run)) : i ≤ e ∧ 0 < run ∧ run < e ∧
    Cyclic e run ((e - i) % e) M value.getLsbD := by
  obtain ⟨a, ha, hone⟩ := hone
  obtain ⟨b, hb, hzero⟩ := hzero
  rw [hper a ha] at hone
  rw [hper b hb] at hzero
  have hamod : a % e < e := Nat.mod_lt _ hepos
  have hbmod : b % e < e := Nat.mod_lt _ hepos
  -- It is enough to find the run in the element.
  have hcyclic : ∀ s l, (∀ j < e, value.getLsbD j = decide ((j + (e - s) % e) % e < l)) →
      Cyclic e l ((e - s) % e) M value.getLsbD := by
    intro s l hbit j hj
    rw [hper j hj, hbit _ (Nat.mod_lt _ hepos), Nat.mod_add_mod]
  unfold runOf at hrun
  dsimp only at hrun
  split at hrun
  · rename_i hmask
    obtain ⟨s, l, h⟩ := (isShiftedMask_iff _).mp hmask
    rw [h.ctz, h.cto_ushiftRight, Option.some_inj, Prod.mk.injEq] at hrun
    obtain ⟨rfl, rfl⟩ := hrun
    have hpos := h.pos
    have hle : s + l ≤ e := le_of_isRun h fun j hj hje => by
      rw [getLsbD_elem he hj, decide_eq_false (by omega), Bool.and_false]
    have hbit : ∀ j < e, value.getLsbD j = decide (s ≤ j ∧ j < s + l) := by
      intro j hj
      rw [← h.bit j (by omega), getLsbD_elem he (by omega), decide_eq_true hj, Bool.and_true]
    rw [hbit _ hbmod, decide_eq_false_iff_not] at hzero
    refine ⟨by omega, hpos, by omega, hcyclic s l fun j hj => ?_⟩
    rw [hbit j hj, decide_eq_decide, add_sub_mod_lt_iff hj (by omega), if_pos hle]
  · split at hrun
    · cases hrun
    · rename_i hmask
      rw [Bool.not_eq_true', Bool.not_eq_false] at hmask
      obtain ⟨z, l, h⟩ := (isShiftedMask_iff _).mp hmask
      rw [h.leadingOnes_not, h.cto_not, Option.some_inj, Prod.mk.injEq] at hrun
      have hpos := h.pos
      have hle : z + l ≤ e := le_of_isRun h fun j hj hje => by
        rw [getLsbD_not_widened he hj, decide_eq_false (by omega), Bool.and_false]
      have hbit : ∀ j < e, value.getLsbD j = decide (¬(z ≤ j ∧ j < z + l)) := by
        intro j hj
        have hnot := h.bit j (by omega)
        rw [getLsbD_not_widened he (by omega), decide_eq_true hj, Bool.and_true] at hnot
        rw [← Bool.not_not (value.getLsbD j), hnot, decide_not]
      rw [hbit _ hamod, decide_eq_true_iff] at hone
      obtain ⟨rfl, rfl⟩ : z + l = i ∧ e - l = run := by omega
      refine ⟨hle, by omega, by omega, hcyclic (z + l) (e - l) fun j hj => ?_⟩
      rw [hbit j hj, decide_eq_decide, add_sub_mod_lt_iff hj hle]
      split <;> omega

/-- The encoder finds the run of an element that has one. -/
lemma runOf_isSome (he : e ≤ 64) (heM : e ≤ M) (hc : 0 < c) (hce : c < e) (hr : r < e)
    (h : Cyclic e c r M value.getLsbD) : (runOf value e).isSome = true := by
  obtain ⟨s, hs, rfl⟩ := exists_start hr
  have hbit : ∀ j < e, value.getLsbD j =
      decide (if s + c ≤ e then s ≤ j ∧ j < s + c else s ≤ j ∨ j < s + c - e) := by
    intro j hj
    rw [h j (by omega), decide_eq_decide, add_sub_mod_lt_iff hj hs.le]
  by_cases hwrap : s + c ≤ e
  · have hmask : isShiftedMask (value &&& onesMask e) = true := by
      refine (isShiftedMask_iff _).mpr ⟨s, c, hc, by omega, fun j hj => ?_⟩
      rw [getLsbD_elem he hj]
      by_cases hje : j < e
      · rw [hbit j hje, decide_eq_true hje, Bool.and_true, decide_eq_decide, if_pos hwrap]
      · rw [decide_eq_false hje, Bool.and_false, eq_comm, decide_eq_false_iff_not]
        omega
    unfold runOf
    simp only [hmask, if_true, Option.isSome_some]
  · have hmask : isShiftedMask (~~~(value &&& onesMask e ||| ~~~onesMask e)) = true := by
      refine (isShiftedMask_iff _).mpr ⟨s + c - e, e - c, by omega, by omega, fun j hj => ?_⟩
      rw [getLsbD_not_widened he hj]
      by_cases hje : j < e
      · rw [hbit j hje, decide_eq_true hje, Bool.and_true, ← decide_not, decide_eq_decide,
          if_neg hwrap]
        omega
      · rw [decide_eq_false hje, Bool.and_false, eq_comm, decide_eq_false_iff_not]
        omega
    unfold runOf
    simp only [hmask, Bool.not_true, Bool.false_eq_true, if_false]
    split <;> rfl


/-! ## The value of a field -/

lemma exists_pow_of_mem (he : e ∈ [2, 4, 8, 16, 32, 64]) : ∃ n < 6, e = 2 ^ (n + 1) := by
  have hall : ∀ e ∈ [2, 4, 8, 16, 32, 64], ∃ n < 6, e = 2 ^ (n + 1) := by decide
  exact hall e he

lemma mem_of_pow : ∀ n < 6, 2 ^ (n + 1) ∈ [2, 4, 8, 16, 32, 64] := by decide

lemma getLsbD_setWidth_of_lt {j : ℕ} (hj : j < M) :
    (value.setWidth M).getLsbD j = value.getLsbD j := by
  rw [BitVec.getLsbD_setWidth, decide_eq_true hj, Bool.true_and]

/-- What the encoder gives for a value of `M` bits that is neither empty nor full: a field exactly for a
bitmask, which the architecture reads back. -/
lemma encodeRun_spec {m : ℕ} (hm : M = 2 ^ (m + 1)) (hm6 : m < 6)
    (hone : ∃ j < M, value.getLsbD j = true) (hzero : ∃ j < M, value.getLsbD j = false) :
    ((runOf value (whileSome (halveStep value) M M)).isSome = true ↔
      IsBitmask (value.setWidth M)) ∧
    ∀ s run, runOf value (whileSome (halveStep value) M M) = some (s, run) →
      let f := fieldOf (whileSome (halveStep value) M M) s run
      f.toNat < 2 ^ 13 ∧ fieldN f ≤ M / 64 ∧
      decodeBitMasks M (fieldN f) (fieldImms f) (fieldImmr f) = some (value.setWidth M) := by
  obtain ⟨⟨n, hn, hpow⟩, hper, -⟩ := elementSize_spec value hm hm6
  have hsize : 2 ^ (n + 1) ≤ M := hm ▸ Nat.pow_le_pow_right two_pos (by omega)
  have hM64 : M ≤ 2 ^ 6 := hm.trans_le (Nat.pow_le_pow_right two_pos (by omega))
  have hdvd : 2 ^ (n + 1) ∣ M := hm ▸ pow_dvd_pow 2 (by omega)
  have hpos : 0 < 2 ^ (n + 1) := Nat.two_pow_pos _
  -- What is found is a bitmask of that element size.
  have hfound : ∀ s run, runOf value (whileSome (halveStep value) M M) = some (s, run) →
      s ≤ 2 ^ (n + 1) ∧ 0 < run ∧ run < 2 ^ (n + 1) ∧
      value.setWidth M = bitmask M (2 ^ (n + 1)) run ((2 ^ (n + 1) - s) % 2 ^ (n + 1)) := by
    intro s run hrun
    rw [hpow] at hrun hper
    obtain ⟨hs, hrun0, hlt, hcyc⟩ := cyclic_of_runOf hper (by omega) hpos hone hzero hrun
    refine ⟨hs, hrun0, hlt, BitVec.eq_of_getLsbD_eq fun j hj => ?_⟩
    rw [getLsbD_setWidth_of_lt hj, hcyc j hj,
      getLsbD_bitmask hdvd hlt.le (Nat.mod_lt _ hpos) j hj]
  refine ⟨⟨fun h => ?_, fun h => ?_⟩, fun s run hrun => ?_⟩
  · obtain ⟨⟨s, run⟩, hrun⟩ := Option.isSome_iff_exists.mp h
    obtain ⟨-, hrun0, hlt, heq⟩ := hfound s run hrun
    exact ⟨2 ^ (n + 1), mem_of_pow n (by omega), hsize, run, _, hrun0, hlt, Nat.mod_lt _ hpos, heq⟩
  · obtain ⟨e, he, heM, c, r, hc, hce, hr, heq⟩ := h
    obtain ⟨l, hl, rfl⟩ := exists_pow_of_mem he
    have hlm : l ≤ m := by
      by_contra hgt
      have hlt : 2 ^ (m + 1) < 2 ^ (l + 1) := Nat.pow_lt_pow_right (by norm_num) (by omega)
      omega
    have hcyc : Cyclic (2 ^ (l + 1)) c r M value.getLsbD := by
      intro j hj
      rw [← getLsbD_setWidth_of_lt hj, heq,
        getLsbD_bitmask (hm ▸ pow_dvd_pow 2 (by omega)) hce.le hr j hj]
    rw [elementSize_of_cyclic hm hm6 hlm rfl hc hce hr hcyc]
    exact runOf_isSome (by omega) heM hc hce hr hcyc
  · obtain ⟨hs, hrun0, hlt, heq⟩ := hfound s run hrun
    rw [hpow]
    obtain ⟨hf, hN, himmr, himms⟩ := fieldOf_fields (mem_of_pow n (by omega)) hs hrun0 hlt
    refine ⟨hf, ?_, ?_⟩
    · rw [hN]
      exact Nat.div_le_div_right hsize
    · rw [hN, himmr, himms, heq]
      exact decodeBitMasks_eq (by omega) rfl hsize hrun0 hlt (Nat.mod_lt _ hpos)

/-- A word with no bits from `M` on is not zero and not full exactly if it has a one and a zero. -/
lemma exists_bits_iff (hM : M ≤ 64) (hhigh : ∀ j < 64, M ≤ j → value.getLsbD j = false) :
    ¬(value = 0 ∨ value = onesMask M) ↔
      (∃ j < M, value.getLsbD j = true) ∧ ∃ j < M, value.getLsbD j = false := by
  rw [not_or]
  refine and_congr ⟨fun hne => ?_, ?_⟩ ⟨fun hne => ?_, ?_⟩
  · by_contra hall
    push Not at hall
    refine hne (BitVec.eq_of_getLsbD_eq fun j hj => ?_)
    rw [show (0 : Word) = 0#64 from rfl, BitVec.getLsbD_zero]
    by_cases hjM : j < M
    · exact Bool.eq_false_iff.mpr (hall j hjM)
    · exact hhigh j hj (Nat.le_of_not_lt hjM)
  · rintro ⟨j, _, hj⟩ rfl
    rw [show (0 : Word) = 0#64 from rfl, BitVec.getLsbD_zero] at hj
    cases hj
  · by_contra hall
    push Not at hall
    refine hne (BitVec.eq_of_getLsbD_eq fun j hj => ?_)
    rw [getLsbD_onesMask hM hj]
    by_cases hjM : j < M
    · rw [decide_eq_true hjM, Bool.eq_true_of_not_eq_false (hall j hjM)]
    · rw [decide_eq_false hjM, hhigh j hj (Nat.le_of_not_lt hjM)]
  · rintro ⟨j, hj, hzero⟩ rfl
    rw [getLsbD_onesMask hM (by omega), decide_eq_false_iff_not] at hzero
    exact hzero hj

/-- What the encoder gives for a value of `M` bits. -/
lemma encodeSized_spec (value : Word) {m : ℕ} (hm : M = 2 ^ (m + 1)) (hm6 : m < 6)
    (hhigh : ∀ j < 64, M ≤ j → value.getLsbD j = false) {o : Option (BitVec 32)}
    (ho : o = if value = 0 ∨ value = onesMask M then none else
      (runOf value (whileSome (halveStep value) M M)).map fun r =>
        fieldOf (whileSome (halveStep value) M M) r.1 r.2) :
    (o.isSome = true ↔ IsBitmask (value.setWidth M)) ∧ ∀ f, o = some f →
      f.toNat < 2 ^ 13 ∧ fieldN f ≤ M / 64 ∧
      decodeBitMasks M (fieldN f) (fieldImms f) (fieldImmr f) = some (value.setWidth M) := by
  have hM64 : M ≤ 2 ^ 6 := hm.trans_le (Nat.pow_le_pow_right two_pos (by omega))
  have hbits := exists_bits_iff (by omega) hhigh
  by_cases hguard : value = 0 ∨ value = onesMask M
  · rw [if_pos hguard] at ho
    subst ho
    refine ⟨iff_of_false (by simp) ?_, fun f hf => by cases hf⟩
    rintro ⟨e, he, heM, c, r, hc, hce, hr, heq⟩
    obtain ⟨l, hl, rfl⟩ := exists_pow_of_mem he
    have hlm : l ≤ m := by
      by_contra hgt
      have hlt : 2 ^ (m + 1) < 2 ^ (l + 1) := Nat.pow_lt_pow_right (by norm_num) (by omega)
      omega
    have hcyc := getLsbD_bitmask (M := M) (hm ▸ pow_dvd_pow 2 (by omega)) hce.le hr
    obtain ⟨⟨a, ha, hone⟩, b, hb, hzero⟩ := hcyc.exists_bits hc hce hr heM
    rw [← heq, getLsbD_setWidth_of_lt ha] at hone
    rw [← heq, getLsbD_setWidth_of_lt hb] at hzero
    exact hbits.mpr ⟨⟨a, ha, hone⟩, b, hb, hzero⟩ hguard
  · rw [if_neg hguard] at ho
    subst ho
    obtain ⟨hone, hzero⟩ := hbits.mp hguard
    obtain ⟨hiff, hfield⟩ := encodeRun_spec hm hm6 hone hzero
    rw [Option.isSome_map]
    refine ⟨hiff, fun f hf => ?_⟩
    obtain ⟨⟨s, run⟩, hrun, rfl⟩ := Option.map_eq_some_iff.mp hf
    exact hfield s run hrun

/-- **A value has a field exactly if it is a bitmask, and the field reads back as the value.**  The
32-bit form takes a low word under a high word of all zeros or all ones, and its field has no `N`. -/
theorem encodeLogicalImm_spec (value : Word) :
    ((encodeLogicalImm value true).isSome = true ↔ IsBitmask value) ∧
    (∀ f, encodeLogicalImm value true = some f → f.toNat < 2 ^ 13 ∧
      decodeBitMasks 64 (fieldN f) (fieldImms f) (fieldImmr f) = some value) ∧
    ((encodeLogicalImm value false).isSome = true ↔
      (value >>> 32 = 0 ∨ value >>> 32 = 0xFFFFFFFF) ∧ IsBitmask (value.setWidth 32)) ∧
    ∀ f, encodeLogicalImm value false = some f → f.toNat < 2 ^ 13 ∧ fieldN f = 0 ∧
      decodeBitMasks 32 0 (fieldImms f) (fieldImmr f) = some (value.setWidth 32) := by
  obtain ⟨hiff, hfield⟩ := encodeSized_spec (M := 64) (m := 5) value rfl (by norm_num)
    (fun j hj hle => absurd hle (by omega)) (o := encodeLogicalImm value true) rfl
  rw [BitVec.setWidth_eq] at hiff hfield
  refine ⟨hiff, fun f hf => ⟨(hfield f hf).1, (hfield f hf).2.2⟩, ?_⟩
  have hguard : (!(value >>> 32 == 0 || value >>> 32 == 0xFFFFFFFF)) = true ↔
      ¬(value >>> 32 = 0 ∨ value >>> 32 = 0xFFFFFFFF) := by
    rw [Bool.not_eq_true', Bool.eq_false_iff, Ne, Bool.or_eq_true, beq_iff_eq, beq_iff_eq]
  by_cases hword : value >>> 32 = 0 ∨ value >>> 32 = 0xFFFFFFFF
  · have hmask : ∀ j < 64, (value &&& 0xFFFFFFFF).getLsbD j =
        (value.getLsbD j && decide (j < 32)) := fun j hj => getLsbD_elem (e := 32) (by norm_num) hj
    have hlow : (value &&& 0xFFFFFFFF).setWidth 32 = value.setWidth 32 := by
      refine BitVec.eq_of_getLsbD_eq fun j hj => ?_
      rw [getLsbD_setWidth_of_lt hj, getLsbD_setWidth_of_lt hj, hmask j (by omega),
        decide_eq_true hj, Bool.and_true]
    have henc : encodeLogicalImm value false =
        if value &&& 0xFFFFFFFF = 0 ∨ value &&& 0xFFFFFFFF = onesMask 32 then none else
          (runOf (value &&& 0xFFFFFFFF) (whileSome (halveStep (value &&& 0xFFFFFFFF)) 32 32)).map
            fun r => fieldOf (whileSome (halveStep (value &&& 0xFFFFFFFF)) 32 32) r.1 r.2 :=
      if_neg fun h => hguard.mp h hword
    obtain ⟨hiff, hfield⟩ := encodeSized_spec (M := 32) (m := 4) _ rfl (by norm_num)
      (fun j hj hle => by rw [hmask j hj, decide_eq_false (by omega), Bool.and_false]) henc
    rw [hlow] at hiff hfield
    refine ⟨hiff.trans (and_iff_right hword).symm, fun f hf => ?_⟩
    obtain ⟨hf, hN, hdec⟩ := hfield f hf
    obtain hN := Nat.le_zero.mp hN
    rw [hN] at hdec
    exact ⟨hf, hN, hdec⟩
  · have henc : encodeLogicalImm value false = none := if_pos (hguard.mpr hword)
    rw [henc]
    exact ⟨iff_of_false (by simp) fun h => hword h.1, fun f hf => by cases hf⟩

/-- The instruction holds the field between its registers and its opcode. -/
theorem encLogicalImm_field {op : LogicalOp} {is64 : Bool} {rd rn : BitVec 5} {w : BitVec 32}
    (h : encLogicalImm op is64 rd rn value = some w) :
    ∃ f, encodeLogicalImm value is64 = some f ∧ w.extractLsb' 10 13 = f.setWidth 13 := by
  obtain ⟨f, hf, rfl⟩ := Option.map_eq_some_iff.mp h
  refine ⟨f, hf, BitVec.eq_of_getLsbD_eq fun j hj => ?_⟩
  have hconst : ∀ j < 13, (0x12000000 : BitVec 32).getLsbD (10 + j) = false := by decide
  have hrn : rn.getLsbD (10 + j - 5) = false := BitVec.getLsbD_of_ge rn _ (by omega)
  have hrd : rd.getLsbD (10 + j) = false := BitVec.getLsbD_of_ge rd _ (by omega)
  have hopc : 10 + j < 29 := by omega
  have hsf : 10 + j < 31 := by omega
  have hlow : ¬10 + j < 10 := by omega
  have hin : 10 + j < 32 := by omega
  rw [BitVec.getLsbD_extractLsb', BitVec.getLsbD_or, BitVec.getLsbD_or, BitVec.getLsbD_or,
    BitVec.getLsbD_or, BitVec.getLsbD_or, hconst j hj, BitVec.getLsbD_shiftLeft,
    BitVec.getLsbD_shiftLeft, BitVec.getLsbD_shiftLeft, BitVec.getLsbD_shiftLeft,
    BitVec.getLsbD_setWidth, BitVec.getLsbD_setWidth, BitVec.getLsbD_setWidth, hrn, hrd,
    Nat.add_sub_cancel_left]
  simp only [hj, hopc, hsf, hlow, hin, decide_true, decide_false, Bool.not_true, Bool.not_false,
    Bool.and_false, Bool.and_true, Bool.false_and, Bool.true_and, Bool.or_false, Bool.false_or]
  rw [BitVec.getLsbD_setWidth, decide_eq_true hj, Bool.true_and]

/-- The field of a mask that leaves out the low four bits of a word. -/
theorem encodeLogicalImm_spec_align : encodeLogicalImm 0xFFFFFFFFFFFFFFF0 true = some 0x1F3B ∧
    decodeBitMasks 64 1 0x3B 0x3C = some 0xFFFFFFFFFFFFFFF0 := by
  have henc : encodeLogicalImm 0xFFFFFFFFFFFFFFF0 true = some 0x1F3B := by decide
  exact ⟨henc, ((encodeLogicalImm_spec 0xFFFFFFFFFFFFFFF0).2.1 _ henc).2⟩

end Badc.Aarch64
