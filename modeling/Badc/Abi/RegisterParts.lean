import Badc.Abi.Passing

/-!
# The registers of an aggregate

`abi_classify.rs`: the bytes of an aggregate each of its registers carries, which are the slots of its
class tiled from offset 0, the elements of a homogeneous aggregate, or the one vector register an
aggregate fills.  Each convention's registers carry disjoint bytes of the aggregate, and every byte of a
leaf that is a byte of the aggregate is carried once.
-/

namespace Badc.Abi

/-! ## Slots and parts -/

/-- Bytes the slot transfers. -/
def RegClass.width : RegClass → ℕ
  | .vector | .x87 => 16
  | _ => 8

/-- The slots of the classes, one after the other from an offset on. -/
def scanSlots : ℕ → List RegClass → List (RegClass × ℕ)
  | _, [] => []
  | off, c :: classes => (c, off) :: scanSlots (off + c.width) classes

/-- The slots that take a register, in register order, each with the offset of the bytes it carries. -/
def registerSlots (classes : List RegClass) : List (RegClass × ℕ) :=
  (scanSlots 0 classes).filter fun slot => slot.1 != .noClass

/-- The offset and the size of each element, in register order. -/
def HomogeneousAggregate.members (hfa : HomogeneousAggregate) : List (ℕ × ℕ) :=
  (List.range hfa.count).map fun k => (k * hfa.width, hfa.width)

/-- The offset and the size of each SIMD register slot the aggregate occupies on AArch64. -/
def fpMemberLayout (desc : AggDesc) (isReturn : Bool) : Option (List (ℕ × ℕ)) :=
  match desc.homogeneous with
  | some hfa => some hfa.members
  | none =>
    if isReturn && isNarrowVector desc then some [(0, desc.size)]
    else do
      let width ← soleVectorWidth desc.size desc.fields
      let _ ← vectorRegClass width
      return [(0, width)]

/-- One register of an aggregate: its class, the bytes of the aggregate it carries, and the leaves lying
wholly inside them. -/
structure RegPart where
  regClass : RegClass
  offset : ℕ
  width : ℕ
  fields : List FlatField
  deriving DecidableEq

/-- The register parts of an aggregate, in register order; none when it takes no register, and for a
register whose lanes no scalar access names. -/
def registerParts (desc : AggDesc) (abi : AbiRow) (isReturn : Bool) : Option (List RegPart) :=
  match classifyAggregate desc abi isReturn with
  | .regs classes =>
    if classes = [] ∨ .vector ∈ classes ∨ .x87 ∈ classes then none
    else
      let slots := (registerSlots classes).map fun (c, off) => (off, min (desc.size - off) 8, c)
      let layout : List (ℕ × ℕ × RegClass) :=
        match desc.homogeneous with
        | some hfa =>
          if abi.arch ≠ .x86_64 then hfa.members.map fun (off, size) => (off, size, .sse) else slots
        | none => slots
      some <| layout.map fun (offset, width, c) =>
        ⟨c, offset, width, desc.fields.filter fun f =>
          decide (offset ≤ f.offset) && decide (f.offset + f.size ≤ offset + width)⟩
  | _ => none

/-- The bytes of an aggregate of this size that its slots carry: the offset and the size of each. -/
def slotBytes (size : ℕ) (classes : List RegClass) : List (ℕ × ℕ) :=
  (registerSlots classes).map fun (c, off) => (off, min (size - off) c.width)

/-! ## Carrying every byte once -/

/-- Ranges of bytes, each an offset and a size, carry an aggregate: they are disjoint and inside the
aggregate, and each byte of a leaf that is inside the aggregate is in exactly one of them. -/
structure CarriesOnce (size : ℕ) (fields : List FlatField) (ranges : List (ℕ × ℕ)) : Prop where
  disjoint : ranges.Pairwise fun r s => r.1 + r.2 ≤ s.1
  inside : ∀ r ∈ ranges, r.1 + r.2 ≤ size
  once : ∀ f ∈ fields, ∀ b, f.offset ≤ b → b < f.offset + f.size → b < size →
    ranges.countP (fun r => decide (r.1 ≤ b ∧ b < r.1 + r.2)) = 1

variable {size b k n off : ℕ} {fields : List FlatField} {ranges : List (ℕ × ℕ)}
  {classes : List RegClass} {slot : RegClass × ℕ}

/-- In disjoint ranges a byte that is in one of them is in one only. -/
lemma countP_eq_one (hdisjoint : ranges.Pairwise fun r s => r.1 + r.2 ≤ s.1)
    (hb : ∃ r ∈ ranges, r.1 ≤ b ∧ b < r.1 + r.2) :
    ranges.countP (fun r => decide (r.1 ≤ b ∧ b < r.1 + r.2)) = 1 := by
  induction ranges with
  | nil => exact absurd hb (by simp)
  | cons r ranges ih =>
    obtain ⟨hfirst, hrest⟩ := List.pairwise_cons.mp hdisjoint
    obtain ⟨s, hs, hsb⟩ := hb
    rcases List.mem_cons.mp hs with rfl | hs
    · have hothers : ranges.countP (fun r => decide (r.1 ≤ b ∧ b < r.1 + r.2)) = 0 := by
        refine List.countP_eq_zero.mpr fun t ht => ?_
        have := hfirst t ht
        simp only [decide_eq_true_eq]
        omega
      rw [List.countP_cons, hothers, if_pos (decide_eq_true hsb)]
    · have := hfirst s hs
      rw [List.countP_cons_of_neg (by simp only [decide_eq_true_eq]; omega)]
      exact ih hrest ⟨s, hs, hsb⟩

lemma CarriesOnce.of_covers (hdisjoint : ranges.Pairwise fun r s => r.1 + r.2 ≤ s.1)
    (hinside : ∀ r ∈ ranges, r.1 + r.2 ≤ size)
    (hcovers : ∀ f ∈ fields, ∀ b, f.offset ≤ b → b < f.offset + f.size → b < size →
      ∃ r ∈ ranges, r.1 ≤ b ∧ b < r.1 + r.2) : CarriesOnce size fields ranges :=
  ⟨hdisjoint, hinside, fun f hf b hlo hhi hb => countP_eq_one hdisjoint (hcovers f hf b hlo hhi hb)⟩

lemma carriesOnce_whole : CarriesOnce size fields [(0, size)] := by
  refine .of_covers (List.pairwise_singleton _ _) ?_ ?_
  · intro r hr
    rw [List.mem_singleton.mp hr]
    omega
  · intro f _ b _ _ hb
    exact ⟨(0, size), List.mem_singleton_self _, Nat.zero_le _, by omega⟩

/-- The elements of a homogeneous aggregate carry an aggregate that consists of them. -/
lemma HomogeneousAggregate.carriesOnce_members (hfa : HomogeneousAggregate) :
    CarriesOnce (hfa.count * hfa.width) fields hfa.members := by
  refine .of_covers ?_ ?_ ?_
  · refine List.pairwise_map.mpr (List.pairwise_lt_range.imp fun {j k} hjk => ?_)
    calc j * hfa.width + hfa.width = (j + 1) * hfa.width := (Nat.succ_mul j _).symm
      _ ≤ k * hfa.width := Nat.mul_le_mul_right _ hjk
  · intro r hr
    obtain ⟨k, hk, rfl⟩ := List.mem_map.mp hr
    calc k * hfa.width + hfa.width = (k + 1) * hfa.width := (Nat.succ_mul k _).symm
      _ ≤ hfa.count * hfa.width := Nat.mul_le_mul_right _ (List.mem_range.mp hk)
  · intro f _ b _ _ hb
    have hk : b / hfa.width < hfa.count := Nat.div_lt_of_lt_mul (by rwa [Nat.mul_comm])
    have hwidth : 0 < hfa.width := by
      refine Nat.pos_of_ne_zero fun h => ?_
      rw [h, Nat.mul_zero] at hb
      omega
    refine ⟨_, List.mem_map.mpr ⟨b / hfa.width, List.mem_range.mpr hk, rfl⟩,
      Nat.div_mul_le_self b _, ?_⟩
    have := Nat.lt_div_mul_add hwidth (a := b)
    exact this

/-! ## Slots -/

lemma le_of_mem_scanSlots (h : slot ∈ scanSlots off classes) : off ≤ slot.2 := by
  induction classes generalizing off with
  | nil => exact absurd h (by simp [scanSlots])
  | cons c classes ih =>
    rcases List.mem_cons.mp h with rfl | h
    · exact le_rfl
    · exact (Nat.le_add_right off c.width).trans (ih h)

lemma pairwise_scanSlots :
    (scanSlots off classes).Pairwise fun s t => s.2 + s.1.width ≤ t.2 := by
  induction classes generalizing off with
  | nil => exact List.Pairwise.nil
  | cons c classes ih => exact List.pairwise_cons.mpr ⟨fun t ht => le_of_mem_scanSlots ht, ih⟩

lemma map_fst_scanSlots : (scanSlots off classes).map Prod.fst = classes := by
  induction classes generalizing off with
  | nil => rfl
  | cons c classes ih => exact congrArg (c :: ·) ih

lemma mem_of_mem_registerSlots (h : slot ∈ registerSlots classes) : slot.1 ∈ classes := by
  rw [← @map_fst_scanSlots 0 classes]
  exact List.mem_map_of_mem (List.mem_of_mem_filter h)

/-- Slots fit the eightbytes of an aggregate: each starts on one of them, and those that are needed are
each inside a slot. -/
structure SlotsFit (n : ℕ) (needed : ℕ → Prop) (classes : List RegClass) : Prop where
  starts : ∀ slot ∈ registerSlots classes, ∃ k < n, slot.2 = 8 * k
  covers : ∀ k < n, needed k → ∃ slot ∈ registerSlots classes,
    slot.2 ≤ 8 * k ∧ 8 * k + 8 ≤ slot.2 + slot.1.width

/-- Slots that fit an aggregate's eightbytes carry it, where those a leaf overlaps are needed. -/
lemma SlotsFit.carriesOnce {needed : ℕ → Prop} (h : SlotsFit ((size + 7) / 8) needed classes)
    (hneeded : ∀ k < (size + 7) / 8, ∀ f ∈ fields, f.offset < 8 * k + 8 → 8 * k < f.offset + f.size →
      needed k) : CarriesOnce size fields (slotBytes size classes) := by
  refine .of_covers ?_ ?_ ?_
  · refine List.pairwise_map.mpr ((pairwise_scanSlots.filter _).imp fun {s t} hst => ?_)
    exact (Nat.add_le_add_left (Nat.min_le_right _ _) _).trans hst
  · intro r hr
    obtain ⟨slot, hslot, rfl⟩ := List.mem_map.mp hr
    obtain ⟨k, hk, hoff⟩ := h.starts slot hslot
    dsimp only
    omega
  · intro f hf b hlo hhi hb
    have hk : b / 8 < (size + 7) / 8 := by omega
    obtain ⟨slot, hslot, hle, hge⟩ :=
      h.covers (b / 8) hk (hneeded (b / 8) hk f hf (by omega) (by omega))
    refine ⟨_, List.mem_map_of_mem hslot, ?_, ?_⟩
    · dsimp only
      omega
    · dsimp only
      omega

lemma scanSlots_replicate : scanSlots off (List.replicate n .integer) =
    (List.range n).map fun k => (.integer, off + 8 * k) := by
  induction n generalizing off with
  | zero => rfl
  | succ n ih =>
    rw [List.replicate_succ, scanSlots, ih, List.range_succ_eq_map, List.map_cons, List.map_map]
    refine congrArg _ (List.map_congr_left fun k _ => ?_)
    simp only [Function.comp_apply, RegClass.width, Prod.mk.injEq, true_and]
    omega

/-- One integer slot for each eightbyte fits. -/
lemma slotsFit_replicate (needed : ℕ → Prop) : SlotsFit n needed (List.replicate n .integer) := by
  have hslots : registerSlots (List.replicate n .integer) =
      (List.range n).map fun k => (.integer, 0 + 8 * k) := by
    rw [registerSlots, scanSlots_replicate, List.filter_eq_self]
    intro slot hslot
    obtain ⟨k, _, rfl⟩ := List.mem_map.mp hslot
    rfl
  constructor
  · intro slot hslot
    rw [hslots] at hslot
    obtain ⟨k, hk, rfl⟩ := List.mem_map.mp hslot
    exact ⟨k, List.mem_range.mp hk, Nat.zero_add _⟩
  · intro k hk _
    rw [hslots]
    exact ⟨_, List.mem_map_of_mem (List.mem_range.mpr hk), by dsimp only; omega,
      by dsimp only [RegClass.width]; omega⟩

lemma carriesOnce_nil : CarriesOnce 0 fields (slotBytes 0 []) :=
  .of_covers List.Pairwise.nil (fun _ h => absurd h (List.not_mem_nil)) fun _ _ _ _ _ hb =>
    absurd hb (Nat.not_lt_zero _)

/-! ## System V -/

/-- The leaf overlaps the eightbyte from `lo` on. -/
def FlatField.overlaps (f : FlatField) (lo : ℕ) : Bool :=
  !decide (lo + 8 ≤ f.offset ∨ f.offset + f.size ≤ lo)

/-- The classes that leaves give to the eightbyte from `lo` on. -/
def givenAt (fields : List FlatField) (lo : ℕ) : List Eightbyte :=
  (fields.filter fun f => f.overlaps lo).map fun f => f.eightbyte (decide (f.offset < lo))

lemma givenAt_append (left right : List FlatField) (lo : ℕ) :
    givenAt (left ++ right) lo = givenAt left lo ++ givenAt right lo := by
  rw [givenAt, List.filter_append, List.map_append]
  rfl

lemma givenAt_cons {f : FlatField} {lo : ℕ} (h : f.overlaps lo = true) :
    givenAt (f :: fields) lo = f.eightbyte (decide (f.offset < lo)) :: givenAt fields lo := by
  rw [givenAt, List.filter_cons, if_pos h, List.map_cons]
  rfl

lemma mem_givenAt_iff {fields' : List FlatField} (hperm : fields'.Perm fields) (lo : ℕ) (c : Eightbyte) :
    c ∈ givenAt fields' lo ↔ c ∈ givenAt fields lo :=
  ((hperm.filter _).map _).mem_iff

/-- An eightbyte merges the classes it is given. -/
lemma eightbyteAt_eq (lo : ℕ) :
    eightbyteAt fields lo = (givenAt fields lo).foldl Eightbyte.merge .noClass := by
  have hfold : ∀ eb, fields.foldl
      (fun eb f => if lo + 8 ≤ f.offset ∨ f.offset + f.size ≤ lo then eb
        else eb.merge (f.eightbyte (decide (f.offset < lo)))) eb =
      (givenAt fields lo).foldl Eightbyte.merge eb := by
    unfold givenAt
    induction fields with
    | nil => exact fun _ => rfl
    | cons f fields ih =>
      intro eb
      rw [List.foldl_cons, ih]
      by_cases hout : lo + 8 ≤ f.offset ∨ f.offset + f.size ≤ lo
      · rw [if_pos hout, List.filter_cons_of_neg (by simp [FlatField.overlaps, hout])]
      · rw [if_neg hout, List.filter_cons_of_pos (by simp [FlatField.overlaps, hout])]
        rfl
  exact hfold .noClass

/-- The classes that leaves give. -/
def leafClasses : List Eightbyte := [.integer, .sse, .sseUp, .x87, .x87Up]

lemma FlatField.eightbyte_mem (f : FlatField) (high : Bool) :
    f.eightbyte high ∈ leafClasses := by
  unfold FlatField.eightbyte
  cases f.kind <;> cases high <;> decide

lemma givenAt_subset {lo : ℕ} {c : Eightbyte} (h : c ∈ givenAt fields lo) :
    c ∈ leafClasses := by
  obtain ⟨f, _, rfl⟩ := List.mem_map.mp h
  exact f.eightbyte_mem _

lemma eightbyte_mem_givenAt {f : FlatField} (hf : f ∈ fields) {lo : ℕ} (hhi : f.offset < lo + 8)
    (hlo : lo < f.offset + f.size) :
    f.eightbyte (decide (f.offset < lo)) ∈ givenAt fields lo := by
  refine List.mem_map_of_mem (List.mem_filter.mpr ⟨hf, ?_⟩)
  rw [FlatField.overlaps, decide_eq_false (by omega)]
  rfl

/-- An eightbyte with a class keeps one. -/
lemma foldl_merge_ne_noClass {l : List Eightbyte} (hl : ∀ c ∈ l, c ≠ .noClass) {eb : Eightbyte}
    (h : eb ≠ .noClass ∨ l ≠ []) : l.foldl Eightbyte.merge eb ≠ .noClass := by
  have hmerge : ∀ a b : Eightbyte, b ≠ .noClass → a.merge b ≠ .noClass := by
    intro a b
    cases a <;> cases b <;> decide
  induction l generalizing eb with
  | nil => exact h.resolve_right (· rfl)
  | cons c l ih =>
    exact ih (fun d hd => hl d (.tail _ hd))
      (.inl (hmerge eb c (hl c (.head _))))

/-- An eightbyte that is given INTEGER is INTEGER, unless it goes to memory. -/
lemma foldl_merge_integer {l : List Eightbyte} {eb : Eightbyte}
    (h : eb = .integer ∨ eb = .memory ∨ .integer ∈ l) :
    l.foldl Eightbyte.merge eb = .integer ∨ l.foldl Eightbyte.merge eb = .memory := by
  have hkeeps : ∀ a b : Eightbyte, a = .integer ∨ a = .memory →
      a.merge b = .integer ∨ a.merge b = .memory := by
    intro a b
    cases a <;> cases b <;> decide
  have hgiven : ∀ a : Eightbyte, a.merge .integer = .integer ∨ a.merge .integer = .memory := by
    intro a
    cases a <;> decide
  induction l generalizing eb with
  | nil => exact h.imp_right (Or.resolve_right · List.not_mem_nil)
  | cons c l ih =>
    refine ih ?_
    rcases h with h | h | h
    · exact (hkeeps eb c (.inl h)).imp_right .inl
    · exact (hkeeps eb c (.inr h)).imp_right .inl
    · rcases List.mem_cons.mp h with rfl | h
      · exact (hgiven eb).imp_right .inl
      · exact .inr (.inr h)

/-- The eightbytes of an aggregate. -/
def eightbytesOf (size : ℕ) (fields : List FlatField) : List Eightbyte :=
  (List.range ((size + 7) / 8)).map fun k => eightbyteAt fields (8 * k)

/-- The register slots that eightbytes leave. -/
def slotsOf (eightbytes : List Eightbyte) : List RegClass :=
  (slots eightbytes).rdropWhile fun c => c == .noClass

/-- An aggregate that System V passes in registers has at most two eightbytes, none of them sent to
memory. -/
lemma classifySysv_regs {isReturn : Bool} (h : classifySysv size fields isReturn = .regs classes) :
    (size = 0 ∧ classes = []) ∨ (0 < size ∧ size ≤ 16 ∧ .memory ∉ eightbytesOf size fields ∧
      strayX87 (eightbytesOf size fields) = false ∧ classes = slotsOf (eightbytesOf size fields)) := by
  unfold classifySysv at h
  dsimp only at h
  split at h
  · rename_i hsize
    exact .inl ⟨hsize, (AggClass.regs.inj h).symm⟩
  · rename_i hsize
    split at h
    · cases isReturn <;> simp at h
    · rename_i hin
      split at h
      · cases isReturn <;> simp at h
      · rename_i hclean
        refine .inr ⟨Nat.pos_of_ne_zero hsize, by omega, fun hm => hclean (.inl hm), ?_,
          (AggClass.regs.inj h).symm⟩
        exact Bool.eq_false_iff.mpr fun hs => hclean (.inr (.inl hs))

/-- The slots of eightbytes fit those that have a class, and an INTEGER eightbyte has its own slot. -/
def FitEightbytes (eightbytes : List Eightbyte) : Prop :=
  (∀ slot ∈ registerSlots (slotsOf eightbytes), ∃ k < eightbytes.length, slot.2 = 8 * k) ∧
  (∀ k < eightbytes.length, eightbytes[k]? ≠ some .noClass →
    ∃ slot ∈ registerSlots (slotsOf eightbytes), slot.2 ≤ 8 * k ∧ 8 * k + 8 ≤ slot.2 + slot.1.width) ∧
  ∀ k < eightbytes.length, eightbytes[k]? = some .integer →
    (.integer, 8 * k) ∈ registerSlots (slotsOf eightbytes)

instance (eightbytes : List Eightbyte) : Decidable (FitEightbytes eightbytes) :=
  inferInstanceAs (Decidable (_ ∧ _ ∧ _))

/-- The slots of one or two eightbytes fit them, where none goes to memory and no x87 class is without
its other half. -/
lemma fitEightbytes {eightbytes : List Eightbyte}
    (hlen : eightbytes.length = 1 ∨ eightbytes.length = 2) (hmemory : .memory ∉ eightbytes)
    (hstray : strayX87 eightbytes = false) : FitEightbytes eightbytes := by
  rcases hlen with hlen | hlen
  · obtain ⟨a, rfl⟩ := List.length_eq_one_iff.mp hlen
    revert hmemory hstray
    cases a <;> decide
  · obtain ⟨a, b, rfl⟩ := List.length_eq_two.mp hlen
    revert hmemory hstray
    cases a <;> cases b <;> decide

/-- A leaf that overlaps an eightbyte of the aggregate leaves it a class. -/
lemma getElem?_eightbytesOf_ne {f : FlatField} (hf : f ∈ fields) (hk : k < (size + 7) / 8)
    (hhi : f.offset < 8 * k + 8) (hlo : 8 * k < f.offset + f.size) :
    (eightbytesOf size fields)[k]? ≠ some .noClass := by
  have hmem := eightbyte_mem_givenAt hf hhi hlo
  have hne : eightbyteAt fields (8 * k) ≠ .noClass := by
    rw [eightbyteAt_eq]
    refine foldl_merge_ne_noClass (fun c hc h => ?_) (.inr (List.ne_nil_of_mem hmem))
    exact absurd (givenAt_subset (h ▸ hc)) (by decide)
  rw [eightbytesOf, List.getElem?_map, List.getElem?_range hk, Option.map_some]
  exact fun h => hne (Option.some.inj h)

/-- System V: the slots carry the aggregate. -/
lemma carriesOnce_sysv {isReturn : Bool} (h : classifySysv size fields isReturn = .regs classes) :
    CarriesOnce size fields (slotBytes size classes) := by
  rcases classifySysv_regs h with ⟨rfl, rfl⟩ | ⟨hpos, hsize, hmemory, hstray, rfl⟩
  · exact carriesOnce_nil
  · have hlen : (eightbytesOf size fields).length = (size + 7) / 8 := by
      rw [eightbytesOf, List.length_map, List.length_range]
    have hfit := fitEightbytes (by omega) hmemory hstray
    rw [FitEightbytes, hlen] at hfit
    exact SlotsFit.carriesOnce ⟨hfit.1, hfit.2.1⟩ fun k hk f hf hhi hlo =>
      getElem?_eightbytesOf_ne hf hk hhi hlo

/-- System V: an eightbyte that holds a byte of an integer leaf has an INTEGER slot. -/
lemma integer_mem_sysv {isReturn : Bool} (h : classifySysv size fields isReturn = .regs classes)
    {f : FlatField} (hf : f ∈ fields) (hint : f.kind = .int) (hlo : f.offset ≤ b)
    (hhi : b < f.offset + f.size) (hb : b < size) :
    (.integer, 8 * (b / 8)) ∈ registerSlots classes := by
  rcases classifySysv_regs h with ⟨rfl, rfl⟩ | ⟨hpos, hsize, hmemory, hstray, rfl⟩
  · omega
  · have hlen : (eightbytesOf size fields).length = (size + 7) / 8 := by
      rw [eightbytesOf, List.length_map, List.length_range]
    have hfit := fitEightbytes (by omega) hmemory hstray
    refine hfit.2.2 (b / 8) (by omega) ?_
    have hget : (eightbytesOf size fields)[b / 8]? = some (eightbyteAt fields (8 * (b / 8))) := by
      rw [eightbytesOf, List.getElem?_map, List.getElem?_range (by omega), Option.map_some]
    have hgiven : .integer ∈ givenAt fields (8 * (b / 8)) := by
      have := @eightbyte_mem_givenAt _ f hf (8 * (b / 8)) (by omega) (by omega)
      rwa [FlatField.eightbyte, hint] at this
    rw [hget, eightbyteAt_eq]
    rcases foldl_merge_integer (.inr (.inr hgiven)) with hi | hm
    · exact congrArg some hi
    · rw [eightbyteAt_eq, hm] at hget
      exact absurd (List.mem_of_getElem? hget) hmemory

/-! ## The registers of each convention -/

lemma carriesOnce_single (hsize : size ≤ 8) :
    CarriesOnce size fields (slotBytes size [.sse]) := by
  have hbytes : slotBytes size [.sse] = [(0, size)] := by
    change [(0, min (size - 0) 8)] = _
    rw [Nat.sub_zero, Nat.min_eq_left hsize]
  exact hbytes ▸ carriesOnce_whole

lemma carriesOnce_integers :
    CarriesOnce size fields (slotBytes size (List.replicate ((size + 7) / 8) .integer)) :=
  (slotsFit_replicate fun _ => True).carriesOnce fun _ _ _ _ _ _ => trivial

/-- Win64: the slot carries the aggregate. -/
lemma carriesOnce_win64 {isReturn : Bool} (h : classifyWin64 size isReturn = .regs classes) :
    CarriesOnce size fields (slotBytes size classes) := by
  unfold classifyWin64 at h
  split at h
  · rename_i hsize
    have hone : List.replicate ((size + 7) / 8) RegClass.integer = [.integer] := by
      rw [show (size + 7) / 8 = 1 by omega]
      rfl
    rw [← AggClass.regs.inj h, ← hone]
    exact carriesOnce_integers
  · cases isReturn <;> simp at h

variable {desc : AggDesc} {isReturn : Bool}

lemma soleVectorWidth_eq {width : ℕ} (h : soleVectorWidth size fields = some width) : width = size := by
  unfold soleVectorWidth at h
  split at h
  · split at h
    · exact (Option.some.inj h).symm
    · cases h
  · cases h

/-- AAPCS64: the slots carry an aggregate that is not homogeneous and fills no vector register. -/
lemma carriesOnce_aapcs64 (h : classifyAapcs64 desc isReturn = .regs classes)
    (hhom : desc.homogeneous = none) (hvector : .vector ∉ classes) :
    CarriesOnce desc.size desc.fields (slotBytes desc.size classes) := by
  unfold classifyAapcs64 at h
  rw [hhom] at h
  dsimp only at h
  split at h
  · rename_i hsize
    rw [← AggClass.regs.inj h, hsize]
    exact carriesOnce_nil
  · rename_i hsize
    split at h
    · rename_i c hsole
      obtain ⟨width, hwidth, hclass⟩ := Option.bind_eq_some_iff.mp hsole
      rw [soleVectorWidth_eq hwidth, vectorRegClass] at hclass
      rw [← AggClass.regs.inj h] at hvector ⊢
      split at hclass
      · rw [← Option.some.inj hclass] at hvector
        exact absurd (List.mem_singleton_self _) hvector
      · split at hclass
        · rw [← Option.some.inj hclass]
          exact carriesOnce_single (by omega)
        · cases hclass
    · split at h
      · rename_i hnarrow
        have hlt : desc.size < 8 := by
          simp only [isNarrowVector, Bool.and_eq_true, decide_eq_true_eq] at hnarrow
          exact hnarrow.2.2
        rw [← AggClass.regs.inj h]
        exact carriesOnce_single (by omega)
      · split at h
        · rw [← AggClass.regs.inj h]
          exact carriesOnce_integers
        · cases isReturn <;> simp at h

/-- AAPCS64: an aggregate without SIMD slots is not homogeneous and fills no vector register. -/
lemma aapcs64_of_fpMemberLayout_eq_none (h : classifyAapcs64 desc isReturn = .regs classes)
    (hlayout : fpMemberLayout desc isReturn = none) : desc.homogeneous = none ∧ .vector ∉ classes := by
  unfold fpMemberLayout at hlayout
  split at hlayout
  · cases hlayout
  · rename_i hhom
    refine ⟨hhom, fun hmem => ?_⟩
    split at hlayout
    · cases hlayout
    · rename_i hnarrow
      have hsole : (soleVectorWidth desc.size desc.fields).bind vectorRegClass = none := by
        rcases hs : soleVectorWidth desc.size desc.fields with _ | width
        · rfl
        · rcases hc : vectorRegClass width with _ | c
          · exact hc
          · rw [hs] at hlayout
            change (vectorRegClass width).bind (fun _ => some [(0, width)]) = none at hlayout
            rw [hc] at hlayout
            cases hlayout
      unfold classifyAapcs64 at h
      rw [hhom, hsole] at h
      dsimp only at h
      rw [if_neg hnarrow] at h
      split at h
      · rw [← AggClass.regs.inj h] at hmem
        exact absurd hmem List.not_mem_nil
      · split at h
        · rw [← AggClass.regs.inj h] at hmem
          exact absurd (List.eq_of_mem_replicate hmem) (by decide)
        · cases isReturn <;> simp at h

/-- The SIMD slots carry the aggregate, where a homogeneous one consists of its elements. -/
lemma carriesOnce_fpMemberLayout {members : List (ℕ × ℕ)}
    (hsize : ∀ hfa, desc.homogeneous = some hfa → desc.size = hfa.count * hfa.width)
    (h : fpMemberLayout desc isReturn = some members) :
    CarriesOnce desc.size desc.fields members := by
  unfold fpMemberLayout at h
  split at h
  · rename_i hfa hhom
    rw [← Option.some.inj h, hsize hfa hhom]
    exact hfa.carriesOnce_members
  · split at h
    · rw [← Option.some.inj h]
      exact carriesOnce_whole
    · obtain ⟨width, hwidth, h⟩ := Option.bind_eq_some_iff.mp h
      obtain ⟨_, _, h⟩ := Option.bind_eq_some_iff.mp h
      rw [← Option.some.inj h, soleVectorWidth_eq hwidth]
      exact carriesOnce_whole

/-- The bytes of a part. -/
def RegPart.bytes (part : RegPart) : ℕ × ℕ := (part.offset, part.width)

/-- The parts are the elements of a homogeneous aggregate off x86-64, and otherwise the slots. -/
lemma bytes_registerParts {abi : AbiRow} {parts : List RegPart}
    (h : registerParts desc abi isReturn = some parts)
    (hclass : classifyAggregate desc abi isReturn = .regs classes) :
    .vector ∉ classes ∧
      ((∃ hfa, desc.homogeneous = some hfa ∧ parts.map RegPart.bytes = hfa.members) ∨
        ((abi.arch = .x86_64 ∨ desc.homogeneous = none) ∧
          parts.map RegPart.bytes = slotBytes desc.size classes)) := by
  unfold registerParts at h
  rw [hclass] at h
  dsimp only at h
  split at h
  · cases h
  · rename_i hnone
    have hvector : .vector ∉ classes := fun hm => hnone (.inr (.inl hm))
    have hslots : (registerSlots classes).map (fun s => (s.2, min (desc.size - s.2) 8)) =
        slotBytes desc.size classes := by
      refine List.map_congr_left fun ⟨c, off⟩ hslot => ?_
      have hmem : c ∈ classes := mem_of_mem_registerSlots hslot
      have hwidth : c.width = 8 := by
        cases c with
        | vector => exact absurd hmem hvector
        | x87 => exact absurd (.inr (.inr hmem)) hnone
        | integer => rfl
        | sse => rfl
        | noClass => rfl
      dsimp only
      rw [hwidth]
    refine ⟨hvector, ?_⟩
    rw [← Option.some.inj h]
    cases hhom : desc.homogeneous with
    | none =>
      refine .inr ⟨.inr rfl, ?_⟩
      rw [List.map_map, List.map_map, ← hslots]
      rfl
    | some hfa =>
      by_cases harch : abi.arch = .x86_64
      · refine .inr ⟨.inl harch, ?_⟩
        dsimp only
        rw [if_neg (by simp [harch]), List.map_map, List.map_map, ← hslots]
        rfl
      · refine .inl ⟨hfa, rfl, ?_⟩
        dsimp only
        rw [if_pos harch, List.map_map, List.map_map]
        exact List.map_id _

end Badc.Abi
