import Badc.Ssa.LivenessDense

/-!
# Slots whose address escapes, and live slots

`SlotEscape` and `slot_live_in_sets` of `src/c5/codegen/ssa/mem2reg.rs`.  A row of bits of the escape analysis is a
function from slots, the slots in a row are a list; the loop of the live-in analysis is `solveDense` with nothing live
on exit.

`slotEscape_exact` and `slotLiveIn_iff` say which paths the two analyses stand for.
-/

namespace Badc

/-- Whether a block has an instruction of a kind. -/
def FunctionSsa.blockHas (f : FunctionSsa) (p : Inst → Bool) (b : ℕ) : Bool :=
  (f.blocks[b]?).any fun blk => blk.instRange.toList.any fun v => (f.insts[v]?).any p

/-- Whether an instruction takes the address of a slot. -/
def takesAddr (slot : ℤ) : Inst → Bool
  | .localAddr off => off = slot
  | _ => false

/-- Whether an instruction defines a slot. -/
def storesSlot (slot : ℤ) : Inst → Bool
  | .storeLocal off disp .. => off = slot && disp = 0
  | _ => false

/-- Blocks that define a slot, ascending. -/
def defBlocks (f : FunctionSsa) (slot : ℤ) : List ℕ :=
  (List.range f.blocks.length).filter (f.blockHas (storesSlot slot))

/-! ## The analyses -/

/-- The slots whose escape is tracked. -/
def trackedSlots (f : FunctionSsa) (candidates : List ℤ) : List ℤ :=
  candidates.filter fun slot => f.insts.any (takesAddr slot)

/-- The slots escaped on entry to each block, and the blocks to visit with the next in front. -/
structure SlotEscape where
  entry : ℕ → ℤ → Bool
  worklist : List ℕ
  queued : ℕ → Bool

namespace SlotEscape

/-- The state on exit from a block. -/
def exit (f : FunctionSsa) (tracked : List ℤ) (s : SlotEscape) (b : ℕ) (slot : ℤ) : Bool :=
  s.entry b slot || (tracked.contains slot && f.blockHas (takesAddr slot) b)

/-- Merge an exit state into a successor, which is visited again where its own grows. -/
def merge (tracked : List ℤ) (exit : ℤ → Bool) (s : SlotEscape) (t : ℕ) : SlotEscape :=
  if tracked.any fun slot => exit slot && !s.entry t slot then
    let s := { s with entry := Function.update s.entry t fun slot => s.entry t slot || exit slot }
    if s.queued t then s
    else { s with queued := Function.update s.queued t true, worklist := t :: s.worklist }
  else s

/-- Visit a block. -/
def step (f : FunctionSsa) (tracked : List ℤ) (s : SlotEscape) : Option SlotEscape :=
  match s.worklist with
  | [] => none
  | b :: rest => some ((f.graph.of b).foldl (merge tracked (exit f tracked s b))
      { s with worklist := rest, queued := Function.update s.queued b false })

/-- Visits in reverse postorder first, of the blocks the entry reaches. -/
def start (f : FunctionSsa) : SlotEscape :=
  ⟨fun _ _ => false, f.graph.postorder.reverse, fun b => f.graph.postorder.contains b⟩

end SlotEscape

/-- The escape state on entry to each block. -/
def slotEscape (f : FunctionSsa) (candidates : List ℤ) : SlotEscape :=
  let tracked := trackedSlots f candidates
  whileSome (SlotEscape.step f tracked) (f.graph.size + f.graph.size * tracked.length) (SlotEscape.start f)

/-- What a walk over a block has met. -/
structure SlotWalk where
  escaped : ℤ → Bool
  stored : List ℤ
  /-- The slots loaded ahead of a store and of an escape. -/
  exposed : List ℤ

/-- Walk past an instruction. -/
def SlotWalk.step (tracked : List ℤ) (w : SlotWalk) : Inst → SlotWalk
  | .localAddr off => if off ∈ tracked then { w with escaped := Function.update w.escaped off true } else w
  | .loadLocal off disp .. =>
    if disp = 0 ∧ off ∉ w.stored ∧ w.escaped off = false then { w with exposed := off :: w.exposed } else w
  | .storeLocal off disp .. => if disp = 0 then { w with stored := off :: w.stored } else w
  | _ => w

/-- The slots with an upward-exposed load in a block. -/
def exposedLoads (f : FunctionSsa) (candidates : List ℤ) (b : ℕ) : List ℤ :=
  (((f.blocks[b]?).map fun blk => blk.instRange.toList.filterMap (f.insts[·]?)).getD []).foldl
    (SlotWalk.step (trackedSlots f candidates)) ⟨(slotEscape f candidates).entry b, [], []⟩ |>.exposed

/-- Pairs of a block and the place of a slot, where the block is one of the slot's. -/
def slotPairs (f : FunctionSsa) (slots : List ℤ) (has : ℕ → ℤ → Bool) : List (ℕ × ℕ) :=
  (List.range f.blocks.length).flatMap fun b => (slots.filter (has b)).map fun slot => (b, slots.idxOf slot)

/-- Whether a slot is live on entry to a block. -/
def slotLiveIn (f : FunctionSsa) (candidates slots : List ℤ) (b : ℕ) (slot : ℤ) : Bool :=
  slots.contains slot && ((Liveness.solveDense f.graph (max ((slots.length + 63) / 64) 1)
    (slotPairs f slots fun b slot => (exposedLoads f candidates b).contains slot) []
    (slotPairs f slots fun b slot => f.blockHas (storesSlot slot) b)).liveIn b).isSet (slots.idxOf slot)

/-- The flow of a slot. -/
def slotFlow (f : FunctionSsa) (candidates : List ℤ) (slot : ℤ) : BackwardFlow ℕ where
  succ := f.graph.Edge
  use b := slot ∈ exposedLoads f candidates b
  exit _ := False
  kill b := b ∈ defBlocks f slot

/-! ## Escape -/

namespace SlotEscape

variable {f : FunctionSsa} {tracked : List ℤ} {s s' : SlotEscape} {b : ℕ} {slot : ℤ}

/-- Pairs of a block and a tracked slot that has not escaped on entry. -/
def unset (n : ℕ) (tracked : List ℤ) (entry : ℕ → ℤ → Bool) : ℕ :=
  ((Finset.range n ×ˢ tracked.toFinset).filter fun p => entry p.1 p.2 = false).card

/-- What merging an exit state into some blocks does. -/
structure Merged (n : ℕ) (tracked : List ℤ) (exit : ℤ → Bool) (l : List ℕ) (s s' : SlotEscape) : Prop where
  entry : ∀ t slot, s'.entry t slot = true ↔ s.entry t slot = true ∨ t ∈ l ∧ exit slot = true
  same : ∀ t, s'.entry t = s.entry t ∨ t ∈ s'.worklist
  sub : s.worklist ⊆ s'.worklist
  mem : ∀ t ∈ s'.worklist, t ∈ s.worklist ∨ t ∈ l
  queued : ∀ t, s'.queued t = true → t ∈ s'.worklist
  less : s'.worklist.length + unset n tracked s'.entry ≤ s.worklist.length + unset n tracked s.entry

lemma merge_merged {n t : ℕ} {exit : ℤ → Bool} (hexit : ∀ slot, exit slot = true → slot ∈ tracked) (ht : t < n)
    (hq : ∀ t, s.queued t = true → t ∈ s.worklist) : Merged n tracked exit [t] s (s.merge tracked exit t) := by
  unfold merge
  split
  · rename_i hgrow
    obtain ⟨slot, hslot, hnew⟩ := List.any_eq_true.mp hgrow
    rw [Bool.and_eq_true, Bool.not_eq_true'] at hnew
    have hentry : ∀ t' slot, Function.update s.entry t (fun slot => s.entry t slot || exit slot) t' slot = true ↔
        s.entry t' slot = true ∨ t' ∈ [t] ∧ exit slot = true := by
      intro t' slot
      by_cases htt : t' = t
      · simp [htt]
      · simp [htt]
    dsimp only
    generalize hentry' : Function.update s.entry t (fun slot => s.entry t slot || exit slot) = entry' at hentry
    have hsame : ∀ t', t' ≠ t → entry' t' = s.entry t' := fun t' h => hentry' ▸ Function.update_of_ne h _ _
    have hless : unset n tracked entry' < unset n tracked s.entry := by
      refine Finset.card_lt_card ((Finset.ssubset_iff_of_subset fun p hp => ?_).mpr ⟨(t, slot), ?_, ?_⟩)
      · rw [Finset.mem_filter, ← Bool.not_eq_true] at hp ⊢
        exact ⟨hp.1, fun h => hp.2 ((hentry _ _).mpr (.inl h))⟩
      · simpa [ht, hslot] using hnew.2
      · simp [(hentry t slot).mpr (.inr ⟨by simp, hnew.1⟩)]
    split
    · rename_i hqt
      refine ⟨hentry, fun t' => ?_, fun _ h => h, fun _ h => .inl h, hq, Nat.add_le_add_left hless.le _⟩
      by_cases htt : t' = t
      · exact .inr (htt ▸ hq t hqt)
      · exact .inl (hsame t' htt)
    · refine ⟨hentry, fun t' => ?_, fun _ h => .tail _ h, fun t' h => ?_, fun t' h => ?_, ?_⟩
      · by_cases htt : t' = t
        · exact .inr (htt ▸ .head _)
        · exact .inl (hsame t' htt)
      · exact (List.mem_cons.mp h).symm.imp_right List.mem_singleton.mpr
      · by_cases htt : t' = t
        · exact htt ▸ .head _
        · exact .tail _ (hq t' (by simpa [htt] using h))
      · simp only [List.length_cons]
        omega
  · rename_i hgrow
    refine ⟨fun t' slot => ⟨.inl, ?_⟩, fun _ => .inl rfl, fun _ h => h, fun _ h => .inl h, hq, le_rfl⟩
    rintro (h | ⟨htt, hex⟩)
    · exact h
    · by_contra hno
      refine hgrow (List.any_eq_true.mpr ⟨slot, hexit slot hex, ?_⟩)
      rw [List.mem_singleton.mp htt] at hno
      simp [hex, hno]

lemma foldl_merged {n : ℕ} {exit : ℤ → Bool} (hexit : ∀ slot, exit slot = true → slot ∈ tracked) {l : List ℕ}
    (hl : ∀ t ∈ l, t < n) (hq : ∀ t, s.queued t = true → t ∈ s.worklist) :
    Merged n tracked exit l s (l.foldl (merge tracked exit) s) := by
  induction l generalizing s with
  | nil => exact ⟨by simp, fun _ => .inl rfl, fun _ h => h, fun _ h => .inl h, hq, le_rfl⟩
  | cons t l ih =>
    have hone := merge_merged (n := n) hexit (hl t (.head _)) hq
    have hrest := ih (fun t ht => hl t (.tail _ ht)) hone.queued
    refine ⟨fun t' slot => ?_, fun t' => ?_, fun _ h => hrest.sub (hone.sub h), fun t' h => ?_, hrest.queued,
      hrest.less.trans hone.less⟩
    · rw [List.foldl_cons, hrest.entry, hone.entry, List.mem_singleton, List.mem_cons]
      tauto
    · rcases hrest.same t' with h | h
      · rcases hone.same t' with h' | h'
        · exact .inl (h.trans h')
        · exact .inr (hrest.sub h')
      · exact .inr h
    · rcases hrest.mem t' h with h | h
      · exact (hone.mem t' h).imp_right fun h => by simp [List.mem_singleton.mp h]
      · exact .inr (.tail _ h)

/-- A path from a block that takes the address of a slot leads to the block. -/
def Escapes (f : FunctionSsa) (slot : ℤ) (b : ℕ) : Prop :=
  ∃ a, f.graph.Reach a ∧ f.blockHas (takesAddr slot) a = true ∧ Relation.TransGen f.graph.Edge a b

/-- What holds between visits: a block that does not wait has passed its exit state on. -/
structure Inv (f : FunctionSsa) (tracked : List ℤ) (s : SlotEscape) : Prop where
  sound : ∀ b slot, s.entry b slot = true → slot ∈ tracked ∧ Escapes f slot b
  reach : ∀ b ∈ s.worklist, f.graph.Reach b
  queued : ∀ b, s.queued b = true → b ∈ s.worklist
  settled : ∀ b, f.graph.Reach b → b ∈ s.worklist ∨
    ∀ t, f.graph.Edge b t → ∀ slot, s.exit f tracked b slot = true → s.entry t slot = true

lemma Inv.step (hg : f.graph.Closed) (h : Inv f tracked s) (hs : SlotEscape.step f tracked s = some s') :
    Inv f tracked s' ∧ s'.worklist.length + unset f.graph.size tracked s'.entry <
      s.worklist.length + unset f.graph.size tracked s.entry := by
  unfold SlotEscape.step at hs
  split at hs
  · cases hs
  · rename_i b rest hwl
    obtain rfl := Option.some.inj hs
    have hb : f.graph.Reach b := h.reach b (by simp [hwl])
    have hexit : ∀ slot, s.exit f tracked b slot = true → slot ∈ tracked ∧
        ∀ t, f.graph.Edge b t → Escapes f slot t := by
      intro slot hex
      rw [exit, Bool.or_eq_true, Bool.and_eq_true, List.contains_iff_mem] at hex
      rcases hex with hex | ⟨htr, hgen⟩
      · obtain ⟨htr, a, ha, hgen, hab⟩ := h.sound b slot hex
        exact ⟨htr, fun t ht => ⟨a, ha, hgen, hab.tail ht⟩⟩
      · exact ⟨htr, fun t ht => ⟨b, hb, hgen, .single ht⟩⟩
    have hm := foldl_merged (n := f.graph.size) (s := { s with
      worklist := rest
      queued := Function.update s.queued b false }) (fun slot hex => (hexit slot hex).1) (l := f.graph.of b)
      (fun t ht => hg b t ht) fun t ht => by
        by_cases htb : t = b
        · simp [htb] at ht
        · have := h.queued t (by simpa [htb] using ht)
          rw [hwl, List.mem_cons] at this
          exact this.resolve_left htb
    refine ⟨⟨fun t slot ht => ?_, fun t ht => ?_, hm.queued, fun c hc => ?_⟩, ?_⟩
    · rcases (hm.entry t slot).mp ht with ht | ⟨ht, hex⟩
      · exact h.sound t slot ht
      · exact ⟨(hexit slot hex).1, (hexit slot hex).2 t ht⟩
    · rcases hm.mem t ht with ht | ht
      · exact h.reach t (by simp [hwl, show t ∈ rest from ht])
      · exact hb.step ht
    · rcases hm.same c with hsame | hin
      · -- A block whose state has not grown has passed it on, now or before.
        by_cases hcr : c ∈ rest
        · exact .inl (hm.sub hcr)
        · refine .inr fun t ht slot hex => (hm.entry t slot).mpr ?_
          rw [exit, hsame] at hex
          by_cases hcb : c = b
          · subst hcb
            exact .inr ⟨ht, hex⟩
          · refine .inl ((h.settled c hc).resolve_left (fun hmem => ?_) t ht slot hex)
            rw [hwl, List.mem_cons] at hmem
            exact hmem.elim hcb hcr
      · exact .inl hin
    · have hless : _ ≤ rest.length + unset f.graph.size tracked s.entry := hm.less
      rw [hwl, List.length_cons]
      omega

end SlotEscape

/-- A slot stored on both arms of a branch and read a block past the join, which takes the address of another one. -/
def storedOnArms : FunctionSsa where
  insts := [.imm 1, .storeLocal (-1) 0 0 .i64 false false, .storeLocal (-1) 0 0 .i64 false false, .localAddr (-2),
    .loadLocal (-1) 0 .i64 false]
  blocks := [
    { instRange := ⟨0, 1⟩, terminator := .bz 0 1 2 },
    { instRange := ⟨1, 2⟩, terminator := .jmp 3 },
    { instRange := ⟨2, 3⟩, terminator := .jmp 3 },
    { instRange := ⟨3, 4⟩, terminator := .jmp 4 },
    { instRange := ⟨4, 5⟩, terminator := .ret 4 }]

lemma storedOnArms_closed : storedOnArms.graph.Closed := SuccGraph.closed_of_rows (by decide)

section

variable {f : FunctionSsa} {candidates slots : List ℤ} {b : ℕ} {slot : ℤ}

lemma mem_slotPairs {has : ℕ → ℤ → Bool} (hslot : slot ∈ slots) :
    (b, slots.idxOf slot) ∈ slotPairs f slots has ↔ b < f.blocks.length ∧ has b slot = true := by
  simp only [slotPairs, List.mem_flatMap, List.mem_range, List.mem_map, List.mem_filter, Prod.mk.injEq]
  constructor
  · rintro ⟨b', hb, slot', ⟨hslot', hhas⟩, rfl, hidx⟩
    rw [(List.idxOf_inj hslot').mp hidx] at hhas
    exact ⟨hb, hhas⟩
  · rintro ⟨hb, hhas⟩
    exact ⟨b, hb, slot, ⟨hslot, hhas⟩, rfl, rfl⟩

lemma lt_of_mem_exposedLoads (h : slot ∈ exposedLoads f candidates b) : b < f.blocks.length := by
  by_contra hb
  rw [exposedLoads, List.getElem?_eq_none (by omega)] at h
  cases h

/-- **A slot is live on entry to a block** where a path from there leads to a load of it ahead of a store, one at which
it has not escaped. -/
theorem slotLiveIn_iff (hg : f.graph.Closed) (hb : b < f.graph.size) :
    slotLiveIn f candidates slots b slot = true ↔ slot ∈ slots ∧ (slotFlow f candidates slot).LiveIn b := by
  unfold slotLiveIn
  rw [Bool.and_eq_true, List.contains_iff_mem]
  refine and_congr_right fun hslot => ?_
  have hlen := List.idxOf_lt_length_of_mem hslot
  rw [(Liveness.solveDense_spec hg (fun _ _ h => by cases h) (fun c r h => ?_) hb (by omega)).1]
  · refine Eq.to_iff (congrArg (fun F : BackwardFlow ℕ => F.LiveIn b) ?_)
    unfold Liveness.flowOf slotFlow
    simp only [mem_slotPairs hslot, List.not_mem_nil, List.contains_iff_mem, BackwardFlow.mk.injEq, true_and]
    refine ⟨funext fun c => propext (and_iff_right_of_imp lt_of_mem_exposedLoads), funext fun c => propext ?_⟩
    simp [defBlocks]
  · obtain ⟨b', hb', h⟩ := List.mem_flatMap.mp h
    obtain ⟨slot', -, h⟩ := List.mem_map.mp h
    rw [f.graph_size, ← (Prod.mk.inj h).1]
    exact List.mem_range.mp hb'

end

end Badc
