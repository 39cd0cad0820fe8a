import Badc.Lib.Listing
import Badc.Passes.StoreForward
import Badc.Ssa.Memory
import Badc.Ssa.Trim

/-!
# Loads of stored constants keep runs

The tables of `fold_const_loads` hold in every state of a run: each location they list holds its
constant (`TablesHold`).  An instruction keeps that (`TablesHold.exec`), and so does the entry to a
block with one predecessor, whose table is what the predecessor's walk left (`TablesHold.enter`).

The pass takes for granted that memory reached through pointers and calls is not a slot without an
address, that a store to a thread's segment leaves plain memory (`PointersStay`), and that the
sums it forms fit a machine integer (`SumsFit`).  `foldConstLoads_correct` is under these; without
the first it fails, where a pointer to one slot reaches the next
(`foldConstLoads_pastSlot`).
-/

namespace Badc

namespace StoreForward

/-! ## What the pass takes for granted -/

/-- Whether an instruction stores to a slot it names. -/
def isStoreLocal : Inst → Bool
  | .storeLocal .. => true
  | _ => false

/-- Whether an instruction stores through a pointer. -/
def isStore : Inst → Bool
  | .store .. => true
  | _ => false

/-- Whether an instruction stores to a thread's segment. -/
def isSegStore : Inst → Bool
  | .segStore .. => true
  | _ => false

/-- In a call, only the stores that name a slot write the slots without an address, and a store to
a thread's segment writes no plain memory. -/
structure PointersStay (m : Machine) (f : FunctionSsa) (w : World m.Ext) : Prop where
  slots : ∀ s inst r off, m.Reaches f w s → InBlock f s.pc s.block → f.insts[s.pc]? = some inst →
    isStoreLocal inst = false → m.exec f s.pc s.regs s.world inst = some r →
    forwardableSlots f off = true →
    ∀ a : Word, (a - m.slot off 0).toNat < 8 → r.2.mem a = s.world.mem a
  segments : ∀ s inst r, m.Reaches f w s → InBlock f s.pc s.block → f.insts[s.pc]? = some inst →
    isSegStore inst = true → m.exec f s.pc s.regs s.world inst = some r → r.2.mem = s.world.mem

/-- The sums the pass forms fit a machine integer. -/
structure SumsFit (f : FunctionSsa) : Prop where
  store : ∀ (v : ℕ) addr disp value kind vol align pcRel,
    f.insts[v]? = some (.store addr disp value kind vol align pcRel) →
    -2 ^ 63 ≤ (baseDisp f addr disp).2 ∧ (baseDisp f addr disp).2 + storeWidth kind < 2 ^ 63
  storeLocal : ∀ (v : ℕ) off disp value kind vol nsw,
    f.insts[v]? = some (.storeLocal off disp value kind vol nsw) →
    -2 ^ 63 ≤ 8 * off + disp ∧ 8 * off + disp + storeWidth kind < 2 ^ 63

/-! ## Locations -/

section

variable {f : FunctionSsa} {m : Machine} {w : World m.Ext} {s : State m.Ext}

lemma constForLoad_spec {bits c : Word} {kind : LoadKind} (h : constForLoad bits kind = some c) :
    kind.isFloating = false ∧ kind ≠ .v128 ∧ loadWidth kind = Badc.loadWidth kind ∧
      c = extendLoad bits kind := by
  cases kind <;> simp_all [constForLoad, LoadKind.isFloating, loadWidth, Badc.loadWidth, extendLoad]

lemma isIntStore_spec {kind : StoreKind} (h : isIntStore kind = true) :
    storeWidth kind = Badc.storeWidth kind ∧ storeWidth kind ≤ 8 := by
  cases kind <;> first | exact ⟨rfl, by decide⟩ | cases h

lemma storeWidth_le (kind : StoreKind) : Badc.storeWidth kind ≤ storeWidth kind := by
  cases kind <;> decide

/-- A stored constant is the immediate at the value, and the store one of an integer. -/
lemma storedConst_eq_some {value : ℕ} {kind : StoreKind} {vol : Bool} {bits : Word}
    (h : storedConst f value kind vol = some bits) :
    isIntStore kind = true ∧ f.insts[value]? = some (.imm bits) := by
  unfold storedConst at h
  split at h
  · cases h
  · rename_i hcond
    simp only [Bool.or_eq_true, not_or, Bool.not_eq_true, Bool.not_eq_false'] at hcond
    split at h
    · rename_i k hk
      exact ⟨hcond.2, (Option.some.inj h) ▸ hk⟩
    · cases h

/-- The parts of an addition of a constant. -/
lemma addend_eq_some {v lhs : ℕ} {k : Word} (h : addend f v = some (lhs, k)) :
    f.insts[v]? = some (.binopI .add lhs k) ∨
      (∃ rhs, f.insts[v]? = some (.binop .add lhs rhs) ∧ f.insts[rhs]? = some (.imm k)) ∨
      ∃ rhs, f.insts[v]? = some (.binop .add rhs lhs) ∧ f.insts[rhs]? = some (.imm k) := by
  unfold addend at h
  split at h
  · rename_i lhs' k' hv
    obtain ⟨rfl, rfl⟩ := Prod.mk.inj (Option.some.inj h)
    exact Or.inl hv
  · rename_i lhs' rhs' hv
    split at h
    · rename_i k' hk
      obtain ⟨rfl, rfl⟩ := Prod.mk.inj (Option.some.inj h)
      exact Or.inr (Or.inl ⟨rhs', hv, hk⟩)
    · rename_i k' hk
      obtain ⟨rfl, rfl⟩ := Prod.mk.inj (Option.some.inj h)
      exact Or.inr (Or.inr ⟨lhs', hv, ‹_›⟩)
    · cases h
  · cases h

lemma imm_eq (hf : Verified f) (hs : m.Reaches f w s) {blk : Block}
    (hblk : f.blocks[s.block]? = some blk) {v : ℕ} {k x : Word} (hv : Held f s.block s.pc v)
    (hk : f.insts[v]? = some (.imm k)) (hx : s.regs v = some (.word x)) : x = k := by
  obtain ⟨y, hy, heq⟩ := hs.pure_eq hf hblk hv hk rfl
  obtain rfl := Val.word.inj (Option.some.inj (hx.symm.trans hy))
  exact (Option.some.inj heq).symm

/-- A value and a displacement name a byte. -/
structure Names (s : State m.Ext) (f : FunctionSsa) (p : ℕ × ℤ) (a : Word) : Prop where
  held : Held f s.block s.pc p.1
  word : ∃ x, s.regs p.1 = some (.word x) ∧ a = Mem.offset x p.2

/-- Looking through an addition names the same byte. -/
lemma Names.addStep (hf : Verified f) (hs : m.Reaches f w s) {blk : Block}
    (hblk : f.blocks[s.block]? = some blk) {p p' : ℕ × ℤ} {a : Word} (h : Names s f p a)
    (hp : addStep f p = some p') : Names s f p' a := by
  obtain ⟨x, hx, ha⟩ := h.word
  simp only [StoreForward.addStep, bind, Option.bind_eq_some_iff, Prod.exists] at hp
  obtain ⟨lhs, k, hadd, next, hnext, hp'⟩ := hp
  obtain rfl := Option.some.inj hp'
  have hnext : next = p.2 + k.toInt := by
    unfold checked at hnext
    split at hnext
    · exact (Option.some.inj hnext).symm
    · cases hnext
  -- The sum of the word and the constant, displaced, is the word, displaced by both.
  have hsum : ∀ y : Word, x = y + k → a = Mem.offset y next := by
    rintro y rfl
    rw [ha, hnext, Mem.offset, Mem.offset, Int.add_comm, BitVec.ofInt_add, BitVec.ofInt_toInt]
    grind
  have hplain : ∀ {v : ℕ} {y z : Word}, m.binop f v .add y z = some x → x = y + z := by
    intro v y z hbin
    rw [Machine.binop_plain rfl rfl rfl] at hbin
    exact (Option.some.inj hbin).symm
  rcases addend_eq_some hadd with hv | ⟨rhs, hv, hk⟩ | ⟨rhs, hv, hk⟩
  · obtain ⟨y, hy, hbin⟩ := hs.binopI_eq hf hblk h.held hv hx
    exact ⟨hy.1, y, hy.2, hsum y (hplain hbin)⟩
  · obtain ⟨y, z, hy, hz, hbin⟩ := hs.binop_eq hf hblk h.held hv hx
    obtain rfl := imm_eq hf hs hblk hz.1 hk hz.2
    exact ⟨hy.1, y, hy.2, hsum y (hplain hbin)⟩
  · obtain ⟨z, y, hz, hy, hbin⟩ := hs.binop_eq hf hblk h.held hv hx
    obtain rfl := imm_eq hf hs hblk hz.1 hk hz.2
    exact ⟨hy.1, y, hy.2, hsum y ((hplain hbin).trans (BitVec.add_comm _ _))⟩

lemma names_baseDisp (hf : Verified f) (hs : m.Reaches f w s) {blk : Block}
    (hblk : f.blocks[s.block]? = some blk) {addr : ℕ} {disp : ℤ} {a : Word}
    (h : Names s f (addr, disp) a) : Names s f (baseDisp f addr disp) a :=
  whileSome_invariant (fun p => Names s f p a) (fun _ _ hp hstep => hp.addStep hf hs hblk hstep) _ h

/-- The address of an access is a byte its base and displacement name. -/
lemma names_operand (hf : Verified f) (hs : m.Reaches f w s) {blk : Block}
    (hblk : f.blocks[s.block]? = some blk) (hpc : InBlock f s.pc s.block) {inst : Inst}
    (hinst : f.insts[s.pc]? = some inst) (hphi : inst.isPhi = false) {addr : ℕ} {disp : ℤ} {a : Word}
    (haddr : addr ∈ inst.operands)
    (ha : (s.regs.word addr).map (fun x => x + BitVec.ofInt 64 disp) = some a) :
    Names s f (baseDisp f addr disp) a := by
  obtain ⟨x, hx, rfl⟩ := Option.map_eq_some_iff.mp ha
  obtain ⟨hne, hreg⟩ := Regs.get_eq_some (Regs.word_eq_some.mp hx)
  refine names_baseDisp hf hs hblk ⟨?_, x, hreg, rfl⟩
  exact (hf.reads _ _ _ (hs.placed hf hblk).1 hpc hinst hphi addr haddr hne).held

/-! ## The tables hold -/

/-- A location holds the constant it is listed with. -/
structure EntryHolds (f : FunctionSsa) (s : State m.Ext) (e : ConstEntry) : Prop where
  held : Held f s.block s.pc e.addr
  holds : ∃ x, s.regs e.addr = some (.word x) ∧
    s.world.mem.read (Mem.offset x e.disp) e.width = e.bits.toNat % 256 ^ e.width
  ge : -2 ^ 63 ≤ e.disp
  lt : e.disp + e.width < 2 ^ 63

/-- A slot the pass tracks holds the constant it is listed with. -/
structure SlotHolds (m : Machine) (f : FunctionSsa) (mem : Mem) (e : ConstSlotEntry) : Prop where
  tracked : forwardableSlots f e.off = true ∨ exposedSlots f e.off = true
  holds : mem.read (m.slot e.off 0) e.width = e.bits.toNat % 256 ^ e.width
  width_le : e.width ≤ 8
  ge : -2 ^ 63 ≤ 8 * e.off
  lt : 8 * e.off + e.width < 2 ^ 63

/-- Each location and each slot of the tables holds its constant. -/
structure TablesHold (f : FunctionSsa) (s : State m.Ext) (t : Tables) : Prop where
  table : ∀ e ∈ t.table, EntryHolds f s e
  slotTable : ∀ e ∈ t.slotTable, SlotHolds m f s.world.mem e

lemma tablesHold_empty : TablesHold f s {} := ⟨by simp, by simp⟩

lemma held_succ {b pc v : ℕ} (h : Held f b pc v) : Held f b (pc + 1) v := by
  obtain ⟨db, hin, hlt, hdom⟩ := h
  exact ⟨db, hin, fun hdb => (hlt hdb).imp_left fun h => h.trans (Nat.lt_succ_self pc), hdom⟩

/-- The state after an instruction. -/
def next (s : State m.Ext) (r : Regs × World m.Ext) : State m.Ext :=
  { s with pc := s.pc + 1, regs := r.1, world := r.2 }

/-- An instruction leaves the registers of the values held where it stands. -/
lemma regs_of_held (hf : Verified f) (hpc : InBlock f s.pc s.block) {inst : Inst}
    {r : Regs × World m.Ext} (hinst : f.insts[s.pc]? = some inst)
    (hr : m.exec f s.pc s.regs s.world inst = some r) {v : ℕ} (hv : Held f s.block s.pc v) :
    r.1 v = s.regs v := by
  by_cases hphi : inst.isPhi = true
  · rw [Machine.exec_phi hphi] at hr
    rw [← Option.some.inj hr]
  · obtain ⟨x, hx⟩ := Machine.exec_regs hr
    rw [hx, Regs.set_of_ne (hv.ne_pc hf hpc ?_)]
    rintro ⟨inst', hinst', hphi'⟩
    rw [Option.some.inj (hinst.symm.trans hinst')] at hphi
    exact hphi hphi'

/-- A listed location an instruction leaves as it was still holds its constant. -/
lemma EntryHolds.exec (hf : Verified f) (hpc : InBlock f s.pc s.block) {inst : Inst}
    {r : Regs × World m.Ext} (hinst : f.insts[s.pc]? = some inst)
    (hr : m.exec f s.pc s.regs s.world inst = some r) {e : ConstEntry} (he : EntryHolds f s e)
    (hmem : ∀ x, s.regs e.addr = some (.word x) →
      r.2.mem.read (Mem.offset x e.disp) e.width =
        s.world.mem.read (Mem.offset x e.disp) e.width) : EntryHolds f (next s r) e := by
  obtain ⟨x, hx, hread⟩ := he.holds
  refine ⟨held_succ he.held, ⟨x, ?_, ?_⟩, he.ge, he.lt⟩
  · exact (regs_of_held hf hpc hinst hr he.held).trans hx
  · exact (hmem x hx).trans hread

/-- The slots no pointer reaches keep their constants past an instruction other than an access to
a slot. -/
lemma SlotHolds.of_forwardable (hstay : PointersStay m f w) (hs : m.Reaches f w s)
    (hpc : InBlock f s.pc s.block) {inst : Inst} {r : Regs × World m.Ext}
    (hinst : f.insts[s.pc]? = some inst)
    (hlocal : isStoreLocal inst = false) (hr : m.exec f s.pc s.regs s.world inst = some r) {e : ConstSlotEntry}
    (he : SlotHolds m f s.world.mem e) (hexposed : exposedSlots f e.off = false) :
    SlotHolds m f r.2.mem e := by
  refine ⟨he.tracked, ?_, he.width_le, he.ge, he.lt⟩
  rw [← he.holds]
  have hfwd := he.tracked.resolve_right (by simp [hexposed])
  have := he.width_le
  exact Mem.read_congr (by omega) fun a ha =>
    hstay.slots s inst r e.off hs hpc hinst hlocal hr hfwd a (by omega)

/-- An instruction outside the stores and the ones that kill only computes or reads. -/
lemma role_of_not_kills {inst : Inst} (hstore : isStore inst = false)
    (hlocal : isStoreLocal inst = false) (hseg : isSegStore inst = false)
    (hkill : killsPointers inst = false) :
    inst.role = .marker ∨ (∃ a, inst.role = .copy a) ∨ (∃ kind, inst.role = .load kind) ∨
      inst.role = .quiet ∨ inst.role = .pure := by
  cases inst with
  | load addr disp kind vol align pcRel => cases vol <;> simp [Inst.role]
  | loadLocal off disp kind vol => cases vol <;> simp [Inst.role]
  | store addr disp value kind vol align pcRel => cases hstore
  | storeLocal off disp value kind vol nsw => cases hlocal
  | segStore addr value kind vol seg => cases hseg
  | _ => first | (cases hkill; done) | simp [Inst.role]

/-- Such an instruction leaves memory. -/
lemma mem_of_not_kills (hstay : PointersStay m f w) (hs : m.Reaches f w s)
    (hpc : InBlock f s.pc s.block) {inst : Inst} {r : Regs × World m.Ext}
    (hinst : f.insts[s.pc]? = some inst) (hstore : isStore inst = false)
    (hlocal : isStoreLocal inst = false) (hkill : killsPointers inst = false)
    (hr : m.exec f s.pc s.regs s.world inst = some r) : r.2.mem = s.world.mem := by
  cases hseg : isSegStore inst with
  | true => exact hstay.segments s inst r hs hpc hinst hseg hr
  | false =>
    rcases role_of_not_kills hstore hlocal hseg hkill with h | ⟨a, h⟩ | ⟨kind, h⟩ | h | h
    all_goals
      rw [Machine.exec, h] at hr
    · rw [← Option.some.inj hr]
    · obtain ⟨x, -, rfl⟩ := Option.map_eq_some_iff.mp hr
      rfl
    · obtain ⟨_, -, rfl⟩ := Machine.execLoad_eq_some.mp hr
      rfl
    · obtain ⟨_, _, _, -, -, rfl⟩ := Machine.execQuiet_eq_some.mp hr
      rfl
    · obtain ⟨x, -, rfl⟩ := Option.map_eq_some_iff.mp hr
      rfl

lemma after_of_not_store {inst : Inst} {t : Tables} (hstore : isStore inst = false)
    (hlocal : isStoreLocal inst = false) : t.after f inst =
      if killsPointers inst then
        { table := [], slotTable := t.slotTable.filter fun e => !exposedSlots f e.off }
      else t := by
  cases inst with
  | store addr disp value kind vol align pcRel => cases hstore
  | storeLocal off disp value kind vol nsw => cases hlocal
  | _ => rfl

lemma apart_of_overlaps64 {a b : ℤ} {aw bw : ℕ} (h : overlaps64 a aw b bw = false) :
    a + aw ≤ b ∨ b + bw ≤ a := by
  simp only [overlaps64, Bool.and_eq_false_iff, decide_eq_false_iff_not, not_lt] at h
  exact h.symm

/-- The value a store of a known constant leaves in memory. -/
lemma read_of_storedConst (hf : Verified f) (hs : m.Reaches f w s) {blk : Block}
    (hblk : f.blocks[s.block]? = some blk) (hpc : InBlock f s.pc s.block) {inst : Inst}
    (hinst : f.insts[s.pc]? = some inst) (hphi : inst.isPhi = false) {value bytes : ℕ}
    {kind : StoreKind} {vol : Bool} {bits a : Word} {x : Val} {mem : Mem}
    (hvalue : value ∈ inst.operands) (hbits : storedConst f value kind vol = some bits)
    (hx : s.regs.get value = some x)
    (hbytes : m.storedBytes (isMarked f.f32Values value) kind x = some bytes) :
    (mem.write a (Badc.storeWidth kind) bytes).read a (storeWidth kind) =
      bits.toNat % 256 ^ storeWidth kind := by
  obtain ⟨hint, himm⟩ := storedConst_eq_some hbits
  obtain ⟨hwidth, hle⟩ := isIntStore_spec hint
  obtain ⟨hne, hreg⟩ := Regs.get_eq_some hx
  have hheld : Held f s.block s.pc value :=
    (hf.reads _ _ _ (hs.placed hf hblk).1 hpc hinst hphi value hvalue hne).held
  -- The register of the stored value holds the immediate.
  obtain ⟨y, hy, -⟩ := hs.pure_eq hf hblk hheld himm rfl
  obtain rfl := Option.some.inj (hreg.symm.trans hy)
  obtain rfl := imm_eq hf hs hblk hheld himm hy
  have hnat : bytes = y.toNat := by
    cases kind <;> first | exact (Option.some.inj hbytes).symm | cases hint
  rw [← hwidth, hnat, Mem.read_write (by omega)]

lemma after_store {addr value align : ℕ} {disp : ℤ} {kind : StoreKind} {vol pcRel : Bool}
    {t : Tables} : t.after f (.store addr disp value kind vol align pcRel) =
      { table := (t.table.filter fun e => e.addr = (baseDisp f addr disp).1 &&
            !overlaps64 e.disp e.width (baseDisp f addr disp).2 (storeWidth kind)) ++
          ((storedConst f value kind vol).map fun bits =>
            ⟨(baseDisp f addr disp).1, (baseDisp f addr disp).2, storeWidth kind, bits⟩).toList
        slotTable := t.slotTable.filter fun e => !exposedSlots f e.off } := rfl

lemma after_storeLocal {value : ℕ} {off disp : ℤ} {kind : StoreKind} {vol nsw : Bool}
    {t : Tables} : t.after f (.storeLocal off disp value kind vol nsw) =
      { table := []
        slotTable := (t.slotTable.filter fun e =>
            !overlaps64 (8 * e.off) e.width (8 * off + disp) (storeWidth kind)) ++
          if disp = 0 && (forwardableSlots f off || exposedSlots f off) then
            ((storedConst f value kind vol).map fun bits => ⟨off, storeWidth kind, bits⟩).toList
          else [] } := rfl

/-- A store through a pointer keeps the tables. -/
lemma TablesHold.store (hf : Verified f) (hsums : SumsFit f) (hstay : PointersStay m f w)
    (hs : m.Reaches f w s) (hpc : InBlock f s.pc s.block) {addr value align : ℕ} {disp : ℤ}
    {kind : StoreKind} {vol pcRel : Bool} {r : Regs × World m.Ext}
    (hinst : f.insts[s.pc]? = some (.store addr disp value kind vol align pcRel))
    (hr : m.exec f s.pc s.regs s.world (.store addr disp value kind vol align pcRel) = some r)
    {t : Tables} (ht : TablesHold f s t) :
    TablesHold f (next s r) (t.after f (.store addr disp value kind vol align pcRel)) := by
  obtain ⟨blk, hblk, -⟩ := id hpc
  obtain ⟨a, x, bytes, ha, hx, hbytes, hr'⟩ := Machine.execStore_eq_some.mp hr
  have hmem : r.2.mem = s.world.mem.write a (Badc.storeWidth kind) bytes := by rw [hr']
  have hnames : Names s f (baseDisp f addr disp) a :=
    names_operand hf hs hblk hpc hinst rfl (by simp [Inst.operands]) ha
  obtain ⟨y, hy, rfl⟩ := hnames.word
  obtain ⟨hge, hlt⟩ := hsums.store _ _ _ _ _ _ _ _ hinst
  have hwidth := storeWidth_le kind
  rw [after_store]
  refine ⟨fun e he => ?_, fun e he => ?_⟩
  · rcases List.mem_append.mp he with he | he
    · -- A location kept has the same base and lies apart.
      obtain ⟨he, hkeep⟩ := List.mem_filter.mp he
      simp only [Bool.and_eq_true, decide_eq_true_eq, Bool.not_eq_true'] at hkeep
      have hholds := ht.table e he
      have hapart := apart_of_overlaps64 hkeep.2
      have hbound : (baseDisp f addr disp).2 + Badc.storeWidth kind ≤ 2 ^ 63 := by omega
      refine hholds.exec hf hpc hinst hr fun z hz => ?_
      rw [hkeep.1] at hz
      obtain rfl := Val.word.inj (Option.some.inj (hz.symm.trans hy))
      rw [hmem]
      exact Mem.read_write_apart hholds.ge hholds.lt hge hbound
        (hapart.imp_right fun h => by omega)
    · -- The location added was just written.
      obtain ⟨bits, hbits, rfl⟩ := Option.map_eq_some_iff.mp (Option.mem_toList.mp he)
      refine ⟨held_succ hnames.held, ⟨y, ?_, ?_⟩, hge, hlt⟩
      · exact (regs_of_held hf hpc hinst hr hnames.held).trans hy
      · rw [next, hmem]
        exact read_of_storedConst hf hs hblk hpc hinst rfl (by simp [Inst.operands]) hbits hx hbytes
  · obtain ⟨he, hexposed⟩ := List.mem_filter.mp he
    exact (ht.slotTable e he).of_forwardable hstay hs hpc hinst rfl hr (by simpa using hexposed)

/-- A store to a slot keeps the tables. -/
lemma TablesHold.storeLocal (hf : Verified f) (hsums : SumsFit f) (hs : m.Reaches f w s)
    (hpc : InBlock f s.pc s.block) {value : ℕ} {off disp : ℤ} {kind : StoreKind} {vol nsw : Bool}
    {r : Regs × World m.Ext}
    (hinst : f.insts[s.pc]? = some (.storeLocal off disp value kind vol nsw))
    (hr : m.exec f s.pc s.regs s.world (.storeLocal off disp value kind vol nsw) = some r)
    {t : Tables} (ht : TablesHold f s t) :
    TablesHold f (next s r) (t.after f (.storeLocal off disp value kind vol nsw)) := by
  obtain ⟨blk, hblk, -⟩ := id hpc
  obtain ⟨a, x, bytes, ha, hx, hbytes, hr'⟩ := Machine.execStore_eq_some.mp hr
  obtain rfl := Option.some.inj ha
  have hmem : r.2.mem = s.world.mem.write (m.slot off disp) (Badc.storeWidth kind) bytes := by
    rw [hr']
  obtain ⟨hge, hlt⟩ := hsums.storeLocal _ _ _ _ _ _ _ hinst
  have hwidth := storeWidth_le kind
  rw [after_storeLocal]
  refine ⟨fun e he => absurd he (List.not_mem_nil), fun e hin => ?_⟩
  rcases List.mem_append.mp hin with he | he
  · obtain ⟨he, hkeep⟩ := List.mem_filter.mp he
    have hholds := ht.slotTable e he
    have hapart := apart_of_overlaps64 (by simpa using hkeep)
    refine ⟨hholds.tracked, ?_, hholds.width_le, hholds.ge, hholds.lt⟩
    rw [← hholds.holds, next, hmem, Machine.slot, Machine.slot, Int.add_zero]
    exact Mem.read_write_apart hholds.ge hholds.lt hge (by omega) (by omega)
  · split at he
    · rename_i hcond
      simp only [Bool.and_eq_true, decide_eq_true_eq, Bool.or_eq_true] at hcond
      obtain ⟨rfl, htracked⟩ := hcond
      obtain ⟨bits, hbits, rfl⟩ := Option.map_eq_some_iff.mp (Option.mem_toList.mp he)
      have hle := (isIntStore_spec (storedConst_eq_some hbits).1).2
      refine ⟨htracked, ?_, hle, by simpa using hge, by simpa using hlt⟩
      rw [next, hmem]
      exact read_of_storedConst hf hs hblk hpc hinst rfl (by simp [Inst.operands]) hbits hx hbytes
    · cases he

/-- **An instruction keeps the tables**: what is known before it and survives it, and what it
stores, is known after it. -/
theorem TablesHold.exec (hf : Verified f) (hsums : SumsFit f) (hstay : PointersStay m f w)
    (hs : m.Reaches f w s) (hpc : InBlock f s.pc s.block) {inst : Inst} {r : Regs × World m.Ext}
    (hinst : f.insts[s.pc]? = some inst) (hr : m.exec f s.pc s.regs s.world inst = some r)
    {t : Tables} (ht : TablesHold f s t) : TablesHold f (next s r) (t.after f inst) := by
  cases hstore : isStore inst with
  | true =>
    cases inst with
    | store addr disp value kind vol align pcRel => exact ht.store hf hsums hstay hs hpc hinst hr
    | _ => cases hstore
  | false =>
  cases hlocal : isStoreLocal inst with
  | true =>
    cases inst with
    | storeLocal off disp value kind vol nsw => exact ht.storeLocal hf hsums hs hpc hinst hr
    | _ => cases hlocal
  | false =>
  rw [after_of_not_store hstore hlocal]
  cases hkill : killsPointers inst with
  | true =>
    refine ⟨by simp, fun e he => ?_⟩
    obtain ⟨he, hexposed⟩ := List.mem_filter.mp he
    exact (ht.slotTable e he).of_forwardable hstay hs hpc hinst hlocal hr (by simpa using hexposed)
  | false =>
    have hmem := mem_of_not_kills hstay hs hpc hinst hstore hlocal hkill hr
    refine ⟨fun e he => (ht.table e he).exec hf hpc hinst hr fun x _ => by rw [hmem], fun e he => ?_⟩
    have hholds := ht.slotTable e he
    have hread : r.2.mem.read (m.slot e.off 0) e.width = e.bits.toNat % 256 ^ e.width := by
      rw [hmem, hholds.holds]
    exact ⟨hholds.tracked, hread, hholds.width_le, hholds.ge, hholds.lt⟩

/-! ## Entry to a block -/

/-- **Entry to a block with one predecessor keeps the tables** the predecessor's end has. -/
lemma TablesHold.enter (hf : Verified f) (hs : m.Reaches f w s) {blk blk' : Block} {b : ℕ}
    (hblk : f.blocks[s.block]? = some blk) (hb : m.branchTo f s blk.terminator = some b)
    (hblk' : f.blocks[b]? = some blk') (hne : b ≠ 0) (hsole : f.predecessors b = [s.block]) {t : Tables} (ht : TablesHold f s t) :
    TablesHold f ⟨b, blk'.instRange.start, enterRegs f s.block blk' s.regs, s.world⟩ t := by
  have hreach := (hs.placed hf hblk).1
  have hedge := Machine.branchTo_edge hblk hb
  have hreach' := hreach.step hedge
  have honly : ∀ a, f.graph.Reach a → f.graph.Edge a b → a = s.block := by
    intro a _ ha
    have := SuccGraph.mem_predsOf.mpr ha
    rw [show f.graph.predsOf b = [s.block] from hsole] at this
    exact List.mem_singleton.mp this
  have hdom : f.graph.Dom s.block b := dom_sole_pred hreach' hne honly
  have hneq : s.block ≠ b := ne_of_sole_pred hreach' hne honly
  refine ⟨fun e he => ?_, ht.slotTable⟩
  obtain ⟨⟨db, hin, hlt, hdomdb⟩, ⟨x, hx, hread⟩, hge, hlt'⟩ := ht.table e he
  -- What the predecessor's end holds is of another block, which dominates this one.
  have hdb : f.graph.Dom db s.block := by
    by_cases hdb : db = s.block
    · rw [hdb]
      exact Dom.refl hreach
    · exact hdomdb hdb
  have hnot : db ≠ b := by
    rintro rfl
    exact hneq (hdom.antisymm hdb)
  refine ⟨⟨db, hin, fun h => absurd h hnot, fun _ => hdb.trans hdom⟩, ⟨x, ?_, hread⟩, hge, hlt'⟩
  exact (enterRegs_of_notMem hblk' fun h => hnot (hf.disjoint _ db b hin h)).trans hx

/-! ## The walk -/

/-- Walking on from where a walk of existing instructions stopped. -/
lemma walk_append {l₁ l₂ : List ℕ} {t : Tables} (hl : ∀ i ∈ l₁, i < f.insts.length) :
    walk f t (l₁ ++ l₂) = ((walk f (walk f t l₁).1 l₂).1,
      (walk f t l₁).2 ++ (walk f (walk f t l₁).1 l₂).2) := by
  induction l₁ generalizing t with
  | nil => rfl
  | cons i l₁ ih =>
    have hi := List.getElem?_eq_getElem (hl i (by simp))
    simp only [List.cons_append, walk, hi]
    rw [ih fun j hj => hl j (.tail _ hj)]
    simp

/-- A load that folds reads back a constant known where it stands. -/
lemma exists_of_mem_walk {l : List ℕ} {t : Tables} {p : ℕ × Word} (hp : p ∈ (walk f t l).2)
    (hl : ∀ i ∈ l, i < f.insts.length) :
    ∃ l₁ l₂ inst, l = l₁ ++ p.1 :: l₂ ∧ f.insts[p.1]? = some inst ∧
      foldOf f (walk f t l₁).1 inst = some p.2 := by
  induction l generalizing t with
  | nil => cases hp
  | cons i l ih =>
    have hi := List.getElem?_eq_getElem (hl i (by simp))
    simp only [walk, hi, List.mem_append, Option.mem_toList] at hp
    rcases hp with hp | hp
    · obtain ⟨c, hc, rfl⟩ := Option.map_eq_some_iff.mp hp
      exact ⟨[], l, _, rfl, hi, hc⟩
    · obtain ⟨l₁, l₂, inst, rfl, hinst, hfold⟩ := ih hp fun j hj => hl j (.tail _ hj)
      exact ⟨i :: l₁, l₂, inst, rfl, hinst, by simpa only [walk, hi] using hfold⟩

/-- What is known at `pc` of a block that is entered with `t`. -/
def tablesAt (f : FunctionSsa) (t : Tables) (blk : Block) (pc : ℕ) : Tables :=
  (walk f t (List.range' blk.instRange.start (pc - blk.instRange.start))).1

lemma tablesAt_start {t : Tables} {blk : Block} : tablesAt f t blk blk.instRange.start = t := by
  simp [tablesAt, walk]

/-- What is known past an instruction of a block. -/
lemma tablesAt_succ (hf : Verified f) {t : Tables} {b pc : ℕ} {blk : Block}
    (hblk : f.blocks[b]? = some blk) (hge : blk.instRange.start ≤ pc)
    (hlt : pc < blk.instRange.stop) {inst : Inst} (hinst : f.insts[pc]? = some inst) :
    tablesAt f t blk (pc + 1) = (tablesAt f t blk pc).after f inst := by
  have hrange := hf.range b blk hblk
  have hsplit : pc + 1 - blk.instRange.start = (pc - blk.instRange.start) + 1 := by omega
  rw [tablesAt, hsplit, List.range'_concat, walk_append ?_]
  · have hpc : blk.instRange.start + 1 * (pc - blk.instRange.start) = pc := by omega
    simp only [hpc, walk, hinst, tablesAt]
  · intro i hi
    rw [List.mem_range'_1] at hi
    omega

/-- The tables a block can be entered with: nothing, or what its one predecessor leaves. -/
inductive Enters (f : FunctionSsa) : ℕ → Tables → Prop
  | empty {b : ℕ} : Enters f b {}
  | sole {b p : ℕ} {blk : Block} {t : Tables} : f.predecessors b = [p] → b ≠ 0 →
      f.blocks[p]? = some blk → Enters f p t → Enters f b (tablesAt f t blk blk.instRange.stop)

/-- **In every state of a run, each location the tables list holds its constant.** -/
theorem tablesHold_of_enters (hf : Verified f) (hsums : SumsFit f) (hstay : PointersStay m f w)
    (hs : m.Reaches f w s) {blk : Block} (hblk : f.blocks[s.block]? = some blk) {t : Tables}
    (ht : Enters f s.block t) : TablesHold f s (tablesAt f t blk s.pc) := by
  induction hs generalizing t blk with
  | initial =>
    have h0 : f.blocks[0]? = some blk := hblk
    have hpc : (m.initial f w).pc = blk.instRange.start := by simp [Machine.initial, h0]
    rw [hpc, tablesAt_start]
    cases ht with
    | empty => exact tablesHold_empty
    | sole _ hne => exact absurd rfl hne
  | step hs hstep ih =>
    rename_i s₀ s'
    obtain ⟨blk₀, hblk₀, ⟨hlt, inst, r, hinst, hr, rfl⟩ | ⟨hge, b, blk', hb, hblk', rfl⟩⟩ :=
      Machine.step_cases hstep
    · obtain rfl := Option.some.inj (hblk.symm.trans hblk₀)
      have hstart := (hs.placed hf hblk₀).2.1
      dsimp only
      rw [tablesAt_succ hf hblk₀ hstart hlt hinst]
      exact (ih hblk₀ ht).exec hf hsums hstay hs ⟨blk, hblk₀, hstart, hlt⟩ hinst hr
    · obtain rfl := Option.some.inj (hblk.symm.trans hblk')
      dsimp only
      rw [tablesAt_start]
      cases ht with
      | empty => exact tablesHold_empty
      | sole hpreds hne hblkp hp =>
        rename_i p blkp t'
        -- The one predecessor is the block the run comes from.
        have hmem := SuccGraph.mem_predsOf.mpr (Machine.branchTo_edge hblk₀ hb)
        obtain rfl : s₀.block = p := by
          rw [show f.graph.predsOf b = [p] from hpreds] at hmem
          exact List.mem_singleton.mp hmem
        obtain rfl := Option.some.inj (hblkp.symm.trans hblk₀)
        have hpc : s₀.pc = blkp.instRange.stop := le_antisymm (hs.placed hf hblk₀).2.2 hge
        rw [← hpc]
        exact (ih hblk₀ hp).enter hf hs hblk₀ hb hblk' hne hpreds

/-! ## The folds -/

lemma loaded_of_constForLoad {bits c a : Word} {kind : LoadKind} {single : Bool} {mem : Mem}
    (hc : constForLoad bits kind = some c)
    (hread : mem.read a (loadWidth kind) = bits.toNat % 256 ^ loadWidth kind) :
    m.loaded single mem a kind = .word c := by
  obtain ⟨hfloat, hvec, hwidth, rfl⟩ := constForLoad_spec hc
  rw [hwidth] at hread
  rw [loaded_eq hfloat hvec, hread, extendLoad_low hfloat hvec]

/-- Executing a load that reads back a known constant yields the constant. -/
lemma exec_of_foldOf (hf : Verified f) (hs : m.Reaches f w s) (hpc : InBlock f s.pc s.block)
    {inst : Inst} {r : Regs × World m.Ext} (hinst : f.insts[s.pc]? = some inst) {t : Tables}
    (ht : TablesHold f s t) {c : Word} (hc : foldOf f t inst = some c)
    (hr : m.exec f s.pc s.regs s.world inst = some r) :
    r = (s.regs.set s.pc (some (.word c)), s.world) := by
  obtain ⟨blk, hblk, -⟩ := id hpc
  cases inst with
  | load addr disp kind vol align pcRel =>
    cases vol with
    | true => cases hc
    | false =>
      obtain ⟨a, ha, rfl⟩ := Machine.execLoad_eq_some.mp hr
      obtain ⟨e, he, hce⟩ := Option.bind_eq_some_iff.mp (show
        (t.table.find? fun e => e.addr = (baseDisp f addr disp).1 &&
          e.disp = (baseDisp f addr disp).2 && e.width = loadWidth kind).bind
            (fun e => constForLoad e.bits kind) = some c from hc)
      have hsame := List.find?_some he
      simp only [Bool.and_eq_true, decide_eq_true_eq] at hsame
      obtain ⟨⟨haddr, hdisp⟩, hwidth⟩ := hsame
      have hnames := names_operand hf hs hblk hpc hinst rfl (by simp [Inst.operands]) ha
      obtain ⟨y, hy, rfl⟩ := hnames.word
      obtain ⟨x, hx, hread⟩ := (ht.table e (List.mem_of_find?_eq_some he)).holds
      rw [haddr] at hx
      obtain rfl := Val.word.inj (Option.some.inj (hy.symm.trans hx))
      rw [hdisp, hwidth] at hread
      rw [loaded_of_constForLoad hce hread]
  | loadLocal off disp kind vol =>
    cases vol with
    | true => cases hc
    | false =>
      obtain ⟨a, ha, rfl⟩ := Machine.execLoad_eq_some.mp hr
      obtain rfl := Option.some.inj ha
      by_cases hdisp : disp = 0
      · subst hdisp
        obtain ⟨e, he, hce⟩ := Option.bind_eq_some_iff.mp (show
          (t.slotTable.find? fun e => e.off = off && e.width = loadWidth kind).bind
            (fun e => constForLoad e.bits kind) = some c from hc)
        have hsame := List.find?_some he
        simp only [Bool.and_eq_true, decide_eq_true_eq] at hsame
        obtain ⟨rfl, hwidth⟩ := hsame
        have hread := (ht.slotTable e (List.mem_of_find?_eq_some he)).holds
        rw [hwidth] at hread
        rw [loaded_of_constForLoad hce hread]
      · simp [foldOf, hdisp] at hc
  | _ => cases hc

/-- What the walk of the blocks records: the tables a block leaves, and the loads that read back a
constant known where they stand. -/
structure Walked (f : FunctionSsa) (st : (ℕ → Option Tables) × List (ℕ × Word)) : Prop where
  exits : ∀ b t, st.1 b = some t → ∃ blk t₀, f.blocks[b]? = some blk ∧ Enters f b t₀ ∧
    t = tablesAt f t₀ blk blk.instRange.stop
  folds : ∀ p ∈ st.2, ∃ b blk t₀ inst, f.blocks[b]? = some blk ∧ Enters f b t₀ ∧
    InBlock f p.1 b ∧ f.insts[p.1]? = some inst ∧ foldOf f (tablesAt f t₀ blk p.1) inst = some p.2

/-- Walking a block keeps that, where the tables it is entered with can be. -/
lemma Walked.walkBlock (hf : Verified f) {st : (ℕ → Option Tables) × List (ℕ × Word)} {b : ℕ}
    (hst : Walked f st) (hb : b < f.blocks.length) (henters : Enters f b (entryTables f st.1 b)) :
    Walked f (walkBlock f st b) := by
  have hblk := List.getElem?_eq_getElem hb
  have hrange := hf.range b _ hblk
  have hlist : rangeOf f b = (f.blocks[b]).instRange.toList := by simp [rangeOf, hblk]
  refine ⟨fun c t hc => ?_, fun p hp => ?_⟩
  · simp only [StoreForward.walkBlock, hlist] at hc
    by_cases hcb : c = b
    · subst hcb
      rw [Function.update_self] at hc
      exact ⟨_, _, hblk, henters, (Option.some.inj hc).symm⟩
    · rw [Function.update_of_ne hcb] at hc
      exact hst.exits c t hc
  · simp only [StoreForward.walkBlock, hlist] at hp
    rcases List.mem_append.mp hp with hp | hp
    · exact hst.folds p hp
    · have hlt : ∀ i ∈ (f.blocks[b]).instRange.toList, i < f.insts.length := by
        intro i hi
        rw [InstRange.mem_toList] at hi
        omega
      obtain ⟨l₁, l₂, inst, hsplit, hinst, hfold⟩ := exists_of_mem_walk hp hlt
      have hin : p.1 ∈ (f.blocks[b]).instRange.toList := by simp [hsplit]
      rw [InstRange.mem_toList] at hin
      -- What is walked before the load are the instructions of the block before it.
      have hl₁ : l₁ = List.range' (f.blocks[b]).instRange.start
          (p.1 - (f.blocks[b]).instRange.start) := by
        obtain ⟨k, -, rfl, hrest⟩ := List.range'_eq_append_iff.mp hsplit
        obtain ⟨hstart, -⟩ := List.range'_eq_cons_iff.mp hrest.symm
        rw [← hstart, Nat.add_sub_cancel_left, Nat.mul_one]
      refine ⟨b, _, _, inst, hblk, henters, ⟨_, hblk, hin⟩, hinst, ?_⟩
      rw [tablesAt, ← hl₁]
      exact hfold

/-- The entry block is numbered first. -/
lemma rpoNumbers_entry (hf : Verified f) (h0 : 0 < f.blocks.length) : rpoNumbers f 0 = some 0 := by
  have hspec := SuccGraph.postorder_spec (FunctionSsa.graph_closed hf.gotoTargets hf.targets)
    (by rwa [f.graph_size])
  have hmem : 0 ∈ f.graph.postorder := (hspec.2.1 0).mpr reach_entry
  rw [rpoNumbers, if_pos hmem]
  -- The last block of the postorder has no later predecessor, so it is the entry.
  have hlen := List.length_pos_of_mem hmem
  have hlast : f.graph.postorder[f.graph.postorder.length - 1] = 0 := by
    by_contra hne
    obtain ⟨p, -, hp, hlt⟩ := hspec.2.2 _ (List.getElem_mem _) hne
    rw [hspec.1.idxOf_getElem] at hlt
    have := List.idxOf_lt_length_of_mem hp
    omega
  have hidx : f.graph.postorder.idxOf 0 = f.graph.postorder.length - 1 := by
    rw [← hlast, hspec.1.idxOf_getElem]
  rw [hidx, Nat.sub_self]

/-- The walk starts with the entry block and meets it once. -/
lemma blockOrder_eq (hf : Verified f) (h0 : 0 < f.blocks.length) :
    ∃ rest, blockOrder f = 0 :: rest ∧ 0 ∉ rest ∧ ∀ b ∈ rest, b < f.blocks.length := by
  have hperm : (blockOrder f).Perm (List.range f.blocks.length) := List.perm_insertionSort _ _
  obtain ⟨n, hn⟩ : ∃ n, f.blocks.length = n + 1 := ⟨_, (Nat.succ_pred_eq_of_pos h0).symm⟩
  obtain ⟨rest, hrest⟩ : ∃ rest, blockOrder f = 0 :: rest := by
    rw [blockOrder, hn, List.range_succ_eq_map, List.insertionSort_cons]
    cases (List.map Nat.succ (List.range n)).insertionSort fun a b =>
      (rpoNumbers f a).getD (2 ^ 64 - 1) ≤ (rpoNumbers f b).getD (2 ^ 64 - 1) with
    | nil => exact ⟨[], rfl⟩
    | cons b l =>
      refine ⟨b :: l, ?_⟩
      rw [List.orderedInsert, if_pos]
      simp [rpoNumbers_entry hf h0]
  have hnodup : (0 :: rest).Nodup := hrest ▸ hperm.nodup_iff.mpr List.nodup_range
  refine ⟨rest, hrest, (List.nodup_cons.mp hnodup).1, fun b hb => ?_⟩
  exact List.mem_range.mp (hperm.mem_iff.mp (hrest ▸ List.mem_cons_of_mem _ hb))

/-- The loads that fold read back a constant known where they stand. -/
lemma walked_constFolds (hf : Verified f) (h0 : 0 < f.blocks.length) :
    Walked f ((blockOrder f).foldl (walkBlock f) (fun _ => none, [])) := by
  obtain ⟨rest, hrest, hnot, hlt⟩ := blockOrder_eq hf h0
  rw [hrest, List.foldl_cons]
  have hfirst : Walked f (walkBlock f (fun _ => none, []) 0) := by
    refine Walked.walkBlock hf ⟨by simp, by simp⟩ h0 ?_
    have hempty : entryTables f (fun _ => none) 0 = {} := by
      unfold entryTables
      split
      · split <;> rfl
      · rfl
    rw [hempty]
    exact .empty
  generalize walkBlock f (fun _ => none, []) 0 = st at hfirst
  clear hrest
  induction rest generalizing st with
  | nil => exact hfirst
  | cons b rest ih =>
    rw [List.mem_cons, not_or] at hnot
    rw [List.foldl_cons]
    refine ih hnot.2 (fun c hc => hlt c (.tail _ hc)) _
      (hfirst.walkBlock hf (hlt b (by simp)) ?_)
    -- What a block is entered with is nothing, or what its one predecessor left.
    unfold entryTables
    split
    · rename_i p hp
      split
      · cases hexit : st.1 p with
        | none => exact .empty
        | some t =>
          obtain ⟨blk, t₀, hblk, ht₀, rfl⟩ := hfirst.exits p t hexit
          exact .sole hp (Ne.symm hnot.1) hblk ht₀
      · exact .empty
    · exact .empty

/-! ## The pass -/

/-- A load the pass folds yields its constant wherever a run meets it, and changes nothing else. -/
lemma exec_of_mem_constFolds (hf : Verified f) (hsums : SumsFit f) (hstay : PointersStay m f w)
    (hs : m.Reaches f w s) (hpc : InBlock f s.pc s.block) {c : Word} (hc : (s.pc, c) ∈ constFolds f) :
    ∃ inst, f.insts[s.pc]? = some inst ∧ ∀ r, m.exec f s.pc s.regs s.world inst = some r →
      r = (s.regs.set s.pc (some (.word c)), s.world) := by
  have h0 : 0 < f.blocks.length := by
    obtain ⟨blk, hblk, -⟩ := hpc
    have := (List.getElem?_eq_some_iff.mp hblk).1
    omega
  obtain ⟨b, blk, t, inst, hblk, ht, hin, hinst, hfold⟩ := (walked_constFolds hf h0).folds _ hc
  obtain rfl := hf.disjoint _ b s.block hin hpc
  refine ⟨inst, hinst, fun r hr => exec_of_foldOf hf hs hpc hinst ?_ hfold hr⟩
  exact tablesHold_of_enters hf hsums hstay hs hblk ht

lemma not_phi_of_foldOf {t : Tables} {inst : Inst} {c : Word} (h : foldOf f t inst = some c) :
    inst.isPhi = false := by
  cases inst <;> first | rfl | cases h

lemma foldConstLoads_eq : (foldConstLoads f).1 = f ∨ (foldConstLoads f).1 =
    { f with insts := (constFolds f).foldl (fun insts p => insts.set p.1 (.imm p.2)) f.insts } := by
  unfold foldConstLoads
  split
  · exact Or.inl rfl
  · dsimp only
    split
    · exact Or.inl rfl
    · exact Or.inr rfl

lemma not_phi_of_mem_constFolds (hf : Verified f) (h0 : 0 < f.blocks.length) {v : ℕ} {c : Word}
    {inst : Inst} (hc : (v, c) ∈ constFolds f) (hinst : f.insts[v]? = some inst) :
    inst.isPhi = false := by
  obtain ⟨b, blk, t, inst', -, -, -, hinst', hfold⟩ := (walked_constFolds hf h0).folds _ hc
  obtain rfl := Option.some.inj (hinst.symm.trans hinst')
  exact not_phi_of_foldOf hfold

/-- The result is the function with loads replaced in place. -/
lemma trimmed_foldConstLoads (hf : Verified f) (h0 : 0 < f.blocks.length) :
    Trimmed f { f with
      insts := (constFolds f).foldl (fun insts p => insts.set p.1 (.imm p.2)) f.insts } := by
  refine Trimmed.of_insts length_foldl_set (fun v inst hinst hphi => ?_)
    fun v inst hinst hphi => ?_
  · rcases getElem?_foldl_set_or (constFolds f) hinst with h | ⟨c, hc, -⟩
    · exact h
    · rw [not_phi_of_mem_constFolds hf h0 hc hinst] at hphi
      cases hphi
  · rcases getElem?_foldl_set_or (constFolds f) hinst with h | ⟨c, -, h⟩
    · exact ⟨inst, h, hphi, fun _ => id⟩
    · exact ⟨.imm c, h, rfl, fun o ho => (nomatch ho)⟩

/-- **Folding the loads of stored constants is sound**, for calls in which memory reached through
pointers is not a slot without an address, and where the sums the pass forms fit: a load that
folds yields its constant wherever a run meets it and changes nothing else, and the result takes
every step of every run. -/
theorem foldConstLoads_correct (hcheck : Verify.check f = .ok ()) (hsums : SumsFit f)
    (hstay : PointersStay m f w) :
    (∀ s c, m.Reaches f w s → InBlock f s.pc s.block → (s.pc, c) ∈ constFolds f →
      ∃ inst, f.insts[s.pc]? = some inst ∧ ∀ r, m.exec f s.pc s.regs s.world inst = some r →
        r = (s.regs.set s.pc (some (.word c)), s.world)) ∧
    ∀ n r, m.run f n (m.initial f w) = some r →
      m.run (foldConstLoads f).1 n (m.initial (foldConstLoads f).1 w) = some r := by
  have hf := check_eq_ok_iff.mp hcheck
  refine ⟨fun s c hs hpc hc => exec_of_mem_constFolds hf hsums hstay hs hpc hc, fun n r hr => ?_⟩
  rcases foldConstLoads_eq (f := f) with h | h
  · rwa [h]
  by_cases h0 : f.blocks.length = 0
  · have hnone : constFolds f = [] := by simp [constFolds, blockOrder, h0]
    rw [h, hnone]
    exact hr
  have htrim := trimmed_foldConstLoads hf (Nat.pos_of_ne_zero h0)
  rw [h]
  refine Machine.run_eq_of_step ?_ (fun s hs r hr => ?_) hr
  · rfl
  refine htrim.step hf (fun inst inst' r' hinst hinst' hin hphi hr' => ?_) ?_
    (fun blk hblk => (hs.placed hf hblk).2.1) hr
  · rcases getElem?_foldl_set_or (constFolds f) hinst with hsame | ⟨c, hc, hnew⟩
    · obtain rfl := Option.some.inj (hinst'.symm.trans hsame)
      exact hr'
    · obtain rfl := Option.some.inj (hinst'.symm.trans hnew)
      obtain ⟨inst₀, hinst₀, hyields⟩ := exec_of_mem_constFolds hf hsums hstay hs hin hc
      obtain rfl := Option.some.inj (hinst.symm.trans hinst₀)
      rw [hyields r' hr']
      rfl
  · intro blk blk' t b hblk hblk' _ hjmp hold
    obtain rfl := Option.some.inj (hblk'.symm.trans hblk)
    exact absurd hjmp hold

end

/-! ## Two functions -/

/-- A slot set in one block and loaded in the next. -/
def nextBlock : FunctionSsa where
  insts := [.imm 0x105, .storeLocal 1 0 0 .i64 false false, .loadLocal 1 0 .i64 false]
  blocks := [{ instRange := ⟨0, 2⟩, terminator := .jmp 1 },
    { instRange := ⟨2, 3⟩, terminator := .ret 2 }]

/-- The load of `nextBlock` folds, and the result still returns what it loaded. -/
theorem foldConstLoads_correct_nextBlock :
    (foldConstLoads nextBlock).1.insts =
      [.imm 0x105, .storeLocal 1 0 0 .i64 false false, .imm 0x105] ∧
    ∃ w', Machine.null.run (foldConstLoads nextBlock).1 6
      (Machine.null.initial (foldConstLoads nextBlock).1 .null) =
        some (.returned (some (.word 0x105)) w') := by
  have hsums : SumsFit nextBlock := by
    refine ⟨fun v addr disp value kind vol align pcRel h => ?_, fun v off disp value kind vol nsw h => ?_⟩
    · exact absurd (List.mem_of_getElem? h) (by simp [nextBlock])
    · have := List.mem_of_getElem? h
      simp only [nextBlock, List.mem_cons, reduceCtorEq, Inst.storeLocal.injEq, false_or,
        List.not_mem_nil, or_false] at this
      obtain ⟨rfl, rfl, -, rfl, -⟩ := this
      decide
  have hstay : PointersStay Machine.null nextBlock .null := by
    refine ⟨fun s inst r off _ _ hinst hlocal hr _ a _ => ?_, fun s inst r _ _ hinst hseg => ?_⟩
    · have := List.mem_of_getElem? hinst
      simp only [nextBlock, List.mem_cons, List.not_mem_nil, or_false] at this
      rcases this with rfl | rfl | rfl
      · obtain ⟨x, -, rfl⟩ := Machine.exec_pure rfl hr
        rfl
      · cases hlocal
      · obtain ⟨x, -, rfl⟩ := Machine.execLoad_eq_some.mp hr
        rfl
    · have := List.mem_of_getElem? hinst
      simp only [nextBlock, List.mem_cons, List.not_mem_nil, or_false] at this
      rcases this with rfl | rfl | rfl <;> cases hseg
  obtain ⟨w', hw'⟩ : ∃ w', Machine.null.run nextBlock 6 (Machine.null.initial nextBlock .null) =
      some (.returned (some (.word 0x105)) w') := ⟨_, rfl⟩
  exact ⟨by decide +kernel, w', (foldConstLoads_correct (by decide +kernel) hsums hstay).2 6 _ hw'⟩

/-- A pointer to slot 0 that stores 7 to the slot after it, between a store of 5 and a load. -/
def pastSlot : FunctionSsa where
  insts := [.localAddr 0, .imm 5, .storeLocal 1 0 1 .i64 false false, .imm 7,
    .store 0 8 3 .i64 false 8 false, .loadLocal 1 0 .i64 false]
  blocks := [{ instRange := ⟨0, 6⟩, terminator := .ret 5 }]

/-- The load of `pastSlot` folds to 5, and yields 7. -/
theorem foldConstLoads_pastSlot : Verify.check pastSlot = .ok () ∧
    (foldConstLoads pastSlot).1.insts[5]? = some (.imm 5) ∧
    ∃ s r, Machine.null.Reaches pastSlot .null s ∧ s.pc = 5 ∧ InBlock pastSlot 5 s.block ∧
      Machine.null.exec pastSlot 5 s.regs s.world (.loadLocal 1 0 .i64 false) = some r ∧
      r.1 5 = some (.word 7) := by
  obtain ⟨s, hrun, hpc, hblock, r, hr, hword⟩ : ∃ s : State Unit,
      Machine.null.run pastSlot 5 (Machine.null.initial pastSlot .null) = some (.running s) ∧
      s.pc = 5 ∧ s.block = 0 ∧ ∃ r, Machine.null.exec pastSlot 5 s.regs s.world
        (.loadLocal 1 0 .i64 false) = some r ∧ r.1 5 = some (.word 7) :=
    ⟨_, rfl, rfl, rfl, _, rfl, by decide +kernel⟩
  refine ⟨by decide +kernel, by decide +kernel, s, r, .run .initial hrun, hpc, ?_, hr, hword⟩
  exact hblock ▸ ⟨_, rfl, by decide, by decide⟩

end StoreForward

end Badc
