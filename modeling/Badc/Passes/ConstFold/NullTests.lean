import Badc.Passes.ConstFold.ConstData
import Badc.Ssa.Held

/-!
# Null tests of relocated members

`run` of `src/c5/codegen/passes/const_global_fold.rs`: a comparison with zero of a pointer that is loaded from
a member of a constant object becomes its outcome, where a relocation puts an address into the member.

The pass reads the constant objects off the symbols once more, and a thread-local one, whose offset is one of
another image, is among them.  What is replaced has its value in every run exactly where each slot that such
an object seems to hold lies in a constant object of the data (`run_sound_iff`).
-/

namespace Badc.NullTests

variable {P : Program} {f f' : FunctionSsa} {offsets : List ℤ} {v i n : ℕ} {off o : ℤ}

/-! ## The pass -/

/-- The `immData` instructions that name a symbol: their offset is a placeholder. -/
def externImmData (f : FunctionSsa) : List ℕ := f.externImmDataRefs.map Prod.fst

/-- The offset in the unit's data that a value names, `off` bytes further on, over a chain of constant
displacements. -/
def dataAddr (f : FunctionSsa) : ℕ → ℕ → ℤ → Option ℤ
  | 0, _, _ => none
  | n + 1, v, off =>
    match f.insts[v]? with
    | some (.immData base) => if v ∈ externImmData f then none else some (i64 (base + off))
    | some (.binopI .add lhs k) => dataAddr f n lhs (i64 (off + k.toInt))
    | some (.binopI .sub lhs k) => dataAddr f n lhs (i64 (off - k.toInt))
    | _ => none

/-- A constant object as the pass takes it from the symbols. -/
def isConst (s : Symbol) : Bool :=
  s.symClass = .glo && s.storageIsConst && s.hasInitializer && s.definedHere &&
    decide (0 < s.reservedDataBytes) && !s.isWeak

/-- The byte ranges of the constant objects. -/
def constIntervals (P : Program) : List (ℤ × ℤ) :=
  (P.symbols.filter isConst).map fun s => (s.val, s.val + s.reservedDataBytes)

/-- The slots in those ranges that receive an address. -/
def constRelocOffsets (P : Program) : List ℤ :=
  (P.dataRelocs.map fun r => i64 r.dataOffset).filter fun off =>
    (constIntervals P).any fun i => i.1 ≤ off && off < i.2

/-- The offset of the member that a value is loaded from. -/
def member (f : FunctionSsa) (v : ℕ) : Option ℤ :=
  match f.insts[v]? with
  | some (.load addr disp .i64 false _ _) => dataAddr f 16 addr disp
  | _ => none

/-- What the comparison at `i` becomes. -/
def foldAt (offsets : List ℤ) (f : FunctionSsa) (i : ℕ) : Option Inst :=
  match f.insts[i]? with
  | some (.binopI op lhs k) =>
    if (op = .eq ∨ op = .ne) ∧ k = 0 then
      match member f lhs with
      | some off => if off ∈ offsets then some (.imm (boolWord (op = .ne))) else none
      | none => none
    else none
  | _ => none

/-- Replace the comparison at `i`, if it is one. -/
def foldInst (offsets : List ℤ) (f : FunctionSsa) (i : ℕ) : FunctionSsa :=
  match foldAt offsets f i with
  | none => f
  | some inst => { f with insts := f.insts.set i inst }

/-- Replace the comparisons of a function. -/
def runOne (offsets : List ℤ) (f : FunctionSsa) : FunctionSsa :=
  (List.range f.insts.length).foldl (foldInst offsets) f

/-- Replace the null tests of relocated constant members. -/
def run (funcs : List FunctionSsa) (P : Program) : List FunctionSsa :=
  if constIntervals P = [] then funcs
  else if constRelocOffsets P = [] then funcs
  else funcs.map (runOne (constRelocOffsets P))

/-! ## What is replaced -/

/-- A comparison that is replaced. -/
lemma foldAt_eq_some {inst : Inst} : foldAt offsets f i = some inst ↔ ∃ op lhs off,
    f.insts[i]? = some (.binopI op lhs 0) ∧ (op = .eq ∨ op = .ne) ∧ member f lhs = some off ∧
      off ∈ offsets ∧ inst = .imm (boolWord (op = .ne)) := by
  unfold foldAt
  constructor
  · intro h
    split at h
    · rename_i op lhs k hinst
      split at h
      · rename_i hop
        obtain ⟨hop, rfl⟩ := hop
        split at h
        · rename_i off hmember
          split at h
          · rename_i hoff
            exact ⟨op, lhs, off, hinst, hop, hmember, hoff, (Option.some.inj h).symm⟩
          · cases h
        · cases h
      · cases h
    · cases h
  · rintro ⟨op, lhs, off, hinst, hop, hmember, hoff, rfl⟩
    rw [hinst]
    dsimp only
    rw [if_pos ⟨hop, rfl⟩, hmember]
    dsimp only
    rw [if_pos hoff]

/-- Tapes on which some comparisons are replaced. -/
structure Replaced (offsets : List ℤ) (f f' : FunctionSsa) : Prop where
  tables : f' = { f with insts := f'.insts }
  length : f'.insts.length = f.insts.length
  insts : ∀ v, f'.insts[v]? = f.insts[v]? ∨ ∃ inst, foldAt offsets f v = some inst ∧ f'.insts[v]? = some inst

/-- No address is a comparison, so that replacing one leaves the addresses. -/
lemma Replaced.dataAddr (h : Replaced offsets f f') : dataAddr f' n v off = dataAddr f n v off := by
  have hext : externImmData f' = externImmData f := by rw [h.tables, externImmData, externImmData]
  induction n generalizing v off with
  | zero => rfl
  | succ n ih =>
    rw [NullTests.dataAddr, NullTests.dataAddr, hext]
    rcases h.insts v with hv | ⟨inst, hfold, hv⟩
    · rw [hv]
      split
      · rfl
      · exact ih
      · exact ih
      · rfl
    · obtain ⟨op, lhs, m, hinst, hop, _, _, rfl⟩ := foldAt_eq_some.mp hfold
      rw [hv, hinst]
      rcases hop with rfl | rfl <;> rfl

lemma Replaced.member (h : Replaced offsets f f') : member f' v = member f v := by
  rw [NullTests.member, NullTests.member]
  rcases h.insts v with hv | ⟨inst, hfold, hv⟩
  · rw [hv]
    split
    · exact h.dataAddr
    · rfl
  · obtain ⟨op, lhs, m, hinst, _, _, _, rfl⟩ := foldAt_eq_some.mp hfold
    rw [hv, hinst]

lemma Replaced.foldAt (h : Replaced offsets f f') (hi : f'.insts[i]? = f.insts[i]?) :
    foldAt offsets f' i = foldAt offsets f i := by
  refine Option.ext fun inst => ?_
  rw [foldAt_eq_some, foldAt_eq_some, hi]
  simp only [h.member]

/-- The pass replaces each comparison as the tape before it says. -/
lemma runOne_insts (offsets : List ℤ) (f : FunctionSsa) : Replaced offsets f (runOne offsets f) ∧
    ∀ v, (runOne offsets f).insts[v]? = (foldAt offsets f v).or f.insts[v]? := by
  have hloop : ∀ n ≤ f.insts.length, ∀ f', f' = (List.range n).foldl (foldInst offsets) f →
      Replaced offsets f f' ∧ (∀ v < n, f'.insts[v]? = (foldAt offsets f v).or f.insts[v]?) ∧
        ∀ v, n ≤ v → f'.insts[v]? = f.insts[v]? := by
    intro n
    induction n with
    | zero =>
      rintro _ _ rfl
      exact ⟨⟨rfl, rfl, fun v => .inl rfl⟩, fun v hv => absurd hv (Nat.not_lt_zero v), fun _ _ => rfl⟩
    | succ n ih =>
      intro hn f' hf'
      obtain ⟨hrep, hdone, hleft⟩ := ih (by omega) _ rfl
      rw [List.range_succ, List.foldl_append, List.foldl_cons, List.foldl_nil] at hf'
      generalize (List.range n).foldl (foldInst offsets) f = g at hf' hrep hdone hleft
      rw [foldInst, hrep.foldAt (hleft n le_rfl)] at hf'
      cases hfold : foldAt offsets f n with
      | none =>
        rw [hfold] at hf'
        obtain rfl : f' = g := hf'
        refine ⟨hrep, fun v hv => ?_, fun v hv => hleft v (by omega)⟩
        rcases Nat.lt_succ_iff_lt_or_eq.mp hv with hv | rfl
        · exact hdone v hv
        · rw [hfold, hleft v le_rfl, Option.none_or]
      | some inst =>
        rw [hfold] at hf'
        dsimp only at hf'
        have hself : f'.insts[n]? = some inst := by
          rw [hf', List.getElem?_set_self]
          rw [hrep.length]
          omega
        have hother : ∀ v, v ≠ n → f'.insts[v]? = g.insts[v]? := by
          intro v hv
          rw [hf', List.getElem?_set_ne hv.symm]
        refine ⟨⟨?_, ?_, fun v => ?_⟩, fun v hv => ?_, fun v hv => ?_⟩
        · rw [hf', hrep.tables]
        · rw [hf', List.length_set, hrep.length]
        · by_cases hv : v = n
          · subst hv
            exact .inr ⟨inst, hfold, hself⟩
          · rw [hother v hv]
            exact hrep.insts v
        · rcases Nat.lt_succ_iff_lt_or_eq.mp hv with hv | rfl
          · rw [hother v (by omega)]
            exact hdone v hv
          · rw [hself, hfold, Option.some_or]
        · rw [hother v (by omega)]
          exact hleft v (by omega)
  obtain ⟨hrep, hdone, hleft⟩ := hloop _ le_rfl _ rfl
  refine ⟨hrep, fun v => ?_⟩
  by_cases hv : v < f.insts.length
  · exact hdone v hv
  · have hnone : f.insts[v]? = none := List.getElem?_eq_none (by omega)
    have hfold : foldAt offsets f v = none := by
      rw [foldAt, hnone]
    rw [hfold, Option.none_or]
    exact hleft v (by omega)

/-- Where no slot is constant nothing is replaced. -/
lemma run_eq (funcs : List FunctionSsa) (P : Program) :
    run funcs P = funcs.map (runOne (constRelocOffsets P)) := by
  have hid : ∀ g : FunctionSsa, runOne [] g = g := by
    intro g
    obtain ⟨hrep, hinsts⟩ := runOne_insts [] g
    have hnone : ∀ v, foldAt [] g v = none := by
      intro v
      refine Option.eq_none_iff_forall_ne_some.mpr fun inst h => ?_
      obtain ⟨_, _, _, _, _, _, hmem, _⟩ := foldAt_eq_some.mp h
      cases hmem
    have heq : (runOne [] g).insts = g.insts := List.ext_getElem? fun v => by
      rw [hinsts, hnone, Option.none_or]
    rw [hrep.tables, heq]
  have hmap : funcs.map (runOne []) = funcs := by
    rw [List.map_congr_left fun g _ => hid g, List.map_id']
  rw [run]
  split
  · rename_i hnil
    have hoffsets : constRelocOffsets P = [] := by
      rw [constRelocOffsets, hnil]
      simp
    rw [hoffsets, hmap]
  · split
    · rename_i hnil
      rw [hnil, hmap]
    · rfl

/-! ## Runs that modify no constant object -/

/-- A constant object of the data holds the bytes from `lo` to `hi`. -/
def ConstObject (P : Program) (lo hi : ℤ) : Prop :=
  ∃ s ∈ P.symbols, isConst s ∧ s.isThreadLocal = false ∧ s.val ≤ lo ∧ hi ≤ s.val + s.reservedDataBytes

section Runs

variable {L : Link} {m : Machine} {w : World m.Ext} {regs : Regs} {inst : Inst}

/-- The data lies where the link puts it, and no slot receives the null address. -/
structure Linked (P : Program) (L : Link) (m : Machine) (f : FunctionSsa) : Prop where
  immData : ∀ v base, f.insts[v]? = some (.immData base) → v ∉ externImmData f →
    m.link (f.site v (.immData base)) = Mem.offset L.data base
  notNull : ∀ r ∈ P.dataRelocs, P.dataTarget L r ≠ 0

/-- A memory with the bytes of the constant objects as linked. -/
def Keeps (P : Program) (L : Link) (mem : Mem) : Prop :=
  ∃ mem₀, P.Loaded L mem₀ ∧ ∀ lo hi, ConstObject P lo hi → ∀ o, lo ≤ o → o < hi →
    mem (Mem.offset L.data o) = mem₀ (Mem.offset L.data o)

/-- No state of a call has modified a constant object. -/
def Unmodified (P : Program) (L : Link) (m : Machine) (f : FunctionSsa) (w : World m.Ext) : Prop :=
  ∀ s, m.Reaches f w s → Keeps P L s.world.mem

/-- A slot in a constant object holds an address that is not null. -/
lemma Keeps.read_ne_zero {mem : Mem} (hmem : Keeps P L mem) (hnull : ∀ r ∈ P.dataRelocs, P.dataTarget L r ≠ 0)
    (hoff : off ∈ constRelocOffsets P) (hobject : ConstObject P off (off + 8)) :
    BitVec.ofNat 64 (mem.read (Mem.offset L.data off) 8) ≠ 0 := by
  obtain ⟨mem₀, hloaded, hkeep⟩ := hmem
  obtain ⟨r, hr, rfl⟩ := List.mem_map.mp (List.mem_filter.mp hoff).1
  have haddr : Mem.offset L.data (i64 r.dataOffset) = Mem.offset L.data r.dataOffset := by
    rw [Mem.offset, ofInt_i64, Mem.offset]
  have hread : mem.read (Mem.offset L.data (i64 r.dataOffset)) 8 =
      mem₀.read (Mem.offset L.data (i64 r.dataOffset)) 8 := by
    refine Mem.read_congr (by norm_num) fun b hb => ?_
    have hb' : b = Mem.offset L.data (i64 r.dataOffset + (b - Mem.offset L.data (i64 r.dataOffset)).toNat) := by
      rw [← Mem.offset_offset]
      rw [Mem.offset]
      simp only [BitVec.ofInt_natCast, BitVec.ofNat_toNat, BitVec.setWidth_eq]
      grind
    rw [hb']
    exact hkeep _ _ hobject _ (by omega) (by omega)
  rw [hread, haddr, hloaded.dataReloc r hr, BitVec.ofNat_toNat, BitVec.setWidth_eq]
  exact hnull r hr

/-- Registers hold the addresses that the pass reads off the tape, and no null pointer of a member. -/
structure Holds (P : Program) (L : Link) (f : FunctionSsa) (regs : Regs) : Prop where
  addr : ∀ v x, regs v = some x → ∀ n off o, dataAddr f n v off = some o →
    ∃ y : Word, x = .word y ∧ y + BitVec.ofInt 64 off = Mem.offset L.data o
  member : ∀ v x, regs v = some x → ∀ off ∈ constRelocOffsets P, NullTests.member f v = some off →
    ∃ y : Word, x = .word y ∧ y ≠ 0

lemma regs_of_word {y : Word} (h : regs.word v = some y) : regs v = some (.word y) := by
  unfold Regs.word Regs.get at h
  split at h
  · rename_i x hx
    split at hx
    · cases hx
    · rw [hx, Option.some.inj h]
  · cases h

/-- An address that is computed is the one the pass reads off the tape. -/
lemma Holds.exec_addr (hregs : Holds P L f regs) (hlink : Linked P L m f) {r : Regs × World m.Ext}
    (hinst : f.insts[v]? = some inst) (hr : m.exec f v regs w inst = some r)
    (ho : dataAddr f n v off = some o) :
    ∃ y : Word, r.1 v = some (.word y) ∧ y + BitVec.ofInt 64 off = Mem.offset L.data o := by
  cases n with
  | zero => cases ho
  | succ n =>
    rw [dataAddr, hinst] at ho
    split at ho
    · rename_i base heq
      obtain rfl := Option.some.inj heq
      split at ho
      · cases ho
      · rename_i hext
        obtain ⟨x, hx, rfl⟩ := Machine.exec_pure rfl hr
        obtain rfl : m.link (f.site v (.immData base)) = x := Option.some.inj hx
        refine ⟨_, Function.update_self .., ?_⟩
        rw [hlink.immData v base hinst hext, ← Option.some.inj ho, ← Mem.offset, Mem.offset_offset,
          Mem.offset, Mem.offset, ofInt_i64]
    · rename_i lhs k heq
      obtain rfl := Option.some.inj heq
      obtain ⟨x, hx, rfl⟩ := Machine.exec_pure rfl hr
      obtain ⟨y, hy, hx⟩ := Option.bind_eq_some_iff.mp hx
      rw [Machine.binop_plain rfl rfl rfl] at hx
      obtain rfl : y + k = x := Option.some.inj hx
      obtain ⟨z, hz, haddr⟩ := hregs.addr lhs _ (regs_of_word hy) n _ o ho
      obtain rfl := Val.word.inj hz
      refine ⟨_, Function.update_self .., ?_⟩
      rw [← haddr, ofInt_i64, BitVec.ofInt_add, BitVec.ofInt_toInt]
      grind
    · rename_i lhs k heq
      obtain rfl := Option.some.inj heq
      obtain ⟨x, hx, rfl⟩ := Machine.exec_pure rfl hr
      obtain ⟨y, hy, hx⟩ := Option.bind_eq_some_iff.mp hx
      rw [Machine.binop_plain rfl rfl rfl] at hx
      obtain rfl : y - k = x := Option.some.inj hx
      obtain ⟨z, hz, haddr⟩ := hregs.addr lhs _ (regs_of_word hy) n _ o ho
      obtain rfl := Val.word.inj hz
      refine ⟨_, Function.update_self .., ?_⟩
      rw [← haddr, ofInt_i64, Int.sub_eq_add_neg, BitVec.ofInt_add, BitVec.ofInt_neg, BitVec.ofInt_toInt]
      grind
    · cases ho

/-- A pointer that is loaded from a slot of a constant object is not null. -/
lemma Holds.exec_member (hregs : Holds P L f regs) (hlink : Linked P L m f) (hmem : Keeps P L w.mem)
    (htrue : ∀ off ∈ constRelocOffsets P, ConstObject P off (off + 8)) {r : Regs × World m.Ext}
    (hinst : f.insts[v]? = some inst) (hr : m.exec f v regs w inst = some r)
    (hoff : off ∈ constRelocOffsets P) (hmember : NullTests.member f v = some off) :
    ∃ y : Word, r.1 v = some (.word y) ∧ y ≠ 0 := by
  rw [NullTests.member, hinst] at hmember
  split at hmember
  · rename_i addr disp align pcRel heq
    obtain rfl := Option.some.inj heq
    obtain ⟨a, ha, rfl⟩ := Machine.execLoad_eq_some.mp hr
    obtain ⟨y, hy, rfl⟩ := Option.map_eq_some_iff.mp ha
    obtain ⟨z, hz, haddr⟩ := hregs.addr addr _ (regs_of_word hy) 16 disp off hmember
    obtain rfl := Val.word.inj hz
    refine ⟨_, Function.update_self .., ?_⟩
    rw [haddr]
    exact hmem.read_ne_zero hlink.notNull hoff (htrue off hoff)
  · cases hmember

/-- A step keeps what the registers hold. -/
lemma Holds.exec (hregs : Holds P L f regs) (hlink : Linked P L m f) (hmem : Keeps P L w.mem)
    (htrue : ∀ off ∈ constRelocOffsets P, ConstObject P off (off + 8)) {r : Regs × World m.Ext}
    (hinst : f.insts[v]? = some inst) (hr : m.exec f v regs w inst = some r) : Holds P L f r.1 := by
  obtain ⟨x', hx'⟩ := Machine.exec_regs hr
  have hother : ∀ u, u ≠ v → r.1 u = regs u := fun u hu => by
    rw [hx', Regs.set, Function.update_of_ne hu]
  constructor
  · intro u x hx n off o ho
    by_cases hu : u = v
    · subst hu
      obtain ⟨y, hy, haddr⟩ := hregs.exec_addr hlink hinst hr ho
      exact ⟨y, Option.some.inj (hx.symm.trans hy), haddr⟩
    · exact hregs.addr u x (by rw [← hother u hu, hx]) n off o ho
  · intro u x hx off hoff hmember
    by_cases hu : u = v
    · subst hu
      obtain ⟨y, hy, hne⟩ := hregs.exec_member hlink hmem htrue hinst hr hoff hmember
      exact ⟨y, Option.some.inj (hx.symm.trans hy), hne⟩
    · exact hregs.member u x (by rw [← hother u hu, hx]) off hoff hmember

/-- Entering a block sets phis alone. -/
lemma Holds.enterRegs (hregs : Holds P L f regs) (p : ℕ) (blk : Block) :
    Holds P L f (enterRegs f p blk regs) := by
  have hphi : ∀ v, Badc.enterRegs f p blk regs v = regs v ∨ ∃ incoming kind, f.insts[v]? = some (.phi incoming kind) := by
    intro v
    unfold Badc.enterRegs
    split
    · split
      · rename_i incoming kind hinst
        exact .inr ⟨incoming, kind, hinst⟩
      · exact .inl rfl
    · exact .inl rfl
  constructor
  · intro v x hx n off o ho
    rcases hphi v with hv | ⟨incoming, kind, hinst⟩
    · exact hregs.addr v x (hv ▸ hx) n off o ho
    · cases n with
      | zero => cases ho
      | succ n =>
        rw [dataAddr, hinst] at ho
        cases ho
  · intro v x hx off hoff hmember
    rcases hphi v with hv | ⟨incoming, kind, hinst⟩
    · exact hregs.member v x (hv ▸ hx) off hoff hmember
    · rw [NullTests.member, hinst] at hmember
      cases hmember

lemma holds_of_reaches (hlink : Linked P L m f) (hmod : Unmodified P L m f w)
    (htrue : ∀ off ∈ constRelocOffsets P, ConstObject P off (off + 8)) {s : State m.Ext}
    (hs : m.Reaches f w s) : Holds P L f s.regs := by
  induction hs with
  | initial => exact ⟨fun _ _ h => (nomatch h), fun _ _ h => (nomatch h)⟩
  | step hs hstep ih =>
    obtain ⟨blk, _, ⟨_, inst, r, hinst, hr, rfl⟩ | ⟨_, b, blk', _, _, rfl⟩⟩ := Machine.step_cases hstep
    · exact ih.exec hlink (hmod _ hs) htrue hinst hr
    · exact ih.enterRegs _ _

/-- A comparison that is replaced has its value. -/
lemma exec_of_foldAt (hlink : Linked P L m f) (hmod : Unmodified P L m f w) (hcmp : ∀ i, isCmp32 f i = false)
    (htrue : ∀ off ∈ constRelocOffsets P, ConstObject P off (off + 8)) {s : State m.Ext}
    (hs : m.Reaches f w s) {k : Word} {r : Regs × World m.Ext} (hinst : f.insts[s.pc]? = some inst)
    (hfold : foldAt (constRelocOffsets P) f s.pc = some (.imm k))
    (hr : m.exec f s.pc s.regs s.world inst = some r) :
    r = (s.regs.set s.pc (some (.word k)), s.world) := by
  obtain ⟨op, lhs, off, hop', hop, hmember, hoff, himm⟩ := foldAt_eq_some.mp hfold
  obtain rfl := Option.some.inj (hinst.symm.trans hop')
  obtain rfl := Inst.imm.inj himm
  obtain ⟨x, hx, rfl⟩ := Machine.exec_pure rfl hr
  obtain ⟨y, hy, hx⟩ := Option.bind_eq_some_iff.mp hx
  obtain ⟨z, hz, hne⟩ := (holds_of_reaches hlink hmod htrue hs).member lhs _ (regs_of_word hy) off hoff hmember
  obtain rfl := Val.word.inj hz
  have hvalue : x = boolWord (op = .ne) := by
    rcases hop with rfl | rfl
    · have hx' : x = if y = 0#64 then 1#64 else 0#64 := by
        simpa [Machine.binop, isFpOp, isFpArithOp, isFpComparisonOp, isDivmodOp, isIntComparisonOp, hcmp,
          Machine.divTraps, applyBinop, boolWord] using hx.symm
      exact hx'.trans (if_neg hne)
    · have hx' : x = if y = 0#64 then 0#64 else 1#64 := by
        simpa [Machine.binop, isFpOp, isFpArithOp, isFpComparisonOp, isDivmodOp, isIntComparisonOp, hcmp,
          Machine.divTraps, applyBinop, boolWord] using hx.symm
      exact hx'.trans (if_neg hne)
  rw [hvalue]

end Runs

section Step

variable {m : Machine} {s : State m.Ext}

lemma Replaced.enterRegs (h : Replaced offsets f f') (p : ℕ) (blk : Block) (regs : Regs) :
    enterRegs f' p blk regs = enterRegs f p blk regs := by
  funext v
  unfold Badc.enterRegs
  rcases h.insts v with hv | ⟨inst, hfold, hv⟩
  · rw [hv]
  · obtain ⟨op, lhs, m, hinst, _, _, _, rfl⟩ := foldAt_eq_some.mp hfold
    rw [hv, hinst]

lemma Replaced.leave (h : Replaced offsets f f') (term : Terminator) : m.leave f' s term = m.leave f s term := by
  have hbranch : m.branchTo f' s term = m.branchTo f s term := by
    rw [h.tables]
    rfl
  have hgo : ∀ b, s.goTo f' b = s.goTo f b := by
    intro b
    have hblocks : f'.blocks = f.blocks := by rw [h.tables]
    simp only [State.goTo, h.enterRegs, hblocks]
  cases term <;> simp only [Machine.leave, hbranch, hgo]

/-- A step of a tape on which comparisons are replaced by their values. -/
lemma Replaced.step (h : Replaced offsets f f') {r : Status m.Ext}
    (hvalue : ∀ inst k r, f.insts[s.pc]? = some inst → NullTests.foldAt offsets f s.pc = some (.imm k) →
      m.exec f s.pc s.regs s.world inst = some r → r = (s.regs.set s.pc (some (.word k)), s.world))
    (hr : m.step f s = some r) : m.step f' s = some r := by
  have hblocks : f'.blocks = f.blocks := by rw [h.tables]
  have hexec : ∀ inst, m.exec f' s.pc s.regs s.world inst = m.exec f s.pc s.regs s.world inst := by
    intro inst
    rw [h.tables]
    rfl
  rw [Machine.step] at hr ⊢
  rw [hblocks]
  cases hblk : f.blocks[s.block]? with
  | none =>
    rw [hblk] at hr
    cases hr
  | some blk =>
    rw [hblk] at hr
    dsimp only at hr ⊢
    split at hr
    · rename_i hpc
      rw [if_pos hpc]
      cases hinst : f.insts[s.pc]? with
      | none =>
        rw [hinst] at hr
        cases hr
      | some inst =>
        rw [hinst] at hr
        obtain ⟨r', hr', rfl⟩ := Option.map_eq_some_iff.mp hr
        rcases h.insts s.pc with hv | ⟨inst', hfold, hv⟩
        · rw [hv, hinst]
          dsimp only
          rw [hexec, hr']
          rfl
        · obtain ⟨op, lhs, off, _, _, _, _, rfl⟩ := foldAt_eq_some.mp hfold
          rw [hv, hvalue inst _ r' hinst hfold hr']
          rfl
    · rename_i hpc
      rw [if_neg hpc, h.leave]
      exact hr

end Step

/-- What the pass does to a function of a unit: each load it reads belongs to a constant object of the data, each
comparison it replaces has its value, and the result has the function's runs. -/
structure Sound (P : Program) (f : FunctionSsa) : Prop where
  member : ∀ i op lhs off, f.insts[i]? = some (.binopI op lhs 0) → NullTests.member f lhs = some off →
    (foldAt (constRelocOffsets P) f i).isSome → ConstObject P off (off + 8)
  value : ∀ (L : Link) (m : Machine) (w : World m.Ext), Linked P L m f → Unmodified P L m f w →
    (∀ i, isCmp32 f i = false) → ∀ s, m.Reaches f w s → ∀ inst k r, f.insts[s.pc]? = some inst →
    foldAt (constRelocOffsets P) f s.pc = some (.imm k) → m.exec f s.pc s.regs s.world inst = some r →
    r = (s.regs.set s.pc (some (.word k)), s.world)
  runs : ∀ (L : Link) (m : Machine) (w : World m.Ext), Linked P L m f → Unmodified P L m f w →
    (∀ i, isCmp32 f i = false) → ∀ f' ∈ run [f] P, ∀ n r, m.run f n (m.initial f w) = some r →
    m.run f' n (m.initial f' w) = some r

/-- The test of the member at an offset. -/
def testOf (off : ℤ) : FunctionSsa where
  insts := [.immData off, .load 0 0 .i64 false 0 false, .binopI .eq 1 0]
  blocks := [{ instRange := ⟨0, 3⟩, terminator := .ret 2 }]

/-- **What the pass replaces has its value in every run that modifies no constant object exactly where the slots
it takes to lie in constant objects do.** -/
theorem run_sound_iff (P : Program) :
    (∀ f, Sound P f) ↔ ∀ off ∈ constRelocOffsets P, ConstObject P off (off + 8) := by
  constructor
  · intro h off hoff
    have hi64 : i64 off = off := by
      obtain ⟨r, _, rfl⟩ := List.mem_map.mp (List.mem_filter.mp hoff).1
      rw [i64, i64, BitVec.ofInt_toInt]
    have hmember : member (testOf off) 1 = some off := by
      show some (i64 (off + 0)) = some off
      rw [Int.add_zero, hi64]
    refine (h (testOf off)).member 2 .eq 1 off rfl hmember ?_
    rw [foldAt_eq_some.mpr ⟨.eq, 1, off, rfl, .inl rfl, hmember, hoff, rfl⟩]
    rfl
  · intro htrue f
    refine ⟨fun i op lhs off hinst hmember hsome => ?_,
      fun L m w hlink hmod hcmp s hs inst k r hinst hfold hr => exec_of_foldAt hlink hmod hcmp htrue hs hinst hfold hr,
      fun L m w hlink hmod hcmp f' hf' n r hrun => ?_⟩
    · obtain ⟨inst, hfold⟩ := Option.isSome_iff_exists.mp hsome
      obtain ⟨op', lhs', off', hinst', _, hmember', hoff, _⟩ := foldAt_eq_some.mp hfold
      obtain ⟨-, rfl, -⟩ := Inst.binopI.inj (Option.some.inj (hinst.symm.trans hinst'))
      obtain rfl := Option.some.inj (hmember.symm.trans hmember')
      exact htrue off hoff
    · rw [run_eq] at hf'
      obtain rfl : f' = runOne (constRelocOffsets P) f := List.mem_singleton.mp hf'
      obtain ⟨hrep, hinsts⟩ := runOne_insts (constRelocOffsets P) f
      generalize runOne (constRelocOffsets P) f = f' at hrep hinsts
      have hinit : m.initial f' w = m.initial f w := by rw [hrep.tables]; rfl
      refine Machine.run_eq_of_step hinit (fun s hs r hr => ?_) hrun
      exact hrep.step (fun inst k r => exec_of_foldAt hlink hmod hcmp htrue hs) hr

/-! ## A thread-local constant -/

/-- A unit with a thread-local constant and a writable pointer, each at offset zero of its image. -/
def unitWithTls : Program where
  data := List.replicate 16 0
  symbols := [
    { name := "t", storageIsConst := true, hasInitializer := true, definedHere := true,
      reservedDataBytes := 8, isThreadLocal := true },
    { name := "p", hasInitializer := true, definedHere := true, reservedDataBytes := 8 }]
  dataRelocs := [⟨0, 8, 8, none⟩]

/-- Sets the pointer to null and tests it. -/
def clearAndTest : FunctionSsa where
  insts := [.immData 0, .imm 0, .store 0 0 1 .i64 false 0 false, .load 0 0 .i64 false 0 false, .binopI .eq 3 0]
  blocks := [{ instRange := ⟨0, 5⟩, terminator := .ret 4 }]

/-- The unit's data at 4096. -/
def linkAt : Link := ⟨4096, fun _ => 0, fun _ => 0, fun _ => 0⟩

/-- A machine with the unit's data at 4096. -/
def machineAt : Machine :=
  { Machine.null with
    link := fun s => match s.shape with
      | .immData off => Mem.offset 4096 off
      | _ => 0 }

/-- The unit's data as linked. -/
def linkedMem : Mem := Mem.write (fun _ => 0) 4096 8 4104

/-- The runs that start in the linked memory modify no constant object: there is none. -/
lemma unmodified_clearAndTest : Linked unitWithTls linkAt machineAt clearAndTest ∧
    Unmodified unitWithTls linkAt machineAt clearAndTest ⟨linkedMem, ()⟩ := by
  have hno : ∀ lo hi, ¬ConstObject unitWithTls lo hi := by
    rintro lo hi ⟨s, hs, hconst, htls, -⟩
    simp only [unitWithTls, List.mem_cons, List.not_mem_nil, or_false] at hs
    rcases hs with rfl | rfl
    · cases htls
    · exact absurd hconst (by decide)
  have hloaded : unitWithTls.Loaded linkAt linkedMem := by
    refine ⟨?_, fun _ h => (nomatch h), fun _ h => (nomatch h), fun o x ho hslot => ?_, ?_⟩
    · intro r hr
      obtain rfl : r = ⟨0, 8, 8, none⟩ := List.mem_singleton.mp hr
      decide +kernel
    · have hlt : o < 16 := (List.getElem?_eq_some_iff.mp ho).1
      have hslots : ¬(0 ≤ (o : ℤ) ∧ (o : ℤ) < 8) := fun h => hslot ⟨0, by decide, by omega, by omega⟩
      interval_cases o <;> first | omega | exact Option.some.inj ho
    · rintro o ⟨i, hi, -⟩
      exact absurd hi (by rw [show unitWithTls.constIntervals = [] from rfl]; exact List.not_mem_nil)
  refine ⟨⟨fun v base hinst _ => rfl, fun r hr => ?_⟩,
    fun s _ => ⟨linkedMem, hloaded, fun lo hi h => absurd h (hno lo hi)⟩⟩
  obtain rfl : r = ⟨0, 8, 8, none⟩ := List.mem_singleton.mp hr
  decide +kernel

/-- The pointer is null and its test with zero yields 1; the pass replaces the test by 0. -/
theorem clearAndTest_not_sound : ¬Sound unitWithTls clearAndTest ∧
    (∃ w, machineAt.run clearAndTest 6 (machineAt.initial clearAndTest ⟨linkedMem, ()⟩) =
      some (.returned (some (.word 1)) w)) ∧
    ∃ f' ∈ run [clearAndTest] unitWithTls, ∃ w,
      machineAt.run f' 6 (machineAt.initial f' ⟨linkedMem, ()⟩) = some (.returned (some (.word 0)) w) := by
  obtain ⟨f', hf', w', hzero⟩ : ∃ f' ∈ run [clearAndTest] unitWithTls, ∃ w,
      machineAt.run f' 6 (machineAt.initial f' ⟨linkedMem, ()⟩) = some (.returned (some (.word 0)) w) := by
    refine ⟨runOne (constRelocOffsets unitWithTls) clearAndTest, ?_, _, rfl⟩
    rw [run_eq]
    exact List.mem_singleton.mpr rfl
  have hone : ∃ w, machineAt.run clearAndTest 6 (machineAt.initial clearAndTest ⟨linkedMem, ()⟩) =
      some (.returned (some (.word 1)) w) := ⟨_, rfl⟩
  refine ⟨fun hsound => ?_, hone, f', hf', w', hzero⟩
  obtain ⟨w, hw⟩ := hone
  obtain ⟨hlink, hmod⟩ := unmodified_clearAndTest
  have hsame := hsound.runs linkAt machineAt _ hlink hmod (fun _ => rfl) f' hf' 6 _ hw
  rw [hzero] at hsame
  have hval := (Status.returned.inj (Option.some.inj hsame)).1
  cases hval

end Badc.NullTests
