import Badc.Passes.CopyElideTape
import Badc.Ssa.Machine

/-!
# Alignment of redirected writes

An access states an alignment of its address (`Truthful`).  The writes of an elided temporary go to the destination
at the offset they had in the temporary and state what they stated there (`Decided.redirected_write`).  So they
tell the truth exactly where the destination's address, with that offset, has the alignment
(`redirected_truthful_iff`); the bound the copy states is not asked.
-/

namespace Badc.CopyElide

/-! ## Stated alignments -/

/-- The alignment an `align` field stands for; zero is the natural one. -/
def statedAlign (align natural : ℕ) : ℕ := if align = 0 then natural else align

/-- Natural alignment of a load. -/
def loadAlign : LoadKind → ℕ
  | .f80 | .f128 | .v128 => 16
  | kind => loadWidth kind

/-- Natural alignment of a store. -/
def storeAlign (kind : StoreKind) : ℕ := (spanWidth kind).toNat

/-- What an instruction states of its addresses: an operand with a displacement, and an alignment.  A fill or a copy
without a bound states nothing. -/
def bounds : Inst → List (ℕ × ℤ × ℕ)
  | .load addr disp kind _ align _ => [(addr, disp, statedAlign align (loadAlign kind))]
  | .store addr disp _ kind _ align _ => [(addr, disp, statedAlign align (storeAlign kind))]
  | .mzero dst _ align => [(dst, 0, statedAlign align 1)]
  | .mcpy dst src _ align => [(dst, 0, statedAlign align 1), (src, 0, statedAlign align 1)]
  | _ => []

/-- Whether the addresses have the alignments that the instruction states. -/
def Truthful (regs : Regs) (inst : Inst) : Prop :=
  ∀ p ∈ bounds inst, ∀ x, regs.word p.1 = some x → p.2.2 ∣ (x + BitVec.ofInt 64 p.2.1).toNat

/-- The instructions that form addresses without memory. -/
def isAddress : Inst → Bool
  | .localAddr _ | .immData _ | .binopI .add _ _ => true
  | _ => false

/-- Registers that hold the addresses a function forms. -/
def Addressed (m : Machine) (f : FunctionSsa) (regs : Regs) : Prop :=
  ∀ v inst, f.insts[v]? = some inst → isAddress inst = true → regs.word v = m.pureWord f v regs inst

/-- The fixup tables of a function: a data address has one symbol at most, frame addresses and data addresses have
no others, and none is single precision. -/
structure SymbolTables (f : FunctionSsa) : Prop where
  data : ∀ p ∈ f.externImmDataRefs, ∃ off, f.insts[p.1]? = some (.immData off)
  one : ∀ k x y, (k, x) ∈ f.externImmDataRefs → (k, y) ∈ f.externImmDataRefs → x = y
  others : ∀ p ∈ f.externCallRefs ++ f.externImmCodeRefs ++ f.externTlsRefs, ∀ off,
    f.insts[p.1]? ≠ some (.localAddr off) ∧ f.insts[p.1]? ≠ some (.immData off)
  single : ∀ v off, f.insts[v]? = some (.localAddr off) ∨ f.insts[v]? = some (.immData off) →
    isMarked f.f32Values v = false

/-- The elisions by a plan. -/
def elisions (fr : FrameInfo) (f : FunctionSsa) : List Elision :=
  if fr.syntheticBase ≤ 0 ∨ !f.insts.any (fun inst => match inst with | .mcpy .. => true | _ => false) then []
  else (decideAll fr f).elisions

/-- A write into the temporary of an elision, at an offset from its start. -/
def Redirected (f : FunctionSsa) (e : Elision) (w : ℕ) (off : ℤ) : Prop :=
  ∃ b, (f.insts[w]?).bind writeAddr = some b ∧ base f b = some (e.slot, off)

variable {m : Machine} {fr : FrameInfo} {f : FunctionSsa} {r : Run} {e : Elision} {regs : Regs} {inst : Inst}
  {a b d w : ℕ} {off : ℤ}

/-- What a write states. -/
def writeBound : Inst → ℤ × ℕ
  | .store _ disp _ kind _ align _ => (disp, statedAlign align (storeAlign kind))
  | .mzero _ _ align => (0, statedAlign align 1)
  | _ => (0, 1)

lemma bounds_of_writeAddr (h : writeAddr inst = some b) : bounds inst = [(b, writeBound inst)] := by
  rcases writeAddr_eq_some h with ⟨_, _, _, _, _, _, rfl⟩ | ⟨_, _, rfl⟩
  · rfl
  · rfl

lemma bounds_redirect (h : writeAddr inst = some b) : bounds (redirect d off inst) = [(d, writeBound inst)] := by
  rcases writeAddr_eq_some h with ⟨_, _, _, _, _, _, rfl⟩ | ⟨_, _, rfl⟩
  · rfl
  · rfl

/-! ## What is left alone -/

lemma foldl_nameAt_tables (l : List (ℕ × ℕ)) (f : FunctionSsa) :
    (l.foldl nameAt f).externCallRefs = f.externCallRefs ∧
      (l.foldl nameAt f).externImmCodeRefs = f.externImmCodeRefs ∧
      (l.foldl nameAt f).externTlsRefs = f.externTlsRefs ∧ (l.foldl nameAt f).f32Values = f.f32Values := by
  induction l generalizing f with
  | nil => exact ⟨rfl, rfl, rfl, rfl⟩
  | cons p l ih => exact ih (nameAt f p)

lemma apply_tables (r : Run) (f : FunctionSsa) :
    (apply r f).externCallRefs = f.externCallRefs ∧ (apply r f).externImmCodeRefs = f.externImmCodeRefs ∧
      (apply r f).externTlsRefs = f.externTlsRefs ∧ (apply r f).f32Values = f.f32Values := by
  by_cases hnil : r.elided = []
  · rw [apply, if_pos hnil]
    exact ⟨rfl, rfl, rfl, rfl⟩
  · rw [apply_eq hnil]
    exact foldl_nameAt_tables r.namedAt _

/-- The symbol of an address is its data symbol. -/
lemma symbolOf_eq {g : FunctionSsa} {v : ℕ}
    (hothers : ∀ p ∈ g.externCallRefs ++ g.externImmCodeRefs ++ g.externTlsRefs, p.1 ≠ v)
    (hone : ∀ x y, (v, x) ∈ g.externImmDataRefs → (v, y) ∈ g.externImmDataRefs → x = y) (x : ℕ) :
    g.symbolOf v = some x ↔ (v, x) ∈ g.externImmDataRefs := by
  have hmem : ∀ x, (v, x) ∈ g.externCallRefs ++ g.externImmCodeRefs ++ g.externImmDataRefs ++ g.externTlsRefs ↔
      (v, x) ∈ g.externImmDataRefs := by
    intro x
    simp only [List.mem_append]
    constructor
    · rintro (((h | h) | h) | h)
      · exact absurd rfl (hothers (v, x) (by simp [h]))
      · exact absurd rfl (hothers (v, x) (by simp [h]))
      · exact h
      · exact absurd rfl (hothers (v, x) (by simp [h]))
    · exact fun h => .inl (.inr h)
  rw [FunctionSsa.symbolOf, lookup_eq_some_iff_mem, hmem]
  exact fun x y hx hy => hone x y ((hmem x).mp hx) ((hmem y).mp hy)

/-- A base that takes a data address is linked as the destination is. -/
lemma Decided.site_root (h : Decided f r) (hf : SymbolTables f) (he : e ∈ r.elisions) (hdirect : e.direct = false)
    (hroot : a ∈ e.plan.roots) (hdst : f.insts[e.dst]? = some (.immData off)) :
    (apply r f).site a (.immData off) = (apply r f).site e.dst (.immData off) := by
  have hlocal := (h.planned e he).of_root (h.slot_neg he) hroot
  have hnone : ∀ x, (a, x) ∉ f.externImmDataRefs := fun x hx => by
    obtain ⟨o, hdata⟩ := hf.data (a, x) hx
    cases Option.some.inj (hlocal.symm.trans hdata)
  have hmem := fun k x => h.mem_apply_immData (h.elided_ne_nil he) (k := k) (x := x) hf.one
  -- The base has the destination's symbol, and the destination keeps its own.
  have ha : ∀ x, (a, x) ∈ (apply r f).externImmDataRefs ↔ (e.dst, x) ∈ f.externImmDataRefs := by
    intro x
    rw [hmem]
    constructor
    · rintro (hx | ⟨d, hd, hx⟩)
      · exact absurd hx (hnone x)
      · obtain ⟨e', he', _, rfl, hroot'⟩ := (h.namedAt a d).mp hd
        have hlocal' := (h.planned e' he').of_root (h.slot_neg he') hroot'
        rwa [h.unique e he e' he' (Inst.localAddr.inj (Option.some.inj (hlocal.symm.trans hlocal')))]
    · exact fun hx => .inr ⟨e.dst, (h.namedAt a e.dst).mpr ⟨e, he, hdirect, rfl, hroot⟩, hx⟩
  have hd : ∀ x, (e.dst, x) ∈ (apply r f).externImmDataRefs ↔ (e.dst, x) ∈ f.externImmDataRefs := by
    intro x
    rw [hmem]
    exact or_iff_left fun ⟨d, hd, _⟩ => h.dst_not_named he (e.dst, d) hd rfl
  obtain ⟨hcalls, hcode, htls, hf32⟩ := apply_tables r f
  have hothers : ∀ v o, f.insts[v]? = some (.localAddr o) ∨ f.insts[v]? = some (.immData o) →
      ∀ p ∈ (apply r f).externCallRefs ++ (apply r f).externImmCodeRefs ++ (apply r f).externTlsRefs, p.1 ≠ v := by
    rintro v o hv p hp rfl
    rw [hcalls, hcode, htls] at hp
    have hnot := hf.others p hp o
    rcases hv with hv | hv
    · exact hnot.1 hv
    · exact hnot.2 hv
  have hsymbol : (apply r f).symbolOf a = (apply r f).symbolOf e.dst := by
    refine Option.ext fun x => ?_
    rw [symbolOf_eq (hothers a e.slot (.inl hlocal)), symbolOf_eq (hothers e.dst off (.inr hdst)), ha, hd]
    · exact fun x y hx hy => hf.one e.dst x y ((hd x).mp hx) ((hd y).mp hy)
    · exact fun x y hx hy => hf.one e.dst x y ((ha x).mp hx) ((ha y).mp hy)
  have hsingle : isMarked (apply r f).f32Values a = isMarked (apply r f).f32Values e.dst := by
    rw [hf32]
    exact (hf.single a e.slot (.inl hlocal)).trans (hf.single e.dst off (.inr hdst)).symm
  rw [FunctionSsa.site, FunctionSsa.site, hsymbol, hsingle]

/-! ## The addresses of the writes -/

lemma Addressed.add {g : FunctionSsa} {lhs : ℕ} {k : Word} (h : Addressed m g regs)
    (ha : g.insts[a]? = some (.binopI .add lhs k)) : regs.word a = (regs.word lhs).map fun x => x + k := by
  rw [h a _ ha rfl, Machine.pureWord]
  cases regs.word lhs with
  | none => rfl
  | some x => exact (Machine.binop_plain rfl rfl rfl : m.binop g a .add x k = applyBinop .add x k)

/-- A base that takes the destination's address holds it. -/
lemma Decided.word_root (h : Decided f r) (hf : SymbolTables f) (hregs : Addressed m (apply r f) regs)
    (he : e ∈ r.elisions) (hdirect : e.direct = false) (hroot : a ∈ e.plan.roots)
    (hlive : isLive (edited r f) a = true) : regs.word a = regs.word e.dst := by
  obtain ⟨off, hdst⟩ := h.address e he hdirect
  have hne := h.elided_ne_nil he
  rcases hdst with hdst | hdst
  · have haddress : ∃ o, Inst.localAddr off = .localAddr o ∨ Inst.localAddr off = .immData o := ⟨off, .inl rfl⟩
    rw [hregs a _ (apply_of_live hne (h.edited_root he hdirect hroot hdst haddress) hlive) rfl,
      hregs e.dst _ (apply_of_live hne (h.edited_dst he hdst haddress) (h.dst_live he)) rfl]
    rfl
  · have haddress : ∃ o, Inst.immData off = .localAddr o ∨ Inst.immData off = .immData o := ⟨off, .inr rfl⟩
    rw [hregs a _ (apply_of_live hne (h.edited_root he hdirect hroot hdst haddress) hlive) rfl,
      hregs e.dst _ (apply_of_live hne (h.edited_dst he hdst haddress) (h.dst_live he)) rfl,
      Machine.pureWord, Machine.pureWord, h.site_root hf he hdirect hroot hdst]

/-- Where a temporary's base takes the destination's address, the additions to it add to that.  By induction along
the additions: each is read by the next one, and the last by a write. -/
lemma Decided.word_address (h : Decided f r) (hf : SymbolTables f) (hregs : Addressed m (apply r f) regs)
    (he : e ∈ r.elisions) (hdirect : e.direct = false) {n : ℕ} (hb : baseOf f n a = some (e.slot, off))
    (hn : n ≤ f.insts.length + 1) (hreach : Reached f (addrsOf f e.slot e.start e.mcpy) e.mcpy a)
    (hlive : isLive (edited r f) a = true) :
    regs.word a = (regs.word e.dst).map fun x => x + BitVec.ofInt 64 off := by
  have hplan := h.planned e he
  obtain ⟨src, size, align, hmcpy, _⟩ := h.copy e he
  induction n generalizing a off with
  | zero => cases hb
  | succ n ih =>
    rcases baseOf_succ hb with ⟨hlocal, _, rfl⟩ | ⟨lhs, k, o, hadd, hlhs, rfl⟩
    · rw [h.word_root hf hregs he hdirect (hplan.root_of_use hlocal hreach) hlive]
      cases regs.word e.dst with
      | none => rfl
      | some x => simp
    · have hbase : base f a = some (e.slot, o + k.toInt) := baseOf_mono hn hb
      have hedited := h.edited_addition he hdirect hadd hbase
      obtain ⟨u, hu, _⟩ := hreach
      have haddr := hplan.addrsOf_of_base (h.slot_neg he) hmcpy hbase (List.ne_nil_of_mem hu)
      have hreach' : Reached f (addrsOf f e.slot e.start e.mcpy) e.mcpy lhs := by
        refine ⟨a, mem_users hadd (.head _), ?_, _, hadd, .inr (by rw [haddr]; rfl)⟩
        rintro rfl
        cases Option.some.inj (hmcpy.symm.trans hadd)
      rw [hregs.add (apply_of_edited (h.elided_ne_nil he) hedited fun _ => nofun),
        ih hlhs (by omega) hreach' (isLive_of_operand hedited (.head _)), BitVec.ofInt_add]
      cases regs.word e.dst with
      | none => rfl
      | some x => simp [BitVec.add_assoc]

/-- **A write of an elided temporary goes to the destination, at its offset in the temporary, and states what it
stated.** -/
theorem Decided.redirected_write (h : Decided f r) (hf : SymbolTables f) (hregs : Addressed m (apply r f) regs)
    (he : e ∈ r.elisions) (hinst : f.insts[w]? = some inst) (hw : writeAddr inst = some b)
    (hb : base f b = some (e.slot, off)) :
    ∃ inst' b', (apply r f).insts[w]? = some inst' ∧ bounds inst' = [(b', writeBound inst)] ∧
      regs.word b' = (regs.word e.dst).map fun x => x + BitVec.ofInt 64 off := by
  have hne := h.elided_ne_nil he
  have hplan := h.planned e he
  obtain ⟨src, size, align, hmcpy, _⟩ := h.copy e he
  have hbind : (f.insts[w]?).bind writeAddr = some b := by rw [hinst]; exact hw
  have hedited := h.edited_write he hinst hw hb
  by_cases hbase : e.direct = true ∧ off = 0
  · -- The write takes the destination.
    rw [if_pos hbase] at hedited
    obtain ⟨_, rfl⟩ := hbase
    refine ⟨_, e.dst, apply_of_edited hne hedited ?_, bounds_redirect hw, ?_⟩
    · rcases writeAddr_eq_some hw with ⟨_, _, _, _, _, _, rfl⟩ | ⟨_, _, rfl⟩
      · exact fun _ => nofun
      · exact fun _ => nofun
    · cases regs.word e.dst with
      | none => rfl
      | some x => simp
  · rw [if_neg hbase] at hedited
    refine ⟨inst, b, apply_of_edited hne hedited (plain_of_writeAddr hw).2.1, bounds_of_writeAddr hw, ?_⟩
    cases hdirect : e.direct with
    | true =>
      -- The interior address takes the destination.
      have hoff : off ≠ 0 := fun heq => hbase ⟨hdirect, heq⟩
      rcases baseOf_succ hb with ⟨_, _, rfl⟩ | ⟨lhs, k, o, hadd, _, _⟩
      · exact absurd rfl hoff
      · exact hregs.add (apply_of_edited hne (h.edited_interior he hdirect hadd hb
          (hplan.redirect_interior (h.slot_neg he) hmcpy hbind hb hoff)) fun _ => nofun)
    | false =>
      -- The base takes the destination's instruction.
      refine h.word_address hf hregs he hdirect hb le_rfl (hplan.reached (h.slot_neg he) hmcpy hbind hb) ?_
      refine isLive_of_operand hedited ?_
      rcases writeAddr_eq_some hw with ⟨_, _, _, _, _, _, rfl⟩ | ⟨_, _, rfl⟩
      · exact .head _
      · exact .head _

lemma runOne_of_elisions (he : e ∈ elisions fr f) :
    runOne fr f = apply (decideAll fr f) f ∧ e ∈ (decideAll fr f).elisions := by
  unfold elisions at he
  split at he
  · cases he
  · rename_i hcond
    exact ⟨if_neg hcond, he⟩

/-- **The redirected writes state alignments their addresses have if and only if, for each of them, the
destination's address has the alignment at the offset that the write has in the temporary.** -/
theorem redirected_truthful_iff (hf : SymbolTables f) (hregs : Addressed m (runOne fr f) regs) :
    (∀ e ∈ elisions fr f, ∀ w off, Redirected f e w off →
      ∀ inst, (runOne fr f).insts[w]? = some inst → Truthful regs inst) ↔
    ∀ e ∈ elisions fr f, ∀ w off, Redirected f e w off →
      ∀ inst, f.insts[w]? = some inst → ∀ x, regs.word e.dst = some x →
        (writeBound inst).2 ∣ (x + BitVec.ofInt 64 off + BitVec.ofInt 64 (writeBound inst).1).toNat := by
  refine forall₂_congr fun e he => forall₃_congr fun w off hred => ?_
  obtain ⟨hrun, he⟩ := runOne_of_elisions he
  rw [hrun] at hregs ⊢
  obtain ⟨b, hbind, hb⟩ := hred
  obtain ⟨inst, hinst, hw⟩ := Option.bind_eq_some_iff.mp hbind
  obtain ⟨inst', b', hinst', hbounds, hword⟩ :=
    (decided_decideAll fr f).redirected_write hf hregs he hinst hw hb
  rw [hinst, hinst']
  constructor
  · rintro htrue i hi x hx
    obtain rfl := Option.some.inj hi
    refine htrue inst' rfl (b', writeBound inst) (by rw [hbounds]; exact .head _) _ ?_
    rw [hword, hx]
    rfl
  · rintro haligned i hi p hp x hx
    obtain rfl := Option.some.inj hi
    rw [hbounds] at hp
    obtain rfl := List.mem_singleton.mp hp
    rw [hword] at hx
    obtain ⟨y, hy, rfl⟩ := Option.map_eq_some_iff.mp hx
    exact haligned inst rfl y hy

/-! ## A destination of no alignment -/

/-- An eight-byte temporary copied to where the parameter points, which the copy takes to be aligned to a byte. -/
def storePacked : FunctionSsa where
  insts := [.paramRef 0 .i64, .localAddr (-1), .imm 7, .store 1 0 2 .i64 false 0 false, .mcpy 0 1 8 1]
  blocks := [{ instRange := ⟨0, 5⟩, terminator := .ret 2 }]

/-- The frame of `storePacked`. -/
def oneSlot : FrameInfo := { syntheticBase := 1 }

lemma runOne_storePacked : (runOne oneSlot storePacked).insts =
    [.paramRef 0 .i64, .imm 0, .imm 7, .store 0 0 2 .i64 false 0 false, .copy 0 false] := by
  decide +kernel

lemma elisions_storePacked : elisions oneSlot storePacked = [⟨4, -1, 0, 0, ⟨[(3, 0)], [1], [(0, 8)]⟩, true⟩] := by
  decide +kernel

lemma symbolTables_storePacked : SymbolTables storePacked where
  data _ h := nomatch h
  one _ _ _ h := nomatch h
  others _ h := nomatch h
  single _ _ _ := rfl

/-- Registers with the pointer and the temporary's address. -/
def pointerAt (x : Word) : Regs := fun v => if v = 0 then some (.word x) else if v = 1 then some (.word (-8)) else none

/-- The registers before the copy. -/
lemma addressed_storePacked (x : Word) : Addressed Machine.null storePacked (pointerAt x) := by
  intro v inst hinst haddress
  match v with
  | 0 | 2 | 3 | 4 =>
    obtain rfl := Option.some.inj hinst
    cases haddress
  | 1 =>
    obtain rfl := Option.some.inj hinst
    rfl
  | _ + 5 => cases hinst

lemma addressed_runOne_storePacked (x : Word) :
    Addressed Machine.null (runOne oneSlot storePacked) (pointerAt x) := by
  intro v inst hinst haddress
  rw [runOne_storePacked] at hinst
  match v with
  | 0 | 1 | 2 | 3 | 4 =>
    obtain rfl := Option.some.inj hinst
    cases haddress
  | _ + 5 => cases hinst

lemma redirected_storePacked : ∀ e ∈ elisions oneSlot storePacked, Redirected storePacked e 3 0 := by
  intro e he
  rw [elisions_storePacked] at he
  obtain rfl := List.mem_singleton.mp he
  exact ⟨1, rfl, by decide⟩

/-- At an aligned pointer the store tells the truth. -/
theorem redirected_truthful_iff_storePacked :
    (∀ e ∈ elisions oneSlot storePacked, ∀ w off, Redirected storePacked e w off →
      ∀ inst, (runOne oneSlot storePacked).insts[w]? = some inst → Truthful (pointerAt 16) inst) ↔
    ∀ e ∈ elisions oneSlot storePacked, ∀ w off, Redirected storePacked e w off →
      ∀ inst, storePacked.insts[w]? = some inst → ∀ x, (pointerAt 16).word e.dst = some x →
        (writeBound inst).2 ∣ (x + BitVec.ofInt 64 off + BitVec.ofInt 64 (writeBound inst).1).toNat :=
  redirected_truthful_iff symbolTables_storePacked (addressed_runOne_storePacked 16)

/-- **Where every instruction states alignments that hold, the copy's among them, the redirected writes need not.** -/
theorem runOne_widens : ¬∀ (fr : FrameInfo) (f : FunctionSsa) (m : Machine) (regs regs' : Regs), SymbolTables f →
    Addressed m f regs → Addressed m (runOne fr f) regs' →
    (∀ e ∈ elisions fr f, regs'.word e.dst = regs.word e.dst) → (∀ inst ∈ f.insts, Truthful regs inst) →
    ∀ e ∈ elisions fr f, ∀ w off, Redirected f e w off →
      ∀ inst, (runOne fr f).insts[w]? = some inst → Truthful regs' inst := by
  intro hall
  have htruthful : ∀ inst ∈ storePacked.insts, Truthful (pointerAt 1) inst := by
    intro inst hinst p hp x hx
    simp only [storePacked, List.mem_cons, List.not_mem_nil, or_false] at hinst
    rcases hinst with rfl | rfl | rfl | rfl | rfl
    · cases hp
    · cases hp
    · cases hp
    · obtain rfl := List.mem_singleton.mp hp
      obtain rfl : (-8 : Word) = x := Option.some.inj hx
      decide
    · simp only [bounds, List.mem_cons, List.not_mem_nil, or_false] at hp
      rcases hp with rfl | rfl
      · exact one_dvd _
      · exact one_dvd _
  have hmem : (⟨4, -1, 0, 0, ⟨[(3, 0)], [1], [(0, 8)]⟩, true⟩ : Elision) ∈ elisions oneSlot storePacked := by
    rw [elisions_storePacked]
    exact List.mem_singleton_self _
  have hstore := hall oneSlot storePacked Machine.null (pointerAt 1) (pointerAt 1) symbolTables_storePacked
    (addressed_storePacked 1) (addressed_runOne_storePacked 1) (fun _ _ => rfl) htruthful _ hmem 3 0
    (redirected_storePacked _ hmem) (.store 0 0 2 .i64 false 0 false) (by rw [runOne_storePacked]; rfl)
  exact absurd (hstore (0, 0, 8) (.head _) 1 rfl) (by decide)

end Badc.CopyElide
