import Badc.Lib.Demand
import Badc.Ssa.Operands
import Badc.Ssa.Verify

/-!
# What the use counts count

`computeUseCounts` starts from all operand positions and takes those of dead instructions off: a pure
instruction with no use left is dead, and so is a phi that no live instruction reads, through phis.  The
incomes of a phi whose move reads no place are taken off at the end (`dropUnreadIncomes`).  What is left
are the positions of what is demanded by the reads (`computeUseCounts_spec`).  A cycle of phis dies as a
whole; a cycle of reads through a pure instruction does not, since each of its instructions still has a
use (`computeUseCounts_counter`).
-/

namespace Badc

open Demand

variable (f : FunctionSsa)

/-! ## Reads -/

/-- The operand positions of an instruction that read a place: those of a phi without the incomes whose
move reads none. -/
def placeReads : Inst → List ℕ
  | .phi incoming kind => (incoming.map Prod.snd).filter fun v => !phiIncomeReadsNoPlace f kind v
  | inst => inst.placedOperands

/-- The incomes of a phi whose move reads no place. -/
def unreadIncomes : Inst → List ℕ
  | .phi incoming kind => (incoming.map Prod.snd).filter (phiIncomeReadsNoPlace f kind)
  | _ => []

/-- Take the phi incomes whose edge move reads no place off the use counts. -/
def dropUnreadIncomes (useCounts : ℕ → ℕ) : ℕ → ℕ :=
  f.insts.foldl (fun counts inst =>
    match inst with
    | .phi incoming kind =>
      (incoming.map Prod.snd).foldl (fun counts v =>
        if phiIncomeReadsNoPlace f kind v then Function.update counts v (counts v - 1)
        else counts) counts
    | _ => counts) useCounts

/-- A pure value that is not used. -/
def isDeadPureCounts (inst : Inst) (v : ℕ) (useCounts : ℕ → ℕ) : Bool :=
  inst.isPure && useCounts v == 0

/-- Per instruction: whether its lowering reads its operands. -/
def operandsRead (useCounts : ℕ → ℕ) : List Bool :=
  f.insts.zipIdx.map fun p =>
    let deadPhi := p.1.isPhi && useCounts p.2 == 0
    !deadPhi && !isDeadPureCounts p.1 p.2 useCounts

/-- The operand positions of the terminators. -/
def terminatorOperands : List ℕ := f.blocks.flatMap fun blk => blk.terminator.operands

/-- The positions of the instruction at `j` that read a place. -/
def placeReadsAt (j : ℕ) : List ℕ := ((f.insts[j]?).map (placeReads f)).getD []

/-- The positions of the instruction at `j` that read none. -/
def unreadIncomesAt (j : ℕ) : List ℕ := ((f.insts[j]?).map (unreadIncomes f)).getD []

/-- A value that is counted. -/
def Counted (v : ℕ) : Prop := v ≠ noValue ∧ v < f.insts.length

/-- The instruction at `j` reads the one at `i`. -/
def Reads (j i : ℕ) : Prop := Counted f i ∧ i ∈ placeReadsAt f j

/-- The instructions that are neither pure nor phis, what the terminators read, and the phis. -/
def readRoots : Roots ℕ where
  kept i := ∃ inst, f.insts[i]? = some inst ∧ inst.isPure = false ∧ inst.isPhi = false
  outside i := Counted f i ∧ i ∈ terminatorOperands f
  passes i := ∃ inst, f.insts[i]? = some inst ∧ inst.isPhi = true
  not_passes i := by
    rintro ⟨inst, hi, -, hphi⟩ ⟨inst', hi', hphi'⟩
    rw [hi] at hi'
    obtain rfl := Option.some.inj hi'
    rw [hphi] at hphi'
    cases hphi'

/-- The operand positions that name `v` in the terminators and in the instructions of a set. -/
noncomputable def positions (live : ℕ → Prop) (v : ℕ) : ℕ :=
  open Classical in
  ∑ j ∈ Finset.range f.insts.length, (if live j then (placeReadsAt f j).count v else 0) +
    (terminatorOperands f).count v

variable {f} {killed : ℕ → Bool} {i j v : ℕ}

lemma not_isPhi_of_isPure {inst : Inst} (h : inst.isPure = true) : inst.isPhi = false := by
  cases inst <;> first | rfl | cases h

lemma placeReads_eq {inst : Inst} (h : inst.isPhi = false) :
    placeReads f inst = inst.placedOperands := by
  cases inst <;> first | rfl | cases h

lemma unreadIncomes_eq {inst : Inst} (h : inst.isPhi = false) : unreadIncomes f inst = [] := by
  cases inst <;> first | rfl | cases h

lemma count_filter_add (p : ℕ → Bool) (l : List ℕ) (v : ℕ) :
    l.count v = (l.filter fun x => !p x).count v + (l.filter p).count v := by
  induction l with
  | nil => rfl
  | cons x l ih =>
    rw [List.filter_cons, List.filter_cons, List.count_cons, ih]
    cases p x <;> simp [List.count_cons] <;> omega

lemma count_placedOperands (inst : Inst) (v : ℕ) :
    inst.placedOperands.count v = (placeReads f inst).count v + (unreadIncomes f inst).count v := by
  cases hphi : inst.isPhi with
  | false => rw [placeReads_eq hphi, unreadIncomes_eq hphi, List.count_nil, Nat.add_zero]
  | true =>
    cases inst with
    | phi incoming kind => exact count_filter_add _ _ _
    | _ => cases hphi

/-! ## Counting positions -/

variable (f) in
/-- The positions that are counted while the instructions in `killed` are dead: all of an instruction
that is not, and of a dead phi those that read no place. -/
def uses (killed : ℕ → Bool) (v : ℕ) : ℕ :=
  ∑ j ∈ Finset.range f.insts.length,
    ((unreadIncomesAt f j).count v + if killed j then 0 else (placeReadsAt f j).count v) +
  (terminatorOperands f).count v

/-- A sum over the entries of a list, by their positions. -/
lemma sum_map_eq_sum_range {α : Type*} (l : List α) (g : α → ℕ) :
    (l.map g).sum = ∑ j ∈ Finset.range l.length, ((l[j]?).map g).getD 0 := by
  induction l using List.reverseRecOn with
  | nil => rfl
  | append_singleton l a ih =>
    rw [List.map_append, List.sum_append, ih, List.length_append, List.length_singleton,
      Finset.sum_range_succ]
    congr 1
    · refine Finset.sum_congr rfl fun j hj => ?_
      rw [List.getElem?_append_left (Finset.mem_range.mp hj)]
    · simp

lemma count_insts (g : Inst → List ℕ) (v : ℕ) : (f.insts.flatMap g).count v =
    ∑ j ∈ Finset.range f.insts.length, (((f.insts[j]?).map g).getD []).count v := by
  rw [List.count_flatMap, sum_map_eq_sum_range]
  refine Finset.sum_congr rfl fun j hj => ?_
  cases f.insts[j]? <;> rfl

lemma uses_none (v : ℕ) : uses f (fun _ => false) v =
    (f.insts.flatMap Inst.placedOperands ++ terminatorOperands f).count v := by
  rw [List.count_append, count_insts, uses]
  congr 1
  refine Finset.sum_congr rfl fun j hj => ?_
  rw [if_neg Bool.false_ne_true, unreadIncomesAt, placeReadsAt]
  cases f.insts[j]? with
  | none => rfl
  | some inst => exact (Nat.add_comm _ _).trans (count_placedOperands inst v).symm

/-- A dead instruction takes the positions off that read a place. -/
lemma uses_kill (hi : i < f.insts.length) (hk : killed i = false) (v : ℕ) :
    uses f (Function.update killed i true) v + (placeReadsAt f i).count v = uses f killed v := by
  have hmem := Finset.mem_range.mpr hi
  unfold uses
  rw [← Finset.add_sum_erase _ _ hmem, ← Finset.add_sum_erase _ _ hmem, Function.update_self,
    if_pos rfl, hk, if_neg Bool.false_ne_true]
  have hrest : ∀ j ∈ (Finset.range f.insts.length).erase i,
      ((unreadIncomesAt f j).count v + if Function.update killed i true j then 0
        else (placeReadsAt f j).count v) =
      (unreadIncomesAt f j).count v + if killed j then 0 else (placeReadsAt f j).count v := by
    intro j hj
    rw [Function.update_of_ne (Finset.ne_of_mem_erase hj)]
  rw [Finset.sum_congr rfl hrest]
  omega

/-- A position of an instruction that is not dead is counted. -/
lemma uses_pos_of_reads (h : Reads f j i) (hk : killed j = false) : 0 < uses f killed i := by
  have hj : j < f.insts.length := by
    by_contra hc
    have hmem := h.2
    rw [placeReadsAt, List.getElem?_eq_none (Nat.le_of_not_lt hc)] at hmem
    exact absurd hmem List.not_mem_nil
  have hpos : 0 < (placeReadsAt f j).count i := List.count_pos_iff.mpr h.2
  have hle : (unreadIncomesAt f j).count i + (placeReadsAt f j).count i ≤ ∑ j ∈ Finset.range f.insts.length,
      ((unreadIncomesAt f j).count i + if killed j then 0 else (placeReadsAt f j).count i) := by
    refine le_trans (le_of_eq ?_) (Finset.single_le_sum
      (f := fun j => (unreadIncomesAt f j).count i + if killed j then 0 else (placeReadsAt f j).count i)
      (fun _ _ => Nat.zero_le _) (Finset.mem_range.mpr hj))
    rw [hk, if_neg Bool.false_ne_true]
  unfold uses
  omega

lemma uses_pos_of_outside (h : i ∈ terminatorOperands f) : 0 < uses f killed i :=
  Nat.add_pos_right _ (List.count_pos_iff.mpr h)

/-- A value that is counted is named by a terminator, by an instruction that is not dead, or by a phi
whose move reads no place. -/
lemma exists_of_uses_pos (h : 0 < uses f killed v) : v ∈ terminatorOperands f ∨
    ∃ j, v ∈ unreadIncomesAt f j ∨ killed j = false ∧ v ∈ placeReadsAt f j := by
  by_contra hc
  push Not at hc
  obtain ⟨hterm, hall⟩ := hc
  refine absurd h (Nat.not_lt.mpr (le_of_eq ?_))
  rw [uses, List.count_eq_zero.mpr hterm, Nat.add_zero]
  refine Finset.sum_eq_zero fun j _ => ?_
  rw [List.count_eq_zero.mpr (hall j).1, Nat.zero_add]
  split
  · rfl
  · rename_i hk
    exact List.count_eq_zero.mpr ((hall j).2 (Bool.eq_false_iff.mpr hk))

/-- Counting positions. -/
lemma foldl_bumpInto (l : List ℕ) (counts : ℕ → ℕ) (hv : Counted f v) :
    l.foldl (bumpInto f) counts v = counts v + l.count v := by
  induction l generalizing counts with
  | nil => rfl
  | cons x l ih =>
    rw [List.foldl_cons, ih, List.count_cons]
    by_cases hx : x = v
    · subst hx
      rw [bumpInto, if_pos (show x ≠ noValue ∧ x < f.insts.length from hv), Function.update_self, beq_self_eq_true, if_pos rfl]
      omega
    · have hsame : bumpInto f counts x v = counts v := by
        unfold bumpInto
        split
        · exact Function.update_of_ne (Ne.symm hx) _ _
        · rfl
      rw [hsame, if_neg (by simpa using hx), Nat.add_zero]

/-- Taking positions off. -/
lemma foldl_decrement (l : List ℕ) (counts : ℕ → ℕ) (hv : Counted f v) :
    l.foldl (decrement f) counts v = counts v - l.count v := by
  induction l generalizing counts with
  | nil => rfl
  | cons x l ih =>
    rw [List.foldl_cons, ih, List.count_cons]
    by_cases hx : x = v
    · subst hx
      rw [decrement, if_pos (show x ≠ noValue ∧ x < f.insts.length from hv), Function.update_self, beq_self_eq_true, if_pos rfl]
      omega
    · have hsame : decrement f counts x v = counts v := by
        unfold decrement
        split
        · exact Function.update_of_ne (Ne.symm hx) _ _
        · rfl
      rw [hsame, if_neg (by simpa using hx), Nat.add_zero]

/-- Values that are not counted keep their count. -/
lemma foldl_decrement_of_not_counted (l : List ℕ) (counts : ℕ → ℕ) (hv : ¬Counted f v) :
    l.foldl (decrement f) counts v = counts v := by
  induction l generalizing counts with
  | nil => rfl
  | cons x l ih =>
    rw [List.foldl_cons, ih, decrement]
    split
    · rename_i hx
      exact Function.update_of_ne (fun he => hv (by rw [he]; exact hx)) _ _
    · rfl

/-- Values that are not counted are not counted at first. -/
lemma foldl_bumpInto_of_not_counted (l : List ℕ) (counts : ℕ → ℕ) (hv : ¬Counted f v) :
    l.foldl (bumpInto f) counts v = counts v := by
  induction l generalizing counts with
  | nil => rfl
  | cons x l ih =>
    rw [List.foldl_cons, ih, bumpInto]
    split
    · rename_i hx
      exact Function.update_of_ne (fun he => hv (by rw [he]; exact hx)) _ _
    · rfl

/-- What is left without the incomes that read no place. -/
lemma dropUnreadIncomes_apply (counts : ℕ → ℕ) (v : ℕ) : dropUnreadIncomes f counts v =
    counts v - ∑ j ∈ Finset.range f.insts.length, (unreadIncomesAt f j).count v := by
  have hincomes : ∀ (p : ℕ → Bool) (l : List ℕ) (counts : ℕ → ℕ),
      l.foldl (fun counts v => if p v then Function.update counts v (counts v - 1) else counts)
        counts v = counts v - (l.filter p).count v := by
    intro p l
    induction l with
    | nil => exact fun _ => rfl
    | cons x l ih =>
      intro counts
      rw [List.foldl_cons, ih, List.filter_cons]
      by_cases hx : p x = true
      · rw [if_pos hx, if_pos hx, List.count_cons]
        by_cases hxv : x = v
        · subst hxv
          rw [Function.update_self, beq_self_eq_true, if_pos rfl]
          omega
        · rw [Function.update_of_ne (Ne.symm hxv), if_neg (by simpa using hxv), Nat.add_zero]
      · rw [if_neg hx, if_neg hx]
  have hall : ∀ (l : List Inst) (counts : ℕ → ℕ),
      l.foldl (fun counts inst =>
        match inst with
        | .phi incoming kind =>
          (incoming.map Prod.snd).foldl (fun counts v =>
            if phiIncomeReadsNoPlace f kind v then Function.update counts v (counts v - 1)
            else counts) counts
        | _ => counts) counts v = counts v - (l.flatMap (unreadIncomes f)).count v := by
    intro l
    induction l with
    | nil => exact fun _ => rfl
    | cons inst l ih =>
      intro counts
      rw [List.foldl_cons, ih, List.flatMap_cons, List.count_append]
      cases inst with
      | phi incoming kind =>
        dsimp only
        rw [hincomes (phiIncomeReadsNoPlace f kind)]
        show _ = counts v - (((incoming.map Prod.snd).filter _).count v + _)
        omega
      | _ => simp [unreadIncomes]
  rw [dropUnreadIncomes, hall, count_insts]
  rfl

/-! ## Killing -/

variable (f) in
/-- One instruction of a sweep: where the condition holds it is dead, and reads nothing. -/
def killStep (cond : UseCount → Inst × ℕ → Bool) (s : UseCount) (p : Inst × ℕ) : UseCount :=
  if cond s p then
    { counts := (placeReads f p.1).foldl (decrement f) s.counts
      killed := Function.update s.killed p.2 true
      changed := true }
  else s

lemma killStep_pos {cond : UseCount → Inst × ℕ → Bool} {s : UseCount} {p : Inst × ℕ}
    (h : cond s p = true) : (killStep f cond s p).killed = Function.update s.killed p.2 true ∧
      (killStep f cond s p).counts = (placeReads f p.1).foldl (decrement f) s.counts := by
  rw [killStep, h]
  exact ⟨rfl, rfl⟩

/-- A pure instruction that is not used. -/
def unusedPure (s : UseCount) (p : Inst × ℕ) : Bool :=
  !s.killed p.2 && p.1.isPure && s.counts p.2 == 0

/-- A phi that is not live. -/
def unreadPhi (live : List ℕ) (s : UseCount) (p : Inst × ℕ) : Bool :=
  !s.killed p.2 && p.1.isPhi && !live.contains p.2

/-- A sweep over the pure instructions kills those that are not used. -/
lemma sweepPure_eq (s : UseCount) : sweepPure f s =
    f.insts.zipIdx.foldl (killStep f unusedPure) { s with changed := false } := by
  unfold sweepPure
  congr 1
  funext s p
  unfold killStep unusedPure
  cases hk : s.killed p.2 with
  | true => rfl
  | false =>
    cases hp : p.1.isPure with
    | false => rfl
    | true =>
      rw [placeReads_eq (not_isPhi_of_isPure hp)]
      by_cases hc : s.counts p.2 = 0 <;> simp [hc]

/-- A sweep over the phis kills those that are not live. -/
lemma killPhis_eq (s : UseCount) : killPhis f s =
    f.insts.zipIdx.foldl (killStep f (unreadPhi (livePhis f s.killed))) { s with changed := false } := by
  unfold killPhis
  dsimp only
  congr 1
  funext t p
  unfold killStep unreadPhi
  obtain ⟨inst, i⟩ := p
  cases inst with
  | phi incoming kind =>
    have hreads : ∀ (l : List ℕ) (counts : ℕ → ℕ),
        l.foldl (fun counts v =>
          if phiIncomeReadsNoPlace f kind v then counts else decrement f counts v) counts =
        (l.filter fun v => !phiIncomeReadsNoPlace f kind v).foldl (decrement f) counts := by
      intro l
      induction l with
      | nil => exact fun _ => rfl
      | cons x l ih =>
        intro counts
        rw [List.foldl_cons, ih, List.filter_cons]
        cases phiIncomeReadsNoPlace f kind x <;> rfl
    dsimp only
    rw [hreads]
    cases hk : t.killed i <;> cases hl : (livePhis f s.killed).contains i <;>
      simp [Inst.isPhi, placeReads]
  | _ => simp [Inst.isPhi]

/-- What holds before a sweep and is kept by each kill holds after it. -/
lemma foldl_killStep_invariant {cond : UseCount → Inst × ℕ → Bool} (P : UseCount → Prop)
    (l : List (Inst × ℕ)) {s : UseCount} (hs : P s)
    (hstep : ∀ s p, p ∈ l → P s → cond s p = true → P (killStep f cond s p)) :
    P (l.foldl (killStep f cond) s) := by
  induction l generalizing s with
  | nil => exact hs
  | cons p l ih =>
    refine ih ?_ fun s q hq => hstep s q (.tail _ hq)
    cases hc : cond s p with
    | true => exact hstep s p (.head _) hs hc
    | false =>
      rw [killStep, hc, if_neg Bool.false_ne_true]
      exact hs

/-- A sweep that changes nothing finds nothing to kill. -/
lemma foldl_killStep_unchanged {cond : UseCount → Inst × ℕ → Bool} (l : List (Inst × ℕ))
    {s : UseCount} (h : (l.foldl (killStep f cond) s).changed = false) :
    l.foldl (killStep f cond) s = s ∧ ∀ p ∈ l, cond s p = false := by
  induction l generalizing s with
  | nil => exact ⟨rfl, fun p hp => absurd hp List.not_mem_nil⟩
  | cons p l ih =>
    rw [List.foldl_cons] at h ⊢
    obtain ⟨heq, hall⟩ := ih h
    cases hc : cond s p with
    | true =>
      exfalso
      rw [heq, killStep, hc, if_pos rfl] at h
      cases h
    | false =>
      have hsame : killStep f cond s p = s := by rw [killStep, hc, if_neg Bool.false_ne_true]
      rw [hsame] at heq hall ⊢
      refine ⟨heq, fun q hq => ?_⟩
      rcases List.mem_cons.mp hq with rfl | hq
      · exact hc
      · exact hall q hq

lemma foldl_killStep_mono {cond : UseCount → Inst × ℕ → Bool} (l : List (Inst × ℕ)) {s : UseCount}
    (hi : s.killed i = true) : (l.foldl (killStep f cond) s).killed i = true := by
  refine foldl_killStep_invariant (fun t => t.killed i = true) l hi fun t p _ ht hc => ?_
  rw [(killStep_pos hc).1, Function.update_apply]
  split
  · rfl
  · exact ht

/-- A sweep that changes something kills an instruction that was not dead. -/
lemma foldl_killStep_changed {cond : UseCount → Inst × ℕ → Bool}
    (hcond : ∀ s p, cond s p = true → s.killed p.2 = false) (l : List (Inst × ℕ)) {s : UseCount}
    (hs : s.changed = false) (h : (l.foldl (killStep f cond) s).changed = true) :
    ∃ p ∈ l, s.killed p.2 = false ∧ (l.foldl (killStep f cond) s).killed p.2 = true := by
  induction l generalizing s with
  | nil => exact absurd h (by rw [List.foldl_nil, hs]; exact Bool.false_ne_true)
  | cons p l ih =>
    rw [List.foldl_cons] at h ⊢
    cases hc : cond s p with
    | true =>
      refine ⟨p, (.head _), hcond s p hc, foldl_killStep_mono l ?_⟩
      rw [(killStep_pos hc).1, Function.update_self]
    | false =>
      have hsame : killStep f cond s p = s := by rw [killStep, hc, if_neg Bool.false_ne_true]
      rw [hsame] at h ⊢
      obtain ⟨q, hq, hk⟩ := ih hs h
      exact ⟨q, List.mem_cons_of_mem _ hq, hk⟩

/-! ## What is kept while instructions are killed -/

variable (f) in
/-- The counts are those of the positions not taken off, and no instruction of a supported set is
dead. -/
structure CountInv (s : UseCount) : Prop where
  counts : ∀ v, Counted f v → s.counts v = uses f s.killed v
  uncounted : ∀ v, ¬Counted f v → s.counts v = 0
  supported : ∀ S, Supported (Reads f) (readRoots f) S → ∀ i, S i → s.killed i = false

/-- A kill of an instruction that is in no supported set keeps the counts. -/
lemma CountInv.kill {s : UseCount} (h : CountInv f s) {cond : UseCount → Inst × ℕ → Bool}
    {p : Inst × ℕ} (hp : f.insts[p.2]? = some p.1) (hc : cond s p = true)
    (hk : s.killed p.2 = false)
    (hS : ∀ S, Supported (Reads f) (readRoots f) S → ¬S p.2) : CountInv f (killStep f cond s p) where
  counts v hv := by
    have hlt : p.2 < f.insts.length := (List.getElem?_eq_some_iff.mp hp).1
    have hreads : placeReads f p.1 = placeReadsAt f p.2 := by rw [placeReadsAt, hp]; rfl
    rw [(killStep_pos hc).1, (killStep_pos hc).2, foldl_decrement _ _ hv, h.counts v hv, hreads,
      ← uses_kill hlt hk v, Nat.add_sub_cancel]
  uncounted v hv := by
    rw [(killStep_pos hc).2, foldl_decrement_of_not_counted _ _ hv, h.uncounted v hv]
  supported S hsup i hi := by
    have hne : i ≠ p.2 := by
      rintro rfl
      exact hS S hsup hi
    rw [(killStep_pos hc).1, Function.update_of_ne hne]
    exact h.supported S hsup i hi

/-- A backed instruction has a use. -/
lemma CountInv.counts_pos {s : UseCount} (h : CountInv f s) {S : ℕ → Prop}
    (hsup : Supported (Reads f) (readRoots f) S) (hb : Backed (Reads f) (readRoots f) S i) :
    0 < s.counts i := by
  cases hb with
  | outside ho =>
    rw [h.counts i ho.1]
    exact uses_pos_of_outside ho.2
  | direct hj _ he =>
    rw [h.counts i he.1]
    exact uses_pos_of_reads he (h.supported S hsup _ hj)
  | passed _ hj _ he =>
    rw [h.counts i he.1]
    exact uses_pos_of_reads he (h.supported S hsup _ hj)

lemma getElem?_of_mem_zipIdx {p : Inst × ℕ} (hp : p ∈ f.insts.zipIdx) :
    f.insts[p.2]? = some p.1 := by
  simpa using List.mem_zipIdx_iff_getElem?.mp hp

/-- A sweep over the pure instructions keeps the counts: an instruction of a supported set is used. -/
lemma CountInv.sweepPure {s : UseCount} (h : CountInv f s) : CountInv f (sweepPure f s) := by
  rw [sweepPure_eq]
  refine foldl_killStep_invariant (CountInv f) _ ⟨h.counts, h.uncounted, h.supported⟩ fun t p hp ht hc => ?_
  have hinst := getElem?_of_mem_zipIdx hp
  have hcond := hc
  unfold unusedPure at hcond
  simp only [Bool.and_eq_true, Bool.not_eq_true', beq_iff_eq] at hcond
  obtain ⟨⟨hk, hpure⟩, hzero⟩ := hcond
  refine ht.kill hinst hc hk fun S hsup hS => ?_
  rcases hsup p.2 hS with ⟨inst, hi, hnp, -⟩ | hb
  · rw [hinst] at hi
    obtain rfl := Option.some.inj hi
    rw [hpure] at hnp
    cases hnp
  · exact absurd (ht.counts_pos hsup hb) (by omega)

/-! ## Live phis -/

/-- The phis among values that are not dead. -/
def phisOf (f : FunctionSsa) (killed : ℕ → Bool) (vs : List ℕ) : List ℕ :=
  vs.filter fun v => v ≠ noValue && !killed v && ((f.insts[v]?).any Inst.isPhi)

/-- The values a phi reads, of which the live ones are phis. -/
def nextPhis (f : FunctionSsa) (killed : ℕ → Bool) (p : ℕ) : List ℕ :=
  match f.insts[p]? with
  | some (Inst.phi incoming _) => phisOf f killed (incoming.map Prod.snd)
  | _ => []

/-- The phis read by what is not dead and no phi. -/
def seedPhis (f : FunctionSsa) (killed : ℕ → Bool) : List ℕ :=
  phisOf f killed <|
    (f.insts.zipIdx.flatMap fun p => if killed p.2 || p.1.isPhi then [] else p.1.placedOperands) ++
      terminatorOperands f

lemma livePhis_eq (killed : ℕ → Bool) : livePhis f killed =
    (Mark.run (nextPhis f killed) f.insts.length
      ((seedPhis f killed).foldl Mark.insert ⟨[], []⟩)).seen := rfl

/-- A live value is a phi of the tape that is not dead. -/
lemma mem_phisOf {vs : List ℕ} : i ∈ phisOf f killed vs ↔
    i ∈ vs ∧ Counted f i ∧ killed i = false ∧ (readRoots f).passes i := by
  rw [phisOf, List.mem_filter]
  refine and_congr_right fun _ => ?_
  cases hi : f.insts[i]? with
  | none =>
    refine iff_of_false (by simp) fun h => ?_
    obtain ⟨inst, hinst, -⟩ := h.2.2
    rw [hi] at hinst
    cases hinst
  | some inst =>
    have hlt : i < f.insts.length := (List.getElem?_eq_some_iff.mp hi).1
    have hpass : (readRoots f).passes i ↔ inst.isPhi = true :=
      ⟨fun ⟨inst', h, hphi⟩ => by rw [hi] at h; exact Option.some.inj h ▸ hphi, fun h => ⟨inst, hi, h⟩⟩
    rw [hpass, Counted, Option.any_some]
    simp [hlt, and_assoc]

lemma placeReadsAt_eq {inst : Inst} (h : f.insts[j]? = some inst) : placeReadsAt f j = placeReads f inst := by
  rw [placeReadsAt, h]
  rfl

/-- Seeds are read by a terminator or by an instruction that is no phi and not dead. -/
lemma mem_seedPhis : i ∈ seedPhis f killed ↔
    (i ∈ terminatorOperands f ∨ ∃ j, killed j = false ∧ j < f.insts.length ∧
      ¬(readRoots f).passes j ∧ i ∈ placeReadsAt f j) ∧
    Counted f i ∧ killed i = false ∧ (readRoots f).passes i := by
  rw [seedPhis, mem_phisOf, List.mem_append, List.mem_flatMap, or_comm]
  refine and_congr_left fun _ => or_congr_right ⟨?_, ?_⟩
  · rintro ⟨p, hp, hmem⟩
    have hinst := getElem?_of_mem_zipIdx hp
    split at hmem
    · exact absurd hmem List.not_mem_nil
    · rename_i hnot
      obtain ⟨hk, hphi⟩ : killed p.2 = false ∧ p.1.isPhi = false := by simpa using hnot
      refine ⟨p.2, hk, (List.getElem?_eq_some_iff.mp hinst).1, ?_, ?_⟩
      · rintro ⟨inst, hi, hphi'⟩
        rw [hinst] at hi
        obtain rfl := Option.some.inj hi
        rw [hphi] at hphi'
        cases hphi'
      · rwa [placeReadsAt_eq hinst, placeReads_eq hphi]
  · rintro ⟨j, hk, hlt, hnp, hmem⟩
    have hinst := List.getElem?_eq_getElem hlt
    have hphi : (f.insts[j]).isPhi = false := Bool.eq_false_iff.mpr fun h => hnp ⟨_, hinst, h⟩
    refine ⟨(f.insts[j], j), List.mem_zipIdx_iff_getElem?.mpr (by simp), ?_⟩
    rw [if_neg (by simp [hk, hphi])]
    rwa [placeReadsAt_eq hinst, placeReads_eq hphi] at hmem

/-- What a phi passes the reading on to. -/
lemma mem_nextPhis : i ∈ nextPhis f killed j ↔ (readRoots f).passes j ∧ i ∈ placeReadsAt f j ∧
    Counted f i ∧ killed i = false ∧ (readRoots f).passes i := by
  unfold nextPhis
  cases hj : f.insts[j]? with
  | none =>
    refine iff_of_false List.not_mem_nil fun h => ?_
    obtain ⟨inst, hinst, -⟩ := h.1
    rw [hj] at hinst
    cases hinst
  | some inst =>
    have hpass : (readRoots f).passes j ↔ inst.isPhi = true :=
      ⟨fun ⟨inst', h, hphi⟩ => by rw [hj] at h; exact Option.some.inj h ▸ hphi, fun h => ⟨inst, hj, h⟩⟩
    rw [hpass, placeReadsAt_eq hj]
    cases inst with
    | phi incoming kind =>
      dsimp only
      rw [mem_phisOf]
      constructor
      · rintro ⟨hmem, hc, hk, hp⟩
        refine ⟨rfl, List.mem_filter.mpr ⟨hmem, ?_⟩, hc, hk, hp⟩
        -- A phi is a place.
        obtain ⟨inst, hinst, hphi⟩ := hp
        rw [phiIncomeReadsNoPlace, hinst]
        cases inst <;> first | rfl | cases hphi
      · rintro ⟨-, hmem, hc, hk, hp⟩
        exact ⟨(List.mem_filter.mp hmem).1, hc, hk, hp⟩
    | _ => exact iff_of_false List.not_mem_nil fun h => by cases h.1

variable (f) in
/-- The marking of live phis starts with the seeds, each waiting once. -/
lemma markSeeds (killed : ℕ → Bool) : let m := (seedPhis f killed).foldl Mark.insert ⟨[], []⟩
    Mark.Inv (nextPhis f killed) (fun _ => False) m ∧ m.stack.length ≤ m.seen.length ∧
    (∀ x ∈ m.seen, x < f.insts.length) ∧
    ∀ x < f.insts.length, ∀ y ∈ nextPhis f killed x, y < f.insts.length := by
  have hlen := Mark.length_foldl (⟨[], []⟩ : Mark ℕ) (seedPhis f killed)
  refine ⟨Mark.Inv.foldl ⟨List.nodup_nil, by simp, by simp⟩ _, ?_, fun x hx => ?_,
    fun x _ y hy => (mem_nextPhis.mp hy).2.2.1.2⟩
  · simp only [List.length_nil, Nat.add_zero] at hlen
    omega
  · rcases Mark.mem_seen_foldl.mp hx with hx | hx
    · exact absurd hx List.not_mem_nil
    · exact (mem_seedPhis.mp hx).2.1.2

lemma livePhis_done (killed : ℕ → Bool) : (Mark.run (nextPhis f killed) f.insts.length
    ((seedPhis f killed).foldl Mark.insert ⟨[], []⟩)).round (nextPhis f killed) = none := by
  obtain ⟨hinv, hlen, hn, hnext⟩ := markSeeds f killed
  exact Mark.round_run hinv hlen hn hnext

lemma livePhis_closed (killed : ℕ → Bool) : (∀ i ∈ seedPhis f killed, i ∈ livePhis f killed) ∧
    ∀ j ∈ livePhis f killed, ∀ i ∈ nextPhis f killed j, i ∈ livePhis f killed := by
  obtain ⟨hinv, hlen, hn, hnext⟩ := markSeeds f killed
  obtain ⟨hkeep, -, -, hclosed⟩ := Mark.run_spec hinv hlen hn hnext
  rw [livePhis_eq]
  refine ⟨fun i hi => hkeep i (Mark.mem_seen_foldl.mpr (Or.inr hi)), fun j hj => ?_⟩
  exact (hclosed j hj).resolve_left id

/-- A property of the seeds that a phi passes on to what it reads holds of the live phis. -/
lemma livePhis_forall {P : ℕ → Prop} (hseed : ∀ i ∈ seedPhis f killed, P i)
    (hnext : ∀ j, P j → ∀ i ∈ nextPhis f killed j, P i) : ∀ i ∈ livePhis f killed, P i := by
  rw [livePhis_eq]
  refine (@whileSome_invariant _ (Mark.round (nextPhis f killed))
    (fun m => (∀ x ∈ m.stack, x ∈ m.seen) ∧ ∀ x ∈ m.seen, P x) ?_ f.insts.length
    ((seedPhis f killed).foldl Mark.insert ⟨[], []⟩) ?_).2
  · rintro m m' ⟨hwait, hP⟩ hr
    refine ⟨?_, Mark.round_forall hr hP fun x hx => hnext x (hP x (hwait x hx))⟩
    unfold Mark.round at hr
    split at hr
    · cases hr
    · rename_i x rest hst
      obtain rfl := Option.some.inj hr
      intro y hy
      rw [Mark.mem_seen_foldl]
      rcases Mark.mem_stack_foldl.mp hy with hy | hy
      · exact Or.inl (hwait y (by rw [hst]; exact List.mem_cons_of_mem _ hy))
      · exact Or.inr hy.1
  · refine ⟨fun x hx => ?_, fun x hx => ?_⟩
    · rw [Mark.mem_seen_foldl]
      rcases Mark.mem_stack_foldl.mp hx with hx | hx
      · exact absurd hx List.not_mem_nil
      · exact Or.inr hx.1
    · rcases Mark.mem_seen_foldl.mp hx with hx | hx
      · exact absurd hx List.not_mem_nil
      · exact hseed x hx

/-- A phi of a supported set is live. -/
lemma CountInv.mem_livePhis {s : UseCount} (h : CountInv f s) {S : ℕ → Prop}
    (hsup : Supported (Reads f) (readRoots f) S) (hb : Backed (Reads f) (readRoots f) S i)
    (hi : S i) (hp : (readRoots f).passes i) : i ∈ livePhis f s.killed := by
  obtain ⟨hseed, hnext⟩ := livePhis_closed (f := f) s.killed
  induction hb with
  | outside ho =>
    exact hseed _ (mem_seedPhis.mpr ⟨Or.inl ho.2, ho.1, h.supported S hsup _ hi, hp⟩)
  | @direct i j hj hnp he =>
    have hlt : j < f.insts.length := by
      by_contra hc
      have hmem := he.2
      rw [placeReadsAt, List.getElem?_eq_none (Nat.le_of_not_lt hc)] at hmem
      exact absurd hmem List.not_mem_nil
    exact hseed _ (mem_seedPhis.mpr ⟨Or.inr ⟨j, h.supported S hsup _ hj, hlt, hnp, he.2⟩, he.1,
      h.supported S hsup _ hi, hp⟩)
  | passed _ hj hpj he ih =>
    exact hnext _ (ih hj hpj) _ (mem_nextPhis.mpr ⟨hpj, he.2, he.1, h.supported S hsup _ hi, hp⟩)

/-- A sweep over the phis keeps the counts. -/
lemma CountInv.killPhis {s : UseCount} (h : CountInv f s) : CountInv f (killPhis f s) := by
  rw [killPhis_eq]
  refine foldl_killStep_invariant (CountInv f) _ ⟨h.counts, h.uncounted, h.supported⟩ fun t p hp ht hc => ?_
  have hinst := getElem?_of_mem_zipIdx hp
  have hcond := hc
  unfold unreadPhi at hcond
  simp only [Bool.and_eq_true, Bool.not_eq_true'] at hcond
  obtain ⟨⟨hk, hphi⟩, hdead⟩ := hcond
  refine ht.kill hinst hc hk fun S hsup hS => ?_
  have hpass : (readRoots f).passes p.2 := ⟨p.1, hinst, hphi⟩
  rcases hsup p.2 hS with hkept | hb
  · exact (readRoots f).not_passes _ hkept hpass
  · have hlive := h.mem_livePhis hsup hb hS hpass
    rw [← List.contains_iff_mem, hdead] at hlive
    cases hlive

/-! ## The loops -/

/-- The counts of all positions. -/
def useCountStart (f : FunctionSsa) : UseCount where
  counts := (f.insts.flatMap Inst.placedOperands ++ terminatorOperands f).foldl (bumpInto f) fun _ => 0
  killed _ := false
  changed := false

/-- A sweep over the pure instructions, where it changes something. -/
def pureRound (f : FunctionSsa) (s : UseCount) : Option UseCount :=
  if (sweepPure f s).changed then some (sweepPure f s) else none

lemma killPure_eq (s : UseCount) : killPure f s = whileSome (pureRound f) (f.insts.length + 1) s := rfl

/-- A round: the pure instructions, then the phis. -/
def useCountRound (f : FunctionSsa) (s : UseCount) : Option UseCount :=
  let s' := killPhis f (killPure f s)
  if (List.range f.insts.length).any fun i => s'.killed i != s.killed i then some s' else none

/-- The state the rounds end in. -/
def useCountEnd (f : FunctionSsa) : UseCount :=
  whileSome (useCountRound f) (f.insts.length + 1) (useCountStart f)

lemma computeUseCounts_eq : computeUseCounts f = (useCountEnd f).counts := rfl

lemma countInv_start : CountInv f (useCountStart f) where
  counts v hv := by
    show (List.foldl (bumpInto f) (fun _ => 0) _ : ℕ → ℕ) v = uses f (fun _ => false) v
    rw [foldl_bumpInto _ _ hv, Nat.zero_add, uses_none]
  uncounted v hv := foldl_bumpInto_of_not_counted _ _ hv
  supported _ _ _ _ := rfl

variable {s : UseCount}

lemma pureRound_eq_some {s' : UseCount} (h : pureRound f s = some s') :
    (sweepPure f s).changed = true ∧ s' = sweepPure f s := by
  unfold pureRound at h
  split at h
  · rename_i hc
    exact ⟨hc, (Option.some.inj h).symm⟩
  · cases h

lemma CountInv.killPure (h : CountInv f s) : CountInv f (killPure f s) := by
  rw [killPure_eq]
  refine whileSome_invariant (CountInv f) (fun t t' ht hstep => ?_) _ h
  exact (pureRound_eq_some hstep).2 ▸ ht.sweepPure

lemma CountInv.round {s' : UseCount} (h : CountInv f s) (hr : useCountRound f s = some s') :
    CountInv f s' := by
  unfold useCountRound at hr
  dsimp only at hr
  split at hr
  · exact Option.some.inj hr ▸ h.killPure.killPhis
  · cases hr

/-- The instructions that are not dead. -/
def alive (f : FunctionSsa) (s : UseCount) : Finset ℕ :=
  (Finset.range f.insts.length).filter fun i => s.killed i = false

/-- Where no dead instruction is forgotten and one more is dead, fewer are left. -/
lemma card_alive_lt {s' : UseCount} (hmono : ∀ i, s.killed i = true → s'.killed i = true)
    (hi : i < f.insts.length) (hs : s.killed i = false) (hs' : s'.killed i = true) :
    (alive f s').card < (alive f s).card := by
  refine Finset.card_lt_card (Finset.ssubset_iff_subset_ne.mpr ⟨fun j hj => ?_, fun he => ?_⟩)
  · obtain ⟨hr, hk⟩ := Finset.mem_filter.mp hj
    refine Finset.mem_filter.mpr ⟨hr, Bool.eq_false_iff.mpr fun hc => ?_⟩
    rw [hmono j hc] at hk
    cases hk
  · have hmem : i ∈ alive f s := Finset.mem_filter.mpr ⟨Finset.mem_range.mpr hi, hs⟩
    rw [← he] at hmem
    rw [(Finset.mem_filter.mp hmem).2] at hs'
    cases hs'

lemma sweepPure_mono (hi : s.killed i = true) : (sweepPure f s).killed i = true := by
  rw [sweepPure_eq]
  exact foldl_killStep_mono _ hi

lemma killPhis_mono (hi : s.killed i = true) : (killPhis f s).killed i = true := by
  rw [killPhis_eq]
  exact foldl_killStep_mono _ hi

lemma pureRounds_mono (fuel : ℕ) (hi : s.killed i = true) :
    (whileSome (pureRound f) fuel s).killed i = true := by
  refine whileSome_invariant (fun t : UseCount => t.killed i = true) (fun t t' ht hstep => ?_) _ hi
  exact (pureRound_eq_some hstep).2 ▸ sweepPure_mono ht

/-- A sweep over the pure instructions that changes something kills one more. -/
lemma sweepPure_changed (h : (sweepPure f s).changed = true) :
    ∃ i < f.insts.length, s.killed i = false ∧ (sweepPure f s).killed i = true := by
  rw [sweepPure_eq] at h ⊢
  have hcond : ∀ (s : UseCount) (p : Inst × ℕ), unusedPure s p = true → s.killed p.2 = false := by
    intro s p hp
    unfold unusedPure at hp
    simp only [Bool.and_eq_true, Bool.not_eq_true'] at hp
    exact hp.1.1
  obtain ⟨p, hp, hk⟩ := foldl_killStep_changed hcond _ rfl h
  exact ⟨p.2, (List.getElem?_eq_some_iff.mp (getElem?_of_mem_zipIdx hp)).1, hk⟩

/-- A sweep over the phis that changes something kills one more. -/
lemma killPhis_changed (h : (killPhis f s).changed = true) :
    ∃ i < f.insts.length, s.killed i = false ∧ (killPhis f s).killed i = true := by
  rw [killPhis_eq] at h ⊢
  have hcond : ∀ (t : UseCount) (p : Inst × ℕ), unreadPhi (livePhis f s.killed) t p = true →
      t.killed p.2 = false := by
    intro t p hp
    unfold unreadPhi at hp
    simp only [Bool.and_eq_true, Bool.not_eq_true'] at hp
    exact hp.1.1
  obtain ⟨p, hp, hk⟩ := foldl_killStep_changed hcond _ rfl h
  exact ⟨p.2, (List.getElem?_eq_some_iff.mp (getElem?_of_mem_zipIdx hp)).1, hk⟩

lemma killPure_done (s : UseCount) : pureRound f (killPure f s) = none := by
  have hcard : (alive f s).card ≤ f.insts.length + 1 :=
    ((Finset.card_filter_le _ _).trans_eq (Finset.card_range _)).trans (Nat.le_succ _)
  refine whileSome_done (fun _ => True) (fun t => (alive f t).card)
    (fun t t' _ hstep => ⟨trivial, ?_⟩) trivial hcard
  obtain ⟨hc, rfl⟩ := pureRound_eq_some hstep
  obtain ⟨i, hi, hk, hk'⟩ := sweepPure_changed hc
  exact card_alive_lt (fun _ => sweepPure_mono) hi hk hk'

/-- The rounds end. -/
lemma useCountEnd_done : useCountRound f (useCountEnd f) = none := by
  refine whileSome_done (fun _ => True) (fun t => (alive f t).card) (fun t t' _ hr => ⟨trivial, ?_⟩)
    trivial (((Finset.card_filter_le _ _).trans_eq (Finset.card_range _)).trans (Nat.le_succ _))
  unfold useCountRound at hr
  dsimp only at hr
  split at hr
  · rename_i hany
    obtain rfl := Option.some.inj hr
    obtain ⟨i, hi, hne⟩ := List.any_eq_true.mp hany
    have hmono : ∀ i, t.killed i = true → (killPhis f (killPure f t)).killed i = true :=
      fun i hk => killPhis_mono (pureRounds_mono _ hk)
    have hk : t.killed i = false := by
      by_contra hc
      rw [Bool.not_eq_false] at hc
      rw [hc, hmono i hc] at hne
      cases hne
    rw [hk] at hne
    exact card_alive_lt hmono (List.mem_range.mp hi) hk (by simpa using hne)
  · cases hr

/-- At the end no pure instruction that is left is without use, and every phi that is left is live. -/
lemma of_round_eq_none (h : useCountRound f s = none) :
    (∀ p ∈ f.insts.zipIdx, unusedPure s p = false) ∧
      ∀ p ∈ f.insts.zipIdx, unreadPhi (livePhis f s.killed) s p = false := by
  have hsame : ∀ i < f.insts.length, (killPhis f (killPure f s)).killed i = s.killed i := by
    unfold useCountRound at h
    dsimp only at h
    split at h
    · cases h
    · rename_i hany
      intro i hi
      by_contra hne
      exact hany (List.any_eq_true.mpr ⟨i, List.mem_range.mpr hi, by simpa using hne⟩)
  -- A sweep that changed something would kill an instruction that stays dead.
  have hpure : (sweepPure f s).changed = false := by
    by_contra hc
    rw [Bool.not_eq_false] at hc
    obtain ⟨i, hi, hk, hk'⟩ := sweepPure_changed hc
    have hend : (killPure f s).killed i = true := by
      rw [killPure_eq, whileSome_of_some (show pureRound f s = some _ from if_pos hc)]
      exact pureRounds_mono _ hk'
    have := hsame i hi
    rw [killPhis_mono hend, hk] at this
    cases this
  have hstay : killPure f s = s := by
    refine whileSome_of_none ?_ _
    rw [hpure, if_neg Bool.false_ne_true]
  rw [hstay] at hsame
  have hphi : (killPhis f s).changed = false := by
    by_contra hc
    rw [Bool.not_eq_false] at hc
    obtain ⟨i, hi, hk, hk'⟩ := killPhis_changed hc
    rw [hsame i hi, hk] at hk'
    cases hk'
  rw [sweepPure_eq] at hpure
  rw [killPhis_eq] at hphi
  exact ⟨(foldl_killStep_unchanged _ hpure).2, (foldl_killStep_unchanged _ hphi).2⟩

/-! ## What is left -/

/-- The instructions that are live: what is reached backward along reads from the instructions that are
neither pure nor phis, from the terminators, and from the cycles of reads through an instruction that is
no phi. -/
abbrev LiveInst (f : FunctionSsa) : ℕ → Prop := Demanded (Reads f) (readRoots f)

/-- An income that reads no place is a constant or indeterminate, which reads nothing. -/
lemma placeReadsAt_of_unread (h : i ∈ unreadIncomesAt f j) : placeReadsAt f i = [] := by
  unfold unreadIncomesAt at h
  cases hj : f.insts[j]? with
  | none =>
    rw [hj] at h
    exact absurd h List.not_mem_nil
  | some inst =>
    rw [hj] at h
    cases inst with
    | phi incoming kind =>
      have hno := (List.mem_filter.mp (show i ∈ List.filter _ _ from h)).2
      unfold phiIncomeReadsNoPlace at hno
      split at hno
      · rename_i hi
        exact placeReadsAt_eq hi
      · rename_i hi
        exact placeReadsAt_eq hi
      · cases hno
    | _ => exact absurd h List.not_mem_nil

lemma kept_iff {inst : Inst} (h : f.insts[i]? = some inst) :
    (readRoots f).kept i ↔ inst.isPure = false ∧ inst.isPhi = false := by
  constructor
  · rintro ⟨inst', h', hk⟩
    rw [h] at h'
    exact Option.some.inj h' ▸ hk
  · exact fun hk => ⟨inst, h, hk⟩

lemma passes_iff {inst : Inst} (h : f.insts[i]? = some inst) :
    (readRoots f).passes i ↔ inst.isPhi = true := by
  constructor
  · rintro ⟨inst', h', hp⟩
    rw [h] at h'
    exact Option.some.inj h' ▸ hp
  · exact fun hp => ⟨inst, h, hp⟩

lemma lt_of_placeReadsAt (h : placeReadsAt f j ≠ []) : j < f.insts.length := by
  by_contra hc
  rw [placeReadsAt, List.getElem?_eq_none (Nat.le_of_not_lt hc)] at h
  exact h rfl

/-- Where the rounds end, what is not dead and reads a place is live: these instructions, with what they
and the terminators read, back one another. -/
lemma CountInv.live_of_reads (h : CountInv f s) (hr : useCountRound f s = none)
    (hj : s.killed j = false) (hreads : placeReadsAt f j ≠ []) : LiveInst f j := by
  obtain ⟨hpure, hphi⟩ := of_round_eq_none hr
  let A : ℕ → Prop := fun i => i < f.insts.length ∧ s.killed i = false ∧
    ((readRoots f).kept i ∨ (readRoots f).passes i ∨ placeReadsAt f i ≠ [] ∨
      (readRoots f).outside i ∨ ∃ k, s.killed k = false ∧ Reads f k i)
  have hreader : ∀ {k i}, s.killed k = false → Reads f k i → A k := by
    intro k i hk he
    have hne := List.ne_nil_of_mem he.2
    exact ⟨lt_of_placeReadsAt hne, hk, Or.inr (Or.inr (Or.inl hne))⟩
  -- A phi that is left is live, which backs it.
  have hlive : ∀ i ∈ livePhis f s.killed, Backed (Reads f) (readRoots f) A i ∧ A i ∧
      (readRoots f).passes i := by
    refine livePhis_forall (fun i hi => ?_) fun k hk i hi => ?_
    · obtain ⟨hread, hc, hki, hp⟩ := mem_seedPhis.mp hi
      refine ⟨?_, ⟨hc.2, hki, Or.inr (Or.inl hp)⟩, hp⟩
      rcases hread with hterm | ⟨k, hk, -, hnp, hmem⟩
      · exact .outside ⟨hc, hterm⟩
      · exact .direct (hreader hk ⟨hc, hmem⟩) hnp ⟨hc, hmem⟩
    · obtain ⟨hpk, hmem, hc, hki, hp⟩ := mem_nextPhis.mp hi
      exact ⟨.passed hk.1 hk.2.1 hpk ⟨hc, hmem⟩, ⟨hc.2, hki, Or.inr (Or.inl hp)⟩, hp⟩
  have hback : ∀ i, (readRoots f).passes i → s.killed i = false →
      Backed (Reads f) (readRoots f) A i := by
    rintro i ⟨inst, hinst, hisPhi⟩ hk
    have hmem : (inst, i) ∈ f.insts.zipIdx := List.mem_zipIdx_iff_getElem?.mpr hinst
    have hcond := hphi _ hmem
    unfold unreadPhi at hcond
    simp only [hk, hisPhi, Bool.not_false, Bool.true_and, Bool.not_eq_false'] at hcond
    exact (hlive i (List.contains_iff_mem.mp hcond)).1
  have hread : ∀ {k i}, s.killed k = false → Reads f k i → Backed (Reads f) (readRoots f) A i := by
    intro k i hk he
    by_cases hp : (readRoots f).passes k
    · exact .passed (hback k hp hk) (hreader hk he) hp he
    · exact .direct (hreader hk he) hp he
  have hsup : Supported (Reads f) (readRoots f) A := by
    rintro i ⟨hlt, hk, hwhy⟩
    rcases hwhy with hkept | hp | hne | hout | ⟨k, hkk, he⟩
    · exact Or.inl hkept
    · exact Or.inr (hback i hp hk)
    · have hinst := List.getElem?_eq_getElem hlt
      by_cases hp : (readRoots f).passes i
      · exact Or.inr (hback i hp hk)
      · by_cases hkept : (readRoots f).kept i
        · exact Or.inl hkept
        -- A pure instruction that is left has a use, and it is none that reads no place.
        refine Or.inr ?_
        have hisPure : (f.insts[i]).isPure = true := by
          by_contra hnp
          exact hkept ((kept_iff hinst).mpr ⟨Bool.eq_false_iff.mpr hnp,
            Bool.eq_false_iff.mpr (mt (passes_iff hinst).mpr hp)⟩)
        have hmem : (f.insts[i], i) ∈ f.insts.zipIdx := List.mem_zipIdx_iff_getElem?.mpr hinst
        have hcond := hpure _ hmem
        unfold unusedPure at hcond
        simp only [hk, hisPure, Bool.not_false, Bool.true_and, beq_eq_false_iff_ne] at hcond
        have hc : Counted f i := by
          by_contra hno
          exact hcond (h.uncounted i hno)
        rw [h.counts i hc] at hcond
        rcases exists_of_uses_pos (Nat.pos_of_ne_zero hcond) with hterm | ⟨k, hun | ⟨hkk, hmem⟩⟩
        · exact .outside ⟨hc, hterm⟩
        · exact absurd (placeReadsAt_of_unread hun) hne
        · exact hread hkk ⟨hc, hmem⟩
    · exact Or.inr (.outside hout)
    · exact Or.inr (hread hkk he)
  refine hsup.demanded (fun b : Fin f.insts.length => (b : ℕ)) (fun i hi => ⟨⟨i, hi.1⟩, rfl⟩) j ?_
  exact ⟨lt_of_placeReadsAt hreads, hj, Or.inr (Or.inr (Or.inl hreads))⟩

/-- The counts are those of the positions of live instructions and of the terminators. -/
lemma useCounts_eq_positions (hv : Counted f v) :
    dropUnreadIncomes f (computeUseCounts f) v = positions f (LiveInst f) v := by
  have hinv : CountInv f (useCountEnd f) :=
    whileSome_invariant (CountInv f) (fun _ _ ht hr => ht.round hr) _ countInv_start
  rw [dropUnreadIncomes_apply, computeUseCounts_eq, hinv.counts v hv, uses, positions,
    Finset.sum_add_distrib, Nat.add_assoc, Nat.add_sub_cancel_left]
  congr 1
  refine Finset.sum_congr rfl fun j _ => ?_
  cases hk : (useCountEnd f).killed j with
  | true =>
    have hdead : ¬LiveInst f j := fun hl => by
      rw [hinv.supported _ supported_demanded j hl] at hk
      cases hk
    rw [if_pos rfl, if_neg hdead]
  | false =>
    rw [if_neg Bool.false_ne_true]
    by_cases hne : placeReadsAt f j = []
    · rw [hne, List.count_nil, ite_self]
    · rw [if_pos (hinv.live_of_reads useCountEnd_done hk hne)]

/-- A value is named by a position of a live instruction or of a terminator where the count is not
zero. -/
lemma positions_pos_iff (live : ℕ → Prop) (v : ℕ) : 0 < positions f live v ↔
    v ∈ terminatorOperands f ∨ ∃ j, live j ∧ v ∈ placeReadsAt f j := by
  classical
  rw [positions, Nat.add_pos_iff_pos_or_pos, List.count_pos_iff, or_comm]
  refine or_congr_right ?_
  rw [Finset.sum_pos_iff]
  constructor
  · rintro ⟨j, -, hpos⟩
    split at hpos
    · rename_i hl
      exact ⟨j, hl, List.count_pos_iff.mp hpos⟩
    · exact absurd hpos (lt_irrefl 0)
  · rintro ⟨j, hl, hmem⟩
    refine ⟨j, Finset.mem_range.mpr (lt_of_placeReadsAt (List.ne_nil_of_mem hmem)), ?_⟩
    rw [if_pos hl]
    exact List.count_pos_iff.mpr hmem

lemma live_of_positions_pos (hv : Counted f v) (h : 0 < positions f (LiveInst f) v) : LiveInst f v := by
  rcases (positions_pos_iff _ v).mp h with hterm | ⟨j, hl, hmem⟩
  · exact .outside ⟨hv, hterm⟩
  · exact .read hl ⟨hv, hmem⟩

lemma positions_pos_of_live (h : LiveInst f v) (hk : ¬(readRoots f).kept v) :
    0 < positions f (LiveInst f) v := by
  rw [positions_pos_iff]
  rcases supported_demanded v h with hkept | hb
  · exact absurd hkept hk
  · cases hb with
    | outside ho => exact Or.inl ho.2
    | direct hj _ he => exact Or.inr ⟨_, hj, he.2⟩
    | passed _ hj _ he => exact Or.inr ⟨_, hj, he.2⟩

/-- The operands of an instruction are read unless it is a pure instruction or a phi that is not
used. -/
lemma operandsRead_iff {inst : Inst} (h : f.insts[v]? = some inst) (counts : ℕ → ℕ) :
    (operandsRead f counts)[v]? = some true ↔
      (counts v = 0 → inst.isPure = false ∧ inst.isPhi = false) := by
  rw [operandsRead, List.getElem?_map, List.getElem?_zipIdx, h]
  cases hpure : inst.isPure <;> cases hphi : inst.isPhi <;> simp [isDeadPureCounts, hpure, hphi]

/-- **The use counts are those of the live instructions.**  The loops end; each count is the number of
positions that name the value in live instructions and in terminators and read a place; and the
instructions whose operands are taken as read are the live ones. -/
theorem computeUseCounts_spec (f : FunctionSsa) :
    (useCountRound f (useCountEnd f) = none ∧
      (∀ s, pureRound f (killPure f s) = none) ∧
      ∀ killed, (Mark.run (nextPhis f killed) f.insts.length
        ((seedPhis f killed).foldl Mark.insert ⟨[], []⟩)).round (nextPhis f killed) = none) ∧
    ∀ v, Counted f v →
      dropUnreadIncomes f (computeUseCounts f) v = positions f (LiveInst f) v ∧
      ((operandsRead f (dropUnreadIncomes f (computeUseCounts f)))[v]? = some true ↔ LiveInst f v) := by
  refine ⟨⟨useCountEnd_done, killPure_done, livePhis_done⟩, fun v hv => ?_⟩
  have hcount := useCounts_eq_positions hv
  refine ⟨hcount, ?_⟩
  have hinst := List.getElem?_eq_getElem hv.2
  rw [operandsRead_iff hinst, hcount, ← kept_iff hinst]
  constructor
  · intro h
    by_cases hk : (readRoots f).kept v
    · exact .kept hk
    · exact live_of_positions_pos hv (Nat.pos_of_ne_zero (mt h hk))
  · intro h hzero
    by_contra hk
    exact absurd (positions_pos_of_live h hk) (by omega)

/-! ## A cycle through a pure instruction -/

/-- A loop with two phis that only read each other, and a counter that only its own phi reads. -/
def idleLoop : FunctionSsa where
  insts := [.imm 0, .phi [(0, 0), (1, 2)] .i64, .phi [(0, 0), (1, 1)] .i64,
    .phi [(0, 0), (1, 4)] .i64, .binopI .add 3 1]
  blocks := [{ instRange := ⟨0, 1⟩, terminator := .jmp 1 },
    { instRange := ⟨1, 5⟩, terminator := .jmp 1 }]

/-- The first value of the loop is read by the phi of the counter alone. -/
theorem computeUseCounts_spec_idleLoop : positions idleLoop (LiveInst idleLoop) 0 = 1 := by
  rw [← ((computeUseCounts_spec idleLoop).2 0 ⟨by decide, by decide⟩).1]
  decide

/-- Nothing in the loop is kept or read by a terminator, but its counter is counted. -/
theorem computeUseCounts_counter : Verify.check idleLoop = .ok () ∧ Counted idleLoop 3 ∧
    positions idleLoop (Reached (Reads idleLoop) (readRoots idleLoop)) 3 = 0 ∧
    dropUnreadIncomes idleLoop (computeUseCounts idleLoop) 3 = 1 := by
  refine ⟨by decide, ⟨by decide, by decide⟩, ?_, by decide⟩
  have hterm : terminatorOperands idleLoop = [] := rfl
  have hnone : ∀ j, ¬Reached (Reads idleLoop) (readRoots idleLoop) j := by
    intro j hj
    induction hj with
    | read _ _ ih => exact ih
    | outside ho =>
      rw [readRoots, hterm] at ho
      exact absurd ho.2 List.not_mem_nil
    | @kept i hk =>
      obtain ⟨inst, hi, hpure, hphi⟩ := hk
      have hall : ∀ inst ∈ idleLoop.insts, inst.isPure = true ∨ inst.isPhi = true := by decide
      rcases hall inst (List.mem_of_getElem? hi) with h | h
      · rw [h] at hpure
        cases hpure
      · rw [h] at hphi
        cases hphi
  by_contra hpos
  rcases (positions_pos_iff _ 3).mp (Nat.pos_of_ne_zero hpos) with hmem | ⟨j, hj, -⟩
  · rw [hterm] at hmem
    exact absurd hmem List.not_mem_nil
  · exact hnone j hj

end Badc
