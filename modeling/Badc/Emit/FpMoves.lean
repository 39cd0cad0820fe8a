import Badc.Emit.IntMoves

/-!
# Floating-point moves

`schedule_fp_place_moves`.  A 128-bit spill spans two units, so one source can overlap two
destinations and one destination two sources; a stalled schedule need not be a cycle.  Staging a
source through the one hold register may free no move, and then the next source is staged over it.
`scheduleFpPlaceMoves_correct_iff` says that this is all that can go wrong: the schedule always
ends, and makes the moves exactly where it never stalls with a source in the hold register.
Where sources and destinations overlap only as whole places it never does
(`HoldFree.of_aligned`).
-/

namespace Badc

namespace Emit

open ParallelMove (Pending)

/-- A floating-point register or a spill slot. -/
def Place.IsFp : Place → Prop
  | .fpReg _ | .spill _ => True
  | _ => False

/-- The storage of a place: a whole vector register, or the units of a spill slot. -/
def Place.Holds (p : Place) (wide : Bool) (u : Cell) : Prop :=
  match p with
  | .fpReg r => u = .fpLow r ∨ u = .fpHigh r
  | .spill n => u = .unit n ∨ wide = true ∧ u = .unit (n + 1)
  | _ => False

/-- The low word of a place. -/
def Place.low (p : Place) (wide : Bool) : Cell :=
  match p with
  | .fpReg r => .fpLow r
  | .spill n => .unit (if wide then n + 1 else n)
  | .intReg r => .gpr r
  | .none => .gpr 0

/-- The high word of a place. -/
def Place.high : Place → Cell
  | .fpReg r => .fpHigh r
  | .spill n => .unit n
  | .intReg r => .gpr r
  | .none => .gpr 0

/-- The words a move reads and writes. -/
def FpMove.toMove (m : FpMove) : ParallelMove.Move Cell Word where
  pairs := (m.src.low m.wide, m.dst.low m.wide) ::
    if m.wide then [(m.src.high, m.dst.high)] else []
  conv := id

section

variable {t : Target} {hold stage : ℕ} {m o : FpMove} {ms : List FpMove} {σ σ₀ fin : Cell → Word}
  {a b : Place} {u : Cell} {w w' : Bool}

lemma Place.IsFp.holds_low (h : a.IsFp) : a.Holds w (a.low w) := by
  cases a with
  | fpReg r => exact Or.inl rfl
  | spill n => cases w <;> simp [Place.Holds, Place.low]
  | _ => exact h.elim

lemma Place.IsFp.holds_high (h : a.IsFp) : a.Holds true a.high := by
  cases a with
  | fpReg r => exact Or.inr rfl
  | spill n => exact Or.inl rfl
  | _ => exact h.elim

/-- The words a move reads are part of its source, and those it writes of its destination. -/
lemma FpMove.holds_of_mem (hsrc : m.src.IsFp) (hdst : m.dst.IsFp) {p : Cell × Cell}
    (hp : p ∈ m.toMove.pairs) : m.src.Holds m.wide p.1 ∧ m.dst.Holds m.wide p.2 := by
  rcases List.mem_cons.mp hp with rfl | hp
  · exact ⟨hsrc.holds_low, hdst.holds_low⟩
  · split at hp
    · next hwide =>
      obtain rfl := List.mem_singleton.mp hp
      rw [hwide]
      exact ⟨hsrc.holds_high, hdst.holds_high⟩
    · cases hp

/-- Places that do not overlap share no word. -/
lemma not_holds_of_not_overlap (h : placesOverlap a w b w' = false) (ha : a.Holds w u) :
    ¬ b.Holds w' u := by
  intro hb
  cases a with
  | fpReg x =>
    cases b with
    | fpReg y =>
      simp only [placesOverlap, placeSameLoc, decide_eq_false_iff_not] at h
      rcases ha with rfl | rfl <;> rcases hb with hb | hb <;> simp_all
    | spill y => rcases ha with rfl | rfl <;> rcases hb with hb | ⟨-, hb⟩ <;> cases hb
    | _ => exact hb
  | spill x =>
    cases b with
    | spill y =>
      simp only [placesOverlap, Bool.and_eq_false_iff, decide_eq_false_iff_not, not_lt] at h
      rcases ha with rfl | ⟨rfl, rfl⟩ <;> rcases hb with hb | ⟨rfl, hb⟩ <;>
        · have hone : Bool.toNat true = 1 := rfl
          injection hb
          omega
    | fpReg y => rcases ha with rfl | ⟨-, rfl⟩ <;> rcases hb with hb | hb <;> cases hb
    | _ => exact hb
  | _ => exact ha

lemma placesOverlap_comm : placesOverlap a w b w' = placesOverlap b w' a w := by
  cases a <;> cases b <;> simp [placesOverlap, placeSameLoc, Bool.and_comm, eq_comm]

lemma Place.IsFp.overlap_self (h : a.IsFp) : placesOverlap a w a w' = true := by
  cases a with
  | fpReg r => simp [placesOverlap, placeSameLoc]
  | spill n => simp only [placesOverlap, Bool.and_eq_true, decide_eq_true_eq]; omega
  | _ => exact h.elim

lemma not_overlap_fpReg {r : ℕ} (h : a ≠ .fpReg r) : placesOverlap (.fpReg r) w a w' = false := by
  cases a with
  | fpReg x =>
    simp only [placesOverlap, placeSameLoc, decide_eq_false_iff_not]
    rintro rfl
    exact h rfl
  | _ => rfl

/-- **An emitted move writes its destination**, and besides it the stage register and the one
addresses are formed in. -/
lemma emitFpPlaceMove_spec (hsrc : m.src.IsFp) (hdst : m.dst.IsFp)
    (hs : m.src ≠ .fpReg stage) :
    (∀ p ∈ m.toMove.pairs,
      runCode t (emitFpPlaceMove m.src m.dst stage m.wide) σ p.2 = σ p.1) ∧
    ∀ u, ¬ m.dst.Holds m.wide u → u ≠ .gpr t.fpBase → ¬ (Place.fpReg stage).Holds true u →
      runCode t (emitFpPlaceMove m.src m.dst stage m.wide) σ u = σ u := by
  obtain ⟨src, dst, wide⟩ := m
  have haddr : ∀ (slot : ℕ) (σ : Cell → Word) u, u ≠ Cell.gpr t.fpBase →
      t.formAddress slot t.fpBase σ u = σ u := fun slot σ u hu => formAddress_of_ne hu
  cases src with
  | fpReg s =>
    cases dst with
    | fpReg d =>
      cases wide <;>
        simp +contextual [emitFpPlaceMove, runCode, Transfer.run, FpMove.toMove, Place.low,
          Place.high, Place.Holds, Function.update_apply]
    | spill slot =>
      cases wide <;>
        simp +contextual [emitFpPlaceMove, runCode, Transfer.run, FpMove.toMove, Place.low,
          Place.high, Place.Holds, Function.update_apply, haddr]
    | _ => exact hdst.elim
  | spill ss =>
    cases dst with
    | fpReg d =>
      cases wide <;>
        simp +contextual [emitFpPlaceMove, runCode, Transfer.run, FpMove.toMove, Place.low,
          Place.high, Place.Holds, Function.update_apply, haddr]
    | spill ds =>
      cases wide <;>
        simp +contextual [emitFpPlaceMove, runCode, Transfer.run, FpMove.toMove, Place.low,
          Place.high, Place.Holds, Function.update_apply, haddr]
    | _ => exact hdst.elim
  | _ => exact hsrc.elim

lemma Place.Holds.ne_gpr (h : a.Holds w u) (r : ℕ) : u ≠ .gpr r := by
  rintro rfl
  cases a with
  | fpReg x => rcases h with h | h <;> cases h
  | spill x => rcases h with h | ⟨-, h⟩ <;> cases h
  | _ => exact h

lemma FpMove.mem_pairs {p : Cell × Cell} : p ∈ m.toMove.pairs ↔
    p = (m.src.low m.wide, m.dst.low m.wide) ∨ m.wide = true ∧ p = (m.src.high, m.dst.high) := by
  cases hw : m.wide <;> simp [FpMove.toMove, hw]

end

/-! ## Schedules -/

/-- A floating-point parallel copy: destinations that do not overlap, sources that are the same or
do not overlap, and the scratch registers outside all places. -/
structure FpCopy (hold stage : ℕ) (moves : List FpMove) : Prop where
  places : ∀ m ∈ moves, m.src.IsFp ∧ m.dst.IsFp
  dsts : moves.Pairwise fun m o => placesOverlap m.dst m.wide o.dst o.wide = false
  srcs : ∀ m ∈ moves, ∀ o ∈ moves, m.src = o.src ∧ m.wide = o.wide ∨
    placesOverlap m.src m.wide o.src o.wide = false
  srcApart : ∀ m ∈ moves, m.src ≠ .fpReg hold ∧ m.src ≠ .fpReg stage
  dstApart : ∀ m ∈ moves, m.dst ≠ .fpReg hold ∧ m.dst ≠ .fpReg stage
  scratch : hold ≠ stage

/-- A round of the schedule. -/
def fpRound (hold stage : ℕ) : List FpMove × List Transfer → Option (List FpMove × List Transfer) :=
  round fpTargetStillASource (fun m => emitFpPlaceMove m.src m.dst stage m.wide)
    (stageFpSource hold stage)

/-- From `s` on, the schedule never stalls with a source in the hold register. -/
def HoldFreeFrom (hold stage : ℕ) (s : List FpMove × List Transfer) : Prop :=
  ∀ k ms code, Rounds (fpRound hold stage) k s (ms, code) → Stalled fpTargetStillASource ms →
    ∀ m ∈ ms, m.src ≠ .fpReg hold

/-- The schedule of `moves` never stalls with a source in the hold register. -/
def HoldFree (hold stage : ℕ) (moves : List FpMove) : Prop :=
  HoldFreeFrom hold stage (moves.filter fun m => !placeSameLoc m.src m.dst, [])

/-- The code leaves in each destination what its source held. -/
def CopiesFp (t : Target) (moves : List FpMove) (code : List Transfer) : Prop :=
  ∀ (σ : Cell → Word), ∀ m ∈ moves, ∀ p ∈ m.toMove.pairs, runCode t code σ p.2 = σ p.1

/-- The pending moves come from moves of the copy; a source may have been staged, and then it is for
all moves that read it. -/
structure FpShape (hold : ℕ) (moves ms : List FpMove) : Prop where
  orig : ∀ m ∈ ms, ∃ m₀ ∈ moves, m.dst = m₀.dst ∧ m.wide = m₀.wide ∧
    (m.src = m₀.src ∨ m.src = .fpReg hold)
  together : ∀ m ∈ ms, ∀ o ∈ ms, ∀ m₀ ∈ moves, ∀ o₀ ∈ moves, m.dst = m₀.dst → o.dst = o₀.dst →
    m₀.src = o₀.src → m.src = o.src
  nodup : (ms.map FpMove.dst).Nodup

/-- Rounds to come: one for a move, and one for a source that is not staged. -/
def fpMeasure (hold : ℕ) (ms : List FpMove) : ℕ :=
  ms.length + ms.countP fun m => m.src ≠ .fpReg hold

/-- Have the moves that read `src` read the hold register. -/
def redirectFp (hold : ℕ) (src : Place) (m : FpMove) : FpMove :=
  if m.src = src then { m with src := .fpReg hold } else m

/-- The words of no destination. -/
def Untracked (moves : List FpMove) (u : Cell) : Prop := ∀ m ∈ moves, ¬ m.toMove.Writes u

section

variable {t : Target} {hold stage : ℕ} {m o : FpMove} {moves ms : List FpMove}
  {σ σ₀ fin : Cell → Word} {u : Cell} {code : List Transfer}

lemma redirectFp_dst (src : Place) (m : FpMove) : (redirectFp hold src m).dst = m.dst := by
  unfold redirectFp
  split <;> rfl

lemma redirectFp_wide (src : Place) (m : FpMove) : (redirectFp hold src m).wide = m.wide := by
  unfold redirectFp
  split <;> rfl

lemma FpCopy.dst_apart (h : FpCopy hold stage moves) (hm : m ∈ moves) (ho : o ∈ moves)
    (hne : m ≠ o) : placesOverlap m.dst m.wide o.dst o.wide = false := by
  have : Std.Symm fun m o : FpMove => placesOverlap m.dst m.wide o.dst o.wide = false :=
    ⟨fun m o hmo => placesOverlap_comm.trans hmo⟩
  exact h.dsts.forall hm ho hne

lemma FpCopy.eq_of_dst (h : FpCopy hold stage moves) (hm : m ∈ moves) (ho : o ∈ moves)
    (hdst : m.dst = o.dst) : m = o := by
  by_contra hne
  have hapart := h.dst_apart hm ho hne
  rw [hdst, (h.places o ho).2.overlap_self] at hapart
  cases hapart

/-- A pending move's places. -/
lemma FpShape.places (hs : FpShape hold moves ms) (h : FpCopy hold stage moves) (hm : m ∈ ms) :
    m.src.IsFp ∧ m.dst.IsFp ∧ m.src ≠ .fpReg stage ∧ m.dst ≠ .fpReg hold ∧ m.dst ≠ .fpReg stage := by
  obtain ⟨m₀, hm₀, hdst, -, hsrc⟩ := hs.orig m hm
  rw [hdst]
  refine ⟨?_, (h.places m₀ hm₀).2, ?_, h.dstApart m₀ hm₀⟩
  · rcases hsrc with hsrc | hsrc <;> rw [hsrc]
    · exact (h.places m₀ hm₀).1
    · trivial
  · rcases hsrc with hsrc | hsrc <;> rw [hsrc]
    · exact (h.srcApart m₀ hm₀).2
    · simpa using h.scratch

lemma FpCopy.tracked (h : FpCopy hold stage moves) (hu : ¬ Untracked moves u) :
    (∀ r, u ≠ .gpr r) ∧ ¬ (Place.fpReg hold).Holds true u ∧ ¬ (Place.fpReg stage).Holds true u := by
  simp only [Untracked, not_forall, not_not] at hu
  obtain ⟨m, hm, p, hp, rfl⟩ := hu
  have hholds := (FpMove.holds_of_mem (h.places m hm).1 (h.places m hm).2 hp).2
  refine ⟨hholds.ne_gpr, fun hreg => ?_, fun hreg => ?_⟩
  · exact not_holds_of_not_overlap (not_overlap_fpReg (h.dstApart m hm).1) hreg hholds
  · exact not_holds_of_not_overlap (not_overlap_fpReg (h.dstApart m hm).2) hreg hholds

/-- The moves start as those of the copy. -/
lemma FpCopy.shape (h : FpCopy hold stage moves) :
    FpShape hold moves (moves.filter fun m => !placeSameLoc m.src m.dst) where
  orig m hm := ⟨m, (List.mem_filter.mp hm).1, rfl, rfl, Or.inl rfl⟩
  together m hm o ho m₀ hm₀ o₀ ho₀ hmd hod hsrc := by
    rw [h.eq_of_dst (List.mem_filter.mp hm).1 hm₀ hmd, h.eq_of_dst (List.mem_filter.mp ho).1 ho₀ hod,
      hsrc]
  nodup := by
    refine List.Nodup.sublist (List.Sublist.map _ List.filter_sublist) ?_
    refine List.pairwise_map.mpr (h.dsts.imp_of_mem fun {m o} hm ho hapart heq => ?_)
    rw [heq, (h.places o ho).2.overlap_self] at hapart
    cases hapart

/-- Taking a move out keeps the shape, and lowers the measure. -/
lemma FpShape.make {i : ℕ} (hs : FpShape hold moves ms) (hm : ms[i]? = some m) :
    FpShape hold moves (swapRemove ms i) ∧ fpMeasure hold (swapRemove ms i) < fpMeasure hold ms := by
  have hrest : ∀ o ∈ swapRemove ms i, o ∈ ms := fun o ho => (mem_of_swapRemove hs.nodup hm ho).1
  refine ⟨⟨fun o ho => hs.orig o (hrest o ho),
    fun m hm o ho => hs.together m (hrest m hm) o (hrest o ho), nodup_swapRemove hs.nodup hm⟩, ?_⟩
  have hperm := perm_swapRemove hm
  have hlen := length_swapRemove hm
  have hcount := hperm.countP_eq fun m => decide (m.src ≠ .fpReg hold)
  rw [List.countP_cons] at hcount
  unfold fpMeasure
  omega

/-- What a stalled schedule stages: a source that is not staged. -/
lemma FpShape.stageFpSource_eq (hs : FpShape hold moves ms) (h : FpCopy hold stage moves)
    (hne : ms ≠ []) (hstalled : Stalled fpTargetStillASource ms) :
    ∃ c ∈ ms, c.src ≠ .fpReg hold ∧ stageFpSource hold stage ms =
      (ms.map (redirectFp hold c.src), emitFpPlaceMove c.src (.fpReg hold) stage c.wide) := by
  have hsame : ∀ m ∈ ms, ∀ p, placeSameLoc m.src p = true ↔ m.src = p := fun m hm p => by
    rw [placeSameLoc_iff, and_iff_left_iff_imp]
    rintro - hnone
    have hfp := (hs.places h hm).1
    rw [hnone] at hfp
    exact hfp
  have hred : ∀ src, (ms.map fun m : FpMove =>
      if placeSameLoc m.src src then { m with src := .fpReg hold } else m) =
        ms.map (redirectFp hold src) := fun src => List.map_congr_left fun m hm => by
    simp only [redirectFp, hsame m hm]
  unfold stageFpSource
  cases hfind : ms.find? fun m => !placeSameLoc m.src (.fpReg hold) with
  | some c =>
    refine ⟨c, List.mem_of_find?_eq_some hfind, fun hc => ?_, by simp only [hred]⟩
    have hnot := List.find?_some hfind
    rw [(hsame c (List.mem_of_find?_eq_some hfind) _).mpr hc] at hnot
    cases hnot
  | none =>
    -- a blocked destination overlaps a source, which is not the hold register
    exfalso
    obtain ⟨m, rest, rfl⟩ := List.exists_cons_of_ne_nil hne
    obtain ⟨o, ho, hover⟩ := List.any_eq_true.mp (hstalled 0 m rfl)
    have hhold : o.src = .fpReg hold := by
      have hsrc := List.find?_eq_none.mp hfind o ho
      simp only [Bool.not_eq_true', Bool.not_eq_false] at hsrc
      exact (hsame o ho _).mp hsrc
    rw [hhold, not_overlap_fpReg (hs.places h (.head _)).2.2.2.1] at hover
    cases hover

/-- Staging a source keeps the shape, and lowers the measure. -/
lemma FpShape.redirect (hs : FpShape hold moves ms) {c : FpMove} (hc : c ∈ ms)
    (hsrc : c.src ≠ .fpReg hold) : FpShape hold moves (ms.map (redirectFp hold c.src)) ∧
      fpMeasure hold (ms.map (redirectFp hold c.src)) < fpMeasure hold ms := by
  refine ⟨⟨fun o' ho' => ?_, fun m' hm' o' ho' m₀ hm₀ o₀ ho₀ hmd hod heq => ?_, ?_⟩, ?_⟩
  · obtain ⟨o, ho, rfl⟩ := List.mem_map.mp ho'
    obtain ⟨o₀, ho₀, hdst, hwide, hor⟩ := hs.orig o ho
    refine ⟨o₀, ho₀, by rw [redirectFp_dst, hdst], by rw [redirectFp_wide, hwide], ?_⟩
    unfold redirectFp
    split
    · exact Or.inr rfl
    · exact hor
  · obtain ⟨m, hm, rfl⟩ := List.mem_map.mp hm'
    obtain ⟨o, ho, rfl⟩ := List.mem_map.mp ho'
    rw [redirectFp_dst] at hmd hod
    have hsame := hs.together m hm o ho m₀ hm₀ o₀ ho₀ hmd hod heq
    unfold redirectFp
    rw [hsame]
    split
    · rfl
    · exact hsame
  · rw [List.map_map]
    have heq : ms.map (FpMove.dst ∘ redirectFp hold c.src) = ms.map FpMove.dst :=
      List.map_congr_left fun o _ => redirectFp_dst _ o
    rw [heq]
    exact hs.nodup
  · obtain ⟨front, back, rfl⟩ := List.append_of_mem hc
    have hmono : ∀ l : List FpMove,
        (l.map (redirectFp hold c.src)).countP (fun m => decide (m.src ≠ .fpReg hold)) ≤
          l.countP fun m => decide (m.src ≠ .fpReg hold) := by
      intro l
      rw [List.countP_map]
      refine List.countP_mono_left fun m _ hm => ?_
      simp only [Function.comp, redirectFp] at hm ⊢
      split at hm
      · simp at hm
      · exact hm
    have hzero : decide ((redirectFp hold c.src c).src ≠ .fpReg hold) = false := by
      simp [redirectFp]
    have hone : decide (c.src ≠ .fpReg hold) = true := by simpa using hsrc
    have hfront := hmono front
    have hback := hmono back
    simp only [fpMeasure, List.map_append, List.map_cons, List.countP_append, List.countP_cons,
      List.length_append, List.length_cons, List.length_map, hzero, hone, Bool.false_eq_true,
      if_true, if_false]
    omega

/-! ## What the code does -/

/-- A move that is not blocked is made. -/
lemma FpShape.pending_make {i : ℕ} (hs : FpShape hold moves ms) (h : FpCopy hold stage moves)
    (hm : ms[i]? = some m) (hfree : fpTargetStillASource ms i m = false)
    (hp : Pending (ms.map FpMove.toMove) (Untracked moves) σ fin) :
    Pending ((swapRemove ms i).map FpMove.toMove) (Untracked moves)
      (runCode t (emitFpPlaceMove m.src m.dst stage m.wide) σ) fin := by
  have hmem := List.mem_of_getElem? hm
  obtain ⟨hsrcFp, hdstFp, hstage, -, -⟩ := hs.places h hmem
  obtain ⟨hmade, hkept⟩ := emitFpPlaceMove_spec (t := t) (σ := σ) hsrcFp hdstFp hstage
  have hread : ∀ o ∈ swapRemove ms i, ∀ u, o.toMove.Reads u → ¬ m.dst.Holds m.wide u ∧
      u ≠ .gpr t.fpBase ∧ ¬ (Place.fpReg stage).Holds true u := by
    rintro o ho u ⟨p, hpo, rfl⟩
    have homs := (mem_of_swapRemove hs.nodup hm ho).1
    have hholds := (FpMove.holds_of_mem (hs.places h homs).1 (hs.places h homs).2.1 hpo).1
    refine ⟨?_, hholds.ne_gpr _, fun hreg => ?_⟩
    · refine not_holds_of_not_overlap ?_ hholds
      simpa using List.any_eq_false.mp hfree o homs
    · exact not_holds_of_not_overlap (not_overlap_fpReg (hs.places h homs).2.2.1) hreg hholds
  refine (hp.perm ((perm_swapRemove hm).map FpMove.toMove)).emit hmade ?_ ?_ ?_
  · intro u hnot hu
    obtain ⟨hgpr, -, hst⟩ := h.tracked hu
    refine hkept u (fun hholds => ?_) (hgpr _) hst
    simp only [Untracked, not_forall, not_not] at hu
    obtain ⟨o₀, ho₀, p, hpo, rfl⟩ := hu
    obtain ⟨m₀, hm₀, hdst, hwide, -⟩ := hs.orig m hmem
    have hholds₀ := (FpMove.holds_of_mem (h.places o₀ ho₀).1 (h.places o₀ ho₀).2 hpo).2
    by_cases heq : m₀ = o₀
    · subst heq
      refine hnot ?_
      rcases FpMove.mem_pairs.mp hpo with rfl | ⟨hw, rfl⟩
      · exact ⟨_, FpMove.mem_pairs.mpr (Or.inl rfl), by rw [hdst, hwide]⟩
      · exact ⟨_, FpMove.mem_pairs.mpr (Or.inr ⟨by rw [hwide, hw], rfl⟩), by rw [hdst]⟩
    · rw [hdst, hwide] at hholds
      exact not_holds_of_not_overlap (h.dst_apart hm₀ ho₀ heq) hholds hholds₀
  · intro o₁ ho₁ u hu ⟨p, hpm, hpu⟩
    obtain ⟨o, ho, rfl⟩ := List.mem_map.mp ho₁
    refine (hread o ho u hu).1 ?_
    rw [← hpu]
    exact (FpMove.holds_of_mem hsrcFp hdstFp hpm).2
  · intro o₁ ho₁ u hu _
    obtain ⟨o, ho, rfl⟩ := List.mem_map.mp ho₁
    obtain ⟨h1, h2, h3⟩ := hread o ho u hu
    exact hkept u h1 h2 h3

/-- What staging a source leaves: the source in the hold register, and every other word that is no
scratch word as it was. -/
lemma stage_spec (hold : ℕ) {c : FpMove} (hc : c.src.IsFp)
    (hst : c.src ≠ .fpReg stage) :
    (∀ p ∈ (FpMove.toMove ⟨c.src, .fpReg hold, c.wide⟩).pairs,
      runCode t (emitFpPlaceMove c.src (.fpReg hold) stage c.wide) σ p.2 = σ p.1) ∧
    ∀ u, ¬ (Place.fpReg hold).Holds true u → (∀ r, u ≠ .gpr r) →
      ¬ (Place.fpReg stage).Holds true u →
      runCode t (emitFpPlaceMove c.src (.fpReg hold) stage c.wide) σ u = σ u := by
  obtain ⟨hmade, hkept⟩ := emitFpPlaceMove_spec (t := t) (σ := σ)
    (m := ⟨c.src, .fpReg hold, c.wide⟩) hc trivial hst
  exact ⟨hmade, fun u h1 h2 h3 => hkept u h1 (h2 _) h3⟩

/-- A source is staged, where none was. -/
lemma FpShape.pending_stage (hs : FpShape hold moves ms) (h : FpCopy hold stage moves) {c : FpMove}
    (hc : c ∈ ms) (hnone : ∀ m ∈ ms, m.src ≠ .fpReg hold)
    (hp : Pending (ms.map FpMove.toMove) (Untracked moves) σ fin) :
    Pending ((ms.map (redirectFp hold c.src)).map FpMove.toMove) (Untracked moves)
      (runCode t (emitFpPlaceMove c.src (.fpReg hold) stage c.wide) σ) fin := by
  obtain ⟨hcFp, -, hcStage, -, -⟩ := hs.places h hc
  obtain ⟨hmade, hkept⟩ := stage_spec (t := t) (σ := σ) hold hcFp hcStage
  refine hp.reroute ?_ ?_
  · intro o₂ ho₂ p' hp'
    obtain ⟨o₁, ho₁, rfl⟩ := List.mem_map.mp ho₂
    obtain ⟨o, ho, rfl⟩ := List.mem_map.mp ho₁
    obtain ⟨hoFp, hoDst, hoStage, -, -⟩ := hs.places h ho
    by_cases heq : o.src = c.src
    · have hwide : o.wide = c.wide := by
        obtain ⟨o₀, ho₀, -, hw, hor⟩ := hs.orig o ho
        obtain ⟨c₀, hc₀, -, hw', hor'⟩ := hs.orig c hc
        have h1 := hor.resolve_right (hnone o ho)
        have h2 := hor'.resolve_right (hnone c hc)
        rw [hw, hw']
        refine ((h.srcs o₀ ho₀ c₀ hc₀).resolve_right fun hapart => ?_).2
        rw [← h1, ← h2, heq, hcFp.overlap_self] at hapart
        cases hapart
      have hred : redirectFp hold c.src o = ⟨.fpReg hold, o.dst, o.wide⟩ := by
        simp [redirectFp, heq]
      rw [hred] at hp'
      rcases FpMove.mem_pairs.mp hp' with rfl | ⟨hw, rfl⟩
      · refine ⟨_, List.mem_map.mpr ⟨o, ho, rfl⟩, _, FpMove.mem_pairs.mpr (Or.inl rfl), rfl, ?_⟩
        have hlow := hmade _ (FpMove.mem_pairs.mpr (Or.inl rfl))
        rw [heq, hwide]
        exact hlow
      · refine ⟨_, List.mem_map.mpr ⟨o, ho, rfl⟩, _, FpMove.mem_pairs.mpr (Or.inr ⟨hw, rfl⟩), rfl, ?_⟩
        have hhigh := hmade _ (FpMove.mem_pairs.mpr (Or.inr ⟨hwide ▸ hw, rfl⟩))
        rw [heq]
        exact hhigh
    · have hred : redirectFp hold c.src o = o := if_neg heq
      rw [hred] at hp' ⊢
      refine ⟨_, List.mem_map.mpr ⟨o, ho, rfl⟩, p', hp', rfl, ?_⟩
      have hholds := (FpMove.holds_of_mem hoFp hoDst hp').1
      refine hkept _ (fun hreg => ?_) hholds.ne_gpr fun hreg => ?_
      · exact not_holds_of_not_overlap (not_overlap_fpReg (hnone o ho)) hreg hholds
      · exact not_holds_of_not_overlap (not_overlap_fpReg hoStage) hreg hholds
  · intro u hu hfree
    obtain ⟨h1, h2, h3⟩ := h.tracked hu
    refine Or.inl ⟨hkept u h2 h1 h3, fun o₁ ho₁ hw => ?_⟩
    obtain ⟨o, ho, rfl⟩ := List.mem_map.mp ho₁
    refine hfree _ (List.mem_map.mpr ⟨_, List.mem_map.mpr ⟨o, ho, rfl⟩, rfl⟩) ?_
    obtain ⟨p, hpo, rfl⟩ := hw
    rcases FpMove.mem_pairs.mp hpo with rfl | ⟨hw, rfl⟩
    · exact ⟨_, FpMove.mem_pairs.mpr (Or.inl rfl), by rw [redirectFp_dst, redirectFp_wide]⟩
    · exact ⟨_, FpMove.mem_pairs.mpr (Or.inr ⟨by rw [redirectFp_wide, hw], rfl⟩),
        by rw [redirectFp_dst]⟩

/-! ## A second source in the hold register -/

/-- A staged move `a` is pending, its source is lost, and every other source is zero. -/
structure Tainted (hold : ℕ) (a : FpMove) (ms : List FpMove) (σ : Cell → Word) : Prop where
  pending : a ∈ ms
  staged : a.src = .fpReg hold
  others : ∀ m ∈ ms, m.src ≠ .fpReg hold → σ (m.src.low m.wide) = 0

/-- The move `a` is made, and left a zero. -/
structure Spoiled (a : FpMove) (ms : List FpMove) (σ : Cell → Word) : Prop where
  made : ∀ m ∈ ms, m.dst ≠ a.dst
  zero : σ (a.dst.low a.wide) = 0

lemma Spoiled.kept (h : FpCopy hold stage moves) {a a₀ : FpMove} (ha₀ : a₀ ∈ moves)
    (hdst : a.dst = a₀.dst) (hwide : a.wide = a₀.wide) {σ' : Cell → Word} {ms' : List FpMove}
    (hms' : ∀ m ∈ ms', m.dst ≠ a.dst) (hspoiled : Spoiled a ms σ)
    (hkept : ∀ u, a₀.dst.Holds a₀.wide u → σ' u = σ u) : Spoiled a ms' σ' where
  made := hms'
  zero := by
    rw [hkept _ (by rw [hdst, hwide]; exact (h.places a₀ ha₀).2.holds_low)]
    exact hspoiled.zero

/-- Staging over a staged source loses it. -/
lemma Tainted.staging (hs : FpShape hold moves ms) (h : FpCopy hold stage moves) {a c : FpMove}
    (ht : Tainted hold a ms σ) (hc : c ∈ ms) (hsrc : c.src ≠ .fpReg hold) :
    Tainted hold a (ms.map (redirectFp hold c.src))
        (runCode t (emitFpPlaceMove c.src (.fpReg hold) stage c.wide) σ) ∧
      runCode t (emitFpPlaceMove c.src (.fpReg hold) stage c.wide) σ (.fpLow hold) = 0 := by
  obtain ⟨hcFp, -, hcStage, -, -⟩ := hs.places h hc
  obtain ⟨hmade, hkept⟩ := stage_spec (t := t) (σ := σ) hold hcFp hcStage
  refine ⟨⟨?_, ht.staged, fun m' hm' hm'src => ?_⟩, ?_⟩
  · refine List.mem_map.mpr ⟨a, ht.pending, if_neg ?_⟩
    rw [ht.staged]
    exact Ne.symm hsrc
  · obtain ⟨m, hm, rfl⟩ := List.mem_map.mp hm'
    have hred : redirectFp hold c.src m = m := by
      refine if_neg fun heq => hm'src ?_
      simp [redirectFp, heq]
    rw [hred] at hm'src ⊢
    obtain ⟨hmFp, -, hmStage, -, -⟩ := hs.places h hm
    rw [hkept _ (fun hreg => ?_) hmFp.holds_low.ne_gpr fun hreg => ?_]
    · exact ht.others m hm hm'src
    · exact not_holds_of_not_overlap (not_overlap_fpReg hm'src) hreg hmFp.holds_low
    · exact not_holds_of_not_overlap (not_overlap_fpReg hmStage) hreg hmFp.holds_low
  · rw [← ht.others c hc hsrc]
    exact hmade _ (FpMove.mem_pairs.mpr (Or.inl rfl))

/-- Making a move leaves the other sources, and the hold register. -/
lemma Tainted.make {i : ℕ} (hs : FpShape hold moves ms) (h : FpCopy hold stage moves) {a : FpMove}
    (ht : Tainted hold a ms σ) (hzero : σ (.fpLow hold) = 0) (hm : ms[i]? = some m)
    (hfree : fpTargetStillASource ms i m = false) :
    (Tainted hold a (swapRemove ms i)
          (runCode t (emitFpPlaceMove m.src m.dst stage m.wide) σ) ∧
        runCode t (emitFpPlaceMove m.src m.dst stage m.wide) σ (.fpLow hold) = 0) ∨
      Spoiled a (swapRemove ms i) (runCode t (emitFpPlaceMove m.src m.dst stage m.wide) σ) := by
  have hmem := List.mem_of_getElem? hm
  obtain ⟨hsrcFp, hdstFp, hstage, hdstHold, -⟩ := hs.places h hmem
  obtain ⟨hmade, hkept⟩ := emitFpPlaceMove_spec (t := t) (σ := σ) hsrcFp hdstFp hstage
  by_cases heq : m = a
  · subst heq
    refine Or.inr ⟨fun o ho => (mem_of_swapRemove hs.nodup hm ho).2, ?_⟩
    rw [hmade _ (FpMove.mem_pairs.mpr (Or.inl rfl)), ht.staged]
    exact hzero
  · have hpending : a ∈ swapRemove ms i :=
      (List.mem_cons.mp ((perm_swapRemove hm).mem_iff.mp ht.pending)).resolve_left (Ne.symm heq)
    refine Or.inl ⟨⟨hpending, ht.staged, fun o ho hosrc => ?_⟩, ?_⟩
    · have homs := (mem_of_swapRemove hs.nodup hm ho).1
      obtain ⟨hoFp, -, hoStage, -, -⟩ := hs.places h homs
      rw [hkept _ (not_holds_of_not_overlap ?_ hoFp.holds_low) (hoFp.holds_low.ne_gpr _) fun hreg => ?_]
      · exact ht.others o homs hosrc
      · simpa using List.any_eq_false.mp hfree o homs
      · exact not_holds_of_not_overlap (not_overlap_fpReg hoStage) hreg hoFp.holds_low
    · have hnotStage : ¬ (Place.fpReg stage).Holds true (.fpLow hold) := by
        rintro (hreg | hreg)
        · exact h.scratch (by injection hreg)
        · cases hreg
      have hnotDst : ¬ m.dst.Holds m.wide (.fpLow hold) := fun hreg =>
        not_holds_of_not_overlap (w := true) (not_overlap_fpReg hdstHold) (Or.inl rfl) hreg
      rw [hkept _ hnotDst (by simp) hnotStage]
      exact hzero

/-- From a tainted state on, the schedule ends with a zero in the destination of `a`. -/
lemma spoiled_of_tainted (h : FpCopy hold stage moves) {a a₀ : FpMove} (ha₀ : a₀ ∈ moves)
    (hdst : a.dst = a₀.dst) (hwide : a.wide = a₀.wide) {fuel : ℕ} (hfuel : fpMeasure hold ms ≤ fuel)
    (hs : FpShape hold moves ms) (ht : Tainted hold a ms (runCode t code σ₀))
    (hzero : runCode t code σ₀ (.fpLow hold) = 0) : ∃ code',
      whileSome (fpRound hold stage) fuel (ms, code) = ([], code') ∧
        runCode t code' σ₀ (a.dst.low a.wide) = 0 := by
  let I : List FpMove → List Transfer → Prop := fun ms code => FpShape hold moves ms ∧
    ((Tainted hold a ms (runCode t code σ₀) ∧ runCode t code σ₀ (.fpLow hold) = 0) ∨
      Spoiled a ms (runCode t code σ₀))
  have hmake : ∀ ms code i m, I ms code → ms[i]? = some m → fpTargetStillASource ms i m = false →
      I (swapRemove ms i) (code ++ emitFpPlaceMove m.src m.dst stage m.wide) ∧
        fpMeasure hold (swapRemove ms i) < fpMeasure hold ms := by
    rintro ms code i m ⟨hs, hor⟩ hm hfree
    refine ⟨⟨(hs.make hm).1, ?_⟩, (hs.make hm).2⟩
    rw [runCode_append]
    rcases hor with ⟨ht, hzero⟩ | hspoiled
    · exact ht.make hs h hzero hm hfree
    · have hmem := List.mem_of_getElem? hm
      obtain ⟨hsrcFp, hdstFp, hstage, -, -⟩ := hs.places h hmem
      obtain ⟨-, hkept⟩ := emitFpPlaceMove_spec (t := t) (σ := runCode t code σ₀) hsrcFp hdstFp hstage
      refine Or.inr (hspoiled.kept h ha₀ hdst hwide
        (fun o ho => hspoiled.made o (mem_of_swapRemove hs.nodup hm ho).1) fun u hu => ?_)
      obtain ⟨m₀, hm₀, hmd, hmw, -⟩ := hs.orig m hmem
      have hne : a₀ ≠ m₀ := fun heq => hspoiled.made m hmem (by rw [hdst, hmd, heq])
      refine hkept u ?_ (hu.ne_gpr _) fun hreg => ?_
      · rw [hmd, hmw]
        exact not_holds_of_not_overlap (h.dst_apart ha₀ hm₀ hne) hu
      · exact not_holds_of_not_overlap (not_overlap_fpReg (h.dstApart a₀ ha₀).2) hreg hu
  have hbreak : ∀ ms code, I ms code → ms ≠ [] → Stalled fpTargetStillASource ms →
      I (stageFpSource hold stage ms).1 (code ++ (stageFpSource hold stage ms).2) ∧
        fpMeasure hold (stageFpSource hold stage ms).1 < fpMeasure hold ms := by
    rintro ms code ⟨hs, hor⟩ hne hstalled
    obtain ⟨c, hc, hsrc, heq⟩ := hs.stageFpSource_eq h hne hstalled
    rw [heq]
    obtain ⟨hshape, hlt⟩ := hs.redirect hc hsrc
    refine ⟨⟨hshape, ?_⟩, hlt⟩
    rw [runCode_append]
    rcases hor with ⟨ht, -⟩ | hspoiled
    · exact Or.inl (ht.staging hs h hc hsrc)
    · obtain ⟨hcFp, -, hcStage, -, -⟩ := hs.places h hc
      obtain ⟨-, hkept⟩ := stage_spec (t := t) (σ := runCode t code σ₀) hold hcFp hcStage
      refine Or.inr (hspoiled.kept h ha₀ hdst hwide (fun m' hm' => ?_) fun u hu => ?_)
      · obtain ⟨m, hm, rfl⟩ := List.mem_map.mp hm'
        rw [redirectFp_dst]
        exact hspoiled.made m hm
      · refine hkept u (fun hreg => ?_) hu.ne_gpr fun hreg => ?_
        · exact not_holds_of_not_overlap (not_overlap_fpReg (h.dstApart a₀ ha₀).1) hreg hu
        · exact not_holds_of_not_overlap (not_overlap_fpReg (h.dstApart a₀ ha₀).2) hreg hu
  obtain ⟨code', hloop, -, hend⟩ := schedule_rule I (fpMeasure hold) hmake hbreak
    (show I ms code from ⟨hs, Or.inl ⟨ht, hzero⟩⟩) hfuel
  refine ⟨code', hloop, ?_⟩
  rcases hend with ⟨hend, -⟩ | hend
  · exact absurd hend.pending List.not_mem_nil
  · exact hend.zero

/-! ## Whole schedules -/

/-- The code so far leaves the pending moves to be made. -/
def Good (t : Target) (moves kept ms : List FpMove) (code : List Transfer) : Prop :=
  ∀ σ fin, Pending (kept.map FpMove.toMove) (Untracked moves) σ fin →
    Pending (ms.map FpMove.toMove) (Untracked moves) (runCode t code σ) fin

/-- Some start shows that the code does not make the moves. -/
def Wrong (t : Target) (moves : List FpMove) (code : List Transfer) : Prop :=
  ∃ (σ : Cell → Word), ∃ m ∈ moves, runCode t code σ (m.dst.low m.wide) ≠ σ (m.src.low m.wide)

/-- The moves of a copy have a final store. -/
lemma FpCopy.exists_pending (h : FpCopy hold stage moves) {kept : List FpMove} (hsub : kept ⊆ moves)
    (σ : Cell → Word) : ∃ fin, Pending (kept.map FpMove.toMove) (Untracked moves) σ fin := by
  refine ParallelMove.exists_pending _ _ σ ?_
  intro m₁ hm₁ p hp o₁ ho₁ q hq hpq
  obtain ⟨m, hm, rfl⟩ := List.mem_map.mp hm₁
  obtain ⟨o, ho, rfl⟩ := List.mem_map.mp ho₁
  have hmh := (FpMove.holds_of_mem (h.places m (hsub hm)).1 (h.places m (hsub hm)).2 hp).2
  have hoh := (FpMove.holds_of_mem (h.places o (hsub ho)).1 (h.places o (hsub ho)).2 hq).2
  have heq : m = o := by
    by_contra hne
    rw [hpq] at hmh
    exact not_holds_of_not_overlap (h.dst_apart (hsub hm) (hsub ho) hne) hmh hoh
  subst heq
  have hlowHigh : ∀ {a : Place}, a.IsFp → a.low true ≠ a.high := by
    intro a ha
    cases a with
    | fpReg r => simp [Place.low, Place.high]
    | spill n => simp [Place.low, Place.high]
    | _ => exact ha.elim
  have hdstFp := (h.places m (hsub hm)).2
  rcases FpMove.mem_pairs.mp hp with rfl | ⟨hw, rfl⟩ <;>
    rcases FpMove.mem_pairs.mp hq with rfl | ⟨hw', rfl⟩
  · rfl
  · simp only [hw'] at hpq
    exact absurd hpq (hlowHigh hdstFp)
  · simp only [hw] at hpq
    exact absurd hpq.symm (hlowHigh hdstFp)
  · rfl

/-- Where the schedule stalls with a source in the hold register, its code is wrong. -/
lemma FpShape.wrong (hs : FpShape hold moves ms) (h : FpCopy hold stage moves)
    {kept : List FpMove} (hsub : kept ⊆ moves)
    (hlater : ∀ m ∈ ms, ∃ k ∈ kept, k.dst = m.dst)
    (hgood : Good t moves kept ms code) (hstalled : Stalled fpTargetStillASource ms) {a : FpMove}
    (ha : a ∈ ms) (hahold : a.src = .fpReg hold) {fuel : ℕ} (hfuel : fpMeasure hold ms ≤ fuel + 1) :
    ∃ code', whileSome (fpRound hold stage) (fuel + 1) (ms, code) = ([], code') ∧
      Wrong t moves code' := by
  obtain ⟨a₀, ha₀, hdst, hwide, -⟩ := hs.orig a ha
  -- one in the source of `a`, and zero everywhere else
  set σ : Cell → Word := Function.update (fun _ => 0) (a₀.src.low a₀.wide) 1 with hσ
  obtain ⟨fin, hfin⟩ := h.exists_pending hsub σ
  have hpending := hgood σ fin hfin
  have ht : Tainted hold a ms (runCode t code σ) := by
    refine ⟨ha, hahold, fun m hm hmsrc => ?_⟩
    obtain ⟨m₀, hm₀, hmd, hmw, -⟩ := hs.orig m hm
    obtain ⟨k, hk, hkd⟩ := hlater m hm
    have hkm₀ : k = m₀ := h.eq_of_dst (hsub hk) hm₀ (hkd.trans hmd)
    have hwants := hpending.wants _ (List.mem_map.mpr ⟨m, hm, rfl⟩) _
      (FpMove.mem_pairs.mpr (Or.inl rfl))
    have hstart := hfin.wants _ (List.mem_map.mpr ⟨k, hk, rfl⟩) _
      (FpMove.mem_pairs.mpr (Or.inl rfl))
    simp only [FpMove.toMove, id_eq] at hwants hstart
    rw [hwants, hmd, hmw, ← hkm₀, ← hstart, hkm₀, hσ]
    refine Function.update_of_ne (fun heq => ?_) _ _
    -- a source that shares a word with the source of `a` is that source, and staged with it
    have hsrc : m₀.src = a₀.src := by
      refine ((h.srcs m₀ hm₀ a₀ ha₀).resolve_right fun hapart => ?_).1
      have hlow := (h.places m₀ hm₀).1.holds_low (w := m₀.wide)
      rw [heq] at hlow
      exact not_holds_of_not_overlap hapart hlow (h.places a₀ ha₀).1.holds_low
    exact hmsrc ((hs.together m hm a ha m₀ hm₀ a₀ ha₀ hmd hdst hsrc).trans hahold)
  have hne : ms ≠ [] := List.ne_nil_of_mem ha
  obtain ⟨c, hc, hcsrc, heq⟩ := hs.stageFpSource_eq h hne hstalled
  obtain ⟨hshape, hlt⟩ := hs.redirect hc hcsrc
  obtain ⟨ht', hzero⟩ := ht.staging hs h hc hcsrc (t := t)
  obtain ⟨code', hloop, hend⟩ := spoiled_of_tainted h ha₀ hdst hwide
    (show fpMeasure hold (ms.map (redirectFp hold c.src)) ≤ fuel by omega) hshape
    (show Tainted hold a _ (runCode t (code ++ emitFpPlaceMove c.src (.fpReg hold) stage c.wide) σ)
      by rwa [runCode_append]) (by rwa [runCode_append])
  have hround : fpRound hold stage (ms, code) = some (ms.map (redirectFp hold c.src),
      code ++ emitFpPlaceMove c.src (.fpReg hold) stage c.wide) := by
    cases hr : fpRound hold stage (ms, code) with
    | none => exact absurd (round_eq_none hr) hne
    | some s' =>
      obtain ⟨-, ⟨-, -, hnot⟩ | ⟨-, rfl⟩⟩ := round_cases
        (fun ms _ => FpShape hold moves ms) (fpMeasure hold) (fun ms _ i m hI hm _ => hI.make hm)
        hs hr
      · exact absurd hstalled hnot
      · rw [heq]
  refine ⟨code', (whileSome_of_some hround fuel).trans hloop, σ, a₀, ha₀, ?_⟩
  rw [← hdst, ← hwide, hend, hwide, hσ, Function.update_self]
  decide

/-- A round keeps the shape. -/
lemma FpShape.round {ms' : List FpMove} {code' : List Transfer} (hs : FpShape hold moves ms)
    (h : FpCopy hold stage moves) (hround : fpRound hold stage (ms, code) = some (ms', code')) :
    FpShape hold moves ms' := by
  obtain ⟨hne, ⟨hs', -, -⟩ | ⟨hstalled, heq⟩⟩ := round_cases
    (fun ms _ => FpShape hold moves ms) (fpMeasure hold) (fun ms _ i m hI hm _ => hI.make hm)
    hs hround
  · exact hs'
  · obtain ⟨c, hc, hcsrc, hstage⟩ := hs.stageFpSource_eq h hne hstalled
    rw [hstage] at heq
    obtain ⟨rfl, -⟩ := Prod.mk.inj heq
    exact (hs.redirect hc hcsrc).1

lemma FpShape.rounds {k : ℕ} {s s' : List FpMove × List Transfer} (h : FpCopy hold stage moves)
    (hr : Rounds (fpRound hold stage) k s s') (hs : FpShape hold moves s.1) :
    FpShape hold moves s'.1 := by
  induction hr with
  | refl => exact hs
  | head hround _ ih => exact ih (hs.round h hround)

/-- A schedule that goes on after a round is as free as from there, but for that round. -/
lemma holdFreeFrom_iff {s s' : List FpMove × List Transfer} (h : fpRound hold stage s = some s') :
    HoldFreeFrom hold stage s ↔
      (Stalled fpTargetStillASource s.1 → ∀ m ∈ s.1, m.src ≠ .fpReg hold) ∧
        HoldFreeFrom hold stage s' := by
  constructor
  · exact fun hfree => ⟨hfree 0 s.1 s.2 (Rounds.refl _),
      fun k ms code hr => hfree (k + 1) ms code (Rounds.head h hr)⟩
  · rintro ⟨hnow, hlater⟩ k ms code hr
    cases hr with
    | refl => exact hnow
    | head hs hr =>
      rw [h] at hs
      obtain rfl := Option.some.inj hs
      exact hlater _ ms code hr

/-- With no move pending no source is in the hold register. -/
lemma holdFreeFrom_nil {s : List FpMove × List Transfer} (h : fpRound hold stage s = none) :
    HoldFreeFrom hold stage s := by
  intro k ms code hr
  cases hr with
  | refl =>
    have hempty : ms = [] := round_eq_none h
    intro _ m hm
    rw [hempty] at hm
    cases hm
  | head hs _ =>
    rw [h] at hs
    cases hs

/-- **How a schedule ends**: with the moves made, or with code that does not make them, as it never
stalls with a source in the hold register or it does. -/
theorem fp_outcome (h : FpCopy hold stage moves) {kept : List FpMove} (hsub : kept ⊆ moves)
    (fuel : ℕ) (hfuel : fpMeasure hold ms ≤ fuel) (hs : FpShape hold moves ms)
    (hlater : ∀ m ∈ ms, ∃ k ∈ kept, k.dst = m.dst) (hgood : Good t moves kept ms code) :
    ∃ code', whileSome (fpRound hold stage) fuel (ms, code) = ([], code') ∧
      (HoldFreeFrom hold stage (ms, code) → Good t moves kept [] code') ∧
      (¬ HoldFreeFrom hold stage (ms, code) → Wrong t moves code') := by
  induction fuel generalizing ms code with
  | zero =>
    have hempty : ms = [] := List.length_eq_zero_iff.mp (by unfold fpMeasure at hfuel; omega)
    subst hempty
    exact ⟨code, rfl, fun _ => hgood, fun hnot => absurd (holdFreeFrom_nil rfl) hnot⟩
  | succ fuel ih =>
    cases hround : fpRound hold stage (ms, code) with
    | none =>
      have hempty : ms = [] := round_eq_none hround
      subst hempty
      exact ⟨code, whileSome_of_none hround _, fun _ => hgood,
        fun hnot => absurd (holdFreeFrom_nil hround) hnot⟩
    | some s' =>
      obtain ⟨ms', code'⟩ := s'
      have hiff := holdFreeFrom_iff hround
      rw [whileSome_of_some hround, hiff]
      have hcases := round_cases
        (fun ms code => FpShape hold moves ms ∧ (∀ m ∈ ms, ∃ k ∈ kept, k.dst = m.dst) ∧
          Good t moves kept ms code) (fpMeasure hold)
        (fun ms code i m ⟨hs, hlater, hgood⟩ hm hfree => by
          refine ⟨⟨(hs.make hm).1, fun o ho => hlater o (mem_of_swapRemove hs.nodup hm ho).1,
            fun σ fin hfin => ?_⟩, (hs.make hm).2⟩
          rw [runCode_append]
          exact hs.pending_make h hm hfree (hgood σ fin hfin))
        ⟨hs, hlater, hgood⟩ hround
      obtain ⟨hne, ⟨⟨hs', hlater', hgood'⟩, hlt, hnot⟩ | ⟨hstalled, heq⟩⟩ := hcases
      · -- moves are made
        have hlt' : fpMeasure hold ms' < fpMeasure hold ms := hlt
        obtain ⟨fin, hloop, hyes, hno⟩ := ih (by omega) hs' hlater' hgood'
        exact ⟨fin, hloop, fun hfree => hyes hfree.2,
          fun hfree => hno fun hfree' => hfree ⟨fun hst => absurd hst hnot, hfree'⟩⟩
      · by_cases hstaged : ∃ a ∈ ms, a.src = .fpReg hold
        · -- a second source is staged over the first
          obtain ⟨a, ha, hahold⟩ := hstaged
          obtain ⟨fin, hloop, hwrong⟩ := hs.wrong h hsub hlater hgood hstalled ha hahold hfuel
          rw [whileSome_of_some hround] at hloop
          exact ⟨fin, hloop, fun hfree => absurd hahold (hfree.1 hstalled a ha), fun _ => hwrong⟩
        · push Not at hstaged
          obtain ⟨c, hc, hcsrc, hstage⟩ := hs.stageFpSource_eq h hne hstalled
          rw [hstage] at heq
          obtain ⟨rfl, rfl⟩ := Prod.mk.inj heq
          obtain ⟨hs', hlt⟩ := hs.redirect hc hcsrc
          obtain ⟨fin, hloop, hyes, hno⟩ := ih (by omega) hs'
            (fun m' hm' => by
              obtain ⟨m, hm, rfl⟩ := List.mem_map.mp hm'
              rw [redirectFp_dst]
              exact hlater m hm)
            (fun σ fin hfin => by
              rw [runCode_append]
              exact hs.pending_stage h hc hstaged (hgood σ fin hfin))
          exact ⟨fin, hloop, fun hfree => hyes hfree.2,
            fun hfree => hno fun hfree' => hfree ⟨fun _ => hstaged, hfree'⟩⟩

lemma FpCopy.writes_of_mem (h : FpCopy hold stage moves) (hm : m ∈ moves) (ho : o ∈ moves)
    {p : Cell × Cell} (hp : p ∈ m.toMove.pairs) (hw : o.toMove.Writes p.2) : m = o := by
  by_contra hne
  obtain ⟨q, hq, hqp⟩ := hw
  have hmh := (FpMove.holds_of_mem (h.places m hm).1 (h.places m hm).2 hp).2
  have hoh := (FpMove.holds_of_mem (h.places o ho).1 (h.places o ho).2 hq).2
  rw [hqp] at hoh
  exact not_holds_of_not_overlap (h.dst_apart hm ho hne) hmh hoh

/-- Code after which no move is pending makes the moves of a copy. -/
lemma FpCopy.copies (h : FpCopy hold stage moves)
    (hgood : Good t moves (moves.filter fun m => !placeSameLoc m.src m.dst) [] code) :
    CopiesFp t moves code := by
  intro σ m hm p hp
  obtain ⟨fin, hfin⟩ := h.exists_pending List.filter_sublist.subset σ
  have hin : ¬ Untracked moves p.2 := fun hout => hout m hm ⟨p, hp, rfl⟩
  rw [(hgood σ fin hfin).done rfl hin]
  by_cases hsame : placeSameLoc m.src m.dst = true
  · -- a move in place is left out, and nothing else writes its words
    have hplace := (placeSameLoc_iff.mp hsame).1
    have hself : p.1 = p.2 := by
      rcases FpMove.mem_pairs.mp hp with rfl | ⟨-, rfl⟩ <;> rw [hplace]
    rw [hself]
    refine (hfin.settled _ hin fun o₁ ho₁ hw => ?_).symm
    obtain ⟨o, ho, rfl⟩ := List.mem_map.mp ho₁
    obtain ⟨hom, hnot⟩ := List.mem_filter.mp ho
    obtain rfl := h.writes_of_mem hm hom hp hw
    rw [hsame] at hnot
    cases hnot
  · have hkept : m ∈ moves.filter fun m => !placeSameLoc m.src m.dst :=
      List.mem_filter.mpr ⟨hm, by simpa using hsame⟩
    exact (hfin.wants _ (List.mem_map.mpr ⟨m, hkept, rfl⟩) p hp).symm

end

/-- **Where destinations overlap sources only as whole places, the schedule never stalls with a
source in the hold register**: a stalled schedule is then a permutation of its destinations. -/
theorem HoldFree.of_aligned {hold stage : ℕ} {moves : List FpMove} (h : FpCopy hold stage moves)
    (haligned : ∀ m ∈ moves, ∀ o ∈ moves, placesOverlap o.src o.wide m.dst m.wide = true →
      o.src = m.dst) : HoldFree hold stage moves := by
  intro k ms code hr hstalled
  have hs : FpShape hold moves ms := FpShape.rounds h hr h.shape
  have hread : ∀ m ∈ ms, ∃ o ∈ ms, o.src = m.dst := by
    intro m hm
    obtain ⟨i, hi⟩ := List.mem_iff_getElem?.mp hm
    obtain ⟨o, ho, hover⟩ := List.any_eq_true.mp (hstalled i m hi)
    obtain ⟨m₀, hm₀, hmd, hmw, -⟩ := hs.orig m hm
    obtain ⟨o₀, ho₀, -, how, hsrc | hsrc⟩ := hs.orig o ho
    · refine ⟨o, ho, ?_⟩
      rw [hsrc, hmd]
      rw [hsrc, hmd, how, hmw] at hover
      exact haligned m₀ hm₀ o₀ ho₀ hover
    · rw [hsrc, not_overlap_fpReg (hs.places h hm).2.2.2.1] at hover
      cases hover
  intro m hm hhold
  have hsrcs := (perm_of_stalled hs.nodup hread).mem_iff.mpr (List.mem_map_of_mem (f := FpMove.src) hm)
  obtain ⟨o, ho, hod⟩ := List.mem_map.mp hsrcs
  exact (hs.places h ho).2.2.2.1 (hod.trans hhold)

/-- **Floating-point parallel moves are scheduled right exactly where the schedule never stalls with
a source in the hold register**, and the schedule always ends. -/
theorem scheduleFpPlaceMoves_correct_iff (t : Target) {hold stage : ℕ} {moves : List FpMove}
    (h : FpCopy hold stage moves) {fuel : ℕ} (hfuel : 2 * moves.length ≤ fuel) :
    ∃ code, scheduleFpPlaceMoves hold stage fuel moves = some code ∧
      (CopiesFp t moves code ↔ HoldFree hold stage moves) := by
  set kept := moves.filter fun m => !placeSameLoc m.src m.dst with hkept
  have hsub : kept ⊆ moves := List.filter_sublist.subset
  have hmeasure : fpMeasure hold kept ≤ fuel := by
    have hlen : kept.length ≤ moves.length := List.length_filter_le _ _
    have hcount := List.countP_le_length (p := fun m : FpMove => decide (m.src ≠ .fpReg hold)) (l := kept)
    unfold fpMeasure
    omega
  obtain ⟨code, hloop, hyes, hno⟩ := fp_outcome h hsub fuel hmeasure h.shape
    (fun m hm => ⟨m, hm, rfl⟩) (show Good t moves kept kept [] from fun σ fin hfin => hfin)
  refine ⟨code, schedule_eq_some hloop, fun hcopies => ?_, fun hfree => h.copies (hyes hfree)⟩
  by_contra hnot
  obtain ⟨σ, m, hm, hwrong⟩ := hno hnot
  exact hwrong (hcopies σ m hm _ (FpMove.mem_pairs.mpr (Or.inl rfl)))

/-- A register swap, made through the hold register. -/
theorem scheduleFpPlaceMoves_correct_iff_swap :
    FpCopy 14 15 [⟨.fpReg 1, .fpReg 2, true⟩, ⟨.fpReg 2, .fpReg 1, true⟩] ∧
    HoldFree 14 15 [⟨.fpReg 1, .fpReg 2, true⟩, ⟨.fpReg 2, .fpReg 1, true⟩] ∧
    ∃ code, scheduleFpPlaceMoves 14 15 4 [⟨.fpReg 1, .fpReg 2, true⟩, ⟨.fpReg 2, .fpReg 1, true⟩] =
        some code ∧
      (CopiesFp ⟨false, fun _ => none, 16, fun _ x => x, id⟩
          [⟨.fpReg 1, .fpReg 2, true⟩, ⟨.fpReg 2, .fpReg 1, true⟩] code ↔
        HoldFree 14 15 [⟨.fpReg 1, .fpReg 2, true⟩, ⟨.fpReg 2, .fpReg 1, true⟩]) := by
  have h : FpCopy 14 15 [⟨.fpReg 1, .fpReg 2, true⟩, ⟨.fpReg 2, .fpReg 1, true⟩] :=
    ⟨by simp [Place.IsFp], by decide, by decide, by decide, by decide, by decide⟩
  exact ⟨h, HoldFree.of_aligned h (by decide),
    scheduleFpPlaceMoves_correct_iff _ h (by decide : 2 * 2 ≤ 4)⟩

/-- A wide move over two narrow slots that both move out, and whose source they overwrite: the
second of the two is staged over the first. -/
theorem scheduleFpPlaceMoves_overwrites :
    FpCopy 14 15 [⟨.spill 2, .spill 0, false⟩, ⟨.spill 3, .spill 1, false⟩,
      ⟨.spill 0, .spill 2, true⟩] ∧
    ∃ code, scheduleFpPlaceMoves 14 15 6 [⟨.spill 2, .spill 0, false⟩,
        ⟨.spill 3, .spill 1, false⟩, ⟨.spill 0, .spill 2, true⟩] = some code ∧
      ¬ CopiesFp ⟨false, fun _ => none, 16, fun _ x => x, id⟩ [⟨.spill 2, .spill 0, false⟩,
        ⟨.spill 3, .spill 1, false⟩, ⟨.spill 0, .spill 2, true⟩] code := by
  refine ⟨⟨by simp [Place.IsFp], by decide, by decide, by decide, by decide, by decide⟩,
    [.fpSpillLoad 2 14, .fpSpillLoad 3 14, .v128SpillLoad 0 15, .v128SpillStore 2 15,
      .fpSpillStore 0 14, .fpSpillStore 1 14], by decide, fun hcopies => ?_⟩
  have hzero := hcopies (fun u => if u = .unit 2 then 1 else 0) ⟨.spill 2, .spill 0, false⟩
    (by simp) (.unit 2, .unit 0) (by simp [FpMove.toMove, Place.low])
  revert hzero
  decide

end Emit

end Badc
