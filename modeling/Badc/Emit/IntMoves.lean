import Badc.Emit.Moves

/-!
# Integer moves

`schedule_place_moves` and `schedule_reg_moves_via_scratch`.  The destinations of the pending moves
are distinct, so where every one of them is still read, the sources are the same places in another
order (`perm_of_stalled`): each source has one reader, and none of them is the register that holds a
staged source.  So staging a source loses nothing, and it frees the move that writes its place; an
exchange makes the move whose registers it exchanges.
-/

namespace Badc

namespace Emit

open ParallelMove (Pending)

lemma placeSameLoc_iff {a b : Place} : placeSameLoc a b = true ↔ a = b ∧ a ≠ .none := by
  cases a <;> cases b <;> simp [placeSameLoc]

/-- As many distinct destinations as sources, and each of them a source: the sources are the
destinations. -/
lemma perm_of_stalled {α β : Type} {ms : List α} {src dst : α → β} (hnd : (ms.map dst).Nodup)
    (h : ∀ m ∈ ms, ∃ o ∈ ms, src o = dst m) : (ms.map dst).Perm (ms.map src) := by
  have hsub : (ms.map dst).Subperm (ms.map src) := by
    refine hnd.subperm fun d hd => ?_
    obtain ⟨m, hm, rfl⟩ := List.mem_map.mp hd
    obtain ⟨o, ho, hod⟩ := h m hm
    exact List.mem_map.mpr ⟨o, ho, hod⟩
  exact hsub.perm_of_length_le (by simp)

lemma mem_of_swapRemove {α β : Type} {ms : List α} {dst : α → β} {i : ℕ} {m o : α}
    (hnd : (ms.map dst).Nodup) (hm : ms[i]? = some m) (ho : o ∈ swapRemove ms i) :
    o ∈ ms ∧ dst o ≠ dst m := by
  have hperm := perm_swapRemove hm
  refine ⟨hperm.mem_iff.mpr (List.mem_cons_of_mem m ho), fun heq => ?_⟩
  have hnd' : (dst m :: (swapRemove ms i).map dst).Nodup := (hperm.map dst).nodup_iff.mp hnd
  exact (List.nodup_cons.mp hnd').1 (List.mem_map.mpr ⟨o, ho, heq⟩)

lemma nodup_swapRemove {α β : Type} {ms : List α} {dst : α → β} {i : ℕ} {m : α}
    (hnd : (ms.map dst).Nodup) (hm : ms[i]? = some m) : ((swapRemove ms i).map dst).Nodup :=
  (List.nodup_cons.mp (((perm_swapRemove hm).map dst).nodup_iff.mp hnd)).2

/-! ## Moves between registers and spill slots -/

/-- The storage of an integer place. -/
def Place.cell : Place → Cell
  | .intReg r => .gpr r
  | .spill n => .unit n
  | .fpReg r => .fpLow r
  | .none => .gpr 0

/-- An integer register or a spill slot. -/
def Place.IsInt : Place → Prop
  | .intReg _ | .spill _ => True
  | _ => False

/-- What a move does to the value it moves. -/
def convert (ext : Option LoadKind) (x : Word) : Word :=
  match ext with
  | some kind => signExtend kind x
  | none => x

/-- A move of one word. -/
def PlaceMove.toMove (m : PlaceMove) : ParallelMove.Move Cell Word :=
  ⟨[(m.src.cell, m.dst.cell)], convert m.ext⟩

section

variable {t : Target} {hold stage : ℕ} {m : PlaceMove} {ms : List PlaceMove} {σ σ₀ fin : Cell → Word}

lemma Place.IsInt.cell_inj {a b : Place} (ha : a.IsInt) (hb : b.IsInt) (h : a.cell = b.cell) :
    a = b := by
  cases a <;> cases b <;> simp_all [Place.IsInt, Place.cell]

lemma Place.IsInt.ne_none {a : Place} (ha : a.IsInt) : a ≠ .none := by
  rintro rfl
  exact ha

/-- The scratch registers of the schedule. -/
def IsScratch (hold stage : ℕ) (u : Cell) : Prop := u = .gpr hold ∨ u = .gpr stage

lemma run_regMove (ext : Option LoadKind) (d s : ℕ) :
    (regMove ext d s).run t σ = Function.update σ (.gpr d) (convert ext (σ (.gpr s))) := by
  cases ext <;> rfl

lemma run_intSpillStore (slot s base : ℕ) : (Transfer.intSpillStore slot s base).run t σ =
    Function.update (t.formAddress slot base σ) (.unit slot) (t.formAddress slot base σ (.gpr s)) :=
  rfl

lemma run_intSpillLoad (slot d : ℕ) :
    (Transfer.intSpillLoad slot d).run t σ = Function.update σ (.gpr d) (σ (.unit slot)) := rfl

lemma run_intSpillStoreStaged (slot stage hold : ℕ) :
    (Transfer.intSpillStoreStaged slot stage hold).run t σ =
      Function.update σ (.unit slot) (t.formAddress slot hold σ (.gpr stage)) := rfl

lemma formAddress_of_ne {slot base : ℕ} {u : Cell} (hu : u ≠ .gpr base) :
    t.formAddress slot base σ u = σ u := by
  unfold Target.formAddress
  cases t.far slot with
  | some a => exact Function.update_of_ne hu _ _
  | none => rfl

/-- **An emitted move writes its destination**, and besides it `stage` alone. -/
lemma emitPlaceMove_spec (hsrc : m.src.IsInt) (hdst : m.dst.IsInt) (hs : m.src ≠ .intReg stage)
    (hd : m.dst ≠ .intReg stage) (hne : hold ≠ stage) :
    runCode t (emitPlaceMove m stage hold) σ m.dst.cell = convert m.ext (σ m.src.cell) ∧
      ∀ u, u ≠ m.dst.cell → u ≠ .gpr stage →
        runCode t (emitPlaceMove m stage hold) σ u = σ u := by
  obtain ⟨src, dst, ext⟩ := m
  have hstage : (Cell.gpr stage) ≠ .gpr hold := by simpa using hne.symm
  cases src with
  | intReg s =>
    have hs' : (Cell.gpr s) ≠ .gpr stage := by simpa using hs
    cases dst with
    | intReg d =>
      simp only [emitPlaceMove, runCode, Place.cell, List.foldl_cons, List.foldl_nil, run_regMove,
        Function.update_self]
      exact ⟨trivial, fun u hu _ => Function.update_of_ne hu _ _⟩
    | spill slot =>
      cases ext with
      | none =>
        simp only [emitPlaceMove, runCode, Place.cell, Option.isNone_none, if_true, List.foldl_cons,
          List.foldl_nil, run_intSpillStore, Function.update_self, convert]
        refine ⟨formAddress_of_ne hs', fun u hu hu' => ?_⟩
        rw [Function.update_of_ne hu, formAddress_of_ne hu']
      | some kind =>
        simp only [emitPlaceMove, runCode, Place.cell, Option.isNone_some, Bool.false_eq_true,
          if_false, List.foldl_cons, List.foldl_nil, run_regMove, run_intSpillStoreStaged,
          Function.update_self]
        refine ⟨?_, fun u hu hu' => ?_⟩
        · rw [formAddress_of_ne hstage, Function.update_self]
        · rw [Function.update_of_ne hu, Function.update_of_ne hu']
    | _ => exact hdst.elim
  | spill ss =>
    cases dst with
    | intReg d =>
      cases ext with
      | none =>
        simp only [emitPlaceMove, runCode, Place.cell, Option.isSome_none, Bool.false_eq_true,
          if_false, List.foldl_cons, List.foldl_nil, run_intSpillLoad, Function.update_self, convert]
        exact ⟨trivial, fun u hu _ => Function.update_of_ne hu _ _⟩
      | some kind =>
        simp only [emitPlaceMove, runCode, Place.cell, Option.isSome_some, if_true, List.foldl_cons,
          List.foldl_nil, run_regMove, run_intSpillLoad, Function.update_self]
        refine ⟨trivial, fun u hu _ => ?_⟩
        rw [Function.update_of_ne hu, Function.update_of_ne hu]
    | spill ds =>
      have hfirst : ∀ u, u ≠ Cell.gpr stage → Function.update σ (.gpr stage) (σ (.unit ss)) u = σ u :=
        fun u hu => Function.update_of_ne hu _ _
      cases ext with
      | none =>
        simp only [emitPlaceMove, runCode, Place.cell, Option.isSome_none, Bool.false_eq_true,
          if_false, List.cons_append, List.nil_append, List.foldl_cons, List.foldl_nil,
          run_intSpillLoad, run_intSpillStoreStaged, Function.update_self, convert]
        refine ⟨?_, fun u hu hu' => ?_⟩
        · rw [formAddress_of_ne hstage, Function.update_self]
        · rw [Function.update_of_ne hu, hfirst u hu']
      | some kind =>
        simp only [emitPlaceMove, runCode, Place.cell, Option.isSome_some, if_true,
          List.cons_append, List.nil_append, List.foldl_cons, List.foldl_nil, run_regMove,
          run_intSpillLoad, run_intSpillStoreStaged, Function.update_self]
        refine ⟨?_, fun u hu hu' => ?_⟩
        · rw [formAddress_of_ne hstage, Function.update_self]
        · rw [Function.update_of_ne hu, Function.update_of_ne hu', hfirst u hu']
    | _ => exact hdst.elim
  | _ => exact hsrc.elim

/-- What the schedule keeps of the pending moves and the code so far. -/
structure IntInv (t : Target) (hold stage : ℕ) (σ₀ fin : Cell → Word) (ms : List PlaceMove)
    (code : List Transfer) : Prop where
  srcInt : ∀ m ∈ ms, m.src.IsInt
  dstInt : ∀ m ∈ ms, m.dst.IsInt
  srcStage : ∀ m ∈ ms, m.src ≠ .intReg stage
  dstStage : ∀ m ∈ ms, m.dst ≠ .intReg stage
  dstHold : ∀ m ∈ ms, m.dst ≠ .intReg hold
  noNop : ∀ m ∈ ms, m.isNop = false
  nodup : (ms.map PlaceMove.dst).Nodup
  pending : Pending (ms.map PlaceMove.toMove) (IsScratch hold stage) (runCode t code σ₀) fin

/-- Rounds to come: two for a move, and one where no source is staged. -/
def intMeasure (hold : ℕ) (ms : List PlaceMove) : ℕ :=
  2 * ms.length + if .intReg hold ∈ ms.map PlaceMove.src then 0 else 1

/-- Making a move keeps the invariant. -/
lemma IntInv.make (hne : hold ≠ stage) {code : List Transfer} {i : ℕ}
    (h : IntInv t hold stage σ₀ fin ms code) (hm : ms[i]? = some m)
    (hfree : targetStillASource ms i m = false) :
    IntInv t hold stage σ₀ fin (swapRemove ms i) (code ++ emitPlaceMove m stage hold) := by
  have hmem : m ∈ ms := List.mem_of_getElem? hm
  have hrest : ∀ o ∈ swapRemove ms i, o ∈ ms ∧ o.dst ≠ m.dst := fun o ho =>
    mem_of_swapRemove h.nodup hm ho
  obtain ⟨hmade, hkept⟩ := emitPlaceMove_spec (t := t) (σ := runCode t code σ₀) (h.srcInt m hmem)
    (h.dstInt m hmem) (h.srcStage m hmem) (h.dstStage m hmem) hne
  have hunread : ∀ o ∈ swapRemove ms i, o.src.cell ≠ m.dst.cell := by
    intro o ho heq
    obtain ⟨homs, hdst⟩ := hrest o ho
    obtain ⟨j, hj⟩ := List.mem_iff_getElem?.mp homs
    have hij : j ≠ i := by
      rintro rfl
      rw [hm] at hj
      exact hdst (by rw [Option.some.inj hj])
    have hsame : o.src = m.dst := (h.srcInt o homs).cell_inj (h.dstInt m hmem) heq
    have htrue : targetStillASource ms i m = true := by
      refine List.any_eq_true.mpr ⟨(o, j), List.mem_zipIdx_iff_getElem?.mpr hj, ?_⟩
      simp [hij, placeSameLoc_iff.mpr ⟨hsame, (h.srcInt o homs).ne_none⟩]
    rw [hfree] at htrue
    cases htrue
  refine ⟨fun o ho => h.srcInt o (hrest o ho).1, fun o ho => h.dstInt o (hrest o ho).1,
    fun o ho => h.srcStage o (hrest o ho).1, fun o ho => h.dstStage o (hrest o ho).1,
    fun o ho => h.dstHold o (hrest o ho).1, fun o ho => h.noNop o (hrest o ho).1,
    nodup_swapRemove h.nodup hm, ?_⟩
  have hpending := h.pending.perm ((perm_swapRemove hm).map PlaceMove.toMove)
  rw [runCode_append]
  refine hpending.emit ?_ ?_ ?_ ?_
  · intro p hp
    obtain rfl := List.mem_singleton.mp hp
    exact hmade
  · intro u hu hscratch
    refine hkept u (fun heq => hu ⟨_, List.mem_singleton_self _, heq.symm⟩) fun heq => ?_
    exact hscratch (Or.inr heq)
  · rintro o₁ ho₁ u ⟨p, hp, rfl⟩ ⟨q, hq, hqp⟩
    obtain ⟨o, ho, rfl⟩ := List.mem_map.mp ho₁
    obtain rfl := List.mem_singleton.mp hp
    obtain rfl := List.mem_singleton.mp hq
    exact hunread o ho hqp.symm
  · rintro o₁ ho₁ u ⟨p, hp, rfl⟩ -
    obtain ⟨o, ho, rfl⟩ := List.mem_map.mp ho₁
    obtain rfl := List.mem_singleton.mp hp
    refine hkept _ (hunread o ho) fun heq => ?_
    exact h.srcStage o (hrest o ho).1
      ((h.srcInt o (hrest o ho).1).cell_inj (b := .intReg stage) trivial heq)

lemma IntInv.perm {code : List Transfer} (h : IntInv t hold stage σ₀ fin ms code)
    (hstalled : Stalled targetStillASource ms) :
    (ms.map PlaceMove.dst).Perm (ms.map PlaceMove.src) := by
  refine perm_of_stalled h.nodup fun m hm => ?_
  obtain ⟨i, hi⟩ := List.mem_iff_getElem?.mp hm
  obtain ⟨⟨o, j⟩, ho, hsame⟩ := List.any_eq_true.mp (hstalled i m hi)
  simp only [Bool.and_eq_true] at hsame
  exact ⟨o, List.mem_of_getElem? (List.mem_zipIdx_iff_getElem?.mp ho),
    (placeSameLoc_iff.mp hsame.2).1⟩

lemma redirect_dst (old new : Place) (m : PlaceMove) : (redirect old new m).dst = m.dst := by
  unfold redirect
  split <;> rfl

lemma redirect_ext (old new : Place) (m : PlaceMove) : (redirect old new m).ext = m.ext := by
  unfold redirect
  split <;> rfl

/-- Staging a source keeps the invariant. -/
lemma IntInv.stageSource (hne : hold ≠ stage) {code : List Transfer} (hms : ms ≠ [])
    (h : IntInv t hold stage σ₀ fin ms code)
    (hperm : (ms.map PlaceMove.dst).Perm (ms.map PlaceMove.src)) :
    IntInv t hold stage σ₀ fin (Emit.stageSource hold stage ms).1
        (code ++ (Emit.stageSource hold stage ms).2) ∧
      intMeasure hold (Emit.stageSource hold stage ms).1 < intMeasure hold ms := by
  have hholdSrc : ∀ m ∈ ms, m.src ≠ .intReg hold := by
    intro m hm heq
    obtain ⟨o, ho, hdst⟩ := List.mem_map.mp
      (hperm.mem_iff.mpr (List.mem_map.mpr ⟨m, hm, rfl⟩ : m.src ∈ ms.map PlaceMove.src))
    exact h.dstHold o ho (hdst.trans heq)
  unfold Emit.stageSource
  cases hfind : (ms.map PlaceMove.src).find? fun s => !placeSameLoc s (.intReg hold) with
  | none =>
    exfalso
    obtain ⟨m, rest, rfl⟩ := List.exists_cons_of_ne_nil hms
    have hsame := List.find?_eq_none.mp hfind m.src (List.mem_map.mpr ⟨m, (.head _), rfl⟩)
    simp only [Bool.not_eq_true', Bool.not_eq_false] at hsame
    exact hholdSrc m (.head _) (placeSameLoc_iff.mp hsame).1
  | some cyc =>
    obtain ⟨c, hc, rfl⟩ := List.mem_map.mp (List.mem_of_find?_eq_some hfind)
    have hred : ∀ o ∈ ms, (redirect c.src (.intReg hold) o).src =
        if o.src = c.src then .intReg hold else o.src := by
      intro o ho
      unfold redirect
      by_cases heq : o.src = c.src
      · rw [if_pos heq, if_pos (placeSameLoc_iff.mpr ⟨heq, (h.srcInt o ho).ne_none⟩)]
      · rw [if_neg heq, if_neg fun hsame => heq (placeSameLoc_iff.mp hsame).1]
    have hnew : ∀ o' ∈ ms.map (redirect c.src (.intReg hold)), o'.src.IsInt ∧
        o'.src ≠ .intReg stage := by
      intro o' ho'
      obtain ⟨o, ho, rfl⟩ := List.mem_map.mp ho'
      rw [hred o ho]
      split
      · exact ⟨trivial, by simpa using hne⟩
      · exact ⟨h.srcInt o ho, h.srcStage o ho⟩
    have hold' : ∀ o' ∈ ms.map (redirect c.src (.intReg hold)), ∃ o ∈ ms, o'.dst = o.dst := by
      intro o' ho'
      obtain ⟨o, ho, rfl⟩ := List.mem_map.mp ho'
      exact ⟨o, ho, redirect_dst _ _ _⟩
    obtain ⟨hmade, hkept⟩ := emitPlaceMove_spec (t := t) (σ := runCode t code σ₀)
      (m := .copy c.src (.intReg hold)) (h.srcInt c hc) trivial (h.srcStage c hc)
      (by simpa [PlaceMove.copy] using hne) hne
    refine ⟨⟨fun o' ho' => (hnew o' ho').1, fun o' ho' => ?_, fun o' ho' => (hnew o' ho').2,
      fun o' ho' => ?_, fun o' ho' => ?_, fun o' ho' => ?_, ?_, ?_⟩, ?_⟩
    · obtain ⟨o, ho, heq⟩ := hold' o' ho'
      rw [heq]
      exact h.dstInt o ho
    · obtain ⟨o, ho, heq⟩ := hold' o' ho'
      rw [heq]
      exact h.dstStage o ho
    · obtain ⟨o, ho, heq⟩ := hold' o' ho'
      rw [heq]
      exact h.dstHold o ho
    · obtain ⟨o, ho, rfl⟩ := List.mem_map.mp ho'
      by_cases heq : o.src = c.src
      · have hsrc := hred o ho
        rw [if_pos heq] at hsrc
        have hdst : placeSameLoc (.intReg hold) o.dst = false := by
          rw [Bool.eq_false_iff]
          exact fun hsame => h.dstHold o ho (placeSameLoc_iff.mp hsame).1.symm
        simp [PlaceMove.isNop, hsrc, redirect_dst, hdst]
      · have hsame : redirect c.src (.intReg hold) o = o :=
          if_neg fun hsame => heq (placeSameLoc_iff.mp hsame).1
        rw [hsame]
        exact h.noNop o ho
    · have heq : (ms.map (redirect c.src (.intReg hold))).map PlaceMove.dst =
          ms.map PlaceMove.dst := by
        rw [List.map_map]
        exact List.map_congr_left fun o _ => redirect_dst _ _ o
      rw [heq]
      exact h.nodup
    · rw [runCode_append]
      refine h.pending.reroute ?_ ?_
      · intro o' ho' p' hp'
        obtain ⟨o₁, ho₁, rfl⟩ := List.mem_map.mp ho'
        obtain ⟨o, ho, rfl⟩ := List.mem_map.mp ho₁
        obtain rfl := List.mem_singleton.mp hp'
        refine ⟨_, List.mem_map.mpr ⟨o, ho, rfl⟩, _, List.mem_singleton_self _, ?_, ?_⟩
        · rw [redirect_dst]
        · simp only [PlaceMove.toMove, redirect_ext, hred o ho]
          split
          · next heq =>
            rw [heq]
            exact congrArg _ hmade
          · have h1 : o.src.cell ≠ .gpr hold := fun heq =>
              hholdSrc o ho ((h.srcInt o ho).cell_inj (b := .intReg hold) trivial heq)
            have h2 : o.src.cell ≠ .gpr stage := fun heq =>
              h.srcStage o ho ((h.srcInt o ho).cell_inj (b := .intReg stage) trivial heq)
            rw [hkept _ h1 h2]
      · intro u hu hfree
        refine Or.inl ⟨hkept u (fun heq => hu (Or.inl heq)) fun heq => hu (Or.inr heq),
          fun o₁ ho₁ hw => ?_⟩
        obtain ⟨o, ho, rfl⟩ := List.mem_map.mp ho₁
        refine hfree _ (List.mem_map.mpr ⟨_, List.mem_map.mpr ⟨o, ho, rfl⟩, rfl⟩) ?_
        obtain ⟨p, hp, rfl⟩ := hw
        obtain rfl := List.mem_singleton.mp hp
        exact ⟨_, List.mem_singleton_self _, by rw [redirect_dst]⟩
    · have hin : Place.intReg hold ∈ (ms.map (redirect c.src (.intReg hold))).map PlaceMove.src := by
        refine List.mem_map.mpr ⟨_, List.mem_map.mpr ⟨c, hc, rfl⟩, ?_⟩
        rw [hred c hc, if_pos rfl]
      have hout : Place.intReg hold ∉ ms.map PlaceMove.src := by
        intro hin'
        obtain ⟨o, ho, heq⟩ := List.mem_map.mp hin'
        exact hholdSrc o ho heq
      unfold intMeasure
      rw [if_pos hin, if_neg hout, List.length_map]
      omega

lemma registers_eq_some {s d : ℕ} :
    m.registers = some (s, d) ↔ m = ⟨.intReg s, .intReg d, none⟩ := by
  obtain ⟨src, dst, ext⟩ := m
  cases src <;> cases dst <;> cases ext <;> simp [PlaceMove.registers]

lemma runCode_xchg {a b : ℕ} (hab : a ≠ b) : runCode t [.intRegXchg a b] σ (.gpr a) = σ (.gpr b) ∧
    runCode t [.intRegXchg a b] σ (.gpr b) = σ (.gpr a) ∧
    ∀ u, u ≠ .gpr a → u ≠ .gpr b → runCode t [.intRegXchg a b] σ u = σ u := by
  have heq : runCode t [.intRegXchg a b] σ =
      Function.update (Function.update σ (.gpr a) (σ (.gpr b))) (.gpr b) (σ (.gpr a)) := rfl
  rw [heq]
  refine ⟨?_, Function.update_self _ _ _, fun u ha hb => ?_⟩
  · rw [Function.update_of_ne (by simpa using hab), Function.update_self]
  · rw [Function.update_of_ne hb, Function.update_of_ne ha]

/-- The moves after the registers of the move at `i` are exchanged, with its own. -/
def exchanged (s d i : ℕ) (ms : List PlaceMove) : List PlaceMove :=
  (ms.map (redirect (.intReg d) (.intReg s))).modify i fun m => { m with src := .intReg d }

/-- The moves after an exchange: the one at `i` does nothing, the readers of `d` read `s`. -/
lemma getElem?_exchanged {s d i j : ℕ} (hm : ms[i]? = some ⟨.intReg s, .intReg d, none⟩) :
    (exchanged s d i ms)[j]? = if j = i then some ⟨.intReg d, .intReg d, none⟩
      else ms[j]?.map (redirect (.intReg d) (.intReg s)) := by
  unfold exchanged
  rw [List.getElem?_modify, List.getElem?_map]
  by_cases hj : j = i
  · subst hj
    rw [if_pos rfl, hm]
    simp [redirect_dst, redirect_ext]
  · rw [if_neg hj]
    cases ms[j]? with
    | none => rfl
    | some o => simp [Ne.symm hj]

/-- Exchanging two registers keeps the invariant. -/
lemma IntInv.exchange {code : List Transfer} {i s d : ℕ}
    (h : IntInv t hold stage σ₀ fin ms code) (hm : ms[i]? = some ⟨.intReg s, .intReg d, none⟩)
    (hperm : (ms.map PlaceMove.dst).Perm (ms.map PlaceMove.src)) :
    IntInv t hold stage σ₀ fin ((exchanged s d i ms).filter fun m => !m.isNop)
        (code ++ [.intRegXchg s d]) ∧
      intMeasure hold ((exchanged s d i ms).filter fun m => !m.isNop) < intMeasure hold ms := by
  have hmem := List.mem_of_getElem? hm
  have hsd : s ≠ d := by
    rintro rfl
    have hnop := h.noNop _ hmem
    simp [PlaceMove.isNop, placeSameLoc] at hnop
  have hsrcNodup : (ms.map PlaceMove.src).Nodup := hperm.nodup_iff.mp h.nodup
  have hother : ∀ j o, ms[j]? = some o → j ≠ i → o.src ≠ .intReg s := by
    intro j o hj hji heq
    have hj' : (ms.map PlaceMove.src)[j]? = some (.intReg s) := by rw [List.getElem?_map, hj, ← heq]; rfl
    have hi' : (ms.map PlaceMove.src)[i]? = some (.intReg s) := by rw [List.getElem?_map, hm]; rfl
    have hlt := (List.getElem?_eq_some_iff.mp hj').1
    exact hji ((List.getElem?_inj hlt hsrcNodup).mp (hj'.trans hi'.symm))
  have hred : ∀ o ∈ ms, (redirect (.intReg d) (.intReg s) o).src =
      if o.src = .intReg d then .intReg s else o.src := by
    intro o ho
    unfold redirect
    by_cases heq : o.src = .intReg d
    · rw [if_pos heq, if_pos (placeSameLoc_iff.mpr ⟨heq, (h.srcInt o ho).ne_none⟩)]
    · rw [if_neg heq, if_neg fun hsame => heq (placeSameLoc_iff.mp hsame).1]
  have hlen : (exchanged s d i ms).length = ms.length := by simp [exchanged]
  -- a move that is left comes from one at another place
  have hleft : ∀ o' ∈ (exchanged s d i ms).filter fun m => !m.isNop, ∃ j o, j ≠ i ∧
      ms[j]? = some o ∧ o' = redirect (.intReg d) (.intReg s) o := by
    intro o' ho'
    obtain ⟨hin, hnop⟩ := List.mem_filter.mp ho'
    obtain ⟨j, hj⟩ := List.mem_iff_getElem?.mp hin
    rw [getElem?_exchanged hm] at hj
    by_cases hji : j = i
    · rw [if_pos hji] at hj
      obtain rfl := Option.some.inj hj
      simp [PlaceMove.isNop, placeSameLoc] at hnop
    · rw [if_neg hji] at hj
      obtain ⟨o, ho, rfl⟩ := Option.map_eq_some_iff.mp hj
      exact ⟨j, o, hji, ho, rfl⟩
  obtain ⟨hnewS, hnewD, hkept⟩ := runCode_xchg (t := t) (σ := runCode t code σ₀) hsd
  refine ⟨⟨fun o' ho' => ?_, fun o' ho' => ?_, fun o' ho' => ?_, fun o' ho' => ?_, fun o' ho' => ?_,
    fun o' ho' => ?_, ?_, ?_⟩, ?_⟩
  · obtain ⟨j, o, -, ho, rfl⟩ := hleft o' ho'
    rw [hred o (List.mem_of_getElem? ho)]
    split
    · trivial
    · exact h.srcInt o (List.mem_of_getElem? ho)
  · obtain ⟨j, o, -, ho, rfl⟩ := hleft o' ho'
    rw [redirect_dst]
    exact h.dstInt o (List.mem_of_getElem? ho)
  · obtain ⟨j, o, -, ho, rfl⟩ := hleft o' ho'
    rw [hred o (List.mem_of_getElem? ho)]
    split
    · exact h.srcStage _ hmem
    · exact h.srcStage o (List.mem_of_getElem? ho)
  · obtain ⟨j, o, -, ho, rfl⟩ := hleft o' ho'
    rw [redirect_dst]
    exact h.dstStage o (List.mem_of_getElem? ho)
  · obtain ⟨j, o, -, ho, rfl⟩ := hleft o' ho'
    rw [redirect_dst]
    exact h.dstHold o (List.mem_of_getElem? ho)
  · simpa using (List.mem_filter.mp ho').2
  · refine List.Nodup.sublist (List.Sublist.map _ List.filter_sublist) ?_
    have heq : (exchanged s d i ms).map PlaceMove.dst = ms.map PlaceMove.dst := by
      refine List.ext_getElem? fun j => ?_
      rw [List.getElem?_map, List.getElem?_map, getElem?_exchanged hm]
      split
      · next hj =>
        rw [hj, hm]
        rfl
      · cases ms[j]? with
        | none => rfl
        | some o => exact congrArg some (redirect_dst _ _ o)
    rw [heq]
    exact h.nodup
  · rw [runCode_append]
    refine h.pending.reroute ?_ ?_
    · intro o' ho' p' hp'
      obtain ⟨o₁, ho₁, rfl⟩ := List.mem_map.mp ho'
      obtain ⟨j, o, hji, ho, rfl⟩ := hleft o₁ ho₁
      obtain rfl := List.mem_singleton.mp hp'
      have homs := List.mem_of_getElem? ho
      refine ⟨_, List.mem_map.mpr ⟨o, homs, rfl⟩, _, List.mem_singleton_self _, ?_, ?_⟩
      · rw [redirect_dst]
      · simp only [PlaceMove.toMove, redirect_ext, hred o homs]
        split
        · next heq =>
          rw [heq]
          exact congrArg _ hnewS
        · next heq =>
          have h1 : o.src.cell ≠ .gpr d := fun hc =>
            heq ((h.srcInt o homs).cell_inj (b := .intReg d) trivial hc)
          have h2 : o.src.cell ≠ .gpr s := fun hc =>
            hother j o ho hji ((h.srcInt o homs).cell_inj (b := .intReg s) trivial hc)
          rw [hkept _ h2 h1]
    · intro u hu hfree
      by_cases hex : ∃ o ∈ ms, o.dst.cell = u
      · -- the move that wrote `u` is done
        obtain ⟨o, ho, rfl⟩ := hex
        obtain ⟨j, hj⟩ := List.mem_iff_getElem?.mp ho
        have hfin := h.pending.wants _ (List.mem_map.mpr ⟨o, ho, rfl⟩) _ (List.mem_singleton_self _)
        simp only [PlaceMove.toMove] at hfin
        refine Or.inr ?_
        rw [← hfin]
        by_cases hji : j = i
        · rw [hji, hm] at hj
          obtain rfl := Option.some.inj hj
          exact hnewD
        · have hj' : (exchanged s d i ms)[j]? = some (redirect (.intReg d) (.intReg s) o) := by
            rw [getElem?_exchanged hm, if_neg hji, hj]
            rfl
          have hnop : (redirect (.intReg d) (.intReg s) o).isNop = true := by
            by_contra hcon
            refine hfree _ (List.mem_map.mpr ⟨_, List.mem_filter.mpr
              ⟨List.mem_of_getElem? hj', by simpa using hcon⟩, rfl⟩)
              ⟨_, List.mem_singleton_self _, ?_⟩
            rw [redirect_dst]
          have hsame : o.src = .intReg d := by
            by_contra hcon
            have heq : redirect (.intReg d) (.intReg s) o = o :=
              if_neg fun hsame => hcon (placeSameLoc_iff.mp hsame).1
            rw [heq, h.noNop o ho] at hnop
            cases hnop
          simp only [PlaceMove.isNop, redirect_ext, redirect_dst, hred o ho, if_pos hsame,
            Bool.and_eq_true, Option.isNone_iff_eq_none] at hnop
          rw [← (placeSameLoc_iff.mp hnop.2).1, hsame, hnop.1]
          exact hnewS
      · push Not at hex
        have h1 : u ≠ .gpr d := fun heq => hex _ hmem heq.symm
        have h2 : u ≠ .gpr s := by
          intro heq
          have hin : Place.intReg s ∈ ms.map PlaceMove.dst :=
            hperm.mem_iff.mpr (List.mem_map.mpr ⟨_, hmem, rfl⟩)
          obtain ⟨o, ho, hdst⟩ := List.mem_map.mp hin
          exact hex o ho (by rw [hdst, heq]; rfl)
        refine Or.inl ⟨hkept u h2 h1, fun o₁ ho₁ hw => ?_⟩
        obtain ⟨o, ho, rfl⟩ := List.mem_map.mp ho₁
        obtain ⟨p, hp, rfl⟩ := hw
        obtain rfl := List.mem_singleton.mp hp
        exact hex o ho rfl
  · have hlt : ((exchanged s d i ms).filter fun m => !m.isNop).length < ms.length := by
      rw [← hlen]
      refine List.length_filter_lt_length_iff_exists.mpr ⟨⟨.intReg d, .intReg d, none⟩, ?_, ?_⟩
      · refine List.mem_of_getElem? (i := i) ?_
        rw [getElem?_exchanged hm, if_pos rfl]
      · simp [PlaceMove.isNop, placeSameLoc]
    unfold intMeasure
    split <;> split <;> omega

/-- Breaking a cycle keeps the invariant. -/
lemma IntInv.breakCycle (hne : hold ≠ stage) {code : List Transfer} (hms : ms ≠ [])
    (h : IntInv t hold stage σ₀ fin ms code)
    (hstalled : Stalled targetStillASource ms) :
    IntInv t hold stage σ₀ fin (breakPlaceCycle t.xchg hold stage ms).1
        (code ++ (breakPlaceCycle t.xchg hold stage ms).2) ∧
      intMeasure hold (breakPlaceCycle t.xchg hold stage ms).1 < intMeasure hold ms := by
  have hperm := h.perm hstalled
  unfold breakPlaceCycle
  dsimp only
  split
  · next i s d hpair =>
    obtain ⟨k, -, hk⟩ := Option.bind_eq_some_iff.mp hpair
    obtain ⟨r, hr, heq⟩ := Option.map_eq_some_iff.mp hk
    obtain ⟨m, hm, hregs⟩ := Option.bind_eq_some_iff.mp hr
    simp only [Prod.mk.injEq] at heq
    obtain ⟨rfl, rfl⟩ := heq
    split
    · obtain rfl := registers_eq_some.mp hregs
      exact h.exchange hm hperm
    · exact h.stageSource hne hms hperm
  · exact h.stageSource hne hms hperm

/-- A parallel copy over integer registers and spill slots: distinct destinations, and the scratch
registers outside all places. -/
structure IntCopy (hold stage : ℕ) (moves : List PlaceMove) : Prop where
  distinct : (moves.map PlaceMove.dst).Nodup
  places : ∀ m ∈ moves, m.src.IsInt ∧ m.dst.IsInt
  srcApart : ∀ m ∈ moves, m.src ≠ .intReg hold ∧ m.src ≠ .intReg stage
  dstApart : ∀ m ∈ moves, m.dst ≠ .intReg hold ∧ m.dst ≠ .intReg stage
  scratch : hold ≠ stage

/-- The code makes the moves in parallel. -/
structure CopiesInt (t : Target) (hold stage : ℕ) (moves : List PlaceMove) (code : List Transfer) :
    Prop where
  made : ∀ (σ : Cell → Word), ∀ m ∈ moves,
    runCode t code σ m.dst.cell = convert m.ext (σ m.src.cell)
  kept : ∀ (σ : Cell → Word) u, u ≠ .gpr hold → u ≠ .gpr stage → (∀ m ∈ moves, m.dst.cell ≠ u) →
    runCode t code σ u = σ u

/-- The schedule ends, with code that makes the moves. -/
theorem schedulePlaceMoves_spec {moves : List PlaceMove} (h : IntCopy hold stage moves) {fuel : ℕ}
    (hfuel : 2 * moves.length + 1 ≤ fuel) : ∃ code,
      schedulePlaceMoves t hold stage fuel moves = some (.ok code) ∧
      CopiesInt t hold stage moves code := by
  set kept := moves.filter fun m => !m.isNop with hkept
  have hsub : ∀ m ∈ kept, m ∈ moves := fun m hm => (List.mem_filter.mp hm).1
  have hnd : (kept.map PlaceMove.dst).Nodup :=
    h.distinct.sublist (List.Sublist.map _ List.filter_sublist)
  have hstart : ∀ σ : Cell → Word,
      ∃ fin, Pending (kept.map PlaceMove.toMove) (IsScratch hold stage) σ fin := by
    intro σ
    refine ParallelMove.exists_pending _ _ σ ?_
    intro m₁ hm₁ p hp o₁ ho₁ q hq hpq
    obtain ⟨m, hm, rfl⟩ := List.mem_map.mp hm₁
    obtain ⟨o, ho, rfl⟩ := List.mem_map.mp ho₁
    obtain rfl := List.mem_singleton.mp hp
    obtain rfl := List.mem_singleton.mp hq
    have hdst : m.dst = o.dst := (h.places m (hsub m hm)).2.cell_inj (h.places o (hsub o ho)).2 hpq
    rw [List.inj_on_of_nodup_map hnd hm ho hdst]
  let I : List PlaceMove → List Transfer → Prop := fun ms code => ∀ σ fin,
    Pending (kept.map PlaceMove.toMove) (IsScratch hold stage) σ fin →
      IntInv t hold stage σ fin ms code
  have hI : I kept [] := fun σ fin hpending =>
    ⟨fun m hm => (h.places m (hsub m hm)).1, fun m hm => (h.places m (hsub m hm)).2,
      fun m hm => (h.srcApart m (hsub m hm)).2, fun m hm => (h.dstApart m (hsub m hm)).2,
      fun m hm => (h.dstApart m (hsub m hm)).1,
      fun m hm => by simpa using (List.mem_filter.mp hm).2, hnd, hpending⟩
  obtain ⟨code, hloop, hdone⟩ := @schedule_rule _ _ targetStillASource
    (fun m => emitPlaceMove m stage hold) (breakPlaceCycle t.xchg hold stage) I (intMeasure hold)
    (fun ms code i m hms hm hfree => ⟨fun σ fin hp => (hms σ fin hp).make h.scratch hm hfree, by
      have hlen := length_swapRemove hm
      unfold intMeasure
      split <;> split <;> omega⟩)
    (fun ms code hms hne hstalled => by
      obtain ⟨fin, hfin⟩ := hstart fun _ => 0
      exact ⟨fun σ fin hp => ((hms σ fin hp).breakCycle h.scratch hne hstalled).1,
        ((hms _ fin hfin).breakCycle h.scratch hne hstalled).2⟩)
    kept [] hI fuel (by
      have hlen : kept.length ≤ moves.length := List.length_filter_le _ _
      unfold intMeasure
      split <;> omega)
  have hcode := schedule_eq_some hloop
  refine ⟨code, ?_, fun σ m hm => ?_, fun σ u hhold hstage hfree => ?_⟩
  · unfold schedulePlaceMoves
    rw [← hkept]
    dsimp only
    rw [hcode]
    refine if_neg ?_
    rw [Bool.not_eq_true, List.any_eq_false]
    intro m hm
    have hsrc := (h.places m (hsub m hm)).1
    have hdst := (h.places m (hsub m hm)).2
    cases hs : m.src <;> cases hd : m.dst <;> simp_all [Place.IsInt]
  · obtain ⟨fin, hfin⟩ := hstart σ
    have hfinal := (hdone σ fin hfin).pending
    have hscratch : ¬ IsScratch hold stage m.dst.cell := by
      rintro (heq | heq)
      · exact (h.dstApart m hm).1 ((h.places m hm).2.cell_inj (b := .intReg hold) trivial heq)
      · exact (h.dstApart m hm).2 ((h.places m hm).2.cell_inj (b := .intReg stage) trivial heq)
    rw [hfinal.done rfl hscratch]
    by_cases hnop : m.isNop = true
    · have hsame : m.src = m.dst ∧ m.ext = none := by
        simp only [PlaceMove.isNop, Bool.and_eq_true, Option.isNone_iff_eq_none] at hnop
        exact ⟨(placeSameLoc_iff.mp hnop.2).1, hnop.1⟩
      rw [hsame.1, hsame.2]
      refine (hfin.settled _ hscratch fun o₁ ho₁ hw => ?_).symm
      obtain ⟨o, ho, rfl⟩ := List.mem_map.mp ho₁
      obtain ⟨p, hp, hpd⟩ := hw
      obtain rfl := List.mem_singleton.mp hp
      have hdst : o.dst = m.dst := (h.places o (hsub o ho)).2.cell_inj (h.places m hm).2 hpd
      have heq := List.inj_on_of_nodup_map h.distinct (hsub o ho) hm hdst
      have hnot := (List.mem_filter.mp ho).2
      rw [heq, hnop] at hnot
      cases hnot
    · have hin : m ∈ kept := List.mem_filter.mpr ⟨hm, by simpa using hnop⟩
      exact (hfin.wants _ (List.mem_map.mpr ⟨m, hin, rfl⟩) _ (List.mem_singleton_self _)).symm
  · obtain ⟨fin, hfin⟩ := hstart σ
    have hscratch : ¬ IsScratch hold stage u := by
      rintro (heq | heq)
      · exact hhold heq
      · exact hstage heq
    rw [(hdone σ fin hfin).pending.done rfl hscratch]
    refine (hfin.settled u hscratch fun o₁ ho₁ hw => ?_).symm
    obtain ⟨o, ho, rfl⟩ := List.mem_map.mp ho₁
    obtain ⟨p, hp, hpd⟩ := hw
    obtain rfl := List.mem_singleton.mp hp
    exact hfree o (hsub o ho) hpd

end

/-! ## Moves between registers -/

section

variable {scratch : ℕ} {ms : List (ℕ × ℕ)} {σ₀ fin : ℕ → Word}

/-- A move of one register. -/
def regOf (m : ℕ × ℕ) : ParallelMove.Move ℕ Word := ⟨[m], id⟩

lemma runCopies_append (c c' : List (ℕ × ℕ)) (σ : ℕ → Word) :
    runCopies (c ++ c') σ = runCopies c' (runCopies c σ) := List.foldl_append

lemma runCopies_single (d s : ℕ) (σ : ℕ → Word) :
    runCopies [(d, s)] σ = Function.update σ d (σ s) := rfl

/-- What the schedule keeps of the pending moves and the copies so far. -/
structure RegInv (scratch : ℕ) (σ₀ fin : ℕ → Word) (ms copies : List (ℕ × ℕ)) : Prop where
  dst : ∀ m ∈ ms, m.2 ≠ scratch
  nodup : (ms.map Prod.snd).Nodup
  pending : Pending (ms.map regOf) (· = scratch) (runCopies copies σ₀) fin

/-- Rounds to come: two for a move, and one where no source is staged. -/
def regMeasure (scratch : ℕ) (ms : List (ℕ × ℕ)) : ℕ :=
  2 * ms.length + if scratch ∈ ms.map Prod.fst then 0 else 1

/-- Making a move keeps the invariant. -/
lemma RegInv.make {copies : List (ℕ × ℕ)} {i : ℕ} {m : ℕ × ℕ} (h : RegInv scratch σ₀ fin ms copies)
    (hm : ms[i]? = some m) (hfree : (ms.any fun o => o.1 = m.2) = false) :
    RegInv scratch σ₀ fin (swapRemove ms i) (copies ++ [(m.2, m.1)]) := by
  have hrest : ∀ o ∈ swapRemove ms i, o ∈ ms ∧ o.2 ≠ m.2 := fun o ho =>
    mem_of_swapRemove h.nodup hm ho
  have hunread : ∀ o ∈ swapRemove ms i, o.1 ≠ m.2 := fun o ho => by
    simpa using List.any_eq_false.mp hfree o (hrest o ho).1
  refine ⟨fun o ho => h.dst o (hrest o ho).1, nodup_swapRemove h.nodup hm, ?_⟩
  have hpending := h.pending.perm ((perm_swapRemove hm).map regOf)
  rw [runCopies_append, runCopies_single]
  refine hpending.emit ?_ ?_ ?_ ?_
  · intro p hp
    obtain rfl := List.mem_singleton.mp hp
    exact Function.update_self _ _ _
  · intro u hu _
    exact Function.update_of_ne (fun heq => hu ⟨_, List.mem_singleton_self _, heq.symm⟩) _ _
  · rintro o₁ ho₁ u ⟨p, hp, rfl⟩ ⟨q, hq, hqp⟩
    obtain ⟨o, ho, rfl⟩ := List.mem_map.mp ho₁
    obtain rfl := List.mem_singleton.mp hp
    obtain rfl := List.mem_singleton.mp hq
    exact hunread _ ho hqp.symm
  · intro o ho u _ hu
    exact Function.update_of_ne (fun heq => hu ⟨_, List.mem_singleton_self _, heq.symm⟩) _ _

/-- Staging a register keeps the invariant. -/
lemma RegInv.stage {copies : List (ℕ × ℕ)} (hms : ms ≠ []) (h : RegInv scratch σ₀ fin ms copies)
    (hstalled : ∀ m ∈ ms, ∃ o ∈ ms, o.1 = m.2) :
    RegInv scratch σ₀ fin (stageReg scratch ms).1 (copies ++ (stageReg scratch ms).2) ∧
      regMeasure scratch (stageReg scratch ms).1 < regMeasure scratch ms := by
  have hperm := perm_of_stalled h.nodup hstalled
  have hsrc : ∀ m ∈ ms, m.1 ≠ scratch := by
    intro m hm heq
    obtain ⟨o, ho, hod⟩ := List.mem_map.mp
      (hperm.mem_iff.mpr (List.mem_map.mpr ⟨m, hm, rfl⟩ : m.1 ∈ ms.map Prod.fst))
    exact h.dst o ho (hod.trans heq)
  unfold stageReg
  cases hfind : (ms.map Prod.fst).find? fun s => s ≠ scratch with
  | none =>
    exfalso
    obtain ⟨m, rest, rfl⟩ := List.exists_cons_of_ne_nil hms
    have hsame := List.find?_eq_none.mp hfind m.1 (List.mem_map.mpr ⟨m, (.head _), rfl⟩)
    exact hsame (by simpa using hsrc m (.head _))
  | some cyc =>
    obtain ⟨c, hc, rfl⟩ := List.mem_map.mp (List.mem_of_find?_eq_some hfind)
    dsimp only
    have hsnd : ∀ o : ℕ × ℕ, (if o.1 = c.1 then (scratch, o.2) else o).2 = o.2 := by
      intro o
      split <;> rfl
    refine ⟨⟨fun o' ho' => ?_, ?_, ?_⟩, ?_⟩
    · obtain ⟨o, ho, rfl⟩ := List.mem_map.mp ho'
      rw [hsnd]
      exact h.dst o ho
    · rw [List.map_map]
      have heq : ms.map (Prod.snd ∘ fun o => if o.1 = c.1 then (scratch, o.2) else o) =
          ms.map Prod.snd := List.map_congr_left fun o _ => hsnd o
      rw [heq]
      exact h.nodup
    · rw [runCopies_append, runCopies_single]
      refine h.pending.reroute ?_ ?_
      · intro o' ho' p' hp'
        obtain ⟨o₁, ho₁, rfl⟩ := List.mem_map.mp ho'
        obtain ⟨o, ho, rfl⟩ := List.mem_map.mp ho₁
        obtain rfl := List.mem_singleton.mp hp'
        refine ⟨_, List.mem_map.mpr ⟨o, ho, rfl⟩, _, List.mem_singleton_self _, (hsnd o).symm, ?_⟩
        simp only [regOf, id_eq]
        split
        · next heq => rw [Function.update_self, heq]
        · exact Function.update_of_ne (hsrc o ho) _ _
      · intro u hu hfree
        refine Or.inl ⟨Function.update_of_ne hu _ _, fun o₁ ho₁ hw => ?_⟩
        obtain ⟨o, ho, rfl⟩ := List.mem_map.mp ho₁
        refine hfree _ (List.mem_map.mpr ⟨_, List.mem_map.mpr ⟨o, ho, rfl⟩, rfl⟩) ?_
        obtain ⟨p, hp, rfl⟩ := hw
        obtain rfl := List.mem_singleton.mp hp
        exact ⟨_, List.mem_singleton_self _, hsnd _⟩
    · have hin : scratch ∈ (ms.map fun o => if o.1 = c.1 then (scratch, o.2) else o).map Prod.fst :=
        List.mem_map.mpr ⟨_, List.mem_map.mpr ⟨c, hc, rfl⟩, by rw [if_pos rfl]⟩
      have hout : scratch ∉ ms.map Prod.fst := by
        intro hin'
        obtain ⟨o, ho, heq⟩ := List.mem_map.mp hin'
        exact hsrc o ho heq
      unfold regMeasure
      rw [if_pos hin, if_neg hout, List.length_map]
      omega

/-- The copies make the moves in parallel. -/
structure CopiesRegs (scratch : ℕ) (moves copies : List (ℕ × ℕ)) : Prop where
  made : ∀ (σ : ℕ → Word), ∀ m ∈ moves, runCopies copies σ m.2 = σ m.1
  kept : ∀ (σ : ℕ → Word) r, r ≠ scratch → (∀ m ∈ moves, m.2 ≠ r) → runCopies copies σ r = σ r

/-- The schedule ends, with copies that make the moves. -/
theorem scheduleRegMovesViaScratch_spec {moves : List (ℕ × ℕ)} (hnd : (moves.map Prod.snd).Nodup)
    (hapart : ∀ m ∈ moves, m.2 ≠ scratch) {fuel : ℕ} (hfuel : 2 * moves.length + 1 ≤ fuel) :
    ∃ copies, scheduleRegMovesViaScratch scratch fuel moves = some copies ∧
      CopiesRegs scratch moves copies := by
  set kept := moves.filter fun m => m.1 ≠ m.2 with hkept
  have hsub : ∀ m ∈ kept, m ∈ moves := fun m hm => (List.mem_filter.mp hm).1
  have hnd' : (kept.map Prod.snd).Nodup := hnd.sublist (List.Sublist.map _ List.filter_sublist)
  have hstart : ∀ σ : ℕ → Word, ∃ fin, Pending (kept.map regOf) (· = scratch) σ fin := by
    intro σ
    refine ParallelMove.exists_pending _ _ σ ?_
    intro m₁ hm₁ p hp o₁ ho₁ q hq hpq
    obtain ⟨m, hm, rfl⟩ := List.mem_map.mp hm₁
    obtain ⟨o, ho, rfl⟩ := List.mem_map.mp ho₁
    obtain rfl := List.mem_singleton.mp hp
    obtain rfl := List.mem_singleton.mp hq
    rw [List.inj_on_of_nodup_map hnd' hm ho hpq]
  let I : List (ℕ × ℕ) → List (ℕ × ℕ) → Prop := fun ms copies => ∀ σ fin,
    Pending (kept.map regOf) (· = scratch) σ fin → RegInv scratch σ fin ms copies
  have hI : I kept [] := fun σ fin hpending => ⟨fun m hm => hapart m (hsub m hm), hnd', hpending⟩
  obtain ⟨copies, hloop, hdone⟩ := @schedule_rule _ _
    (fun moves _ m => moves.any fun o => o.1 = m.2) (fun m => [(m.2, m.1)]) (stageReg scratch) I
    (regMeasure scratch)
    (fun ms copies i m hms hm hfree => ⟨fun σ fin hp => (hms σ fin hp).make hm hfree, by
      have hlen := length_swapRemove hm
      unfold regMeasure
      split <;> split <;> omega⟩)
    (fun ms copies hms hne hstalled => by
      have hread : ∀ m ∈ ms, ∃ o ∈ ms, o.1 = m.2 := by
        intro m hm
        obtain ⟨i, hi⟩ := List.mem_iff_getElem?.mp hm
        obtain ⟨o, ho, heq⟩ := List.any_eq_true.mp (hstalled i m hi)
        exact ⟨o, ho, by simpa using heq⟩
      obtain ⟨fin, hfin⟩ := hstart fun _ => 0
      exact ⟨fun σ fin hp => ((hms σ fin hp).stage hne hread).1,
        ((hms _ fin hfin).stage hne hread).2⟩)
    kept [] hI fuel (by
      have hlen : kept.length ≤ moves.length := List.length_filter_le _ _
      unfold regMeasure
      split <;> omega)
  refine ⟨copies, schedule_eq_some hloop, fun σ m hm => ?_, fun σ r hr hfree => ?_⟩
  · obtain ⟨fin, hfin⟩ := hstart σ
    rw [(hdone σ fin hfin).pending.done rfl (hapart m hm)]
    by_cases hsame : m.1 = m.2
    · rw [hsame]
      refine (hfin.settled _ (hapart m hm) fun o₁ ho₁ hw => ?_).symm
      obtain ⟨o, ho, rfl⟩ := List.mem_map.mp ho₁
      obtain ⟨p, hp, hpd⟩ := hw
      obtain rfl := List.mem_singleton.mp hp
      have heq := List.inj_on_of_nodup_map hnd (hsub _ ho) hm hpd
      have hnot := (List.mem_filter.mp ho).2
      rw [heq] at hnot
      simp [hsame] at hnot
    · have hin : m ∈ kept := List.mem_filter.mpr ⟨hm, by simpa using hsame⟩
      exact (hfin.wants _ (List.mem_map.mpr ⟨m, hin, rfl⟩) _ (List.mem_singleton_self _)).symm
  · obtain ⟨fin, hfin⟩ := hstart σ
    rw [(hdone σ fin hfin).pending.done rfl hr]
    refine (hfin.settled r hr fun o₁ ho₁ hw => ?_).symm
    obtain ⟨o, ho, rfl⟩ := List.mem_map.mp ho₁
    obtain ⟨p, hp, hpd⟩ := hw
    obtain rfl := List.mem_singleton.mp hp
    exact hfree _ (hsub _ ho) hpd

end

/-- **Integer parallel moves are scheduled right, and the schedules end.** -/
theorem scheduleMoves_correct (t : Target) {hold stage : ℕ} {moves : List PlaceMove}
    (h : IntCopy hold stage moves) {scratch : ℕ} {regs : List (ℕ × ℕ)}
    (hnd : (regs.map Prod.snd).Nodup) (hapart : ∀ m ∈ regs, m.2 ≠ scratch) :
    (∀ fuel, 2 * moves.length + 1 ≤ fuel → ∃ code,
      schedulePlaceMoves t hold stage fuel moves = some (.ok code) ∧
        CopiesInt t hold stage moves code) ∧
    ∀ fuel, 2 * regs.length + 1 ≤ fuel → ∃ copies,
      scheduleRegMovesViaScratch scratch fuel regs = some copies ∧
        CopiesRegs scratch regs copies :=
  ⟨fun _ hfuel => schedulePlaceMoves_spec h hfuel,
    fun _ hfuel => scheduleRegMovesViaScratch_spec hnd hapart hfuel⟩

/-- A cycle of three with an extension, a slot that reads one of its registers, and a swap. -/
theorem scheduleMoves_correct_cycle :
    IntCopy 14 15 [⟨.intReg 1, .intReg 2, none⟩, ⟨.intReg 2, .intReg 1, some .i8⟩,
      ⟨.intReg 2, .spill 1, none⟩] ∧
    (∃ code, schedulePlaceMoves ⟨true, fun _ => none, 16, fun _ x => x, id⟩ 14 15 7
        [⟨.intReg 1, .intReg 2, none⟩, ⟨.intReg 2, .intReg 1, some .i8⟩,
          ⟨.intReg 2, .spill 1, none⟩] = some (.ok code) ∧
      CopiesInt ⟨true, fun _ => none, 16, fun _ x => x, id⟩ 14 15
        [⟨.intReg 1, .intReg 2, none⟩, ⟨.intReg 2, .intReg 1, some .i8⟩,
          ⟨.intReg 2, .spill 1, none⟩] code) ∧
    ∃ copies, scheduleRegMovesViaScratch 9 5 [(1, 2), (2, 1)] = some copies ∧
      CopiesRegs 9 [(1, 2), (2, 1)] copies := by
  have h : IntCopy 14 15 [⟨.intReg 1, .intReg 2, none⟩, ⟨.intReg 2, .intReg 1, some .i8⟩,
      ⟨.intReg 2, .spill 1, none⟩] :=
    ⟨by decide, by simp [Place.IsInt], by simp, by simp, by decide⟩
  have hspec := @scheduleMoves_correct ⟨true, fun _ => none, 16, fun _ x => x, id⟩ _ _ _ h
    9 [(1, 2), (2, 1)] (by decide) (by simp)
  exact ⟨h, hspec.1 7 (by decide), hspec.2 5 (by decide)⟩

end Emit

end Badc
