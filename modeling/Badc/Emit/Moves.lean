import Badc.Ir.Eval
import Badc.Lib.Loop
import Badc.Lib.ParallelMove

/-!
# Moves between places

The parallel-move schedulers of `src/c5/codegen/ssa/emit_common.rs`.  The code they emit is a list
of the transfers of `EmitBackend`; `Transfer.run` says what each does to the registers and the spill
slots, as its comment there and the two targets have it.

The three schedulers share one loop: a pass over the pending moves makes each one whose destination
no pending move reads, and where a pass makes none, a cycle is broken.  `schedule_rule` is the rule
for it.  The loop takes fuel; `none` says that it ran out.
-/

namespace Badc

namespace Emit

/-- Where the allocator placed a value. -/
inductive Place
  | intReg (r : ℕ)
  | fpReg (r : ℕ)
  | spill (slot : ℕ)
  | none
  deriving DecidableEq, Repr

/-- Whether two places name the same physical place. -/
def placeSameLoc : Place → Place → Bool
  | .intReg x, .intReg y | .spill x, .spill y | .fpReg x, .fpReg y => x = y
  | _, _ => false

/-- Whether two places share storage; a wide spill spans two units. -/
def placesOverlap (a : Place) (aWide : Bool) (b : Place) (bWide : Bool) : Bool :=
  match a, b with
  | .spill x, .spill y => x < y + 1 + bWide.toNat && y < x + 1 + aWide.toNat
  | _, _ => placeSameLoc a b

/-! ## What a transfer does -/

/-- The transfers a backend supplies. -/
inductive Transfer
  | fpRegMov (dst src : ℕ)
  | fpSpillStore (slot src : ℕ)
  | fpSpillLoad (slot dst : ℕ)
  | v128RegMov (dst src : ℕ)
  | v128SpillStore (slot src : ℕ)
  | v128SpillLoad (slot dst : ℕ)
  | intRegMov (dst src : ℕ)
  | intRegExt (dst src : ℕ) (kind : LoadKind)
  | intRegXchg (a b : ℕ)
  | intSpillStore (slot src base : ℕ)
  | intSpillLoad (slot dst : ℕ)
  | intSpillStoreStaged (slot stage hold : ℕ)
  deriving DecidableEq, Repr

/-- A word of storage: a general register, a half of a vector register, or a unit of the spill
region. -/
inductive Cell
  | gpr (r : ℕ)
  | fpLow (r : ℕ)
  | fpHigh (r : ℕ)
  | unit (n : ℕ)
  deriving DecidableEq, Repr

/-- What a target fixes: whether it exchanges registers, the address of a slot out of the reach of a
store, the register a floating-point transfer forms such an address in, and the upper half that a
narrow copy and a narrow load leave in a vector register. -/
structure Target where
  xchg : Bool
  far : ℕ → Option Word
  fpBase : ℕ
  movHigh : Word → Word → Word
  loadHigh : Word → Word

/-- The sign extension from the width of `kind`; the other kinds are plain copies. -/
def signExtend (kind : LoadKind) (x : Word) : Word :=
  match kind with
  | .i8 | .i16 | .i32 => extendLoad x kind
  | _ => x

/-- Form the address of a slot in `base`, where the slot is out of reach. -/
def Target.formAddress (t : Target) (slot base : ℕ) (σ : Cell → Word) : Cell → Word :=
  match t.far slot with
  | some a => Function.update σ (.gpr base) a
  | none => σ

/-- What a transfer leaves.  A 128-bit spill occupies its slot and the one below, which holds the
low half. -/
def Transfer.run (t : Target) (σ : Cell → Word) : Transfer → Cell → Word
  | .fpRegMov dst src =>
    Function.update (Function.update σ (.fpLow dst) (σ (.fpLow src))) (.fpHigh dst)
      (t.movHigh (σ (.fpHigh dst)) (σ (.fpHigh src)))
  | .fpSpillStore slot src =>
    Function.update (t.formAddress slot t.fpBase σ) (.unit slot) (σ (.fpLow src))
  | .fpSpillLoad slot dst =>
    Function.update (Function.update (t.formAddress slot t.fpBase σ) (.fpLow dst) (σ (.unit slot)))
      (.fpHigh dst) (t.loadHigh (σ (.fpHigh dst)))
  | .v128RegMov dst src =>
    Function.update (Function.update σ (.fpLow dst) (σ (.fpLow src))) (.fpHigh dst) (σ (.fpHigh src))
  | .v128SpillStore slot src =>
    Function.update (Function.update (t.formAddress (slot + 1) t.fpBase σ) (.unit (slot + 1))
      (σ (.fpLow src))) (.unit slot) (σ (.fpHigh src))
  | .v128SpillLoad slot dst =>
    Function.update (Function.update (t.formAddress (slot + 1) t.fpBase σ) (.fpLow dst)
      (σ (.unit (slot + 1)))) (.fpHigh dst) (σ (.unit slot))
  | .intRegMov dst src => Function.update σ (.gpr dst) (σ (.gpr src))
  | .intRegExt dst src kind => Function.update σ (.gpr dst) (signExtend kind (σ (.gpr src)))
  | .intRegXchg a b => Function.update (Function.update σ (.gpr a) (σ (.gpr b))) (.gpr b) (σ (.gpr a))
  | .intSpillStore slot src base =>
    Function.update (t.formAddress slot base σ) (.unit slot) (t.formAddress slot base σ (.gpr src))
  | .intSpillLoad slot dst => Function.update σ (.gpr dst) (σ (.unit slot))
  -- the register borrowed for the address is restored
  | .intSpillStoreStaged slot stage hold =>
    Function.update σ (.unit slot) (t.formAddress slot hold σ (.gpr stage))

/-- What a sequence of transfers leaves. -/
def runCode (t : Target) (code : List Transfer) (σ : Cell → Word) : Cell → Word :=
  code.foldl (Transfer.run t) σ

@[simp] lemma runCode_append (t : Target) (c c' : List Transfer) (σ : Cell → Word) :
    runCode t (c ++ c') σ = runCode t c' (runCode t c σ) := List.foldl_append

/-! ## Single moves -/

/-- A floating-point move at its width. -/
def emitFpPlaceMove (src dst : Place) (stage : ℕ) (wide : Bool) : List Transfer :=
  match src, dst, wide with
  | .fpReg s, .fpReg d, true => [.v128RegMov d s]
  | .fpReg s, .spill slot, true => [.v128SpillStore slot s]
  | .spill slot, .fpReg d, true => [.v128SpillLoad slot d]
  | .spill ss, .spill ds, true => [.v128SpillLoad ss stage, .v128SpillStore ds stage]
  | .fpReg s, .fpReg d, false => [.fpRegMov d s]
  | .fpReg s, .spill slot, false => [.fpSpillStore slot s]
  | .spill slot, .fpReg d, false => [.fpSpillLoad slot d]
  | .spill ss, .spill ds, false => [.fpSpillLoad ss stage, .fpSpillStore ds stage]
  | _, _, _ => []

/-- One move of an integer parallel copy; the write applies `ext`. -/
structure PlaceMove where
  src : Place
  dst : Place
  ext : Option LoadKind
  deriving DecidableEq, Repr

/-- A move that converts nothing. -/
def PlaceMove.copy (src dst : Place) : PlaceMove := ⟨src, dst, none⟩

/-- Whether the move changes nothing: an extension in place is a write. -/
def PlaceMove.isNop (m : PlaceMove) : Bool := m.ext.isNone && placeSameLoc m.src m.dst

/-- A copy between registers, extended. -/
def regMove (ext : Option LoadKind) (d s : ℕ) : Transfer :=
  match ext with
  | some kind => .intRegExt d s kind
  | none => .intRegMov d s

/-- An integer move. -/
def emitPlaceMove (m : PlaceMove) (stage hold : ℕ) : List Transfer :=
  match m.src, m.dst with
  | .intReg s, .intReg d => [regMove m.ext d s]
  | .intReg s, .spill slot =>
    if m.ext.isNone then [.intSpillStore slot s stage]
    else [regMove m.ext stage s, .intSpillStoreStaged slot stage hold]
  | .spill slot, .intReg d =>
    .intSpillLoad slot d :: if m.ext.isSome then [regMove m.ext d d] else []
  | .spill ss, .spill ds =>
    .intSpillLoad ss stage :: (if m.ext.isSome then [regMove m.ext stage stage] else []) ++
      [.intSpillStoreStaged ds stage hold]
  | _, _ => []

/-! ## The loop -/

section

variable {α ε : Type} (blocked : List α → ℕ → α → Bool) (emit : α → List ε)
  (breakCycle : List α → List α × List ε)

/-- A pass over the pending moves. -/
structure Pass (α ε : Type) where
  i : ℕ
  moves : List α
  code : List ε
  progress : Bool

/-- One move of a pass: it is made and taken out, unless its destination is still read. -/
def passStep (p : Pass α ε) : Option (Pass α ε) :=
  p.moves[p.i]?.map fun m =>
    if blocked p.moves p.i m then { p with i := p.i + 1 }
    else { p with
      moves := swapRemove p.moves p.i
      code := p.code ++ emit m
      progress := true }

/-- A pass from the first move on. -/
def pass (moves : List α) (code : List ε) : Pass α ε :=
  whileSome (passStep blocked emit) moves.length ⟨0, moves, code, false⟩

/-- A round: a pass, and where it makes no move, a cycle is broken. -/
def round (s : List α × List ε) : Option (List α × List ε) :=
  if s.1.isEmpty then none
  else
    let p := pass blocked emit s.1 s.2
    if p.progress then some (p.moves, p.code)
    else some ((breakCycle p.moves).1, p.code ++ (breakCycle p.moves).2)

/-- Rounds until no move is pending. -/
def schedule (fuel : ℕ) (moves : List α) : Option (List ε) :=
  let s := whileSome (round blocked emit breakCycle) fuel (moves, [])
  if s.1.isEmpty then some s.2 else none

end

/-- Give the moves that read `old` another source. -/
def redirect (old new : Place) (m : PlaceMove) : PlaceMove :=
  if placeSameLoc m.src old then { m with src := new } else m

/-- Stage one source into `hold`, and have every move that reads it read `hold`. -/
def stageSource (hold stage : ℕ) (moves : List PlaceMove) : List PlaceMove × List Transfer :=
  match (moves.map PlaceMove.src).find? fun s => !placeSameLoc s (.intReg hold) with
  | some cyc =>
    (moves.map (redirect cyc (.intReg hold)),
      emitPlaceMove (.copy cyc (.intReg hold)) stage hold)
  | none =>
    match moves with
    | [] => (moves, [])
    | m :: _ =>
      (moves.map (redirect m.src (.intReg hold)),
        emitPlaceMove (.copy m.src (.intReg hold)) stage hold)

/-- The registers of a move between two registers that converts nothing. -/
def PlaceMove.registers (m : PlaceMove) : Option (ℕ × ℕ) :=
  match m.src, m.dst, m.ext with
  | .intReg s, .intReg d, none => some (s, d)
  | _, _, _ => none

/-- Break a cycle: two registers are exchanged where the target can, otherwise a source is
staged. -/
def breakPlaceCycle (xchg : Bool) (hold stage : ℕ) (moves : List PlaceMove) :
    List PlaceMove × List Transfer :=
  let pair := (moves.findIdx? fun m => m.registers.isSome).bind fun i =>
    (moves[i]?.bind PlaceMove.registers).map fun r => (i, r)
  match pair with
  | some (i, s, d) =>
    if xchg then
      let moves := moves.map (redirect (.intReg d) (.intReg s))
      let moves := moves.modify i fun m => { m with src := .intReg d }
      (moves.filter fun m => !m.isNop, [.intRegXchg s d])
    else stageSource hold stage moves
  | none => stageSource hold stage moves

/-- Whether the destination of the move at `i` is still a source of another. -/
def targetStillASource (moves : List PlaceMove) (i : ℕ) (m : PlaceMove) : Bool :=
  moves.zipIdx.any fun o => o.2 ≠ i && placeSameLoc o.1.src m.dst

/-- Sequentialize parallel integer moves. -/
def schedulePlaceMoves (t : Target) (hold stage fuel : ℕ) (moves : List PlaceMove) :
    Option (Except String (List Transfer)) :=
  let moves := moves.filter fun m => !m.isNop
  if moves.any fun m => (match m.src with | .fpReg _ | .none => true | _ => false) ||
      match m.dst with | .fpReg _ | .none => true | _ => false then
    some (.error "parallel move: endpoint not int reg / spill")
  else
    (schedule targetStillASource (fun m => emitPlaceMove m stage hold)
      (breakPlaceCycle t.xchg hold stage) fuel moves).map .ok

/-- A floating-point move: source, destination, and whether all 128 bits move. -/
structure FpMove where
  src : Place
  dst : Place
  wide : Bool
  deriving DecidableEq, Repr

/-- Whether the destination of a move overlaps a pending source. -/
def fpTargetStillASource (moves : List FpMove) (_ : ℕ) (m : FpMove) : Bool :=
  moves.any fun o => placesOverlap o.src o.wide m.dst m.wide

/-- Stage one source into `hold`, and have every move that reads it read `hold`. -/
def stageFpSource (hold stage : ℕ) (moves : List FpMove) : List FpMove × List Transfer :=
  let stageFrom := fun cyc wide =>
    (moves.map fun m : FpMove => if placeSameLoc m.src cyc then { m with src := .fpReg hold } else m,
      emitFpPlaceMove cyc (.fpReg hold) stage wide)
  match moves.find? fun m => !placeSameLoc m.src (.fpReg hold) with
  | some m => stageFrom m.src m.wide
  | none =>
    match moves with
    | [] => (moves, [])
    | m :: _ => stageFrom m.src m.wide

/-- Sequentialize parallel floating-point moves. -/
def scheduleFpPlaceMoves (hold stage fuel : ℕ) (moves : List FpMove) : Option (List Transfer) :=
  schedule fpTargetStillASource (fun m => emitFpPlaceMove m.src m.dst stage m.wide)
    (stageFpSource hold stage) fuel (moves.filter fun m => !placeSameLoc m.src m.dst)

/-- Stage one source of a register move into `scratch`; a move is its source and destination, and a
copy is written destination first. -/
def stageReg (scratch : ℕ) (moves : List (ℕ × ℕ)) : List (ℕ × ℕ) × List (ℕ × ℕ) :=
  let stageFrom := fun src : ℕ =>
    (moves.map fun m => if m.1 = src then (scratch, m.2) else m, [(scratch, src)])
  match (moves.map Prod.fst).find? fun s => s ≠ scratch with
  | some src => stageFrom src
  | none =>
    match moves with
    | [] => (moves, [])
    | m :: _ => stageFrom m.1

/-- Sequentialize parallel register moves. -/
def scheduleRegMovesViaScratch (scratch fuel : ℕ) (moves : List (ℕ × ℕ)) :
    Option (List (ℕ × ℕ)) :=
  schedule (fun moves _ m => moves.any fun o => o.1 = m.2) (fun m => [(m.2, m.1)])
    (stageReg scratch) fuel (moves.filter fun m => m.1 ≠ m.2)

/-- What a sequence of register copies leaves. -/
def runCopies (copies : List (ℕ × ℕ)) (σ : ℕ → Word) : ℕ → Word :=
  copies.foldl (fun σ c => Function.update σ c.1 (σ c.2)) σ

/-! ## Rules -/

section

variable {α ε : Type} {blocked : List α → ℕ → α → Bool} {emit : α → List ε}
  {breakCycle : List α → List α × List ε}

/-- **What making a move preserves holds after a pass.**  A pass that makes no move leaves all as
it was, with every move blocked. -/
theorem pass_rule (I : List α → List ε → Prop) (μ : List α → ℕ)
    (hmake : ∀ ms code i m, I ms code → ms[i]? = some m → blocked ms i m = false →
      I (swapRemove ms i) (code ++ emit m) ∧ μ (swapRemove ms i) < μ ms)
    {moves : List α} {code : List ε} (h : I moves code) :
    I (pass blocked emit moves code).moves (pass blocked emit moves code).code ∧
      ((pass blocked emit moves code).progress = true →
        μ (pass blocked emit moves code).moves < μ moves ∧
        ∃ i m, moves[i]? = some m ∧ blocked moves i m = false) ∧
      ((pass blocked emit moves code).progress = false →
        (pass blocked emit moves code).moves = moves ∧ (pass blocked emit moves code).code = code ∧
        ∀ i m, moves[i]? = some m → blocked moves i m = true) := by
  let J : Pass α ε → Prop := fun p => I p.moves p.code ∧ μ p.moves ≤ μ moves ∧
    (p.progress = true → μ p.moves < μ moves ∧
      ∃ i m, moves[i]? = some m ∧ blocked moves i m = false) ∧
    (p.progress = false → p.moves = moves ∧ p.code = code ∧
      ∀ i < p.i, ∀ m, moves[i]? = some m → blocked moves i m = true)
  have hstep : ∀ p p', J p → passStep blocked emit p = some p' →
      J p' ∧ p'.moves.length - p'.i < p.moves.length - p.i := by
    rintro p p' ⟨hI, hμ, hyes, hno⟩ hp
    obtain ⟨m, hm, rfl⟩ := Option.map_eq_some_iff.mp hp
    have hlt : p.i < p.moves.length := (List.getElem?_eq_some_iff.mp hm).1
    by_cases hb : blocked p.moves p.i m = true
    · rw [if_pos hb]
      refine ⟨⟨hI, hμ, hyes, fun hpr => ?_⟩, by dsimp only; omega⟩
      obtain ⟨hmoves, hcode, hall⟩ := hno hpr
      refine ⟨hmoves, hcode, fun i hi m' hm' => ?_⟩
      rcases Nat.lt_succ_iff_lt_or_eq.mp hi with hi | rfl
      · exact hall i hi m' hm'
      · rw [hmoves] at hm hb
        obtain rfl := Option.some.inj (hm.symm.trans hm')
        exact hb
    · rw [if_neg hb]
      obtain ⟨hI', hμ'⟩ := hmake _ _ _ _ hI hm (by simpa using hb)
      have hlen := length_swapRemove hm
      have hfirst : ∃ i m, moves[i]? = some m ∧ blocked moves i m = false := by
        cases hpr : p.progress with
        | true => exact (hyes hpr).2
        | false =>
          obtain ⟨hmoves, -, -⟩ := hno hpr
          rw [hmoves] at hm hb
          exact ⟨_, _, hm, by simpa using hb⟩
      exact ⟨⟨hI', by dsimp only; omega, fun _ => ⟨by dsimp only; omega, hfirst⟩,
        (fun hpr => by cases hpr)⟩, by dsimp only; omega⟩
  have hstart : J ⟨0, moves, code, false⟩ :=
    ⟨h, le_rfl, (fun hpr => by cases hpr), fun _ => ⟨rfl, rfl, fun i hi => absurd hi (Nat.not_lt_zero i)⟩⟩
  have hJ : J (pass blocked emit moves code) :=
    whileSome_invariant J (fun p p' hp hp' => (hstep p p' hp hp').1) _
      hstart
  have hdone : passStep blocked emit (pass blocked emit moves code) = none :=
    whileSome_done J (fun p => p.moves.length - p.i) hstep
      hstart le_rfl
  have hend := Option.map_eq_none_iff.mp hdone
  rw [List.getElem?_eq_none_iff] at hend
  obtain ⟨hI, -, hyes, hno⟩ := hJ
  refine ⟨hI, hyes, fun hpr => ?_⟩
  obtain ⟨hmoves, hcode, hall⟩ := hno hpr
  refine ⟨hmoves, hcode, fun i m hm => hall i ?_ m hm⟩
  rw [hmoves] at hend
  exact lt_of_lt_of_le (List.getElem?_eq_some_iff.mp hm).1 hend

/-- Every pending move is blocked. -/
def Stalled (blocked : List α → ℕ → α → Bool) (ms : List α) : Prop :=
  ∀ i m, ms[i]? = some m → blocked ms i m = true

/-- **What a round does**: it makes moves, or the moves are stalled and it breaks a cycle. -/
theorem round_cases (I : List α → List ε → Prop) (μ : List α → ℕ)
    (hmake : ∀ ms code i m, I ms code → ms[i]? = some m → blocked ms i m = false →
      I (swapRemove ms i) (code ++ emit m) ∧ μ (swapRemove ms i) < μ ms)
    {ms : List α} {code : List ε} {s' : List α × List ε} (hI : I ms code)
    (h : round blocked emit breakCycle (ms, code) = some s') :
    ms ≠ [] ∧ (I s'.1 s'.2 ∧ μ s'.1 < μ ms ∧ ¬ Stalled blocked ms ∨
      Stalled blocked ms ∧ s' = ((breakCycle ms).1, code ++ (breakCycle ms).2)) := by
  obtain ⟨hpass, hyes, hno⟩ := pass_rule I μ hmake hI
  unfold round at h
  split at h
  · cases h
  · next hne =>
    simp only [List.isEmpty_iff] at hne
    refine ⟨hne, ?_⟩
    dsimp only at h
    split at h
    · next hpr =>
      obtain rfl := Option.some.inj h
      obtain ⟨hlt, i, m, hm, hfree⟩ := hyes hpr
      refine Or.inl ⟨hpass, hlt, fun hstalled => ?_⟩
      rw [hstalled i m hm] at hfree
      cases hfree
    · next hpr =>
      obtain rfl := Option.some.inj h
      obtain ⟨hmoves, hcode, hall⟩ := hno (by simpa using hpr)
      exact Or.inr ⟨hall, by rw [hmoves, hcode]⟩

lemma round_eq_none {s : List α × List ε} (h : round blocked emit breakCycle s = none) : s.1 = [] := by
  unfold round at h
  split at h
  · next hempty => exact List.isEmpty_iff.mp hempty
  · dsimp only at h
    split at h <;> cases h

/-- **What making a move and breaking a cycle preserve holds of the code**, and a measure that both
lower bounds the rounds. -/
theorem schedule_rule (I : List α → List ε → Prop) (μ : List α → ℕ)
    (hmake : ∀ ms code i m, I ms code → ms[i]? = some m → blocked ms i m = false →
      I (swapRemove ms i) (code ++ emit m) ∧ μ (swapRemove ms i) < μ ms)
    (hbreak : ∀ ms code, I ms code → ms ≠ [] → Stalled blocked ms →
      I (breakCycle ms).1 (code ++ (breakCycle ms).2) ∧ μ (breakCycle ms).1 < μ ms)
    {moves : List α} {code : List ε} (h : I moves code) {fuel : ℕ} (hfuel : μ moves ≤ fuel) :
    ∃ code', whileSome (round blocked emit breakCycle) fuel (moves, code) = ([], code') ∧
      I [] code' := by
  have hstep : ∀ s s', I s.1 s.2 → round blocked emit breakCycle s = some s' →
      I s'.1 s'.2 ∧ μ s'.1 < μ s.1 := by
    intro s s' hI hs
    obtain ⟨hne, ⟨hI', hlt, -⟩ | ⟨hstalled, rfl⟩⟩ := round_cases I μ hmake hI hs
    · exact ⟨hI', hlt⟩
    · exact hbreak s.1 s.2 hI hne hstalled
  have hI := whileSome_invariant (fun s : List α × List ε => I s.1 s.2)
    (fun s s' hs hs' => (hstep s s' hs hs').1) fuel (s := (moves, code)) h
  have hdone := whileSome_done (fun s : List α × List ε => I s.1 s.2) (fun s => μ s.1) hstep
    (s := (moves, code)) h hfuel
  have hempty := round_eq_none hdone
  rw [hempty] at hI
  exact ⟨_, Prod.ext hempty rfl, hI⟩

lemma schedule_eq_some {fuel : ℕ} {moves : List α} {code : List ε}
    (h : whileSome (round blocked emit breakCycle) fuel (moves, []) = ([], code)) :
    schedule blocked emit breakCycle fuel moves = some code := by
  simp [schedule, h]

end

end Emit

end Badc
