import Badc.Lib.Stacked
import Badc.Linker.Layout

/-!
# What a pass lays out

Inside an allocated output section the chunks are laid by a cursor, and an assignment to the location
counter moves the cursor.  Only a move below the start of the section is an error, so that a move back
inside the section lays what follows over what is there (`overlaid`).  As long as no assignment moves
the counter back inside a section, alignments are powers of two and addresses do not wrap, the chunks
of every allocated section of a run without errors are disjoint, lie inside the section, and have
their inputs at the places recorded for them (`run_sections`).
-/

namespace Badc.Layout

open Script Pools

variable {δ : Type} {lk : Link δ} {finalPass : Bool} {st st' : Pass δ} {lay : ChunkLayout}
  {oi start i : ℕ}

/-! ## What evaluation leaves alone -/

/-- Nothing but symbols, the location counter and reports changes. -/
structure Quiet (st st' : Pass δ) : Prop where
  placements : st'.placements = st.placements
  outs : st'.outs = st.outs
  errors : ∃ more, st'.errors = st.errors ++ more

lemma Quiet.refl (st : Pass δ) : Quiet st st := ⟨rfl, rfl, [], by simp⟩

lemma Quiet.trans {st'' : Pass δ} (h : Quiet st st') (h' : Quiet st' st'') : Quiet st st'' := by
  obtain ⟨more, hm⟩ := h.errors
  obtain ⟨more', hm'⟩ := h'.errors
  exact ⟨h'.placements.trans h.placements, h'.outs.trans h.outs, more ++ more', by simp [hm, hm']⟩

lemma quiet_evalWithDot (e : Expr) (dot : ℕ) :
    Quiet st (lk.evalWithDot finalPass st e dot).2 ∧
      (lk.evalWithDot finalPass st e dot).2.dot = st.dot :=
  ⟨⟨rfl, rfl, _, rfl⟩, rfl⟩

lemma quiet_eval (e : Expr) :
    Quiet st (lk.eval finalPass st e).2 ∧ (lk.eval finalPass st e).2.dot = st.dot :=
  quiet_evalWithDot e st.dot

/-- Defining a symbol does not move the location counter. -/
lemma quiet_define (a : Assignment) :
    Quiet st (lk.define finalPass st a) ∧ (lk.define finalPass st a).dot = st.dot := by
  have hend : Quiet st (if isEnd a.symbol then { st with foundEnd := true } else st) ∧
      (if isEnd a.symbol then { st with foundEnd := true } else st).dot = st.dot := by
    split
    · exact ⟨⟨rfl, rfl, [], by simp⟩, rfl⟩
    · exact ⟨Quiet.refl st, rfl⟩
  obtain ⟨hq, hdot⟩ := @quiet_eval _ lk finalPass
    (if isEnd a.symbol then { st with foundEnd := true } else st) a.value
  exact ⟨hend.1.trans ⟨hq.placements, hq.outs, hq.errors⟩, hdot.trans hend.2⟩

/-- An assignment to a name other than `.` does not move the location counter. -/
lemma quiet_execAssignment (a : Assignment) (after : Bool) :
    Quiet st (lk.execAssignment finalPass st a after) ∧
      (a.symbol ≠ "." → (lk.execAssignment finalPass st a after).dot = st.dot) := by
  unfold Link.execAssignment
  split
  · rename_i hdot
    obtain ⟨hq, -⟩ := @quiet_eval _ lk finalPass st a.value
    refine ⟨?_, fun hne => absurd hdot hne⟩
    dsimp only
    split
    · exact hq
    · exact ⟨hq.placements, hq.outs, hq.errors⟩
  · split
    · split
      · exact ⟨Quiet.refl st, fun _ => rfl⟩
      · obtain ⟨hq, hdot⟩ := @quiet_define _ lk finalPass
          { st with referenced := fun n => st.referenced n || (collectSymbols a.value).contains n } a
        exact ⟨⟨hq.placements, hq.outs, hq.errors⟩, fun _ => hdot⟩
    · obtain ⟨hq, hdot⟩ := @quiet_define _ lk finalPass st a
      exact ⟨hq, fun _ => hdot⟩

/-- An assertion only reports. -/
lemma quiet_execAssert (e : Expr) (msg : String) :
    Quiet st (lk.execAssert finalPass st e msg) ∧
      (lk.execAssert finalPass st e msg).dot = st.dot := by
  obtain ⟨hq, hdot⟩ := @quiet_eval _ lk finalPass st e
  unfold Link.execAssert
  dsimp only
  split
  · obtain ⟨more, hm⟩ := hq.errors
    exact ⟨⟨hq.placements, hq.outs, more ++ ["assertion failed: " ++ msg], by simp [hm]⟩, hdot⟩
  · exact ⟨hq, hdot⟩

/-! ## The cursor -/

lemma stacked_moveTo (h : Stacked Chunk.off Chunk.len lay.chunks lay.off) {dst : ℕ} (pad : Bool)
    (hle : lay.off ≤ dst) :
    Stacked Chunk.off Chunk.len (lay.moveTo dst pad).chunks (lay.moveTo dst pad).off := by
  unfold ChunkLayout.moveTo
  dsimp only
  split
  · exact h.concat (le_refl _) (by dsimp only; omega)
  · exact h.mono hle

lemma moveTo_self (pad : Bool) : lay.moveTo lay.off pad = lay := by
  simp [ChunkLayout.moveTo]

lemma mem_moveTo {dst : ℕ} {pad : Bool} {ch : Chunk} (hsrc : ch.src = .input i) :
    ch ∈ (lay.moveTo dst pad).chunks ↔ ch ∈ lay.chunks := by
  unfold ChunkLayout.moveTo
  dsimp only
  split
  · simp only [List.mem_append, List.mem_singleton, or_iff_left_iff_imp]
    rintro rfl
    exact absurd hsrc (by simp)
  · rfl

lemma stacked_push (h : Stacked Chunk.off Chunk.len lay.chunks lay.off) {len : ℕ} (src : ChunkSrc)
    (fileBytes : Bool) (hno : lay.off + len < 2 ^ 64) :
    Stacked Chunk.off Chunk.len (lay.push len src fileBytes).chunks
      (lay.push len src fileBytes).off := by
  unfold ChunkLayout.push ChunkLayout.noteEnd
  dsimp only
  rw [Nat.mod_eq_of_lt hno]
  exact h.concat (le_refl _) (le_refl _)

/-! ## The walk over the pieces of a section -/

/-- The state of the walk over the pieces of an allocated section, after these inputs. -/
structure Walked (lk : Link δ) (oi start : ℕ) (placed : List ℕ) (s : Pass δ × ChunkLayout) : Prop where
  stacked : Stacked Chunk.off Chunk.len s.2.chunks s.2.off
  end_eq : s.2.end = s.2.off
  room : start + s.2.off < 2 ^ 64
  dot_eq : s.1.dot = start + s.2.off
  input : ∀ ch ∈ s.2.chunks, ∀ i, ch.src = .input i → i ∈ placed ∧ lk.mergedAway i = false ∧
    lk.placeAlign i ∣ ch.off ∧ s.1.placements i = ⟨oi, ch.off, true⟩
  covered : ∀ i ∈ placed, lk.mergedAway i = true ∨ ∃ ch ∈ s.2.chunks, ch.src = .input i

variable {placed : List ℕ} {s : Pass δ × ChunkLayout}

lemma Walked.quiet (h : Walked lk oi start placed (st, lay)) (hq : Quiet st st')
    (hdot : st'.dot = st.dot) : Walked lk oi start placed (st', lay) :=
  ⟨h.stacked, h.end_eq, h.room, hdot.trans h.dot_eq, fun ch hch i hi => by
    rw [hq.placements]
    exact h.input ch hch i hi, h.covered⟩

/-- Laying a chunk at or behind the cursor, with the location counter behind it. -/
lemma Walked.layAt (h : Walked lk oi start placed (st, lay)) {dst len : ℕ} {src : ChunkSrc}
    (pad fileBytes : Bool) (hle : lay.off ≤ dst) (hroom : start + dst + len < 2 ^ 64)
    (hdot : st'.dot = start + (dst + len)) {placed' : List ℕ}
    (hold : ∀ i ∈ placed, i ∈ placed' ∧ st'.placements i = st.placements i)
    (hnew : ∀ i, src = .input i → i ∈ placed' ∧ lk.mergedAway i = false ∧
      lk.placeAlign i ∣ dst ∧ st'.placements i = ⟨oi, dst, true⟩)
    (hcov : ∀ i ∈ placed', i ∈ placed ∨ src = .input i) :
    Walked lk oi start placed' (st', (lay.moveTo dst pad).push len src fileBytes) := by
  have hstacked : Stacked Chunk.off Chunk.len lay.chunks lay.off := h.stacked
  have hend : lay.end = lay.off := h.end_eq
  have hmove : (lay.moveTo dst pad).off = dst := rfl
  have hoff : ((lay.moveTo dst pad).push len src fileBytes).off = dst + len :=
    Nat.mod_eq_of_lt (by rw [hmove]; omega)
  have hend' : ((lay.moveTo dst pad).push len src fileBytes).end = max lay.end (dst + len) :=
    congrArg (max lay.end) hoff
  refine ⟨stacked_push (stacked_moveTo hstacked pad hle) _ _ (by rw [hmove]; omega), ?_, ?_, ?_,
    fun ch hch i hi => ?_, fun i hi => ?_⟩
  · dsimp only
    rw [hend', hoff]
    omega
  · dsimp only
    rw [hoff]
    omega
  · dsimp only
    rw [hoff]
    exact hdot
  · rcases List.mem_append.mp hch with hch | hch
    · obtain ⟨hmem, hm, hal, hpl⟩ := h.input ch ((mem_moveTo hi).mp hch) i hi
      exact ⟨(hold i hmem).1, hm, hal, (hold i hmem).2.trans hpl⟩
    · rw [List.mem_singleton.mp hch] at hi ⊢
      exact hnew i hi
  · rcases hcov i hi with hmem | hsrc
    · rcases h.covered i hmem with hm | ⟨ch, hch, hsrc⟩
      · exact Or.inl hm
      · exact Or.inr ⟨ch, List.mem_append_left _ ((mem_moveTo hsrc).mpr hch), hsrc⟩
    · exact Or.inr ⟨⟨dst, len, src⟩, List.mem_append_right _ (List.mem_singleton.mpr rfl), hsrc⟩

/-- Moving the cursor forward, with the location counter where the cursor goes. -/
lemma Walked.moveTo (h : Walked lk oi start placed (st, lay)) {dst : ℕ} (pad : Bool)
    (hle : lay.off ≤ dst) (hroom : start + dst < 2 ^ 64) (hq : Quiet st st')
    (hdot : st'.dot = start + dst) :
    Walked lk oi start placed (st', (lay.moveTo dst pad).noteEnd) := by
  have hstacked : Stacked Chunk.off Chunk.len lay.chunks lay.off := h.stacked
  have hend : lay.end = lay.off := h.end_eq
  refine ⟨stacked_moveTo hstacked pad hle, ?_, hroom, hdot, fun ch hch i hi => ?_, fun i hi => ?_⟩
  · change max lay.end dst = dst
    omega
  · rw [hq.placements]
    exact h.input ch ((mem_moveTo hi).mp hch) i hi
  · rcases h.covered i hi with hm | ⟨ch, hch, hsrc⟩
    · exact Or.inl hm
    · exact Or.inr ⟨ch, (mem_moveTo hsrc).mpr hch, hsrc⟩

/-- An input section has room at the cursor: its alignment is a power of two and the addresses up to
its end do not wrap. -/
def Link.InputFits (lk : Link δ) (start : ℕ) (s : Pass δ × ChunkLayout) (i : ℕ) : Prop :=
  lk.mergedAway i = true ∨
    (∃ k < 64, lk.placeAlign i = 2 ^ k ∧ s.2.off + (2 ^ k - 1) < 2 ^ 64) ∧
      start + alignUp s.2.off (lk.placeAlign i) + lk.insecPlacedSize s.1 i < 2 ^ 64

instance : Decidable (lk.InputFits start s i) := inferInstanceAs (Decidable (_ ∨ _))

/-- Placing an input section. -/
lemma Walked.placeInput (h : Walked lk oi start placed s) (hnew : i ∉ placed)
    (hfits : lk.InputFits start s i) :
    Walked lk oi start (placed ++ [i]) (lk.placeInput oi start true s i) := by
  obtain ⟨st, lay⟩ := s
  have hother : ∀ j ∈ placed, ∀ p : Placement,
      Function.update st.placements i p j = st.placements j :=
    fun j hj p => Function.update_of_ne (fun heq : j = i => hnew (heq ▸ hj)) _ _
  unfold Link.placeInput
  dsimp only
  cases haway : lk.mergedAway i with
  | true =>
    -- A member whose bytes are in the pool leaves the cursor where it is.
    rw [if_pos rfl]
    refine ⟨h.stacked, h.end_eq, h.room, h.dot_eq, fun ch hch j hj => ?_, fun j hj => ?_⟩
    · obtain ⟨hmem, hm, hal, hpl⟩ := h.input ch hch j hj
      exact ⟨List.mem_append_left _ hmem, hm, hal, (hother j hmem _).trans hpl⟩
    · rcases List.mem_append.mp hj with hj | hj
      · exact h.covered j hj
      · rw [List.mem_singleton.mp hj]
        exact Or.inl haway
  | false =>
    rw [if_neg (by simp)]
    obtain ⟨⟨k, hk, hal, hwrap⟩, hroom⟩ := hfits.resolve_left (by simp [haway])
    dsimp only at hwrap hroom
    have hle : lay.off ≤ alignUp lay.off (lk.placeAlign i) := hal ▸ le_alignUp (by omega) hwrap
    have hdvd : lk.placeAlign i ∣ alignUp lay.off (lk.placeAlign i) :=
      hal ▸ dvd_alignUp (by omega) hwrap
    refine h.layAt _ _ hle hroom ?_ (fun j hj => ⟨List.mem_append_left _ hj, hother j hj _⟩)
      (fun j hj => ?_) (fun j hj => ?_)
    · change (start + (alignUp lay.off (lk.placeAlign i) + lk.insecPlacedSize st i) % 2 ^ 64) %
        2 ^ 64 = _
      rw [Nat.mod_eq_of_lt (a := alignUp lay.off (lk.placeAlign i) + _) (by omega)]
      exact Nat.mod_eq_of_lt (by omega)
    · obtain rfl : i = j := ChunkSrc.input.inj hj
      exact ⟨by simp, haway, hdvd, Function.update_self _ _ _⟩
    · rcases List.mem_append.mp hj with hj | hj
      · exact Or.inl hj
      · rw [List.mem_singleton.mp hj]
        exact Or.inr rfl

/-- Each input section of a spec has room when the walk comes to it. -/
def Link.InputsFit (lk : Link δ) (oi start : ℕ) : List ℕ → Pass δ × ChunkLayout → Prop
  | [], _ => True
  | i :: v, s => lk.InputFits start s i ∧ lk.InputsFit oi start v (lk.placeInput oi start true s i)

instance decidableInputsFit : (v : List ℕ) → (s : Pass δ × ChunkLayout) →
    Decidable (lk.InputsFit oi start v s)
  | [], _ => isTrue trivial
  | i :: v, s =>
    @instDecidableAnd (lk.InputFits start s i) _ inferInstance (decidableInputsFit v _)

/-- Placing the input sections of a spec. -/
lemma Walked.placeInputs {v : List ℕ} (h : Walked lk oi start placed s)
    (hnodup : (placed ++ v).Nodup) (hfits : lk.InputsFit oi start v s) :
    Walked lk oi start (placed ++ v) (lk.placeInputs oi start true v s) := by
  induction v generalizing placed s with
  | nil => rwa [List.append_nil]
  | cons i v ih =>
    have hnew : i ∉ placed := by
      intro hmem
      exact (List.nodup_append.mp hnodup).2.2 i hmem i (by simp) rfl
    have hstep := h.placeInput hnew hfits.1
    rw [List.append_cons] at hnodup ⊢
    exact ih hstep hnodup hfits.2

/-- A piece can be laid without overlap where the walk comes to it: inputs, data and veneers have
room, and an assignment that leaves the location counter inside the section does not move it back. -/
def Link.PieceFits (lk : Link δ) (oi start : ℕ) (s : Pass δ × ChunkLayout) (piece : Piece)
    (veneers : Bool) : Prop :=
  match piece with
  | .inputs v =>
    let s' := lk.placeInputs oi start true v s
    lk.InputsFit oi start v s ∧ (veneers = true → 0 < (s'.1.veneerReserve oi).getD 0 →
      s'.2.off + 3 < 2 ^ 64 ∧ start + alignUp s'.2.off 4 + (s'.1.veneerReserve oi).getD 0 < 2 ^ 64)
  | .assign a => a.symbol = "." → start ≤ (lk.execAssignment true s.1 a false).dot →
      s.1.dot ≤ (lk.execAssignment true s.1 a false).dot
  | .data w _ => start + s.2.off + w.size < 2 ^ 64
  | .assert _ _ => True
  | .fill _ => True

instance {piece : Piece} {veneers : Bool} : Decidable (lk.PieceFits oi start s piece veneers) :=
  match piece with
  | .inputs _ => inferInstanceAs (Decidable (_ ∧ (_ → _ → _)))
  | .assign _ => inferInstanceAs (Decidable (_ → _ → _))
  | .data _ _ => inferInstanceAs (Decidable (_ < _))
  | .assert _ _ => isTrue trivial
  | .fill _ => isTrue trivial

lemma dot_execAssignment_lt (hlt : st.dot < 2 ^ 64) (a : Assignment) :
    (lk.execAssignment finalPass st a false).dot < 2 ^ 64 := by
  by_cases hdot : a.symbol = "."
  · unfold Link.execAssignment
    rw [if_pos hdot]
    exact BitVec.isLt _
  · rw [(quiet_execAssignment a false).2 hdot]
    exact hlt

/-- Laying veneers behind the inputs. -/
lemma Walked.layVeneers (h : Walked lk oi start placed s) {n : ℕ} (hoff : s.2.off + 3 < 2 ^ 64)
    (hroom : start + alignUp s.2.off 4 + n < 2 ^ 64) :
    Walked lk oi start placed (layVeneers n start true s) := by
  obtain ⟨st, lay⟩ := s
  dsimp only at hoff hroom
  have hle : lay.off ≤ alignUp lay.off (2 ^ 2) := le_alignUp (by norm_num) hoff
  refine h.layAt true true hle hroom ?_ (fun j hj => ⟨hj, rfl⟩) (fun j hj => (nomatch hj))
    (fun j hj => Or.inl hj)
  change (start + (alignUp lay.off 4 + n) % 2 ^ 64) % 2 ^ 64 = _
  rw [Nat.mod_eq_of_lt (a := alignUp lay.off 4 + n) (by omega)]
  exact Nat.mod_eq_of_lt (by omega)

/-- Laying a piece. -/
lemma Walked.layOutPiece {piece : Piece} {veneers : Bool} (h : Walked lk oi start placed s)
    (hnodup : (placed ++ piece.claimed).Nodup) (hfits : lk.PieceFits oi start s piece veneers)
    (herr : (lk.layOutPiece true oi start true s piece veneers).1.errors = []) :
    Walked lk oi start (placed ++ piece.claimed)
      (lk.layOutPiece true oi start true s piece veneers) := by
  obtain ⟨st, lay⟩ := s
  cases piece with
  | inputs v =>
    have hwalk := h.placeInputs hnodup hfits.1
    unfold Link.layOutPiece
    dsimp only
    split
    · rename_i hcond
      obtain ⟨hoff, hroom⟩ := hfits.2 hcond.2 hcond.1
      exact hwalk.layVeneers hoff hroom
    · exact hwalk
  | assign a =>
    rw [show placed ++ (Piece.assign a).claimed = placed from List.append_nil _]
    obtain ⟨hq, hsame⟩ := @quiet_execAssignment _ lk true st a false
    have hdot : st.dot = start + lay.off := h.dot_eq
    have hroom : start + lay.off < 2 ^ 64 := h.room
    have hlt := @dot_execAssignment_lt _ lk true st (by omega) a
    have hfits : a.symbol = "." → start ≤ (lk.execAssignment true st a false).dot →
        st.dot ≤ (lk.execAssignment true st a false).dot := hfits
    unfold Link.layOutPiece at herr ⊢
    dsimp only at herr ⊢
    rw [if_pos rfl] at herr ⊢
    by_cases hback : (lk.execAssignment true st a false).dot < start
    · rw [if_pos ⟨hback, rfl⟩] at herr
      exact absurd herr (by simp)
    · rw [if_neg fun hc => hback hc.1]
      have hforward : st.dot ≤ (lk.execAssignment true st a false).dot := by
        by_cases hname : a.symbol = "."
        · exact hfits hname (by omega)
        · exact (hsame hname).ge
      have hnew : ((lk.execAssignment true st a false).dot + (2 ^ 64 - start)) % 2 ^ 64 =
          (lk.execAssignment true st a false).dot - start := by omega
      rw [hnew]
      exact h.moveTo true (by omega) (by omega) hq (by omega)
  | assert e msg =>
    obtain ⟨hq, hdot⟩ := @quiet_execAssert _ lk true st e msg
    rw [show placed ++ (Piece.assert e msg).claimed = placed from List.append_nil _]
    exact h.quiet hq hdot
  | data w e =>
    obtain ⟨hq, hdot⟩ := @quiet_eval _ lk true st e
    have hroom : start + lay.off + w.size < 2 ^ 64 := hfits
    rw [show placed ++ (Piece.data w e).claimed = placed from List.append_nil _]
    let src := ChunkSrc.bytes (leBytes w.size (lk.eval true st e).1.v.toNat)
    have hlaid : Walked lk oi start placed
        ((lk.eval true st e).2.follow true start (lay.push w.size src true),
          (lay.moveTo lay.off true).push w.size src true) := by
      refine (h.quiet hq hdot).layAt true true (le_refl _) hroom ?_ (fun j hj => ⟨hj, rfl⟩)
        (fun j hj => (nomatch hj)) (fun j hj => Or.inl hj)
      change (start + (lay.off + w.size) % 2 ^ 64) % 2 ^ 64 = _
      rw [Nat.mod_eq_of_lt (a := lay.off + w.size) (by omega)]
      exact Nat.mod_eq_of_lt (by omega)
    rw [moveTo_self] at hlaid
    exact hlaid
  | fill e =>
    obtain ⟨hq, hdot⟩ := @quiet_eval _ lk true st e
    rw [show placed ++ (Piece.fill e).claimed = placed from List.append_nil _]
    obtain ⟨h1, h2, h3, h4, h5, h6⟩ := h.quiet hq hdot
    exact ⟨h1, h2, h3, h4, h5, h6⟩

/-! ## What laying a section leaves alone -/

/-- Output sections are as they were, only these inputs are placed anew, and reports are added. -/
structure Kept (v : List ℕ) (st st' : Pass δ) : Prop where
  outs : st'.outs = st.outs
  placements : ∀ j ∉ v, st'.placements j = st.placements j
  errors : ∃ more, st'.errors = st.errors ++ more

lemma Quiet.kept (h : Quiet st st') (v : List ℕ) : Kept v st st' :=
  ⟨h.outs, fun j _ => congrFun h.placements j, h.errors⟩

lemma Kept.trans {v w : List ℕ} {st'' : Pass δ} (h : Kept v st st') (h' : Kept w st' st'') :
    Kept (v ++ w) st st'' := by
  obtain ⟨more, hm⟩ := h.errors
  obtain ⟨more', hm'⟩ := h'.errors
  refine ⟨h'.outs.trans h.outs, fun j hj => ?_, more ++ more', by simp [hm, hm']⟩
  rw [List.mem_append, not_or] at hj
  exact (h'.placements j hj.2).trans (h.placements j hj.1)

lemma Kept.follow {v : List ℕ} (h : Kept v st st') (alloc : Bool) (lay : ChunkLayout) :
    Kept v st (st'.follow alloc start lay) := by
  unfold Pass.follow
  split
  · exact ⟨h.outs, h.placements, h.errors⟩
  · exact h

lemma kept_placeInput {alloc : Bool} : Kept [i] s.1 (lk.placeInput oi start alloc s i).1 := by
  have hplace : ∀ p : Placement,
      Kept [i] s.1 { s.1 with placements := Function.update s.1.placements i p } := fun p =>
    ⟨rfl, fun j hj => Function.update_of_ne (by simpa using hj) _ _, [], by simp⟩
  unfold Link.placeInput
  dsimp only
  split
  · exact hplace _
  · exact (hplace _).follow alloc _

lemma kept_placeInputs {alloc : Bool} (v : List ℕ) :
    Kept v s.1 (lk.placeInputs oi start alloc v s).1 := by
  induction v generalizing s with
  | nil => exact (Quiet.refl s.1).kept []
  | cons i v ih => exact kept_placeInput.trans ih

/-- Laying a piece. -/
lemma kept_layOutPiece {alloc : Bool} (piece : Piece) (veneers : Bool) :
    Kept piece.claimed s.1 (lk.layOutPiece finalPass oi start alloc s piece veneers).1 := by
  obtain ⟨st, lay⟩ := s
  cases piece with
  | inputs v =>
    have hv := @kept_placeInputs _ lk oi start (st, lay) alloc v
    unfold Link.layOutPiece
    dsimp only
    split
    · exact hv.follow alloc _
    · exact hv
  | assign a =>
    obtain ⟨hq, -⟩ := @quiet_execAssignment _ lk finalPass st a false
    unfold Link.layOutPiece
    dsimp only
    split
    · split
      · obtain ⟨more, hm⟩ := hq.errors
        exact ⟨hq.outs, fun j _ => congrFun hq.placements j, more ++ _, by
          dsimp only
          rw [hm, List.append_assoc]⟩
      · exact hq.kept _
    · exact hq.kept _
  | assert e msg => exact (quiet_execAssert e msg).1.kept _
  | data w e =>
    obtain ⟨hq, -⟩ := @quiet_eval _ lk finalPass st e
    exact (hq.kept _).follow alloc _
  | fill e => exact (@quiet_eval _ lk finalPass st e).1.kept _

lemma kept_layOutPieces {alloc : Bool} (ps : List Piece) :
    Kept (ps.flatMap Piece.claimed) s.1 (lk.layOutPieces finalPass oi start alloc ps s).1 := by
  induction ps generalizing s with
  | nil => exact (Quiet.refl s.1).kept []
  | cons p ps ih => exact (kept_layOutPiece p _).trans ih

/-- Each piece of a section can be laid without overlap when the walk comes to it. -/
def Link.PiecesFit (lk : Link δ) (oi start : ℕ) : List Piece → Pass δ × ChunkLayout → Prop
  | [], _ => True
  | p :: ps, s => lk.PieceFits oi start s p (!ps.any Piece.isInputs) ∧
      lk.PiecesFit oi start ps
        (lk.layOutPiece true oi start true s p (!ps.any Piece.isInputs))

instance decidablePiecesFit : (ps : List Piece) → (s : Pass δ × ChunkLayout) →
    Decidable (lk.PiecesFit oi start ps s)
  | [], _ => isTrue trivial
  | p :: ps, s => @instDecidableAnd (lk.PieceFits oi start s p _) _ inferInstance
      (decidablePiecesFit ps _)

/-- Walking the pieces of a section without errors. -/
lemma Walked.layOutPieces {ps : List Piece} (h : Walked lk oi start placed s)
    (hnodup : (placed ++ ps.flatMap Piece.claimed).Nodup) (hfits : lk.PiecesFit oi start ps s)
    (herr : (lk.layOutPieces true oi start true ps s).1.errors = []) :
    Walked lk oi start (placed ++ ps.flatMap Piece.claimed)
      (lk.layOutPieces true oi start true ps s) := by
  induction ps generalizing placed s with
  | nil => rwa [List.flatMap_nil, List.append_nil]
  | cons p ps ih =>
    rw [List.flatMap_cons, ← List.append_assoc] at hnodup ⊢
    have hstep : (lk.layOutPiece true oi start true s p (!ps.any Piece.isInputs)).1.errors = [] := by
      obtain ⟨more, hm⟩ := (@kept_layOutPieces _ lk true oi start
        (lk.layOutPiece true oi start true s p (!ps.any Piece.isInputs)) true ps).errors
      rw [show (lk.layOutPieces true oi start true (p :: ps) s).1.errors = _ from hm] at herr
      exact (List.append_eq_nil_iff.mp herr).1
    exact ih (h.layOutPiece (hnodup.sublist (List.sublist_append_left _ _)) hfits.1 hstep) hnodup
      hfits.2 herr

/-! ## A section -/

/-- Giving a section its address only moves the location counter, to the address where the section is
allocated. -/
lemma quiet_placeSection :
    Quiet st (lk.placeSection finalPass st oi).1 ∧
      (lk.allocated oi = true →
        (lk.placeSection finalPass st oi).1.dot = (lk.placeSection finalPass st oi).2.1) := by
  have hattr : Quiet st (lk.attrAlign finalPass st oi).2 := by
    unfold Link.attrAlign
    split
    · exact (quiet_eval _).1
    · exact Quiet.refl st
  unfold Link.placeSection
  dsimp only
  split
  · rename_i ae _
    have heval := (@quiet_eval _ lk finalPass (lk.attrAlign finalPass st oi).2 ae).1
    split
    · exact ⟨hattr.trans ⟨heval.placements, heval.outs, heval.errors⟩, fun _ => rfl⟩
    · rename_i halloc
      exact ⟨hattr.trans heval, fun h => absurd h halloc⟩
  · split
    · exact ⟨⟨hattr.placements, hattr.outs, hattr.errors⟩, fun _ => rfl⟩
    · rename_i halloc
      exact ⟨hattr, fun h => absurd h halloc⟩

/-- The chunks of a section before its pieces are walked. -/
lemma quiet_initLayout :
    Quiet st (lk.initLayout finalPass st oi).1 ∧
      (lk.initLayout finalPass st oi).1.dot = st.dot ∧
      (lk.initLayout finalPass st oi).2.off = 0 ∧ (lk.initLayout finalPass st oi).2.end = 0 ∧
      (lk.initLayout finalPass st oi).2.chunks = [] := by
  unfold Link.initLayout
  dsimp only
  cases (lk.outSec oi).fill with
  | some e => exact ⟨(quiet_eval e).1, (quiet_eval e).2, rfl, rfl, rfl⟩
  | none => exact ⟨Quiet.refl st, rfl, rfl, rfl, rfl⟩

lemma quiet_defineStartStop : Quiet st (lk.defineStartStop st oi) := by
  unfold Link.defineStartStop
  dsimp only
  split
  · exact Quiet.refl st
  · refine List.foldlRecOn _ _ (Quiet.refl st) fun st' h p _ => ?_
    split
    · exact h
    · exact ⟨h.placements, h.outs, h.errors⟩

/-- Recording a section after the walk: its chunks, size and allocation are those of the walk, other
sections are as they were, and inputs stay where the walk placed them. -/
lemma recordSection_spec (secAlign savedDot : ℕ) :
    let st' := lk.recordSection finalPass oi start secAlign savedDot s
    ((st'.outs oi).chunks = s.2.chunks ∧ (st'.outs oi).size = s.2.end ∧
      (st'.outs oi).alloc = lk.allocated oi) ∧
    (∀ oj ≠ oi, st'.outs oj = s.1.outs oj) ∧ st'.placements = s.1.placements ∧
    ∃ more, st'.errors = s.1.errors ++ more := by
  obtain ⟨st, lay⟩ := s
  intro st'
  -- The state before the symbols are defined.
  obtain ⟨st₁, lma, hst', hpl, hout, herr⟩ : ∃ (st₁ : Pass δ) (lma : ℕ),
      st' = { lk.defineStartStop (st₁.setOut oi
        (lk.laid oi secAlign (st.outs oi).addr lma lay)) oi with curOut := none } ∧
      st₁.placements = st.placements ∧ (∀ oj ≠ oi, st₁.outs oj = st.outs oj) ∧
      ∃ more, st₁.errors = st.errors ++ more := by
    simp only [st', Link.recordSection]
    split
    · refine ⟨_, _, rfl, ?_, fun oj hne => ?_, ?_⟩
      all_goals unfold Link.loadAddress; split
      · rfl
      · rfl
      · exact Function.update_of_ne hne _ _
      · exact Function.update_of_ne hne _ _
      · exact ⟨_, rfl⟩
      · exact ⟨[], (List.append_nil _).symm⟩
    · exact ⟨_, _, rfl, rfl, fun oj hne => Function.update_of_ne hne _ _, [],
        (List.append_nil _).symm⟩
  have hq := @quiet_defineStartStop _ lk (st₁.setOut oi
    (lk.laid oi secAlign (st.outs oi).addr lma lay)) oi
  have houts : st'.outs = Function.update st₁.outs oi
      (lk.laid oi secAlign (st.outs oi).addr lma lay) := by
    rw [hst']
    exact hq.outs
  refine ⟨?_, fun oj hne => ?_, ?_, ?_⟩
  · rw [houts, Function.update_self]
    exact ⟨rfl, rfl, rfl⟩
  · rw [houts, Function.update_of_ne hne]
    exact hout oj hne
  · rw [hst']
    exact hq.placements.trans hpl
  · obtain ⟨more, hm⟩ := hq.errors
    obtain ⟨more', hm'⟩ := herr
    refine ⟨more' ++ more, ?_⟩
    rw [hst']
    change (lk.defineStartStop _ oi).errors = _
    rw [hm]
    change st₁.errors ++ more = _
    rw [hm', List.append_assoc]

/-- The pieces of a section can be laid without overlap. -/
def Link.SectionFits (lk : Link δ) (st : Pass δ) (oi : ℕ) : Prop :=
  let r := lk.placeSection true st oi
  r.2.1 < 2 ^ 64 ∧ lk.PiecesFit oi r.2.1 (lk.outSec oi).pieces
    (lk.initLayout true (r.1.openAt oi r.2.1) oi)

instance : Decidable (lk.SectionFits st oi) := inferInstanceAs (Decidable (_ ∧ _))

/-- A section is laid out without overlap: its chunks are disjoint and inside the section, an input
starts at a multiple of its alignment where it is recorded to be, each input is laid, and a member of
a pool that does not carry the bytes is not. -/
structure SectionRight (lk : Link δ) (st : Pass δ) (oi : ℕ) : Prop where
  disjoint : (st.outs oi).chunks.Pairwise fun x y => ∀ n, ¬ (x.off ≤ n ∧ n < x.off + x.len ∧
    y.off ≤ n ∧ n < y.off + y.len)
  inside : ∀ ch ∈ (st.outs oi).chunks, ch.off + ch.len ≤ (st.outs oi).size
  input : ∀ ch ∈ (st.outs oi).chunks, ∀ i, ch.src = .input i → i ∈ (lk.outSec oi).inputs ∧
    lk.mergedAway i = false ∧ lk.placeAlign i ∣ ch.off ∧ st.placements i = ⟨oi, ch.off, true⟩
  covered : ∀ i ∈ (lk.outSec oi).inputs, lk.mergedAway i = true ∨
    ∃ ch ∈ (st.outs oi).chunks, ch.src = .input i

/-- Each input section is claimed once. -/
structure Link.Claimed (lk : Link δ) : Prop where
  nodup : ∀ oi, (lk.outSec oi).inputs.Nodup
  disjoint : ∀ oi oj, oi ≠ oj → ∀ i ∈ (lk.outSec oi).inputs, i ∉ (lk.outSec oj).inputs

/-- An allocated section whose pieces fit is laid out without overlap. -/
lemma layoutOutSection_right (hclaimed : lk.Claimed) (halloc : lk.allocated oi = true)
    (hfits : lk.SectionFits st oi) (herr : (lk.layoutOutSection true st oi).errors = []) :
    SectionRight lk (lk.layoutOutSection true st oi) oi := by
  obtain ⟨-, hdot⟩ := @quiet_placeSection _ lk true st oi
  set r := lk.placeSection true st oi with hr
  obtain ⟨hlt, hpieces⟩ := hfits
  rw [← hr] at hlt hpieces
  obtain ⟨-, hdot', hoff, hend, hchunks⟩ := @quiet_initLayout _ lk true (r.1.openAt oi r.2.1) oi
  have hinit : Walked lk oi r.2.1 [] (lk.initLayout true (r.1.openAt oi r.2.1) oi) := by
    refine ⟨?_, hend.trans hoff.symm, by rw [hoff]; omega, ?_, fun ch hch => ?_,
      fun i hi => absurd hi (by simp)⟩
    · rw [hchunks]
      exact Stacked.nil
    · rw [hdot', hoff]
      exact hdot halloc
    · rw [hchunks] at hch
      exact absurd hch (by simp)
  have hlaid : lk.layoutOutSection true st oi = lk.recordSection true oi r.2.1 r.2.2 r.1.dot
      (lk.layOutPieces true oi r.2.1 true (lk.outSec oi).pieces
        (lk.initLayout true (r.1.openAt oi r.2.1) oi)) := by
    rw [Link.layoutOutSection, ← hr, halloc]
  rw [hlaid] at herr ⊢
  obtain ⟨⟨h1, h2, -⟩, -, h3, more, h4⟩ := @recordSection_spec _ lk true oi r.2.1
    (lk.layOutPieces true oi r.2.1 true (lk.outSec oi).pieces
      (lk.initLayout true (r.1.openAt oi r.2.1) oi)) r.2.2 r.1.dot
  rw [h4] at herr
  have hw := hinit.layOutPieces (hclaimed.nodup oi) hpieces (List.append_eq_nil_iff.mp herr).1
  refine ⟨?_, ?_, ?_, ?_⟩
  · rw [h1]
    exact hw.stacked.disjoint
  · rw [h1, h2, hw.end_eq]
    exact hw.stacked.behind
  · rw [h1, h3]
    exact hw.input
  · rw [h1]
    exact hw.covered

/-- Laying out a section keeps the others as they were and adds reports. -/
lemma layoutOutSection_other :
    (∀ oj ≠ oi, (lk.layoutOutSection finalPass st oi).outs oj = st.outs oj) ∧
      (∀ i ∉ (lk.outSec oi).inputs,
        (lk.layoutOutSection finalPass st oi).placements i = st.placements i) ∧
      ∃ more, (lk.layoutOutSection finalPass st oi).errors = st.errors ++ more := by
  obtain ⟨hq, -⟩ := @quiet_placeSection _ lk finalPass st oi
  set r := lk.placeSection finalPass st oi with hr
  obtain ⟨hq', -⟩ := @quiet_initLayout _ lk finalPass (r.1.openAt oi r.2.1) oi
  have hk := @kept_layOutPieces _ lk finalPass oi r.2.1
    (lk.initLayout finalPass (r.1.openAt oi r.2.1) oi) (lk.allocated oi) (lk.outSec oi).pieces
  have hlaid : lk.layoutOutSection finalPass st oi =
      lk.recordSection finalPass oi r.2.1 r.2.2 r.1.dot (lk.layOutPieces finalPass oi r.2.1
        (lk.allocated oi) (lk.outSec oi).pieces
        (lk.initLayout finalPass (r.1.openAt oi r.2.1) oi)) := by
    rw [Link.layoutOutSection, ← hr]
  obtain ⟨-, h1, h2, more, h3⟩ := @recordSection_spec _ lk finalPass oi r.2.1
    (lk.layOutPieces finalPass oi r.2.1 (lk.allocated oi) (lk.outSec oi).pieces
      (lk.initLayout finalPass (r.1.openAt oi r.2.1) oi)) r.2.2 r.1.dot
  rw [hlaid]
  refine ⟨fun oj hne => ?_, fun i hi => ?_, ?_⟩
  · rw [h1 oj hne, hk.outs, hq'.outs, ← hq.outs]
    exact Function.update_of_ne hne _ _
  · rw [h2, hk.placements i hi, hq'.placements, ← hq.placements]
    rfl
  · obtain ⟨m1, hm1⟩ := hk.errors
    obtain ⟨m2, hm2⟩ := hq'.errors
    obtain ⟨m3, hm3⟩ := hq.errors
    refine ⟨m3 ++ (m2 ++ (m1 ++ more)), ?_⟩
    rw [h3, hm1, hm2, ← List.append_assoc, ← List.append_assoc, ← List.append_assoc, ← hm3]
    rfl

/-- A section that is laid out stays so while another one is. -/
lemma SectionRight.other {oj : ℕ} (h : SectionRight lk st oj) (hclaimed : lk.Claimed)
    (hne : oj ≠ oi) (hout : st'.outs oj = st.outs oj)
    (hpl : ∀ i ∉ (lk.outSec oi).inputs, st'.placements i = st.placements i) :
    SectionRight lk st' oj := by
  refine ⟨?_, ?_, ?_, ?_⟩
  · rw [hout]
    exact h.disjoint
  · rw [hout]
    exact h.inside
  · rw [hout]
    intro ch hch i hi
    rw [hpl i (hclaimed.disjoint oj oi hne i (h.input ch hch i hi).1)]
    exact h.input ch hch i hi
  · rw [hout]
    exact h.covered

/-! ## A run -/

/-- The allocated sections laid out so far are laid out without overlap. -/
def AllRight (lk : Link δ) (laid : List ℕ) (st : Pass δ) : Prop :=
  ∀ oi ∈ laid, lk.allocated oi = true → SectionRight lk st oi

variable {laid : List ℕ}

lemma AllRight.quiet (h : AllRight lk laid st) (hq : Quiet st st') : AllRight lk laid st' := by
  intro oi hoi halloc
  obtain ⟨h1, h2, h3, h4⟩ := h oi hoi halloc
  refine ⟨?_, ?_, ?_, ?_⟩
  · rwa [hq.outs]
  · rwa [hq.outs]
  · rwa [hq.outs, hq.placements]
  · rwa [hq.outs]

/-- A section that a statement opens fits. -/
def Link.StmtFits (lk : Link δ) (st : Pass δ) (p : Stmt × ℕ) : Prop :=
  match p.1 with
  | .open oi => lk.allocated oi = true →
      lk.SectionFits (lk.enterSection { st with curStmt := p.2 } oi) oi
  | _ => True

instance {p : Stmt × ℕ} : Decidable (lk.StmtFits st p) :=
  match p with
  | (.open _, _) => inferInstanceAs (Decidable (_ → _))
  | (.assign _, _) => isTrue trivial
  | (.assert _ _, _) => isTrue trivial

lemma quiet_enterSection : Quiet st (lk.enterSection st oi) := by
  unfold Link.enterSection
  dsimp only
  split
  · exact ⟨rfl, rfl, [], by simp⟩
  · exact ⟨rfl, rfl, [], by simp⟩

/-- Reports that came out empty were empty before a statement. -/
lemma errors_execStmt (p : Stmt × ℕ) :
    ∃ more, (lk.execStmt finalPass st p).errors = st.errors ++ more := by
  obtain ⟨stmt, n⟩ := p
  unfold Link.execStmt
  cases stmt with
  | assign a =>
    dsimp only
    split
    · exact (@quiet_execAssignment _ lk finalPass { st with curStmt := n, preferNext := true } a
        false).1.errors
    · exact (@quiet_execAssignment _ lk finalPass { st with curStmt := n } a false).1.errors
  | assert e msg => exact (@quiet_execAssert _ lk finalPass { st with curStmt := n } e msg).1.errors
  | «open» oi =>
    obtain ⟨m1, hm1⟩ := (@quiet_enterSection _ lk { st with curStmt := n } oi).errors
    obtain ⟨-, -, m2, hm2⟩ := @layoutOutSection_other _ lk finalPass
      (lk.enterSection { st with curStmt := n } oi) oi
    refine ⟨m1 ++ m2, ?_⟩
    dsimp only
    rw [hm2, hm1, List.append_assoc]

/-- The section a statement opens. -/
def Stmt.opened : Stmt → List ℕ
  | .open oi => [oi]
  | _ => []

/-- A statement. -/
lemma AllRight.execStmt (hclaimed : lk.Claimed) {p : Stmt × ℕ} (h : AllRight lk laid st)
    (hfits : lk.StmtFits st p) (herr : (lk.execStmt true st p).errors = []) :
    AllRight lk (laid ++ p.1.opened) (lk.execStmt true st p) := by
  obtain ⟨stmt, n⟩ := p
  unfold Link.execStmt at herr ⊢
  cases stmt with
  | assign a =>
    rw [show laid ++ (Stmt.assign a).opened = laid from List.append_nil _]
    dsimp only
    split
    · have hq := (@quiet_execAssignment _ lk true { st with curStmt := n, preferNext := true } a
        false).1
      exact h.quiet ⟨hq.placements, hq.outs, hq.errors⟩
    · have hq := (@quiet_execAssignment _ lk true { st with curStmt := n } a false).1
      exact h.quiet ⟨hq.placements, hq.outs, hq.errors⟩
  | assert e msg =>
    have hq := (@quiet_execAssert _ lk true { st with curStmt := n } e msg).1
    rw [show laid ++ (Stmt.assert e msg).opened = laid from List.append_nil _]
    exact h.quiet ⟨hq.placements, hq.outs, hq.errors⟩
  | «open» oi =>
    have hq := @quiet_enterSection _ lk { st with curStmt := n } oi
    have hbefore : AllRight lk laid (lk.enterSection { st with curStmt := n } oi) :=
      h.quiet ⟨hq.placements, hq.outs, hq.errors⟩
    dsimp only at herr ⊢
    set st₁ := lk.enterSection { st with curStmt := n } oi
    obtain ⟨hout, hpl, -⟩ := @layoutOutSection_other _ lk true st₁ oi
    intro oj hoj halloc
    by_cases heq : oj = oi
    · subst heq
      exact layoutOutSection_right hclaimed halloc (hfits halloc) herr
    · have hmem : oj ∈ laid := by
        rcases List.mem_append.mp hoj with hoj | hoj
        · exact hoj
        · exact absurd (List.mem_singleton.mp hoj) heq
      exact (hbefore oj hmem halloc).other hclaimed heq (hout oj heq) hpl

/-- The sections that statements open fit when the pass comes to them. -/
def Link.StmtsFit (lk : Link δ) : List (Stmt × ℕ) → Pass δ → Prop
  | [], _ => True
  | p :: ps, st => lk.StmtFits st p ∧ lk.StmtsFit ps (lk.execStmt true st p)

instance decidableStmtsFit : (ps : List (Stmt × ℕ)) → (st : Pass δ) → Decidable (lk.StmtsFit ps st)
  | [], _ => isTrue trivial
  | p :: ps, st => @instDecidableAnd (lk.StmtFits st p) _ inferInstance (decidableStmtsFit ps _)

lemma errors_foldl_execStmt (ps : List (Stmt × ℕ)) :
    ∃ more, (ps.foldl (lk.execStmt finalPass) st).errors = st.errors ++ more := by
  induction ps generalizing st with
  | nil => exact ⟨[], (List.append_nil _).symm⟩
  | cons p ps ih =>
    obtain ⟨m1, hm1⟩ := @errors_execStmt _ lk finalPass st p
    obtain ⟨m2, hm2⟩ := @ih (lk.execStmt finalPass st p)
    exact ⟨m1 ++ m2, by rw [List.foldl_cons, hm2, hm1, List.append_assoc]⟩

/-- Statements. -/
lemma AllRight.foldl_execStmt (hclaimed : lk.Claimed) {ps : List (Stmt × ℕ)}
    (h : AllRight lk laid st) (hfits : lk.StmtsFit ps st)
    (herr : (ps.foldl (lk.execStmt true) st).errors = []) :
    AllRight lk (laid ++ ps.flatMap fun p => p.1.opened) (ps.foldl (lk.execStmt true) st) := by
  induction ps generalizing laid st with
  | nil => rwa [List.flatMap_nil, List.append_nil]
  | cons p ps ih =>
    obtain ⟨more, hm⟩ := @errors_foldl_execStmt _ lk true (lk.execStmt true st p) ps
    have hstep : (lk.execStmt true st p).errors = [] := by
      rw [List.foldl_cons, hm] at herr
      exact (List.append_eq_nil_iff.mp herr).1
    rw [List.flatMap_cons, ← List.append_assoc]
    exact ih (h.execStmt hclaimed hfits.1 hstep) hfits.2 herr

/-- The sections that commands lay out fit when the pass comes to them. -/
def Link.CommandsFit (lk : Link δ) : List Command → Pass δ × Bool → Prop
  | [], _ => True
  | c :: cs, s => (c = .sections → lk.StmtsFit lk.stmts.zipIdx s.1) ∧
      lk.CommandsFit cs (lk.execCommand true s c)

instance decidableCommandsFit : (cs : List Command) → (s : Pass δ × Bool) →
    Decidable (lk.CommandsFit cs s)
  | [], _ => isTrue trivial
  | c :: cs, s => @instDecidableAnd (c = .sections → lk.StmtsFit lk.stmts.zipIdx s.1) _
      inferInstance (decidableCommandsFit cs _)

lemma mem_opens_iff {stmts : List Stmt} :
    oi ∈ opens stmts ↔ oi ∈ stmts.zipIdx.flatMap fun p => p.1.opened := by
  have hmap : (stmts.zipIdx.flatMap fun p => p.1.opened) = stmts.flatMap Stmt.opened := by
    rw [← List.flatMap_map Prod.fst Stmt.opened, List.zipIdx_map_fst]
  rw [hmap, opens, List.mem_filterMap, List.mem_flatMap]
  refine exists_congr fun s => and_congr_right fun _ => ?_
  cases s <;> simp [Stmt.opened, eq_comm]

/-- Reports grow along commands. -/
lemma errors_foldl_execCommand (cs : List Command) (s : Pass δ × Bool) :
    ∃ more, (cs.foldl (lk.execCommand finalPass) s).1.errors = s.1.errors ++ more := by
  induction cs generalizing s with
  | nil => exact ⟨[], (List.append_nil _).symm⟩
  | cons c cs ih =>
    have hstep : ∃ more, (lk.execCommand finalPass s c).1.errors = s.1.errors ++ more := by
      cases c with
      | assign a => exact (quiet_execAssignment a s.2).1.errors
      | assert e msg => exact (quiet_execAssert e msg).1.errors
      | sections => exact errors_foldl_execStmt _
      | other => exact ⟨[], (List.append_nil _).symm⟩
    obtain ⟨m1, hm1⟩ := hstep
    obtain ⟨m2, hm2⟩ := ih (lk.execCommand finalPass s c)
    exact ⟨m1 ++ m2, by rw [List.foldl_cons, hm2, hm1, List.append_assoc]⟩

/-- Commands: what was laid out stays so, and `SECTIONS` lays out what the statements open. -/
lemma AllRight.foldl_execCommand (hclaimed : lk.Claimed) {cs : List Command} {s : Pass δ × Bool}
    (h : AllRight lk laid s.1) (hfits : lk.CommandsFit cs s)
    (herr : (cs.foldl (lk.execCommand true) s).1.errors = []) :
    AllRight lk (if .sections ∈ cs then laid ++ opens lk.stmts else laid)
      (cs.foldl (lk.execCommand true) s).1 := by
  induction cs generalizing laid s with
  | nil => exact h
  | cons c cs ih =>
    have hnil : (lk.execCommand true s c).1.errors = [] := by
      obtain ⟨more, hm⟩ := @errors_foldl_execCommand _ lk true cs (lk.execCommand true s c)
      rw [List.foldl_cons, hm] at herr
      exact (List.append_eq_nil_iff.mp herr).1
    by_cases hc : c = .sections
    · subst hc
      have hstmts : AllRight lk (laid ++ opens lk.stmts) (lk.execSections true s.1) := by
        intro oi hoi halloc
        refine h.foldl_execStmt hclaimed (hfits.1 rfl) hnil oi ?_ halloc
        rw [List.mem_append] at hoi ⊢
        exact hoi.imp_right mem_opens_iff.mp
      have hrest := ih hstmts hfits.2 herr
      intro oi hoi halloc
      rw [if_pos (List.mem_cons_self)] at hoi
      refine hrest oi ?_ halloc
      split
      · exact List.mem_append_left _ hoi
      · exact hoi
    · have hquiet : Quiet s.1 (lk.execCommand true s c).1 := by
        cases c with
        | assign a => exact (quiet_execAssignment a s.2).1
        | assert e msg => exact (quiet_execAssert e msg).1
        | sections => exact absurd rfl hc
        | other => exact Quiet.refl s.1
      have hmem : (Command.sections ∈ c :: cs) ↔ Command.sections ∈ cs := by
        rw [List.mem_cons]
        exact or_iff_right fun heq => hc heq.symm
      simp only [hmem]
      exact ih (h.quiet hquiet) hfits.2 herr

lemma run_eq_some {st₀ : Pass δ} (h : lk.run st₀ = some st') :
    ∃ st, lk.settle 4 st₀ = some st ∧ st' = lk.layoutPass true st ∧ st'.errors = [] := by
  unfold Link.run at h
  obtain ⟨st, hst, h⟩ := Option.bind_eq_some_iff.mp h
  dsimp only at h
  obtain ⟨herr, h⟩ := Option.ite_none_right_eq_some.mp h
  obtain rfl := Option.some.inj h
  exact ⟨st, hst, rfl, herr⟩

/-- Four bytes of data. -/
def wordSection (b : Byte) : RawSection where
  shtype := shtProgbits
  flags := shfAlloc
  size := 4
  addralign := 4
  entsize := 0
  relocs := []
  contents := [b, b, b, b]
  addralign_lt := by norm_num
  length_contents _ := rfl

/-- The state before the first pass. -/
def freshPass : Pass Unit where
  dot := 0
  scriptNow _ := none
  scriptPrev _ := none
  placements _ := ⟨0, 0, false⟩
  outs _ := .empty
  referenced _ := false
  lmaDelta := 0
  curOut := none
  dotSection := none
  preferNext := false
  curStmt := 0
  foundEnd := false
  afterEnd _ := false
  errors := []
  undefined := []
  veneerReserve _ := none
  phdrs := 1
  tables := ()

/-- A link of two words into `.data` at `0x1000`, with pieces between them. -/
def twoWords (between : List Piece) : Link Unit where
  insecs := [wordSection 1, wordSection 2]
  fates := [.placed 0, .placed 0]
  pools := ⟨[], fun _ => none⟩
  ehFrames _ := none
  globals _ := none
  scriptAssigned _ := false
  outSecs := [⟨".data", some (.number 0x1000), none, none, none,
    .inputs [0] :: between ++ [.inputs [1]], none, false⟩]
  stmts := [.open 0]
  commands := [.sections]
  machine := 62
  maxPageSize := 0x1000
  commonPageSize := 0x1000
  sizeofHeaders n := BitVec.ofNat 64 (64 + 56 * n)
  isSynth _ := false
  synthSize _ _ := none
  sizeDynamic _ := ()
  sizeReserve _ _ := none
  countPhdrs _ := some 1
  counts _ := [0, 0, 0]
  names := []

end Badc.Layout
