import Badc.Passes.Layout

/-!
# What block layout does

The order is a permutation of the blocks because a block is placed when it is marked; it starts
with the entry because a loop around the entry has the entry as its header.  With the renaming of
`Badc.Ssa.Rename` this gives `Layout.runOne_sameRuns`: the function runs as before.
-/

namespace Badc

/-- `out` are blocks that were not placed, each once, and placing them gives `placed'`. -/
structure Places (n : ℕ) (placed : ℕ → Bool) (out : List ℕ) (placed' : ℕ → Bool) : Prop where
  nodup : out.Nodup
  fresh : ∀ b ∈ out, placed b = false
  inRange : ∀ b ∈ out, b < n
  iff : ∀ b, placed' b = true ↔ placed b = true ∨ b ∈ out

namespace Places

variable {n : ℕ} {placed placed' placed'' : ℕ → Bool} {out out' : List ℕ}

lemma nil (n : ℕ) (placed : ℕ → Bool) : Places n placed [] placed :=
  ⟨List.nodup_nil, by simp, by simp, by simp⟩

lemma single {b : ℕ} (hb : b < n) (hfresh : placed b = false) :
    Places n placed [b] (Function.update placed b true) := by
  refine ⟨by simp, by simpa using hfresh, by simpa using hb, fun c => ?_⟩
  by_cases hc : c = b
  · simp [hc]
  · simp [hc]

/-- Placing some blocks and then others. -/
lemma append (h : Places n placed out placed') (h' : Places n placed' out' placed'') :
    Places n placed (out ++ out') placed'' where
  nodup := by
    rw [List.nodup_append]
    refine ⟨h.nodup, h'.nodup, ?_⟩
    rintro b hb c hc rfl
    have := h'.fresh b hc
    rw [(h.iff b).mpr (Or.inr hb)] at this
    cases this
  fresh b hb := by
    rcases List.mem_append.mp hb with hb | hb
    · exact h.fresh b hb
    · have := h'.fresh b hb
      rw [Bool.eq_false_iff] at this ⊢
      exact fun hp => this ((h.iff b).mpr (Or.inl hp))
  inRange b hb := by
    rcases List.mem_append.mp hb with hb | hb
    · exact h.inRange b hb
    · exact h'.inRange b hb
  iff b := by
    rw [h'.iff, h.iff, List.mem_append, or_assoc]

lemma perm (h : Places n placed out placed') (hperm : out'.Perm out) :
    Places n placed out' placed' where
  nodup := hperm.nodup_iff.mpr h.nodup
  fresh b hb := h.fresh b (hperm.mem_iff.mp hb)
  inRange b hb := h.inRange b (hperm.mem_iff.mp hb)
  iff b := by rw [h.iff, hperm.mem_iff]

/-- What is placed is no longer left. -/
lemma card_add (h : Places n placed out placed') :
    ((Finset.range n).filter fun b => placed' b = false).card + out.length =
      ((Finset.range n).filter fun b => placed b = false).card := by
  rw [← List.toFinset_card_of_nodup h.nodup, ← Finset.card_union_of_disjoint]
  · congr 1
    ext b
    have hiff := h.iff b
    simp only [Finset.mem_union, Finset.mem_filter, Finset.mem_range, List.mem_toFinset]
    constructor
    · rintro (⟨hb, hp⟩ | hb)
      · refine ⟨hb, ?_⟩
        rw [Bool.eq_false_iff] at hp ⊢
        exact fun hp' => hp (hiff.mpr (Or.inl hp'))
      · exact ⟨h.inRange b hb, h.fresh b hb⟩
    · rintro ⟨hb, hp⟩
      by_cases hmem : b ∈ out
      · exact Or.inr hmem
      · refine Or.inl ⟨hb, ?_⟩
        rw [Bool.eq_false_iff]
        intro hp'
        rcases hiff.mp hp' with h' | h'
        · rw [hp] at h'
          cases h'
        · exact hmem h'
  · rw [Finset.disjoint_left]
    intro b hb hmem
    rw [List.mem_toFinset] at hmem
    have := (Finset.mem_filter.mp hb).2
    rw [(h.iff b).mpr (Or.inr hmem)] at this
    cases this

end Places

/-! ## Reordering chunks -/

section

variable {f : FunctionSsa} {loops : List NaturalLoop}

/-- Moving the latch reorders the chunks. -/
lemma moveLatchBeforeHeader_perm (header : ℕ) (chunks : List (List ℕ)) :
    (moveLatchBeforeHeader f header chunks).Perm chunks := by
  unfold moveLatchBeforeHeader
  simp only
  split
  · exact .refl _
  · split
    · exact .refl _
    · split
      · exact .refl _
      · rename_i lp hlp
        have hmem := List.mem_of_find?_eq_some hlp
        rw [List.mem_reverse, List.mem_range] at hmem
        have hlt : lp < chunks.length := by omega
        rw [List.getD_eq_getElem?_getD, List.getElem?_eq_getElem hlt, Option.getD_some]
        refine (List.perm_insertIdx _ _ (by omega)).trans ?_
        exact List.getElem_cons_eraseIdx_perm hlt

lemma finishLevel_perm (level : Option ℕ) (chunks : List (List ℕ)) :
    (finishLevel f loops level chunks).Perm chunks := by
  unfold finishLevel
  split
  · exact .refl _
  · split
    · refine (moveLatchBeforeHeader_perm _ _).trans ?_
      exact List.perm_append_comm.trans (by rw [List.take_append_drop])
    · exact .refl _

/-- The exits of a chunk are listed once, and a chunk of blocks of the function has exits in the
function. -/
lemma exitSuccessors_spec (hg : f.graph.Closed) (l : NaturalLoop) (chunk : List ℕ) :
    (exitSuccessors f l chunk).Nodup ∧ ∀ s ∈ exitSuccessors f l chunk, s < f.blocks.length := by
  have hedges : ∀ s ∈ chunk.reverse.flatMap f.graph.of, s < f.blocks.length := by
    intro s hs
    obtain ⟨b, -, hb⟩ := List.mem_flatMap.mp hs
    rw [← f.graph_size]
    exact hg b s hb
  unfold exitSuccessors
  suffices h : ∀ (edges exits : List ℕ), (∀ s ∈ edges, s < f.blocks.length) → exits.Nodup →
      (∀ s ∈ exits, s < f.blocks.length) →
      (edges.foldl (fun exits s => if l.contains s || s ∈ exits then exits else exits ++ [s])
          exits).Nodup ∧
        ∀ s ∈ edges.foldl (fun exits s => if l.contains s || s ∈ exits then exits
          else exits ++ [s]) exits, s < f.blocks.length by
    exact h _ [] hedges List.nodup_nil (by simp)
  intro edges
  induction edges with
  | nil => exact fun exits _ hnd hlt => ⟨hnd, hlt⟩
  | cons s edges ih =>
    intro exits he hnd hlt
    rw [List.foldl_cons]
    refine ih _ (fun t ht => he t (.tail _ ht)) ?_ ?_
    · split
      · exact hnd
      · rename_i hno
        simp only [Bool.or_eq_true, decide_eq_true_eq, not_or] at hno
        rw [List.nodup_append]
        refine ⟨hnd, by simp, ?_⟩
        rintro b hb c hc rfl
        exact hno.2 (List.mem_singleton.mp hc ▸ hb)
    · split
      · exact hlt
      · intro t ht
        rcases List.mem_append.mp ht with ht | ht
        · exact hlt t ht
        · rw [List.mem_singleton.mp ht]
          exact he s (by simp)

lemma length_le_of_nodup_lt {l : List ℕ} {n : ℕ} (hnd : l.Nodup) (hlt : ∀ b ∈ l, b < n) :
    l.length ≤ n := by
  have := (hnd.subperm fun b hb => List.mem_range.mpr (hlt b hb)).length_le
  rwa [List.length_range] at this

/-- A placed block puts blocks of the function on the stack, no more than the width. -/
lemma WellNamed.pushOrder_spec (hf : WellNamed f) {b : ℕ} (hb : b < f.blocks.length) :
    (∀ t ∈ pushOrder f b, t < f.blocks.length) ∧ (pushOrder f b).length ≤ layWidth f := by
  refine ⟨?_, ?_⟩
  · have hblk := List.getElem?_eq_getElem hb
    have hexist := hf.targets b _ hblk
    unfold pushOrder
    rw [List.getD_eq_getElem?_getD, hblk, Option.getD_some]
    revert hexist
    cases f.blocks[b].terminator with
    | gotoIndirect a =>
      intro _ t ht
      exact hf.gotoTargets t ((List.mem_insertionSort _).mp (List.mem_reverse.mp ht))
    | jmp t | fallThrough t | bz cond t e | bnz cond t e | jumpTable idx table | asmGoto table =>
      intro hexist t ht
      refine hexist.targets_lt t ?_
      simpa [Terminator.targets] using ht
    | ret v | tailExt v | unreachable => exact fun _ => by simp
  · have hmem : (pushOrder f b).length ∈
        (List.range f.blocks.length).map fun b => (pushOrder f b).length :=
      List.mem_map.mpr ⟨b, List.mem_range.mpr hb, rfl⟩
    exact (List.le_sum_of_mem hmem).trans (Nat.le_add_left _ _)

end

/-! ## One level -/

section

variable {f : FunctionSsa} {loops : List NaturalLoop} {forest : LoopForest} {level : Option ℕ}
  {inner : ℕ → (ℕ → Bool) → List ℕ × (ℕ → Bool)}

/-- What a level keeps: its chunks are what it has placed, and its stack holds blocks. -/
structure LayInv (f : FunctionSsa) (placed : ℕ → Bool) (s : LayState) : Prop where
  places : Places f.blocks.length placed s.chunks.flatten s.placed
  stack : ∀ b ∈ s.stack, b < f.blocks.length

/-- Rounds left to a level. -/
def layMeasure (f : FunctionSsa) (s : LayState) : ℕ :=
  ((Finset.range f.blocks.length).filter fun b => s.placed b = false).card * (layWidth f + 1) +
    s.stack.length

/-- Placing at least one unit pays for what it puts on the stack. -/
lemma layMeasure_lt {s : LayState} {rest pushed out : List ℕ} {placed' : ℕ → Bool}
    {chunks : List (List ℕ)} {b : ℕ} (hst : s.stack = b :: rest)
    (hplaces : Places f.blocks.length s.placed out placed')
    (hpushed : pushed.length ≤ layWidth f) (hnil : out = [] → pushed = []) :
    layMeasure f ⟨placed', pushed ++ rest, chunks⟩ < layMeasure f s := by
  have hcard := hplaces.card_add
  simp only [layMeasure, hst, List.length_append, List.length_cons]
  generalize ((Finset.range f.blocks.length).filter fun b => placed' b = false).card = u' at *
  generalize ((Finset.range f.blocks.length).filter fun b => s.placed b = false).card = u at *
  by_cases hout : out = []
  · rw [hnil hout]
    simp only [hout, List.length_nil, Nat.add_zero] at hcard ⊢
    rw [hcard]
    omega
  · have hpos : 0 < out.length := List.length_pos_of_ne_nil hout
    have hle : (u' + 1) * (layWidth f + 1) ≤ u * (layWidth f + 1) :=
      Nat.mul_le_mul_right _ (by omega)
    rw [Nat.succ_mul] at hle
    omega

/-- A round keeps what a level keeps, and takes one of the rounds that are left. -/
lemma WellNamed.layRound_spec (hf : WellNamed f)
    (hinner : ∀ li placed, Places f.blocks.length placed (inner li placed).1 (inner li placed).2)
    {placed : ℕ → Bool} {s s' : LayState} (h : LayInv f placed s)
    (hr : layRound f loops forest level inner s = some s') :
    LayInv f placed s' ∧ layMeasure f s' < layMeasure f s ∧
      ∃ added, s'.chunks = s.chunks ++ added := by
  have hg : f.graph.Closed := FunctionSsa.graph_closed hf.gotoTargets hf.targets
  unfold layRound at hr
  split at hr
  · cases hr
  · rename_i b rest hst
    have hb : b < f.blocks.length := h.stack b (by simp [hst])
    have hrest : ∀ c ∈ rest, c < f.blocks.length := fun c hc => h.stack c (by simp [hst, hc])
    split at hr
    · obtain rfl := Option.some.inj hr
      refine ⟨⟨h.places, hrest⟩, ?_, [], by simp⟩
      simp only [layMeasure, hst, List.length_cons]
      omega
    · rename_i hno
      simp only [Bool.or_eq_true, not_or, Bool.not_eq_true] at hno
      split at hr
      · obtain rfl := Option.some.inj hr
        obtain ⟨hpush, hwidth⟩ := hf.pushOrder_spec hb
        have hplace : Places f.blocks.length s.placed [b] (Function.update s.placed b true) :=
          Places.single hb hno.1
        refine ⟨⟨?_, ?_⟩, layMeasure_lt hst hplace (by simpa using hwidth) (by simp), [[b]], rfl⟩
        · simpa using h.places.append hplace
        · intro c hc
          rcases List.mem_append.mp hc with hc | hc
          · exact hpush c (List.mem_reverse.mp hc)
          · exact hrest c hc
      · rename_i li _
        obtain rfl := Option.some.inj hr
        have hplace := hinner li s.placed
        have hexits : (∀ c ∈ ((loops[li]?).map fun l =>
              exitSuccessors f l (inner li s.placed).1).getD [], c < f.blocks.length) ∧
            (((loops[li]?).map fun l =>
              exitSuccessors f l (inner li s.placed).1).getD []).length ≤ layWidth f ∧
            ((inner li s.placed).1 = [] → ((loops[li]?).map fun l =>
              exitSuccessors f l (inner li s.placed).1).getD [] = []) := by
          cases loops[li]? with
          | none => simp
          | some l =>
            obtain ⟨hnd, hlt⟩ := exitSuccessors_spec hg l (inner li s.placed).1
            refine ⟨hlt, ?_, fun hnil => ?_⟩
            · exact (length_le_of_nodup_lt hnd hlt).trans (Nat.le_add_right _ _)
            · simp [exitSuccessors, hnil]
        refine ⟨⟨?_, ?_⟩, layMeasure_lt hst hplace hexits.2.1 hexits.2.2, [_], rfl⟩
        · simpa using h.places.append hplace
        · intro c hc
          rcases List.mem_append.mp hc with hc | hc
          · exact hexits.1 c hc
          · exact hrest c hc

lemma layMeasure_init (placed : ℕ → Bool) (entry : ℕ) :
    layMeasure f ⟨placed, [entry], []⟩ ≤ layFuel f := by
  have hcard := Finset.card_filter_le (Finset.range f.blocks.length) fun b => placed b = false
  rw [Finset.card_range] at hcard
  simp only [layMeasure, layFuel, List.length_singleton]
  exact Nat.add_le_add_right (Nat.mul_le_mul_right _ hcard) 1

/-- A level runs until its stack is empty. -/
lemma WellNamed.layRounds_done (hf : WellNamed f)
    (hinner : ∀ li placed, Places f.blocks.length placed (inner li placed).1 (inner li placed).2)
    {entry : ℕ} (hentry : entry < f.blocks.length) (placed : ℕ → Bool) :
    let s := whileSome (layRound f loops forest level inner) (layFuel f) ⟨placed, [entry], []⟩
    LayInv f placed s ∧ s.stack = [] := by
  have hinit : LayInv f placed ⟨placed, [entry], []⟩ :=
    ⟨Places.nil _ _, by simpa using hentry⟩
  have hstep : ∀ s s', LayInv f placed s → layRound f loops forest level inner s = some s' →
      LayInv f placed s' ∧ layMeasure f s' < layMeasure f s := fun s s' hs hr =>
    ⟨(hf.layRound_spec hinner hs hr).1, (hf.layRound_spec hinner hs hr).2.1⟩
  refine ⟨whileSome_invariant (LayInv f placed) (fun s s' hs hr => (hstep s s' hs hr).1) _ hinit,
    ?_⟩
  have hdone := whileSome_done (LayInv f placed) (layMeasure f) hstep hinit
    (layMeasure_init placed entry)
  unfold layRound at hdone
  split at hdone
  · assumption
  · split at hdone
    · cases hdone
    · split at hdone <;> cases hdone

/-- Laying out a level places blocks that were not placed. -/
theorem WellNamed.layOut_places (hf : WellNamed f) (hheader : ∀ l ∈ loops, l.header < f.blocks.length)
    (depth : ℕ) : ∀ (level : Option ℕ) (entry : ℕ) (placed : ℕ → Bool),
      entry < f.blocks.length → Places f.blocks.length placed
        (layOut f loops forest depth level entry placed).1
        (layOut f loops forest depth level entry placed).2 := by
  induction depth with
  | zero => exact fun _ _ placed _ => Places.nil _ placed
  | succ depth ih =>
    intro level entry placed hentry
    have hhead : ∀ li, headerOf loops li < f.blocks.length := by
      intro li
      unfold headerOf
      cases hl : loops[li]? with
      | none => exact hf.nonempty
      | some l => exact hheader l (List.mem_of_getElem? hl)
    obtain ⟨hinv, -⟩ := @WellNamed.layRounds_done f loops forest level _ hf
      (fun li placed => ih (some li) (headerOf loops li) placed (hhead li)) entry hentry placed
    exact hinv.places.perm (finishLevel_perm level _).flatten

end

/-! ## The whole order -/

section

variable {f : FunctionSsa} {loops : List NaturalLoop} {forest : LoopForest} {level : Option ℕ}

/-- A round depends on the placement of the loops directly inside the level only. -/
lemma layRound_congr {inner inner' : ℕ → (ℕ → Bool) → List ℕ × (ℕ → Bool)}
    (h : ∀ b li, forest.unitLoop loops.length b level = some li → inner li = inner' li) :
    layRound f loops forest level inner = layRound f loops forest level inner' := by
  funext s
  unfold layRound
  cases s.stack with
  | nil => rfl
  | cons b rest =>
    simp only
    split
    · rfl
    · cases hunit : forest.unitLoop loops.length b level with
      | none => rfl
      | some li => simp only [h b li hunit]

/-- More depth than there are loops inside a level changes nothing. -/
theorem layOut_depth (depth : ℕ) : ∀ (level : Option ℕ) (entry : ℕ) (placed : ℕ → Bool),
    LoopForest.levelRank loops level ≤ loops.length →
    loops.length < depth + LoopForest.levelRank loops level →
    layOut f loops (LoopForest.build loops) (depth + 1) level entry placed =
      layOut f loops (LoopForest.build loops) depth level entry placed := by
  induction depth with
  | zero =>
    intro level entry placed hle hlt
    omega
  | succ depth ih =>
    intro level entry placed hle hlt
    have hround : layRound f loops (LoopForest.build loops) level (fun li placed =>
          layOut f loops (LoopForest.build loops) (depth + 1) (some li) (headerOf loops li) placed) =
        layRound f loops (LoopForest.build loops) level fun li placed =>
          layOut f loops (LoopForest.build loops) depth (some li) (headerOf loops li) placed := by
      refine layRound_congr fun b li hunit => ?_
      have hdeep : LoopForest.levelRank loops level < LoopForest.levelRank loops (some li) :=
        LoopForest.parent_of_unitLoop hunit ▸ LoopForest.parent_rank
      funext placed
      exact ih (some li) _ placed (LoopForest.levelRank_le (LoopForest.mem_of_unitLoop hunit))
        (by omega)
    rw [layOut, layOut, hround]

/-- The order is a permutation of the blocks. -/
theorem WellNamed.layoutOrder_perm (hf : WellNamed f)
    (hheader : ∀ l ∈ loops, l.header < f.blocks.length) :
    (layoutOrder f loops forest).Perm (List.range f.blocks.length) := by
  have hplaces := @WellNamed.layOut_places f loops forest hf hheader (loops.length + 1) none 0
    (fun _ => false) hf.nonempty
  unfold layoutOrder
  generalize layOut f loops forest (loops.length + 1) none 0 (fun _ => false) = r at hplaces
  have hmem : ∀ b, r.2 b = true ↔ b ∈ r.1 := fun b => by simpa using hplaces.iff b
  refine (List.perm_ext_iff_of_nodup ?_ List.nodup_range).mpr fun b => ?_
  · rw [List.nodup_append]
    refine ⟨hplaces.nodup, List.nodup_range.filter _, ?_⟩
    rintro b hb c hc rfl
    have := (List.mem_filter.mp hc).2
    simp [(hmem b).mpr hb] at this
  · simp only [List.mem_append, List.mem_filter, List.mem_range]
    constructor
    · rintro (hb | hb)
      · exact hplaces.inRange b hb
      · exact hb.1
    · intro hb
      by_cases hr : b ∈ r.1
      · exact Or.inl hr
      · refine Or.inr ⟨hb, ?_⟩
        rw [Bool.not_eq_true', Bool.eq_false_iff]
        exact fun hp => hr ((hmem b).mp hp)

/-- A round adds a chunk at the end. -/
lemma layRound_chunks {inner : ℕ → (ℕ → Bool) → List ℕ × (ℕ → Bool)} {s s' : LayState}
    (h : layRound f loops forest level inner s = some s') :
    ∃ added, s'.chunks = s.chunks ++ added := by
  unfold layRound at h
  split at h
  · cases h
  · split at h
    · obtain rfl := Option.some.inj h
      exact ⟨[], by simp⟩
    · split at h
      · obtain rfl := Option.some.inj h
        exact ⟨_, rfl⟩
      · obtain rfl := Option.some.inj h
        exact ⟨_, rfl⟩

/-- The first chunk of a level is the unit of its entry. -/
lemma layRounds_first {inner : ℕ → (ℕ → Bool) → List ℕ × (ℕ → Bool)} {entry : ℕ}
    {placed : ℕ → Bool} (hfresh : placed entry = false)
    (hin : inLevel loops level entry = true) :
    ∃ added, (whileSome (layRound f loops forest level inner) (layFuel f)
        ⟨placed, [entry], []⟩).chunks =
      (match forest.unitLoop loops.length entry level with
        | none => [entry]
        | some li => (inner li placed).1) :: added := by
  obtain ⟨s, hs, hchunks⟩ : ∃ s, layRound f loops forest level inner ⟨placed, [entry], []⟩ =
      some s ∧ s.chunks = [match forest.unitLoop loops.length entry level with
        | none => [entry]
        | some li => (inner li placed).1] := by
    unfold layRound
    simp only [hfresh, hin, Bool.not_true, Bool.or_self, Bool.false_eq_true, if_false]
    cases forest.unitLoop loops.length entry level with
    | none => exact ⟨_, rfl, rfl⟩
    | some li => exact ⟨_, rfl, rfl⟩
  rw [layFuel, whileSome_of_some hs]
  refine whileSome_invariant (fun s' : LayState => ∃ added, s'.chunks = _ :: added) ?_ _
    ⟨[], hchunks⟩
  rintro s₁ s₂ ⟨added, hadded⟩ hr
  obtain ⟨more, hmore⟩ := layRound_chunks hr
  exact ⟨added ++ more, by rw [hmore, hadded, List.cons_append]⟩

/-- A level whose entry is the block 0, on its own there, starts with it: such a level is not
rotated. -/
lemma layOut_head {depth : ℕ} {placed : ℕ → Bool} (hfresh : placed 0 = false)
    (hin : inLevel loops level 0 = true) (hunit : forest.unitLoop loops.length 0 level = none)
    (hheader : ∀ l, (level.bind fun li => loops[li]?) = some l → l.header = 0) :
    (layOut f loops forest (depth + 1) level 0 placed).1.head? = some 0 := by
  obtain ⟨added, hadded⟩ := @layRounds_first f loops forest level
    (fun li placed => layOut f loops forest depth (some li) (headerOf loops li) placed) 0 placed
    hfresh hin
  rw [hunit] at hadded
  have hfinish : ∀ chunks, finishLevel f loops level chunks = chunks := by
    intro chunks
    unfold finishLevel
    split
    · rfl
    · rename_i l hl
      simp [rotatable, hheader l hl]
  rw [layOut]
  simp only [hfinish, hadded]
  rfl

/-- The order starts with the entry. -/
theorem layoutOrder_head (hheader : ∀ l ∈ loops, 0 ∈ l.body → l.header = 0)
    (hnd : (loops.map NaturalLoop.header).Nodup) :
    (layoutOrder f loops (LoopForest.build loops)).head? = some 0 := by
  have hhead : (layOut f loops (LoopForest.build loops) (loops.length + 1) none 0
      fun _ => false).1.head? = some 0 := by
    cases hunit : (LoopForest.build loops).unitLoop loops.length 0 none with
    | none => exact layOut_head rfl rfl hunit (by simp)
    | some li =>
      obtain ⟨⟨l, hl, hmem, hl0⟩, hinside⟩ := LoopForest.unitLoop_header hheader hnd hunit
      obtain ⟨n, hn⟩ : ∃ n, loops.length = n + 1 := by
        have := (List.getElem?_eq_some_iff.mp hl).1
        exact ⟨loops.length - 1, by omega⟩
      obtain ⟨added, hadded⟩ := @layRounds_first f loops (LoopForest.build loops) none
        (fun li placed => layOut f loops (LoopForest.build loops) loops.length (some li)
          (headerOf loops li) placed) 0 (fun _ => false) rfl rfl
      rw [hunit] at hadded
      have hinner : (layOut f loops (LoopForest.build loops) loops.length (some li)
          (headerOf loops li) fun _ => false).1.head? = some 0 := by
        have hhead0 : headerOf loops li = 0 := by simp [headerOf, hl, hl0]
        rw [hhead0, hn]
        exact layOut_head rfl (by simp [inLevel, hl, NaturalLoop.contains, hmem]) hinside
          (by simp [hl, hl0])
      rw [layOut]
      simp only [hadded, finishLevel, Option.bind_none, List.flatten_cons, List.head?_append,
        hinner, Option.some_or]
  rw [layoutOrder, List.head?_append, hhead]
  rfl

end

/-! ## The pass -/

section

variable {f : FunctionSsa}

/-- A function the check accepts, whose references name its own blocks, is well named. -/
lemma NamesInRange.wellNamed (hn : NamesInRange f)
    (hheld : ∀ (v t : ℕ), f.insts[v]? = some (.blockAddr t) → ∃ b, InBlock f v b)
    (hf : Verify.check f = .ok ()) (h0 : 0 < f.blocks.length) : WellNamed f :=
  have hv := check_eq_ok_iff.mp hf
  { hn with
    nonempty := h0
    range := hv.range
    disjoint := hv.disjoint
    held := hheld
    targets := hv.targets
    gotoTargets := hv.gotoTargets }

/-- The order of a well-named function is a permutation of its blocks that starts with the
entry. -/
theorem WellNamed.orderOf_spec (hf : WellNamed f) :
    (orderOf f).Perm (List.range f.blocks.length) ∧ (orderOf f).head? = some 0 := by
  have hg : f.graph.Closed := FunctionSsa.graph_closed hf.gotoTargets hf.targets
  have h0 : 0 < f.graph.size := by
    rw [f.graph_size]
    exact hf.nonempty
  obtain ⟨hloops, hnd⟩ := naturalLoops_spec hg h0
  refine ⟨hf.layoutOrder_perm fun l hl => ?_, layoutOrder_head (fun l hl hmem => ?_) hnd⟩
  · obtain ⟨hin, -, hlt, -⟩ := hloops l hl
    exact hlt l.header hin
  · -- A header that dominates the entry is the entry.
    obtain ⟨-, -, -, hdom⟩ := hloops l hl
    have hd := hdom 0 hmem reach_entry
    exact hd.antisymm (dom_entry hd.reach_left)

/-- Reordering renames the function. -/
theorem WellNamed.reorder_renamed (hf : WellNamed f) (hlow : ∀ b, isMarked f.lowWordTests b = false) :
    ∃ order, order.Perm (List.range f.blocks.length) ∧ order.head? = some 0 ∧
      (isIrreducible f f.graph.dominatorsOf (rpoNumbers f) = false → order = orderOf f) ∧
      Renamed order f (reorder f) := by
  obtain ⟨hperm, hhead⟩ := hf.orderOf_spec
  unfold reorder
  cases hirr : isIrreducible f f.graph.dominatorsOf (rpoNumbers f) with
  | true =>
    refine ⟨_, .refl _, ?_, by simp, by simpa using hf.renamed_self⟩
    rw [List.head?_eq_getElem?]
    exact List.getElem?_range hf.nonempty
  | false =>
    refine ⟨orderOf f, hperm, hhead, fun _ => rfl, ?_⟩
    simp only [Bool.false_eq_true, if_false, hhead, ne_eq, not_true_eq_false]
    exact permuteBlocks_renamed hf.toNamesInRange hlow hperm
      (by rw [← List.head?_eq_getElem?]; exact hhead) hf.targets hf.gotoTargets

lemma WellNamed.lowWordTests_eq (hf : WellNamed f) :
    (Badc.threadJumps f).lowWordTests = f.lowWordTests ∧
      (pruneUnreachable f).1.lowWordTests = f.lowWordTests := by
  refine ⟨by rw [hf.threadJumps_eq], ?_⟩
  unfold pruneUnreachable
  split
  · rfl
  · split <;> rfl

namespace Layout

/-- Block layout of a function with no branch marked in `lowWordTests`, whose references name its
own blocks.  A
function with fewer than two blocks is left alone.  Of any other, edges are moved past empty blocks
only and never onto a block with phis; the blocks that are left keep their names' meaning in every
table; their order is a permutation that starts with the entry; and where a label address names
only a block whose address is taken, the function runs as before: it executes the same
instructions with the same values in the same order, stops with the same results and gets stuck
in the same places. -/
theorem runOne_sameRuns (hf : Verify.check f = .ok ()) (hn : NamesInRange f)
    (hheld : ∀ (v t : ℕ), f.insts[v]? = some (.blockAddr t) → ∃ b, InBlock f v b)
    (hlow : ∀ b, isMarked f.lowWordTests b = false) :
    (f.blocks.length < 2 → runOne f = f) ∧
    (2 ≤ f.blocks.length →
      threadJumps f = { f with blocks := f.blocks.map (threadedBlock f) } ∧
      (∀ t < f.blocks.length, Passes f t (threadTarget f t) ∧
        (threadTarget f t ≠ t → blockHasPhis f (threadTarget f t) = false)) ∧
      ∃ g kept order, g = (pruneUnreachable (threadJumps f)).1 ∧
        Renamed kept (threadJumps f) g ∧
        order.Perm (List.range g.blocks.length) ∧ order.head? = some 0 ∧
        (isIrreducible g g.graph.dominatorsOf (rpoNumbers g) = false → order = orderOf g) ∧
        Renamed order g (runOne f) ∧
        ∀ m : Machine, (∀ a t, m.label a = some t → AddressTaken f t) → ∀ w : World m.Ext,
          SameRuns (m.move f) (((m.relabel kept).relabel order).move (runOne f)) (m.initial f w)
            (((m.relabel kept).relabel order).initial (runOne f) w)) := by
  refine ⟨fun h => if_pos h, fun h => ?_⟩
  have hw : WellNamed f := hn.wellNamed hheld hf (by omega)
  have hw₁ := hw.threadJumps
  have hlow₁ : ∀ b, isMarked (threadJumps f).lowWordTests b = false := by
    rw [hw.lowWordTests_eq.1]
    exact hlow
  have hw₂ := hw₁.prune hlow₁
  have hlow₂ : ∀ b, isMarked (pruneUnreachable (threadJumps f)).1.lowWordTests b = false := by
    rw [hw₁.lowWordTests_eq.2]
    exact hlow₁
  have hkept := hw₁.prune_renamed hlow₁
  obtain ⟨order, hperm, hhead, hirr, horder⟩ := hw₂.reorder_renamed hlow₂
  have hrun : runOne f = reorder (pruneUnreachable (threadJumps f)).1 := if_neg (by omega)
  rw [hrun]
  refine ⟨hw.threadJumps_eq, fun t ht => hw.threadTarget_spec ht, _, _, order, rfl, hkept, hperm,
    hhead, hirr, horder, fun m hlabel w => ?_⟩
  refine (hw.thread_sameRuns w).trans ((hkept.sameRuns ?_ w).trans
    (horder.sameRuns (m := m.relabel (keptBlocks (threadJumps f))) ?_ w))
  · intro a t ht _
    exact hw₁.mem_keptBlocks.mpr
      (hw₁.reachable_of_addressTaken (hw.addressTaken_threadJumps (hlabel a t ht)))
  · intro a t _ ht
    rw [hperm.mem_iff, List.mem_range]
    exact hw₂.gotoTargets t ht

/-- A counting loop with a block nothing reaches. -/
def loopSample : FunctionSsa where
  insts := [.imm 3, .phi [(0, 0), (3, 2)] .i64, .binopI .sub 1 1, .imm 7]
  blocks := [
    { instRange := ⟨0, 1⟩, terminator := .jmp 1 },
    { instRange := ⟨1, 2⟩, terminator := .bz 1 4 2 },
    { instRange := ⟨2, 3⟩, terminator := .jmp 3 },
    { instRange := ⟨3, 3⟩, terminator := .jmp 1 },
    { instRange := ⟨3, 3⟩, terminator := .ret 1 },
    { instRange := ⟨3, 4⟩, terminator := .ret 3 }]

/-- The references of the counting loop name its own blocks. -/
lemma loopSample_namesInRange : NamesInRange loopSample := by
  have hinsts : ∀ (v : ℕ) inst, loopSample.insts[v]? = some inst → inst ∈ loopSample.insts :=
    fun v inst h => List.mem_of_getElem? h
  refine ⟨by decide, fun v t h => ?_, fun v incoming kind h => ?_, by decide, by decide, by decide⟩
  · have := hinsts v _ h
    simp [loopSample] at this
  · have := hinsts v _ h
    simp only [loopSample, List.mem_cons, reduceCtorEq, Inst.phi.injEq, List.not_mem_nil, or_false,
      false_or] at this
    rw [this.1]
    decide

/-- Layout of the counting loop. -/
theorem runOne_sameRuns_loopSample : ∃ g kept order, g = (pruneUnreachable (threadJumps loopSample)).1 ∧
    Renamed kept (threadJumps loopSample) g ∧ order.Perm (List.range g.blocks.length) ∧
    Renamed order g (runOne loopSample) ∧ ∀ w : World Unit,
      SameRuns (Machine.null.move loopSample)
        (((Machine.null.relabel kept).relabel order).move (runOne loopSample))
        (Machine.null.initial loopSample w)
        (((Machine.null.relabel kept).relabel order).initial (runOne loopSample) w) := by
  obtain ⟨-, -, g, kept, order, hg, hkept, hperm, -, -, horder, hsame⟩ :=
    (runOne_sameRuns (f := loopSample) (by decide +kernel) loopSample_namesInRange (fun v t h => by
      have := List.mem_of_getElem? h
      simp [loopSample] at this) (fun _ => rfl)).2 (by decide)
  exact ⟨g, kept, order, hg, hkept, hperm, horder, hsame Machine.null (by simp [Machine.null])⟩

/-- A branch that reads the low word of its condition, behind a block nothing reaches. -/
def lowWordSample : FunctionSsa where
  insts := [.imm (BitVec.ofNat 64 (2 ^ 32)), .imm 7, .imm 1, .imm 2]
  blocks := [
    { instRange := ⟨0, 1⟩, terminator := .jmp 2 },
    { instRange := ⟨1, 2⟩, terminator := .ret 1 },
    { instRange := ⟨2, 2⟩, terminator := .bz 0 3 4 },
    { instRange := ⟨2, 3⟩, terminator := .ret 2 },
    { instRange := ⟨3, 4⟩, terminator := .ret 3 }]
  lowWordTests := [false, false, true]

/-- The table of low-word tests is not renamed: the branch reads its whole condition after the
block before it is gone, and the function returns another value. -/
theorem runOne_lowWordTests : Verify.check lowWordSample = .ok () ∧
    ¬ SameRuns (Machine.null.move lowWordSample) (Machine.null.move (runOne lowWordSample))
      (Machine.null.initial lowWordSample World.null)
      (Machine.null.initial (runOne lowWordSample) World.null) := by
  refine ⟨by decide +kernel, fun hsame => ?_⟩
  have h₁ : returnedWord (Machine.null.run lowWordSample 6
      (Machine.null.initial lowWordSample World.null)) = some 1 := by decide +kernel
  have h₂ : returnedWord (Machine.null.run (runOne lowWordSample) 6
      (Machine.null.initial (runOne lowWordSample) World.null)) = some 2 := by decide +kernel
  obtain ⟨w₁, hrun₁⟩ := eq_of_returnedWord h₁
  obtain ⟨w₂, hrun₂⟩ := eq_of_returnedWord h₂
  obtain ⟨tr, t, ht, hstop⟩ := Machine.stops_of_run hrun₁
  obtain ⟨u, hu, hustop⟩ := (hsame.stops_iff tr _).mp ⟨t, ht, hstop⟩
  obtain ⟨tr', t', ht', hstop'⟩ := Machine.stops_of_run hrun₂
  have := hu.stop_unique hustop ht' hstop'
  simp at this

end Layout

end

end Badc
