import Badc.Lib.ScopedMap
import Badc.Passes.ValueRange.Bound

/-!
# Facts of the dominator walk

`Facts` of `src/c5/codegen/passes/value_range.rs`: a range per expression key, with an undo log, so
that the walk over the dominator tree can drop a subtree's facts on the way back up, and a list of
the load keys that hold a bound, so that a write to memory wipes those only.  The source's key
tuples are the constructors of `FactKey`.  `run_exact` is about every sequence of the operations:
going back to a mark restores the map of the mark, and a wipe leaves no load a bound.
-/

namespace Badc.ValueRange

/-- Expression identity over canonical operand ids.  A load key names what memory holds now. -/
inductive FactKey
  | own (c : ℕ)
  | imm (k : Word)
  | extend (value : ℕ) (kind : ExtendKind)
  | binopI (lhs : ℕ) (op : BinOp) (narrow : Bool) (k : Word)
  | binop (lhs rhs : ℕ) (op : BinOp) (narrow : Bool)
  | load (addr : ℕ) (kind : LoadKind) (disp : ℤ)
  | loadLocal (disp : ℤ) (kind : LoadKind) (off : ℤ)
  | loadIndexed (base index : ℕ) (ext : IndexExt) (scale : ℕ) (kind : LoadKind)
  deriving DecidableEq

/-- Whether a key names what memory holds. -/
def FactKey.isLoad : FactKey → Bool
  | .load .. | .loadLocal .. | .loadIndexed .. => true
  | _ => false

/-- Key for a value read as an operand.  A load keys on its own id: the value is whatever memory
held when the load ran. -/
def keyOf (f : FunctionSsa) (numbers : Numbering) (v : ℕ) : FactKey :=
  match f.insts[v]? with
  | some (.imm k) => .imm k
  | some (.extend value kind _) => .extend (numbers.of value) kind
  | some (.binopI op lhs k) =>
      if isPureInt op then .binopI (numbers.of lhs) op (isNarrow f v) k else .own (numbers.of v)
  | some (.binop op lhs rhs) =>
      if isPureInt op then .binop (numbers.of lhs) (numbers.of rhs) op (isNarrow f v)
      else .own (numbers.of v)
  | _ => .own (numbers.of v)

/-- Key for what a load of this shape produces from the current memory. -/
def loadExprKey (f : FunctionSsa) (numbers : Numbering) (v : ℕ) : Option FactKey :=
  match f.insts[v]? with
  | some (.load addr disp kind false ..) => some (.load (numbers.of addr) kind disp)
  | some (.loadLocal off disp kind false) => some (.loadLocal disp kind off)
  | some (.loadIndexed base index ext scale kind _) =>
      some (.loadIndexed (numbers.of base) (numbers.of index) ext scale kind)
  | _ => none

/-- Key of the expression `lhs op k`, as `keyOf` gives it for an instruction computing that
comparison at the same width. -/
def cmpKey (numbers : Numbering) (lhs : ℕ) (op : BinOp) (k : Word) (narrow : Bool) : FactKey :=
  .binopI (numbers.of lhs) op narrow k

/-- The scoped fact map. -/
structure Facts where
  map : ScopedMap FactKey Range
  /-- Every load key holding a bound, possibly repeated and possibly stale, the latest in front. -/
  boundedLoads : List FactKey

namespace Facts

/-- No facts. -/
def empty : Facts := ⟨.empty, []⟩

/-- What is known of a key. -/
def get (facts : Facts) (key : FactKey) : Range := (facts.map.live key).getD .univ

/-- A load key with a bound joins the list. -/
def noteBound (key : FactKey) (r : Range) (loads : List FactKey) : List FactKey :=
  if key.isLoad && decide (r ≠ .univ) then key :: loads else loads

/-- Set the range of a key. -/
def set (facts : Facts) (key : FactKey) (r : Range) : Facts :=
  ⟨facts.map.insert key r, noteBound key r facts.boundedLoads⟩

/-- Narrow a key. -/
def narrow (facts : Facts) (key : FactKey) (r : Range) : Facts :=
  facts.set key ((facts.get key).meet r)

/-- Take back what was set past a mark. -/
def rewind (facts : Facts) (mark : ℕ) : Facts :=
  ⟨facts.map.rewind mark, (facts.map.past mark).foldl (fun loads e =>
    match e.2 with
    | some r => noteBound e.1 r loads
    | none => loads) facts.boundedLoads⟩

/-- Drop every load fact: memory may have changed. -/
def wipeLoads (facts : Facts) : Facts :=
  facts.boundedLoads.reverse.foldl (fun facts key =>
    if facts.get key ≠ .univ then facts.set key .univ else facts) { facts with boundedLoads := [] }

/-- Every load key that holds a bound is listed, and only load keys are. -/
structure Noted (facts : Facts) : Prop where
  listed : ∀ key r, key.isLoad = true → facts.map.live key = some r → r ≠ .univ →
    key ∈ facts.boundedLoads
  loads : ∀ key ∈ facts.boundedLoads, key.isLoad = true

variable {facts facts' : Facts} {key key' : FactKey} {r : Range}

@[simp] lemma get_set_self : (facts.set key r).get key = r := by
  simp [get, set, ScopedMap.insert]

lemma get_set_of_ne (h : key' ≠ key) : (facts.set key r).get key' = facts.get key' := by
  simp [get, set, ScopedMap.insert, Function.update_of_ne h]

lemma subset_noteBound (key : FactKey) (r : Range) (loads : List FactKey) :
    loads ⊆ noteBound key r loads := by
  unfold noteBound
  split
  · exact List.subset_cons_self _ _
  · exact fun _ h => h

lemma mem_noteBound {loads : List FactKey} (hload : key.isLoad = true) (hr : r ≠ .univ) :
    key ∈ noteBound key r loads := by
  simp [noteBound, hload, hr]

lemma isLoad_of_mem_noteBound {loads : List FactKey} (hl : ∀ k ∈ loads, k.isLoad = true)
    (h : key' ∈ noteBound key r loads) : key'.isLoad = true := by
  unfold noteBound at h
  split at h
  · rename_i hload
    rcases List.mem_cons.mp h with rfl | h
    · exact (Bool.and_eq_true_iff.mp hload).1
    · exact hl _ h
  · exact hl _ h

lemma noted_empty : empty.Noted where
  listed _ _ _ h := nomatch h
  loads _ h := nomatch h

lemma Noted.set (h : facts.Noted) (key : FactKey) (r : Range) : (facts.set key r).Noted := by
  refine ⟨fun key' r' hload hlive hr => ?_, fun key' => isLoad_of_mem_noteBound h.loads⟩
  by_cases hk : key' = key
  · subst hk
    simp only [Facts.set, ScopedMap.insert, Function.update_self, Option.some.injEq] at hlive
    subst hlive
    exact mem_noteBound hload hr
  · simp only [Facts.set, ScopedMap.insert, Function.update_of_ne hk] at hlive
    exact subset_noteBound _ _ _ (h.listed key' r' hload hlive hr)

/-- Taking back notes the bounds it restores. -/
lemma Noted.rewind (h : facts.Noted) (mark : ℕ) : (facts.rewind mark).Noted := by
  unfold Facts.rewind ScopedMap.rewind ScopedMap.restore
  generalize facts.map.past mark = log
  generalize facts.map.undo.drop _ = undo
  -- Each entry taken back keeps the list right for the map it leaves.
  have hlog : ∀ (log : List (FactKey × Option Range)) (live : FactKey → Option Range)
      (loads : List FactKey), Noted ⟨⟨live, undo⟩, loads⟩ →
      Noted ⟨⟨log.foldl (fun live e => Function.update live e.1 e.2) live, undo⟩,
        log.foldl (fun loads e => match e.2 with
          | some r => noteBound e.1 r loads
          | none => loads) loads⟩ := by
    intro log
    induction log with
    | nil => exact fun _ _ h => h
    | cons e log ih =>
      intro live loads hn
      refine ih _ _ ⟨fun k r hload hk hr => ?_, fun k hk => ?_⟩
      · by_cases hke : k = e.1
        · subst hke
          simp only [Function.update_self] at hk
          simp only [hk]
          exact mem_noteBound hload hr
        · simp only [Function.update_of_ne hke] at hk
          have := hn.listed k r hload hk hr
          dsimp only
          split
          · exact subset_noteBound _ _ _ this
          · exact this
      · dsimp only at hk
        split at hk
        · exact isLoad_of_mem_noteBound hn.loads hk
        · exact hn.loads k hk
  exact hlog log facts.map.live facts.boundedLoads ⟨h.listed, h.loads⟩

/-- Wiping leaves the keys that name no memory, clears those that do, and can be taken back. -/
lemma wipeLoads_spec (h : facts.Noted) :
    (∀ key, key.isLoad = false → facts.wipeLoads.get key = facts.get key) ∧
      (∀ key, key.isLoad = true → facts.wipeLoads.get key = .univ) ∧
      facts.wipeLoads.Noted ∧ facts.map.Since facts.wipeLoads.map := by
  -- The keys listed are cleared, the others left.
  have hfold : ∀ (l : List FactKey) (g : Facts), g.boundedLoads = [] →
      let g' := l.foldl (fun facts key =>
        if facts.get key ≠ .univ then facts.set key .univ else facts) g
      (∀ key, g'.get key = if key ∈ l then .univ else g.get key) ∧ g'.boundedLoads = [] ∧
        ∀ m : ScopedMap FactKey Range, m.Since g.map → m.Since g'.map := by
    intro l
    induction l with
    | nil => exact fun g hg => ⟨fun key => by simp, hg, fun _ => id⟩
    | cons k l ih =>
      intro g hg
      have hone : (∀ key, (if g.get k ≠ .univ then g.set k .univ else g).get key =
          if key = k then .univ else g.get key) ∧
          (if g.get k ≠ .univ then g.set k .univ else g).boundedLoads = [] ∧
          ∀ m : ScopedMap FactKey Range, m.Since g.map →
            m.Since (if g.get k ≠ .univ then g.set k .univ else g).map := by
        split
        · refine ⟨fun key => ?_, by simp [Facts.set, noteBound, hg], fun m hm => hm.insert _ _⟩
          split
          · rename_i hkey
            rw [hkey, get_set_self]
          · exact get_set_of_ne ‹_›
        · rename_i huniv
          refine ⟨fun key => ?_, hg, fun _ => id⟩
          split
          · rename_i hkey
            rw [hkey]
            exact not_not.mp huniv
          · rfl
      obtain ⟨hget, hnil, hsince⟩ := ih _ hone.2.1
      refine ⟨fun key => ?_, hnil, fun m hm => hsince m (hone.2.2 m hm)⟩
      rw [List.foldl_cons, hget, hone.1]
      by_cases hl : key ∈ l
      · simp [hl]
      · by_cases hk : key = k <;> simp [hl, hk]
  obtain ⟨hget, hnil, hsince⟩ := hfold facts.boundedLoads.reverse { facts with boundedLoads := [] } rfl
  have hload : ∀ key, key.isLoad = true → facts.wipeLoads.get key = .univ := by
    intro key hload
    unfold wipeLoads
    rw [hget]
    split
    · rfl
    · rename_i hnot
      by_contra hr
      cases hlive : facts.map.live key with
      | none => simp [get, hlive] at hr
      | some r =>
        simp only [get, hlive, Option.getD_some] at hr
        exact hnot (List.mem_reverse.mpr (h.listed key r hload hlive hr))
  refine ⟨fun key hkey => ?_, hload, ⟨fun key r hk hlive hr => ?_, fun key hk => ?_⟩,
    hsince _ (.refl _)⟩
  · unfold wipeLoads
    rw [hget, if_neg]
    · rfl
    · intro hmem
      rw [h.loads key (List.mem_reverse.mp hmem)] at hkey
      cases hkey
  · have := hload key hk
    simp only [get, hlive, Option.getD_some] at this
    exact absurd this hr
  · unfold wipeLoads at hk
    rw [hnil] at hk
    cases hk

/-! ## Runs -/

/-- An operation of a walk; going back names its mark by the number of later marks still held. -/
inductive Op
  | set (key : FactKey) (r : Range)
  | narrow (key : FactKey) (r : Range)
  | mark
  | rewind (later : ℕ)
  | wipeLoads

/-- The facts in the course of a run, and what the map was at each mark held, the latest mark in front. -/
structure Marked where
  facts : Facts
  marks : List (ScopedMap FactKey Range)

namespace Marked

/-- Run one operation.  Going back lets go of the later marks and keeps its own. -/
def step (s : Marked) : Op → Option Marked
  | .set key r => some { s with facts := s.facts.set key r }
  | .narrow key r => some { s with facts := s.facts.narrow key r }
  | .mark => some { s with marks := s.facts.map :: s.marks }
  | .rewind later =>
    match s.marks.drop later with
    | [] => none
    | before :: marks => some ⟨s.facts.rewind before.mark, before :: marks⟩
  | .wipeLoads => some { s with facts := s.facts.wipeLoads }

/-- Run a sequence of operations; a sequence that goes back to a mark it does not hold has no run. -/
def run (s : Marked) (ops : List Op) : Option Marked := ops.foldlM step s

/-- Each map of a mark led to every later one and to the present one, and the bounds of loads are listed. -/
structure Inv (s : Marked) : Prop where
  since : (s.facts.map :: s.marks).Pairwise fun later earlier => earlier.Since later
  noted : s.facts.Noted

variable {s s' : Marked} {op : Op}

lemma Inv.later (h : s.Inv) (hs : s.facts.map.Since facts.map) (hn : facts.Noted) : Inv { s with facts } where
  since := by
    obtain ⟨hfirst, hrest⟩ := List.pairwise_cons.mp h.since
    exact List.pairwise_cons.mpr ⟨fun m hm => (hfirst m hm).trans hs, hrest⟩
  noted := hn

/-- One operation keeps the invariant. -/
lemma Inv.step (h : s.Inv) (hs : s.step op = some s') : s'.Inv := by
  cases op with
  | set key r =>
    obtain rfl := Option.some.inj hs
    exact h.later ((ScopedMap.Since.refl _).insert key r) (h.noted.set key r)
  | narrow key r =>
    obtain rfl := Option.some.inj hs
    exact h.later ((ScopedMap.Since.refl _).insert key _) (h.noted.set key _)
  | mark =>
    obtain rfl := Option.some.inj hs
    refine ⟨List.pairwise_cons.mpr ⟨fun m hm => ?_, h.since⟩, h.noted⟩
    rcases List.mem_cons.mp hm with rfl | hm
    · exact .refl _
    · exact (List.pairwise_cons.mp h.since).1 m hm
  | rewind later =>
    simp only [Marked.step] at hs
    split at hs
    · cases hs
    · rename_i before marks hdrop
      obtain rfl := Option.some.inj hs
      obtain ⟨hfirst, hrest⟩ := List.pairwise_cons.mp h.since
      have hpair : (before :: marks).Pairwise fun later earlier => ScopedMap.Since earlier later :=
        hdrop ▸ hrest.sublist (List.drop_sublist _ _)
      have hmap : (s.facts.rewind before.mark).map = before :=
        (hfirst before (List.mem_of_mem_drop (hdrop ▸ List.mem_cons_self))).rewind
      refine ⟨?_, h.noted.rewind _⟩
      rw [hmap]
      refine List.pairwise_cons.mpr ⟨fun m hm => ?_, hpair⟩
      rcases List.mem_cons.mp hm with rfl | hm
      · exact .refl _
      · exact (List.pairwise_cons.mp hpair).1 m hm
  | wipeLoads =>
    obtain rfl := Option.some.inj hs
    obtain ⟨-, -, hn, hsince⟩ := wipeLoads_spec h.noted
    exact h.later hsince hn

lemma Inv.run {ops : List Op} (h : s.Inv) (hr : s.run ops = some s') : s'.Inv := by
  induction ops generalizing s with
  | nil =>
    obtain rfl := Option.some.inj hr
    exact h
  | cons op ops ih =>
    rw [Marked.run, List.foldlM_cons] at hr
    obtain ⟨s₁, hs₁, hr⟩ := Option.bind_eq_some_iff.mp hr
    exact ih (h.step hs₁) hr

end Marked

/-- **The undo log is exact.**  After every sequence of operations whose marks are properly nested, going back to any
mark still held gives the map its contents at that mark, and a wipe leaves no load key a bound. -/
theorem run_exact {ops : List Op} {s : Marked} (h : Marked.run ⟨.empty, []⟩ ops = some s) :
    (∀ before ∈ s.marks, (s.facts.rewind before.mark).map.live = before.live) ∧
      ∀ key, key.isLoad = true → s.facts.wipeLoads.get key = .univ := by
  have hinv : s.Inv := Marked.Inv.run ⟨by simp, noted_empty⟩ h
  refine ⟨fun before hb => ?_, fun key hkey => (wipeLoads_spec hinv.noted).2.1 key hkey⟩
  exact congrArg ScopedMap.live ((List.pairwise_cons.mp hinv.since).1 before hb).rewind

/-- A bound of a load is set, wiped under a mark, brought back, and wiped again. -/
def wipeTwice : List Op :=
  [.set (.loadLocal 0 .i64 8) ⟨0, 9⟩, .mark, .wipeLoads, .rewind 0, .wipeLoads]

/-- The bound can be brought back a second time. -/
theorem run_exact_wipeTwice : ∃ s, Marked.run ⟨.empty, []⟩ wipeTwice = some s ∧
    ∀ before ∈ s.marks, (s.facts.rewind before.mark).map.live = before.live := by
  obtain ⟨s, hs⟩ := Option.isSome_iff_exists.mp (rfl : (Marked.run ⟨.empty, []⟩ wipeTwice).isSome = true)
  exact ⟨s, hs, (run_exact hs).1⟩

end Facts

end Badc.ValueRange
