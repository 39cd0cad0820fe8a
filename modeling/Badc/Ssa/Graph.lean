import Badc.Ir.Inst
import Badc.Lib.Loop
import Badc.Lib.Dominance

/-!
# The control-flow graph and its depth-first postorder

`successors`, `SuccGraph` and `postorder` of `src/c5/codegen/ssa/mem2reg.rs`.  The flat edge
arrays of the source are a list of successor lists here; `predsOf` lists a block's predecessors
in ascending order, once per edge, as the counting sort leaves them.

The main result is `postorder_spec`: on a graph whose edges stay inside it, the postorder lists
exactly the blocks the entry reaches, each once, and every listed block other than the entry has
a predecessor that comes later in the list.
-/

namespace Badc

/-- Successor block ids of a terminator, in branch order; a jump table's entries once each. -/
def successors (term : Terminator) (cgTargets : List ℕ) (jumpTables : List (List ℕ)) :
    List ℕ :=
  match term with
  | .jmp b | .fallThrough b => [b]
  | .bz _ target fallThrough | .bnz _ target fallThrough => [target, fallThrough]
  | .gotoIndirect _ => cgTargets
  | .jumpTable _ table | .asmGoto table =>
      (jumpTables.getD table []).foldl (fun out t => if t ∈ out then out else out ++ [t]) []
  | .ret _ | .tailExt _ | .unreachable => []

/-- Collecting the entries of a list once each keeps its members. -/
lemma mem_foldl_insert_end {α : Type*} [DecidableEq α] (l acc : List α) (x : α) :
    x ∈ l.foldl (fun out t => if t ∈ out then out else out ++ [t]) acc ↔ x ∈ acc ∨ x ∈ l := by
  induction l generalizing acc with
  | nil => simp
  | cons a l ih =>
    rw [List.foldl_cons, ih]
    by_cases ha : a ∈ acc
    · simp only [ha, if_true, List.mem_cons]
      constructor
      · rintro (h | h)
        · exact Or.inl h
        · exact Or.inr (Or.inr h)
      · rintro (h | rfl | h)
        · exact Or.inl h
        · exact Or.inl ha
        · exact Or.inr h
    · simp [ha, or_assoc]

/-- Successor adjacency of a function's blocks. -/
structure SuccGraph where
  succs : List (List ℕ)

namespace SuccGraph

/-- Number of blocks. -/
def size (g : SuccGraph) : ℕ := g.succs.length

/-- The successors of a block, in branch order. -/
def of (g : SuccGraph) (b : ℕ) : List ℕ := g.succs.getD b []

/-- The predecessors of a block, ascending, once per edge. -/
def predsOf (g : SuccGraph) (b : ℕ) : List ℕ :=
  (List.range g.size).flatMap fun p => ((g.of p).filter fun s => s = b).map fun _ => p

/-- The edges of the graph. -/
def Edge (g : SuccGraph) (a b : ℕ) : Prop := b ∈ g.of a

/-- Every edge stays inside the graph. -/
def Closed (g : SuccGraph) : Prop := ∀ a b, g.Edge a b → b < g.size

/-- The blocks the entry reaches. -/
abbrev Reach (g : SuccGraph) : ℕ → Prop := Badc.Reach g.Edge 0

/-- Dominance in the graph from the entry. -/
abbrev Dom (g : SuccGraph) : ℕ → ℕ → Prop := Badc.Dom g.Edge 0

variable {g : SuccGraph}

lemma Edge.lt_size {a b : ℕ} (h : g.Edge a b) : a < g.size := by
  by_contra hlt
  simp only [Edge, of, size] at h hlt
  rw [List.getD_eq_getElem?_getD, List.getElem?_eq_none (by omega)] at h
  simp at h

lemma closed_of_rows (h : ∀ row ∈ g.succs, ∀ b ∈ row, b < g.size) : g.Closed := by
  intro a b hab
  have ha := hab.lt_size
  simp only [Edge, of, size] at hab ha
  rw [List.getD_eq_getElem?_getD, List.getElem?_eq_getElem ha] at hab
  exact h _ (List.getElem_mem ha) b hab

lemma mem_predsOf {p b : ℕ} : p ∈ g.predsOf b ↔ g.Edge p b := by
  simp only [predsOf, List.mem_flatMap, List.mem_range, List.mem_map, List.mem_filter,
    decide_eq_true_eq]
  constructor
  · rintro ⟨p', -, s, ⟨hs, rfl⟩, rfl⟩
    exact hs
  · intro h
    exact ⟨p, h.lt_size, b, ⟨h, rfl⟩, rfl⟩

lemma Reach.lt_size (hg : g.Closed) (h0 : 0 < g.size) {b : ℕ} (h : g.Reach b) :
    b < g.size := by
  cases h with
  | entry _ => exact h0
  | step _ hab _ => exact hg _ _ hab

/-- State of the depth-first walk. -/
structure Walk where
  visited : ℕ → Bool
  stack : List (ℕ × ℕ)
  order : List ℕ

/-- One round of the depth-first walk: look at the next successor of the block on top of the
stack, or close the block. -/
def walkStep (g : SuccGraph) (w : Walk) : Option Walk :=
  match w.stack with
  | [] => none
  | (b, si) :: rest =>
    match (g.of b)[si]? with
    | some s =>
      if w.visited s then some { w with stack := (b, si + 1) :: rest }
      else some { w with
        visited := Function.update w.visited s true
        stack := (s, 0) :: (b, si + 1) :: rest }
    | none => some { w with stack := rest, order := w.order ++ [b] }

section

-- The equations are made here, once for all the lemmas that unfold these.
attribute [local simp] walkStep

end

/-- The walk's first state: the entry visited and on the stack. -/
def walkInit : Walk where
  visited := Function.update (fun _ => false) 0 true
  stack := [(0, 0)]
  order := []

/-- Rounds the walk takes at most: one per block and one per edge. -/
def walkFuel (g : SuccGraph) : ℕ := ∑ b ∈ Finset.range g.size, ((g.of b).length + 1)

/-- Depth-first postorder of the blocks reachable from the entry. -/
def postorder (g : SuccGraph) : List ℕ :=
  if g.size = 0 then [] else (whileSome g.walkStep g.walkFuel walkInit).order

/-! ## The depth-first walk -/

/-- What the walk keeps: the closed and the open blocks are the visited ones, without
repetition; they are reachable; a closed block's successors, and an open block's successors
already looked at, are visited; each open block is a successor of the one below it, the entry
at the bottom; a closed block other than the entry has a predecessor that is open or closed
later. -/
structure WalkInv (g : SuccGraph) (w : Walk) : Prop where
  visited_iff : ∀ b, w.visited b = true ↔ b ∈ w.order ∨ b ∈ w.stack.map Prod.fst
  nodup : (w.order ++ w.stack.map Prod.fst).Nodup
  entry : w.visited 0 = true
  reach : ∀ b, w.visited b = true → g.Reach b
  closed : ∀ b ∈ w.order, ∀ s, g.Edge b s → w.visited s = true
  opened : ∀ b si, (b, si) ∈ w.stack → ∀ i s, i < si → (g.of b)[i]? = some s → w.visited s = true
  chain : (w.stack.map Prod.fst).IsChain fun a b => g.Edge b a
  bottom : ∀ b, (w.stack.map Prod.fst).getLast? = some b → b = 0
  later : ∀ b ∈ w.order, b ≠ 0 → ∃ p, g.Edge p b ∧
    (p ∈ w.stack.map Prod.fst ∨ p ∈ w.order ∧ w.order.idxOf b < w.order.idxOf p)

/-- The first state satisfies the invariant. -/
lemma walkInv_init (g : SuccGraph) : WalkInv g walkInit where
  visited_iff b := by
    simp only [walkInit, List.not_mem_nil, false_or, List.map_cons, List.map_nil,
      List.mem_singleton]
    by_cases hb : b = 0 <;> simp [hb]
  nodup := by simp [walkInit]
  entry := by simp [walkInit]
  reach b hb := by
    by_cases h0 : b = 0
    · exact h0 ▸ reach_entry
    · simp [walkInit, h0] at hb
  closed b hb := by simp [walkInit] at hb
  opened b si hb i s hi := by
    simp only [walkInit, List.mem_singleton, Prod.mk.injEq] at hb
    omega
  chain := by simp [walkInit]
  bottom b hb := by simpa [walkInit] using hb.symm
  later b hb := by simp [walkInit] at hb

/-- Looking at a visited successor keeps the invariant. -/
lemma WalkInv.look {w : Walk} (h : WalkInv g w) {b si s : ℕ} {rest : List (ℕ × ℕ)}
    (hst : w.stack = (b, si) :: rest) (hs : (g.of b)[si]? = some s) (hv : w.visited s = true) :
    WalkInv g { w with stack := (b, si + 1) :: rest } where
  visited_iff := by simpa [hst] using h.visited_iff
  nodup := by simpa [hst] using h.nodup
  entry := h.entry
  reach := h.reach
  closed := h.closed
  opened b' si' hmem i s' hi hs' := by
    simp only [List.mem_cons, Prod.mk.injEq] at hmem
    rcases hmem with ⟨rfl, rfl⟩ | hmem
    · rcases Nat.lt_succ_iff_lt_or_eq.mp hi with hlt | rfl
      · exact h.opened b' si (by simp [hst]) i s' hlt hs'
      · rw [hs] at hs'
        obtain rfl := Option.some.inj hs'
        exact hv
    · exact h.opened b' si' (by simp [hst, hmem]) i s' hi hs'
  chain := by simpa [hst] using h.chain
  bottom := by simpa [hst] using h.bottom
  later := by simpa [hst] using h.later

/-- Opening an unvisited successor keeps the invariant. -/
lemma WalkInv.descend {w : Walk} (h : WalkInv g w) {b si s : ℕ} {rest : List (ℕ × ℕ)}
    (hst : w.stack = (b, si) :: rest) (hs : (g.of b)[si]? = some s) (hv : w.visited s = false) :
    WalkInv g
      { w with
        visited := Function.update w.visited s true
        stack := (s, 0) :: (b, si + 1) :: rest } := by
  have hedge : g.Edge b s := List.mem_of_getElem? hs
  have hmono : ∀ x, w.visited x = true → Function.update w.visited s true x = true := by
    intro x hx
    by_cases hxs : x = s
    · simp [hxs]
    · simpa [hxs] using hx
  have hnew : ¬ (s ∈ w.order ∨ s ∈ w.stack.map Prod.fst) := by
    rw [← h.visited_iff, hv]
    simp
  have hb : g.Reach b := h.reach b ((h.visited_iff b).mpr (Or.inr (by simp [hst])))
  refine ⟨?_, ?_, hmono 0 h.entry, ?_, ?_, ?_, ?_, ?_, ?_⟩
  · intro x
    have := h.visited_iff x
    by_cases hxs : x = s
    · simp [hxs]
    · simpa [hxs, hst] using this
  · have := h.nodup
    rw [List.map_cons, List.map_cons, List.nodup_middle, List.nodup_cons]
    rw [hst] at hnew this
    exact ⟨by simpa [not_or] using hnew, by simpa using this⟩
  · intro x hx
    by_cases hxs : x = s
    · exact hxs ▸ hb.step hedge
    · exact h.reach x (by simpa [hxs] using hx)
  · intro x hx y hy
    exact hmono y (h.closed x hx y hy)
  · intro b' si' hmem i s' hi hs'
    simp only [List.mem_cons, Prod.mk.injEq] at hmem
    rcases hmem with ⟨rfl, rfl⟩ | ⟨rfl, rfl⟩ | hmem
    · omega
    · rcases Nat.lt_succ_iff_lt_or_eq.mp hi with hlt | rfl
      · exact hmono s' (h.opened b' si (by simp [hst]) i s' hlt hs')
      · rw [hs] at hs'
        obtain rfl := Option.some.inj hs'
        simp
    · exact hmono s' (h.opened b' si' (by simp [hst, hmem]) i s' hi hs')
  · have := h.chain
    rw [hst] at this
    simpa [hedge] using this
  · have := h.bottom
    rw [hst] at this
    simpa using this
  · intro x hx hx0
    obtain ⟨p, hp, hlater⟩ := h.later x hx hx0
    refine ⟨p, hp, hlater.imp (fun hps => ?_) id⟩
    rw [hst] at hps
    exact List.mem_cons_of_mem _ (by simpa using hps)

/-- Closing the block on top of the stack keeps the invariant. -/
lemma WalkInv.close {w : Walk} (h : WalkInv g w) {b si : ℕ} {rest : List (ℕ × ℕ)}
    (hst : w.stack = (b, si) :: rest) (hs : (g.of b)[si]? = none) :
    WalkInv g { w with stack := rest, order := w.order ++ [b] } := by
  have hnd := h.nodup
  rw [hst] at hnd
  simp only [List.map_cons] at hnd
  have hb_order : b ∉ w.order := by
    intro hb
    exact (List.nodup_append.mp hnd).2.2 b hb b (by simp) rfl
  refine ⟨?_, ?_, h.entry, h.reach, ?_, ?_, ?_, ?_, ?_⟩
  · intro x
    have := h.visited_iff x
    rw [hst] at this
    simp only [List.map_cons, List.mem_cons] at this
    rw [this]
    simp only [List.mem_append, List.mem_singleton]
    tauto
  · simpa using hnd
  · intro x hx s hxs
    rcases List.mem_append.mp hx with hx | hx
    · exact h.closed x hx s hxs
    · obtain rfl := List.mem_singleton.mp hx
      obtain ⟨i, hi⟩ := List.getElem?_of_mem hxs
      refine h.opened x si (by simp [hst]) i s ?_ hi
      by_contra hlt
      rw [List.getElem?_eq_none_iff] at hs
      have := (List.getElem?_eq_some_iff.mp hi).1
      omega
  · intro b' si' hmem
    exact h.opened b' si' (by simp [hst, hmem])
  · have := h.chain
    rw [hst, List.map_cons] at this
    exact this.tail
  · intro x hx
    refine h.bottom x ?_
    rw [hst, List.map_cons]
    cases rest with
    | nil => simp at hx
    | cons a rest => simpa using hx
  · intro x hx hx0
    rcases List.mem_append.mp hx with hxo | hxb
    · obtain ⟨p, hp, hlater⟩ := h.later x hxo hx0
      have hidx : (w.order ++ [b]).idxOf x = w.order.idxOf x := List.idxOf_append_of_mem hxo
      rcases hlater with hps | ⟨hpo, hlt⟩
      · rw [hst, List.map_cons, List.mem_cons] at hps
        rcases hps with rfl | hps
        · refine ⟨p, hp, Or.inr ⟨by simp, ?_⟩⟩
          have hpi : (w.order ++ [p]).idxOf p = w.order.length := by
            rw [List.idxOf_append_of_notMem hb_order]
            simp
          show (w.order ++ [p]).idxOf x < (w.order ++ [p]).idxOf p
          rw [hidx, hpi]
          exact List.idxOf_lt_length_of_mem hxo
        · exact ⟨p, hp, Or.inl hps⟩
      · refine ⟨p, hp, Or.inr ⟨by simp [hpo], ?_⟩⟩
        rw [hidx, List.idxOf_append_of_mem hpo]
        exact hlt
    · obtain rfl := List.mem_singleton.mp hxb
      have hchain := h.chain
      have hbottom := h.bottom
      rw [hst, List.map_cons] at hchain hbottom
      cases hrest : rest.map Prod.fst with
      | nil => exact absurd (hbottom x (by simp [hrest])) hx0
      | cons p ps =>
        rw [hrest, List.isChain_cons_cons] at hchain
        exact ⟨p, hchain.1, Or.inl (by simp)⟩

/-- One round of the walk keeps the invariant. -/
lemma WalkInv.step {w w' : Walk} (h : WalkInv g w) (hw : g.walkStep w = some w') :
    WalkInv g w' := by
  unfold walkStep at hw
  split at hw
  · cases hw
  · rename_i b si rest hst
    split at hw
    · rename_i s hs
      split at hw
      · rename_i hv
        obtain rfl := Option.some.inj hw
        exact h.look hst hs hv
      · rename_i hv
        obtain rfl := Option.some.inj hw
        exact h.descend hst hs (by simpa using hv)
    · rename_i hs
      obtain rfl := Option.some.inj hw
      exact h.close hst hs

/-- Rounds left to the walk: the unvisited blocks with their edges, and what the open blocks
have not looked at. -/
def walkMeasure (g : SuccGraph) (w : Walk) : ℕ :=
  (∑ b ∈ (Finset.range g.size).filter fun b => w.visited b = false, ((g.of b).length + 1)) +
    (w.stack.map fun p => (g.of p.1).length - p.2 + 1).sum

/-- One round of the walk lowers the measure. -/
lemma walkMeasure_lt (hg : g.Closed) {w w' : Walk} (hw : g.walkStep w = some w') :
    g.walkMeasure w' < g.walkMeasure w := by
  unfold walkStep at hw
  split at hw
  · cases hw
  · rename_i b si rest hst
    split at hw
    · rename_i s hs
      have hlen : si < (g.of b).length := (List.getElem?_eq_some_iff.mp hs).1
      split at hw
      · obtain rfl := Option.some.inj hw
        simp only [walkMeasure, hst, List.map_cons, List.sum_cons]
        omega
      · rename_i hv
        obtain rfl := Option.some.inj hw
        have hsz : s < g.size := hg b s (List.mem_of_getElem? hs)
        have hfilter : (Finset.range g.size).filter (fun x => w.visited x = false) =
            insert s ((Finset.range g.size).filter
              fun x => Function.update w.visited s true x = false) := by
          ext x
          simp only [Finset.mem_filter, Finset.mem_range, Finset.mem_insert]
          by_cases hxs : x = s
          · simp only [hxs, true_or, iff_true]
            exact ⟨hsz, by simpa using hv⟩
          · simp [hxs]
        have hsum : ∑ x ∈ (Finset.range g.size).filter (fun x => w.visited x = false),
              ((g.of x).length + 1) =
            ((g.of s).length + 1) + ∑ x ∈ (Finset.range g.size).filter
              (fun x => Function.update w.visited s true x = false), ((g.of x).length + 1) := by
          rw [hfilter, Finset.sum_insert (by simp)]
        simp only [walkMeasure, hst, List.map_cons, List.sum_cons, hsum]
        omega
    · obtain rfl := Option.some.inj hw
      simp only [walkMeasure, hst, List.map_cons, List.sum_cons]
      omega

/-- The walk's fuel covers its measure at the start. -/
lemma walkMeasure_init (h0 : 0 < g.size) : g.walkMeasure walkInit ≤ g.walkFuel := by
  have hfilter : (Finset.range g.size).filter (fun b => walkInit.visited b = false) =
      (Finset.range g.size).erase 0 := by
    ext x
    rw [Finset.mem_filter, Finset.mem_range, Finset.mem_erase, Finset.mem_range]
    by_cases hx : x = 0 <;> simp [walkInit, hx]
  have := Finset.add_sum_erase (Finset.range g.size) (fun b => (g.of b).length + 1)
    (Finset.mem_range.mpr h0)
  have hstack : (walkInit.stack.map fun p => (g.of p.1).length - p.2 + 1).sum =
      (g.of 0).length + 1 := by simp [walkInit]
  rw [walkMeasure, walkFuel, hfilter, hstack]
  omega

/-- On a closed graph the postorder lists exactly the reachable blocks, each once, and every
one but the entry has a predecessor later in the list. -/
theorem postorder_spec (hg : g.Closed) (h0 : 0 < g.size) :
    g.postorder.Nodup ∧ (∀ b, b ∈ g.postorder ↔ g.Reach b) ∧
      ∀ b ∈ g.postorder, b ≠ 0 →
        ∃ p, g.Edge p b ∧ p ∈ g.postorder ∧ g.postorder.idxOf b < g.postorder.idxOf p := by
  have hpost : g.postorder = (whileSome g.walkStep g.walkFuel walkInit).order := by
    simp [postorder, Nat.pos_iff_ne_zero.mp h0]
  have hinv : WalkInv g (whileSome g.walkStep g.walkFuel walkInit) :=
    whileSome_invariant (WalkInv g) (fun _ _ h hw => h.step hw) _ (walkInv_init g)
  have hdone : g.walkStep (whileSome g.walkStep g.walkFuel walkInit) = none :=
    whileSome_done (fun _ => True) g.walkMeasure
      (fun _ _ _ hw => ⟨trivial, walkMeasure_lt hg hw⟩) trivial (walkMeasure_init h0)
  rw [hpost]
  generalize whileSome g.walkStep g.walkFuel walkInit = w at hinv hdone
  have hstack : w.stack = [] := by
    unfold walkStep at hdone
    split at hdone
    · assumption
    · split at hdone
      · split at hdone <;> cases hdone
      · cases hdone
  have hvis : ∀ b, w.visited b = true ↔ b ∈ w.order := by
    intro b
    rw [hinv.visited_iff, hstack]
    simp
  refine ⟨by simpa [hstack] using hinv.nodup, ?_, ?_⟩
  · intro b
    constructor
    · intro hb
      exact hinv.reach b ((hvis b).mpr hb)
    · intro hb
      induction hb with
      | entry _ => exact (hvis 0).mp hinv.entry
      | step _ hab _ ih => exact (hvis _).mp (hinv.closed _ ih _ hab)
  · intro b hb hb0
    obtain ⟨p, hp, hlater⟩ := hinv.later b hb hb0
    rcases hlater with hps | hpo
    · simp [hstack] at hps
    · exact ⟨p, hp, hpo⟩

end SuccGraph

/-- The successor graph of a function. -/
def FunctionSsa.graph (f : FunctionSsa) : SuccGraph where
  succs := f.blocks.map fun b => successors b.terminator f.computedGotoTargets f.jumpTables

/-- Predecessor block ids of a block, ascending, once per edge. -/
def FunctionSsa.predecessors (f : FunctionSsa) (b : ℕ) : List ℕ := f.graph.predsOf b

lemma FunctionSsa.graph_size (f : FunctionSsa) : f.graph.size = f.blocks.length := by
  simp [graph, SuccGraph.size]

lemma FunctionSsa.graph_of {f : FunctionSsa} {b : ℕ} {blk : Block} (h : f.blocks[b]? = some blk) :
    f.graph.of b = successors blk.terminator f.computedGotoTargets f.jumpTables := by
  simp [graph, SuccGraph.of, List.getD_eq_getElem?_getD, h]

/-- An edge is a successor of the block's terminator. -/
lemma FunctionSsa.graph_edge {f : FunctionSsa} {a b : ℕ} : f.graph.Edge a b ↔
    ∃ blk, f.blocks[a]? = some blk ∧
      b ∈ successors blk.terminator f.computedGotoTargets f.jumpTables := by
  constructor
  · intro h
    have hlt := h.lt_size
    rw [f.graph_size] at hlt
    have hblk := List.getElem?_eq_getElem hlt
    exact ⟨_, hblk, by rw [← graph_of hblk]; exact h⟩
  · rintro ⟨blk, hblk, hb⟩
    rw [SuccGraph.Edge, graph_of hblk]
    exact hb

end Badc
