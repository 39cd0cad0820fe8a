import Mathlib.Data.List.Sort
import Badc.Lib.Mark
import Badc.Ssa.DomOrder

/-!
# Natural loops and their nesting

`rpo_numbers`, `is_irreducible`, `natural_loops` and `LoopForest` of
`src/c5/codegen/passes/layout.rs`.  An absent number stands for `usize::MAX`; the map from headers
to the sources of their back edges, which the source walks in ascending order, is read off the
edges header by header; the set of the blocks already met is the body itself.

`naturalLoops_spec` says what the body of a loop is: closed under predecessors up to the header,
and dominated by the header where the entry reaches it.  `LoopForest.parent_rank` says that the
nesting is well-founded.
-/

namespace Badc

/-- Reverse-postorder number of each block the entry reaches. -/
def rpoNumbers (f : FunctionSsa) (b : ℕ) : Option ℕ :=
  if b ∈ f.graph.postorder then
    some (f.graph.postorder.length - 1 - f.graph.postorder.idxOf b)
  else none

/-- Whether a retreating edge enters a loop past its header. -/
def isIrreducible (f : FunctionSsa) (idom : Idoms) (rpo : ℕ → Option ℕ) : Bool :=
  let dom := DomOrder.build idom f.blocks.length
  (List.range f.blocks.length).any fun b =>
    match rpo b with
    | none => false
    | some rb => (f.graph.of b).any fun s =>
        (rpo s).any (fun rs => rs ≤ rb) && !dom.dominates s b idom

/-- A natural loop: the header, and every block that can reach a back edge's source without
passing through the header. -/
structure NaturalLoop where
  header : ℕ
  body : List ℕ
  deriving DecidableEq

/-- Whether a block belongs to the loop. -/
def NaturalLoop.contains (l : NaturalLoop) (b : ℕ) : Bool := b ∈ l.body

/-- Add the header and every block reaching `backSrc` without passing through the header. -/
def collectLoopBody (f : FunctionSsa) (header : ℕ) (body : List ℕ) (backSrc : ℕ) : List ℕ :=
  let body := if header ∈ body then body else body ++ [header]
  if backSrc ∈ body then body
  else ((⟨body ++ [backSrc], [backSrc]⟩ : Mark ℕ).run f.predecessors f.blocks.length).seen

/-- The sources of the back edges into `header`, ascending, once per edge. -/
def backSrcs (f : FunctionSsa) (idom : Idoms) (rpo : ℕ → Option ℕ) (header : ℕ) : List ℕ :=
  let dom := DomOrder.build idom f.blocks.length
  (List.range f.blocks.length).flatMap fun b =>
    if (rpo b).isNone then []
    else ((f.graph.of b).filter fun s => s = header && dom.dominates s b idom).map fun _ => b

/-- The natural loop of a header, merging the bodies of its back edges. -/
def naturalLoop (f : FunctionSsa) (idom : Idoms) (rpo : ℕ → Option ℕ) (header : ℕ) :
    NaturalLoop where
  header := header
  body := ((backSrcs f idom rpo header).foldl (collectLoopBody f header) []).insertionSort (· ≤ ·)

/-- The natural loops, by ascending header. -/
def naturalLoops (f : FunctionSsa) (idom : Idoms) (rpo : ℕ → Option ℕ) : List NaturalLoop :=
  ((List.range f.blocks.length).filter fun h => !(backSrcs f idom rpo h).isEmpty).map
    (naturalLoop f idom rpo)

/-- Loop nesting: the innermost loop of each block, and the innermost loop around each loop. -/
structure LoopForest where
  innermost : ℕ → Option ℕ
  parent : ℕ → Option ℕ

namespace LoopForest

/-- The loops by falling size of their bodies, of equal ones the later first. -/
def stampOrder (loops : List NaturalLoop) : List ℕ :=
  let len := fun li => ((loops[li]?).map fun l => l.body.length).getD 0
  (List.range loops.length).insertionSort fun a b => len b < len a ∨ len b = len a ∧ b ≤ a

/-- Stamp the body of a loop; its parent is whatever contained its header before. -/
def stamp (loops : List NaturalLoop) (forest : LoopForest) (li : ℕ) : LoopForest :=
  match loops[li]? with
  | none => forest
  | some l =>
    { parent := Function.update forest.parent li (forest.innermost l.header)
      innermost := fun b => if b ∈ l.body then some li else forest.innermost b }

/-- Stamp the bodies from the outermost in. -/
def build (loops : List NaturalLoop) : LoopForest :=
  (stampOrder loops).foldl (stamp loops) ⟨fun _ => none, fun _ => none⟩

/-- Climb from a loop to the one directly inside `level`. -/
def climb (forest : LoopForest) (level : Option ℕ) : ℕ → ℕ → Option ℕ
  | 0, _ => none
  | fuel + 1, li =>
    if forest.parent li = level then some li
    else (forest.parent li).bind (climb forest level fuel)

/-- The outermost loop containing `b` that is strictly inside `level`, or none when `b` belongs to
`level` directly. -/
def unitLoop (forest : LoopForest) (numLoops : ℕ) (b : ℕ) (level : Option ℕ) : Option ℕ :=
  match forest.innermost b with
  | none => none
  | some li => if some li = level then none else forest.climb level numLoops li

end LoopForest

/-! ## Bodies of loops -/

section

variable {f : FunctionSsa} {idom : Idoms} {rpo : ℕ → Option ℕ}

/-- A body that holds the header and is closed under predecessors up to it, and whose blocks have
a property. -/
structure LoopBody (f : FunctionSsa) (header : ℕ) (P : ℕ → Prop) (body : List ℕ) : Prop where
  nodup : body.Nodup
  inRange : ∀ b ∈ body, b < f.blocks.length
  closed : ∀ b ∈ body, b = header ∨ ∀ p ∈ f.predecessors b, p ∈ body
  all : ∀ b ∈ body, P b

/-- Following one back edge keeps the body of a loop, and adds the header and the source. -/
lemma LoopBody.collect {header src : ℕ} {P : ℕ → Prop} {body : List ℕ}
    (h : LoopBody f header P body) (hheader : header < f.blocks.length)
    (hsrc : src < f.blocks.length) (hph : P header) (hps : P src)
    (hpred : ∀ b, P b → b ≠ header → ∀ p ∈ f.predecessors b, P p) :
    LoopBody f header P (collectLoopBody f header body src) ∧
      header ∈ collectLoopBody f header body src ∧
      ∀ b ∈ body, b ∈ collectLoopBody f header body src := by
  have hadd : ∃ body₁, (if header ∈ body then body else body ++ [header]) = body₁ ∧
      LoopBody f header P body₁ ∧ header ∈ body₁ ∧ ∀ b ∈ body, b ∈ body₁ := by
    by_cases hmem : header ∈ body
    · exact ⟨body, if_pos hmem, h, hmem, fun _ => id⟩
    · refine ⟨body ++ [header], if_neg hmem, ⟨?_, ?_, ?_, ?_⟩, by simp, fun b hb => by simp [hb]⟩
      · rw [List.nodup_append]
        refine ⟨h.nodup, by simp, ?_⟩
        rintro b hb c hc rfl
        exact hmem (List.mem_singleton.mp hc ▸ hb)
      · intro b hb
        rcases List.mem_append.mp hb with hb | hb
        · exact h.inRange b hb
        · exact List.mem_singleton.mp hb ▸ hheader
      · intro b hb
        rcases List.mem_append.mp hb with hb | hb
        · exact (h.closed b hb).imp id fun hall p hp => List.mem_append_left _ (hall p hp)
        · exact Or.inl (List.mem_singleton.mp hb)
      · intro b hb
        rcases List.mem_append.mp hb with hb | hb
        · exact h.all b hb
        · exact List.mem_singleton.mp hb ▸ hph
  obtain ⟨body₁, heq, h₁, hin, hsub⟩ := hadd
  unfold collectLoopBody
  simp only [heq]
  split
  · exact ⟨h₁, hin, hsub⟩
  · rename_i hnew
    have hinv : Mark.Inv f.predecessors (· = header) ⟨body₁ ++ [src], [src]⟩ := by
      refine ⟨?_, by simp, ?_⟩
      · rw [List.nodup_append]
        refine ⟨h₁.nodup, by simp, ?_⟩
        rintro b hb c hc rfl
        exact hnew (List.mem_singleton.mp hc ▸ hb)
      · intro b hb
        rcases List.mem_append.mp hb with hb | hb
        · exact Or.inr ((h₁.closed b hb).imp id fun hall p hp => List.mem_append_left _ (hall p hp))
        · exact Or.inl hb
    have hall : ∀ {Q : ℕ → Prop}, (∀ b ∈ body₁, Q b) → Q src → ∀ b ∈ body₁ ++ [src], Q b := by
      intro Q hb hs b hmem
      rcases List.mem_append.mp hmem with hmem | hmem
      · exact hb b hmem
      · exact List.mem_singleton.mp hmem ▸ hs
    obtain ⟨hseen, hlt, hnd, hclosed⟩ := Mark.run_spec (n := f.blocks.length) hinv (by simp)
      (hall h₁.inRange hsrc) fun b _ p hp => by
        rw [← f.graph_size]
        exact (SuccGraph.mem_predsOf.mp hp).lt_size
    have hP : ∀ b ∈ ((⟨body₁ ++ [src], [src]⟩ : Mark ℕ).run f.predecessors
        f.blocks.length).seen, P b :=
      Mark.run_forall f.blocks.length (List.mem_append_left _ hin)
        (fun hmem => hnew (List.mem_singleton.mp hmem ▸ hin)) (by simp) (hall h₁.all hps) hpred
    exact ⟨⟨hnd, hlt, hclosed, hP⟩, hseen header (List.mem_append_left _ hin),
      fun b hb => hseen b (List.mem_append_left _ (hsub b hb))⟩

/-- Following all back edges of a header. -/
lemma LoopBody.foldl {header : ℕ} {P : ℕ → Prop} (hheader : header < f.blocks.length)
    (hph : P header) (hpred : ∀ b, P b → b ≠ header → ∀ p ∈ f.predecessors b, P p)
    {srcs : List ℕ} (hsrcs : ∀ src ∈ srcs, src < f.blocks.length ∧ P src) {body : List ℕ}
    (h : LoopBody f header P body) :
    LoopBody f header P (srcs.foldl (collectLoopBody f header) body) ∧
      (srcs ≠ [] ∨ header ∈ body → header ∈ srcs.foldl (collectLoopBody f header) body) := by
  induction srcs generalizing body with
  | nil => exact ⟨h, fun hor => hor.resolve_left fun hne => hne rfl⟩
  | cons src srcs ih =>
    obtain ⟨hlt, hps⟩ := hsrcs src (by simp)
    obtain ⟨h₁, hin, -⟩ := h.collect hheader hlt hph hps hpred
    obtain ⟨h₂, hin₂⟩ := ih (fun s hs => hsrcs s (.tail _ hs)) h₁
    exact ⟨h₂, fun _ => hin₂ (Or.inr hin)⟩

/-- A source of a back edge: a reachable block the header dominates, with an edge to it. -/
lemma mem_backSrcs {header b : ℕ} : b ∈ backSrcs f idom rpo header ↔
    b < f.blocks.length ∧ (rpo b).isSome ∧ f.graph.Edge b header ∧
      (DomOrder.build idom f.blocks.length).dominates header b idom = true := by
  simp only [backSrcs, List.mem_flatMap, List.mem_range]
  constructor
  · rintro ⟨c, hc, hb⟩
    split at hb
    · simp at hb
    · rename_i hnone
      obtain ⟨s, hs, rfl⟩ := List.mem_map.mp hb
      obtain ⟨hedge, hp⟩ := List.mem_filter.mp hs
      simp only [Bool.and_eq_true, decide_eq_true_eq] at hp
      obtain ⟨rfl, hdom⟩ := hp
      refine ⟨hc, ?_, hedge, hdom⟩
      cases hrpo : rpo c with
      | none => simp [hrpo] at hnone
      | some _ => rfl
  · rintro ⟨hb, hsome, hedge, hdom⟩
    refine ⟨b, hb, ?_⟩
    have hnone : ¬ ((rpo b).isNone = true) := by
      rw [Option.isNone_iff_eq_none]
      intro hn
      simp [hn] at hsome
    rw [if_neg hnone]
    refine List.mem_map.mpr ⟨header, List.mem_filter.mpr ⟨hedge, ?_⟩, rfl⟩
    simp [hdom]

lemma rpoNumbers_isSome (hg : f.graph.Closed) (h0 : 0 < f.graph.size) {b : ℕ} :
    (rpoNumbers f b).isSome ↔ f.graph.Reach b := by
  rw [← (SuccGraph.postorder_spec hg h0).2.1 b, rpoNumbers]
  split <;> simp_all

/-- What the natural loops of a function are: the header of each belongs to its body; the body is
closed under predecessors up to the header; the header dominates the blocks of the body that the
entry reaches; and different loops have different headers. -/
theorem naturalLoops_spec (hg : f.graph.Closed) (h0 : 0 < f.graph.size) :
    (∀ l ∈ naturalLoops f f.graph.dominatorsOf (rpoNumbers f), l.header ∈ l.body ∧
      (∀ b ∈ l.body, b = l.header ∨ ∀ p ∈ f.predecessors b, p ∈ l.body) ∧
      (∀ b ∈ l.body, b < f.blocks.length) ∧
      ∀ b ∈ l.body, f.graph.Reach b → f.graph.Dom l.header b) ∧
    ((naturalLoops f f.graph.dominatorsOf (rpoNumbers f)).map NaturalLoop.header).Nodup := by
  refine ⟨fun l hl => ?_, ?_⟩
  · obtain ⟨header, hh, rfl⟩ := List.mem_map.mp hl
    obtain ⟨hlt, hne⟩ := List.mem_filter.mp hh
    rw [List.mem_range] at hlt
    have hsrcs : ∀ src ∈ backSrcs f f.graph.dominatorsOf (rpoNumbers f) header,
        f.graph.Reach src ∧ f.graph.Dom header src := by
      intro src hsrc
      obtain ⟨-, hsome, -, hdom⟩ := mem_backSrcs.mp hsrc
      have hreach := (rpoNumbers_isSome hg h0).mp hsome
      rw [← f.graph_size] at hdom
      exact ⟨hreach, (SuccGraph.dominates_iff_dom hg h0 hreach).mp hdom⟩
    have hnil : backSrcs f f.graph.dominatorsOf (rpoNumbers f) header ≠ [] := by
      intro hnil
      simp [hnil] at hne
    have hempty : LoopBody f header (fun b => f.graph.Reach b → f.graph.Dom header b) [] :=
      ⟨List.nodup_nil, by simp, by simp, by simp⟩
    obtain ⟨hbody, hin⟩ := LoopBody.foldl hlt (fun hr => Dom.refl hr)
      (fun b hb hbh p hp hreach => by
        have hedge : f.graph.Edge p b := SuccGraph.mem_predsOf.mp hp
        exact (hb (hreach.step hedge)).of_edge (fun he => hbh he.symm) hreach hedge)
      (fun src hsrc => ⟨(mem_backSrcs.mp hsrc).1, fun _ => (hsrcs src hsrc).2⟩) hempty
    have hmem : ∀ b, b ∈ (naturalLoop f f.graph.dominatorsOf (rpoNumbers f) header).body ↔
        b ∈ (backSrcs f f.graph.dominatorsOf (rpoNumbers f) header).foldl
          (collectLoopBody f header) [] := fun b => List.mem_insertionSort _
    refine ⟨(hmem header).mpr (hin (Or.inl hnil)), fun b hb => ?_, fun b hb => ?_, fun b hb => ?_⟩
    · exact (hbody.closed b ((hmem b).mp hb)).imp id fun hall p hp => (hmem p).mpr (hall p hp)
    · exact hbody.inRange b ((hmem b).mp hb)
    · exact hbody.all b ((hmem b).mp hb)
  · rw [naturalLoops, List.map_map]
    have hid : NaturalLoop.header ∘ naturalLoop f f.graph.dominatorsOf (rpoNumbers f) = id := rfl
    rw [hid, List.map_id]
    exact List.nodup_range.filter _

end

/-! ## Nesting of loops -/

namespace LoopForest

variable {loops : List NaturalLoop}

/-- What the stamping keeps: a block's innermost loop holds it and is stamped, the blocks of
stamped loops have one, and a loop's parent holds its header and was stamped before it. -/
structure Stamped (loops : List NaturalLoop) (done : List ℕ) (forest : LoopForest) : Prop where
  inner : ∀ b li, forest.innermost b = some li → li ∈ done ∧
    ∃ l, loops[li]? = some l ∧ b ∈ l.body
  cover : ∀ li ∈ done, ∀ l, loops[li]? = some l → ∀ b ∈ l.body, (forest.innermost b).isSome
  parents : ∀ li p, forest.parent li = some p → li ∈ done ∧ p ∈ done ∧
    done.idxOf p < done.idxOf li ∧
    ∃ l lp, loops[li]? = some l ∧ loops[p]? = some lp ∧ l.header ∈ lp.body

/-- Stamping one more loop. -/
lemma Stamped.stamp {done : List ℕ} {forest : LoopForest} (h : Stamped loops done forest) {li : ℕ}
    (hli : li ∉ done) : Stamped loops (done ++ [li]) (stamp loops forest li) := by
  have hidx : ∀ k ∈ done, (done ++ [li]).idxOf k = done.idxOf k := fun k hk =>
    List.idxOf_append_of_mem hk
  have hlast : (done ++ [li]).idxOf li = done.length := by
    rw [List.idxOf_append_of_notMem hli]
    simp
  have hold : ∀ k p, forest.parent k = some p → k ∈ done ++ [li] ∧ p ∈ done ++ [li] ∧
      (done ++ [li]).idxOf p < (done ++ [li]).idxOf k ∧
      ∃ l lp, loops[k]? = some l ∧ loops[p]? = some lp ∧ l.header ∈ lp.body := by
    intro k p hk
    obtain ⟨hkd, hpd, hlt, hex⟩ := h.parents k p hk
    rw [hidx k hkd, hidx p hpd]
    exact ⟨by simp [hkd], by simp [hpd], hlt, hex⟩
  unfold LoopForest.stamp
  cases hl : loops[li]? with
  | none =>
    refine ⟨fun b k hk => ?_, fun k hk l hkl => ?_, hold⟩
    · obtain ⟨hkd, hex⟩ := h.inner b k hk
      exact ⟨by simp [hkd], hex⟩
    · rcases List.mem_append.mp hk with hk | hk
      · exact h.cover k hk l hkl
      · rw [List.mem_singleton.mp hk, hl] at hkl
        cases hkl
  | some l =>
    refine ⟨fun b k hk => ?_, fun k hk l' hkl b hb => ?_, fun k p hk => ?_⟩
    · simp only at hk
      split at hk
      · rename_i hb
        obtain rfl := Option.some.inj hk
        exact ⟨by simp, l, hl, hb⟩
      · obtain ⟨hkd, hex⟩ := h.inner b k hk
        exact ⟨by simp [hkd], hex⟩
    · simp only
      split
      · rfl
      · rename_i hno
        rcases List.mem_append.mp hk with hk | hk
        · exact h.cover k hk l' hkl b hb
        · rw [List.mem_singleton.mp hk, hl, Option.some.injEq] at hkl
          exact absurd (hkl ▸ hb) hno
    · simp only at hk
      by_cases hkl : k = li
      · subst hkl
        rw [Function.update_self] at hk
        obtain ⟨hpd, lp, hlp, hmem⟩ := h.inner l.header p hk
        rw [hidx p hpd, hlast]
        exact ⟨by simp, by simp [hpd], List.idxOf_lt_length_of_mem hpd, l, lp, hl, hlp, hmem⟩
      · rw [Function.update_of_ne hkl] at hk
        exact hold k p hk

/-- Stamping a list of loops. -/
lemma Stamped.foldl {done rest : List ℕ} {forest : LoopForest} (h : Stamped loops done forest)
    (hnd : (done ++ rest).Nodup) :
    Stamped loops (done ++ rest) (rest.foldl (LoopForest.stamp loops) forest) := by
  induction rest generalizing done forest with
  | nil => simpa using h
  | cons li rest ih =>
    have hli : li ∉ done := fun hmem =>
      (List.nodup_append.mp hnd).2.2 li hmem li (by simp) rfl
    have hassoc : done ++ li :: rest = (done ++ [li]) ++ rest := by simp
    rw [hassoc] at hnd ⊢
    exact ih (h.stamp hli) hnd

lemma stampOrder_perm (loops : List NaturalLoop) :
    (stampOrder loops).Perm (List.range loops.length) :=
  List.perm_insertionSort _ _

/-- What holds of the nesting. -/
theorem build_stamped (loops : List NaturalLoop) :
    Stamped loops (stampOrder loops) (build loops) := by
  have hinit : Stamped loops [] ⟨fun _ => none, fun _ => none⟩ :=
    ⟨by simp, by simp, by simp⟩
  have hnd : ([] ++ stampOrder loops).Nodup :=
    (stampOrder_perm loops).nodup_iff.mpr List.nodup_range
  exact hinit.foldl hnd

/-- The place of a level in the nesting; the whole function is before all loops. -/
def levelRank (loops : List NaturalLoop) : Option ℕ → ℕ
  | none => 0
  | some li => (stampOrder loops).idxOf li + 1

lemma parent_rank {li : ℕ} : levelRank loops ((build loops).parent li) < levelRank loops (some li) := by
  cases hp : (build loops).parent li with
  | none => exact Nat.succ_pos _
  | some p => exact Nat.succ_lt_succ ((build_stamped loops).parents li p hp).2.2.1

/-- Climbing ends directly inside the level. -/
lemma parent_of_climb {forest : LoopForest} {level : Option ℕ} {fuel li li' : ℕ}
    (h : forest.climb level fuel li = some li') : forest.parent li' = level := by
  induction fuel generalizing li with
  | zero => cases h
  | succ fuel ih =>
    unfold climb at h
    split at h
    · rename_i hp
      rw [← Option.some.inj h]
      exact hp
    · obtain ⟨p, -, hp⟩ := Option.bind_eq_some_iff.mp h
      exact ih hp

lemma parent_of_unitLoop {forest : LoopForest} {numLoops b li : ℕ} {level : Option ℕ}
    (h : forest.unitLoop numLoops b level = some li) : forest.parent li = level := by
  unfold unitLoop at h
  split at h
  · cases h
  · split at h
    · cases h
    · exact parent_of_climb h

/-- More steps than the place of a loop change nothing: climbing has ended. -/
lemma climb_succ {level : Option ℕ} {fuel li : ℕ} (h : levelRank loops (some li) ≤ fuel) :
    (build loops).climb level (fuel + 1) li = (build loops).climb level fuel li := by
  induction fuel generalizing li with
  | zero => simp [levelRank] at h
  | succ fuel ih =>
    rw [climb, climb]
    split
    · rfl
    · cases hp : (build loops).parent li with
      | none => rfl
      | some p =>
        have hlt : levelRank loops (some p) < levelRank loops (some li) := hp ▸ parent_rank
        simp only [Option.bind_some]
        exact ih (by omega)

/-- The loop a block is laid out with is one of the loops. -/
lemma mem_of_unitLoop {b li : ℕ} {level : Option ℕ}
    (h : (build loops).unitLoop loops.length b level = some li) : li ∈ stampOrder loops := by
  have hclimb : ∀ fuel k, k ∈ stampOrder loops →
      (build loops).climb level fuel k = some li → li ∈ stampOrder loops := by
    intro fuel
    induction fuel with
    | zero => exact fun k _ h => by cases h
    | succ fuel ih =>
      intro k hk h
      unfold climb at h
      split at h
      · exact Option.some.inj h ▸ hk
      · obtain ⟨p, hp, hc⟩ := Option.bind_eq_some_iff.mp h
        exact ih p ((build_stamped loops).parents k p hp).2.1 hc
  unfold unitLoop at h
  split at h
  · cases h
  · rename_i k hk
    split at h
    · cases h
    · exact hclimb loops.length k ((build_stamped loops).inner b k hk).1 h

lemma levelRank_le {li : ℕ} (h : li ∈ stampOrder loops) :
    levelRank loops (some li) ≤ loops.length := by
  have := List.idxOf_lt_length_of_mem h
  rw [(stampOrder_perm loops).length_eq, List.length_range] at this
  exact this

/-- Where only loops with header `b` contain `b`, and headers differ, `b` is in one loop at most,
which lies in no other. -/
lemma unitLoop_header {b li : ℕ} (hheader : ∀ l ∈ loops, b ∈ l.body → l.header = b)
    (hnd : (loops.map NaturalLoop.header).Nodup)
    (h : (build loops).unitLoop loops.length b none = some li) :
    (∃ l, loops[li]? = some l ∧ b ∈ l.body ∧ l.header = b) ∧
      (build loops).unitLoop loops.length b (some li) = none := by
  have hst := build_stamped loops
  cases hin : (build loops).innermost b with
  | none => simp [unitLoop, hin] at h
  | some k =>
    obtain ⟨hk, l, hl, hmem⟩ := hst.inner b k hin
    have hlb := hheader l (List.mem_of_getElem? hl) hmem
    have hparent : (build loops).parent k = none := by
      rw [Option.eq_none_iff_forall_ne_some]
      intro p hp
      obtain ⟨-, -, hlt, l', lp, hl', hlp, hmemp⟩ := hst.parents k p hp
      obtain rfl := Option.some.inj (hl.symm.trans hl')
      rw [hlb] at hmemp
      have hpb := hheader lp (List.mem_of_getElem? hlp) hmemp
      have hkl : (loops.map NaturalLoop.header)[k]? = some b := by
        rw [List.getElem?_map, hl, Option.map_some, hlb]
      have hpl : (loops.map NaturalLoop.header)[p]? = some b := by
        rw [List.getElem?_map, hlp, Option.map_some, hpb]
      have hkp : k = p := by
        obtain ⟨hk', hkb⟩ := List.getElem?_eq_some_iff.mp hkl
        obtain ⟨hp', hpb'⟩ := List.getElem?_eq_some_iff.mp hpl
        exact (List.Nodup.getElem_inj_iff hnd).mp (hkb.trans hpb'.symm)
      subst hkp
      omega
    have hpos : ∃ n, loops.length = n + 1 := by
      have := (List.getElem?_eq_some_iff.mp hl).1
      exact ⟨loops.length - 1, by omega⟩
    obtain ⟨n, hn⟩ := hpos
    have hli : k = li := by
      simpa [unitLoop, hin, hn, climb, hparent] using h
    subst hli
    exact ⟨⟨l, hl, hmem, hlb⟩, by simp [unitLoop, hin]⟩

end LoopForest

end Badc
