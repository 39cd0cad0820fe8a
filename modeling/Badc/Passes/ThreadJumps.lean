import Badc.Passes.JumpChains
import Badc.Passes.PruneUnreachable

/-!
# Jump threading

`thread_jumps` of `src/c5/codegen/passes/layout.rs`: an edge into a chain of empty blocks is
moved to the end of the chain, or to the block before an end that carries phis.  The ends are
found once, and the edges are rewritten block by block; a chain that runs into a cycle is walked
in the graph as it stands.

`threadJumps_eq` says that the rewriting does not interfere with itself, `threadTarget_spec` that
no edge is moved past a block that does something or onto one with phis, and `thread_sameRuns`
that the function runs as before.
-/

namespace Badc

/-- The unconditional target of a terminator. -/
def uncondTarget : Terminator → Option ℕ
  | .jmp t | .fallThrough t => some t
  | _ => none

/-- Whether a block holds nothing but lifetime markers. -/
def blockIsEmpty (f : FunctionSsa) (b : ℕ) : Bool :=
  (f.blocks.getD b default).instRange.toList.all fun i => (f.insts[i]?).any Inst.isLifetimeMarker

/-- Whether a block has a phi. -/
def blockHasPhis (f : FunctionSsa) (b : ℕ) : Bool :=
  (f.blocks.getD b default).instRange.toList.any fun i => (f.insts[i]?).any Inst.isPhi

/-- The block an empty block hands every edge on to. -/
def hop (f : FunctionSsa) (b : ℕ) : Option ℕ :=
  if blockIsEmpty f b then
    (uncondTarget (f.blocks.getD b default).terminator).filter fun t => t ≠ b
  else none

/-- Follow the chain from `cur`; when the steps run out it is a cycle and `start` stays. -/
def walkChainFrom (f : FunctionSsa) (start : ℕ) : ℕ → ℕ → ℕ → ℕ
  | 0, _, _ => start
  | steps + 1, prev, cur =>
    if blockIsEmpty f cur then
      match uncondTarget (f.blocks.getD cur default).terminator with
      | some t =>
        if t = cur then (if blockHasPhis f cur then prev else cur)
        else walkChainFrom f start steps cur t
      | none => if blockHasPhis f cur then prev else cur
    else if blockHasPhis f cur then prev else cur

/-- Follow the chain of empty blocks from `start`, to one hop short of an end with phis. -/
def walkChain (f : FunctionSsa) (start : ℕ) : ℕ :=
  walkChainFrom f start (f.blocks.length + 1) start start

/-- The block an edge into `start` may target instead. -/
def JumpChains.target (c : JumpChains) (f : FunctionSsa) (start : ℕ) : ℕ :=
  match c.chainEnd start with
  | none => walkChain f start
  | some e => if blockHasPhis f e then (c.penultimate start).getD noBlock else e

/-- Retarget the edges of one block. -/
def threadBlock (c : JumpChains) (f : FunctionSsa) (i : ℕ) : FunctionSsa :=
  { f with blocks := f.blocks.modify i fun blk =>
      { blk with terminator := blk.terminator.mapBlocks (c.target f) } }

/-- The chains of the empty blocks of a function. -/
def chainsOf (f : FunctionSsa) : JumpChains := JumpChains.buildWith (hop f) f.blocks.length

/-- Retarget every terminator edge. -/
def threadJumps (f : FunctionSsa) : FunctionSsa :=
  (List.range f.blocks.length).foldl (threadBlock (chainsOf f)) f

/-- Where an edge into `t` goes after threading, in terms of the graph before it. -/
def threadTarget (f : FunctionSsa) (t : ℕ) : ℕ :=
  match (chainsOf f).chainEnd t with
  | none => t
  | some e => if blockHasPhis f e then ((chainsOf f).penultimate t).getD noBlock else e

/-- A block with its edges moved. -/
def threadedBlock (f : FunctionSsa) (blk : Block) : Block :=
  { blk with terminator := blk.terminator.mapBlocks (threadTarget f) }

section

variable {f g : FunctionSsa}

lemma hop_eq_some {b t : ℕ} : hop f b = some t ↔ blockIsEmpty f b = true ∧
    uncondTarget (f.blocks.getD b default).terminator = some t ∧ t ≠ b := by
  unfold hop
  split
  · rename_i hempty
    simp [hempty, Option.filter_eq_some_iff]
  · rename_i hempty
    simp [hempty]

lemma uncondTarget_mem {term : Terminator} {t : ℕ} (h : uncondTarget term = some t)
    (tables : List (List ℕ)) : term.targets tables = [t] := by
  cases term with
  | jmp u | fallThrough u =>
    cases h
    rfl
  | _ => cases h

lemma hop_of_le {b : ℕ} (h : f.blocks.length ≤ b) : hop f b = none := by
  rw [Option.eq_none_iff_forall_ne_some]
  intro t ht
  obtain ⟨-, hu, -⟩ := hop_eq_some.mp ht
  rw [List.getD_eq_getElem?_getD, List.getElem?_eq_none h] at hu
  cases hu

/-- A hop leads to a block of the function. -/
lemma WellNamed.hop_lt (hf : WellNamed f) {b t : ℕ} (h : hop f b = some t) :
    t < f.blocks.length := by
  obtain ⟨-, hu, -⟩ := hop_eq_some.mp h
  by_cases hb : b < f.blocks.length
  · have hblk := List.getElem?_eq_getElem hb
    rw [List.getD_eq_getElem?_getD, hblk, Option.getD_some] at hu
    refine (hf.targets b _ hblk).targets_lt t ?_
    rw [uncondTarget_mem hu]
    simp
  · rw [hop_of_le (not_lt.mp hb)] at h
    cases h

lemma WellNamed.chainsOf_right (hf : WellNamed f) {b : ℕ} (hb : b < f.blocks.length) :
    JumpChains.RightAt (hop f) (chainsOf f) b :=
  JumpChains.buildWith_spec (fun _ _ _ ht => hf.hop_lt ht) hb

lemma WellNamed.threadTarget_of_chain (hf : WellNamed f) {k b p e : ℕ} (hb : b < f.blocks.length)
    (h : Chain (hop f) k b p e) : threadTarget f b = if blockHasPhis f e then p else e := by
  rcases hf.chainsOf_right hb with ⟨k', p', e', hc, he, hp⟩ | ⟨hno, -⟩
  · obtain ⟨-, rfl, rfl⟩ := h.unique hc
    simp [threadTarget, he, hp]
  · exact absurd ⟨k, p, e, h⟩ hno

lemma WellNamed.threadTarget_of_not_hasEnd (hf : WellNamed f) {b : ℕ} (hb : b < f.blocks.length)
    (h : ¬ HasEnd (hop f) b) : threadTarget f b = b := by
  rcases hf.chainsOf_right hb with ⟨k, p, e, hc, -⟩ | ⟨-, he⟩
  · exact absurd ⟨k, p, e, hc⟩ h
  · simp [threadTarget, he]

/-- `g` is `f` with the edges of some blocks moved. -/
structure Threading (f g : FunctionSsa) : Prop where
  rest : g = { f with blocks := g.blocks }
  length : g.blocks.length = f.blocks.length
  block : ∀ (b : ℕ) blk, f.blocks[b]? = some blk →
    g.blocks[b]? = some blk ∨ g.blocks[b]? = some (threadedBlock f blk)

namespace Threading

lemma insts (h : Threading f g) : g.insts = f.insts := by rw [h.rest]

/-- A block holds what it did. -/
lemma instRange (h : Threading f g) (b : ℕ) :
    (g.blocks.getD b default).instRange = (f.blocks.getD b default).instRange := by
  rw [List.getD_eq_getElem?_getD, List.getD_eq_getElem?_getD]
  cases hblk : f.blocks[b]? with
  | none =>
    have hnone : g.blocks[b]? = none := by
      rw [List.getElem?_eq_none_iff, h.length]
      exact List.getElem?_eq_none_iff.mp hblk
    rw [hnone]
  | some blk =>
    rcases h.block b blk hblk with hg | hg
    · rw [hg]
    · rw [hg]
      rfl

lemma blockIsEmpty_eq (h : Threading f g) (b : ℕ) : blockIsEmpty g b = blockIsEmpty f b := by
  simp only [blockIsEmpty, h.instRange, h.insts]

lemma blockHasPhis_eq (h : Threading f g) (b : ℕ) : blockHasPhis g b = blockHasPhis f b := by
  simp only [blockHasPhis, h.instRange, h.insts]

/-- A block on a chain without end keeps its target. -/
lemma uncondTarget_eq (h : Threading f g) (hf : WellNamed f) {b : ℕ} (hno : ¬ HasEnd (hop f) b) :
    ∃ t, uncondTarget (g.blocks.getD b default).terminator = some t ∧ t ≠ b ∧
      blockIsEmpty f b = true ∧ ¬ HasEnd (hop f) t := by
  cases hhop : hop f b with
  | none => exact absurd ⟨0, b, b, .done hhop⟩ hno
  | some t =>
    have hnot : ¬ HasEnd (hop f) t := fun ht => hno ((hasEnd_iff_of_hop hhop).mpr ht)
    obtain ⟨hempty, hu, hne⟩ := hop_eq_some.mp hhop
    refine ⟨t, ?_, hne, hempty, hnot⟩
    rw [List.getD_eq_getElem?_getD] at hu ⊢
    cases hblk : f.blocks[b]? with
    | none =>
      rw [hblk] at hu
      cases hu
    | some blk =>
      rw [hblk, Option.getD_some] at hu
      rcases h.block b blk hblk with hg | hg
      · rw [hg]
        exact hu
      · rw [hg, Option.getD_some, threadedBlock]
        have hstay := hf.threadTarget_of_not_hasEnd (hf.hop_lt hhop) hnot
        cases hterm : blk.terminator with
        | jmp u | fallThrough u =>
          rw [hterm] at hu
          obtain rfl := Option.some.inj hu
          simp only [Terminator.mapBlocks, uncondTarget, hstay]
        | _ =>
          rw [hterm] at hu
          cases hu

lemma walkChainFrom_eq (h : Threading f g) (hf : WellNamed f) {start cur : ℕ}
    (hno : ¬ HasEnd (hop f) cur) (steps prev : ℕ) : walkChainFrom g start steps prev cur = start := by
  induction steps generalizing prev cur with
  | zero => rfl
  | succ steps ih =>
    obtain ⟨t, ht, hne, hempty, hnot⟩ := h.uncondTarget_eq hf hno
    simp only [walkChainFrom, h.blockIsEmpty_eq, hempty, if_true, ht, hne, if_false]
    exact ih hnot cur

/-- However far the rewriting has got, an edge goes where the graph before it says. -/
lemma target_eq (h : Threading f g) (hf : WellNamed f) (t : ℕ) :
    (chainsOf f).target g t = threadTarget f t := by
  unfold JumpChains.target threadTarget
  cases hend : (chainsOf f).chainEnd t with
  | some e => simp only [h.blockHasPhis_eq]
  | none =>
    by_cases ht : t < f.blocks.length
    · refine h.walkChainFrom_eq hf (fun hyes => ?_) _ _
      have := (hf.chainsOf_right ht).isSome_iff.mpr hyes
      simp [hend] at this
    · have hge : g.blocks.length ≤ t := h.length ▸ not_lt.mp ht
      simp [walkChain, walkChainFrom, List.getD_eq_getElem?_getD, List.getElem?_eq_none hge,
        uncondTarget, blockIsEmpty, blockHasPhis, InstRange.toList, default]

/-- Rewriting one block that is still as it was. -/
lemma threadBlock (h : Threading f g) (hf : WellNamed f) {i : ℕ}
    (hi : g.blocks[i]? = f.blocks[i]?) :
    Threading f (threadBlock (chainsOf f) g i) ∧
      ∀ b : ℕ, (Badc.threadBlock (chainsOf f) g i).blocks[b]? =
        if i = b then (f.blocks[b]?).map (threadedBlock f) else g.blocks[b]? := by
  have htarget : (chainsOf f).target g = threadTarget f := funext (h.target_eq hf)
  have hget : ∀ b : ℕ, (Badc.threadBlock (chainsOf f) g i).blocks[b]? =
      if i = b then (f.blocks[b]?).map (threadedBlock f) else g.blocks[b]? := by
    intro b
    simp only [Badc.threadBlock, List.getElem?_modify, htarget]
    split
    · rename_i hib
      subst hib
      rw [hi]
      rfl
    · simp
  refine ⟨⟨?_, ?_, ?_⟩, hget⟩
  · have := h.rest
    simp only [Badc.threadBlock]
    rw [this]
  · simp [Badc.threadBlock, h.length]
  · intro b blk hblk
    rw [hget b]
    split
    · rw [hblk]
      exact Or.inr rfl
    · exact h.block b blk hblk

/-- Rewriting blocks that are still as they were. -/
lemma foldl_threadBlock (h : Threading f g) (hf : WellNamed f) {l : List ℕ} (hnd : l.Nodup)
    (hl : ∀ i ∈ l, g.blocks[i]? = f.blocks[i]?) :
    Threading f (l.foldl (Badc.threadBlock (chainsOf f)) g) ∧
      ∀ b : ℕ, (l.foldl (Badc.threadBlock (chainsOf f)) g).blocks[b]? =
        if b ∈ l then (f.blocks[b]?).map (threadedBlock f) else g.blocks[b]? := by
  induction l generalizing g with
  | nil => exact ⟨h, fun b => by simp⟩
  | cons i l ih =>
    obtain ⟨hi, hnd⟩ := List.nodup_cons.mp hnd
    obtain ⟨h', hget⟩ := h.threadBlock hf (hl i (by simp))
    have hne : ∀ b ∈ l, i ≠ b := by
      rintro b hb rfl
      exact hi hb
    obtain ⟨h'', hget'⟩ := ih h' hnd fun b hb => by
      rw [hget b, if_neg (hne b hb)]
      exact hl b (.tail _ hb)
    refine ⟨h'', fun b => ?_⟩
    rw [List.foldl_cons, hget' b, hget b]
    by_cases hb : b ∈ l
    · simp [hb]
    · by_cases hib : i = b
      · simp [hb, hib]
      · simp [hb, hib, show b ≠ i from fun he => hib he.symm]

end Threading

/-- Threading rewrites each block by the graph before it. -/
theorem WellNamed.threadJumps_eq (hf : WellNamed f) :
    threadJumps f = { f with blocks := f.blocks.map (threadedBlock f) } := by
  have hself : Threading f f := ⟨rfl, rfl, fun _ _ hblk => Or.inl hblk⟩
  obtain ⟨h, hget⟩ := hself.foldl_threadBlock hf List.nodup_range fun _ _ => rfl
  have hblocks : (threadJumps f).blocks = f.blocks.map (threadedBlock f) := by
    refine List.ext_getElem? fun b => ?_
    rw [threadJumps, hget b, List.getElem?_map]
    split
    · rfl
    · rename_i hb
      rw [List.mem_range, not_lt] at hb
      rw [List.getElem?_eq_none hb]
      rfl
  rw [← hblocks]
  exact h.rest

/-! ## Where the edges go -/

/-- `Passes f b t`: from `b`, empty blocks lead to `t`. -/
inductive Passes (f : FunctionSsa) : ℕ → ℕ → Prop
  | refl (b : ℕ) : Passes f b b
  | hop {b u t : ℕ} : blockIsEmpty f b = true →
      uncondTarget (f.blocks.getD b default).terminator = some u → Passes f u t → Passes f b t

/-- The blocks of a chain are passed, up to its end and up to the block before it. -/
lemma Chain.passes {k b p e : ℕ} (h : Chain (hop f) k b p e) :
    Passes f b p ∧ Passes f b e ∧ (p = b ∨ blockIsEmpty f p = true) := by
  induction h with
  | done _ => exact ⟨.refl _, .refl _, Or.inl rfl⟩
  | last hb _ =>
    obtain ⟨hempty, hu, -⟩ := hop_eq_some.mp hb
    exact ⟨.refl _, .hop hempty hu (.refl _), Or.inl rfl⟩
  | more hb h ih =>
    obtain ⟨hempty, hu, -⟩ := hop_eq_some.mp hb
    refine ⟨.hop hempty hu ih.1, .hop hempty hu ih.2.1, Or.inr ?_⟩
    rcases ih.2.2 with rfl | hp
    · cases h with
      | last ht _ => exact (hop_eq_some.mp ht).1
      | more ht _ => exact (hop_eq_some.mp ht).1
    · exact hp

/-- An empty block has no phis. -/
lemma blockHasPhis_of_isEmpty {b : ℕ} (h : blockIsEmpty f b = true) : blockHasPhis f b = false := by
  rw [blockHasPhis, List.any_eq_false]
  intro i hi
  have := List.all_eq_true.mp h i hi
  cases hinst : f.insts[i]? with
  | none => simp
  | some inst =>
    rw [hinst, Option.any_some] at this
    cases inst with
    | lifetimeEnd off => simp [Inst.isPhi]
    | _ => cases this

/-- Passing empty blocks stays inside the function. -/
lemma WellNamed.passes_lt (hf : WellNamed f) {b t : ℕ} (h : Passes f b t)
    (hb : b < f.blocks.length) : t < f.blocks.length := by
  induction h with
  | refl => exact hb
  | @hop b u t _ hu _ ih =>
    refine ih ?_
    have hblk := List.getElem?_eq_getElem hb
    rw [List.getD_eq_getElem?_getD, hblk, Option.getD_some] at hu
    refine (hf.targets b _ hblk).targets_lt u ?_
    rw [uncondTarget_mem hu]
    simp

/-- An edge is moved past empty blocks only, and never onto a block with phis. -/
theorem WellNamed.threadTarget_spec (hf : WellNamed f) {t : ℕ} (ht : t < f.blocks.length) :
    Passes f t (threadTarget f t) ∧
      (threadTarget f t ≠ t → blockHasPhis f (threadTarget f t) = false) := by
  by_cases hend : HasEnd (hop f) t
  · obtain ⟨k, p, e, hc⟩ := hend
    obtain ⟨hp, he, hempty⟩ := hc.passes
    rw [hf.threadTarget_of_chain ht hc]
    split
    · refine ⟨hp, fun hne => ?_⟩
      exact blockHasPhis_of_isEmpty (hempty.resolve_left hne)
    · rename_i hno
      exact ⟨he, fun _ => Bool.eq_false_iff.mpr hno⟩
  · rw [hf.threadTarget_of_not_hasEnd ht hend]
    exact ⟨.refl t, fun hne => absurd rfl hne⟩

lemma WellNamed.threadTarget_lt (hf : WellNamed f) {t : ℕ} (ht : t < f.blocks.length) :
    threadTarget f t < f.blocks.length :=
  hf.passes_lt (hf.threadTarget_spec ht).1 ht

/-- One hop into a chain, an edge that is moved has arrived, or is moved to the same block. -/
lemma WellNamed.threadTarget_hop (hf : WellNamed f) {b : ℕ} (hb : b < f.blocks.length)
    (hne : threadTarget f b ≠ b) : ∃ k p e u, Chain (hop f) (k + 1) b p e ∧ hop f b = some u ∧
      (u = threadTarget f b ∨ threadTarget f u = threadTarget f b ∧ threadTarget f u ≠ u) := by
  by_cases hend : HasEnd (hop f) b
  · obtain ⟨k, p, e, hc⟩ := hend
    have heq := hf.threadTarget_of_chain hb hc
    cases hc with
    | done hb' =>
      rw [heq] at hne
      split at hne <;> exact absurd rfl hne
    | last hbe he =>
      refine ⟨0, b, e, e, .last hbe he, hbe, Or.inl ?_⟩
      rw [heq] at hne ⊢
      split at hne
      · exact absurd rfl hne
      · rename_i hno
        rw [if_neg hno]
    | @more k _ u _ _ hbu hu =>
      refine ⟨k + 1, p, e, u, .more hbu hu, hbu, ?_⟩
      have hsame : threadTarget f u = threadTarget f b := by
        rw [heq, hf.threadTarget_of_chain (hf.hop_lt hbu) hu]
      by_cases huu : threadTarget f u = u
      · exact Or.inl (huu ▸ hsame)
      · exact Or.inr ⟨hsame, huu⟩
  · exact absurd (hf.threadTarget_of_not_hasEnd hb hend) hne

/-- An edge that has been moved stays. -/
lemma WellNamed.threadTarget_idem (hf : WellNamed f) {b : ℕ} (hb : b < f.blocks.length) :
    threadTarget f (threadTarget f b) = threadTarget f b := by
  by_cases hend : HasEnd (hop f) b
  · obtain ⟨k, p, e, hc⟩ := hend
    induction hc with
    | @done b hb' =>
      have heq : threadTarget f b = b := by
        rw [hf.threadTarget_of_chain hb (.done hb')]
        split <;> rfl
      rw [heq, heq]
    | @last b e hbe he =>
      have htarget := hf.threadTarget_of_chain hb (.last hbe he)
      have hend : threadTarget f e = e := by
        rw [hf.threadTarget_of_chain (hf.hop_lt hbe) (.done he)]
        split <;> rfl
      split at htarget
      · rw [htarget, htarget]
      · rw [htarget, hend]
    | @more k b u p e hbu hu ih =>
      have hlt := hf.hop_lt hbu
      have hsame : threadTarget f b = threadTarget f u := by
        rw [hf.threadTarget_of_chain hb (.more hbu hu), hf.threadTarget_of_chain hlt hu]
      rw [hsame]
      exact ih hlt
  · rw [hf.threadTarget_of_not_hasEnd hb hend, hf.threadTarget_of_not_hasEnd hb hend]

/-! ## What threading keeps -/

lemma WellNamed.getElem?_threadJumps (hf : WellNamed f) (b : ℕ) :
    (threadJumps f).blocks[b]? = (f.blocks[b]?).map (threadedBlock f) := by
  rw [hf.threadJumps_eq]
  exact List.getElem?_map

lemma WellNamed.length_threadJumps (hf : WellNamed f) :
    (threadJumps f).blocks.length = f.blocks.length := by
  rw [hf.threadJumps_eq]
  exact List.length_map _

lemma WellNamed.inBlock_threadJumps (hf : WellNamed f) {v b : ℕ} :
    InBlock (threadJumps f) v b ↔ InBlock f v b := by
  simp only [InBlock, hf.getElem?_threadJumps, Option.map_eq_some_iff]
  constructor
  · rintro ⟨-, ⟨blk, hblk, rfl⟩, hv⟩
    exact ⟨blk, hblk, hv⟩
  · rintro ⟨blk, hblk, hv⟩
    exact ⟨_, ⟨blk, hblk, rfl⟩, hv⟩

/-- Threading leaves the targets of a terminator where it does not move them. -/
lemma targets_mapBlocks {T : ℕ → ℕ} {term : Terminator} {tables : List (List ℕ)} {t : ℕ}
    (h : t ∈ term.targets tables) :
    T t ∈ (term.mapBlocks T).targets tables ∨ t ∈ (term.mapBlocks T).targets tables := by
  cases term with
  | jmp u | fallThrough u =>
    simp only [Terminator.targets, List.mem_singleton] at h
    simp [Terminator.mapBlocks, Terminator.targets, h]
  | bz cond u e | bnz cond u e =>
    simp only [Terminator.targets, List.mem_cons, List.not_mem_nil, or_false] at h
    rcases h with rfl | rfl <;> simp [Terminator.mapBlocks, Terminator.targets]
  | _ => exact Or.inr h

/-- Every block the threaded function names exists. -/
theorem WellNamed.threadJumps (hf : WellNamed f) : WellNamed (threadJumps f) := by
  have hblocks := hf.length_threadJumps
  have hin := fun v b => hf.inBlock_threadJumps (v := v) (b := b)
  have htargets : ∀ (b : ℕ) blk, (Badc.threadJumps f).blocks[b]? = some blk →
      TargetsExist (Badc.threadJumps f) blk.terminator := by
    intro b blk' hblk'
    rw [hf.getElem?_threadJumps] at hblk'
    obtain ⟨blk, hblk, rfl⟩ := Option.map_eq_some_iff.mp hblk'
    have hexist := hf.targets b blk hblk
    have htables : (Badc.threadJumps f).jumpTables = f.jumpTables := by rw [hf.threadJumps_eq]
    unfold threadedBlock
    revert hexist
    cases blk.terminator with
    | jmp t | fallThrough t =>
      intro hexist
      exact (hf.threadTarget_lt hexist).trans_eq hblocks.symm
    | bz cond t e | bnz cond t e =>
      intro hexist
      exact ⟨hblocks ▸ hf.threadTarget_lt hexist.1, hblocks ▸ hf.threadTarget_lt hexist.2⟩
    | jumpTable idx table | asmGoto table =>
      rintro ⟨row, hrow, hall⟩
      exact ⟨row, by rw [htables]; exact hrow, fun t ht => hblocks ▸ hall t ht⟩
    | _ => exact fun _ => trivial
  have hinsts : (Badc.threadJumps f).insts = f.insts := by rw [hf.threadJumps_eq]
  refine
    { count := hblocks ▸ hf.count
      addresses := ?_
      incomes := ?_
      rows := ?_
      labels := ?_
      scopes := ?_
      nonempty := hblocks ▸ hf.nonempty
      range := ?_
      disjoint := fun v b c hb hc => hf.disjoint v b c ((hin v b).mp hb) ((hin v c).mp hc)
      held := ?_
      targets := htargets
      gotoTargets := ?_ }
  · intro v t h
    rw [hinsts] at h
    exact hblocks ▸ hf.addresses v t h
  · intro v incoming kind h q hq
    rw [hinsts] at h
    exact hblocks ▸ hf.incomes v incoming kind h q hq
  · rw [hblocks, hf.threadJumps_eq]
    exact hf.rows
  · rw [hblocks, hf.threadJumps_eq]
    exact hf.labels
  · rw [hblocks, hf.threadJumps_eq]
    exact hf.scopes
  · intro b blk' hblk'
    rw [hf.getElem?_threadJumps] at hblk'
    obtain ⟨blk, hblk, rfl⟩ := Option.map_eq_some_iff.mp hblk'
    rw [hinsts]
    exact hf.range b blk hblk
  · intro v t h
    rw [hinsts] at h
    obtain ⟨b, hb⟩ := hf.held v t h
    exact ⟨b, (hin v b).mpr hb⟩
  · rw [hblocks, hf.threadJumps_eq]
    exact hf.gotoTargets

/-- A block that stays with a block after threading. -/
lemma WellNamed.aliveWith_threadJumps (hf : WellNamed f) {b t : ℕ} (h : t ∈ aliveWith f b) :
    t ∈ aliveWith (Badc.threadJumps f) b ∨ threadTarget f t ∈ aliveWith (Badc.threadJumps f) b := by
  obtain ⟨blk, hblk, hcase⟩ := mem_aliveWith.mp h
  have hblk' : (Badc.threadJumps f).blocks[b]? = some (threadedBlock f blk) := by
    rw [hf.getElem?_threadJumps, hblk]
    rfl
  have htables : (Badc.threadJumps f).jumpTables = f.jumpTables := by rw [hf.threadJumps_eq]
  have hinsts : (Badc.threadJumps f).insts = f.insts := by rw [hf.threadJumps_eq]
  rcases hcase with ht | ⟨v, hv, hinst⟩
  · rcases targets_mapBlocks (T := threadTarget f) ht with ht | ht
    · exact Or.inr (mem_aliveWith.mpr ⟨_, hblk', Or.inl (htables ▸ ht)⟩)
    · exact Or.inl (mem_aliveWith.mpr ⟨_, hblk', Or.inl (htables ▸ ht)⟩)
  · exact Or.inl (mem_aliveWith.mpr ⟨_, hblk',
      Or.inr ⟨v, hf.inBlock_threadJumps.mpr hv, hinsts ▸ hinst⟩⟩)

lemma WellNamed.live_lt (hf : WellNamed f) {b : ℕ} (h : Live f b) : b < f.blocks.length := by
  cases h with
  | entry => exact hf.nonempty
  | root ht => exact hf.pruneRoots_lt ht
  | step _ ht => exact hf.aliveWith_lt ht

/-- After threading, the block a live block hands its edges on to is live. -/
lemma WellNamed.live_threadTarget (hf : WellNamed f) {b : ℕ} (hb : b < f.blocks.length)
    (h : Live (Badc.threadJumps f) b) : Live (Badc.threadJumps f) (threadTarget f b) := by
  by_cases hne : threadTarget f b = b
  · rw [hne]
    exact h
  · obtain ⟨-, -, -, u, -, hu, hcase⟩ := hf.threadTarget_hop hb hne
    have hsame : threadTarget f u = threadTarget f b := by
      rcases hcase with rfl | hcase
      · exact hf.threadTarget_idem hb
      · exact hcase.1
    obtain ⟨-, hterm, -⟩ := hop_eq_some.mp hu
    have hblk := List.getElem?_eq_getElem hb
    rw [List.getD_eq_getElem?_getD, hblk, Option.getD_some] at hterm
    refine h.step (mem_aliveWith.mpr ⟨threadedBlock f f.blocks[b], ?_, Or.inl ?_⟩)
    · rw [hf.getElem?_threadJumps, hblk]
      rfl
    · rw [← hsame, threadedBlock]
      cases hjmp : f.blocks[b].terminator with
      | jmp t | fallThrough t =>
        rw [hjmp] at hterm
        obtain rfl := Option.some.inj hterm
        simp [Terminator.mapBlocks, Terminator.targets]
      | _ =>
        rw [hjmp] at hterm
        cases hterm

lemma not_blockAddr_of_isEmpty {b v t : ℕ} (h : blockIsEmpty f b = true) (hv : InBlock f v b) :
    f.insts[v]? ≠ some (.blockAddr t) := by
  intro hinst
  obtain ⟨blk, hblk, hrange⟩ := hv
  rw [blockIsEmpty, List.getD_eq_getElem?_getD, hblk, Option.getD_some] at h
  have := List.all_eq_true.mp h v (InstRange.mem_toList.mpr hrange)
  rw [hinst] at this
  cases this

/-- What is live before threading is live after it, a bypassed block by its chain's end. -/
lemma WellNamed.live_threadJumps (hf : WellNamed f) {b : ℕ} (h : Live f b) :
    Live (Badc.threadJumps f) (threadTarget f b) := by
  induction h with
  | entry => exact hf.live_threadTarget hf.nonempty .entry
  | root ht =>
    refine hf.live_threadTarget (hf.pruneRoots_lt ht) (.root ?_)
    rw [hf.threadJumps_eq]
    exact ht
  | @step b t hb ht ih =>
    have hlt := hf.live_lt hb
    have htlt := hf.aliveWith_lt ht
    by_cases hne : threadTarget f b = b
    · rw [hne] at ih
      rcases hf.aliveWith_threadJumps ht with ht' | ht'
      · exact hf.live_threadTarget htlt (ih.step ht')
      · exact ih.step ht'
    · -- A bypassed block only jumps on, to the end of its chain or to a block bypassed with it.
      obtain ⟨-, -, -, u, -, hu, hcase⟩ := hf.threadTarget_hop hlt hne
      obtain ⟨hempty, hterm, -⟩ := hop_eq_some.mp hu
      have hblk := List.getElem?_eq_getElem hlt
      rw [List.getD_eq_getElem?_getD, hblk, Option.getD_some] at hterm
      obtain ⟨blk, hblk', hmem | ⟨v, hv, hinst⟩⟩ := mem_aliveWith.mp ht
      · obtain rfl := Option.some.inj (hblk.symm.trans hblk')
        rw [uncondTarget_mem hterm, List.mem_singleton] at hmem
        subst hmem
        rcases hcase with heq | hcase
        · rw [heq, hf.threadTarget_idem hlt]
          exact ih
        · rw [hcase.1]
          exact ih
      · exact absurd hinst (not_blockAddr_of_isEmpty hempty hv)

/-- A block whose address exists before threading has one after it. -/
lemma WellNamed.addressTaken_threadJumps (hf : WellNamed f) {t : ℕ} (h : AddressTaken f t) :
    AddressTaken (Badc.threadJumps f) t := by
  rcases h with h | ⟨b, v, hb, hv, hinst⟩
  · refine Or.inl ?_
    rw [hf.threadJumps_eq]
    exact h
  · refine Or.inr ⟨b, v, ?_, hf.inBlock_threadJumps.mpr hv, ?_⟩
    · have hstay : threadTarget f b = b := by
        by_contra hne
        obtain ⟨-, -, -, u, -, hu, -⟩ := hf.threadTarget_hop (hf.live_lt hb) hne
        exact not_blockAddr_of_isEmpty (hop_eq_some.mp hu).1 hv hinst
      exact hstay ▸ hf.live_threadJumps hb
    · rw [hf.threadJumps_eq]
      exact hinst

/-! ## Runs -/

variable {m : Machine}

/-- A block without phis takes the registers as they are. -/
lemma enterRegs_of_not_hasPhis {p b : ℕ} {blk : Block} {regs : Regs}
    (hblk : f.blocks[b]? = some blk) (h : blockHasPhis f b = false) :
    enterRegs f p blk regs = regs := by
  funext v
  unfold enterRegs
  split
  · rename_i hv
    rw [blockHasPhis, List.getD_eq_getElem?_getD, hblk, Option.getD_some, List.any_eq_false] at h
    have hno := h v (InstRange.mem_toList.mpr hv)
    cases hinst : f.insts[v]? with
    | none => rfl
    | some inst =>
      rw [hinst, Option.any_some] at hno
      cases inst with
      | phi incoming kind => exact absurd rfl hno
      | _ => rfl
  · rfl

/-- Where the threaded terminator branches, when the terminator branches to `t`. -/
lemma WellNamed.branchTo_threadJumps (hf : WellNamed f) {s : State m.Ext} {term : Terminator} :
    (∀ t, m.branchTo f s term = some t →
      m.branchTo (Badc.threadJumps f) s (term.mapBlocks (threadTarget f)) = some t ∨
        m.branchTo (Badc.threadJumps f) s (term.mapBlocks (threadTarget f)) =
          some (threadTarget f t)) ∧
      (m.branchTo f s term = none →
        m.branchTo (Badc.threadJumps f) s (term.mapBlocks (threadTarget f)) = none) := by
  have htest : ∀ regs cond, Machine.testWord (Badc.threadJumps f) s.block regs cond =
      Machine.testWord f s.block regs cond := by
    intro regs cond
    rw [hf.threadJumps_eq]
    rfl
  cases term with
  | jmp u | fallThrough u =>
    refine ⟨fun t ht => Or.inr ?_, fun h => by cases h⟩
    obtain rfl := Option.some.inj ht
    rfl
  | bz cond u e | bnz cond u e =>
    simp only [Machine.branchTo, Terminator.mapBlocks, htest]
    refine ⟨fun t ht => Or.inr ?_, fun h => by simpa using h⟩
    obtain ⟨c, hc, rfl⟩ := Option.map_eq_some_iff.mp ht
    rw [hc, Option.map_some]
    split <;> rfl
  | _ =>
    have hsame : ∀ term', m.branchTo (Badc.threadJumps f) s term' =
        m.branchTo { f with blocks := f.blocks.map (threadedBlock f) } s term' := by
      intro term'
      rw [hf.threadJumps_eq]
    refine ⟨fun t ht => Or.inl ((hsame _).trans ht), fun h => (hsame _).trans h⟩

/-- The threaded function stands where the function stands, or waits at the end of the chain of
bypassed blocks the function is in. -/
def ThreadedAt (f : FunctionSsa) (i : ℕ ×ₗ ℕ) (s s' : State m.Ext) : Prop :=
  ∃ blk, f.blocks[s.block]? = some blk ∧ blk.instRange.start ≤ s.pc ∧
    (s' = s ∨ ∃ k p e blk', threadTarget f s.block ≠ s.block ∧
      Chain (hop f) (k + 1) s.block p e ∧ f.blocks[threadTarget f s.block]? = some blk' ∧
      i = toLex (k + 1, blk.instRange.stop - s.pc) ∧
      s' = ⟨threadTarget f s.block, blk'.instRange.start, s.regs, s.world⟩)

/-- Entering a block: the threaded function enters it too, or the end of its chain. -/
lemma WellNamed.enter_threadJumps (hf : WellNamed f) {s : State m.Ext} {t t' : ℕ} {blk : Block}
    (hblk : f.blocks[t]? = some blk) (ht' : t' = t ∨ t' = threadTarget f t) :
    ∃ i s', s.goTo (Badc.threadJumps f) t' = some s' ∧
      ThreadedAt f i ⟨t, blk.instRange.start, enterRegs f s.block blk s.regs, s.world⟩ s' := by
  have hlt : t < f.blocks.length := (List.getElem?_eq_some_iff.mp hblk).1
  have hgo : ∀ b blkb, f.blocks[b]? = some blkb → s.goTo (Badc.threadJumps f) b =
      some ⟨b, blkb.instRange.start, enterRegs f s.block blkb s.regs, s.world⟩ := by
    intro b blkb hblkb
    simp only [State.goTo, hf.getElem?_threadJumps, hblkb, Option.map_some]
    rw [hf.threadJumps_eq]
    rfl
  by_cases heq : t' = t
  · subst heq
    exact ⟨toLex (0, 0), _, hgo t' blk hblk, blk, hblk, le_rfl, Or.inl rfl⟩
  · obtain rfl := ht'.resolve_left heq
    obtain ⟨k, p, e, u, hc, hu, -⟩ := hf.threadTarget_hop hlt heq
    have hblk' := List.getElem?_eq_getElem (hf.threadTarget_lt hlt)
    refine ⟨_, _, hgo _ _ hblk', blk, hblk, le_rfl, Or.inr ⟨k, p, e, _, heq, hc, hblk', rfl, ?_⟩⟩
    rw [enterRegs_of_not_hasPhis hblk' ((hf.threadTarget_spec hlt).2 heq),
      enterRegs_of_not_hasPhis hblk (blockHasPhis_of_isEmpty (hop_eq_some.mp hu).1)]

/-- Leaving a block: the threaded function leaves it alike. -/
lemma WellNamed.leave_threadJumps (hf : WellNamed f) {s : State m.Ext} {blk : Block}
    (hblk : f.blocks[s.block]? = some blk) :
    match m.leave f s blk.terminator with
    | none => m.leave (Badc.threadJumps f) s (threadedBlock f blk).terminator = none
    | some (.returned v w) =>
        m.leave (Badc.threadJumps f) s (threadedBlock f blk).terminator = some (.returned v w)
    | some (.running t) => ∃ i t',
        m.leave (Badc.threadJumps f) s (threadedBlock f blk).terminator = some (.running t') ∧
        ThreadedAt f i t t' := by
  obtain ⟨hsome, hnone⟩ : (∀ t, m.branchTo f s blk.terminator = some t → _) ∧ _ :=
    hf.branchTo_threadJumps
  have hedge : ∀ t, m.branchTo f s blk.terminator = some t → t < f.blocks.length := by
    intro t ht
    have := FunctionSsa.graph_closed hf.gotoTargets hf.targets _ _ (Machine.branchTo_edge hblk ht)
    rwa [f.graph_size] at this
  -- What a branch does, whatever its condition.
  have hbranch : match (m.branchTo f s blk.terminator).bind fun b =>
        (s.goTo f b).map Status.running with
      | none => ((m.branchTo (Badc.threadJumps f) s
          (blk.terminator.mapBlocks (threadTarget f))).bind fun b =>
            (s.goTo (Badc.threadJumps f) b).map Status.running) = none
      | some (.returned v w) => ((m.branchTo (Badc.threadJumps f) s
          (blk.terminator.mapBlocks (threadTarget f))).bind fun b =>
            (s.goTo (Badc.threadJumps f) b).map Status.running) = some (.returned v w)
      | some (.running t) => ∃ i t', ((m.branchTo (Badc.threadJumps f) s
          (blk.terminator.mapBlocks (threadTarget f))).bind fun b =>
            (s.goTo (Badc.threadJumps f) b).map Status.running) = some (.running t') ∧
          ThreadedAt f i t t' := by
    cases hb : m.branchTo f s blk.terminator with
    | none => simp [hnone hb]
    | some t =>
      have hblkt := List.getElem?_eq_getElem (hedge t hb)
      simp only [Option.bind_some, State.goTo, hblkt, Option.map_some]
      obtain ⟨t', ht', hcase⟩ : ∃ t', m.branchTo (Badc.threadJumps f) s
          (blk.terminator.mapBlocks (threadTarget f)) = some t' ∧
          (t' = t ∨ t' = threadTarget f t) := by
        rcases hsome t hb with h | h
        · exact ⟨t, h, Or.inl rfl⟩
        · exact ⟨_, h, Or.inr rfl⟩
      obtain ⟨i, s', hs', hat⟩ := hf.enter_threadJumps (s := s) hblkt hcase
      refine ⟨i, s', ?_, hat⟩
      rw [ht', Option.bind_some]
      exact congrArg (Option.map Status.running) hs'
  unfold Machine.leave threadedBlock
  cases hterm : blk.terminator with
  | ret v =>
    simp only [Terminator.mapBlocks]
    split
    · rename_i h
      split at h
      · cases h
      · rename_i hv
        simp only [hv, if_false, h]
    · rename_i h
      exact h
    · rename_i h
      split at h
      · cases h
      · obtain ⟨x, -, hx⟩ := Option.map_eq_some_iff.mp h
        cases hx
  | tailExt binding =>
    simp only [Terminator.mapBlocks]
    split
    · rename_i h
      exact h
    · rename_i h
      exact h
    · rename_i h
      obtain ⟨x, -, hx⟩ := Option.map_eq_some_iff.mp h
      cases hx
  | _ =>
    rw [hterm] at hbranch
    exact hbranch

/-- A step where both functions stand in the same state. -/
lemma WellNamed.step_same (hf : WellNamed f) {s : State m.Ext} {blk : Block}
    (hblk : f.blocks[s.block]? = some blk) (hpc : blk.instRange.start ≤ s.pc) :
    match m.step f s with
    | none => m.step (Badc.threadJumps f) s = none
    | some (.returned v w) => m.step (Badc.threadJumps f) s = some (.returned v w)
    | some (.running t) => ∃ i t', m.step (Badc.threadJumps f) s = some (.running t') ∧
        ThreadedAt f i t t' := by
  have hblk' : (Badc.threadJumps f).blocks[s.block]? = some (threadedBlock f blk) := by
    rw [hf.getElem?_threadJumps, hblk]
    rfl
  have hinsts : (Badc.threadJumps f).insts = f.insts := by rw [hf.threadJumps_eq]
  have hexec : ∀ inst, m.exec (Badc.threadJumps f) s.pc s.regs s.world inst =
      m.exec f s.pc s.regs s.world inst := by
    intro inst
    rw [hf.threadJumps_eq]
    rfl
  unfold Machine.step
  simp only [hblk, hblk', hinsts, hexec]
  by_cases hlt : s.pc < blk.instRange.stop
  · have hlt' : s.pc < (threadedBlock f blk).instRange.stop := hlt
    simp only [hlt, hlt', if_true]
    cases hinst : f.insts[s.pc]? with
    | none => rfl
    | some inst =>
      simp only
      cases hx : m.exec f s.pc s.regs s.world inst with
      | none => rfl
      | some r => exact ⟨toLex (0, 0), _, rfl, blk, hblk, Nat.le_succ_of_le hpc, Or.inl rfl⟩
  · have hlt' : ¬ s.pc < (threadedBlock f blk).instRange.stop := hlt
    simp only [hlt, hlt', if_false]
    exact hf.leave_threadJumps hblk

lemma exec_lifetimeMarker {v : ℕ} {regs : Regs} {w : World m.Ext} {inst : Inst}
    (h : inst.isLifetimeMarker = true) : m.exec f v regs w inst = some (regs, w) := by
  cases inst with
  | lifetimeEnd off => rfl
  | _ => cases h

/-- A step inside a bypassed block is silent, and brings the run closer to where the threaded
function waits. -/
lemma WellNamed.step_bypassed (hf : WellNamed f) {s : State m.Ext} {blk blk' : Block} {k p e : ℕ}
    (hblk : f.blocks[s.block]? = some blk) (hpc : blk.instRange.start ≤ s.pc)
    (hne : threadTarget f s.block ≠ s.block) (hc : Chain (hop f) (k + 1) s.block p e)
    (hblk' : f.blocks[threadTarget f s.block]? = some blk') :
    ∃ t, m.step f s = some (.running t) ∧ m.event f s = none ∧
      ∃ j < toLex (k + 1, blk.instRange.stop - s.pc),
        ThreadedAt f j t ⟨threadTarget f s.block, blk'.instRange.start, s.regs, s.world⟩ := by
  have hb : s.block < f.blocks.length := (List.getElem?_eq_some_iff.mp hblk).1
  obtain ⟨-, -, -, u, -, hu, hcase⟩ := hf.threadTarget_hop hb hne
  obtain ⟨hempty, hterm, -⟩ := hop_eq_some.mp hu
  rw [List.getD_eq_getElem?_getD, hblk, Option.getD_some] at hterm
  by_cases hlt : s.pc < blk.instRange.stop
  · -- A marker, with the rest of the block still to go.
    have hlen : s.pc < f.insts.length := lt_of_lt_of_le hlt (hf.range s.block blk hblk).2
    have hinst := List.getElem?_eq_getElem hlen
    have hmarker : f.insts[s.pc].isLifetimeMarker = true := by
      rw [blockIsEmpty, List.getD_eq_getElem?_getD, hblk, Option.getD_some] at hempty
      have := List.all_eq_true.mp hempty s.pc (InstRange.mem_toList.mpr ⟨hpc, hlt⟩)
      rwa [hinst, Option.any_some] at this
    refine ⟨{ s with pc := s.pc + 1 }, ?_, ?_, toLex (k + 1, blk.instRange.stop - (s.pc + 1)), ?_,
      blk, hblk, Nat.le_succ_of_le hpc, Or.inr ⟨k, p, e, blk', hne, hc, hblk', rfl, rfl⟩⟩
    · simp only [Machine.step, hblk, hlt, if_true, hinst, exec_lifetimeMarker hmarker,
        Option.map_some]
    · simp only [Machine.event, hblk, hinst, hmarker, bind, Option.bind_some]
      simp
    · rw [Prod.Lex.toLex_lt_toLex]
      exact Or.inr ⟨rfl, by omega⟩
  · -- The jump to the next block of the chain.
    have hul := hf.hop_lt hu
    have hblku := List.getElem?_eq_getElem hul
    have hnophi : blockHasPhis f u = false := by
      rcases hcase with rfl | ⟨-, huu⟩
      · exact (hf.threadTarget_spec hb).2 hne
      · obtain ⟨_, _, _, _, _, hhop, _⟩ := hf.threadTarget_hop hul huu
        exact blockHasPhis_of_isEmpty (hop_eq_some.mp hhop).1
    have hgo : m.leave f s blk.terminator =
        some (.running ⟨u, f.blocks[u].instRange.start, s.regs, s.world⟩) := by
      have henter : enterRegs f s.block f.blocks[u] s.regs = s.regs :=
        enterRegs_of_not_hasPhis hblku hnophi
      cases hjmp : blk.terminator with
      | jmp t | fallThrough t =>
        rw [hjmp] at hterm
        obtain rfl := Option.some.inj hterm
        simp only [Machine.leave, Machine.branchTo, Option.bind_some, State.goTo, hblku,
          Option.map_some, henter]
      | _ =>
        rw [hjmp] at hterm
        cases hterm
    refine ⟨⟨u, f.blocks[u].instRange.start, s.regs, s.world⟩, ?_, ?_, ?_⟩
    · simp only [Machine.step, hblk, hlt, if_false, hgo]
    · simp only [Machine.event, hblk, hlt, bind, Option.bind_some, false_and, if_false]
      cases f.insts[s.pc]? <;> rfl
    · by_cases heq : u = threadTarget f s.block
      · refine ⟨toLex (k, 0), ?_, f.blocks[u], hblku, le_rfl, Or.inl ?_⟩
        · rw [Prod.Lex.toLex_lt_toLex]
          exact Or.inl (by omega)
        · subst heq
          rw [hblk', Option.some.injEq] at hblku
          rw [← hblku]
      · obtain ⟨hsame, huu⟩ := hcase.resolve_left heq
        obtain ⟨k', p', e', -, hcu, -, -⟩ := hf.threadTarget_hop hul huu
        obtain ⟨k'', p'', hk, hcu'⟩ := hc.tail hu
        have := (hcu.unique hcu').1
        refine ⟨toLex (k' + 1, f.blocks[u].instRange.stop - f.blocks[u].instRange.start), ?_,
          f.blocks[u], hblku, le_rfl, Or.inr ⟨k', p', e', blk', huu, hcu, ?_, rfl, ?_⟩⟩
        · rw [Prod.Lex.toLex_lt_toLex]
          exact Or.inl (by simp only; omega)
        · rw [hsame]
          exact hblk'
        · rw [hsame]

/-- The threaded function runs as the function does. -/
theorem WellNamed.thread_sameRuns (hf : WellNamed f) (w : World m.Ext) :
    SameRuns (m.move f) (m.move (Badc.threadJumps f)) (m.initial f w)
      (m.initial (Badc.threadJumps f) w) := by
  have hevent : ∀ s : State m.Ext, m.event (Badc.threadJumps f) s = m.event f s := by
    intro s
    simp only [Machine.event, hf.getElem?_threadJumps]
    rw [hf.threadJumps_eq]
    cases f.blocks[s.block]? <;> rfl
  have hsim : StutterSim (m.move f) (m.move (Badc.threadJumps f)) (ThreadedAt (m := m) f) := by
    refine ⟨?_, ?_, ?_⟩
    · rintro i s s' ev t ⟨blk, hblk, hpc, hat⟩ hmove
      obtain ⟨hstep, rfl⟩ := Machine.move_eq_step.mp hmove
      rcases hat with rfl | ⟨k, p, e, blk', hne, hc, hblk', rfl, rfl⟩
      · have hsame := hf.step_same (m := m) hblk hpc
        rw [hstep] at hsame
        obtain ⟨j, t', ht', hj⟩ := hsame
        exact Or.inl ⟨j, t', Machine.move_eq_step.mpr ⟨ht', hevent s'⟩, hj⟩
      · obtain ⟨t₁, ht₁, hnone, j, hj, hat⟩ := hf.step_bypassed (m := m) hblk hpc hne hc hblk'
        rw [hstep] at ht₁
        obtain rfl := Status.running.inj (Option.some.inj ht₁)
        exact Or.inr ⟨hnone, j, hj, hat⟩
    · rintro i s s' r ⟨blk, hblk, hpc, hat⟩ hmove
      have hstep := Machine.move_eq_stop.mp hmove
      rcases hat with rfl | ⟨k, p, e, blk', hne, hc, hblk', rfl, rfl⟩
      · have hsame := hf.step_same (m := m) hblk hpc
        rw [hstep] at hsame
        exact Machine.move_eq_stop.mpr hsame
      · obtain ⟨t₁, ht₁, -⟩ := hf.step_bypassed (m := m) hblk hpc hne hc hblk'
        rw [hstep] at ht₁
        cases ht₁
    · rintro i s s' ⟨blk, hblk, hpc, hat⟩ hmove
      have hstep := Machine.move_eq_stuck.mp hmove
      rcases hat with rfl | ⟨k, p, e, blk', hne, hc, hblk', rfl, rfl⟩
      · have hsame := hf.step_same (m := m) hblk hpc
        rw [hstep] at hsame
        exact Machine.move_eq_stuck.mpr hsame
      · obtain ⟨t₁, ht₁, -⟩ := hf.step_bypassed (m := m) hblk hpc hne hc hblk'
        rw [hstep] at ht₁
        cases ht₁
  have hblk := List.getElem?_eq_getElem hf.nonempty
  have hinit : m.initial (Badc.threadJumps f) w = m.initial f w := by
    simp only [Machine.initial, hf.getElem?_threadJumps, hblk, Option.map_some]
    rfl
  rw [hinit]
  exact hsim.sameRuns (i := toLex (0, 0)) ⟨_, hblk, by simp [Machine.initial, hblk], Or.inl rfl⟩

end

end Badc
