import Badc.Passes.ValueRange.Shape
import Badc.Ssa.DomOrder

/-!
# Branch bounds in force

`Guards` of `src/c5/codegen/passes/value_range.rs`: a block entered over one conditional edge only
puts the bounds of that edge in force in every block it dominates, told by entry and exit stamps
of the dominator tree.

`Reaches.has_narrow` says that in every state of a run, narrowing a range of a held value by the
guards of its block keeps the value; `Reaches.has_narrow_edge` says so of the block the run is
about to enter.
-/

namespace Badc

/-! ## The bounds of an edge hold -/

section EdgeBounds

variable {f : FunctionSsa}

/-- No register comparison a branch tests reads a signed remainder in the 32-bit form whole. -/
def RemsCompareNarrow (f : FunctionSsa) (cond : ℕ) : Prop :=
  ∀ op lhs rhs, f.insts[cond]? = some (.binop op lhs rhs) → (comparison op).isSome →
    isCmp32 f cond = false → ¬ IsNarrowRem f lhs ∧ ¬ IsNarrowRem f rhs

lemma applyBinop_swapped {op : BinOp} (hop : (comparison op).isSome) (x y : Word) :
    applyBinop (swapped op) y x = applyBinop op x y := by
  cases op with
  | eq | ne => simp only [swapped, applyBinop, eq_comm, ne_eq]
  | lt | gt | le | ge | ult | ugt | ule | uge => rfl
  | _ => cases hop

namespace Machine

variable {m : Machine} {w : World m.Ext} {s : State m.Ext}

/-- An integer comparison compares its operands at its width. -/
lemma binop_of_comparison {v : ℕ} {op : BinOp} {x y z : Word} (hop : (comparison op).isSome)
    (h : m.binop f v op x y = some z) :
    applyBinop op ((widthOf f v op).read x) ((widthOf f v op).read y) = some z := by
  have hfp : isFpOp op = false := by cases op <;> first | rfl | cases hop
  have hdiv : isDivmodOp op = false := by cases op <;> first | rfl | cases hop
  have hcmp : isIntComparisonOp op = true := by cases op <;> first | rfl | cases hop
  have htrap : ∀ a b c, m.divTraps op a b c = false := by
    intro a b c
    have h1 : op ≠ .div := by rintro rfl; cases hop
    have h2 : op ≠ .mod := by rintro rfl; cases hop
    simp [divTraps, h1, h2]
  simp only [binop, hfp, hdiv, hcmp, htrap, Bool.false_and, Bool.true_and, Bool.false_eq_true,
    if_false] at h
  unfold widthOf
  cases hc : isCmp32 f v with
  | false =>
    rw [hc, if_neg (by decide)] at h
    exact h
  | true =>
    rw [hc, if_pos rfl] at h
    have h := (applyBinop_of_foldBinop h).2
    cases op with
    | eq | ne | lt | gt | le | ge | ult | ugt | ule | uge => exact h
    | _ => cases hop

/-- A bound on a canonical id is met in a state: by a held value of that id, or by the extension
the id stands for of a held value. -/
def Bounded (f : FunctionSsa) (s : State m.Ext) (c : ℕ) (b : Bound) : Prop :=
  ∃ v x, Held f s.block s.pc v ∧ s.regs v = some (.word x) ∧
    ((valueNumbers f).of v = c ∧ b.Sat x ∨ ∃ signed : Bool,
      (valueNumbers f).extensionOf v signed = some c ∧ b.Sat (if signed then sext32 x else zext32 x))

/-- The bounds a settled comparison puts on one side are met. -/
lemma Reaches.bounded_sideBounds (hf : Verified f) (h : m.Reaches f w s)
    {blk : Block} (hblk : f.blocks[s.block]? = some blk) {width : Width} {holds : Bool} {v : ℕ}
    {op : BinOp} {other : Range} {x y : Word} (hv : Held f s.block s.pc v)
    (hx : s.regs v = some (.word x)) (hy : (readAt width other).Has (width.read y))
    (hcmp : applyBinop op (width.read x) (width.read y) = some (boolWord holds))
    {c : ℕ} {b : Bound} (hb : (c, b) ∈ sideBounds f (valueNumbers f) width holds v op other) :
    Bounded f s c b := by
  unfold sideBounds at hb
  rcases List.mem_cons.mp hb with hb | hb
  · obtain ⟨rfl, rfl⟩ := Prod.mk.inj hb
    exact ⟨v, x, hv, hx, Or.inl ⟨rfl, _, hy, hcmp⟩⟩
  · cases width with
    | full =>
      cases hinst : f.insts[v]? with
      | none => simp [hinst] at hb
      | some inst =>
        cases inst with
        | extend value kind nsw =>
          cases kind with
          | i32 =>
            simp only [hinst, List.mem_singleton] at hb
            obtain ⟨rfl, rfl⟩ := Prod.mk.inj hb
            obtain ⟨x', hx', hxe⟩ := h.pure_eq hf hblk hv hinst rfl
            obtain ⟨a, ha, rfl⟩ := Option.map_eq_some_iff.mp hxe
            obtain ⟨hheld, hra⟩ := h.held_word hf hblk hv hinst rfl (by simp [Inst.operands]) ha
            rw [hx] at hx'
            obtain rfl := Val.word.inj (Option.some.inj hx')
            exact ⟨value, a, hheld, hra, Or.inl ⟨rfl, _, hy, hcmp⟩⟩
          | _ => simp [hinst] at hb
        | _ => simp [hinst] at hb
    | sext32 =>
      obtain ⟨e, he, heq⟩ : ∃ e, (valueNumbers f).extensionOf v true = some e ∧
          (e, ({ op, k := readAt .sext32 other, holds, width := .full } : Bound)) = (c, b) := by
        simpa [Option.mem_toList] using hb
      obtain ⟨rfl, rfl⟩ := Prod.mk.inj heq
      exact ⟨v, x, hv, hx, Or.inr ⟨true, he, _, hy, hcmp⟩⟩
    | zext32 =>
      obtain ⟨e, he, heq⟩ : ∃ e, (valueNumbers f).extensionOf v false = some e ∧
          (e, ({ op, k := readAt .zext32 other, holds, width := .full } : Bound)) = (c, b) := by
        simpa [Option.mem_toList] using hb
      obtain ⟨rfl, rfl⟩ := Prod.mk.inj heq
      exact ⟨v, x, hv, hx, Or.inr ⟨false, he, _, hy, hcmp⟩⟩

/-- On an edge where the condition has the given truth, the bounds of the edge are met. -/
theorem Reaches.bounded_edgeBounds (hf : Verified f) (himm : ImmsFit f) {params : List Range} (hpar : m.ParamsIn params) (h : m.Reaches f w s) {blk : Block}
    (hblk : f.blocks[s.block]? = some blk) {cond : ℕ} {xc : Word}
    (hcond : Held f s.block s.pc cond) (hxc : s.regs cond = some (.word xc))
    (hrem : RemsCompareNarrow f cond) {c : ℕ} {b : Bound}
    (hb : (c, b) ∈ edgeBounds f (valueNumbers f) params cond (decide (xc ≠ 0))) :
    Bounded f s c b := by
  unfold edgeBounds at hb
  rcases List.mem_cons.mp hb with hb | hb
  · obtain ⟨rfl, rfl⟩ := Prod.mk.inj hb
    exact ⟨cond, xc, hcond, hxc, Or.inl ⟨rfl, 0, Range.has_exact 0, rfl⟩⟩
  · -- The comparison's result is the truth the edge has.
    have htruth : ∀ {op : BinOp} {x y : Word}, (comparison op).isSome →
        applyBinop op x y = some xc → applyBinop op x y = some (boolWord (decide (xc ≠ 0))) := by
      intro op x y hop hxy
      rw [hxy]
      have hbool : ∃ t, xc = boolWord t := by
        cases op with
        | eq | ne | lt | gt | le | ge | ult | ugt | ule | uge =>
          exact ⟨_, (Option.some.inj hxy).symm⟩
        | _ => cases hop
      obtain ⟨t, rfl⟩ := hbool
      cases t <;> rfl
    cases hinst : f.insts[cond]? with
    | none => simp [hinst] at hb
    | some inst =>
      cases inst with
      | binopI op lhs k =>
        simp only [hinst] at hb
        split at hb
        · rename_i hop
          obtain ⟨a, ⟨hl, hra⟩, hxe⟩ := h.binopI_eq hf hblk hcond hinst hxc
          exact h.bounded_sideBounds hf hblk hl hra (has_readAt (Range.has_exact k))
            (htruth hop (binop_of_comparison hop hxe)) hb
        · cases hb
      | binop op lhs rhs =>
        simp only [hinst] at hb
        split at hb
        · rename_i hop
          obtain ⟨a, a', ⟨hl, hra⟩, ⟨hr, hra'⟩, hxe⟩ := h.binop_eq hf hblk hcond hinst hxc
          have hcmp := htruth hop (binop_of_comparison hop hxe)
          have hfull : widthOf f cond op = .full → isCmp32 f cond = false := by
            unfold widthOf
            cases isCmp32 f cond with
            | false => exact fun _ => rfl
            | true =>
              simp only [Bool.not_true, Bool.false_eq_true, if_false]
              split <;> exact fun h => nomatch h
          rcases List.mem_append.mp hb with hb | hb
          · refine h.bounded_sideBounds hf hblk hl hra ?_ hcmp hb
            exact h.has_readAt_shapeRange hf himm hpar hr hra' fun hw =>
              (hrem op lhs rhs hinst hop (hfull hw)).2
          · rw [← applyBinop_swapped hop] at hcmp
            refine h.bounded_sideBounds hf hblk hr hra' ?_ hcmp hb
            exact h.has_readAt_shapeRange hf himm hpar hl hra fun hw =>
              (hrem op lhs rhs hinst hop (hfull hw)).1
        · cases hb
      | _ => simp [hinst] at hb

/-- A held value of a number with a bound that is met satisfies the bound. -/
lemma Reaches.sat_of_bounded (hf : Verified f) (hmarks : DivMarksAgree f) (h : m.Reaches f w s)
    {blk : Block} (hblk : f.blocks[s.block]? = some blk) {b : Bound} {u : ℕ} {z : Word}
    (hu : Held f s.block s.pc u) (hz : s.regs u = some (.word z))
    (hb : Bounded f s ((valueNumbers f).of u) b) : b.Sat z := by
  obtain ⟨v, x, hv, hx, ⟨hc, hsat⟩ | ⟨signed, hext, hsat⟩⟩ := hb
  · have := h.regs_eq_of_canon hf hmarks hu hv hc.symm
    rw [hz, hx] at this
    obtain rfl := Val.word.inj (Option.some.inj this)
    exact hsat
  · have hval := h.regs_of_extensionOf hf hmarks hblk hu hv hext hx
    rw [hz] at hval
    obtain rfl := Val.word.inj (Option.some.inj hval)
    exact hsat

end Machine

end EdgeBounds

/-! ## Guards -/

open TreeStamps

/-- `(cond, holds)` of the conditional edge `pred -> succ`. -/
def edgeCondition (f : FunctionSsa) (pred succ : ℕ) : Option (ℕ × Bool) :=
  match (f.blocks[pred]?).map Block.terminator with
  | some (.bz cond target fallThrough) =>
      if target ≠ fallThrough then some (cond, target ≠ succ) else none
  | some (.bnz cond target fallThrough) =>
      if target ≠ fallThrough then some (cond, target = succ) else none
  | _ => none

/-- The predecessor over whose edge alone `b` is entered. -/
def solePred (f : FunctionSsa) (b : ℕ) : Option ℕ :=
  match f.predecessors b with
  | [p] => if b ≠ 0 then some p else none
  | _ => none

/-- Dominator-tree entry and exit stamps per block, no entry stamp off the tree. -/
def domStamps (f : FunctionSsa) : Stamps :=
  let n := f.blocks.length
  let children := domChildren f.graph.dominatorsOf n
  whileSome (step children false id) (DomOrder.fuel children n)
    { stack := if 0 < n then [(0, false)] else [] }

/-- The stamp of a block off the tree, `u32::MAX`. -/
def offTree : ℕ := 4294967295

/-- The branch bounds in force per block. -/
structure Guards where
  /-- Per canonical value: the block the bound holds from, and the bound. -/
  on : ℕ → List (ℕ × Bound)
  tin : ℕ → ℕ
  tout : ℕ → ℕ
  size : ℕ

/-- Bounds kept per value; the ones past it are not applied. -/
def maxGuards : ℕ := 16

namespace Guards

/-- Put a bound in force from a block on. -/
def push (b : ℕ) (on : ℕ → List (ℕ × Bound)) (e : ℕ × Bound) : ℕ → List (ℕ × Bound) :=
  if (on e.1).length < maxGuards then Function.update on e.1 (on e.1 ++ [(b, e.2)]) else on

/-- The bounds a block puts in force. -/
def ofBlock (f : FunctionSsa) (numbers : Numbering) (params : List Range) (tin : ℕ → ℕ) (b : ℕ) :
    List (ℕ × Bound) :=
  match solePred f b with
  | none => []
  | some p =>
    if tin b = offTree then []
    else match edgeCondition f p b with
      | none => []
      | some (cond, holds) => edgeBounds f numbers params cond holds

/-- The guards of a function. -/
def new (f : FunctionSsa) (numbers : Numbering) (params : List Range) : Guards :=
  let s := domStamps f
  let tin := fun b => (s.tin b).getD offTree
  { on := (List.range f.blocks.length).foldl
      (fun on b => (ofBlock f numbers params tin b).foldl (push b) on) fun _ => []
    tin
    tout := s.tout
    size := f.blocks.length }

/-- `r`, the range of canonical value `c`, as a reader in block `b` sees it. -/
def narrow (g : Guards) (b c : ℕ) (r : Range) : Range :=
  if b < g.size then
    (g.on c).foldl (fun r e =>
      if g.tin e.1 ≤ g.tin b ∧ g.tout b ≤ g.tout e.1 then e.2.narrow r else r) r
  else r

end Guards

/-! ## The stamps tell dominance -/

/-- On the tree of a verified function, an interval inside another is dominated. -/
theorem dom_of_domStamps {f : FunctionSsa} (hf : Verified f) {a b : ℕ} (hb : f.graph.Reach b)
    (ha : ((domStamps f).tin a).isSome)
    (hin : ((domStamps f).tin a).getD offTree ≤ ((domStamps f).tin b).getD offTree)
    (hout : (domStamps f).tout b ≤ (domStamps f).tout a) : f.graph.Dom a b := by
  have hclosed := FunctionSsa.graph_closed hf.gotoTargets hf.targets
  have hpos : 0 < f.blocks.length := by
    by_contra h0
    have : (domStamps f).tin a = none := by
      simp only [domStamps, h0, if_false]
      rw [whileSome_of_none rfl]
    simp [this] at ha
  have hsize : 0 < f.graph.size := by rwa [f.graph_size]
  obtain ⟨htree, hreach, hdom⟩ := SuccGraph.dominatorsOf_spec hclosed hsize
  have hlt : ∀ c, (f.graph.dominatorsOf c).isSome → c < f.blocks.length := fun c hc => by
    have := ((hreach c).mp hc).lt_size hclosed hsize
    rwa [f.graph_size] at this
  have hforest := domChildren_forest (n := f.blocks.length) htree
  have hdesc : ∀ c, f.graph.Reach c → Desc (domChildren f.graph.dominatorsOf f.blocks.length) 0 c :=
    fun c hc => (desc_domChildren_iff hlt).mpr (htree.zero_anc ((hreach c).mpr hc))
  -- The walk over the tree of the entry ends with its intervals laid out.
  obtain ⟨k, s, hrounds, hstack, hleft, hwalk⟩ :
      ∃ k s', Rounds (step (domChildren f.graph.dominatorsOf f.blocks.length) false id) k
        { stack := [(0, false)] } s' ∧ s'.stack = [] ∧
        k + roundsLeft (domChildren f.graph.dominatorsOf f.blocks.length) f.blocks.length s' ≤
          roundsLeft (domChildren f.graph.dominatorsOf f.blocks.length) f.blocks.length
            { stack := [(0, false)] } ∧
        Walked (domChildren f.graph.dominatorsOf f.blocks.length) id
          (Desc (domChildren f.graph.dominatorsOf f.blocks.length) 0)
          { stack := [(0, false)] } s' := by
    refine visit_laid hforest (fun _ _ => rfl) 0 _ [] rfl fun d hd => ⟨?_, rfl⟩
    cases hd with
    | refl => exact hpos
    | down _ hm => exact (mem_domChildren.mp hm).1
  have hs : domStamps f = s := by
    simp only [domStamps, hpos, if_true]
    refine hrounds.whileSome_eq (by simp [step, hstack]) ?_
    have : roundsLeft (domChildren f.graph.dominatorsOf f.blocks.length) f.blocks.length
        { stack := [(0, false)] } ≤
        DomOrder.fuel (domChildren f.graph.dominatorsOf f.blocks.length) f.blocks.length := by
      unfold roundsLeft DomOrder.fuel
      exact Nat.add_le_add (Finset.sum_le_sum_of_subset (Finset.filter_subset _ _)) (by simp)
    omega
  rw [hs] at ha hin hout
  have had : Desc (domChildren f.graph.dominatorsOf f.blocks.length) 0 a := by
    by_contra hnot
    rw [(hwalk.frame a hnot).1] at ha
    cases ha
  obtain ⟨-, -, -, -, ha5⟩ := hwalk.laid a had
  obtain ⟨hbs, -, hb3, -, -⟩ := hwalk.laid b (hdesc b hb)
  obtain ⟨ta, hta⟩ := Option.isSome_iff_exists.mp ha
  obtain ⟨tb, htb⟩ := Option.isSome_iff_exists.mp hbs
  refine (hdom a b hb).mp ((desc_domChildren_iff hlt).mp ?_)
  by_contra hno
  have hcase := (ha5 b (hdesc b hb)).2 hno
  simp only [lo, hi, hta, htb, Option.getD_some, id] at hin hout hb3 hcase
  omega

/-! ## Guards hold -/

section Guarded

variable {f : FunctionSsa}

/-- A sole predecessor is the only source of an edge into its block. -/
lemma solePred_spec {b p : ℕ} (h : solePred f b = some p) :
    b ≠ 0 ∧ f.graph.Edge p b ∧ ∀ a, f.graph.Edge a b → a = p := by
  unfold solePred at h
  split at h
  · rename_i q hq
    obtain ⟨h0, hp⟩ := Option.ite_none_right_eq_some.mp h
    obtain rfl := Option.some.inj hp
    refine ⟨h0, SuccGraph.mem_predsOf.mp ?_, fun a ha => ?_⟩
    · change q ∈ f.predecessors b
      rw [hq]
      exact List.mem_singleton_self q
    · have : a ∈ f.predecessors b := SuccGraph.mem_predsOf.mpr ha
      rw [hq] at this
      exact List.mem_singleton.mp this
  · cases h

/-- The condition of a conditional edge is tested by a two-way branch of its source. -/
lemma edgeCondition_spec {p b cond : ℕ} {holds : Bool}
    (h : edgeCondition f p b = some (cond, holds)) :
    ∃ blk target other, f.blocks[p]? = some blk ∧ target ≠ other ∧
      (blk.terminator = .bz cond target other ∧ holds = decide (target ≠ b) ∨
        blk.terminator = .bnz cond target other ∧ holds = decide (target = b)) := by
  unfold edgeCondition at h
  split at h
  · rename_i target other hterm
    obtain ⟨blk, hblk, hbz⟩ := Option.map_eq_some_iff.mp hterm
    obtain ⟨hne, heq⟩ := Option.ite_none_right_eq_some.mp h
    obtain ⟨rfl, rfl⟩ := Prod.mk.inj (Option.some.inj heq)
    exact ⟨blk, target, other, hblk, hne, Or.inl ⟨hbz, rfl⟩⟩
  · rename_i target other hterm
    obtain ⟨blk, hblk, hbnz⟩ := Option.map_eq_some_iff.mp hterm
    obtain ⟨hne, heq⟩ := Option.ite_none_right_eq_some.mp h
    obtain ⟨rfl, rfl⟩ := Prod.mk.inj (Option.some.inj heq)
    exact ⟨blk, target, other, hblk, hne, Or.inr ⟨hbnz, rfl⟩⟩
  · cases h

/-- Every branch on a condition reads the whole register. -/
def FullTests (f : FunctionSsa) : Prop :=
  ∀ (b : ℕ) blk cond target other, f.blocks[b]? = some blk →
    blk.terminator = .bz cond target other ∨ blk.terminator = .bnz cond target other →
    isMarked f.lowWordTests b = false

/-- No register comparison a branch tests reads a signed remainder in the 32-bit form whole. -/
def RemTests (f : FunctionSsa) : Prop :=
  ∀ (b : ℕ) blk cond target other, f.blocks[b]? = some blk →
    blk.terminator = .bz cond target other ∨ blk.terminator = .bnz cond target other →
    RemsCompareNarrow f cond

/-- The condition of a block entered over one conditional edge is defined in a proper dominator
of every block it dominates. -/
lemma guard_defined (hf : Verified f) {b c p cond : ℕ} {holds : Bool}
    (hsole : solePred f b = some p) (hcond : edgeCondition f p b = some (cond, holds))
    (hne : cond ≠ noValue) (hbc : f.graph.Dom b c) :
    ∃ db, InBlock f cond db ∧ f.graph.Dom db c ∧ db ≠ c := by
  obtain ⟨h0, hedge, honly⟩ := solePred_spec hsole
  obtain ⟨blk, target, other, hblk, -, hterm⟩ := edgeCondition_spec hcond
  have hb := hbc.reach_left
  have hpb : f.graph.Dom p b := dom_sole_pred hb h0 fun a _ ha => honly a ha
  have hpne : p ≠ b := ne_of_sole_pred hb h0 fun a _ ha => honly a ha
  have hp := hpb.reach_left
  have hmem : cond ∈ blk.terminator.operands ++ [blk.exitAcc] := by
    rcases hterm with ⟨h, -⟩ | ⟨h, -⟩ <;> simp [h, Terminator.operands]
  obtain ⟨db, hin, -, hdom⟩ := hf.ends p blk hblk hp cond hmem hne
  have hdp : f.graph.Dom db p := by
    by_cases hdb : db = p
    · rw [hdb]
      exact Dom.refl hp
    · exact hdom hdb
  refine ⟨db, hin, (hdp.trans hpb).trans hbc, ?_⟩
  rintro rfl
  exact hpne (hpb.antisymm (hbc.trans hdp))

namespace Machine

variable {m : Machine} {w : World m.Ext} {s : State m.Ext}

/-- The edge a run takes out of a conditional branch has the truth of its condition. -/
lemma edgeCondition_truth (hfull : FullTests f) {blk : Block} {b cond : ℕ} {holds : Bool}
    (hblk : f.blocks[s.block]? = some blk) (hb : m.branchTo f s blk.terminator = some b)
    (hcond : edgeCondition f s.block b = some (cond, holds)) :
    ∃ x, s.regs.word cond = some x ∧ holds = decide (x ≠ 0) := by
  obtain ⟨blk', target, other, hblk', hne, hterm⟩ := edgeCondition_spec hcond
  obtain rfl := Option.some.inj (hblk.symm.trans hblk')
  rcases hterm with ⟨hterm, rfl⟩ | ⟨hterm, rfl⟩
  · have hmark := hfull s.block blk cond target other hblk (Or.inl hterm)
    rw [hterm] at hb
    obtain ⟨x, hx, rfl⟩ := branchTo_bz hmark hb
    refine ⟨x, hx, ?_⟩
    by_cases hx0 : x = 0 <;> simp [hx0, hne]
  · have hmark := hfull s.block blk cond target other hblk (Or.inr hterm)
    rw [hterm] at hb
    obtain ⟨x, hx, rfl⟩ := branchTo_bnz hmark hb
    refine ⟨x, hx, ?_⟩
    by_cases hx0 : x = 0 <;> simp [hx0, hne]

/-- In the blocks a conditional edge's target dominates, the condition keeps the truth of the
edge. -/
theorem Reaches.guard_truth (hf : Verified f) (hfull : FullTests f) (h : m.Reaches f w s)
    {b p cond : ℕ} {holds : Bool} (hsole : solePred f b = some p)
    (hcond : edgeCondition f p b = some (cond, holds)) (hdom : f.graph.Dom b s.block) :
    cond ≠ noValue ∧ ∃ x, s.regs cond = some (.word x) ∧ holds = decide (x ≠ 0) := by
  obtain ⟨h0, -, honly⟩ := solePred_spec hsole
  induction h with
  | initial => exact absurd (hdom.antisymm (dom_entry hdom.reach_left)) h0
  | step hs hstep ih =>
    rename_i s₀ s'
    obtain ⟨blk, hblk, ⟨hlt, inst, r, hinst, hr, rfl⟩ | ⟨hge, c, blk', hc, hblk', rfl⟩⟩ :=
      step_cases hstep
    · obtain ⟨hne, x, hx, htruth⟩ := ih hdom
      have hpc : InBlock f s₀.pc s₀.block := ⟨blk, hblk, (hs.placed hf hblk).2.1, hlt⟩
      obtain ⟨db, hin, -, hdb⟩ := guard_defined hf hsole hcond hne hdom
      obtain ⟨y, hy⟩ := exec_regs hr
      refine ⟨hne, x, ?_, htruth⟩
      dsimp only
      rw [hy, Regs.set_of_ne, hx]
      rintro rfl
      exact hdb (hf.disjoint _ _ _ hin hpc)
    · have hreach := (hs.placed hf hblk).1
      have hedge := branchTo_edge hblk hc
      dsimp only at hdom
      -- Either the edge itself is taken, or its target dominates the block left as well.
      have hpre : cond ≠ noValue ∧
          ∃ x, s₀.regs cond = some (.word x) ∧ holds = decide (x ≠ 0) := by
        by_cases hcb : b = c
        · subst hcb
          obtain rfl := honly _ hedge
          obtain ⟨x, hx, htruth⟩ := edgeCondition_truth hfull hblk hc hcond
          obtain ⟨hne, hreg⟩ := Regs.get_eq_some (Regs.word_eq_some.mp hx)
          exact ⟨hne, x, hreg, htruth⟩
        · exact ih (hdom.of_edge hcb hreach hedge)
      obtain ⟨hne, x, hx, htruth⟩ := hpre
      obtain ⟨db, hin, -, hdb⟩ := guard_defined hf hsole hcond hne hdom
      refine ⟨hne, x, ?_, htruth⟩
      dsimp only
      rw [enterRegs_of_notMem hblk', hx]
      intro hin'
      exact hdb (hf.disjoint _ _ _ hin hin')

end Machine

/-- Every guard is a bound of the edge its block is entered over. -/
lemma Guards.mem_on {numbers : Numbering} {params : List Range} {c : ℕ} {e : ℕ × Bound}
    (h : e ∈ (new f numbers params).on c) :
    ∃ p cond holds, solePred f e.1 = some p ∧ ((domStamps f).tin e.1).isSome ∧
      edgeCondition f p e.1 = some (cond, holds) ∧
      (c, e.2) ∈ edgeBounds f numbers params cond holds := by
  let tin := fun b => ((domStamps f).tin b).getD offTree
  let FromEdges := fun on : ℕ → List (ℕ × Bound) =>
    ∀ c, ∀ e ∈ on c, (c, e.2) ∈ ofBlock f numbers params tin e.1
  have hpush : ∀ b, ∀ l ⊆ ofBlock f numbers params tin b, ∀ on, FromEdges on →
      FromEdges (l.foldl (push b) on) := by
    intro b l hl on hon
    refine List.foldlRecOn l (push b) hon fun on hon x hx c e he => ?_
    unfold push at he
    split at he
    · by_cases hc : c = x.1
      · subst hc
        rw [Function.update_self] at he
        rcases List.mem_append.mp he with he | he
        · exact hon _ e he
        · obtain rfl := List.mem_singleton.mp he
          exact hl hx
      · rw [Function.update_of_ne hc] at he
        exact hon c e he
    · exact hon c e he
  have hall : FromEdges (new f numbers params).on := by
    refine List.foldlRecOn _ _ (fun c e he => nomatch he) fun on hon b _ => ?_
    exact hpush b _ (fun x hx => hx) on hon
  have he := hall c e h
  unfold ofBlock at he
  cases hsole : solePred f e.1 with
  | none => simp [hsole] at he
  | some p =>
    simp only [hsole] at he
    split at he
    · cases he
    · rename_i hoff
      cases hcond : edgeCondition f p e.1 with
      | none => simp [hcond] at he
      | some ch =>
        simp only [hcond] at he
        refine ⟨p, ch.1, ch.2, rfl, ?_, hcond, he⟩
        by_contra hnone
        rw [Option.not_isSome_iff_eq_none] at hnone
        exact hoff (by simp [tin, hnone])

/-- Narrowing by the guards takes values away only. -/
lemma Guards.narrow_contained (g : Guards) (b c : ℕ) (r : Range) :
    r.contains (g.narrow b c r) = true := by
  unfold narrow
  split
  · refine List.foldlRecOn (motive := fun r' => r.contains r' = true) _ _
      (Range.contains_iff.mpr ⟨le_rfl, le_rfl⟩) fun r' hr' e _ => ?_
    split
    · have h1 := Range.contains_iff.mp hr'
      have h2 := Range.contains_iff.mp (e.2.narrow_contained r')
      exact Range.contains_iff.mpr ⟨h1.1.trans h2.1, h2.2.trans h1.2⟩
    · exact hr'
  · exact Range.contains_iff.mpr ⟨le_rfl, le_rfl⟩

/-- The widths the bounds assume are those the machine reads: an immediate of a 32-bit quotient
stands as it is read, a division has the 32-bit marks of both tables or of none, a branch tests
its whole condition, and a compared 32-bit remainder is compared at that width. -/
structure WidthsAgree (f : FunctionSsa) : Prop where
  imms : ImmsFit f
  marks : DivMarksAgree f
  tests : FullTests f
  rems : RemTests f

namespace Machine

variable {m : Machine} {w : World m.Ext} {s : State m.Ext}

/-- In every state in which the condition of an edge is held with the edge's truth, the bounds of
the edge are met. -/
lemma Reaches.bounded_edge (hf : Verified f) (hfit : WidthsAgree f) {params : List Range}
    (hpar : m.ParamsIn params) (h : m.Reaches f w s) {blk : Block}
    (hblk : f.blocks[s.block]? = some blk) {p b cond : ℕ} {holds : Bool} {x : Word}
    (hedge : edgeCondition f p b = some (cond, holds)) (hcond : Held f s.block s.pc cond)
    (hx : s.regs cond = some (.word x)) (hholds : holds = decide (x ≠ 0)) {e : ℕ × Bound}
    (he : e ∈ edgeBounds f (valueNumbers f) params cond holds) : Bounded f s e.1 e.2 := by
  obtain ⟨blkp, target, other, hblkp, -, hterm⟩ := edgeCondition_spec hedge
  have hrem : RemsCompareNarrow f cond := by
    refine hfit.rems p blkp cond target other hblkp ?_
    exact hterm.imp And.left And.left
  subst hholds
  exact h.bounded_edgeBounds hf hfit.imms hpar hblk hcond hx hrem he

/-- There, a held value of a bounded number satisfies its bound. -/
lemma Reaches.edge_sat (hf : Verified f) (hfit : WidthsAgree f) {params : List Range}
    (hpar : m.ParamsIn params) (h : m.Reaches f w s) {blk : Block}
    (hblk : f.blocks[s.block]? = some blk) {p b cond : ℕ} {holds : Bool} {x : Word}
    (hedge : edgeCondition f p b = some (cond, holds)) (hcond : Held f s.block s.pc cond)
    (hx : s.regs cond = some (.word x)) (hholds : holds = decide (x ≠ 0)) {e : ℕ × Bound}
    (he : e ∈ edgeBounds f (valueNumbers f) params cond holds) {u : ℕ} {z : Word}
    (hu : Held f s.block s.pc u) (hc : e.1 = (valueNumbers f).of u)
    (hz : s.regs u = some (.word z)) : e.2.Sat z := by
  have hb := h.bounded_edge hf hfit hpar hblk hedge hcond hx hholds he
  rw [hc] at hb
  exact h.sat_of_bounded hf hfit.marks hblk hu hz hb

lemma Reaches.held_condition (hf : Verified f) (h : m.Reaches f w s) {blk : Block}
    (hblk : f.blocks[s.block]? = some blk) (hpc : blk.instRange.stop ≤ s.pc) {cond : ℕ} {x : Word}
    (hcond : cond ∈ blk.terminator.operands) (hx : s.regs.word cond = some x) :
    Held f s.block s.pc cond ∧ s.regs cond = some (.word x) := by
  obtain ⟨hne, hreg⟩ := Regs.get_eq_some (Regs.word_eq_some.mp hx)
  have := hf.ends s.block blk hblk (h.placed hf hblk).1 cond (List.mem_append_left _ hcond) hne
  exact ⟨this.held_end hblk hpc, hreg⟩

lemma mem_operands_of_edgeCondition {p b cond : ℕ} {holds : Bool} {blk : Block}
    (h : edgeCondition f p b = some (cond, holds)) (hblk : f.blocks[p]? = some blk) :
    cond ∈ blk.terminator.operands := by
  obtain ⟨blk', target, other, hblk', -, hterm⟩ := edgeCondition_spec h
  obtain rfl := Option.some.inj (hblk.symm.trans hblk')
  rcases hterm with ⟨hterm, -⟩ | ⟨hterm, -⟩ <;> simp [hterm, Terminator.operands]

/-- In every state of a run, narrowing the range of a held value by the guards of a block keeps
the value, where every guard of the block comes from a block that dominates the state's, or from
the edge the run takes into the block. -/
lemma Reaches.has_narrow_of (hf : Verified f) (hfit : WidthsAgree f) {params : List Range}
    (hpar : m.ParamsIn params) (h : m.Reaches f w s) {blk : Block}
    (hblk : f.blocks[s.block]? = some blk) {c u : ℕ} {x : Word} {r : Range}
    (hc : f.graph.Reach c)
    (hdom : ∀ d, f.graph.Dom d c → f.graph.Dom d s.block ∨
      d = c ∧ blk.instRange.stop ≤ s.pc ∧ m.branchTo f s blk.terminator = some c)
    (hu : Held f s.block s.pc u) (hx : s.regs u = some (.word x)) (hr : r.Has x) :
    ((Guards.new f (valueNumbers f) params).narrow c ((valueNumbers f).of u) r).Has x := by
  unfold Guards.narrow
  split
  · refine List.foldlRecOn (motive := fun r' : Range => r'.Has x) _ _ hr fun r' hr' e he => ?_
    split
    · rename_i hin
      obtain ⟨p, cond, holds, hsole, hon, hedge, hbound⟩ := Guards.mem_on he
      refine Bound.has_narrow hr' ?_
      rcases hdom e.1 (dom_of_domStamps hf hc hon hin.1 hin.2) with hd | ⟨hd, hpc, hto⟩
      · obtain ⟨hne, xc, hxc, hholds⟩ := h.guard_truth hf hfit.tests hsole hedge hd
        obtain ⟨db, hdb, hdbdom, hdbne⟩ := guard_defined hf hsole hedge hne hd
        have hcond : Held f s.block s.pc cond :=
          ⟨db, hdb, fun h => absurd h hdbne, fun _ => hdbdom⟩
        exact h.edge_sat hf hfit hpar hblk hedge hcond hxc hholds hbound hu rfl hx
      · rw [← hd] at hto
        obtain rfl := (solePred_spec hsole).2.2 _ (branchTo_edge hblk hto)
        obtain ⟨xc, hxc, hholds⟩ := edgeCondition_truth hfit.tests hblk hto hedge
        obtain ⟨hcond, hreg⟩ := h.held_condition hf hblk hpc
          (mem_operands_of_edgeCondition hedge hblk) hxc
        exact h.edge_sat hf hfit hpar hblk hedge hcond hreg hholds hbound hu rfl hx
    · exact hr'
  · exact hr

/-- In every state of a run, narrowing the range of a held value by the guards of the block keeps
the value. -/
theorem Reaches.has_narrow (hf : Verified f) (hfit : WidthsAgree f) {params : List Range}
    (hpar : m.ParamsIn params) (h : m.Reaches f w s) {blk : Block}
    (hblk : f.blocks[s.block]? = some blk) {u : ℕ} {x : Word} {r : Range}
    (hu : Held f s.block s.pc u) (hx : s.regs u = some (.word x)) (hr : r.Has x) :
    ((Guards.new f (valueNumbers f) params).narrow s.block ((valueNumbers f).of u) r).Has x :=
  h.has_narrow_of hf hfit hpar hblk (h.placed hf hblk).1 (fun _ hd => Or.inl hd) hu hx hr

end Machine

end Guarded

end Badc
