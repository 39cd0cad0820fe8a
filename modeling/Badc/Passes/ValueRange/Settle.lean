import Badc.Lib.Worklist
import Badc.Passes.ValueRange.Guards

/-!
# The range iteration

`settle` and `Rules` of `src/c5/codegen/passes/value_range.rs`: a phi takes the hull of what reaches
it over each edge, every other value what its rule produces from its operands as its block reads
them.  The table grows from empty until every entry contains what its rule produces from the
table; the widening bounds the changes of an entry.

In the settled table every entry contains what its rule produces (`Rules.settled_spec`), and the
iteration ends whatever extensions are assumed of values (`Assuming.iteration_ends`).
-/

namespace Badc

namespace ValueRange

/-! ## The rules -/

/-- The remainder's operator of a quotient's. -/
def remainderOp : BinOp → Option BinOp
  | .div => some .mod
  | .divu => some .modu
  | _ => none

/-- A remainder the SSA builder split: its operator, quotient, dividend and divisor. -/
structure SplitRemainder where
  op : BinOp
  quotient : ℕ
  dividend : ℕ
  divisor : ℕ
  deriving DecidableEq, Repr

/-- Whether `q` is a quotient of `n` by the other factor, a value or an immediate. -/
def splitQuotient (f : FunctionSsa) (n q : ℕ) (factor : ℕ ⊕ Word) : Option SplitRemainder :=
  match f.insts[q]? with
  | some (.binop op lhs d) =>
    let same := match factor with
      | .inl m => decide (m = d)
      | .inr k => decide (f.insts[d]? = some (.imm k))
    if lhs = n && same then
      (remainderOp op).map fun op => ⟨op, q, n, d⟩
    else none
  | _ => none

/-- The parts of `v` when it is the remainder `n - (n / d) * d`, `d` folded to an immediate or
not. -/
def splitRemainder (f : FunctionSsa) (v : ℕ) : Option SplitRemainder :=
  match f.insts[v]? with
  | some (.binop .sub n t) =>
    match f.insts[t]? with
    | some (.binop .mul x y) =>
        (splitQuotient f n x (.inl y)).or (splitQuotient f n y (.inl x))
    | some (.binopI .mul x k) => splitQuotient f n x (.inr k)
    | _ => none
  | _ => none

/-- The window a division in the 32-bit form reads its operands through. -/
def narrowWindow (f : FunctionSsa) (v : ℕ) : Inst → Option Range
  | .binop op _ _ | .binopI op _ _ =>
      if isNarrowDiv f v then
        extendRange (match op with
          | .div | .mod => .i32
          | _ => .u32)
      else none
  | _ => none

/-- What a division in the 32-bit form sees of an operand's range. -/
def clamp (window : Option Range) (r : Range) : Range :=
  match window with
  | some w => if w.contains r then r else w
  | none => r

/-- What the rules read besides the table. -/
structure Rules where
  func : FunctionSsa
  params : List Range
  numbers : Numbering
  guards : Guards

namespace Rules

variable (cx : Rules) (cur : ℕ → Option Range)

/-- The block of a value, `u32::MAX` outside every block. -/
def blockOf (v : ℕ) : ℕ := (blockIndex cx.func v).getD offTree

/-- The entry of `o` as block `b` reads it; none while it has no value there. -/
def seen (b o : ℕ) : Option Range := do
  let r ← cur o
  let r := cx.guards.narrow b (cx.numbers.of o) r
  if r.lo ≤ r.hi then some r else none

/-- An incoming value's range met with the bounds of the condition of its edge into block `b`. -/
def overEdge (b : ℕ) (e : ℕ × ℕ) (r : Range) : Range :=
  match edgeCondition cx.func e.1 b with
  | some (cond, holds) =>
      (edgeBounds cx.func cx.numbers cx.params cond holds).foldl (fun r bound =>
        if bound.1 = cx.numbers.of e.2 then bound.2.narrow r else r) r
  | none => r

/-- What an incoming value of a phi of block `b` brings: read at the end of its predecessor,
under that block's bounds and the edge's own condition. -/
def income (b : ℕ) (e : ℕ × ℕ) : Option Range := do
  let r ← cx.seen cur e.1 e.2
  let r := cx.overEdge b e r
  if r.lo ≤ r.hi then some r else none

/-- The bounds a split remainder has from its divisor, where the quotient register holds the
whole quotient. -/
def splitBounds (b v : ℕ) (r : Range) : Range :=
  match splitRemainder cx.func v with
  | some s =>
    match cx.seen cur b s.dividend, cx.seen cur b s.divisor with
    | some a, some m =>
      if !isDiv32 cx.func s.quotient || (s.op = .modu && a.highWordClear && m.highWordClear) then
        let k := r.meet (Range.divmod s.op a m)
        if k.lo ≤ k.hi then k else r
      else r
    | _, _ => r
  | none => r

/-- The hull of what reaches a phi of block `b`; a floating phi merges no integers. -/
def phiRule (b : ℕ) (incoming : List (ℕ × ℕ)) (kind : LoadKind) : Option Range :=
  if kind = .f32 ∨ kind = .f64 then some .univ
  else match incoming.filterMap (cx.income cur b) with
    | [] => none
    | r :: rs => some (rs.foldl Range.hull r)

/-- What an instruction other than a phi produces. -/
def instRule (b v : ℕ) (inst : Inst) : Option Range := do
  let window := narrowWindow cx.func v inst
  let r ← eval inst cx.params fun o => (cx.seen cur b o).map (clamp window)
  -- The 32-bit form zero-extends its result.
  let r := if window.isSome && r.lo < 0 then .univ else r
  let r := cx.splitBounds cur b v r
  -- A branch that read an earlier instance of this expression bounds this one too.
  let r := cx.guards.narrow b (cx.numbers.of v) r
  if r.lo ≤ r.hi then some r else none

/-- What `v`'s definition produces from the table; none until it reads an entry, and while a
branch bound excludes every value of one. -/
def rule (v : ℕ) : Option Range :=
  match cx.func.insts[v]? with
  | none => none
  | some (.phi incoming kind) => cx.phiRule cur (cx.blockOf v) incoming kind
  | some inst => cx.instRule cur (cx.blockOf v) v inst

lemma rule_of_not_phi {v : ℕ} {inst : Inst} (hinst : cx.func.insts[v]? = some inst)
    (hphi : inst.isPhi = false) : cx.rule cur v = cx.instRule cur (cx.blockOf v) v inst := by
  unfold rule
  rw [hinst]
  cases inst with
  | phi incoming kind => cases hphi
  | _ => rfl

end Rules

/-! ## The iteration -/

/-- Every value once: reachable blocks in reverse postorder, then the rest. -/
def visitOrder (f : FunctionSsa) : List ℕ :=
  let reached := f.graph.postorder.reverse
  let blocks := reached ++ (List.range f.blocks.length).filter fun b => b ∉ reached
  let values := blocks.flatMap fun b =>
    match f.blocks[b]? with
    | some blk => (List.range' blk.instRange.start (blk.instRange.stop - blk.instRange.start)).filter
        fun v => v < f.insts.length
    | none => []
  let order := values.foldl (fun order v => if v ∈ order then order else order ++ [v]) []
  order ++ (List.range f.insts.length).filter fun v => v ∉ order

/-- The instructions reading `v`, once per operand; a split remainder's rule reads its divisor
besides its operands. -/
def readers (f : FunctionSsa) (v : ℕ) : List ℕ :=
  (f.insts.zipIdx.flatMap fun p => (p.1.operands.filter fun o => o = v).map fun _ => p.2) ++
    (List.range f.insts.length).filter fun i =>
      (splitRemainder f i).any fun s => s.divisor = v

/-- Changes a phi takes at their exact size before it is widened. -/
def exactSteps : ℕ := 2

/-- Changes any other value takes before it is widened. -/
def exactStepsOffPhi : ℕ := 48

/-- The changes `v` takes before it is widened. -/
def exactOf (f : FunctionSsa) (v : ℕ) : ℕ :=
  match f.insts[v]? with
  | some (.phi ..) => exactSteps
  | _ => exactStepsOffPhi

/-- The range table of the iteration, and how often each entry changed. -/
structure Table where
  cur : ℕ → Option Range
  steps : ℕ → ℕ

/-- The table after a visit of `v`, where its rule produces more than its entry. -/
def Rules.visit (cx : Rules) (t : Table) (v : ℕ) : Option Table :=
  match cx.rule t.cur v with
  | none => none
  | some next =>
    match t.cur v with
    | none => some { t with cur := Function.update t.cur v (some next) }
    | some old =>
      if old.contains next then none
      else
        let steps := min (t.steps v + 1) 255
        let grown := if exactOf cx.func v < steps then old.widen next else old.hull next
        some ⟨Function.update t.cur v (some grown), Function.update t.steps v steps⟩

/-- The iteration of a function. -/
def Rules.sweep (cx : Rules) : Sweep ℕ Table where
  order := visitOrder cx.func
  readers := readers cx.func
  visit := cx.visit

/-- Changes an entry can take: its first, the exact ones, and one for each bound it can be
widened to. -/
def maxChanges : ℕ := 1 + exactStepsOffPhi + Range.widenLo.length + Range.widenHi.length

/-- Rounds enough for every entry to settle. -/
def settleFuel (f : FunctionSsa) : ℕ :=
  (visitOrder f).length + ((visitOrder f).map fun v => maxChanges * (readers f v).length).sum

/-- The table no rule has produced anything for. -/
def Table.empty : Table := ⟨fun _ => none, fun _ => 0⟩

/-- The table the iteration settles at. -/
def Rules.settled (cx : Rules) : Table := (cx.sweep.run (settleFuel cx.func) .empty).table

/-- The definition ranges; a value no definition reached stays unbounded rather than empty. -/
def settle (cx : Rules) : List Range :=
  (List.range cx.func.insts.length).map fun v => (cx.settled.cur v).getD .univ

/-! ## What a rule reads -/

lemma eval_congr {inst : Inst} {params : List Range} {g g' : ℕ → Option Range}
    (h : ∀ o ∈ inst.operands, g o = g' o) : eval inst params g = eval inst params g' := by
  cases inst with
  | extend value kind nsw | binopI op value k | neg value =>
    simp only [eval, h value (by simp [Inst.operands])]
  | binop op lhs rhs | shiftOp op lhs rhs shift amount =>
    simp only [eval, h lhs (by simp [Inst.operands]), h rhs (by simp [Inst.operands])]
  | _ => rfl

/-- The readers of a value: the instructions it is an operand of, and the split remainders it is
the divisor of. -/
lemma mem_readers {f : FunctionSsa} {o v : ℕ} :
    v ∈ readers f o ↔ (∃ inst, f.insts[v]? = some inst ∧ o ∈ inst.operands) ∨
      v < f.insts.length ∧ ∃ s, splitRemainder f v = some s ∧ s.divisor = o := by
  simp only [readers, List.mem_append, List.mem_flatMap, List.mem_map, List.mem_filter,
    List.mem_range, decide_eq_true_eq, Prod.exists, List.mem_zipIdx_iff_getElem?, Option.any_eq_true]
  constructor
  · rintro (⟨inst, i, hi, o', ⟨ho, rfl⟩, rfl⟩ | h)
    · exact Or.inl ⟨inst, hi, ho⟩
    · exact Or.inr h
  · rintro (⟨inst, hi, ho⟩ | h)
    · exact Or.inl ⟨inst, v, hi, o, ⟨ho, rfl⟩, rfl⟩
    · exact Or.inr h

/-- The dividend of a split remainder is an operand of it. -/
lemma dividend_mem {f : FunctionSsa} {v : ℕ} {s : SplitRemainder}
    (h : splitRemainder f v = some s) :
    ∃ t, f.insts[v]? = some (.binop .sub s.dividend t) := by
  have hq : ∀ {n q : ℕ} {factor : ℕ ⊕ Word}, splitQuotient f n q factor = some s →
      s.dividend = n := by
    intro n q factor hs
    unfold splitQuotient at hs
    split at hs
    · obtain ⟨-, hs⟩ := Option.ite_none_right_eq_some.mp hs
      obtain ⟨op, -, rfl⟩ := Option.map_eq_some_iff.mp hs
      rfl
    · cases hs
  unfold splitRemainder at h
  split at h
  · rename_i n t hv
    refine ⟨t, ?_⟩
    rw [hv]
    split at h
    · rcases Option.or_eq_some_iff.mp h with h | ⟨-, h⟩ <;> rw [hq h]
    · rw [hq h]
    · cases h
  · cases h

/-- A rule reads the entries of the values whose reader it is. -/
lemma Rules.rule_congr (cx : Rules) {cur cur' : ℕ → Option Range} {v : ℕ}
    (h : ∀ o, v ∈ readers cx.func o → cur o = cur' o) : cx.rule cur v = cx.rule cur' v := by
  have hseen : ∀ b o, v ∈ readers cx.func o → cx.seen cur b o = cx.seen cur' b o := by
    intro b o ho
    unfold seen
    rw [h o ho]
  have hop : ∀ inst o, cx.func.insts[v]? = some inst → o ∈ inst.operands →
      v ∈ readers cx.func o := fun inst o hi ho => mem_readers.mpr (Or.inl ⟨inst, hi, ho⟩)
  have hsplit : ∀ b r, cx.splitBounds cur b v r = cx.splitBounds cur' b v r := by
    intro b r
    unfold splitBounds
    cases hs : splitRemainder cx.func v with
    | none => rfl
    | some s =>
      obtain ⟨t, ht⟩ := dividend_mem hs
      have hd : v ∈ readers cx.func s.divisor :=
        mem_readers.mpr (Or.inr ⟨(List.getElem?_eq_some_iff.mp ht).1, s, hs, rfl⟩)
      simp only [hseen b _ (hop _ s.dividend ht (by simp [Inst.operands])), hseen b _ hd]
  cases hinst : cx.func.insts[v]? with
  | none => simp only [rule, hinst]
  | some inst =>
    have hexpr : eval inst cx.params (fun o => (cx.seen cur (cx.blockOf v) o).map
          (clamp (narrowWindow cx.func v inst))) =
        eval inst cx.params fun o => (cx.seen cur' (cx.blockOf v) o).map
          (clamp (narrowWindow cx.func v inst)) :=
      eval_congr fun o ho => by rw [hseen _ o (hop inst o hinst ho)]
    cases inst with
    | phi incoming kind =>
      have hin : incoming.filterMap (cx.income cur (cx.blockOf v)) =
          incoming.filterMap (cx.income cur' (cx.blockOf v)) := by
        refine List.filterMap_congr fun e he => ?_
        unfold income
        rw [hseen _ e.2 (hop _ _ hinst (List.mem_map_of_mem he))]
      simp only [rule, hinst, phiRule, hin]
    | _ =>
      rw [cx.rule_of_not_phi cur hinst rfl, cx.rule_of_not_phi cur' hinst rfl]
      simp only [instRule, hexpr, hsplit]

/-! ## Every entry is a range of words -/

lemma inWord_of_contains {a b : Range} (ha : a.InWord) (h : a.contains b = true) : b.InWord := by
  rw [Range.inWord_iff] at ha ⊢
  rw [Range.contains_iff] at h
  omega

lemma inWord_hull {a b : Range} (ha : a.InWord) (hb : b.InWord) : (a.hull b).InWord := by
  rw [Range.inWord_iff] at *
  simp only [Range.hull]
  omega

lemma Rules.seen_eq_some {cx : Rules} {cur : ℕ → Option Range} {b o : ℕ} {r : Range}
    (h : cx.seen cur b o = some r) :
    ∃ a, cur o = some a ∧ r = cx.guards.narrow b (cx.numbers.of o) a ∧ r.lo ≤ r.hi := by
  obtain ⟨a, ha, h⟩ := Option.bind_eq_some_iff.mp h
  obtain ⟨hle, h⟩ := Option.ite_none_right_eq_some.mp h
  obtain rfl := Option.some.inj h
  exact ⟨a, ha, rfl, hle⟩

section InWord

variable {cx : Rules} {cur : ℕ → Option Range} {b v : ℕ} {r : Range}

lemma Rules.inWord_seen (hcur : ∀ o a, cur o = some a → a.InWord) {o : ℕ}
    (h : cx.seen cur b o = some r) : r.InWord := by
  obtain ⟨a, ha, rfl, -⟩ := seen_eq_some h
  exact inWord_of_contains (hcur o a ha) (cx.guards.narrow_contained _ _ _)

/-- What reaches a phi. -/
lemma Rules.inWord_phiRule (hcur : ∀ o a, cur o = some a → a.InWord) {incoming : List (ℕ × ℕ)}
    {kind : LoadKind} (h : cx.phiRule cur b incoming kind = some r) : r.InWord := by
  have hincome : ∀ e a, cx.income cur b e = some a → a.InWord := by
    intro e a ha
    obtain ⟨a₀, ha₀, ha⟩ := Option.bind_eq_some_iff.mp ha
    obtain ⟨-, ha⟩ := Option.ite_none_right_eq_some.mp ha
    obtain rfl := Option.some.inj ha
    unfold overEdge
    split
    · refine List.foldlRecOn (motive := Range.InWord) _ _ (inWord_seen hcur ha₀) fun r hr e _ => ?_
      split
      · exact inWord_of_contains hr (e.2.narrow_contained r)
      · exact hr
    · exact inWord_seen hcur ha₀
  unfold phiRule at h
  split at h
  · obtain rfl := Option.some.inj h
    exact Range.inWord_univ
  · split at h
    · cases h
    · rename_i a as hin
      obtain rfl := Option.some.inj h
      have hall : ∀ a' ∈ a :: as, a'.InWord := by
        intro a' ha'
        rw [← hin] at ha'
        obtain ⟨e, -, he⟩ := List.mem_filterMap.mp ha'
        exact hincome e a' he
      exact List.foldlRecOn (motive := Range.InWord) _ _ (hall a (.head _))
        fun r hr a' ha' => inWord_hull hr (hall a' (.tail _ ha'))

lemma inWord_extendRange {kind : LoadKind} {w : Range} (h : extendRange kind = some w) :
    w.InWord := by
  cases kind with
  | u8 | i8 | i32 | u32 | i16 | u16 =>
    obtain rfl := Option.some.inj h
    decide
  | _ => cases h

/-- What an instruction makes of its operands, within a split remainder's bounds. -/
lemma Rules.inWord_read (hcur : ∀ o a, cur o = some a → a.InWord) {inst : Inst}
    (h : eval inst cx.params (fun o =>
      (cx.seen cur b o).map (clamp (narrowWindow cx.func v inst))) = some r) :
    (cx.splitBounds cur b v
      (if (narrowWindow cx.func v inst).isSome && r.lo < 0 then .univ else r)).InWord := by
  have hsplit : ∀ r, r.InWord → (cx.splitBounds cur b v r).InWord := by
    intro r hr
    unfold splitBounds
    have hmeet : ∀ k : Range, (r.meet k).InWord := fun k =>
      inWord_of_contains hr (Range.contains_iff.mpr ⟨le_max_left _ _, min_le_left _ _⟩)
    split
    · split
      · split
        · dsimp only
          split
          · exact hmeet _
          · exact hr
        · exact hr
      · exact hr
    · exact hr
  refine hsplit _ ?_
  split
  · exact Range.inWord_univ
  · refine inWord_eval (fun o a ha => ?_) h
    obtain ⟨a₀, ha₀, rfl⟩ := Option.map_eq_some_iff.mp ha
    unfold clamp
    split
    · rename_i w hw
      split
      · exact inWord_seen hcur ha₀
      · cases inst with
        | binop op _ _ | binopI op _ _ =>
          exact inWord_extendRange (Option.ite_none_right_eq_some.mp hw).2
        | _ => cases hw
    · exact inWord_seen hcur ha₀

/-- Rules over ranges of words yield ranges of words. -/
lemma Rules.inWord_rule (hcur : ∀ o a, cur o = some a → a.InWord) (h : cx.rule cur v = some r) :
    r.InWord := by
  unfold rule at h
  split at h
  · cases h
  · exact inWord_phiRule hcur h
  · obtain ⟨r₀, hr₀, h⟩ := Option.bind_eq_some_iff.mp h
    obtain ⟨-, h⟩ := Option.ite_none_right_eq_some.mp h
    obtain rfl := Option.some.inj h
    exact inWord_of_contains (inWord_read hcur hr₀) (cx.guards.narrow_contained _ _ _)

end InWord

/-! ## The iteration settles -/

/-- The bounds below a lower endpoint it can still be widened to, and those above an upper one. -/
def landmarks (r : Range) : ℕ :=
  Range.widenLo.countP (fun c => c < r.lo) + Range.widenHi.countP fun c => r.hi < c

/-- A bound that leaves a count lowers it. -/
lemma countP_lt {p q : ℤ → Bool} {l : List ℤ} {c : ℤ} (hc : c ∈ l) (hpc : p c = false)
    (hqc : q c = true) (hpq : ∀ x, p x = true → q x = true) : l.countP p < l.countP q := by
  have hle : ∀ l : List ℤ, l.countP p ≤ l.countP q := fun l =>
    List.countP_mono_left fun x _ => hpq x
  obtain ⟨l₁, l₂, rfl⟩ := List.append_of_mem hc
  simp only [List.countP_append, List.countP_cons, hpc, hqc]
  have h1 := hle l₁
  have h2 := hle l₂
  simp
  omega

lemma landmarks_hull_le (a b : Range) : landmarks (a.hull b) ≤ landmarks a := by
  have hlo : (a.hull b).lo ≤ a.lo := min_le_left _ _
  have hhi : a.hi ≤ (a.hull b).hi := le_max_left _ _
  refine Nat.add_le_add (List.countP_mono_left fun c _ h => ?_)
    (List.countP_mono_left fun c _ h => ?_)
  · simp only [decide_eq_true_eq] at h ⊢
    omega
  · simp only [decide_eq_true_eq] at h ⊢
    omega

/-- A widening that grows the range passes a landmark. -/
lemma landmarks_widen_lt {a b : Range} (ha : a.InWord) (hb : b.InWord)
    (h : a.contains b = false) : landmarks (a.widen b) < landmarks a := by
  have hh := Range.inWord_iff.mp (inWord_hull ha hb)
  have hlo : (a.hull b).lo ≤ a.lo := min_le_left _ _
  have hhi : a.hi ≤ (a.hull b).hi := le_max_left _ _
  -- An endpoint that moves goes to a landmark it had beyond it.
  have hloc : (a.widen b).lo ≤ a.lo ∧ ((a.hull b).lo < a.lo →
      Range.widenLo.countP (fun c => c < (a.widen b).lo) <
        Range.widenLo.countP fun c => c < a.lo) := by
    by_cases hmove : (a.hull b).lo < a.lo
    · have hfind : (Range.widenLo.find? fun c => c ≤ (a.hull b).lo).isSome := by
        rw [List.find?_isSome]
        exact ⟨-2 ^ 63, by decide, by simpa using hh.1⟩
      obtain ⟨c, hc⟩ := Option.isSome_iff_exists.mp hfind
      have hle : c ≤ (a.hull b).lo := by simpa using List.find?_some hc
      have hw : (a.widen b).lo = c := by simp [Range.widen, hmove, hc]
      refine ⟨by omega, fun _ => countP_lt (List.mem_of_find?_eq_some hc) ?_ ?_ fun x hx => ?_⟩
      · simp [hw]
      · simp only [decide_eq_true_eq]
        omega
      · simp only [decide_eq_true_eq] at hx ⊢
        omega
    · exact ⟨by simp [Range.widen, hmove], fun h => absurd h hmove⟩
  have hhic : a.hi ≤ (a.widen b).hi ∧ (a.hi < (a.hull b).hi →
      Range.widenHi.countP (fun c => (a.widen b).hi < c) <
        Range.widenHi.countP fun c => a.hi < c) := by
    by_cases hmove : a.hi < (a.hull b).hi
    · have hfind : (Range.widenHi.find? fun c => (a.hull b).hi ≤ c).isSome := by
        rw [List.find?_isSome]
        exact ⟨2 ^ 63 - 1, by decide, by simpa using hh.2⟩
      obtain ⟨c, hc⟩ := Option.isSome_iff_exists.mp hfind
      have hle : (a.hull b).hi ≤ c := by simpa using List.find?_some hc
      have hw : (a.widen b).hi = c := by simp [Range.widen, hmove, hc]
      refine ⟨by omega, fun _ => countP_lt (List.mem_of_find?_eq_some hc) ?_ ?_ fun x hx => ?_⟩
      · simp [hw]
      · simp only [decide_eq_true_eq]
        omega
      · simp only [decide_eq_true_eq] at hx ⊢
        omega
    · exact ⟨by simp [Range.widen, hmove], fun h => absurd h hmove⟩
  have hle1 : Range.widenLo.countP (fun c => c < (a.widen b).lo) ≤
      Range.widenLo.countP fun c => c < a.lo :=
    List.countP_mono_left fun c _ h => by
      simp only [decide_eq_true_eq] at h ⊢
      omega
  have hle2 : Range.widenHi.countP (fun c => (a.widen b).hi < c) ≤
      Range.widenHi.countP fun c => a.hi < c :=
    List.countP_mono_left fun c _ h => by
      simp only [decide_eq_true_eq] at h ⊢
      omega
  have hgrow : (a.hull b).lo < a.lo ∨ a.hi < (a.hull b).hi := by
    by_contra hno
    have : a.contains b = true := by
      rw [Range.contains_iff]
      simp only [Range.hull] at hno
      omega
    rw [h] at this
    cases this
  unfold landmarks
  rcases hgrow with hmove | hmove
  · exact Nat.add_lt_add_of_lt_of_le (hloc.2 hmove) hle2
  · exact Nat.add_lt_add_of_le_of_lt hle1 (hhic.2 hmove)

/-- A visit by a rule that widens an entry after so many changes. -/
def visitBy (exact : ℕ → ℕ) (rule : (ℕ → Option Range) → ℕ → Option Range) (t : Table) (v : ℕ) :
    Option Table :=
  match rule t.cur v with
  | none => none
  | some next =>
    match t.cur v with
    | none => some { t with cur := Function.update t.cur v (some next) }
    | some old =>
      if old.contains next then none
      else
        let steps := min (t.steps v + 1) 255
        let grown := if exact v < steps then old.widen next else old.hull next
        some ⟨Function.update t.cur v (some grown), Function.update t.steps v steps⟩

/-- The changes an entry may still take: its first, the exact ones, and one for each bound it can be
widened to. -/
def changesLeft (exact : ℕ → ℕ) (t : Table) (v : ℕ) : ℕ :=
  match t.cur v with
  | none => 1 + exact v + Range.widenLo.length + Range.widenHi.length
  | some r => (exact v - t.steps v) + landmarks r

/-- Every entry of the table is a range of words. -/
def Table.InWord (t : Table) : Prop := ∀ v r, t.cur v = some r → r.InWord

section Visit

variable {exact : ℕ → ℕ} {rule : (ℕ → Option Range) → ℕ → Option Range} {t t' : Table} {u v : ℕ}

/-- What one visit does: a first entry, or a grown one. -/
lemma visitBy_cases (h : visitBy exact rule t v = some t') :
    ∃ next grown, rule t.cur v = some next ∧ t'.cur = Function.update t.cur v (some grown) ∧
      (∀ u, u ≠ v → t'.steps u = t.steps u) ∧
      (t.cur v = none ∧ grown = next ∨
        ∃ old, t.cur v = some old ∧ old.contains next = false ∧
          t'.steps v = min (t.steps v + 1) 255 ∧
          (exact v < t'.steps v ∧ grown = old.widen next ∨
            t'.steps v ≤ exact v ∧ grown = old.hull next)) := by
  unfold visitBy at h
  split at h
  · cases h
  · rename_i next hnext
    split at h
    · rename_i hcur
      obtain rfl := Option.some.inj h
      exact ⟨next, next, hnext, rfl, fun u _ => rfl, Or.inl ⟨hcur, rfl⟩⟩
    · rename_i old hcur
      obtain ⟨hcon, h⟩ := Option.ite_none_left_eq_some.mp h
      obtain rfl := Option.some.inj h
      refine ⟨next, _, hnext, rfl, fun u hu => Function.update_of_ne hu _ _,
        Or.inr ⟨old, hcur, Bool.eq_false_of_not_eq_true hcon, Function.update_self .., ?_⟩⟩
      dsimp only
      rw [Function.update_self]
      split
      · exact Or.inl ⟨‹_›, rfl⟩
      · exact Or.inr ⟨Nat.not_lt.mp ‹_›, rfl⟩

/-- A widening of ranges of words. -/
lemma inWord_widen {a b : Range} (ha : a.InWord) (hb : b.InWord) : (a.widen b).InWord := by
  have hh := Range.inWord_iff.mp (inWord_hull ha hb)
  rw [Range.inWord_iff] at ha ⊢
  have hlo : ∀ c ∈ Range.widenLo, -2 ^ 63 ≤ c := by decide
  have hhi : ∀ c ∈ Range.widenHi, c ≤ 2 ^ 63 - 1 := by decide
  constructor
  · simp only [Range.widen]
    split
    · cases h : Range.widenLo.find? fun c => c ≤ (a.hull b).lo with
      | none => exact hh.1
      | some c => exact hlo c (List.mem_of_find?_eq_some h)
    · exact ha.1
  · simp only [Range.widen]
    split
    · cases h : Range.widenHi.find? fun c => (a.hull b).hi ≤ c with
      | none => exact hh.2
      | some c => exact hhi c (List.mem_of_find?_eq_some h)
    · exact ha.2

lemma visitBy_frame (h : visitBy exact rule t v = some t') (huv : u ≠ v) : t'.cur u = t.cur u := by
  obtain ⟨_, _, _, hcur, -⟩ := visitBy_cases h
  rw [hcur, Function.update_of_ne huv]

/-- The visited entry grows, and contains what the rule produces. -/
lemma visitBy_grows (h : visitBy exact rule t v = some t') :
    ∃ next grown, rule t.cur v = some next ∧ t'.cur v = some grown ∧ grown.contains next = true ∧
      ∀ old, t.cur v = some old → grown.contains old = true := by
  obtain ⟨next, grown, hnext, hcur, -, hcase⟩ := visitBy_cases h
  refine ⟨next, grown, hnext, by rw [hcur, Function.update_self], ?_⟩
  rcases hcase with ⟨hnone, rfl⟩ | ⟨old, hold, -, -, hgrown⟩
  · exact ⟨Range.contains_iff.mpr ⟨le_rfl, le_rfl⟩, fun old hold => by rw [hnone] at hold; cases hold⟩
  · have hhull : grown.contains (old.hull next) = true := by
      rcases hgrown with ⟨-, rfl⟩ | ⟨-, rfl⟩
      · exact Range.widen_contains_hull old next
      · exact Range.contains_iff.mpr ⟨le_rfl, le_rfl⟩
    rw [Range.contains_iff] at hhull
    simp only [Range.hull] at hhull
    refine ⟨Range.contains_iff.mpr (by omega), fun old' hold' => ?_⟩
    obtain rfl := Option.some.inj (hold.symm.trans hold')
    exact Range.contains_iff.mpr (by omega)

/-- A visit by a rule over ranges of words keeps them so, and lowers what is left of its value's
changes alone. -/
lemma visitBy_step (hexact : exact v < 255)
    (hrule : ∀ {r}, t.InWord → rule t.cur v = some r → r.InWord) (ht : t.InWord)
    (h : visitBy exact rule t v = some t') :
    t'.InWord ∧ changesLeft exact t' v < changesLeft exact t v ∧
      ∀ u, u ≠ v → changesLeft exact t' u = changesLeft exact t u := by
  obtain ⟨next, grown, hnext, hcur, hsteps, hcase⟩ := visitBy_cases h
  have hn := hrule ht hnext
  refine ⟨fun u r hu => ?_, ?_, fun u huv => ?_⟩
  · by_cases huv : u = v
    · subst huv
      rw [hcur, Function.update_self] at hu
      obtain rfl := Option.some.inj hu
      rcases hcase with ⟨-, rfl⟩ | ⟨old, hold, -, -, ⟨-, rfl⟩ | ⟨-, rfl⟩⟩
      · exact hn
      · exact inWord_widen (ht u old hold) hn
      · exact inWord_hull (ht u old hold) hn
    · exact ht u r (visitBy_frame h huv ▸ hu)
  · unfold changesLeft
    rw [hcur, Function.update_self]
    dsimp only
    rcases hcase with ⟨hnone, -⟩ | ⟨old, hold, hcon, hsteps, ⟨hlt, rfl⟩ | ⟨hle, rfl⟩⟩
    · rw [hnone]
      have h1 : landmarks grown ≤ Range.widenLo.length + Range.widenHi.length :=
        Nat.add_le_add List.countP_le_length List.countP_le_length
      dsimp only
      omega
    · rw [hold]
      have := landmarks_widen_lt (ht v old hold) hn hcon
      dsimp only
      omega
    · rw [hold]
      have := landmarks_hull_le old next
      dsimp only
      omega
  · unfold changesLeft
    rw [visitBy_frame h huv, hsteps u huv]

end Visit

lemma exactOf_le (f : FunctionSsa) (v : ℕ) : exactOf f v ≤ exactStepsOffPhi := by
  unfold exactOf
  split <;> decide

lemma load_le_settleFuel (f : FunctionSsa) : (visitOrder f).length + ((visitOrder f).map fun v =>
    changesLeft (exactOf f) .empty v * (readers f v).length).sum ≤ settleFuel f := by
  refine Nat.add_le_add_left (List.sum_le_sum fun v _ => Nat.mul_le_mul_right _ ?_) _
  have := exactOf_le f v
  dsimp only [changesLeft, Table.empty, maxChanges]
  omega

/-- The entry of a value contains what its rule produces. -/
def Rules.Closed (cx : Rules) (t : Table) (v : ℕ) : Prop :=
  ∀ next, cx.rule t.cur v = some next → ∃ r, t.cur v = some r ∧ r.contains next = true

/-- The range iteration follows the rule of a sweep. -/
lemma Rules.sweep_rule (cx : Rules) :
    cx.sweep.Rule Table.InWord cx.Closed (changesLeft (exactOf cx.func)) := by
  have hstep : ∀ {t v t'}, t.InWord → visitBy (exactOf cx.func) cx.rule t v = some t' → t'.InWord ∧
      changesLeft (exactOf cx.func) t' v < changesLeft (exactOf cx.func) t v ∧
      ∀ u, u ≠ v → changesLeft (exactOf cx.func) t' u = changesLeft (exactOf cx.func) t u :=
    fun {_ v _} ht h => visitBy_step ((exactOf_le cx.func v).trans_lt (by decide))
      (fun ht hr => inWord_rule ht hr) ht h
  -- A visit that changes no entry that is read leaves what the rule produces.
  have hsame : ∀ {t v t'} u, visitBy (exactOf cx.func) cx.rule t v = some t' →
      u ∉ readers cx.func v → cx.rule t'.cur u = cx.rule t.cur u := fun u h hread =>
    cx.rule_congr fun o ho => visitBy_frame h fun hov => hread (hov ▸ ho)
  exact {
    keeps := fun ht h => (hstep ht h).1
    idle := by
      intro t v _ h next hnext
      have h : cx.visit t v = none := h
      unfold visit at h
      rw [hnext] at h
      dsimp only at h
      split at h
      · cases h
      · rename_i old hold
        refine ⟨old, hold, ?_⟩
        by_contra hcon
        rw [if_neg hcon] at h
        cases h
    own := by
      intro t v t' _ h hread next' hnext'
      have h : visitBy (exactOf cx.func) cx.rule t v = some t' := h
      obtain ⟨next, grown, hnext, hgrown, hcon, -⟩ := visitBy_grows h
      rw [hsame v h hread, hnext] at hnext'
      obtain rfl := Option.some.inj hnext'
      exact ⟨grown, hgrown, hcon⟩
    frame := by
      intro t v t' u _ h huv hread hu next hnext
      have h : visitBy (exactOf cx.func) cx.rule t v = some t' := h
      rw [hsame u h hread] at hnext
      rw [visitBy_frame h huv]
      exact hu next hnext
    lower := fun ht h => (hstep ht h).2.1
    still := fun ht h => (hstep ht h).2.2 _ }

lemma mem_visitOrder {f : FunctionSsa} {v : ℕ} (h : v < f.insts.length) : v ∈ visitOrder f := by
  unfold visitOrder
  rw [List.mem_append, List.mem_filter, List.mem_range, decide_eq_true_eq]
  exact (em _).imp_right fun hv => ⟨h, hv⟩

/-- In the settled table every entry is a range of words that contains what its rule produces. -/
theorem Rules.settled_spec (cx : Rules) : cx.settled.InWord ∧ ∀ v, cx.Closed cx.settled v := by
  have hempty : Table.empty.InWord := fun v r h => nomatch h
  obtain ⟨hin, hclosed⟩ := cx.sweep_rule.settled hempty (load_le_settleFuel cx.func)
  refine ⟨hin, fun v => ?_⟩
  by_cases hv : v < cx.func.insts.length
  · exact hclosed v (mem_visitOrder hv)
  · intro next hnext
    unfold rule at hnext
    rw [List.getElem?_eq_none (Nat.not_lt.mp hv)] at hnext
    cases hnext

/-! ## Assumed extensions -/

/-- The rules, with the extensions that values are assumed to have. -/
structure Assuming extends Rules where
  assumed : List (Option LoadKind)

/-- The immediate that an instruction reads, or zero. -/
def assumedImm : Inst → Range
  | .binopI _ _ k => .exact k
  | _ => .exact 0

namespace Assuming

variable (cx : Assuming) (cur : ℕ → Option Range)

/-- The hull of what the rule of `v` reads. -/
def operands (b v : ℕ) (inst : Inst) : Range :=
  (Id.run <| (eval (M := StateM Range) inst cx.params fun o => do
    let r := (cx.seen cur b o).getD .univ
    modify (·.hull r)
    return clamp (narrowWindow cx.func v inst) r).run (assumedImm inst)).2

/-- The range of a value within that of the extension assumed of it, where the operands lie there. -/
def assume (operands : Range) (v : ℕ) (r : Range) : Range :=
  match cx.assumed[v]?.join.bind extendRange with
  | some w =>
      if w.contains operands then
        let m := r.meet w
        if m.lo ≤ m.hi then m else w
      else r
  | none => r

/-- What an instruction other than a phi produces. -/
def instRule (b v : ℕ) (inst : Inst) : Option Range := do
  let window := narrowWindow cx.func v inst
  let r ← eval inst cx.params fun o => (cx.seen cur b o).map (clamp window)
  let r := if window.isSome && r.lo < 0 then .univ else r
  let r := cx.splitBounds cur b v r
  let r := cx.assume (cx.operands cur b v inst) v r
  let r := cx.guards.narrow b (cx.numbers.of v) r
  if r.lo ≤ r.hi then some r else none

/-- What `v`'s definition produces from the table. -/
def rule (v : ℕ) : Option Range :=
  match cx.func.insts[v]? with
  | none => none
  | some (.phi incoming kind) => cx.phiRule cur (cx.blockOf v) incoming kind
  | some inst => cx.instRule cur (cx.blockOf v) v inst

/-- The iteration of a function. -/
def sweep : Sweep ℕ Table where
  order := visitOrder cx.func
  readers := readers cx.func
  visit := visitBy (exactOf cx.func) cx.rule

/-- The iteration after so many rounds. -/
def after (rounds : ℕ) : Sweep.Progress ℕ Table := cx.sweep.run rounds .empty

variable {cx cur} {v : ℕ} {r : Range}

lemma rule_of_nil (h : cx.assumed = []) : cx.rule cur v = cx.toRules.rule cur v := by
  unfold rule Rules.rule
  split
  · rfl
  · rfl
  · simp [instRule, Rules.instRule, assume, h]

/-- An assumption yields ranges of words. -/
lemma inWord_assume (hr : r.InWord) {ops : Range} : (cx.assume ops v r).InWord := by
  unfold assume
  split
  · rename_i w hw
    obtain ⟨kind, -, hkind⟩ := Option.bind_eq_some_iff.mp hw
    split
    · dsimp only
      split
      · exact inWord_of_contains hr (Range.contains_iff.mpr ⟨le_max_left _ _, min_le_left _ _⟩)
      · exact inWord_extendRange hkind
    · exact hr
  · exact hr

/-- Rules over ranges of words yield ranges of words. -/
lemma inWord_rule (hcur : ∀ o a, cur o = some a → a.InWord) (h : cx.rule cur v = some r) :
    r.InWord := by
  unfold rule at h
  split at h
  · cases h
  · exact Rules.inWord_phiRule hcur h
  · obtain ⟨r₀, hr₀, h⟩ := Option.bind_eq_some_iff.mp h
    obtain ⟨-, h⟩ := Option.ite_none_right_eq_some.mp h
    obtain rfl := Option.some.inj h
    exact inWord_of_contains (inWord_assume (Rules.inWord_read hcur hr₀))
      (cx.guards.narrow_contained _ _ _)

/-- The iteration follows the rule of a sweep, whatever settles a value. -/
lemma sweep_rule (cx : Assuming) :
    cx.sweep.Rule Table.InWord (fun _ _ => True) (changesLeft (exactOf cx.func)) := by
  have hstep : ∀ {t v t'}, t.InWord → cx.sweep.visit t v = some t' → _ := fun {_ v _} ht h =>
    visitBy_step ((exactOf_le cx.func v).trans_lt (by decide)) (fun ht hr => inWord_rule ht hr) ht h
  exact {
    keeps := fun ht h => (hstep ht h).1
    idle := fun _ _ => trivial
    own := fun _ _ _ => trivial
    frame := fun _ _ _ _ _ => trivial
    lower := fun ht h => (hstep ht h).2.1
    still := fun ht h => (hstep ht h).2.2 _ }

/-- **The range iteration ends.**  After boundedly many rounds the sweep is over and the queue empty;
an entry grows from round to round, and in any number of rounds takes at most its first value, the
exact changes of its kind and one for each bound it can be widened to.  The rules need not be
monotone: they are only asked for ranges of words. -/
theorem iteration_ends (cx : Assuming) :
    ((cx.after (settleFuel cx.func)).start = (visitOrder cx.func).length ∧
      (cx.after (settleFuel cx.func)).queue = []) ∧
    ∀ v,
      (∀ k r, (cx.after k).table.cur v = some r →
        ∃ r', (cx.after (k + 1)).table.cur v = some r' ∧ r'.contains r = true) ∧
      ∀ n, ((List.range n).countP fun k =>
          (cx.after (k + 1)).table.cur v ≠ (cx.after k).table.cur v) ≤
        1 + exactOf cx.func v + Range.widenLo.length + Range.widenHi.length := by
  have hempty : Table.empty.InWord := fun v r h => nomatch h
  refine ⟨cx.sweep_rule.ends hempty (load_le_settleFuel cx.func), fun v => ⟨fun k r hr => ?_, fun n =>
    (Nat.le_add_right _ _).trans
      (cx.sweep_rule.changes_le hempty Table.cur visitBy_frame v n)⟩⟩
  rcases cx.sweep.run_succ k .empty with heq | ⟨u, hu⟩
  · exact ⟨r, by rw [after, heq]; exact hr, Range.contains_iff.mpr ⟨le_rfl, le_rfl⟩⟩
  · by_cases huv : v = u
    · obtain ⟨-, grown, -, hgrown, -, hold⟩ := visitBy_grows hu
      exact ⟨grown, huv ▸ hgrown, hold r (huv ▸ hr)⟩
    · exact ⟨r, (visitBy_frame hu huv).trans hr, Range.contains_iff.mpr ⟨le_rfl, le_rfl⟩⟩

end Assuming

end ValueRange

end Badc
