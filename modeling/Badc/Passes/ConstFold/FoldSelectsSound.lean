import Badc.Passes.ConstFold.FoldSelects

/-!
# Folded consumers hold their constant

`foldSelects` replaces a consumer only by the constant every run computes for it
(`foldSelects_sound`).  A phi's value is one of the constants collected for it, in every state in
which the phi is held; a held consumer's equation reads the phi as it is now, also where the phi is
carried round a loop, so the evaluation bound to that constant is the consumer's value.  The walk
keeps `Folded`: what it has replaced so far is right in every run of the function it started from.

An indeterminate phi entry takes the value the others agree on, and the comparison marks are read
on every operation; so a run may take no such entry, and the marks must stand on comparisons alone
(`foldSelects_indeterminate`).
-/

namespace Badc

/-- In every state of a run in which `v` is held, it holds `k`. -/
def Always (m : Machine) (f : FunctionSsa) (w : World m.Ext) (v : ℕ) (k : Word) : Prop :=
  ∀ s, m.Reaches f w s → Held f s.block s.pc v → ∀ y, s.regs v = some y → y = .word k

/-- The machine reads an indeterminate value as zero. -/
def Machine.UndefZero (m : Machine) (f : FunctionSsa) : Prop :=
  ∀ v w x ext, m.quiet (f.site v .undef) [] w = some (x, ext) → x = .word 0

/-- Only integer comparisons are marked to read low words. -/
def MarksOnComparisons (f : FunctionSsa) : Prop :=
  ∀ v op, ((∃ lhs rhs, f.insts[v]? = some (.binop op lhs rhs)) ∨
    ∃ lhs k, f.insts[v]? = some (.binopI op lhs k)) → isCmp32 f v = true →
    isIntComparisonOp op = true

/-- No phi takes an indeterminate entry in a run. -/
def DefinedEntries (m : Machine) (f : FunctionSsa) (w : World m.Ext) : Prop :=
  ∀ (s : State m.Ext) (blk : Block) (b v : ℕ) (incoming : List (ℕ × ℕ)) (kind : LoadKind) (u : ℕ),
    m.Reaches f w s → f.blocks[s.block]? = some blk → blk.instRange.stop ≤ s.pc →
    m.branchTo f s blk.terminator = some b → InBlock f v b →
    f.insts[v]? = some (.phi incoming kind) → (s.block, u) ∈ incoming →
    f.insts[u]? ≠ some ( .undef)

/-- `g` is `f` with foldable instructions replaced by the constants they always hold. -/
structure Folded (m : Machine) (f : FunctionSsa) (w : World m.Ext) (g : FunctionSsa) : Prop where
  length : g.insts.length = f.insts.length
  f32Values : g.f32Values = f.f32Values
  cmp32 : g.cmp32 = f.cmp32
  div32 : g.div32 = f.div32
  insts : ∀ v, g.insts[v]? = f.insts[v]? ∨ ∃ k inst, g.insts[v]? = some (.imm k) ∧
    f.insts[v]? = some inst ∧ inst.isFoldable = true ∧ Always m f w v k

section Sound

variable {m : Machine} {f g : FunctionSsa} {w : World m.Ext} {s : State m.Ext}
variable {pivot u v : ℕ} {bind k x : Word} {values : List Word}

lemma Folded.refl (m : Machine) (f : FunctionSsa) (w : World m.Ext) : Folded m f w f :=
  ⟨rfl, rfl, rfl, rfl, fun _ => Or.inl rfl⟩

lemma Inst.isFoldable_cases {inst : Inst} (h : inst.isFoldable = true) :
    inst.isPhi = false ∧ inst.role = .pure ∧ (∀ k, inst ≠ .imm k) ∧ inst ≠ .undef := by
  cases inst with
  | extend | bswap | bitCount | binopI | binop => simp [Inst.isPhi, Inst.role]
  | _ => cases h

lemma Folded.inst_eq (h : Folded m f w g) {inst : Inst} (hinst : g.insts[v]? = some inst)
    (hne : ∀ k, inst ≠ .imm k) : f.insts[v]? = some inst := by
  rcases h.insts v with heq | ⟨k, _, hk, -⟩
  · rw [← heq, hinst]
  · rw [hinst] at hk
    exact absurd (Option.some.inj hk) (hne k)

lemma Folded.phi_eq (h : Folded m f w g) {incoming : List (ℕ × ℕ)} {kind : LoadKind}
    (hinst : f.insts[v]? = some (.phi incoming kind)) :
    g.insts[v]? = some (.phi incoming kind) := by
  rcases h.insts v with heq | ⟨_, inst, -, hi, hfold, -⟩
  · rw [heq, hinst]
  · rw [hinst] at hi
    obtain rfl := Option.some.inj hi
    cases hfold

/-- What is always held is what executing the instruction leaves. -/
lemma Always.exec (h : Always m f w s.pc k) (hs : m.Reaches f w s) (hpc : InBlock f s.pc s.block)
    {inst : Inst} {r : Regs × World m.Ext} {y : Val} (hinst : f.insts[s.pc]? = some inst)
    (hr : m.exec f s.pc s.regs s.world inst = some r) (hy : r.1 s.pc = some y) :
    y = .word k := by
  obtain ⟨blk, hblk, -, hlt⟩ := id hpc
  have hstep : m.step f s =
      some (.running { s with pc := s.pc + 1, regs := r.1, world := r.2 }) := by
    simp only [Machine.step, hblk, if_pos hlt, hinst, hr, Option.map_some]
  exact h _ (hs.step hstep) ⟨s.block, hpc, fun _ => Or.inl (Nat.lt_succ_self _), fun h =>
    absurd rfl h⟩ y hy

/-! ## Constants through phis -/

/-- A held value the folded function resolves to a constant holds it. -/
lemma Folded.immThroughPhis (hfold : Folded m f w g) (hf : Verified f) (hzero : m.UndefZero f)
    (hentries : DefinedEntries m f w) (hs : m.Reaches f w s) {y : Val}
    (hu : Held f s.block s.pc u) (hy : s.regs u = some y) {f32Values : List Bool} {depth : ℕ}
    (hk : immThroughPhisDepth g.insts f32Values depth u = some k) : y = .word k := by
  revert depth k
  refine hs.held_rule hf (fun u y => ∀ {k : Word} {depth : ℕ},
    immThroughPhisDepth g.insts f32Values depth u = some k → y = .word k) ?_ ?_ hu hy
  · intro s inst r y hs _ hpc hinst hphi hr hy k depth hk
    rcases hfold.insts s.pc with heq | ⟨k', inst', hk', -, -, halways⟩
    · have hleaf : immLeaf g.insts f32Values s.pc = some k := by
        cases depth with
        | zero => exact hk
        | succ depth =>
          rw [immThroughPhisDepth, heq, hinst] at hk
          cases inst with
          | phi incoming kind => cases hphi
          | _ => exact hk
      rw [immLeaf, heq, hinst, Option.ite_none_left_eq_some] at hleaf
      cases inst with
      | imm k' =>
        obtain ⟨x', hx', rfl⟩ := Machine.exec_pure rfl hr
        obtain rfl : k' = x' := Option.some.inj hx'
        simp only [Regs.set_self, Option.some.injEq] at hy hleaf
        rw [← hy, hleaf.2]
      | undef =>
        obtain ⟨vals, x, ext, hvals, hx, rfl⟩ := Machine.execQuiet_eq_some.mp hr
        obtain rfl := Option.some.inj hvals
        obtain rfl := hzero _ _ _ _ hx
        simp only [Regs.set_self, Option.some.injEq] at hy hleaf
        rw [← hy, ← hleaf.2]
        rfl
      | _ => cases hleaf.2
    · -- A replaced instruction holds its constant by what was shown of it.
      have hleaf : k' = k := by
        cases depth with
        | zero =>
          rw [immThroughPhisDepth, immLeaf, hk', Option.ite_none_left_eq_some] at hk
          exact Option.some.inj hk.2
        | succ depth =>
          rw [immThroughPhisDepth, hk'] at hk
          simp only at hk
          rw [immLeaf, hk', Option.ite_none_left_eq_some] at hk
          exact Option.some.inj hk.2
      rw [halways.exec hs hpc hinst hr hy, hleaf]
  · intro s blk b v incoming kind o y hs hblk hpc hb hv hinst ho _ ih k depth hk
    have hphi := hfold.phi_eq hinst
    cases depth with
    | zero => simp [immThroughPhisDepth, immLeaf, hphi] at hk
    | succ depth =>
      rw [immThroughPhisDepth, hphi] at hk
      have hundef : g.insts[o]? ≠ some .undef := by
        intro h
        exact hentries s blk b v incoming kind o hs hblk hpc hb hv hinst ho
          (hfold.inst_eq h (by simp))
      have hall := agree_eq_some (Option.join_eq_some_iff.mp hk) (s.block, o)
        (List.mem_filter.mpr ⟨ho, decide_eq_true hundef⟩)
      exact ih hall

/-- Collecting a value that resolves to a constant adds the constant. -/
lemma collectSelectValues_imm {depth : ℕ} {out out' : List Word} (hk : immOf f v = some k)
    (h : collectSelectValues f depth v out = some out') : k ∈ out' ∧ out ⊆ out' := by
  unfold collectSelectValues at h
  simp only [hk] at h
  obtain ⟨-, h⟩ := Option.ite_none_right_eq_some.mp h
  obtain rfl := Option.some.inj h
  by_cases hmem : k ∈ out
  · rw [if_pos hmem]
    exact ⟨hmem, List.Subset.refl _⟩
  · rw [if_neg hmem]
    exact ⟨List.mem_append_right _ (List.mem_singleton.mpr rfl), List.subset_append_left _ _⟩

/-- Collecting another value collects the entries of a phi. -/
lemma collectSelectValues_phi {depth : ℕ} {out out' : List Word} (hk : immOf f v = none)
    (h : collectSelectValues f depth v out = some out') :
    ∃ depth' incoming kind, depth = depth' + 1 ∧ f.insts[v]? = some (.phi incoming kind) ∧
      incoming.foldlM (fun out q => collectSelectValues f depth' q.2 out) out = some out' := by
  unfold collectSelectValues at h
  simp only [hk] at h
  split at h
  · rename_i hinst
    exact ⟨_, _, _, rfl, hinst, (Option.ite_none_left_eq_some.mp h).2⟩
  · cases h

/-- What each round of a fold adds to, the fold adds to. -/
lemma foldlM_subset {α β : Type} {f : List β → α → Option (List β)} {l : List α}
    {out out' : List β} (hf : ∀ a out out', f out a = some out' → out ⊆ out')
    (h : l.foldlM f out = some out') : out ⊆ out' := by
  induction l generalizing out with
  | nil =>
    obtain rfl := Option.some.inj h
    exact List.Subset.refl _
  | cons a l ih =>
    rw [List.foldlM_cons] at h
    obtain ⟨mid, hmid, h⟩ := Option.bind_eq_some_iff.mp h
    exact List.Subset.trans (hf a _ _ hmid) (ih h)

/-- Collected constants are only added to. -/
lemma collectSelectValues_subset {depth : ℕ} {out out' : List Word}
    (h : collectSelectValues f depth v out = some out') : out ⊆ out' := by
  induction depth generalizing v out out' with
  | zero =>
    cases hk : immOf f v with
    | some k => exact (collectSelectValues_imm hk h).2
    | none =>
      obtain ⟨_, _, _, hdepth, -⟩ := collectSelectValues_phi hk h
      cases hdepth
  | succ depth ih =>
    cases hk : immOf f v with
    | some k => exact (collectSelectValues_imm hk h).2
    | none =>
      obtain ⟨depth', incoming, kind, hdepth, -, hfold⟩ := collectSelectValues_phi hk h
      obtain rfl := Nat.succ.inj hdepth
      exact foldlM_subset (fun _ _ _ => ih) hfold

/-- The constants of each entry of a phi are among those collected for it. -/
lemma exists_of_mem_incoming {depth : ℕ} {incoming : List (ℕ × ℕ)} {out out' : List Word}
    (h : incoming.foldlM (fun out q => collectSelectValues f depth q.2 out) out = some out')
    {q : ℕ × ℕ} (hq : q ∈ incoming) :
    ∃ before after, collectSelectValues f depth q.2 before = some after ∧ after ⊆ out' := by
  induction incoming generalizing out with
  | nil => cases hq
  | cons p incoming ih =>
    rw [List.foldlM_cons] at h
    obtain ⟨mid, hmid, hrest⟩ := Option.bind_eq_some_iff.mp h
    rcases List.mem_cons.mp hq with rfl | hq
    · exact ⟨out, mid, hmid, foldlM_subset (fun _ _ _ => collectSelectValues_subset) hrest⟩
    · exact ih hrest hq

lemma Folded.always_of_immOf (hfold : Folded m f w g) (hf : Verified f) (hzero : m.UndefZero f)
    (hentries : DefinedEntries m f w) (hk : immOf g v = some k) : Always m f w v k :=
  fun _ hs hv _ hy => hfold.immThroughPhis hf hzero hentries hs hv hy hk

/-- A held value is one of the constants collected for it. -/
lemma mem_collectSelectValues (hf : Verified f) (hzero : m.UndefZero f)
    (hentries : DefinedEntries m f w) (hs : m.Reaches f w s) {y : Val}
    (hu : Held f s.block s.pc u) (hy : s.regs u = some y) {depth : ℕ} {out out' : List Word}
    (h : collectSelectValues f depth u out = some out') : ∃ k ∈ out', y = .word k := by
  have hrefl := Folded.refl m f w
  revert depth out out'
  refine hs.held_rule hf (fun u y => ∀ {depth : ℕ} {out out' : List Word},
    collectSelectValues f depth u out = some out' → ∃ k ∈ out', y = .word k) ?_ ?_ hu hy
  · intro s inst r y hs _ hpc hinst hphi hr hy depth out out' h
    cases hk : immOf f s.pc with
    | some k =>
      have halways := hrefl.always_of_immOf hf hzero hentries hk
      exact ⟨k, (collectSelectValues_imm hk h).1, halways.exec hs hpc hinst hr hy⟩
    | none =>
      obtain ⟨_, _, _, -, hinst', -⟩ := collectSelectValues_phi hk h
      rw [hinst] at hinst'
      rw [Option.some.inj hinst'] at hphi
      cases hphi
  · intro s blk b v incoming kind o y hs hblk hpc hb hv hinst ho hget ih depth out out' h
    cases hk : immOf f v with
    | some k =>
      refine ⟨k, (collectSelectValues_imm hk h).1, ?_⟩
      -- The entry taken resolves to the constant as the others do.
      unfold immOf immThroughPhis phiMergeDepth at hk
      rw [immThroughPhisDepth, hinst] at hk
      have hundef := hentries s blk b v incoming kind o hs hblk hpc hb hv hinst ho
      have hall := agree_eq_some (Option.join_eq_some_iff.mp hk) (s.block, o)
        (List.mem_filter.mpr ⟨ho, decide_eq_true hundef⟩)
      obtain ⟨hne, hreg⟩ := Regs.get_eq_some hget
      exact hrefl.immThroughPhis hf hzero hentries hs
        (hs.held_income hf hblk hpc hb hv hinst ho hne) hreg hall
    | none =>
      obtain ⟨depth', incoming', kind', -, hinst', hfold⟩ := collectSelectValues_phi hk h
      rw [hinst] at hinst'
      obtain ⟨rfl, rfl⟩ := Inst.phi.inj (Option.some.inj hinst')
      obtain ⟨before, after, hq, hsub⟩ := exists_of_mem_incoming hfold ho
      obtain ⟨k, hmem, hval⟩ := ih hq
      exact ⟨k, hsub hmem, hval⟩

/-! ## The evaluation -/

/-- The machine's operation at `v` is the folded one, where both have a value. -/
lemma foldBinopOf_eq (hmarks : MarksOnComparisons f) {op : BinOp} {l r k : Word}
    (hinst : (∃ lhs rhs, f.insts[v]? = some (.binop op lhs rhs)) ∨
      ∃ lhs k, f.insts[v]? = some (.binopI op lhs k))
    (hk : foldBinopOf f v op l r = some k) (hx : m.binop f v op l r = some x) : x = k := by
  have hdiv : isNarrowDiv f v = (isDivmodOp op && isDiv32 f v) := by
    rcases hinst with ⟨_, _, h⟩ | ⟨_, _, h⟩
    · simp [isNarrowDiv, h]
    · simp [isNarrowDiv, h]
  have hfp : isFpOp op = false := by
    unfold foldBinopOf at hk
    split at hk
    · obtain ⟨_, hz, -⟩ := Option.map_eq_some_iff.mp hk
      exact (applyBinop_of_foldBinop hz).1
    · exact (applyBinop_of_foldBinop hk).1
  unfold foldBinopOf at hk
  simp only [Machine.binop, hfp, Bool.false_eq_true, if_false] at hx
  by_cases hnarrow : isNarrowDiv f v = true
  · rw [if_pos hnarrow] at hk
    rw [if_pos (hdiv ▸ hnarrow)] at hx
    obtain ⟨-, hx⟩ := Option.ite_none_left_eq_some.mp hx
    exact Option.some.inj (hx.symm.trans hk)
  · rw [if_neg hnarrow] at hk
    rw [if_neg (hdiv ▸ hnarrow)] at hx
    cases hcmp : isCmp32 f v with
    | true =>
      rw [hmarks v op hinst hcmp, hcmp] at hx
      rw [hcmp] at hk
      exact Option.some.inj (hx.symm.trans hk)
    | false =>
      rw [hcmp] at hx hk
      simp only [Bool.and_false, Bool.false_eq_true, if_false] at hx
      obtain ⟨-, hx⟩ := Option.ite_none_left_eq_some.mp hx
      have happly := (applyBinop_of_foldBinop (x := l) (y := r) (z := k) hk).2
      exact Option.some.inj (hx.symm.trans happly)

/-- A run that holds a value stands in a block. -/
lemma exists_block (hs : m.Reaches f w s) (hu : Held f s.block s.pc u) :
    ∃ blk, f.blocks[s.block]? = some blk := by
  cases hs with
  | initial =>
    obtain ⟨db, ⟨blk, hblk, -⟩, -⟩ := hu
    have hlt : 0 < f.blocks.length :=
      (Nat.zero_le db).trans_lt (List.getElem?_eq_some_iff.mp hblk).1
    exact ⟨f.blocks[0], List.getElem?_eq_getElem hlt⟩
  | step hs hstep =>
    obtain ⟨blk, hblk, ⟨-, _, _, -, -, rfl⟩ | ⟨-, b, blk', -, hblk', rfl⟩⟩ :=
      Machine.step_cases hstep
    · exact ⟨blk, hblk⟩
    · exact ⟨blk', hblk'⟩

lemma Folded.foldBinopOf_eq (h : Folded m f w g) (hinst : g.insts[v]? = f.insts[v]?) (op : BinOp)
    (l r : Word) : foldBinopOf g v op l r = foldBinopOf f v op l r := by
  simp only [foldBinopOf, isNarrowDiv, isDiv32, isCmp32, hinst, h.cmp32, h.div32]
  rfl

/-- A held operation on one register holds its value at what the operand holds. -/
lemma unary_eq (hf : Verified f) (hs : m.Reaches f w s) {blk : Block}
    (hblk : f.blocks[s.block]? = some blk) (hv : Held f s.block s.pc v) {y : Val}
    (hy : s.regs v = some y) {inst : Inst} {o : ℕ} {fn : Word → Word}
    (hinst : f.insts[v]? = some inst) (hrole : inst.role = .pure) (ho : o ∈ inst.operands)
    (hword : m.pureWord f v s.regs inst = (s.regs.word o).map fn) :
    ∃ a, Held f s.block s.pc o ∧ s.regs o = some (.word a) ∧ y = .word (fn a) := by
  obtain ⟨x, hx, hpure⟩ := hs.pure_eq hf hblk hv hinst hrole
  rw [hword] at hpure
  obtain ⟨a, ha, rfl⟩ := Option.map_eq_some_iff.mp hpure
  obtain ⟨hheld, hreg⟩ := hs.held_word hf hblk hv hinst hrole ho ha
  exact ⟨a, hheld, hreg, Option.some.inj (hy.symm.trans hx)⟩

/-- **The evaluation is sound**: where the pivot, if it is held, holds the constant it is bound to,
a held value evaluated to `k` holds `k`. -/
theorem Folded.evalWith (hfold : Folded m f w g) (hf : Verified f) (hzero : m.UndefZero f)
    (hentries : DefinedEntries m f w) (hmarks : MarksOnComparisons f) (hs : m.Reaches f w s)
    (hpivot : Held f s.block s.pc pivot → ∀ y, s.regs pivot = some y → y = .word bind)
    {fuel budget rest : ℕ} (hv : Held f s.block s.pc v) {y : Val} (hy : s.regs v = some y)
    (h : Badc.evalWith g pivot bind fuel v budget = some (k, rest)) : y = .word k := by
  obtain ⟨blk, hblk⟩ := exists_block hs hv
  induction fuel generalizing v y k budget rest with
  | zero => cases h
  | succ fuel ih =>
    unfold Badc.evalWith at h
    obtain ⟨-, h⟩ := Option.ite_none_left_eq_some.mp h
    split at h
    · rename_i hvp
      obtain ⟨rfl, -⟩ := Prod.mk.inj (Option.some.inj h)
      exact hpivot (hvp ▸ hv) y (hvp ▸ hy)
    · split at h
      · rename_i hk
        obtain ⟨rfl, -⟩ := Prod.mk.inj (Option.some.inj h)
        exact hfold.always_of_immOf hf hzero hentries hk s hs hv y hy
      · obtain ⟨-, h⟩ := Option.ite_none_left_eq_some.mp h
        split at h
        · rename_i a kind nsw hinst
          obtain ⟨p, hp, hpk⟩ := Option.map_eq_some_iff.mp h
          obtain ⟨x, hheld, hreg, rfl⟩ := unary_eq hf hs hblk hv hy
            (hfold.inst_eq hinst (by simp)) rfl (by simp [Inst.operands]) rfl
          obtain rfl := Val.word.inj (ih hheld hreg hp)
          rw [← (Prod.mk.inj hpk).1]
        · rename_i a width hinst
          obtain ⟨p, hp, hpk⟩ := Option.map_eq_some_iff.mp h
          obtain ⟨x, hheld, hreg, rfl⟩ := unary_eq hf hs hblk hv hy
            (hfold.inst_eq hinst (by simp)) rfl (by simp [Inst.operands]) rfl
          obtain rfl := Val.word.inj (ih hheld hreg hp)
          rw [← (Prod.mk.inj hpk).1]
        · rename_i op a width hinst
          obtain ⟨p, hp, hpk⟩ := Option.map_eq_some_iff.mp h
          obtain ⟨x, hheld, hreg, rfl⟩ := unary_eq hf hs hblk hv hy
            (hfold.inst_eq hinst (by simp)) rfl (by simp [Inst.operands]) rfl
          obtain rfl := Val.word.inj (ih hheld hreg hp)
          rw [← (Prod.mk.inj hpk).1]
        · rename_i op lhs imm hinst
          have hinst' := hfold.inst_eq hinst (by simp)
          obtain ⟨l, hl, h⟩ := Option.bind_eq_some_iff.mp h
          obtain ⟨z, hz, hzk⟩ := Option.map_eq_some_iff.mp h
          obtain ⟨x, hx, -⟩ := hs.pure_eq hf hblk hv hinst' rfl
          obtain ⟨a, ⟨hheld, hreg⟩, hbin⟩ := hs.binopI_eq hf hblk hv hinst' hx
          obtain rfl := Val.word.inj (ih hheld hreg hl)
          rw [hfold.foldBinopOf_eq (hinst.trans hinst'.symm)] at hz
          obtain rfl := Badc.foldBinopOf_eq hmarks (Or.inr ⟨_, _, hinst'⟩) hz hbin
          rw [← (Prod.mk.inj hzk).1]
          exact Option.some.inj (hy.symm.trans hx)
        · rename_i op lhs rhs hinst
          have hinst' := hfold.inst_eq hinst (by simp)
          obtain ⟨l, hl, h⟩ := Option.bind_eq_some_iff.mp h
          obtain ⟨r, hr, h⟩ := Option.bind_eq_some_iff.mp h
          obtain ⟨z, hz, hzk⟩ := Option.map_eq_some_iff.mp h
          obtain ⟨x, hx, -⟩ := hs.pure_eq hf hblk hv hinst' rfl
          obtain ⟨a, b, ⟨hheld, hreg⟩, ⟨hheld', hreg'⟩, hbin⟩ := hs.binop_eq hf hblk hv hinst' hx
          obtain rfl := Val.word.inj (ih hheld hreg hl)
          obtain rfl := Val.word.inj (ih hheld' hreg' hr)
          rw [hfold.foldBinopOf_eq (hinst.trans hinst'.symm)] at hz
          obtain rfl := Badc.foldBinopOf_eq hmarks (Or.inl ⟨_, _, hinst'⟩) hz hbin
          rw [← (Prod.mk.inj hzk).1]
          exact Option.some.inj (hy.symm.trans hx)
        · cases h

/-- A uniform answer is the answer for every constant. -/
lemma uniformOf_eq_some {uniform : Option Word} (h : uniformOf g u pivot values uniform = some k) :
    (uniform = none ∨ uniform = some k) ∧ (uniform = none → values ≠ []) ∧
      ∀ bind ∈ values, ∃ rest,
        Badc.evalWith g pivot bind (selectEvalBudget + 1) u selectEvalBudget = some (k, rest) := by
  induction values generalizing uniform with
  | nil =>
    obtain rfl : uniform = some k := h
    simp
  | cons bind values ih =>
    unfold uniformOf at h
    split at h
    · rename_i k' rest heval
      obtain ⟨hprev, h⟩ := Option.ite_none_right_eq_some.mp h
      obtain ⟨hk, -, hall⟩ := ih h
      obtain rfl : k' = k := by simpa using hk
      exact ⟨hprev, by simp, List.forall_mem_cons.mpr ⟨⟨rest, heval⟩, hall⟩⟩
    · cases h

/-- **A folded consumer** always holds the common answer. -/
lemma Folded.always_of_foldedTo (hfold : Folded m f w g) (hf : Verified f) (hzero : m.UndefZero f)
    (hentries : DefinedEntries m f w) (hmarks : MarksOnComparisons f)
    (hvalues : ∀ s, m.Reaches f w s → Held f s.block s.pc pivot → ∀ y, s.regs pivot = some y →
      ∃ bind ∈ values, y = .word bind)
    (h : foldedTo g u pivot values = some k) : Always m f w u k := by
  obtain ⟨-, h⟩ := Option.ite_none_left_eq_some.mp h
  obtain ⟨-, hne, hall⟩ := uniformOf_eq_some h
  obtain ⟨first, values', rfl⟩ := List.exists_cons_of_ne_nil (hne rfl)
  intro s hs hu y hy
  -- The constant the pivot holds now, or any where it is not held.
  obtain ⟨bind, hbind, hpivot⟩ : ∃ bind ∈ first :: values',
      (Held f s.block s.pc pivot → ∀ z, s.regs pivot = some z → z = .word bind) := by
    by_cases hp : Held f s.block s.pc pivot ∧ ∃ z, s.regs pivot = some z
    · obtain ⟨hheld, z, hz⟩ := hp
      obtain ⟨bind, hmem, rfl⟩ := hvalues s hs hheld z hz
      exact ⟨bind, hmem, fun _ z' hz' => Option.some.inj (hz'.symm.trans hz)⟩
    · exact ⟨first, (.head _), fun hheld z hz => absurd ⟨hheld, z, hz⟩ hp⟩
  obtain ⟨rest, heval⟩ := hall bind hbind
  exact hfold.evalWith hf hzero hentries hmarks hs hpivot hu hy heval

/-! ## The walks -/

/-- Replacing a foldable instruction by the constant it always holds keeps the relation. -/
lemma Folded.setImm (hfold : Folded m f w g) (hu : (g.insts[u]?).any Inst.isFoldable = true)
    (hk : Always m f w u k) : Folded m f w (g.setImm u k) := by
  refine ⟨by simp [FunctionSsa.setImm, hfold.length], hfold.f32Values, hfold.cmp32, hfold.div32,
    fun v => ?_⟩
  obtain ⟨inst, hinst, hfoldable⟩ : ∃ inst, g.insts[u]? = some inst ∧ inst.isFoldable = true := by
    cases hg : g.insts[u]? with
    | none =>
      rw [hg] at hu
      cases hu
    | some inst =>
      rw [hg] at hu
      exact ⟨inst, rfl, hu⟩
  by_cases hv : u = v
  · subst hv
    right
    refine ⟨k, inst, ?_, hfold.inst_eq hinst (Inst.isFoldable_cases hfoldable).2.2.1, hfoldable, hk⟩
    exact List.getElem?_set_self (List.getElem?_eq_some_iff.mp hinst).1
  · have hsame : (g.setImm u k).insts[v]? = g.insts[v]? := List.getElem?_set_ne hv
    rw [hsame]
    exact hfold.insts v

/-- One round of a walk keeps the relation. -/
lemma Walk.step_folded (hf : Verified f) (hzero : m.UndefZero f) (hentries : DefinedEntries m f w)
    (hmarks : MarksOnComparisons f)
    (hvalues : ∀ s, m.Reaches f w s → Held f s.block s.pc pivot → ∀ y, s.regs pivot = some y →
      ∃ bind ∈ values, y = .word bind)
    {users : ℕ → List ℕ} {stamp : ℕ} {t t' : Walk} (ht : Folded m f w t.func)
    (h : t.step users pivot values stamp = some t') : Folded m f w t'.func := by
  unfold Walk.step at h
  split at h
  · cases h
  · rename_i u queue hqueue
    split at h
    · obtain rfl := Option.some.inj h
      exact ht
    · dsimp only at h
      split at h
      · rename_i hu
        cases hk : foldedTo t.func u pivot values with
        | none =>
          rw [hk] at h
          obtain rfl := Option.some.inj h
          exact ht
        | some k =>
          rw [hk] at h
          obtain rfl := Option.some.inj h
          exact ht.setImm hu (ht.always_of_foldedTo hf hzero hentries hmarks hvalues hk)
      · obtain rfl := Option.some.inj h
        exact ht

lemma mem_of_selectValues (hf : Verified f) (hzero : m.UndefZero f)
    (hentries : DefinedEntries m f w) (h : selectValues f pivot = some values)
    (hs : m.Reaches f w s) (hu : Held f s.block s.pc pivot) {y : Val}
    (hy : s.regs pivot = some y) : ∃ bind ∈ values, y = .word bind := by
  unfold selectValues at h
  split at h
  · obtain ⟨hcollect, -⟩ := Option.filter_eq_some_iff.mp h
    exact mem_collectSelectValues hf hzero hentries hs hu hy hcollect
  · cases h

/-- Folding the selects keeps the relation. -/
lemma folded_foldSelects (hf : Verified f) (hzero : m.UndefZero f)
    (hentries : DefinedEntries m f w) (hmarks : MarksOnComparisons f) :
    Folded m f w (foldSelects f).1 := by
  have hall : ∀ p ∈ (selects f).zipIdx, selectValues f p.1.1 = some p.1.2 := by
    intro p hp
    have hmem : p.1 ∈ selects f := List.fst_mem_of_mem_zipIdx hp
    obtain ⟨v, -, hv⟩ := List.mem_filterMap.mp hmem
    obtain ⟨values, hvalues, hpair⟩ := Option.map_eq_some_iff.mp hv
    rw [← hpair]
    exact hvalues
  have hfold : ∀ (l : List ((ℕ × List Word) × ℕ)) (t : Walk),
      (∀ p ∈ l, selectValues f p.1.1 = some p.1.2) → Folded m f w t.func →
      Folded m f w (l.foldl (walkFrom f) t).func := by
    intro l
    induction l with
    | nil => exact fun t _ ht => ht
    | cons p l ih =>
      intro t hl ht
      rw [List.foldl_cons]
      refine ih _ (fun q hq => hl q (.tail _ hq)) ?_
      exact whileSome_invariant (fun t : Walk => Folded m f w t.func)
        (fun t t' ht hstep => Walk.step_folded hf hzero hentries hmarks
          (fun s hs hu y hy => mem_of_selectValues hf hzero hentries
            (hl p (.head _)) hs hu hy) ht hstep) _ ht
  exact hfold _ _ hall (Folded.refl m f w)

/-- **Folding the selects is sound.**  In a function the verifier accepts, with comparison marks on
integer comparisons alone, an instruction `foldSelects` changes has become an immediate, and in
every run that takes no indeterminate phi entry it computes that immediate's value: executing it
leaves the constant, and it holds the constant wherever it is in scope. -/
theorem foldSelects_sound (hf : Verify.check f = .ok ()) (hmarks : MarksOnComparisons f)
    (hzero : m.UndefZero f) (hentries : DefinedEntries m f w) {u : ℕ}
    (hu : (foldSelects f).1.insts[u]? ≠ f.insts[u]?) :
    ∃ k, (foldSelects f).1.insts[u]? = some (.imm k) ∧ Always m f w u k ∧
      ∀ s inst r, m.Reaches f w s → s.pc = u → InBlock f u s.block → f.insts[u]? = some inst →
        m.exec f u s.regs s.world inst = some r → r.1 u = some (.word k) := by
  have hfold := folded_foldSelects (check_eq_ok_iff.mp hf) hzero hentries hmarks
  obtain ⟨k, inst, hk, hinst, hfoldable, halways⟩ := (hfold.insts u).resolve_left hu
  refine ⟨k, hk, halways, ?_⟩
  rintro s inst' r hs rfl hpc hinst' hr
  obtain rfl := Option.some.inj (hinst.symm.trans hinst')
  obtain ⟨x, -, rfl⟩ := Machine.exec_pure (Inst.isFoldable_cases hfoldable).2.1 hr
  have hreg : (s.regs.set s.pc (some (.word x))) s.pc = some (.word x) := Regs.set_self
  exact hreg.trans (congrArg some (halways.exec hs hpc hinst hr hreg))

end Sound

/-! ## Three functions -/

/-- Asks whether one of 1 and 0, as the parameter selects, is above 3. -/
def neverAbove : FunctionSsa where
  insts := [.imm 1, .imm 0, .paramRef 0 .i64, .phi [(0, 0), (1, 1)] .i64, .binopI .ugt 3 3]
  blocks := [{ instRange := ⟨0, 3⟩, terminator := .bz 2 2 1 },
    { instRange := ⟨3, 3⟩, terminator := .jmp 2 },
    { instRange := ⟨3, 5⟩, terminator := .ret 4 }]

/-- The question folds to no, which every run computes. -/
theorem foldSelects_sound_neverAbove :
    ∃ k, (foldSelects neverAbove).1.insts[4]? = some (.imm k) ∧
      Always Machine.null neverAbove .null 4 k := by
  have hmarks : MarksOnComparisons neverAbove := fun v op _ h => by
    simp [isCmp32, isMarked, neverAbove] at h
  have hzero : Machine.null.UndefZero neverAbove := fun v w x ext h =>
    (Prod.mk.inj (Option.some.inj h)).1.symm
  have hentries : DefinedEntries Machine.null neverAbove .null := by
    intro s blk b v incoming kind u _ _ _ _ _ _ _ h
    exact absurd (List.mem_of_getElem? h) (by simp [neverAbove])
  obtain ⟨k, hk, halways, -⟩ := foldSelects_sound (u := 4) (by decide +kernel) hmarks hzero
    hentries (by decide +kernel)
  exact ⟨k, hk, halways⟩

/-- Merges an indeterminate value with 2 where the parameter is not zero, then the merge with 1,
and asks whether the result is above 0. -/
def indeterminate : FunctionSsa where
  insts := [.undef, .imm 1, .imm 2, .paramRef 0 .i64, .phi [(0, 0), (1, 2)] .i64,
    .phi [(2, 4), (3, 1)] .i64, .binopI .ugt 5 0]
  blocks := [{ instRange := ⟨0, 4⟩, terminator := .bz 3 2 1 },
    { instRange := ⟨4, 4⟩, terminator := .jmp 2 },
    { instRange := ⟨4, 5⟩, terminator := .bz 3 4 3 },
    { instRange := ⟨5, 5⟩, terminator := .jmp 4 },
    { instRange := ⟨5, 7⟩, terminator := .ret 6 }]

/-- Masks the higher of two bits above the low word, the mask marked as a comparison of low
words. -/
def markedMask : FunctionSsa where
  insts := [.imm 0x100000000, .imm 0x300000000, .paramRef 0 .i64, .phi [(0, 0), (1, 1)] .i64,
    .binopI .and 3 0x100000000]
  blocks := [{ instRange := ⟨0, 3⟩, terminator := .bz 2 2 1 },
    { instRange := ⟨3, 3⟩, terminator := .jmp 2 },
    { instRange := ⟨3, 5⟩, terminator := .ret 4 }]
  cmp32 := [false, false, false, false, true]

/-- Both functions are accepted.  In the first the question folds to yes, and over the
indeterminate entry, read as zero, the function answers no; in the second the mask folds to zero,
and the function keeps the bit. -/
theorem foldSelects_indeterminate :
    (Verify.check indeterminate = .ok () ∧
      (foldSelects indeterminate).1.insts[6]? = some (.imm 1) ∧
      Machine.null.run indeterminate 12 (Machine.null.initial indeterminate .null) =
        some (.returned (some (.word 0)) .null)) ∧
    Verify.check markedMask = .ok () ∧ (foldSelects markedMask).1.insts[4]? = some (.imm 0) ∧
      Machine.null.run markedMask 12 (Machine.null.initial markedMask .null) =
        some (.returned (some (.word 0x100000000)) .null) := by
  refine ⟨⟨by decide +kernel, by decide +kernel, rfl⟩, by decide +kernel, by decide +kernel, rfl⟩

end Badc
