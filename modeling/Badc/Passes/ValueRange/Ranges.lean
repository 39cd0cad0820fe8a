import Badc.Passes.ValueRange.Settle

/-!
# Ranges along a run

`Ranges` of `src/c5/codegen/passes/value_range.rs`: the definition ranges of a function, and the
bounds on a value where a block reads it.

`Ranges.compute_sound` says that in every run of a function whose widths agree, every word an
instruction leaves in its register lies in its definition range, and every word an instruction or
a terminator reads lies in the bounds of its block.
-/

namespace Badc

/-! ## A split remainder -/

/-- What a signed division leaves over. -/
lemma sub_sdiv_mul (x y : Word) : x - x.sdiv y * y = x.srem y := by
  have hq : x.sdiv y = BitVec.ofInt 64 (x.toInt.tdiv y.toInt) := by
    apply BitVec.eq_of_toInt_eq
    rw [BitVec.toInt_sdiv, BitVec.toInt_ofInt]
  have hr : x.srem y = BitVec.ofInt 64 (x.toInt.tmod y.toInt) := by
    rw [← BitVec.toInt_srem, BitVec.ofInt_toInt]
  have hsum : x = x.srem y + x.sdiv y * y := calc
    x = BitVec.ofInt 64 (x.toInt.tmod y.toInt + x.toInt.tdiv y.toInt * y.toInt) := by
        rw [Int.tmod_add_tdiv_mul, BitVec.ofInt_toInt]
    _ = x.srem y + x.sdiv y * y := by
        rw [BitVec.ofInt_add, BitVec.ofInt_mul, hq, hr, BitVec.ofInt_toInt]
  exact BitVec.sub_eq_iff_eq_add.mpr hsum

/-- What an unsigned division leaves over. -/
lemma sub_udiv_mul (x y : Word) : x - x / y * y = x % y := by
  have hsum : x = x % y + x / y * y := by
    apply BitVec.eq_of_toNat_eq
    have h := Nat.div_add_mod' x.toNat y.toNat
    have hlt := x.isLt
    simp only [BitVec.toNat_add, BitVec.toNat_mul, BitVec.toNat_udiv, BitVec.toNat_umod]
    rw [Nat.mod_eq_of_lt (a := x.toNat / y.toNat * y.toNat) (by omega),
      Nat.mod_eq_of_lt (by omega)]
    omega
  exact BitVec.sub_eq_iff_eq_add.mpr hsum

namespace ValueRange

/-- What the rules of a function read. -/
def rulesOf (f : FunctionSsa) (params : List Range) : Rules where
  func := f
  params
  numbers := valueNumbers f
  guards := Guards.new f (valueNumbers f) params

variable {f : FunctionSsa} {params : List Range}

/-- A split remainder subtracts from its dividend the product of its quotient and its divisor. -/
lemma splitRemainder_spec {v : ℕ} {s : SplitRemainder} (h : splitRemainder f v = some s) :
    ∃ t op q, f.insts[v]? = some (.binop .sub s.dividend t) ∧ remainderOp op = some s.op ∧
      s.quotient = q ∧ f.insts[q]? = some (.binop op s.dividend s.divisor) ∧
      (f.insts[t]? = some (.binop .mul q s.divisor) ∨ f.insts[t]? = some (.binop .mul s.divisor q) ∨
        ∃ k, f.insts[t]? = some (.binopI .mul q k) ∧ f.insts[s.divisor]? = some (.imm k)) := by
  have hq : ∀ {n q : ℕ} {factor : ℕ ⊕ Word}, splitQuotient f n q factor = some s →
      ∃ op, remainderOp op = some s.op ∧ s.quotient = q ∧ s.dividend = n ∧
        f.insts[q]? = some (.binop op n s.divisor) ∧
        (∀ m, factor = .inl m → m = s.divisor) ∧
        ∀ k, factor = .inr k → f.insts[s.divisor]? = some (.imm k) := by
    intro n q factor hs
    unfold splitQuotient at hs
    split at hs
    · rename_i op lhs d hinst
      obtain ⟨hsame, hs⟩ := Option.ite_none_right_eq_some.mp hs
      obtain ⟨op', hop', rfl⟩ := Option.map_eq_some_iff.mp hs
      simp only [Bool.and_eq_true, decide_eq_true_eq] at hsame
      obtain ⟨rfl, hsame⟩ := hsame
      refine ⟨op, hop', rfl, rfl, hinst, ?_, ?_⟩
      · rintro m rfl
        simpa using hsame
      · rintro k rfl
        simpa using hsame
    · cases hs
  unfold splitRemainder at h
  split at h
  · rename_i n t hv
    split at h
    · rename_i x y ht
      rcases Option.or_eq_some_iff.mp h with h | ⟨-, h⟩
      · obtain ⟨op, h1, h2, rfl, h4, h5, -⟩ := hq h
        obtain rfl := h5 _ rfl
        exact ⟨t, op, _, hv, h1, h2, h4, Or.inl ht⟩
      · obtain ⟨op, h1, h2, rfl, h4, h5, -⟩ := hq h
        obtain rfl := h5 _ rfl
        exact ⟨t, op, _, hv, h1, h2, h4, Or.inr (Or.inl ht)⟩
    · rename_i x k ht
      obtain ⟨op, h1, h2, rfl, h4, -, h6⟩ := hq h
      exact ⟨t, op, _, hv, h1, h2, h4, Or.inr (Or.inr ⟨k, ht, h6 k rfl⟩)⟩
    · cases h
  · cases h

/-- A remainder is what the quotient leaves over. -/
lemma applyBinop_remainder {op op' : BinOp} {x y z : Word} (hop : remainderOp op = some op')
    (hz : applyBinop op x y = some z) : applyBinop op' x y = some (x - z * y) := by
  cases op with
  | div =>
    obtain rfl := Option.some.inj hop
    obtain ⟨hy, hz⟩ := Option.ite_none_left_eq_some.mp hz
    obtain rfl := Option.some.inj hz
    simp only [applyBinop, hy, if_false, sub_sdiv_mul]
  | divu =>
    obtain rfl := Option.some.inj hop
    obtain ⟨hy, hz⟩ := Option.ite_none_left_eq_some.mp hz
    obtain rfl := Option.some.inj hz
    simp only [applyBinop, hy, if_false, sub_udiv_mul]
  | _ => cases hop

lemma zext32_of_highWordClear {a : Range} {x : Word} (ha : a.highWordClear = true) (hx : a.Has x) :
    zext32 x = x := by
  simp only [Range.highWordClear, Bool.and_eq_true, decide_eq_true_eq] at ha
  exact zext32_of_has ⟨ha.1.trans hx.1, hx.2.trans ha.2⟩

/-- A hull of several ranges has what any of them has. -/
lemma has_foldl_hull {a r : Range} {as : List Range} {x : Word} (hr : r ∈ a :: as) (hx : r.Has x) :
    (as.foldl Range.hull a).Has x := by
  induction as generalizing a r with
  | nil =>
    obtain rfl := List.mem_singleton.mp hr
    exact hx
  | cons b as ih =>
    rw [List.foldl_cons]
    rcases List.mem_cons.mp hr with rfl | hr
    · exact ih (.head _) (Range.has_hull_left hx)
    · rcases List.mem_cons.mp hr with rfl | hr
      · exact ih (.head _) (Range.has_hull_right hx)
      · exact ih (.tail _ hr) hx

section Run

variable {m : Machine} {w : World m.Ext} {s : State m.Ext}

/-- The quotient a split remainder multiplies by its divisor is the whole one. -/
lemma whole_quotient {op op' : BinOp} {q : ℕ} {a d : Range} {x y z : Word}
    (hop : remainderOp op = some op') (ha : a.Has x) (hd : d.Has y)
    (hq : m.binop f q op x y = some z)
    (hwhole : isDiv32 f q = false ∨ op' = .modu ∧ a.highWordClear ∧ d.highWordClear) :
    applyBinop op x y = some z := by
  have hdivmod : isDivmodOp op = true := by cases op <;> first | rfl | cases hop
  have hplain : isFpOp op = false ∧ isIntComparisonOp op = false := by
    cases op <;> first | exact ⟨rfl, rfl⟩ | cases hop
  cases hmark : isDiv32 f q with
  | false =>
    simp only [Machine.binop, hplain, hmark, Bool.and_false, Bool.false_and, Bool.false_eq_true,
      if_false] at hq
    exact (Option.ite_none_left_eq_some.mp hq).2
  | true =>
    obtain ⟨rfl, hac, hdc⟩ := hwhole.resolve_left (by simp [hmark])
    have hopu : op = .divu := by cases op <;> first | rfl | cases hop
    subst hopu
    obtain ⟨z₀, hz₀, rfl⟩ := Machine.binop_narrow hdivmod hmark hq
    have hlx : lowWord .divu x = x := zext32_of_highWordClear hac ha
    have hly : lowWord .divu y = y := zext32_of_highWordClear hdc hd
    rw [hlx, hly] at hz₀
    rw [zext32_of_narrow (x := x) (y := y) hdivmod (by rw [hlx, hly]; exact hz₀)]
    · exact hz₀
    · obtain ⟨hy0, hz₀⟩ := Option.ite_none_left_eq_some.mp hz₀
      obtain rfl := Option.some.inj hz₀
      have hx0 : 0 ≤ x.toInt := by
        simp only [Range.highWordClear, Bool.and_eq_true, decide_eq_true_eq] at hac
        exact hac.1.trans ha.1
      have hxn := Range.toNat_of_nonneg hx0
      have hxm := Range.toInt_mem x
      have hle : (x / y).toNat ≤ x.toNat := by
        rw [BitVec.toNat_udiv]
        exact Nat.div_le_self _ _
      rw [Range.toInt_of_lt (by omega)]
      omega

/-- Every held word lies in its entry of the settled table. -/
def EntriesHold (params : List Range) (f : FunctionSsa) (s : State m.Ext) : Prop :=
  ∀ u x, Held f s.block s.pc u → s.regs u = some (.word x) →
    ∃ r, (rulesOf f params).settled.cur u = some r ∧ r.Has x

/-- A held word lies in its entry as the block sees it. -/
lemma EntriesHold.seen (hf : Verified f) (hfit : WidthsAgree f) (hpar : m.ParamsIn params)
    (hs : m.Reaches f w s) (h : EntriesHold params f s) {blk : Block}
    (hblk : f.blocks[s.block]? = some blk) {u : ℕ} {x : Word} (hu : Held f s.block s.pc u)
    (hx : s.regs u = some (.word x)) :
    ∃ a, (rulesOf f params).seen (rulesOf f params).settled.cur s.block u = some a ∧ a.InWord ∧
      a.Has x := by
  obtain ⟨r, hr, hhas⟩ := h u x hu hx
  have hnarrow := hs.has_narrow hf hfit hpar hblk hu hx hhas
  refine ⟨_, ?_, ?_, hnarrow⟩
  · unfold Rules.seen
    rw [hr]
    exact if_pos (hnarrow.1.trans hnarrow.2)
  · exact inWord_of_contains ((rulesOf f params).settled_spec.1 u r hr)
      (Guards.narrow_contained _ _ _ _)

/-- The product a split remainder subtracts is of its quotient's register and its divisor's. -/
lemma product_eq (hf : Verified f) (hs : m.Reaches f w s) {blk : Block}
    (hblk : f.blocks[s.block]? = some blk) {t q d : ℕ} {x : Word} (ht : Held f s.block s.pc t)
    (hx : s.regs t = some (.word x))
    (hprod : f.insts[t]? = some (.binop .mul q d) ∨ f.insts[t]? = some (.binop .mul d q) ∨
      ∃ k, f.insts[t]? = some (.binopI .mul q k) ∧ f.insts[d]? = some (.imm k)) :
    ∃ xq xd, (Held f s.block s.pc q ∧ s.regs q = some (.word xq)) ∧
      (Held f s.block s.pc d → s.regs d = some (.word xd)) ∧ x = xq * xd := by
  rcases hprod with hmul | hmul | ⟨k, hmul, hk⟩
  · obtain ⟨xq, xd, hq, ⟨-, hd⟩, heq⟩ := hs.binop_eq hf hblk ht hmul hx
    rw [Machine.binop_plain rfl rfl rfl] at heq
    exact ⟨xq, xd, hq, fun _ => hd, (Option.some.inj heq).symm⟩
  · obtain ⟨xd, xq, ⟨-, hd⟩, hq, heq⟩ := hs.binop_eq hf hblk ht hmul hx
    rw [Machine.binop_plain rfl rfl rfl] at heq
    refine ⟨xq, xd, hq, fun _ => hd, ?_⟩
    rw [← Option.some.inj heq, BitVec.mul_comm]
  · obtain ⟨xq, hq, heq⟩ := hs.binopI_eq hf hblk ht hmul hx
    rw [Machine.binop_plain rfl rfl rfl] at heq
    refine ⟨xq, k, hq, fun hheld => ?_, (Option.some.inj heq).symm⟩
    obtain ⟨y, hy, hyk⟩ := hs.pure_eq hf hblk hheld hk rfl
    rw [hy, ← Option.some.inj hyk]

/-- The bounds a split remainder has from its divisor have the word it computes. -/
lemma EntriesHold.splitBounds (hf : Verified f) (hfit : WidthsAgree f) (hpar : m.ParamsIn params)
    (hs : m.Reaches f w s) (h : EntriesHold params f s) {blk : Block}
    (hblk : f.blocks[s.block]? = some blk) (hpc : InBlock f s.pc s.block) {inst : Inst}
    (hinst : f.insts[s.pc]? = some inst) {z : Word} (hz : inst.role = .pure →
      m.pureWord f s.pc s.regs inst = some z) {r : Range} (hr : r.Has z) :
    ((rulesOf f params).splitBounds (rulesOf f params).settled.cur s.block s.pc r).Has z := by
  have hreach := (hs.placed hf hblk).1
  unfold Rules.splitBounds
  split
  · rename_i sr hsplit
    split
    · rename_i a d ha hd
      split
      · rename_i hwhole
        obtain ⟨t, op, q, hsub, hop, rfl, hq, hprod⟩ := splitRemainder_spec hsplit
        obtain rfl := Option.some.inj (hinst.symm.trans hsub)
        -- The dividend and the product are operands of the subtraction.
        have hzv := hz rfl
        simp only [Machine.pureWord, bind, Option.bind_eq_some_iff] at hzv
        obtain ⟨xn, hxn, xt, hxt, hzv⟩ := hzv
        rw [Machine.binop_plain rfl rfl rfl] at hzv
        obtain rfl : xn - xt = z := Option.some.inj hzv
        have hread : ∀ o ∈ [sr.dividend, t], ∀ x, s.regs.word o = some x →
            Held f s.block s.pc o ∧ s.regs o = some (.word x) := by
          intro o ho x hx
          obtain ⟨hne, hrx⟩ := Regs.get_eq_some (Regs.word_eq_some.mp hx)
          exact ⟨(hf.reads _ _ _ hreach hpc hinst rfl o ho hne).held, hrx⟩
        obtain ⟨hheldn, hrn⟩ := hread _ (by simp) xn hxn
        obtain ⟨hheldt, hrt⟩ := hread t (by simp) xt hxt
        obtain ⟨xq, xd, ⟨hheldq, hrq⟩, hrd, rfl⟩ := product_eq hf hs hblk hheldt hrt hprod
        obtain ⟨xn', xd', ⟨-, hrn'⟩, ⟨hheldd, hrd'⟩, hxq⟩ := hs.binop_eq hf hblk hheldq hq hrq
        obtain rfl := Val.word.inj (Option.some.inj (hrn.symm.trans hrn'))
        obtain rfl := Val.word.inj (Option.some.inj ((hrd hheldd).symm.trans hrd'))
        obtain ⟨a', ha', haw, hahas⟩ := h.seen hf hfit hpar hs hblk hheldn hrn
        obtain rfl := Option.some.inj (ha.symm.trans ha')
        obtain ⟨d', hd', hdw, hdhas⟩ := h.seen hf hfit hpar hs hblk hheldd hrd'
        obtain rfl := Option.some.inj (hd.symm.trans hd')
        have hdivmod : isDivmodOp sr.op = true := by
          cases op <;> first | cases hop | (rw [← Option.some.inj hop]; rfl)
        have hwhole : isDiv32 f sr.quotient = false ∨
            sr.op = .modu ∧ a.highWordClear ∧ d.highWordClear := by
          simpa [rulesOf, and_assoc] using hwhole
        have hquot := whole_quotient hop hahas hdhas hxq hwhole
        have hrem := Range.has_divmod hdivmod haw hdw hahas hdhas (applyBinop_remainder hop hquot)
        dsimp only
        split
        · exact Range.has_meet.mpr ⟨hr, hrem⟩
        · exact hr
      · exact hr
    · exact hr
  · exact hr

/-- The rule of an executed instruction has the word it leaves. -/
lemma EntriesHold.instRule (hf : Verified f) (hfit : WidthsAgree f) (hpar : m.ParamsIn params)
    (hs : m.Reaches f w s) (h : EntriesHold params f s) (hpc : InBlock f s.pc s.block)
    {inst : Inst} (hinst : f.insts[s.pc]? = some inst) (hphi : inst.isPhi = false)
    {r : Regs × World m.Ext} (hr : m.exec f s.pc s.regs s.world inst = some r) {x : Word}
    (hx : r.1 s.pc = some (.word x)) :
    ∃ b, (rulesOf f params).rule (rulesOf f params).settled.cur s.pc = some b ∧ b.Has x := by
  obtain ⟨blk, hblk, hstart, hstop⟩ := id hpc
  have hreach := (hs.placed hf hblk).1
  rw [Rules.rule_of_not_phi _ _ hinst hphi]
  have hblock : (rulesOf f params).blockOf s.pc = s.block := by
    simp only [Rules.blockOf, rulesOf, blockIndex_eq hf hpc, Option.getD_some]
  rw [hblock]
  have hops : ∀ o ∈ inst.operands, ∀ y, s.regs.word o = some y →
      ∃ a, (rulesOf f params).seen (rulesOf f params).settled.cur s.block o = some a ∧ a.InWord ∧
        a.Has y := by
    intro o ho y hy
    obtain ⟨hne, hreg⟩ := Regs.get_eq_some (Regs.word_eq_some.mp hy)
    exact h.seen hf hfit hpar hs hblk (hf.reads _ _ _ hreach hpc hinst hphi o ho hne).held hreg
  -- The operator's bounds have the word.
  obtain ⟨b, hb, hhas⟩ : ∃ b, eval inst params (fun o => ((rulesOf f params).seen
        (rulesOf f params).settled.cur s.block o).map (clamp (narrowWindow f s.pc inst))) = some b ∧
      (if (narrowWindow f s.pc inst).isSome && b.lo < 0 then .univ else b : Range).Has x := by
    cases hdiv : isNarrowDiv f s.pc with
    | false =>
      have hwin : narrowWindow f s.pc inst = none := by
        cases inst <;> simp [narrowWindow, hdiv]
      have hid : clamp none = id := rfl
      simp only [hwin, hid, Option.map_id, id, Option.isSome_none, Bool.false_and,
        Bool.false_eq_true, if_false]
      exact Machine.has_eval hr hx hinst hdiv hpar hops
    | true =>
      have hcase : ∃ op lhs rhs k, (inst = .binop op lhs rhs ∨ inst = .binopI op lhs k) ∧
          isDivmodOp op = true ∧ isDiv32 f s.pc = true := by
        cases inst with
        | binop op lhs rhs =>
          simp only [isNarrowDiv, hinst, Bool.and_eq_true] at hdiv
          exact ⟨op, lhs, rhs, 0, Or.inl rfl, hdiv⟩
        | binopI op lhs k =>
          simp only [isNarrowDiv, hinst, Bool.and_eq_true] at hdiv
          exact ⟨op, lhs, 0, k, Or.inr rfl, hdiv⟩
        | _ => simp [isNarrowDiv, hinst] at hdiv
      obtain ⟨op, lhs, rhs, k, hform, hop, hmark⟩ := hcase
      have hwin : narrowWindow f s.pc inst = some (lowWindow op) := by
        rcases hform with rfl | rfl
        all_goals
          simp only [narrowWindow, hdiv, if_true]
          cases op <;> rfl
      have hrole : inst.role = .pure := by
        rcases hform with rfl | rfl <;> rfl
      obtain ⟨y, hy, rfl⟩ := Machine.exec_pure hrole hr
      simp only [Regs.set_self, Option.some.injEq] at hx
      obtain rfl := Val.word.inj hx
      simp only [hwin, Option.isSome_some, Bool.true_and, decide_eq_true_eq]
      refine has_eval_narrow (k := k) hy (hform.imp_right fun hi => ⟨hi, ?_⟩) hop hmark hops
      subst hi
      exact hfit.imms s.pc op lhs k hinst hop hmark
  have hsplit := h.splitBounds hf hfit hpar hs hblk hpc hinst (z := x) (fun hrole => by
    obtain ⟨y, hy, rfl⟩ := Machine.exec_pure hrole hr
    simp only [Regs.set_self, Option.some.injEq] at hx
    rw [hy, Val.word.inj hx]) hhas
  -- The guards hold of the value once it is there.
  have hnext : m.Reaches f w { s with pc := s.pc + 1, regs := r.1, world := r.2 } := by
    refine hs.step ?_
    simp only [Machine.step, hblk, hstop, if_true, hinst, hr, Option.map_some]
  have hown : Held f s.block (s.pc + 1) s.pc :=
    ⟨s.block, hpc, fun _ => Or.inl (Nat.lt_succ_self _), fun h => absurd rfl h⟩
  have hguard := hnext.has_narrow hf hfit hpar hblk hown hx hsplit
  refine ⟨_, ?_, hguard⟩
  unfold Rules.instRule
  simp only [bind, Option.bind_eq_some_iff]
  exact ⟨b, hb, if_pos (hguard.1.trans hguard.2)⟩

/-- What an incoming value brings over the edge a run takes has the word it brings. -/
lemma EntriesHold.income (hf : Verified f) (hfit : WidthsAgree f) (hpar : m.ParamsIn params)
    (hs : m.Reaches f w s) {blk : Block} (hblk : f.blocks[s.block]? = some blk)
    (hpc : blk.instRange.stop ≤ s.pc) {b u : ℕ} (hb : m.branchTo f s blk.terminator = some b)
    (hu : Held f s.block s.pc u) {x : Word} (hx : s.regs u = some (.word x)) {r₀ : Range}
    (hentry : (rulesOf f params).settled.cur u = some r₀) (hr₀ : r₀.Has x) :
    ∃ r, (rulesOf f params).income (rulesOf f params).settled.cur b (s.block, u) = some r ∧
      r.Has x := by
  have hguard := hs.has_narrow hf hfit hpar hblk hu hx hr₀
  have hseen : (rulesOf f params).seen (rulesOf f params).settled.cur s.block u =
      some ((rulesOf f params).guards.narrow s.block ((rulesOf f params).numbers.of u) r₀) := by
    unfold Rules.seen
    rw [hentry]
    exact if_pos (hguard.1.trans hguard.2)
  have hhas : ((rulesOf f params).overEdge b (s.block, u)
      ((rulesOf f params).guards.narrow s.block ((rulesOf f params).numbers.of u) r₀)).Has x := by
    unfold Rules.overEdge
    split
    · rename_i cond holds hcond
      obtain ⟨xc, hxc, hholds⟩ := Machine.edgeCondition_truth hfit.tests hblk hb hcond
      obtain ⟨hheld, hreg⟩ := hs.held_condition hf hblk hpc
        (Machine.mem_operands_of_edgeCondition hcond hblk) hxc
      refine List.foldlRecOn (motive := fun r' : Range => r'.Has x) _ _ hguard fun r' hr' e he => ?_
      split
      · rename_i hnum
        exact Bound.has_narrow hr'
          (hs.edge_sat hf hfit hpar hblk hcond hheld hreg hholds he hu hnum hx)
      · exact hr'
    · exact hguard
  refine ⟨_, ?_, hhas⟩
  unfold Rules.income
  rw [hseen]
  exact if_pos (hhas.1.trans hhas.2)

/-- In every state of a run, every held word lies in its entry of the settled table. -/
theorem entriesHold (hf : Verified f) (hfit : WidthsAgree f) (hpar : m.ParamsIn params)
    (hs : m.Reaches f w s) : EntriesHold params f s := by
  have hclosed : ∀ {v : ℕ} {b : Range} {x : Word},
      (rulesOf f params).rule (rulesOf f params).settled.cur v = some b → b.Has x →
      ∃ r, (rulesOf f params).settled.cur v = some r ∧ r.Has x := by
    intro v b x hrule hb
    obtain ⟨r, hr, hcon⟩ := (rulesOf f params).settled_spec.2 v b hrule
    exact ⟨r, hr, Range.has_of_contains hcon hb⟩
  intro u x hu hx
  refine hs.held_rule hf (fun v y => ∀ x, y = .word x →
    ∃ r, (rulesOf f params).settled.cur v = some r ∧ r.Has x) ?_ ?_ hu hx x rfl
  · rintro s inst r _ hs ih hpc hinst hphi hr hx x rfl
    have hentries : EntriesHold params f s := fun u x hu hx => ih u _ hu hx x rfl
    obtain ⟨b, hrule, hb⟩ := hentries.instRule hf hfit hpar hs hpc hinst hphi hr hx
    exact hclosed hrule hb
  · rintro s blk b v incoming kind o _ hs hblk hpc hb hin hinst ho hget ih x rfl
    obtain ⟨hne, hreg⟩ := Regs.get_eq_some hget
    have hheld := hs.held_income hf hblk hpc hb hin hinst ho hne
    obtain ⟨r₀, hentry, hr₀⟩ := ih x rfl
    obtain ⟨r, hr, hhas⟩ := EntriesHold.income hf hfit hpar hs hblk hpc hb hheld hreg hentry hr₀
    -- The phi's hull contains what each edge brings.
    obtain ⟨h, hrule, hh⟩ : ∃ h, (rulesOf f params).rule (rulesOf f params).settled.cur v = some h ∧
        h.Has x := by
      have hblock : (rulesOf f params).blockOf v = b := by
        simp only [Rules.blockOf, rulesOf, blockIndex_eq hf hin, Option.getD_some]
      have hv : (rulesOf f params).func.insts[v]? = some (.phi incoming kind) := hinst
      unfold Rules.rule
      rw [hv]
      dsimp only
      rw [hblock]
      unfold Rules.phiRule
      split
      · exact ⟨_, rfl, Range.has_univ x⟩
      · have hmem : r ∈ incoming.filterMap
            ((rulesOf f params).income (rulesOf f params).settled.cur b) :=
          List.mem_filterMap.mpr ⟨(s.block, o), ho, hr⟩
        split
        · rename_i hnil
          rw [hnil] at hmem
          cases hmem
        · rename_i a as hcons
          rw [hcons] at hmem
          exact ⟨_, rfl, has_foldl_hull hmem hhas⟩
    exact hclosed hrule hh

end Run

end ValueRange

/-! ## Ranges -/

/-- The ranges of a function's values. -/
structure Ranges where
  defs : List Range
  numbers : Numbering
  guards : Guards

namespace Ranges

/-- The ranges of a function, given the ranges of its parameters. -/
def compute (f : FunctionSsa) (params : List Range) : Ranges where
  defs := ValueRange.settle (ValueRange.rulesOf f params)
  numbers := valueNumbers f
  guards := Guards.new f (valueNumbers f) params

/-- Bounds `v`'s definition carries wherever it is live. -/
def ofDef (r : Ranges) (v : ℕ) : Range := r.defs.getD v .univ

variable {f : FunctionSsa} {m : Machine}

/-- The range of a definition is its entry of the settled table. -/
lemma ofDef_eq (f : FunctionSsa) (params : List Range) (u : ℕ) :
    (compute f params).ofDef u = .univ ∨
      (ValueRange.rulesOf f params).settled.cur u = some ((compute f params).ofDef u) := by
  unfold ofDef
  rw [List.getD_eq_getElem?_getD]
  by_cases hu : u < f.insts.length
  · have hget : (compute f params).defs[u]? =
        some (((ValueRange.rulesOf f params).settled.cur u).getD .univ) := by
      simp [compute, ValueRange.settle, ValueRange.rulesOf, hu]
    rw [hget, Option.getD_some]
    cases (ValueRange.rulesOf f params).settled.cur u with
    | none => exact Or.inl rfl
    | some r => exact Or.inr rfl
  · left
    rw [List.getElem?_eq_none (by
      simpa [compute, ValueRange.settle, ValueRange.rulesOf] using hu)]
    rfl

lemma inWord_ofDef (f : FunctionSsa) (params : List Range) (u : ℕ) :
    ((compute f params).ofDef u).InWord := by
  rcases ofDef_eq f params u with h | h
  · rw [h]
    exact Range.inWord_univ
  · exact (ValueRange.rulesOf f params).settled_spec.1 u _ h

/-- In every state of a run, a held word lies in the range of its definition. -/
lemma has_ofDef (hf : Verified f) (hfit : WidthsAgree f) {params : List Range}
    (hpar : m.ParamsIn params) {w : World m.Ext} {s : State m.Ext} (hs : m.Reaches f w s) {u : ℕ}
    {x : Word} (hu : Held f s.block s.pc u) (hx : s.regs u = some (.word x)) :
    ((compute f params).ofDef u).Has x := by
  rcases ofDef_eq f params u with h | h
  · rw [h]
    exact Range.has_univ x
  · obtain ⟨r, hr, hhas⟩ := ValueRange.entriesHold hf hfit hpar hs u x hu hx
    rw [h] at hr
    rw [Option.some.inj hr]
    exact hhas

end Ranges

end Badc
