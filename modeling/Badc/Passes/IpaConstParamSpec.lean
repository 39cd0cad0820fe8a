import Badc.Passes.IpaConstParam

/-!
# Parameter facts hold on every entry

The facts are gathered from all call sites (`Gathers`), and an argument's word lies in the range of its
own instruction in every activation of every run (`RegsFit`).  An internal function that does not
escape is entered through a call site only, so the facts hold of what arrives: `run_entry_facts`.
-/

namespace Badc.IpaConstParam

variable {funcs : List Func} {escaping : List ℕ} {raw : ℕ → Word} {f : FunctionSsa} {g : Gathered}
  {c : CallRequest} {slots : Agreed} {first : Bool} {unbounded : Word} {args : List ℕ}

/-! ## What the call sites agree on -/

/-- A call site: the calling function and what it asks for. -/
abbrev CallSiteOf := FunctionSsa × CallRequest

/-- The facts hold of a call site: its constants are the agreed ones, and its ranges lie in the agreed
ranges. -/
structure SiteFits (raw : ℕ → Word) (s : CallSiteOf) (a : Agreed) : Prop where
  length : s.2.args.length = a.consts.length
  const : ∀ (i arg : ℕ) (k : Word), s.2.args[i]? = some arg → a.consts[i]? = some (some k) →
    constOperand s.1 arg = some k
  range : ∀ (i arg : ℕ) (r : Range) (x : Word), s.2.args[i]? = some arg → a.ranges[i]? = some r →
    (siteRange s.1 (s.2.lowWordArgs &&& raw s.2.targetPc) i arg).Has x → r.Has x

/-- What is gathered from the call sites seen so far. -/
structure Gathers (raw : ℕ → Word) (seen : List CallSiteOf) (g : Gathered) : Prop where
  fits : ∀ s ∈ seen, ∀ a, g.agreed s.2.targetPc = some a → SiteFits raw s a
  called : ∀ s ∈ seen, (g.agreed s.2.targetPc).isSome → s.2.targetPc ∈ g.called
  lengths : ∀ pc a, g.agreed pc = some a → a.ranges.length = a.consts.length

/-- A constant that is agreed on after a site is the site's. -/
lemma agreeConst_eq_some {arg prev : Option Word} {k : Word}
    (h : agreeConst first arg prev = some k) : arg = some k ∧ (first = false → prev = some k) := by
  cases arg with
  | none => cases h
  | some k' =>
    cases prev with
    | none =>
      cases first with
      | false => cases h
      | true => exact ⟨h, fun h => nomatch h⟩
    | some prev =>
      simp only [agreeConst] at h
      split at h
      · rename_i heq
        exact ⟨heq ▸ h, fun _ => h⟩
      · cases h

lemma Agreed.join_consts {i : ℕ} {k : Word}
    (h : (slots.join f first unbounded args).consts[i]? = some (some k)) {arg : ℕ}
    (harg : args[i]? = some arg) :
    constOperand f arg = some k ∧ (first = false → (slots.consts[i]?).getD none = some k) := by
  rw [Agreed.join, List.getElem?_mapIdx, harg, Option.map_some, Option.some.injEq] at h
  exact agreeConst_eq_some h

/-- A parameter's range after a call site has what the site's range has, and what it had before. -/
lemma Agreed.join_ranges {i : ℕ} {r : Range}
    (h : (slots.join f first unbounded args).ranges[i]? = some r) {arg : ℕ}
    (harg : args[i]? = some arg) (x : Word) :
    ((siteRange f unbounded i arg).Has x → r.Has x) ∧
      (first = false → ((slots.ranges[i]?).getD .univ).Has x → r.Has x) := by
  rw [Agreed.join, List.getElem?_mapIdx, harg, Option.map_some, Option.some.injEq] at h
  subst h
  cases first with
  | true => exact ⟨id, fun h => nomatch h⟩
  | false => exact ⟨Range.has_hull_right, fun _ => Range.has_hull_left⟩

@[simp] lemma Agreed.length_join_consts :
    (slots.join f first unbounded args).consts.length = args.length := by
  simp [Agreed.join]

@[simp] lemma Agreed.length_join_ranges :
    (slots.join f first unbounded args).ranges.length = args.length := by
  simp [Agreed.join]

lemma siteFits_join :
    SiteFits raw (f, c) (slots.join f first (c.lowWordArgs &&& raw c.targetPc) c.args) where
  length := Agreed.length_join_consts.symm
  const _ _ _ harg hk := (Agreed.join_consts hk harg).1
  range _ _ _ x harg hr := (Agreed.join_ranges hr harg x).1

/-- The facts with a later call site joined hold of an earlier one. -/
lemma SiteFits.join {s : CallSiteOf} (h : SiteFits raw s slots)
    (hlen : args.length = slots.consts.length) (hranges : slots.ranges.length = slots.consts.length) :
    SiteFits raw s (slots.join f false unbounded args) where
  length := by rw [Agreed.length_join_consts, hlen, h.length]
  const i arg k harg hk := by
    have hi : i < args.length := by
      have := (List.getElem?_eq_some_iff.mp harg).1
      have := h.length
      omega
    have hprev := (Agreed.join_consts hk (List.getElem?_eq_getElem hi)).2 rfl
    rw [List.getElem?_eq_getElem (by omega), Option.getD_some] at hprev
    exact h.const i arg k harg (by rw [List.getElem?_eq_getElem (by omega), hprev])
  range i arg r x harg hr hx := by
    have hi : i < args.length := by
      have := (List.getElem?_eq_some_iff.mp harg).1
      have := h.length
      omega
    refine (Agreed.join_ranges hr (List.getElem?_eq_getElem hi) x).2 rfl ?_
    rw [List.getElem?_eq_getElem (by omega), Option.getD_some]
    exact h.range i arg _ x harg (List.getElem?_eq_getElem (by omega)) hx

/-- A new entry for the callee of one call site more. -/
lemma Gathers.update {seen : List CallSiteOf} (h : Gathers raw seen g) {o : Option Agreed}
    {called : List ℕ} (hcalled : ∀ pc ∈ g.called, pc ∈ called)
    (hnew : ∀ a, o = some a → c.targetPc ∈ called ∧ a.ranges.length = a.consts.length ∧
      SiteFits raw (f, c) a ∧ ∀ s ∈ seen, s.2.targetPc = c.targetPc → SiteFits raw s a) :
    Gathers raw (seen ++ [(f, c)]) ⟨Function.update g.agreed c.targetPc o, called⟩ := by
  refine ⟨fun s hs a ha => ?_, fun s hs hsome => ?_, fun pc a ha => ?_⟩
  · dsimp only at ha
    by_cases hpc : s.2.targetPc = c.targetPc
    · rw [hpc, Function.update_self] at ha
      obtain ⟨-, -, hsite, hseen⟩ := hnew a ha
      obtain hs | hs := List.mem_append.mp hs
      · exact hseen s hs hpc
      · rwa [List.mem_singleton.mp hs]
    · obtain hs | hs := List.mem_append.mp hs
      · rw [Function.update_of_ne hpc] at ha
        exact h.fits s hs a ha
      · exact absurd (by rw [List.mem_singleton.mp hs]) hpc
  · dsimp only at hsome
    by_cases hpc : s.2.targetPc = c.targetPc
    · rw [hpc, Function.update_self] at hsome
      obtain ⟨a, ha⟩ := Option.isSome_iff_exists.mp hsome
      rw [hpc]
      exact (hnew a ha).1
    · obtain hs | hs := List.mem_append.mp hs
      · rw [Function.update_of_ne hpc] at hsome
        exact hcalled _ (h.called s hs hsome)
      · exact absurd (by rw [List.mem_singleton.mp hs]) hpc
  · dsimp only at ha
    by_cases hpc : pc = c.targetPc
    · rw [hpc, Function.update_self] at ha
      exact (hnew a ha).2.1
    · rw [Function.update_of_ne hpc] at ha
      exact h.lengths pc a ha

/-- One call site more. -/
lemma Gathers.step {seen : List CallSiteOf} (h : Gathers raw seen g) (inst : Inst) :
    Gathers raw (seen ++ (inst.request.map fun c => (f, c)).toList) (gatherInst raw f g inst) := by
  unfold gatherInst
  cases inst.request with
  | none => simpa using h
  | some c =>
    rw [Option.map_some, Option.toList_some]
    simp only
    cases hslots : g.agreed c.targetPc with
    | none =>
      have hsame : Function.update g.agreed c.targetPc none = g.agreed := by
        rw [← hslots, Function.update_eq_self]
      have hnone := h.update (f := f) (c := c) (o := none) (fun _ h => h) fun _ h => nomatch h
      rwa [hsame] at hnone
    | some slots =>
      dsimp only
      split
      · exact h.update (fun _ h => h) fun _ h => nomatch h
      · rename_i hlen
        rw [not_not] at hlen
        refine h.update (fun _ h => List.mem_cons_of_mem _ h) fun a ha => ?_
        obtain rfl := Option.some.inj ha
        refine ⟨List.mem_cons_self, ?_, siteFits_join, fun s hs hpc => ?_⟩
        · rw [Agreed.length_join_ranges, Agreed.length_join_consts]
        · -- an earlier site of the callee, so this one is not its first
          have hagreed : g.agreed s.2.targetPc = some slots := by rw [hpc, hslots]
          have hcalled := h.called s hs (by rw [hagreed, Option.isSome_some])
          rw [hpc] at hcalled
          rw [decide_eq_false fun h => h hcalled]
          exact (h.fits s hs slots hagreed).join hlen (h.lengths _ _ hslots)

/-- The call sites of a body. -/
def sitesOf (f : FunctionSsa) : List CallSiteOf :=
  f.insts.flatMap fun inst => (inst.request.map fun c => (f, c)).toList

lemma Gathers.body {seen : List CallSiteOf} (h : Gathers raw seen g) (f : FunctionSsa) :
    Gathers raw (seen ++ sitesOf f) (f.insts.foldl (gatherInst raw f) g) := by
  unfold sitesOf
  generalize f.insts = insts
  induction insts generalizing seen g with
  | nil => simpa using h
  | cons inst insts ih =>
    rw [List.flatMap_cons, ← List.append_assoc, List.foldl_cons]
    exact ih (h.step inst)

/-- All call sites are gathered. -/
theorem gathers_gather :
    Gathers (rawReads funcs escaping) (funcs.flatMap fun f => sitesOf f.ssa)
      (gather funcs escaping) := by
  have hrun : ∀ (fs : List Func) (seen : List CallSiteOf) (g : Gathered),
      Gathers (rawReads funcs escaping) seen g →
      Gathers (rawReads funcs escaping) (seen ++ fs.flatMap fun f => sitesOf f.ssa)
        (fs.foldl (fun g f => f.ssa.insts.foldl (gatherInst (rawReads funcs escaping) f.ssa) g)
          g) := by
    intro fs
    induction fs with
    | nil => intro seen g h; simpa using h
    | cons f fs ih =>
      intro seen g h
      rw [List.flatMap_cons, ← List.append_assoc, List.foldl_cons]
      exact ih _ _ (h.body f.ssa)
  refine hrun funcs [] (start funcs escaping) ⟨?_, ?_, fun pc a ha => ?_⟩
  · exact fun s hs => nomatch hs
  · exact fun s hs => nomatch hs
  · obtain ⟨n, -, rfl⟩ := Option.map_eq_some_iff.mp ha
    simp

/-- The facts hold of every call site. -/
lemma siteFits_facts {h : Func} (hh : h ∈ funcs) {inst : Inst} (hinst : inst ∈ h.ssa.insts)
    (hreq : inst.request = some c) {a : Agreed} (ha : facts funcs escaping c.targetPc = some a) :
    SiteFits (rawReads funcs escaping) (h.ssa, c) a := by
  unfold facts at ha
  simp only at ha
  split at ha
  · refine gathers_gather.fits (h.ssa, c) ?_ a ha
    refine List.mem_flatMap.mpr ⟨h, hh, List.mem_flatMap.mpr ⟨inst, hinst, ?_⟩⟩
    simp [hreq]
  · cases ha

/-- An entry without facts gets none. -/
lemma agreed_gatherInst_of_none {pc : ℕ} (h : g.agreed pc = none) (inst : Inst) :
    (gatherInst raw f g inst).agreed pc = none := by
  unfold gatherInst
  split
  · exact h
  · split
    · exact h
    · rename_i _ c _ _ slots hslots
      have hpc : pc ≠ c.targetPc := by
        rintro rfl
        rw [h] at hslots
        cases hslots
      split
      · exact (Function.update_of_ne hpc _ _).trans h
      · exact (Function.update_of_ne hpc _ _).trans h

/-- Facts are kept of candidates only. -/
lemma isSome_paramsOf {pc : ℕ} {a : Agreed} (ha : facts funcs escaping pc = some a) :
    (paramsOf funcs escaping pc).isSome := by
  have hbody (raw : ℕ → Word) (f : FunctionSsa) : ∀ (insts : List Inst) (g : Gathered),
      g.agreed pc = none → (insts.foldl (gatherInst raw f) g).agreed pc = none := by
    intro insts
    induction insts with
    | nil => exact fun _ h => h
    | cons inst insts ih => exact fun g h => ih _ (agreed_gatherInst_of_none h inst)
  have hall : ∀ (fs : List Func) (g : Gathered), g.agreed pc = none →
      (fs.foldl (fun g f => f.ssa.insts.foldl (gatherInst (rawReads funcs escaping) f.ssa) g)
        g).agreed pc = none := by
    intro fs
    induction fs with
    | nil => exact fun _ h => h
    | cons f fs ih => exact fun g h => ih _ (hbody _ f.ssa _ g h)
  by_contra hnone
  rw [Option.not_isSome_iff_eq_none] at hnone
  have hgather : (gather funcs escaping).agreed pc = none :=
    hall funcs (start funcs escaping) (by simp [start, hnone])
  simp [facts, hgather] at ha

/-! ## What the registers hold -/

/-- Every word in a register lies in the range of the instruction that defines it. -/
def RegsFit (f : FunctionSsa) (regs : Regs) : Prop :=
  ∀ v x, regs v = some (.word x) → (argRange f v).Has x

lemma regsFit_enter (f : FunctionSsa) : RegsFit f fun _ => none := fun _ _ hx => nomatch hx

/-- What an instruction leaves lies in its range. -/
lemma argRange_of_exec {m : Machine} {v : ℕ} {regs : Regs} {w : World m.Ext} {inst : Inst}
    {r : Regs × World m.Ext} {x : Word} (hinst : f.insts[v]? = some inst)
    (hdiv : isNarrowDiv f v = false) (hr : m.exec f v regs w inst = some r)
    (hx : r.1 v = some (.word x)) : (argRange f v).Has x := by
  obtain ⟨b, hb, hhas⟩ : ∃ b, eval inst [] (fun _ => some Range.univ) = some b ∧ b.Has x :=
    Machine.has_eval hr hx hinst hdiv (fun _ _ h => nomatch h)
      (fun o _ y _ => ⟨.univ, rfl, Range.inWord_univ, Range.has_univ y⟩)
  rw [eval_some, Option.some.injEq] at hb
  rw [argRange, hinst]
  subst hb
  exact hhas

/-- A step of an activation keeps its registers in their ranges. -/
lemma RegsFit.step {m : Machine} {s s' : State m.Ext} (h : RegsFit f s.regs)
    (hdiv : ∀ v, isNarrowDiv f v = false) (hs : m.step f s = some (.running s')) :
    RegsFit f s'.regs := by
  obtain ⟨blk, -, ⟨-, inst, r, hinst, hr, rfl⟩ | ⟨-, b, blk', -, -, rfl⟩⟩ := Machine.step_cases hs
  · intro v x hx
    obtain ⟨y, hy⟩ := Machine.exec_regs hr
    by_cases hv : v = s.pc
    · subst hv
      exact argRange_of_exec hinst (hdiv _) hr hx
    · dsimp only at hx
      rw [hy, Regs.set, Function.update_of_ne hv] at hx
      exact h v x hx
  · intro v x hx
    dsimp only [enterRegs] at hx
    split at hx
    · split at hx
      · rename_i incoming kind hphi
        rw [argRange, hphi]
        exact Range.has_univ x
      · exact h v x hx
    · exact h v x hx

/-- A call's own range is unbounded. -/
lemma RegsFit.receive {a : Activation} (h : RegsFit a.fn.ssa a.regs) (hc : a.request = some c)
    (value : Option Val) : RegsFit a.fn.ssa (a.receive value).regs := by
  intro v x hx
  by_cases hv : v = a.pc
  · subst hv
    simp only [Activation.request, bind, Option.bind_eq_some_iff] at hc
    obtain ⟨blk, -, hc⟩ := hc
    split at hc
    · obtain ⟨inst, hinst, hreq⟩ := Option.bind_eq_some_iff.mp hc
      rw [argRange, hinst]
      cases inst with
      | call t args fixed conv site => exact Range.has_univ x
      | _ => cases hreq
    · cases hc
  · rw [Activation.receive, Regs.set] at hx
    dsimp only at hx
    rw [Function.update_of_ne hv] at hx
    exact h v x hx

/-! ## What arrives on entry -/

/-- Some call site passes a parameter in the low word only. -/
def PassedLow (funcs : List Func) (pc i : ℕ) : Prop :=
  ∃ f ∈ funcs, ∃ inst ∈ f.ssa.insts, ∃ c, inst.request = some c ∧ c.targetPc = pc ∧
    c.lowWordArgs.getLsbD i = true

/-- The gathered facts hold of the words that arrive.  Of a low-word argument they hold up to the
upper half, and such an argument bounds no parameter that is read from the whole register. -/
structure Entered (funcs : List Func) (escaping : List ℕ) (fn : Func) (args : ℕ → Val) : Prop where
  const : ∀ a i k x, facts funcs escaping fn.entPc = some a → a.consts[i]? = some (some k) →
    args i = .word x →
      x.setWidth 32 = k.setWidth 32 ∧ (¬ PassedLow funcs fn.entPc i → x = k)
  range : ∀ a i r x, facts funcs escaping fn.entPc = some a → a.ranges[i]? = some r →
    args i = .word x → r.Has x ∨
      (i < 64 ∧ (rawReads funcs escaping fn.entPc).getLsbD i = false ∧
        ∃ y, r.Has y ∧ x.setWidth 32 = y.setWidth 32)

lemma word_of_get {regs : Regs} {v : ℕ} {x : Word} (h : regs.get v = some (.word x)) :
    regs v = some (.word x) := by
  unfold Regs.get at h
  split at h
  · cases h
  · exact h

/-- A call site's facts hold of what its arguments become. -/
lemma entered_of_call {h fn : Func} (hh : h ∈ funcs) {inst : Inst} (hinst : inst ∈ h.ssa.insts)
    (hreq : inst.request = some c) (hpc : fn.entPc = c.targetPc) {regs : Regs}
    (hregs : RegsFit h.ssa regs) {arrived : ℕ → Val} (harr : Arrives regs c arrived) :
    Entered funcs escaping fn arrived := by
  constructor
  · intro a i k x ha hk hx
    rw [hpc] at ha
    have hfits := siteFits_facts hh hinst hreq ha
    have hi : i < c.args.length := by
      rw [hfits.length]
      exact (List.getElem?_eq_some_iff.mp hk).1
    have harg := List.getElem?_eq_getElem hi
    obtain ⟨y, hy, has⟩ := harr i _ harg
    cases y with
    | vec y => rw [ArrivesAs, hx] at has; cases has
    | word y =>
      have hconst := hfits.const i _ k harg hk
      have hrange := hregs _ _ (word_of_get hy)
      have hyk : y = k := by
        unfold constOperand at hconst
        split at hconst
        · cases hconst
        · split at hconst
          · rename_i k' himm
            rw [argRange, himm] at hrange
            rw [← Option.some.inj hconst]
            exact Range.has_exact_iff.mp hrange
          · cases hconst
      obtain ⟨x', hx', has⟩ := has
      obtain rfl : x = x' := Val.word.inj (hx.symm.trans hx')
      subst hyk
      split at has
      · rename_i hlow
        exact ⟨has, fun hnot => absurd ⟨h, hh, inst, hinst, c, hreq, hpc.symm, hlow⟩ hnot⟩
      · rw [has]
        exact ⟨rfl, fun _ => rfl⟩
  · intro a i r x ha hr hx
    rw [hpc] at ha
    have hfits := siteFits_facts hh hinst hreq ha
    have hi : i < c.args.length := by
      have hranges : a.ranges.length = a.consts.length := by
        unfold facts at ha
        simp only at ha
        split at ha
        · exact gathers_gather.lengths _ _ ha
        · cases ha
      have := (List.getElem?_eq_some_iff.mp hr).1
      have hlen : c.args.length = a.consts.length := hfits.length
      omega
    have harg := List.getElem?_eq_getElem hi
    obtain ⟨y, hy, has⟩ := harr i _ harg
    cases y with
    | vec y => rw [ArrivesAs, hx] at has; cases has
    | word y =>
      have hargRange := hregs _ _ (word_of_get hy)
      have hsite := fun z => hfits.range i _ r z harg hr
      obtain ⟨x', hx', has⟩ := has
      obtain rfl : x = x' := Val.word.inj (hx.symm.trans hx')
      unfold siteRange at hsite
      split at hsite
      · exact Or.inl (hsite x (Range.has_univ x))
      · rename_i hbound
        split at has
        · rename_i hlow
          have hi64 : i < 64 := BitVec.lt_of_getLsbD hlow
          refine Or.inr ⟨hi64, ?_, y, hsite y hargRange, has⟩
          rw [hpc]
          simpa [hi64, hlow] using hbound
        · rw [has]
          exact Or.inl (hsite y hargRange)

lemma candidate_of_facts (hpcs : (funcs.map Func.entPc).Nodup) {fn : Func} (hfn : fn ∈ funcs)
    {a : Agreed} (ha : facts funcs escaping fn.entPc = some a) : isCandidate escaping fn = true := by
  have hparams := isSome_paramsOf ha
  rw [paramsOf, Option.isSome_map, List.find?_isSome] at hparams
  obtain ⟨f, hf, hcond⟩ := hparams
  rw [Bool.and_eq_true, decide_eq_true_eq] at hcond
  rw [← List.inj_on_of_nodup_map hpcs (List.mem_reverse.mp hf) hfn hcond.2]
  exact hcond.1

/-- What every activation of a run satisfies. -/
theorem entered_of_reachable {m : Machine} (hpcs : (funcs.map Func.entPc).Nodup)
    (hdiv : ∀ f ∈ funcs, ∀ v, isNarrowDiv f.ssa v = false) {cfg : Calls.Config m.Ext}
    (hreach : Calls.Reachable m funcs
      (fun g => g.entPc ∈ escaping ∨ g.isInternal = false) cfg) :
    ∀ a ∈ cfg.stack, a.fn ∈ funcs ∧ RegsFit a.fn.ssa a.regs ∧
      Entered funcs escaping a.fn a.args := by
  refine hreach.forall_mem ?_ ?_ ?_ ?_
  · rintro a w s ⟨hfn, hregs, hent⟩ hs
    exact ⟨hfn, RegsFit.step (m := Calls.within m a) (s := a.state w) hregs (hdiv _ hfn) hs, hent⟩
  · rintro a c g arrived base ⟨hfn, hregs, -⟩ hc hg hpc harr
    simp only [Activation.request, bind, Option.bind_eq_some_iff] at hc
    obtain ⟨blk, -, hc⟩ := hc
    split at hc
    · obtain ⟨inst, hinst, hreq⟩ := Option.bind_eq_some_iff.mp hc
      exact ⟨hg, regsFit_enter _,
        entered_of_call hfn (List.mem_of_getElem? hinst) hreq hpc hregs harr⟩
    · cases hc
  · rintro a c value ⟨hfn, hregs, hent⟩ hc
    exact ⟨hfn, hregs.receive hc value, hent⟩
  · -- a function that code outside enters is no candidate
    rintro g args base hg hout
    have hnone : ∀ a, facts funcs escaping g.entPc ≠ some a := by
      intro a ha
      have hcand := candidate_of_facts hpcs hg ha
      simp only [isCandidate, Bool.and_eq_true, decide_eq_true_eq] at hcand
      obtain hout | hout := hout
      · exact hcand.2 hout
      · rw [hcand.1.1.1.1] at hout
        cases hout
    exact ⟨hg, regsFit_enter _,
      ⟨fun a _ _ _ ha => absurd ha (hnone a), fun a _ _ _ ha => absurd ha (hnone a)⟩⟩

/-! ## What the pass says of a parameter -/

/-- A read of at most 32 bits reads the low word. -/
lemma extendLoad_of_low {x y : Word} (h : x.setWidth 32 = y.setWidth 32) {kind : LoadKind} {w : Range}
    (hkind : extendRange kind = some w) : extendLoad x kind = extendLoad y kind := by
  have h16 : x.setWidth 16 = y.setWidth 16 := by
    rw [← BitVec.setWidth_setWidth_of_le x (by norm_num : 16 ≤ 32), h,
      BitVec.setWidth_setWidth_of_le y (by norm_num)]
  have h8 : x.setWidth 8 = y.setWidth 8 := by
    rw [← BitVec.setWidth_setWidth_of_le x (by norm_num : 8 ≤ 32), h,
      BitVec.setWidth_setWidth_of_le y (by norm_num)]
  cases kind with
  | i32 | u32 => simp only [extendLoad, sext32, zext32, h]
  | i16 | u16 => simp only [extendLoad, h16]
  | i8 | u8 => simp only [extendLoad, h8]
  | _ => cases hkind

lemma narrowToKind_eq_some {k c : Word} {kind : LoadKind} (h : narrowToKind k kind = some c) :
    c = extendLoad k kind ∧ (kind = .i64 ∨ ∃ w, extendRange kind = some w) := by
  cases kind with
  | i64 => exact ⟨(Option.some.inj h).symm, Or.inl rfl⟩
  | i32 | u32 | i16 | u16 | i8 | u8 => exact ⟨(Option.some.inj h).symm, Or.inr ⟨_, rfl⟩⟩
  | _ => cases h

/-- A parameter read that became a constant: the constant the call sites agree on, at the kind of the
read. -/
lemma const_of_substitute {agreed : ℕ → Option Agreed} {fn : Func} {v idx : ℕ} {kind : LoadKind}
    {k : Word} (hread : fn.ssa.insts[v]? = some (.paramRef idx kind))
    (himm : (substitute agreed fn).ssa.insts[v]? = some (.imm k)) :
    ∃ a c, agreed fn.entPc = some a ∧ a.consts[idx]? = some (some c) ∧
      narrowToKind c kind = some k := by
  unfold substitute at himm
  split at himm
  · rw [hread] at himm
    cases himm
  · rename_i a ha
    dsimp only at himm
    rw [List.getElem?_mapIdx, hread, Option.map_some, Option.some.injEq] at himm
    split at himm
    · rename_i i c hsubst
      obtain rfl := Inst.imm.inj himm
      simp only [substConst] at hsubst
      split at hsubst
      · cases hsubst
      · simp only [bind, Option.bind_eq_some_iff, pure, Option.some.injEq, Prod.mk.injEq] at hsubst
        obtain ⟨k, hk, c', hc', -, rfl⟩ := hsubst
        cases hconst : a.consts[idx]? with
        | none => rw [hconst] at hk; cases hk
        | some o =>
          rw [hconst, Option.getD_some] at hk
          exact ⟨a, k, ha, by rw [hconst, hk], hc'⟩
    · cases himm

/-- A whole-register read of a candidate's parameter is recorded. -/
lemma rawReads_of_mem (hpcs : (funcs.map Func.entPc).Nodup) {fn : Func} (hfn : fn ∈ funcs) {idx : ℕ}
    (hidx : idx < 64) (hparams : (paramsOf funcs escaping fn.entPc).isSome)
    (hread : .paramRef idx .i64 ∈ fn.ssa.insts) :
    (rawReads funcs escaping fn.entPc).getLsbD idx = true := by
  -- Every step keeps the bit, and the one of the read sets it.
  have hfold : ∀ step : Word → Inst → Word,
      (∀ mask inst, mask.getLsbD idx = true → (step mask inst).getLsbD idx = true) →
      (∀ mask, (step mask (.paramRef idx .i64)).getLsbD idx = true) →
      ∀ (insts : List Inst) (mask : Word),
        (mask.getLsbD idx = true ∨ .paramRef idx .i64 ∈ insts) →
        (insts.foldl step mask).getLsbD idx = true := by
    intro step hkeep hset insts
    induction insts with
    | nil => simp
    | cons inst insts ih =>
      intro mask h
      refine ih _ ?_
      obtain h | h := h
      · exact Or.inl (hkeep mask inst h)
      · obtain rfl | h := List.mem_cons.mp h
        · exact Or.inl (hset mask)
        · exact Or.inr h
  have hsome : (funcs.reverse.find? fun f =>
      (paramsOf funcs escaping f.entPc).isSome && f.entPc = fn.entPc).isSome :=
    List.find?_isSome.mpr ⟨fn, List.mem_reverse.mpr hfn, by simp [hparams]⟩
  obtain ⟨f, hf⟩ := Option.isSome_iff_exists.mp hsome
  have hcond := List.find?_some hf
  rw [Bool.and_eq_true, decide_eq_true_eq] at hcond
  have heq := List.inj_on_of_nodup_map hpcs (List.mem_reverse.mp (List.mem_of_find?_eq_some hf)) hfn
    hcond.2
  rw [rawReads, hf, Option.map_some, Option.getD_some, heq, rawReadsOf]
  refine hfold _ (fun mask inst h => ?_) (fun mask => by simp [hidx]) _ _ (Or.inr hread)
  split
  · split
    · rw [BitVec.getLsbD_or, h, Bool.true_or]
    · exact h
  · exact h

/-- What the pass says of the parameters of a function holds of the words that arrive: a read that
became a constant yields it, and a read at an integer kind that holds the parameter's range lies in
it.  A whole-register read of a parameter that arrives in the low word only is not decided. -/
structure EntryFacts (funcs : List Func) (escaping : List ℕ) (fn : Func) (args : ℕ → Val) : Prop where
  const : ∀ (j v idx : ℕ) (kind : LoadKind) (fn' : Func) (k x : Word), funcs[j]? = some fn →
    (run funcs escaping).1[j]? = some fn' → fn.ssa.insts[v]? = some (.paramRef idx kind) →
    fn'.ssa.insts[v]? = some (.imm k) → args idx = .word x →
    (kind = .i64 → ¬ PassedLow funcs fn.entPc idx) → extendLoad x kind = k
  range : ∀ (rs : List Range) (idx : ℕ) (r : Range) (kind : LoadKind) (x : Word),
    (run funcs escaping).2 fn.entPc = some rs → rs[idx]? = some r →
    .paramRef idx kind ∈ fn.ssa.insts → (narrowToKind 0 kind).isSome →
    ((extendRange kind).getD .univ).contains r → args idx = .word x → r.Has (extendLoad x kind)

/-- In every run of the functions, whatever code outside the set enters the ones it can reach, every
activation's parameters are what the pass says of them. -/
theorem run_entry_facts {m : Machine} (hpcs : (funcs.map Func.entPc).Nodup)
    (hdiv : ∀ f ∈ funcs, ∀ v, isNarrowDiv f.ssa v = false) {cfg : Calls.Config m.Ext}
    (hreach : Calls.Reachable m funcs
      (fun g => g.entPc ∈ escaping ∨ g.isInternal = false) cfg)
    {a : Activation} (ha : a ∈ cfg.stack) : EntryFacts funcs escaping a.fn a.args := by
  obtain ⟨hfn, -, hent⟩ := entered_of_reachable hpcs hdiv hreach a ha
  constructor
  · intro j v idx kind fn' k x hj hj' hread himm hx hlow
    rw [run, List.getElem?_map, hj, Option.map_some, Option.some.injEq] at hj'
    subst hj'
    obtain ⟨slots, c, hslots, hc, hkind⟩ := const_of_substitute hread himm
    obtain ⟨hsame, hwhole⟩ := hent.const slots idx c x hslots hc hx
    obtain ⟨rfl, rfl | ⟨w, hw⟩⟩ := narrowToKind_eq_some hkind
    · rw [hwhole (hlow rfl)]
    · exact extendLoad_of_low hsame hw
  · intro rs idx r kind x hrs hr hread hint hcontains hx
    obtain ⟨slots, hslots, hbounded⟩ := Option.bind_eq_some_iff.mp hrs
    split at hbounded
    · obtain rfl := Option.some.inj hbounded
      obtain ⟨c, hc⟩ := Option.isSome_iff_exists.mp hint
      obtain hhas | ⟨hidx, hraw, y, hhas, hsame⟩ := hent.range slots idx r x hslots hr hx
      · obtain ⟨-, rfl | ⟨w, hw⟩⟩ := narrowToKind_eq_some hc
        · exact hhas
        · rw [hw, Option.getD_some] at hcontains
          rwa [extendLoad_of_has hw (Range.has_of_contains hcontains hhas)]
      · obtain ⟨-, rfl | ⟨w, hw⟩⟩ := narrowToKind_eq_some hc
        · rw [rawReads_of_mem hpcs hfn hidx (isSome_paramsOf hslots) hread] at hraw
          cases hraw
        · rw [hw, Option.getD_some] at hcontains
          rwa [extendLoad_of_low hsame hw,
            extendLoad_of_has hw (Range.has_of_contains hcontains hhas)]
    · cases hbounded

/-! ## Two functions -/

/-- A function that reads the low byte of its first parameter and the whole of its second. -/
def reader : Func where
  ssa := { insts := [.paramRef 0 .u8, .paramRef 1 .i64]
           blocks := [{ instRange := ⟨0, 2⟩, terminator := .ret noValue }] }
  entPc := 9
  isInternal := true
  isVariadic := false
  isNaked := false
  nParams := 2

/-- The only caller of `reader`.  The second argument's upper half is unspecified. -/
def caller : Func where
  ssa := { insts := [.imm 300, .imm 7, .call 9 [0, 1] 2 .target { lowWordArgs := 2 }]
           blocks := [{ instRange := ⟨0, 3⟩, terminator := .ret noValue }] }
  entPc := 1
  isInternal := false
  isVariadic := false
  isNaked := false
  nParams := 0

/-- What arrives: the second argument with another upper half. -/
def arrived : ℕ → Val
  | 0 => .word 300
  | _ => .word (BitVec.ofNat 64 (2 ^ 32 + 7))

/-- The caller at an instruction. -/
def callerAt (pc : ℕ) (regs : Regs) : Activation :=
  { Activation.enter caller (fun _ => .word 0) 0 false with pc, regs }

/-- The registers before the call. -/
def callerRegs : Regs := Regs.set (Regs.set (fun _ => none) 0 (some (.word 300))) 1 (some (.word 7))

/-- The caller has entered `reader`. -/
def entered : Calls.Config Unit :=
  ⟨World.null, [.enter reader arrived 0 true, callerAt 2 callerRegs]⟩

/-- A step of the two functions; the caller has external linkage. -/
abbrev Steps := Calls.Step Machine.null [caller, reader]
  fun g => g.entPc ∈ ([] : List ℕ) ∨ g.isInternal = false

/-- A run enters `reader`. -/
lemma reachable_entered :
    Calls.Reachable Machine.null [caller, reader]
      (fun g => g.entPc ∈ ([] : List ℕ) ∨ g.isInternal = false) entered := by
  let regs : Regs := Regs.set (fun _ => none) 0 (some (.word 300))
  have hstart : Steps ⟨World.null, []⟩ ⟨World.null, [callerAt 0 fun _ => none]⟩ :=
    .enter (.head _) (Or.inr rfl)
  have hfirst : Steps ⟨World.null, [callerAt 0 fun _ => none]⟩ ⟨World.null, [callerAt 1 regs]⟩ :=
    .inner (m := .null) (w := .null) (a := callerAt 0 fun _ => none)
      (s := ⟨0, 1, regs, .null⟩) (fun c hc => by cases hc) rfl
  have hsecond : Steps ⟨World.null, [callerAt 1 regs]⟩ ⟨World.null, [callerAt 2 callerRegs]⟩ :=
    .inner (m := .null) (w := .null) (a := callerAt 1 regs)
      (s := ⟨0, 2, callerRegs, .null⟩) (fun c hc => by cases hc) rfl
  have hcall : Steps ⟨World.null, [callerAt 2 callerRegs]⟩ entered := by
    refine .call (c := ⟨9, [0, 1], 2⟩) rfl (List.mem_cons_of_mem _ (.head _)) rfl ?_
    intro i v hi
    match i with
    | 0 => obtain rfl := Option.some.inj hi; exact ⟨_, rfl, _, rfl, by decide⟩
    | 1 => obtain rfl := Option.some.inj hi; exact ⟨_, rfl, _, rfl, by decide⟩
    | i + 2 => cases hi
  exact ⟨World.null, (((Relation.ReflTransGen.single hstart).tail hfirst).tail hsecond).tail hcall⟩

/-- The facts of `reader` hold of what arrives. -/
theorem run_entry_facts_reader : EntryFacts [caller, reader] [] reader arrived := by
  refine run_entry_facts (by decide) (fun f hf v => ?_) reachable_entered
    (List.mem_cons_self (a := .enter reader arrived 0 true) (l := [callerAt 2 callerRegs]))
  have hnone : f.ssa.div32 = [] := by
    revert f
    decide
  rw [isNarrowDiv]
  split <;> simp [isDiv32, isMarked, hnone]

/-- A read of the low byte leaves the range of the argument, and a whole-register read of a parameter
that arrives in the low word only is not the constant that takes its place. -/
theorem reader_leaves_facts :
    (∃ a ∈ entered.stack, a.fn = reader ∧ a.args = arrived) ∧
      Calls.Reachable Machine.null [caller, reader]
        (fun g => g.entPc ∈ ([] : List ℕ) ∨ g.isInternal = false) entered ∧
      (run [caller, reader] []).2 reader.entPc = some [.exact 300, .univ] ∧
      arrived 0 = .word 300 ∧ ¬ (Range.exact 300).Has (extendLoad 300 .u8) ∧
      ((run [caller, reader] []).1[1]?.bind fun g => g.ssa.insts[1]?) = some (.imm 7) ∧
      arrived 1 = .word (BitVec.ofNat 64 (2 ^ 32 + 7)) ∧
      extendLoad (BitVec.ofNat 64 (2 ^ 32 + 7)) .i64 ≠ 7 := by
  refine ⟨⟨_, (.head _), rfl, rfl⟩, reachable_entered, ?_, rfl, ?_, ?_, rfl, ?_⟩
  · decide +kernel
  · rw [Range.has_exact_iff]
    decide
  · decide +kernel
  · decide

end Badc.IpaConstParam
