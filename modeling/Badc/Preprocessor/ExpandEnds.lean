import Badc.Preprocessor.Rescan

/-!
# Macro expansion ends and blocks re-entry

Every step of the scan settles in a good state and advances over the pending tokens
(`scanStep_settles`), so the scan ends (`scan_settles`), and by induction on the levels of nesting
so does the scan of every argument.  `expandTokens_blocks` is the result: expansion ends whatever
the tables, the tokens and the depth, and every replacement it makes is one C99 6.10.3.4 allows.
-/

namespace Badc

namespace Preprocessor

open Arena

variable {pp : Macros} {ln : Line} {U : Finset Spelling}

/-! ## Definitions -/

/-- A name outside `U` has no definition. -/
lemma liveMacro_undefined (hcov : Covers pp U) {shadows : List Shadow}
    (hs : ∀ s ∈ shadows, s.Within U) {name : Spelling} (hname : name ∉ U) :
    liveMacro pp shadows name = .undefined := by
  obtain ⟨hobj, hfn, -⟩ := hcov name hname
  unfold liveMacro shadowed
  cases hfind : shadows.find? (·.name = name) with
  | none => simp [hobj, hfn]
  | some s =>
    have hsame : s.name = name := by simpa using List.find?_some hfind
    exact (hs s (List.mem_of_find?_eq_some hfind) (hsame ▸ hname)).1

/-- An operator gives no definition to a name outside `U`. -/
lemma Shadow.Within.apply (hcov : Covers pp U) {s : Shadow} (h : s.Within U) (push : Bool) :
    (s.apply pp push).Within U := by
  intro hname
  have hsame : (s.apply pp push).name = s.name := by
    unfold Shadow.apply
    repeat' split
    all_goals rfl
  rw [hsame] at hname
  obtain ⟨hdefn, hpushed⟩ := h hname
  obtain ⟨-, -, hsaved⟩ := hcov s.name hname
  unfold Shadow.apply
  cases push with
  | true =>
    refine ⟨hdefn, fun d hd => ?_⟩
    rcases List.mem_append.mp hd with hd | hd
    · exact hpushed d hd
    · exact List.mem_singleton.mp hd ▸ hdefn
  | false =>
    cases hlast : s.pushed.getLast? with
    | none => simpa [hlast, hsaved] using ⟨hdefn, hpushed⟩
    | some defn =>
      exact ⟨hpushed defn (List.mem_of_mem_getLast? hlast),
        fun d hd => hpushed d (List.mem_of_mem_dropLast hd)⟩

lemma modify_within (hcov : Covers pp U) {shadows : List Shadow}
    (hs : ∀ s ∈ shadows, s.Within U) (push : Bool) (i : ℕ) :
    ∀ s ∈ shadows.modify i (Shadow.apply pp push), s.Within U := by
  intro s hmem
  obtain ⟨j, hj, rfl⟩ := List.mem_iff_getElem.mp hmem
  rw [List.getElem_modify]
  split
  · exact (hs _ (List.getElem_mem _)).apply hcov push
  · exact hs _ (List.getElem_mem _)

/-- A stack operator keeps the names that can have a definition. -/
lemma shadowMacroStack_within (hcov : Covers pp U) {shadows : List Shadow}
    (hs : ∀ s ∈ shadows, s.Within U) (push : Bool) (name : Spelling) :
    ∀ s ∈ shadowMacroStack pp push name shadows, s.Within U := by
  refine modify_within hcov (fun s hmem => ?_) push _
  split at hmem
  · exact hs s hmem
  · rcases List.mem_append.mp hmem with hmem | hmem
    · exact hs s hmem
    · obtain rfl := List.mem_singleton.mp hmem
      intro hname
      obtain ⟨hobj, hfn, -⟩ := hcov name hname
      exact ⟨by simp [Macros.savedMacro, hobj, hfn], fun d hd => by cases hd⟩

/-! ## What the scan reads besides macros -/

lemma Good.congr {ex ex' : Exp} (h : Good pp U ex) (harena : ex'.arena = ex.arena)
    (hshadows : ex'.shadows = ex.shadows) (hlog : ex'.log = ex.log) : Grown pp U ex ex' :=
  h.grown.congr harena hshadows hlog

/-- A dynamic predefine leaves a new token. -/
lemma dynamicPredefine_settles {ex : Exp} (hex : Good pp U ex) (tok : Tok) :
    Settles (fun _ => dynamicPredefine pp ln tok) ex
      fun o ex' => Grown pp U ex ex' ∧ ∀ t, o = some t → t.hs = 0 := by
  have hkind : ∃ o ex', dynamicPredefine pp ln tok ex = some (o, ex') ∧
      Grown pp U ex ex' ∧ ∀ t, o = some t → t.hs = 0 := by
    unfold dynamicPredefine
    repeat' split
    all_goals refine ⟨_, _, rfl, hex.congr rfl rfl rfl, fun t ht => ?_⟩
    all_goals first | (rw [← Option.some.inj ht]) | (cases ht)
  obtain ⟨o, ex', heq, h⟩ := hkind
  exact settles_of_eq (fun _ => heq) h

/-- A feature test leaves a new token and drops its operand. -/
lemma hasOperator_eq {tok t : Tok} {rest rest' : List Tok}
    (h : hasOperator pp tok rest = some (t, rest')) : t.hs = 0 ∧ ∃ gone, rest = gone ++ rest' := by
  unfold hasOperator at h
  simp only at h
  split at h
  · next known opening arg closing more _ =>
    split at h
    · simp only [Option.some.injEq, Prod.mk.injEq] at h
      obtain ⟨rfl, rfl⟩ := h
      exact ⟨rfl, [opening, arg, closing], rfl⟩
    · cases h
  · cases h

/-- A pragma operator's tokens are the next ones. -/
lemma operatorExtent_eq {rest toks rest' : List Tok}
    (h : operatorExtent rest = some (toks, rest')) : rest = toks ++ rest' := by
  unfold operatorExtent at h
  cases rest with
  | nil => cases h
  | cons first more =>
    simp only at h
    split at h
    · obtain ⟨⟨before, t, after⟩, hclose, heq⟩ := Option.map_eq_some_iff.mp h
      simp only [Prod.mk.injEq] at heq
      obtain ⟨rfl, rfl⟩ := heq
      rw [(closeAt_eq hclose).1]
      simp
    · cases h

/-- A stack operator passes its tokens through. -/
lemma macroStateOperator_settles (hcov : Covers pp U) {ex : Exp} (hex : Good pp U ex) (tok : Tok)
    (rest : List Tok) : Settles (fun _ => macroStateOperator pp tok rest) ex
      fun o ex' => Grown pp U ex ex' ∧ ∀ toks rest', o = some (toks, rest') →
        toks ++ rest' = tok :: rest ∧ toks ≠ [] := by
  have hkind : ∃ o ex', macroStateOperator pp tok rest ex = some (o, ex') ∧
      Grown pp U ex ex' ∧ ∀ toks rest', o = some (toks, rest') →
        toks ++ rest' = tok :: rest ∧ toks ≠ [] := by
    have hnone : ∀ toks rest', (none : Option (List Tok × List Tok)) = some (toks, rest') →
        toks ++ rest' = tok :: rest ∧ toks ≠ [] := fun _ _ h => by cases h
    unfold macroStateOperator
    split
    · cases hextent : operatorExtent rest with
      | none => exact ⟨_, _, rfl, hex.grown, hnone⟩
      | some r =>
        obtain ⟨toks, rest'⟩ := r
        have hpass : ∀ toks' rest'', some (tok :: toks, rest') = some (toks', rest'') →
            toks' ++ rest'' = tok :: rest ∧ toks' ≠ [] := by
          intro toks' rest'' h
          simp only [Option.some.injEq, Prod.mk.injEq] at h
          obtain ⟨rfl, rfl⟩ := h
          exact ⟨by rw [List.cons_append, ← operatorExtent_eq hextent], List.cons_ne_nil _ _⟩
        cases hstack : pp.macroStack (operatorText tok toks) with
        | none => exact ⟨_, _, by simp only [hstack], hex.grown, hnone⟩
        | some o =>
          cases o with
          | none => exact ⟨_, _, by simp only [hstack], hex.grown, hpass⟩
          | some p =>
            obtain ⟨push, name⟩ := p
            refine ⟨_, { ex with shadows := shadowMacroStack pp push (pp.key name) ex.shadows },
              by simp only [hstack],
              ⟨Extends.refl _, List.prefix_rfl, hex.valid, ?_, hex.log⟩, hpass⟩
            exact shadowMacroStack_within hcov hex.shadows push _
    · exact ⟨_, _, rfl, hex.grown, hnone⟩
  obtain ⟨o, ex', heq, h⟩ := hkind
  exact settles_of_eq (fun _ => heq) h

/-! ## Replacements -/

/-- A replacement is recorded, and its tokens carry the hideset of the invocation. -/
lemma carry_settles {ex : Exp} (hex : Good pp U ex) {tok : Tok} {name : Spelling}
    {close : Option ℕ} {inv : ℕ} {own : List Tok}
    (hinv : Invokes pp ex.arena tok name close inv) (hown : Below ex.arena own) :
    Settles (fun _ => carry tok name close inv own) ex fun result ex' =>
      Grown pp U ex ex' ∧ List.Forall₂ (Carries ex'.arena inv) own result := by
  obtain ⟨hext, hvalid, hcarry⟩ := hsAddAll_spec hex.valid hinv.invBound hown
  set b := (hsAddAll ex.arena own inv).1 with hb
  set result := (hsAddAll ex.arena own inv).2 with hresult
  have hcarried : carry tok name close inv own ex = some (result, { ex with
      arena := b, log := ex.log ++ [⟨tok, name, close, inv, own, result⟩] }) := rfl
  refine settles_of_eq (fun _ => hcarried)
    ⟨⟨hext, List.prefix_append _ _, hvalid, hex.shadows, fun r hr => ?_⟩, hcarry⟩
  rcases List.mem_append.mp hr with hr | hr
  · exact (hex.log r hr).extend hex.valid hvalid hext
  · obtain rfl := List.mem_singleton.mp hr
    exact ⟨hinv.extend hex.valid hvalid hext, hcarry⟩

/-- Pasting makes tokens of its operands and new ones. -/
lemma below_pasteRun {a : Arena} {out toks : List Tok} (hout : Below a out)
    (htoks : Below a toks) : Below a (pasteRun pp out toks) := by
  induction out, toks using pasteRun.induct pp with
  | case1 out => exact hout
  | case2 out t hpaste => simpa [pasteRun, hpaste] using hout
  | case3 out t hpaste => simp_all [pasteRun]
  | case4 out t right ts hpaste left hlast ih =>
    rw [pasteRun, if_pos hpaste, hlast]
    obtain ⟨-, -, hts⟩ := by simpa using htoks
    exact ih (by simp [hout.dropLast, below_glue]) hts
  | case5 out t right ts hpaste hlast ih =>
    rw [pasteRun, if_pos hpaste, hlast]
    exact ih hout (below_cons.mp htoks).2
  | case6 out t right ts hpaste ih =>
    rw [pasteRun, if_neg hpaste]
    obtain ⟨ht, hts⟩ := below_cons.mp htoks
    exact ih (by simp [hout, ht]) hts

lemma Grown.invokes {ex ex' : Exp} (h : Grown pp U ex ex') (hex : Good pp U ex) {tok : Tok}
    {name : Spelling} {close : Option ℕ} {inv : ℕ}
    (hinv : Invokes pp ex.arena tok name close inv) : Invokes pp ex'.arena tok name close inv :=
  hinv.extend hex.valid h.good.valid h.extend

/-- A substitution settles, and its tokens carry the hideset of the invocation. -/
lemma subst_settles {expand : ℕ → List Tok → M (List Tok)} (hscan : Scans pp U expand) {ex : Exp}
    (hex : Good pp U ex) {tok : Tok} {name : Spelling} {close inv : ℕ}
    (hinv : Invokes pp ex.arena tok name (some close) inv) {fn : FnMacro}
    {rawArgs : List (List Tok)} {seps : List Bool} (hargs : BelowAll ex.arena rawArgs) :
    Settles (fun F => subst pp (expand F) tok name fn rawArgs seps close inv) ex
      fun result ex' => Grown pp U ex ex' ∧
        ∃ own, List.Forall₂ (Carries ex'.arena inv) own result := by
  refine (substBody_settles hscan hex hargs).bind fun own ex₁ h₁ => ?_
  exact (carry_settles h₁.1.good (h₁.1.invokes hex hinv) h₁.2).mono fun result ex₂ h₂ =>
    ⟨h₁.1.trans h₂.1, own, h₂.2⟩

/-- A name is hidden from the tokens that replace it. -/
lemma object_settles {ex : Exp} (hex : Good pp U ex) {tok : Tok} (hident : tok.kind = .ident)
    (hbound : tok.hs ≤ ex.arena.spans.length)
    (hfree : ex.arena.hsContains tok.hs (pp.key tok.text) = false) :
    Settles (fun _ => onArena fun a => a.hsWithName tok.hs (pp.key tok.text)) ex
      fun inv ex' => Grown pp U ex ex' ∧ Invokes pp ex'.arena tok (pp.key tok.text) none inv := by
  have hmade := made_hsWithName hex.valid hbound (pp.key tok.text)
  refine settles_of_eq (fun _ => rfl) ⟨hex.arena hmade.valid hmade.extend, hident, rfl, ?_, ?_,
    hbound.trans hmade.extend.spans.length_le, (fun c hc => by cases hc), hmade.bound⟩
  · rw [Bool.eq_false_iff, ne_eq, hmade.extend.contains_iff hex.valid hmade.valid hbound, hfree]
    exact Bool.false_ne_true
  · intro other
    rw [hmade.contains, hmade.extend.contains_iff hex.valid hmade.valid hbound]
    simp

/-- The hideset of a function-like invocation. -/
lemma function_settles {ex : Exp} (hex : Good pp U ex) {tok : Tok} (hident : tok.kind = .ident)
    (hbound : tok.hs ≤ ex.arena.spans.length) {close : ℕ}
    (hclose : close ≤ ex.arena.spans.length)
    (hfree : ex.arena.hsContains tok.hs (pp.key tok.text) = false) :
    Settles (fun _ => (onArena fun a => a.hsIntersect tok.hs close) >>= fun common =>
        onArena fun a => a.hsWithName common (pp.key tok.text)) ex
      fun inv ex' => Grown pp U ex ex' ∧
        Invokes pp ex'.arena tok (pp.key tok.text) (some close) inv := by
  have hmeet := made_hsIntersect hex.valid (y := close) hbound
  set b := (ex.arena.hsIntersect tok.hs close).1 with hb
  set common := (ex.arena.hsIntersect tok.hs close).2 with hcommon
  have hmade := made_hsWithName hmeet.valid hmeet.bound (pp.key tok.text)
  have hext := hmeet.extend.trans hmade.extend
  have hgrow := hext.spans.length_le
  refine settles_of_eq (fun _ => rfl) ⟨hex.arena hmade.valid hext, hident, rfl, ?_, ?_,
    hbound.trans hgrow, ?_, hmade.bound⟩
  · rw [Bool.eq_false_iff, ne_eq, hext.contains_iff hex.valid hmade.valid hbound, hfree]
    exact Bool.false_ne_true
  · intro other
    rw [hmade.contains, hmeet.contains, hext.contains_iff hex.valid hmade.valid hbound]
    simp only [Option.some.injEq, forall_eq']
    rw [hext.contains_iff hex.valid hmade.valid hclose]
  · intro c hc
    obtain rfl := Option.some.inj hc
    exact hclose.trans hgrow

/-! ## The scan -/

/-- How a step of the scan ends: in a good state, with tokens of its arena, and with the pending
tokens advanced. -/
structure StepEnds (pp : Macros) (U : Finset Spelling) (ex : Exp) (toks : List Tok) (sc : Scan)
    (ex' : Exp) : Prop where
  grown : Grown pp U ex ex'
  rest : Below ex'.arena sc.rest
  out : Below ex'.arena sc.out
  advances : Advances U ex.arena ex'.arena toks sc.rest

lemma StepEnds.drop (gone : List Tok) {ex ex' : Exp} (hgrown : Grown pp U ex ex')
    {toks : List Tok} {sc : Scan} (htoks : toks = gone ++ sc.rest) (hgone : gone ≠ [])
    (hbelow : Below ex.arena toks) (hout : Below ex'.arena sc.out) : StepEnds pp U ex toks sc ex' where
  grown := hgrown
  rest := (hbelow.subset (by rw [htoks]; exact List.subset_append_right _ _)).extend hgrown.extend
  out := hout
  advances := htoks ▸ Advances.drops gone sc.rest hgone

/-- A step whose replacement rejoins the scan. -/
lemma StepEnds.rejoin (gone : List Tok) (last : Tok) {ex ex' : Exp} (hgrown : Grown pp U ex ex')
    {tok : Tok} {name : Spelling} {close : Option ℕ} {inv : ℕ} {own sub kept : List Tok} {sc : Scan}
    (hinv : Invokes pp ex'.arena tok name close inv) (hU : name ∈ U) (hex : Good pp U ex)
    (hcarry : List.Forall₂ (Carries ex'.arena inv) own sub) (hhead : gone.head? = some tok)
    (hlast : gone.getLast? = some last) (hconsulted : last.consulted = true)
    (hclose : ∀ c, close = some c → c = last.hs) (hbelow : Below ex.arena (gone ++ kept))
    (hout : Below ex'.arena sc.out) (hrest : sc.rest = setFirstSpace tok.space sub ++ kept) :
    StepEnds pp U ex (gone ++ kept) sc ex' := by
  have htok : tok.hs ≤ ex.arena.spans.length :=
    hbelow tok (List.mem_append_left _ (List.mem_of_mem_head? hhead))
  have hlastBound : last.hs ≤ ex.arena.spans.length :=
    hbelow last (List.mem_append_left _ (List.mem_of_mem_getLast? hlast))
  have hsame : ∀ hs, hs ≤ ex.arena.spans.length → ∀ other,
      ex'.arena.hsContains hs other = true ↔ ex.arena.hsContains hs other = true := fun _ hhs _ =>
    hgrown.extend.contains_iff hex.valid hgrown.good.valid hhs
  have hkept : Below ex'.arena kept := (below_append.mp hbelow).2.extend hgrown.extend
  refine ⟨hgrown, ?_, hout, ?_⟩
  · rw [hrest, below_append, below_setFirstSpace]
    exact ⟨below_of_carries hcarry, hkept⟩
  · rw [hrest]
    refine Advances.rejoins tok last name gone _ kept hhead hlast ?_ hconsulted hU ?_ ?_
    · simp [Tok.consulted, hinv.ident]
    · rw [Bool.eq_false_iff, ne_eq, ← hsame _ htok, hinv.free]
      exact Bool.false_ne_true
    · have hcarries : ∀ t ∈ sub, t.consulted = true → ∀ other,
          ex'.arena.hsContains inv other = true → ex'.arena.hsContains t.hs other = true := by
        intro t ht hc other hother
        obtain ⟨i, hi, rfl⟩ := List.mem_iff_getElem.mp ht
        have hi' : i < own.length := by rw [hcarry.length_eq]; exact hi
        have hcar := hcarry.get hi' hi
        refine (hcar.contains ?_ other).mpr (Or.inr hother)
        have hlex := hcar.lexeme
        simp only [List.get_eq_getElem] at hlex
        simpa [Tok.consulted, Tok.isClose, hlex] using hc
      intro t ht hc other hother
      have hheld : ex'.arena.hsContains inv other = true := by
        refine (hinv.hides other).mpr (hother.imp_right fun h => ⟨?_, fun c hc' => ?_⟩)
        · exact (hsame _ htok other).mpr h.1
        · rw [hclose c hc']
          exact (hsame _ hlastBound other).mpr h.2
      -- the leading space is not part of what the scan consults
      cases sub with
      | nil => cases ht
      | cons first more =>
        rcases List.mem_cons.mp ht with rfl | ht
        · exact hcarries first (.head _) hc other hheld
        · exact hcarries t (.tail _ ht) hc other hheld

section

variable {expand : ℕ → List Tok → M (List Tok)} {depth : ℕ} {tok : Tok} {sc : Scan} {ex : Exp}

lemma StepEnds.pass {ex' : Exp} {sc' : Scan} (hgrown : Grown pp U ex ex')
    (hbelow : Below ex.arena (tok :: sc.rest)) (hout : Below ex.arena sc.out)
    (hrest' : sc'.rest = sc.rest) (hout' : sc'.out = sc.out ++ [tok]) :
    StepEnds pp U ex (tok :: sc.rest) sc' ex' := by
  refine StepEnds.drop [tok] hgrown (by rw [hrest']; rfl) (List.cons_ne_nil _ _) hbelow ?_
  rw [hout', below_append]
  exact ⟨hout.extend hgrown.extend,
    (hbelow.subset (List.cons_subset_cons _ (List.nil_subset _))).extend hgrown.extend⟩

lemma StepEnds.after {ex₁ ex' : Exp} {toks : List Tok} {sc' : Scan}
    (h : StepEnds pp U ex₁ toks sc' ex') (hgrown : Grown pp U ex ex₁) (hex : Good pp U ex)
    (hbelow : Below ex.arena toks) : StepEnds pp U ex toks sc' ex' where
  grown := hgrown.trans h.grown
  rest := h.rest
  out := h.out
  advances := h.advances.of_extends hex.valid hgrown.good.valid hgrown.extend hbelow

/-- A name that may fire. -/
lemma replace_settles (hscan : Scans pp U expand) (hex : Good pp U ex)
    (hident : tok.kind = .ident) (hbelow : Below ex.arena (tok :: sc.rest))
    (hout : Below ex.arena sc.out)
    (hfree : ex.arena.hsContains tok.hs (pp.key tok.text) = false) {defn : SavedMacro}
    (hdefn : defn ≠ .undefined → pp.key tok.text ∈ U) :
    Settles (fun F => replace pp (expand F) depth tok (pp.key tok.text) defn sc) ex
      (StepEnds pp U ex (tok :: sc.rest)) := by
  have htok : tok.hs ≤ ex.arena.spans.length := (below_cons.mp hbelow).1
  cases defn with
  | undefined => exact settles_pure (StepEnds.pass hex.grown hbelow hout rfl rfl)
  | object body =>
    have hU : pp.key tok.text ∈ U := hdefn (by simp)
    refine (object_settles hex hident htok hfree).bind fun inv ex₁ h₁ => ?_
    have hown : Below ex₁.arena (pasteRun pp [] (body.map Lexeme.tok)) :=
      below_pasteRun below_nil (below_map_tok _)
    refine (carry_settles h₁.1.good h₁.2 hown).bind fun sub ex₂ h₂ => settles_pure ?_
    have hgrown := h₁.1.trans h₂.1
    exact StepEnds.rejoin [tok] tok hgrown (h₂.1.invokes h₁.1.good h₁.2) hU hex h₂.2 rfl rfl
      (by simp [Tok.consulted, hident]) (fun c hc => by cases hc) hbelow
      (hout.extend hgrown.extend) rfl
  | function fn =>
    have hU : pp.key tok.text ∈ U := hdefn (by simp)
    unfold replace
    simp only
    cases hargs : if sc.rest.head?.any (isPunct pp · ['(']) then scanArgs sc.rest else none with
    | none =>
      have htail : ∃ ex', noteTail pp depth sc.rest ex = some ((), ex') ∧ Grown pp U ex ex' := by
        unfold noteTail
        repeat' split
        all_goals exact ⟨_, rfl, hex.congr rfl rfl rfl⟩
      obtain ⟨ex', heq, hgrown⟩ := htail
      have hnoted : Settles (fun _ => noteTail pp depth sc.rest) ex
          fun _ ex' => Grown pp U ex ex' := settles_of_eq (fun _ => heq) hgrown
      exact hnoted.bind fun _ ex₁ h₁ => settles_pure (StepEnds.pass h₁ hbelow hout rfl rfl)
    | some found =>
      obtain ⟨rawArgs, seps, close, rest⟩ := found
      have hscanned : scanArgs sc.rest = some (rawArgs, seps, close, rest) := by
        split at hargs
        · exact hargs
        · cases hargs
      obtain ⟨before, t, hrest, ht, rfl, hsub⟩ := scanArgs_eq hscanned
      cases hlist : sc.rest with
      | nil => simp [hlist] at hrest
      | cons opening pending =>
        rw [hlist, List.drop_one, List.tail_cons] at hrest
        subst hrest
        rw [hlist] at hbelow
        have hbound : t.hs ≤ ex.arena.spans.length := hbelow t (by simp)
        have hraw : BelowAll ex.arena rawArgs := fun arg harg =>
          hbelow.subset (List.Subset.trans (hsub arg harg) (by intro u hu; simp [hu]))
        refine Settles.assoc ((function_settles hex hident htok hbound hfree).bind
          fun inv ex₁ h₁ => ?_)
        have hget : Settles (fun _ => (get : M Exp)) ex₁ fun e ex' => e = ex₁ ∧ ex' = ex₁ :=
          settles_of_eq (fun _ => rfl) ⟨rfl, rfl⟩
        refine hget.bind fun e ex₁' h => ?_
        obtain ⟨rfl, rfl⟩ := h
        refine Settles.bind (subst_settles hscan h₁.1.good h₁.2 (hraw.extend h₁.1.extend))
          fun sub ex₂ h₂ => ?_
        have hmod : Settles (fun _ => (modify fun ex => { ex with srcPos := ex₁'.srcPos } : M Unit))
            ex₂ fun _ ex' => ex' = { ex₂ with srcPos := ex₁'.srcPos } :=
          settles_of_eq (fun _ => rfl) rfl
        refine hmod.bind fun _ ex₃ h₃ => settles_pure ?_
        subst h₃
        have hgrown : Grown pp U ex { ex₂ with srcPos := ex₁'.srcPos } :=
          (h₁.1.trans h₂.1).congr rfl rfl rfl
        have htoks : tok :: opening :: (before ++ t :: rest) =
            (tok :: opening :: (before ++ [t])) ++ rest := by simp
        rw [htoks] at hbelow ⊢
        refine StepEnds.rejoin _ t hgrown (h₂.1.invokes h₁.1.good h₁.2) hU hex h₂.2.choose_spec rfl
          ?_ (by simp [Tok.consulted, ht]) (fun c hc => (Option.some.inj hc).symm) hbelow
          (hout.extend hgrown.extend) rfl
        rw [← List.cons_append, ← List.cons_append, List.getLast?_append]
        rfl

/-- An identifier settles. -/
lemma scanIdent_settles (hscan : Scans pp U expand) (hcov : Covers pp U) (hex : Good pp U ex)
    (hident : tok.kind = .ident) (hbelow : Below ex.arena (tok :: sc.rest))
    (hout : Below ex.arena sc.out) :
    Settles (fun F => scanIdent pp ln (expand F) depth tok sc) ex
      (StepEnds pp U ex (tok :: sc.rest)) := by
  unfold scanIdent
  split
  · exact settles_pure (StepEnds.pass hex.grown hbelow hout rfl rfl)
  · refine (dynamicPredefine_settles hex tok).bind fun o ex₁ h₁ => ?_
    cases o with
    | some t =>
      refine settles_pure (StepEnds.drop [tok] h₁.1 rfl (List.cons_ne_nil _ _) hbelow ?_)
      simp [hout.extend h₁.1.extend, h₁.2 t rfl]
    | none =>
      have hbelow₁ := hbelow.extend h₁.1.extend
      have hout₁ := hout.extend h₁.1.extend
      cases hop : hasOperator pp tok sc.rest with
      | some r =>
        obtain ⟨t, rest⟩ := r
        obtain ⟨ht, gone, hrest⟩ := hasOperator_eq hop
        refine settles_pure (StepEnds.drop (tok :: gone) h₁.1 (by simp [hrest])
          (List.cons_ne_nil _ _) hbelow ?_)
        simp [hout₁, ht]
      | none =>
        have hget : Settles (fun _ => (get : M Exp)) ex₁ fun e ex' => e = ex₁ ∧ ex' = ex₁ :=
          settles_of_eq (fun _ => rfl) ⟨rfl, rfl⟩
        simp only
        refine hget.bind fun e ex₂ h => ?_
        obtain ⟨rfl, rfl⟩ := h
        by_cases hheld : ex₂.arena.hsContains tok.hs (pp.key tok.text) = true
        · simp only [hheld, if_true]
          exact settles_pure (StepEnds.pass h₁.1 hbelow hout rfl rfl)
        · simp only [hheld]
          refine (replace_settles hscan h₁.1.good hident hbelow₁ hout₁ (by simpa using hheld)
            fun hlive => ?_).mono fun sc' ex' h => h.after h₁.1 hex hbelow
          by_contra hname
          exact hlive (liveMacro_undefined hcov h₁.1.good.shadows hname)

/-- **A step of the scan settles** and advances over the pending tokens. -/
theorem scanStep_settles (hscan : Scans pp U expand) (hcov : Covers pp U) (hex : Good pp U ex)
    (hbelow : Below ex.arena (tok :: sc.rest)) (hout : Below ex.arena sc.out) :
    Settles (fun F => scanStep pp ln (expand F) depth tok sc) ex
      (StepEnds pp U ex (tok :: sc.rest)) := by
  have hpos : Settles (fun _ => notePos tok sc) ex
      fun sc₁ ex₁ => Grown pp U ex ex₁ ∧ sc₁.rest = sc.rest ∧ sc₁.out = sc.out := by
    by_cases hin : sc.replaced.any (fun r => decide (r ≤ sc.rest.length)) = true
    · exact settles_of_eq (fun _ => if_pos hin) ⟨hex.grown, rfl, rfl⟩
    · exact settles_of_eq (fun _ => if_neg hin) ⟨hex.congr rfl rfl rfl, rfl, rfl⟩
  refine hpos.bind fun sc₁ ex₁ h₁ => ?_
  obtain ⟨hgrown₁, hrest₁, hout₁⟩ := h₁
  rw [← hrest₁] at hbelow ⊢
  rw [← hout₁] at hout
  have hoperator : Settles (fun _ => if depth = 0 ∧ ln.what = .text then
        macroStateOperator pp tok sc₁.rest else pure none) ex₁
      fun o ex₂ => Grown pp U ex₁ ex₂ ∧ ∀ toks rest', o = some (toks, rest') →
        toks ++ rest' = tok :: sc₁.rest ∧ toks ≠ [] := by
    split
    · exact macroStateOperator_settles hcov hgrown₁.good tok sc₁.rest
    · exact settles_pure ⟨hgrown₁.good.grown, fun _ _ h => by cases h⟩
  refine hoperator.bind fun o ex₂ h₂ => ?_
  have hgrown := hgrown₁.trans h₂.1
  cases o with
  | some r =>
    obtain ⟨toks, rest⟩ := r
    obtain ⟨htoks, hne⟩ := h₂.2 toks rest rfl
    refine settles_pure (StepEnds.drop toks hgrown htoks.symm hne hbelow ?_)
    rw [below_append]
    rw [← htoks] at hbelow
    exact ⟨hout.extend hgrown.extend, (below_append.mp hbelow).1.extend hgrown.extend⟩
  | none =>
    simp only
    split
    · exact settles_pure (StepEnds.pass hgrown hbelow hout rfl rfl)
    · split
      · exact settles_pure (StepEnds.pass hgrown hbelow hout rfl rfl)
      · next hkind =>
        refine (scanIdent_settles hscan hcov hgrown.good (not_not.mp hkind)
          (hbelow.extend hgrown.extend) (hout.extend hgrown.extend)).mono fun sc' ex' h => ?_
        exact h.after hgrown hex hbelow

end

/-- One turn of the scan: the next token taken, or the line at its end. -/
def scanNext (pp : Macros) (ln : Line) (expand : List Tok → M (List Tok)) (depth : ℕ) (sc : Scan) :
    M (Scan ⊕ List Tok) :=
  match sc.rest with
  | [] => pure (.inr sc.out)
  | tok :: rest => Sum.inl <$> scanStep pp ln expand depth tok { sc with rest := rest }

/-- The scan settles where the scan of an argument does. -/
theorem scan_settles {expand : ℕ → List Tok → M (List Tok)} (hscan : Scans pp U expand)
    (hcov : Covers pp U) (depth : ℕ) :
    Scans pp U fun F toks => scan pp ln (expand F) depth F { rest := toks } := by
  intro toks ex hex htoks
  have hrun : ∀ F G sc, scan pp ln (expand F) depth (G + 1) sc =
      scanNext pp ln (expand F) depth sc >>= Sum.elim (scan pp ln (expand F) depth G) pure := by
    intro F G sc
    simp only [scan, scanNext]
    cases sc.rest with
    | nil => rfl
    | cons tok rest => simp only [bind_map_left, Sum.elim_inl]
  refine Settles.loop hrun
    (InvImage.wf (missing U) Multiset.wellFounded_isDershowitzMannaLT)
    (fun ps sc ex' => Grown pp U ex ex' ∧ Below ex'.arena sc.rest ∧ Below ex'.arena sc.out ∧
      ps.map Prod.fst = sc.rest ∧ Leveled ex'.arena U ps) ?_ (toks.map (·, ∅)) _ ex
    ⟨hex.grown, htoks, below_nil, by simp [Function.comp_def], leveled_start _ _ _⟩
  rintro ps sc ex₁ ⟨hgrown, hrest, hout, hps, hl⟩
  simp only [scanNext]
  cases hpending : sc.rest with
  | nil => exact settles_pure ⟨hgrown, hout⟩
  | cons tok rest =>
    rw [hpending] at hrest hps
    let sc₁ : Scan := { sc with rest := rest }
    have hstep : Settles (fun F => scanStep pp ln (expand F) depth tok sc₁) ex₁
        (StepEnds pp U ex₁ (tok :: rest)) := scanStep_settles hscan hcov hgrown.good hrest hout
    refine (hstep.mono fun sc' ex₂ h => ?_).map
    obtain ⟨qs, hqs, hl', hless⟩ := h.advances.lowers hgrown.good.valid h.grown.good.valid
      h.grown.extend hrest hps hl
    exact ⟨qs, hless, hgrown.trans h.grown, h.rest, h.out, hqs, hl'⟩

/-- The scan settles at every nesting. -/
theorem expandAt_settles (hcov : Covers pp U) (levels : ℕ) :
    Scans pp U fun F => expandAt pp ln F levels := by
  induction levels with
  | zero => exact fun toks ex hex htoks => settles_pure ⟨hex.grown, htoks⟩
  | succ levels ih => exact scan_settles ih hcov _

/-! ## The result -/

/-- The names that can have a definition while a line expands. -/
def definedNames (pp : Macros) (shadows : List Shadow) : List Spelling :=
  pp.macros.map Prod.fst ++ pp.fnMacros.map Prod.fst ++ pp.pushedMacros.map Prod.fst ++
    shadows.map Shadow.name

lemma lookup_eq_none_of_notMem {β : Type} {l : List (Spelling × β)} {name : Spelling}
    (h : name ∉ l.map Prod.fst) : l.lookup name = none := by
  rw [List.lookup_eq_none_iff]
  intro p hp
  have hne : name ≠ p.1 := fun hsame => h (by rw [hsame]; exact List.mem_map_of_mem hp)
  simpa using hne

lemma covers_definedNames (pp : Macros) (shadows : List Shadow) :
    Covers pp (definedNames pp shadows).toFinset := by
  intro name hname
  rw [List.mem_toFinset] at hname
  simp only [definedNames, List.mem_append, not_or] at hname
  obtain ⟨⟨⟨hobjs, hfn⟩, hpushed⟩, -⟩ := hname
  exact ⟨lookup_eq_none_of_notMem hobjs, lookup_eq_none_of_notMem hfn,
    lookup_eq_none_of_notMem hpushed⟩

/-- The hideset operations compute the set operations they name, and sets that exist keep their
names. -/
structure SetOps (a : Arena) : Prop where
  intersect : ∀ x y, x ≤ a.spans.length → y ≤ a.spans.length →
    Made a (a.hsIntersect x y).1 (a.hsIntersect x y).2 fun name =>
      a.hsContains x name = true ∧ a.hsContains y name = true
  union : ∀ x y, x ≤ a.spans.length → y ≤ a.spans.length →
    Made a (a.hsUnion x y).1 (a.hsUnion x y).2 fun name =>
      a.hsContains x name = true ∨ a.hsContains y name = true
  withName : ∀ hs name, hs ≤ a.spans.length →
    Made a (a.hsWithName hs name).1 (a.hsWithName hs name).2 fun other =>
      other = name ∨ a.hsContains hs other = true
  addAll : ∀ toks hs, hs ≤ a.spans.length → Below a toks →
    Extends a (hsAddAll a toks hs).1 ∧ (hsAddAll a toks hs).1.Valid ∧
      List.Forall₂ (Carries (hsAddAll a toks hs).1 hs) toks (hsAddAll a toks hs).2
  keeps : ∀ b, b.Valid → Extends a b → ∀ hs, hs ≤ a.spans.length → ∀ name,
    b.hsContains hs name = true ↔ a.hsContains hs name = true

/-- **Macro expansion ends and blocks re-entry.**  The hideset operations compute the set operations
they name.  At every depth, for all tables, tokens and states, expansion gives one result from some
fuel on; and in every replacement it has made, the name was not in the hideset of its token, and the
tokens that rejoined the scan hold the hideset of the invocation besides their own. -/
theorem expandTokens_blocks (pp : Macros) (ln : Line) (depth : ℕ) (toks : List Tok) (ex : Exp)
    (hvalid : ex.arena.Valid) (hbelow : Below ex.arena toks)
    (hlog : ∀ r ∈ ex.log, Blocked pp ex.arena r) :
    (∀ a : Arena, a.Valid → SetOps a) ∧
      ∃ (N : ℕ) (out : List Tok) (ex' : Exp),
        (∀ fuel, N ≤ fuel → expandTokens pp ln fuel depth toks ex = some (out, ex')) ∧
        Extends ex.arena ex'.arena ∧ ex'.arena.Valid ∧ Below ex'.arena out ∧
        ex.log <+: ex'.log ∧ ∀ r ∈ ex'.log, Blocked pp ex'.arena r := by
  constructor
  · intro a ha
    exact ⟨fun x y hx _ => made_hsIntersect ha hx, fun x y _ _ => made_hsUnion ha,
      fun hs name hhs => made_hsWithName ha hhs name,
      fun toks hs hhs htoks => hsAddAll_spec ha hhs htoks,
      fun b hb hext hs hhs name => hext.contains_iff ha hb hhs⟩
  · have hshadows : ∀ s ∈ ex.shadows, s.Within (definedNames pp ex.shadows).toFinset := by
      intro s hs hname
      refine absurd (List.mem_toFinset.mpr ?_) hname
      exact List.mem_append_right _ (List.mem_map_of_mem hs)
    have hscans : Scans pp _ fun F => expandAt pp ln F (maxMacroDepth + 1 - depth) :=
      expandAt_settles (covers_definedNames pp ex.shadows) _
    obtain ⟨N, out, ex', hrun, hgrown, hout⟩ := hscans toks ex ⟨hvalid, hshadows, hlog⟩ hbelow
    exact ⟨N, out, ex', hrun, hgrown.extend, hgrown.good.valid, hout, hgrown.made,
      hgrown.good.log⟩

/-- Two object-like macros that name each other. -/
def mutualMacros : Macros where
  macros := [(['f'], [⟨['g'], .ident, false⟩]), (['g'], [⟨['f'], .ident, false⟩])]
  lex := fun _ => []

/-- The expansion of a macro that names itself through another ends. -/
theorem expandTokens_blocks_mutual :
    (∀ a : Arena, a.Valid → SetOps a) ∧
      ∃ (N : ℕ) (out : List Tok) (ex' : Exp),
        (∀ fuel, N ≤ fuel → expandTokens mutualMacros {} fuel 0
          [{ text := ['f'], kind := .ident, space := false, linePos := some 0 }]
          { arena := {} } = some (out, ex')) ∧
        Extends {} ex'.arena ∧ ex'.arena.Valid ∧ Below ex'.arena out ∧
        [] <+: ex'.log ∧ ∀ r ∈ ex'.log, Blocked mutualMacros ex'.arena r :=
  expandTokens_blocks mutualMacros {} 0 _ { arena := {} } (valid_empty [] List.nodup_nil)
    (by simp) (fun r hr => by cases hr)

/-- It ends with the name it began with, hidden. -/
example : ((expandTokens mutualMacros {} 9 0
    [{ text := ['f'], kind := .ident, space := false }] { arena := {} }).map fun r =>
      r.1.map (·.text)) = some [['f']] := by decide

end Preprocessor

end Badc
