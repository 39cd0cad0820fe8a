import Badc.Preprocessor.Blocked

/-!
# Substitution ends

Where the scan of an argument settles, so does the substitution of an invocation: it visits the
replacement list once.  The tokens it leaves are tokens of the list, of the arguments, of their
expansions or new ones, so their hidesets are sets of the arena (`substBody_settles`).
-/

namespace Badc

namespace Preprocessor

open Arena

/-! ## Tokens of an argument list -/

/-- The tokens a closing parenthesis cuts a list into. -/
lemma closeAt_eq {depth : ℕ} {ts before after : List Tok} {t : Tok}
    (h : closeAt depth ts = some (before, t, after)) :
    ts = before ++ t :: after ∧ t.isClose = true := by
  induction ts generalizing depth before with
  | nil => cases h
  | cons first ts ih =>
    rw [closeAt] at h
    split at h
    · next hclose =>
      simp only [Option.some.injEq, Prod.mk.injEq] at h
      obtain ⟨rfl, rfl, rfl⟩ := h
      exact ⟨rfl, (Bool.and_eq_true _ _ ▸ hclose).1⟩
    · obtain ⟨r, hr, heq⟩ := Option.map_eq_some_iff.mp h
      obtain ⟨rest, found, behind⟩ := r
      simp only [Prod.mk.injEq] at heq
      obtain ⟨rfl, rfl, rfl⟩ := heq
      obtain ⟨rfl, hfound⟩ := ih hr
      exact ⟨rfl, hfound⟩

/-- An argument's tokens come from the list. -/
lemma mem_splitArgs {depth : ℕ} {cur ts arg : List Tok} {t : Tok}
    (harg : arg ∈ (splitArgs depth cur ts).1) (ht : t ∈ arg) : t ∈ cur ∨ t ∈ ts := by
  induction ts generalizing depth cur with
  | nil =>
    obtain rfl := List.mem_singleton.mp harg
    exact Or.inl ht
  | cons first ts ih =>
    rw [splitArgs] at harg
    split at harg
    · rcases List.mem_cons.mp harg with rfl | harg
      · exact Or.inl ht
      · rcases ih harg with h | h
        · cases h
        · exact Or.inr (.tail _ h)
    · rcases ih harg with h | h
      · rcases List.mem_append.mp h with h | h
        · exact Or.inl h
        · exact Or.inr (List.mem_cons.mpr (Or.inl (List.mem_singleton.mp h)))
      · exact Or.inr (.tail _ h)

/-- An argument list: the tokens it takes from the list end with its closing parenthesis, and the
arguments' tokens are among them. -/
lemma scanArgs_eq {rest after : List Tok} {args : List (List Tok)} {seps : List Bool} {close : ℕ}
    (h : scanArgs rest = some (args, seps, close, after)) :
    ∃ (before : List Tok) (t : Tok), rest.drop 1 = before ++ t :: after ∧ t.isClose = true ∧
      t.hs = close ∧ ∀ arg ∈ args, arg ⊆ before := by
  obtain ⟨⟨before, t, behind⟩, hclose, heq⟩ := Option.map_eq_some_iff.mp h
  obtain ⟨hrest, ht⟩ := closeAt_eq hclose
  simp only [Prod.mk.injEq] at heq
  obtain ⟨rfl, -, rfl, rfl⟩ := heq
  refine ⟨before, t, hrest, ht, rfl, fun arg harg u hu => ?_⟩
  rcases mem_splitArgs harg hu with h | h
  · cases h
  · exact h

/-! ## Tokens of a substitution -/

/-- The hidesets of the tokens of all lists are sets of the arena. -/
def BelowAll (a : Arena) (lists : List (List Tok)) : Prop := ∀ l ∈ lists, Below a l

section

variable {a b : Arena} {lists : List (List Tok)}

lemma BelowAll.extend (h : BelowAll a lists) (hext : Extends a b) : BelowAll b lists :=
  fun l hl => (h l hl).extend hext

lemma BelowAll.getD (h : BelowAll a lists) (i : ℕ) : Below a (lists.getD i []) := by
  rw [List.getD_eq_getElem?_getD]
  cases hi : lists[i]? with
  | none => exact below_nil
  | some l => exact h l (List.mem_of_getElem? hi)

lemma Below.dropLast {toks : List Tok} (h : Below a toks) : Below a toks.dropLast :=
  h.subset (List.dropLast_subset _)

/-- The unexpanded variadic tail. -/
lemma below_joinVaFrom (h : BelowAll a lists) (seps : List Bool) (nfixed k : ℕ) :
    Below a (Id.run (joinVaFrom pure seps nfixed k lists)) := by
  induction lists generalizing k with
  | nil => exact below_nil
  | cons arg args ih =>
    obtain ⟨harg, hargs⟩ := List.forall_mem_cons.mp h
    have hmore := ih hargs (k + 1)
    have hcomma : Below a (if nfixed < k then
        [{ text := [','], kind := .punct, space := seps.getD (k - 1) false }] else []) := by
      split <;> simp
    unfold joinVaFrom
    simp only [pure_bind, Id.run_bind, Id.run_pure, below_append, below_setFirstSpace]
    exact ⟨⟨hcomma, harg⟩, hmore⟩

variable {pp : Macros} {fn : FnMacro} {rawVa : List Tok}

lemma below_rawOf (h : BelowAll a lists) (hva : Below a rawVa) {t : Tok} {raw : List Tok}
    (hraw : rawOf pp fn lists rawVa t = some raw) : Below a raw := by
  rw [rawOf] at hraw
  split at hraw
  · rw [← Option.some.inj hraw]
    exact hva
  · obtain ⟨i, -, rfl⟩ := Option.map_eq_some_iff.mp hraw
    exact h.getD i

/-- `__VA_OPT__` keeps tokens of the replacement list and makes string literals. -/
lemma below_expandVaOptFrom {fuel : ℕ} {out body : List Tok} (hout : Below a out)
    (hbody : Below a body) : Below a (expandVaOptFrom pp fn lists rawVa fuel out body) := by
  induction fuel generalizing out body with
  | zero => exact below_append.mpr ⟨hout, hbody⟩
  | succ fuel ih =>
    cases body with
    | nil => exact hout
    | cons t rest =>
      obtain ⟨ht, hrest⟩ := below_cons.mp hbody
      have hpush : Below a (out ++ [t]) := by simp [hout, ht]
      rw [expandVaOptFrom]
      split
      · cases hclose : closeAt 1 rest.tail with
        | none => exact ih hpush hrest
        | some r =>
          obtain ⟨content, found, after⟩ := r
          have htail : Below a (content ++ found :: after) :=
            (closeAt_eq hclose).1 ▸ hrest.subset (List.tail_subset _)
          obtain ⟨hcontent, hafter⟩ := below_append.mp htail
          have hafter : Below a after := (below_cons.mp hafter).2
          simp only
          split
          · refine ih ?_ hafter
            simp [hout.dropLast, stringize]
          · split
            · exact ih (by simp [hout, hcontent]) hafter
            · split
              · exact ih hout.dropLast hafter
              · split
                · exact ih hout (hafter.subset (List.tail_subset _))
                · exact ih hout hafter
      · exact ih hpush hrest

end

/-- The tokens a substitution holds are in the arena. -/
structure Sub.Below (a : Arena) (s : Sub) : Prop where
  out : Preprocessor.Below a s.out
  args : ∀ o ∈ s.expArgs, ∀ l, o = some l → Preprocessor.Below a l
  va : ∀ l, s.expVa = some l → Preprocessor.Below a l

section

variable {pp : Macros} {U : Finset Spelling} {expand : ℕ → List Tok → M (List Tok)}
  {fn : FnMacro} {rawArgs : List (List Tok)} {seps : List Bool} {rawVa body : List Tok}
  {a : Arena} {s : Sub} {ex : Exp}

lemma Sub.Below.extend {b : Arena} (h : s.Below a) (hext : Extends a b) : s.Below b :=
  ⟨h.out.extend hext, fun o ho l hl => (h.args o ho l hl).extend hext,
    fun l hl => (h.va l hl).extend hext⟩

lemma Sub.Below.setOut (h : s.Below a) {out : List Tok} (hout : Preprocessor.Below a out)
    (lastEmpty : Bool) : Sub.Below a { s with out := out, lastEmpty := lastEmpty } :=
  ⟨hout, h.args, h.va⟩

/-- A scan settles on good states and tokens of their arena, in such a state and with such
tokens. -/
def Scans (pp : Macros) (U : Finset Spelling) (expand : ℕ → List Tok → M (List Tok)) : Prop :=
  ∀ toks ex, Good pp U ex → Below ex.arena toks →
    Settles (fun F => expand F toks) ex fun out ex' => Grown pp U ex ex' ∧ Below ex'.arena out

/-- The variadic tail through a scan. -/
lemma joinVaFrom_settles (hscan : Scans pp U expand) {args : List (List Tok)} {nfixed k : ℕ}
    (hex : Good pp U ex) (hargs : BelowAll ex.arena args) :
    Settles (fun F => joinVaFrom (expand F) seps nfixed k args) ex
      fun out ex' => Grown pp U ex ex' ∧ Below ex'.arena out := by
  induction args generalizing k ex with
  | nil => exact settles_pure ⟨hex.grown, below_nil⟩
  | cons arg args ih =>
    obtain ⟨harg, hrest⟩ := List.forall_mem_cons.mp hargs
    replace hrest : BelowAll ex.arena args := hrest
    simp only [joinVaFrom]
    refine (hscan arg ex hex harg).bind fun e ex₁ h₁ => ?_
    refine (ih h₁.1.good (hrest.extend h₁.1.extend)).bind fun more ex₂ h₂ => settles_pure ?_
    refine ⟨h₁.1.trans h₂.1, ?_⟩
    have hcomma : Below ex₂.arena (if nfixed < k then
        [{ text := [','], kind := .punct, space := seps.getD (k - 1) false }] else []) := by
      split <;> simp
    simp only [below_append, below_setFirstSpace]
    exact ⟨⟨hcomma, h₁.2.extend h₂.1.extend⟩, h₂.2⟩

/-- A `##` makes tokens of the operands and new ones. -/
lemma pasteStep_below (hargs : BelowAll a rawArgs) (hva : Below a rawVa) (hbody : Below a body)
    (i : ℕ) (hs : s.Below a) : (pasteStep pp fn rawArgs rawVa body i s).Below a := by
  unfold pasteStep
  cases hi : body[i + 1]? with
  | none => exact hs
  | some next =>
    have hnext : Below a ((rawOf pp fn rawArgs rawVa next).getD [next]) := by
      cases hraw : rawOf pp fn rawArgs rawVa next with
      | none => simpa using hbody next (List.mem_of_getElem? hi)
      | some raw => exact below_rawOf hargs hva hraw
    simp only
    split
    · split
      · exact hs.setOut hs.out.dropLast _
      · exact hs.setOut (below_splice.mpr ⟨hs.out, hva⟩) _
    · unfold pasteRight
      cases hright : (rawOf pp fn rawArgs rawVa next).getD [next] with
      | nil => exact hs
      | cons right more =>
        rw [hright] at hnext
        simp only
        split
        · exact hs.setOut (below_splice.mpr ⟨hs.out, hnext⟩) _
        · cases hlast : s.out.getLast? with
          | none => exact hs.setOut (below_splice.mpr ⟨hs.out, hnext⟩) _
          | some left =>
            refine hs.setOut ?_ _
            simp [hs.out.dropLast, below_glue, (below_cons.mp hnext).2]

/-- The result of a step of a substitution: a good state, and tokens of its arena. -/
def SubEnds (pp : Macros) (U : Finset Spelling) (ex : Exp) (s : Sub) (ex' : Exp) : Prop :=
  Grown pp U ex ex' ∧ s.Below ex'.arena

/-- The variadic tail settles. -/
lemma vaStep_settles (hscan : Scans pp U expand) (hex : Good pp U ex)
    (hargs : BelowAll ex.arena rawArgs) (hva : Below ex.arena rawVa) (i : ℕ) (t : Tok)
    (hs : s.Below ex.arena) :
    Settles (fun F => vaStep pp (expand F) fn rawArgs seps rawVa body i t s) ex
      (SubEnds pp U ex) := by
  unfold vaStep
  split
  · have hkeep : ∀ src ex₁, Grown pp U ex ex₁ ∧ Below ex₁.arena src →
        SubEnds pp U ex { s with
          out := splice s.out src t.space, lastEmpty := src.isEmpty, expVa := some src } ex₁ := by
      intro src ex₁ h
      have hs₁ := hs.extend h.1.extend
      refine ⟨h.1, below_splice.mpr ⟨hs₁.out, h.2⟩, hs₁.args, fun l hl => ?_⟩
      rw [← Option.some.inj hl]
      exact h.2
    cases hv : s.expVa with
    | some v => exact settles_pure (hkeep v ex ⟨hex.grown, hs.va v hv⟩)
    | none =>
      have htail : BelowAll ex.arena (rawArgs.drop fn.params.length) :=
        fun l hl => hargs l (List.mem_of_mem_drop hl)
      exact (joinVaFrom_settles hscan hex htail).bind fun src ex₁ h =>
        settles_pure (hkeep src ex₁ h)
  · exact settles_pure ⟨hex.grown, hs.setOut (below_splice.mpr ⟨hs.out, hva⟩) _⟩

/-- A parameter settles. -/
lemma argStep_settles (hscan : Scans pp U expand) (hex : Good pp U ex)
    (hargs : BelowAll ex.arena rawArgs) (i idx : ℕ) (t : Tok) (hs : s.Below ex.arena) :
    Settles (fun F => argStep pp (expand F) rawArgs body i t idx s) ex (SubEnds pp U ex) := by
  unfold argStep
  split
  · exact settles_pure
      ⟨hex.grown, hs.setOut (below_splice.mpr ⟨hs.out, hargs.getD idx⟩) _⟩
  · split
    · have hkeep : ∀ src ex₁, Grown pp U ex ex₁ ∧ Below ex₁.arena src →
          SubEnds pp U ex { s with
            out := splice s.out src t.space
            lastEmpty := src.isEmpty
            expArgs := s.expArgs.set idx
              (if s.plainUses.getD idx 0 - 1 = 0 then none else some src)
            plainUses := s.plainUses.set idx (s.plainUses.getD idx 0 - 1) } ex₁ := by
        intro src ex₁ h
        have hs₁ := hs.extend h.1.extend
        refine ⟨h.1, below_splice.mpr ⟨hs₁.out, h.2⟩, fun o ho l hl => ?_, hs₁.va⟩
        rcases List.mem_or_eq_of_mem_set ho with ho | rfl
        · exact hs₁.args o ho l hl
        · split at hl
          · cases hl
          · rw [← Option.some.inj hl]
            exact h.2
      cases he : s.expArgs.getD idx none with
      | none =>
        exact (hscan _ ex hex (hargs.getD idx)).bind fun src ex₁ h =>
          settles_pure (hkeep src ex₁ h)
      | some e =>
        have hmem : some e ∈ s.expArgs := by
          rw [List.getD_eq_getElem?_getD] at he
          cases hi : s.expArgs[idx]? with
          | none =>
            rw [hi] at he
            cases he
          | some o =>
            rw [hi] at he
            exact he ▸ List.mem_of_getElem? hi
        exact settles_pure (hkeep e ex ⟨hex.grown, hs.args _ hmem e rfl⟩)
    · exact settles_pure ⟨hex.grown, hs.setOut hs.out _⟩

/-- One step of a substitution settles. -/
lemma substStep_settles (hscan : Scans pp U expand) (hex : Good pp U ex)
    (hargs : BelowAll ex.arena rawArgs) (hva : Below ex.arena rawVa) (hbody : Below ex.arena body)
    {i : ℕ} {t : Tok} (ht : body[i]? = some t) (hs : s.Below ex.arena) :
    Settles (fun F => substStep pp (expand F) fn rawArgs seps rawVa body i t s) ex
      fun r => SubEnds pp U ex r.2 := by
  unfold substStep
  cases hash : hashOperand pp fn rawArgs rawVa body i t with
  | some raw =>
    refine settles_pure ⟨hex.grown, hs.setOut ?_ _⟩
    simp [hs.out, stringize]
  | none =>
    simp only
    split
    · exact settles_pure ⟨hex.grown, pasteStep_below hargs hva hbody i hs⟩
    · split
      · exact (vaStep_settles hscan hex hargs hva i t hs).bind fun s' ex' h => settles_pure h
      · cases hidx : if t.kind = .ident then paramIndex pp fn t else none with
        | none =>
          refine settles_pure ⟨hex.grown, hs.setOut ?_ _⟩
          simp [hs.out, hbody t (List.mem_of_getElem? ht)]
        | some idx =>
          exact (argStep_settles hscan hex hargs i idx t hs).bind fun s' ex' h => settles_pure h

/-- A substitution settles: it is at most `fuel` steps. -/
lemma substLoop_settles (hscan : Scans pp U expand) (fuel : ℕ) {i : ℕ} (hex : Good pp U ex)
    (hargs : BelowAll ex.arena rawArgs) (hva : Below ex.arena rawVa) (hbody : Below ex.arena body)
    (hs : s.Below ex.arena) :
    Settles (fun F => substLoop pp (expand F) fn rawArgs seps rawVa body fuel i s) ex
      (SubEnds pp U ex) := by
  induction fuel generalizing i s ex with
  | zero => exact settles_pure ⟨hex.grown, hs⟩
  | succ fuel ih =>
    simp only [substLoop]
    cases hi : body[i]? with
    | none => exact settles_pure ⟨hex.grown, hs⟩
    | some t =>
      refine (substStep_settles hscan hex hargs hva hbody hi hs).bind fun r ex₁ h₁ => ?_
      have hext := h₁.1.extend
      refine (ih h₁.1.good (hargs.extend hext) (hva.extend hext) (hbody.extend hext) h₁.2).mono
        fun s' ex₂ h₂ => ⟨h₁.1.trans h₂.1, h₂.2⟩

/-- **Substitution ends** where the scan of every argument does, and the tokens it leaves are in
the arena. -/
theorem substBody_settles (hscan : Scans pp U expand) (hex : Good pp U ex)
    (hargs : BelowAll ex.arena rawArgs) :
    Settles (fun F => substBody pp (expand F) fn rawArgs seps) ex
      fun out ex' => Grown pp U ex ex' ∧ Below ex'.arena out := by
  have hva : Below ex.arena (if fn.isVariadic then
      Id.run (joinVa pure rawArgs seps fn.params.length) else []) := by
    split
    · exact below_joinVaFrom (fun l hl => hargs l (List.mem_of_mem_drop hl)) _ _ _
    · exact below_nil
  unfold substBody
  set rawVa : List Tok := if fn.isVariadic then
    Id.run (joinVa pure rawArgs seps fn.params.length) else []
  have hbody : Below ex.arena (if fn.isVariadic then
      expandVaOptFrom pp fn rawArgs rawVa ((fn.body.map Lexeme.tok).length + 1) []
        (fn.body.map Lexeme.tok) else fn.body.map Lexeme.tok) := by
    split
    · exact below_expandVaOptFrom below_nil (below_map_tok _)
    · exact below_map_tok _
  refine (substLoop_settles hscan _ hex hargs hva hbody ⟨below_nil, ?_, ?_⟩).bind
    fun s ex' h => settles_pure ⟨h.1, h.2.out⟩
  · intro o ho l hl
    obtain ⟨arg, -, rfl⟩ := List.mem_map.mp ho
    cases hl
  · intro l hl
    cases hl

end

end Preprocessor

end Badc
