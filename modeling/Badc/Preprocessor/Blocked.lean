import Badc.Preprocessor.Expand
import Badc.Lib.Settles

/-!
# What holds of every replacement

A replacement is `Blocked` where the name was not in the hideset of its token, the hideset of the
invocation is the one C99 6.10.3.4 asks for, and the tokens of the replacement carry it besides
their own.  All of it is said of sets in the arena, and the arena only grows, so what holds of a
replacement when it is made holds to the end of the line (`Blocked.extend`).

`Good` is what the expansion keeps of its state: well-formed hidesets, replacements that are
blocked, and definitions only for the names of a fixed set, which is what bounds the expansion.
-/

namespace Badc

namespace Preprocessor

open Arena

/-- The hidesets of the tokens are sets of the arena. -/
def Below (a : Arena) (toks : List Tok) : Prop := ∀ t ∈ toks, t.hs ≤ a.spans.length

section

variable {a b : Arena} {toks more : List Tok}

@[simp] lemma below_nil : Below a [] := fun _ h => by cases h

@[simp] lemma below_cons {t : Tok} : Below a (t :: toks) ↔ t.hs ≤ a.spans.length ∧ Below a toks :=
  List.forall_mem_cons

@[simp] lemma below_append : Below a (toks ++ more) ↔ Below a toks ∧ Below a more :=
  List.forall_mem_append

lemma Below.subset (h : Below a toks) (hsub : more ⊆ toks) : Below a more :=
  fun t ht => h t (hsub ht)

lemma Below.extend (h : Below a toks) (hext : Extends a b) : Below b toks :=
  fun t ht => (h t ht).trans hext.spans.length_le

@[simp] lemma below_setFirstSpace {space : Bool} :
    Below a (setFirstSpace space toks) ↔ Below a toks := by
  cases toks with
  | nil => rfl
  | cons t ts => simp [setFirstSpace]

@[simp] lemma below_splice {space : Bool} :
    Below a (splice toks more space) ↔ Below a toks ∧ Below a more := by
  simp [splice]

lemma below_map_tok (ls : List Lexeme) : Below a (ls.map Lexeme.tok) := by
  intro t ht
  obtain ⟨l, -, rfl⟩ := List.mem_map.mp ht
  exact Nat.zero_le _

lemma below_glue (pp : Macros) (left right : Tok) : Below a (glue pp left right) :=
  below_setFirstSpace.mpr (below_map_tok _)

end

/-! ## The hideset of a replacement -/

/-- `t'` is the token `t` with the names of `hs` in its hideset, where the scan reads it. -/
structure Carries (a : Arena) (hs : ℕ) (t t' : Tok) : Prop where
  lexeme : t'.toLexeme = t.toLexeme
  bound : t.hs ≤ a.spans.length
  bound' : t'.hs ≤ a.spans.length
  plain : t.consulted = false → t'.hs = t.hs
  contains : t.consulted = true → ∀ name, a.hsContains t'.hs name = true ↔
    a.hsContains t.hs name = true ∨ a.hsContains hs name = true

/-- What a token carries it carries when the arena grows. -/
lemma Carries.extend {a b : Arena} {hs : ℕ} {t t' : Tok} (h : Carries a hs t t') (ha : a.Valid)
    (hb : b.Valid) (hext : Extends a b) (hhs : hs ≤ a.spans.length) : Carries b hs t t' where
  lexeme := h.lexeme
  bound := h.bound.trans hext.spans.length_le
  bound' := h.bound'.trans hext.spans.length_le
  plain := h.plain
  contains hc name := by
    rw [hext.contains_iff ha hb h.bound', hext.contains_iff ha hb h.bound,
      hext.contains_iff ha hb hhs]
    exact h.contains hc name

/-- The memo of `hsAddAll` maps a set to its union with `hs`. -/
def Unions (a : Arena) (hs : ℕ) (memo : List (ℕ × ℕ)) : Prop :=
  ∀ p ∈ memo, p.2 ≤ a.spans.length ∧ ∀ name, a.hsContains p.2 name = true ↔
    a.hsContains p.1 name = true ∨ a.hsContains hs name = true

@[simp] lemma hsContains_zero (a : Arena) (name : Spelling) : a.hsContains 0 name = false := by
  simp [hsContains]

/-- A binding that is found is in the list. -/
lemma mem_of_lookup {α β : Type} [DecidableEq α] {l : List (α × β)} {k : α} {v : β}
    (h : l.lookup k = some v) : (k, v) ∈ l := by
  induction l with
  | nil => cases h
  | cons p l ih =>
    rw [List.lookup_cons] at h
    by_cases hk : k = p.1
    · subst hk
      simp only [beq_self_eq_true, Option.some.injEq] at h
      exact List.mem_cons.mpr (Or.inl (by rw [← h]))
    · simp only [beq_eq_false_iff_ne.mpr hk] at h
      exact List.mem_cons_of_mem _ (ih h)

/-- Adding a hideset to a list, with a memo. -/
lemma hsAddAllFrom_spec {hs : ℕ} {toks : List Tok} {a : Arena} {memo : List (ℕ × ℕ)}
    (ha : a.Valid) (hhs : hs ≤ a.spans.length) (hmemo : Unions a hs memo)
    (hbounds : ∀ p ∈ memo, p.1 ≤ a.spans.length) (htoks : Below a toks) :
    Extends a (hsAddAllFrom hs a memo toks).1 ∧ (hsAddAllFrom hs a memo toks).1.Valid ∧
      List.Forall₂ (Carries (hsAddAllFrom hs a memo toks).1 hs) toks
        (hsAddAllFrom hs a memo toks).2 := by
  induction toks generalizing a memo with
  | nil => exact ⟨Extends.refl a, ha, List.Forall₂.nil⟩
  | cons t ts ih =>
    obtain ⟨ht, hts⟩ := below_cons.mp htoks
    -- the token that leaves the walk at `u`, with the rest of the walk from `a`
    have hsame : ∀ u, Carries a hs t { t with hs := u } →
        Extends a (hsAddAllFrom hs a memo ts).1 ∧ (hsAddAllFrom hs a memo ts).1.Valid ∧
          List.Forall₂ (Carries (hsAddAllFrom hs a memo ts).1 hs) (t :: ts)
            ({ t with hs := u } :: (hsAddAllFrom hs a memo ts).2) := by
      intro u hu
      obtain ⟨hext, hvalid, hcarry⟩ := ih ha hhs hmemo hbounds hts
      exact ⟨hext, hvalid, List.Forall₂.cons (hu.extend ha hvalid hext hhs) hcarry⟩
    rw [hsAddAllFrom]
    by_cases hcons : t.consulted = true
    · rw [hcons, Bool.not_true, if_neg Bool.false_ne_true]
      by_cases hown : t.hs = 0 ∨ t.hs = hs
      · rw [if_pos hown]
        refine hsame hs ⟨rfl, ht, hhs, fun h => absurd hcons (by simp [h]), fun _ name => ?_⟩
        rcases hown with hown | hown <;> simp [hown]
      · rw [if_neg hown]
        cases hlookup : memo.lookup t.hs with
        | some u =>
          obtain ⟨hu, hcontains⟩ := hmemo _ (mem_of_lookup hlookup)
          exact hsame u ⟨rfl, ht, hu, fun h => absurd hcons (by simp [h]), fun _ => hcontains⟩
        | none =>
          have hmade := made_hsUnion ha (x := t.hs) (y := hs)
          set a' := (a.hsUnion t.hs hs).1
          set u := (a.hsUnion t.hs hs).2
          have hcontains : ∀ name, a'.hsContains u name = true ↔
              a'.hsContains t.hs name = true ∨ a'.hsContains hs name = true := fun name => by
            rw [hmade.extend.contains_iff ha hmade.valid ht,
              hmade.extend.contains_iff ha hmade.valid hhs]
            exact hmade.contains name
          have hgrow := hmade.extend.spans.length_le
          have hmemo' : Unions a' hs (memo ++ [(t.hs, u)]) := by
            intro p hp
            rcases List.mem_append.mp hp with hp | hp
            · obtain ⟨hle, hp'⟩ := hmemo p hp
              refine ⟨hle.trans hgrow, fun name => ?_⟩
              rw [hmade.extend.contains_iff ha hmade.valid hle,
                hmade.extend.contains_iff ha hmade.valid (hbounds p hp),
                hmade.extend.contains_iff ha hmade.valid hhs]
              exact hp' name
            · obtain rfl := List.mem_singleton.mp hp
              exact ⟨hmade.bound, hcontains⟩
          have hbounds' : ∀ p ∈ memo ++ [(t.hs, u)], p.1 ≤ a'.spans.length := by
            intro p hp
            rcases List.mem_append.mp hp with hp | hp
            · exact (hbounds p hp).trans hgrow
            · obtain rfl := List.mem_singleton.mp hp
              exact ht.trans hgrow
          obtain ⟨hext, hvalid, hcarry⟩ := ih hmade.valid (hhs.trans hgrow) hmemo' hbounds'
            (hts.extend hmade.extend)
          have hu : Carries a' hs t { t with hs := u } :=
            ⟨rfl, ht.trans hgrow, hmade.bound, fun h => absurd hcons (by simp [h]),
              fun _ => hcontains⟩
          exact ⟨hmade.extend.trans hext, hvalid,
            List.Forall₂.cons (hu.extend hmade.valid hvalid hext (hhs.trans hgrow)) hcarry⟩
    · rw [Bool.not_eq_true] at hcons
      rw [hcons, Bool.not_false, if_pos rfl]
      exact hsame t.hs ⟨rfl, ht, ht, fun _ => rfl, fun h => absurd h (by simp [hcons])⟩

/-- **Adding a hideset to a list**: every token whose hideset the scan reads holds the names of its
own set and those of `hs`, and every other token is left. -/
theorem hsAddAll_spec {a : Arena} {toks : List Tok} {hs : ℕ} (ha : a.Valid)
    (hhs : hs ≤ a.spans.length) (htoks : Below a toks) :
    Extends a (hsAddAll a toks hs).1 ∧ (hsAddAll a toks hs).1.Valid ∧
      List.Forall₂ (Carries (hsAddAll a toks hs).1 hs) toks (hsAddAll a toks hs).2 := by
  unfold hsAddAll
  by_cases hzero : hs = 0
  · rw [if_pos hzero]
    refine ⟨Extends.refl a, ha, List.forall₂_same.mpr fun t ht => ?_⟩
    exact ⟨rfl, htoks t ht, htoks t ht, fun _ => rfl, fun _ name => by simp [hzero]⟩
  · rw [if_neg hzero]
    exact hsAddAllFrom_spec ha hhs (fun p hp => by cases hp) (fun p hp => by cases hp) htoks

lemma below_of_carries {a : Arena} {hs : ℕ} {toks out : List Tok}
    (h : List.Forall₂ (Carries a hs) toks out) : Below a out := by
  induction h with
  | nil => exact below_nil
  | cons hhead _ ih => exact below_cons.mpr ⟨hhead.bound', ih⟩

/-! ## Replacements -/

variable (pp : Macros)

/-- An invocation that C99 6.10.3.4 allows: the name is not in the hideset of its token, and the
invocation hides the name and what the token hides, of a function-like invocation only what its
closing parenthesis hides too. -/
structure Invokes (a : Arena) (tok : Tok) (name : Spelling) (close : Option ℕ) (inv : ℕ) :
    Prop where
  ident : tok.kind = .ident
  named : name = pp.key tok.text
  free : a.hsContains tok.hs name = false
  hides : ∀ other, a.hsContains inv other = true ↔ other = name ∨
    (a.hsContains tok.hs other = true ∧ ∀ c, close = some c → a.hsContains c other = true)
  tokBound : tok.hs ≤ a.spans.length
  closeBound : ∀ c, close = some c → c ≤ a.spans.length
  invBound : inv ≤ a.spans.length

/-- A replacement that C99 6.10.3.4 allows: the invocation is, and the tokens that rejoin the scan
carry its hideset besides their own. -/
structure Blocked (a : Arena) (r : Replacement) : Prop where
  invokes : Invokes pp a r.tok r.name r.close r.inv
  carried : List.Forall₂ (Carries a r.inv) r.own r.result

variable {pp}

/-- An invocation stays allowed when the arena grows. -/
lemma Invokes.extend {a b : Arena} {tok : Tok} {name : Spelling} {close : Option ℕ} {inv : ℕ}
    (h : Invokes pp a tok name close inv) (ha : a.Valid) (hb : b.Valid) (hext : Extends a b) :
    Invokes pp b tok name close inv where
  ident := h.ident
  named := h.named
  free := by
    rw [Bool.eq_false_iff, ne_eq, hext.contains_iff ha hb h.tokBound, h.free]
    exact Bool.false_ne_true
  hides other := by
    rw [hext.contains_iff ha hb h.invBound, hext.contains_iff ha hb h.tokBound, h.hides other]
    refine or_congr Iff.rfl (and_congr_right fun _ => forall₂_congr fun c hc => ?_)
    rw [hext.contains_iff ha hb (h.closeBound c hc)]
  tokBound := h.tokBound.trans hext.spans.length_le
  closeBound c hc := (h.closeBound c hc).trans hext.spans.length_le
  invBound := h.invBound.trans hext.spans.length_le

lemma Blocked.extend {a b : Arena} {r : Replacement} (h : Blocked pp a r) (ha : a.Valid)
    (hb : b.Valid) (hext : Extends a b) : Blocked pp b r where
  invokes := h.invokes.extend ha hb hext
  carried := h.carried.imp fun _ _ ht => ht.extend ha hb hext h.invokes.invBound

/-! ## The state -/

/-- The tables define no name outside `U`. -/
def Covers (pp : Macros) (U : Finset Spelling) : Prop :=
  ∀ name, name ∉ U → pp.macros.lookup name = none ∧ pp.fnMacros.lookup name = none ∧
    pp.pushedMacros.lookup name = none

/-- A shadow defines no name outside `U`. -/
def Shadow.Within (U : Finset Spelling) (s : Shadow) : Prop :=
  s.name ∉ U → s.defn = .undefined ∧ ∀ d ∈ s.pushed, d = .undefined

variable (pp)

/-- What the expansion keeps of its state. -/
structure Good (U : Finset Spelling) (ex : Exp) : Prop where
  valid : ex.arena.Valid
  shadows : ∀ s ∈ ex.shadows, s.Within U
  log : ∀ r ∈ ex.log, Blocked pp ex.arena r

/-- `ex'` is a good state that the expansion can reach from `ex`, with more replacements made. -/
structure Grown (U : Finset Spelling) (ex ex' : Exp) : Prop where
  extend : Extends ex.arena ex'.arena
  made : ex.log <+: ex'.log
  good : Good pp U ex'

variable {pp} {U : Finset Spelling} {ex ex' ex'' : Exp}

lemma Good.grown (h : Good pp U ex) : Grown pp U ex ex :=
  ⟨Extends.refl _, List.prefix_rfl, h⟩

lemma Grown.trans (h : Grown pp U ex ex') (h' : Grown pp U ex' ex'') : Grown pp U ex ex'' :=
  ⟨h.extend.trans h'.extend, h.made.trans h'.made, h'.good⟩

lemma Grown.congr (h : Grown pp U ex ex') (harena : ex''.arena = ex'.arena)
    (hshadows : ex''.shadows = ex'.shadows) (hlog : ex''.log = ex'.log) :
    Grown pp U ex ex'' where
  extend := harena ▸ h.extend
  made := hlog ▸ h.made
  good := ⟨harena ▸ h.good.valid, hshadows ▸ h.good.shadows, by
    rw [harena, hlog]
    exact h.good.log⟩

lemma Good.arena (h : Good pp U ex) {b : Arena} (hb : b.Valid) (hext : Extends ex.arena b) :
    Grown pp U ex { ex with arena := b } where
  extend := hext
  made := List.prefix_rfl
  good := ⟨hb, h.shadows, fun r hr => (h.log r hr).extend h.valid hb hext⟩

end Preprocessor

end Badc
