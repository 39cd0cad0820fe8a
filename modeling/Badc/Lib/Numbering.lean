import Mathlib.Tactic

/-!
# Numbering by keys

Values `0, 1, …` are numbered in order: each has a key, formed from its own shape and the numbers
its operands have at that time, and takes the number of the first value with the same key, or its
own.  A value without a key keeps its own number.

The keys are abstract: `key c x` is the key of `x` when the numbers are `c`, and renaming numbers
acts on keys (`Keyed`).  The result is stated with the final numbers (`inv_build`): values of one
number have one key (`Inv.key_eq`), and different ones have a key at all (`Inv.key_isSome`).
-/

namespace Badc

/-- Keys over numbers: `map g` renames the numbers in a key. -/
structure Keyed (K : Type) where
  key : (ℕ → ℕ) → ℕ → Option K
  map : (ℕ → ℕ) → K → K
  map_map : ∀ g h k, map g (map h k) = map (g ∘ h) k
  key_comp : ∀ g c x, key (g ∘ c) x = (key c x).map (map g)

/-- The number of each value, and the first value of each key. -/
structure Numbers (K : Type) where
  canon : ℕ → ℕ
  first : List (K × ℕ)

namespace Numbers

variable {K : Type} [DecidableEq K]

/-- Number one value. -/
def assign (key : (ℕ → ℕ) → ℕ → Option K) (s : Numbers K) (i : ℕ) : Numbers K :=
  match key s.canon i with
  | none => s
  | some k =>
    match s.first.lookup k with
    | some first => { s with canon := Function.update s.canon i first }
    | none => { s with first := (k, i) :: s.first }

/-- Number the values below `n`. -/
def build (key : (ℕ → ℕ) → ℕ → Option K) (n : ℕ) : Numbers K :=
  (List.range n).foldl (assign key) ⟨id, []⟩

/-- What numbering keeps, with the values below `i` numbered. -/
structure Inv (E : Keyed K) (i : ℕ) (s : Numbers K) : Prop where
  fresh : ∀ x, i ≤ x → s.canon x = x
  idem : ∀ x, s.canon (s.canon x) = s.canon x
  first : ∀ k e, s.first.lookup k = some e →
    e < i ∧ s.canon e = e ∧ E.key s.canon e = some (E.map s.canon k)
  other : ∀ x, s.canon x ≠ x → ∃ k, s.first.lookup k = some (s.canon x) ∧
    E.key s.canon x = some (E.map s.canon k)

variable {E : Keyed K} {i : ℕ} {s : Numbers K}

/-- Renumbering one fresh value to a first value keeps the invariant. -/
lemma Inv.update (h : Inv E i s) {k : K} {e : ℕ} (hk : E.key s.canon i = some k)
    (he : s.first.lookup k = some e) :
    Inv E (i + 1) { s with canon := Function.update s.canon i e } := by
  obtain ⟨hei, hee, -⟩ := h.first k e he
  -- Only `i` itself had the number `i`.
  have hother : ∀ x, x ≠ i → s.canon x ≠ i := by
    intro x hx hxi
    obtain ⟨k', hk', -⟩ := h.other x (fun hxx => hx (hxx.symm.trans hxi))
    have := (h.first k' _ hk').1
    omega
  have hc : ∀ x, x ≠ i → Function.update s.canon i e x = s.canon x := fun x hx =>
    Function.update_of_ne hx e s.canon
  have hcomp : Function.update s.canon i e ∘ s.canon = Function.update s.canon i e := by
    funext x
    by_cases hx : x = i
    · simp [hx, h.fresh i le_rfl]
    · simp only [Function.comp_apply]
      rw [hc _ (hother x hx), h.idem, hc x hx]
  -- Keys in the new numbers are the old keys, renamed.
  have hkey : ∀ x k, E.key s.canon x = some (E.map s.canon k) →
      E.key (Function.update s.canon i e) x = some (E.map (Function.update s.canon i e) k) := by
    intro x k hx
    rw [← hcomp, E.key_comp, hx, Option.map_some, E.map_map]
  have hself : E.key s.canon i = some (E.map s.canon k) := by
    have hid : s.canon ∘ s.canon = s.canon := funext h.idem
    have := E.key_comp s.canon s.canon i
    rwa [hid, hk, Option.map_some, ← hk] at this
  refine ⟨?_, ?_, ?_, ?_⟩
  · intro x hx
    dsimp only
    rw [hc x (by omega)]
    exact h.fresh x (by omega)
  · intro x
    dsimp only
    by_cases hx : x = i
    · subst hx
      rw [Function.update_self, hc e (by omega), hee]
    · rw [hc x hx, hc _ (hother x hx), h.idem]
  · intro k' e' hk'
    obtain ⟨h1, h2, h3⟩ := h.first k' e' hk'
    refine ⟨by omega, ?_, hkey e' k' h3⟩
    dsimp only
    rw [hc e' (by omega), h2]
  · intro x hx
    dsimp only at hx ⊢
    by_cases hxi : x = i
    · subst hxi
      rw [Function.update_self]
      exact ⟨k, he, hkey x k hself⟩
    · rw [hc x hxi] at hx ⊢
      obtain ⟨k', hk', hk''⟩ := h.other x hx
      exact ⟨k', hk', hkey x k' hk''⟩

/-- Recording a new key keeps the invariant. -/
lemma Inv.insert (h : Inv E i s) {k : K} (hk : E.key s.canon i = some k)
    (hnone : s.first.lookup k = none) : Inv E (i + 1) { s with first := (k, i) :: s.first } := by
  have hlookup : ∀ k' e', ((k, i) :: s.first).lookup k' = some e' →
      k' = k ∧ e' = i ∨ s.first.lookup k' = some e' := by
    intro k' e' h'
    by_cases hkk : k' = k
    · simp only [hkk, List.lookup_cons_self, Option.some.injEq] at h'
      exact Or.inl ⟨hkk, h'.symm⟩
    · right
      rwa [List.lookup_cons, show (k' == k) = false by simpa using hkk] at h'
  refine ⟨fun x hx => h.fresh x (by omega), h.idem, ?_, ?_⟩
  · intro k' e' h'
    rcases hlookup k' e' h' with ⟨rfl, rfl⟩ | h'
    · refine ⟨by omega, h.fresh e' le_rfl, ?_⟩
      have hid : s.canon ∘ s.canon = s.canon := funext h.idem
      have := E.key_comp s.canon s.canon e'
      rwa [hid, hk, Option.map_some, ← hk] at this
    · obtain ⟨h1, h2, h3⟩ := h.first k' e' h'
      exact ⟨by omega, h2, h3⟩
  · intro x hx
    obtain ⟨k', hk', hk''⟩ := h.other x hx
    refine ⟨k', ?_, hk''⟩
    have hne : k' ≠ k := by
      rintro rfl
      rw [hnone] at hk'
      cases hk'
    dsimp only
    rw [List.lookup_cons, show (k' == k) = false by simpa using hne]
    exact hk'

/-- Numbering one value keeps the invariant. -/
lemma Inv.assign (h : Inv E i s) : Inv E (i + 1) (s.assign E.key i) := by
  unfold Numbers.assign
  split
  · exact ⟨fun x hx => h.fresh x (by omega), h.idem, fun k e he =>
      ⟨by have := (h.first k e he).1; omega, (h.first k e he).2⟩, h.other⟩
  · rename_i k hk
    split
    · rename_i e he
      exact h.update hk he
    · rename_i hnone
      exact h.insert hk hnone

/-- The finished numbering keeps the invariant. -/
theorem inv_build (E : Keyed K) (n : ℕ) : Inv E n (build E.key n) := by
  induction n with
  | zero =>
    refine ⟨fun _ _ => rfl, fun _ => rfl, fun k e h => ?_, fun x hx => absurd rfl hx⟩
    cases h
  | succ n ih =>
    rw [build, List.range_succ, List.foldl_append]
    exact ih.assign

lemma Inv.key_canon (h : Inv E i s) (x : ℕ) : E.key s.canon (s.canon x) = E.key s.canon x := by
  by_cases hx : s.canon x = x
  · rw [hx]
  · obtain ⟨k, hk, hkey⟩ := h.other x hx
    rw [hkey, (h.first k _ hk).2.2]

lemma Inv.key_eq (h : Inv E i s) {x y : ℕ} (hxy : s.canon x = s.canon y) :
    E.key s.canon x = E.key s.canon y := by
  rw [← h.key_canon x, hxy, h.key_canon]

/-- Different values of one number have a key. -/
lemma Inv.key_isSome (h : Inv E i s) {x y : ℕ} (hxy : s.canon x = s.canon y) (hne : x ≠ y) :
    (E.key s.canon x).isSome := by
  by_cases hx : s.canon x = x
  · have hy : s.canon y ≠ y := fun hy => hne (by rw [← hx, hxy, hy])
    obtain ⟨k, -, hkey⟩ := h.other y hy
    rw [h.key_eq hxy, hkey]
    rfl
  · obtain ⟨k, -, hkey⟩ := h.other x hx
    rw [hkey]
    rfl

end Numbers

end Badc
