import Mathlib.Data.List.Forall2

/-!
# Fallible computations

How the parts of a computation that may fail decide its outcome: a sequence has a value where its first
part has one and its second part has one after it, and it fails where one of the two does.
-/

namespace Badc

universe u v

variable {ε : Type u} {α β : Type v} {x : Except ε α} {f : α → Except ε β} {g : α → β} {a : α} {b : β} {e : ε}

/-- A sequence has a value where both parts have one. -/
theorem bind_eq_ok : x >>= f = .ok b ↔ ∃ a, x = .ok a ∧ f a = .ok b := by
  cases x with
  | error e =>
    constructor
    · intro h
      cases h
    · rintro ⟨_, h, _⟩
      cases h
  | ok a =>
    constructor
    · exact fun h => ⟨a, rfl, h⟩
    · rintro ⟨_, h, h'⟩
      cases h
      exact h'

/-- A sequence fails where its first part does, or its second part after it. -/
theorem bind_eq_error : x >>= f = .error e ↔ x = .error e ∨ ∃ a, x = .ok a ∧ f a = .error e := by
  cases x with
  | error e' =>
    constructor
    · intro h
      exact .inl (congrArg _ (Except.error.inj h))
    · rintro (h | ⟨_, h, _⟩)
      · cases h
        rfl
      · cases h
  | ok a =>
    constructor
    · exact fun h => .inr ⟨a, rfl, h⟩
    · rintro (h | ⟨_, h, h'⟩)
      · cases h
      · cases h
        exact h'

/-- A result is mapped where there is one. -/
theorem map_eq_ok : g <$> x = .ok b ↔ ∃ a, x = .ok a ∧ g a = b := by
  cases x with
  | error e =>
    constructor
    · intro h
      cases h
    · rintro ⟨_, h, _⟩
      cases h
  | ok a =>
    constructor
    · exact fun h => ⟨a, rfl, Except.ok.inj h⟩
    · rintro ⟨_, h, rfl⟩
      cases h
      rfl

/-- Mapping the result keeps a failure. -/
theorem map_eq_error : g <$> x = .error e ↔ x = .error e := by
  cases x with
  | error e' => exact ⟨fun h => congrArg _ (Except.error.inj h), fun h => congrArg _ (Except.error.inj h)⟩
  | ok a =>
    constructor
    · intro h
      cases h
    · intro h
      cases h

/-- A list is computed where each of its parts is. -/
theorem mapM_eq_ok {l : List β} {r : List α} {h : β → Except ε α} :
    l.mapM h = .ok r ↔ List.Forall₂ (fun b a => h b = .ok a) l r := by
  induction l generalizing r with
  | nil =>
    rw [List.mapM_nil, List.forall₂_nil_left_iff]
    exact ⟨fun h => (Except.ok.inj h).symm, fun h => congrArg _ h.symm⟩
  | cons b l ih =>
    rw [List.mapM_cons, bind_eq_ok, List.forall₂_cons_left_iff]
    constructor
    · rintro ⟨a, ha, hrest⟩
      obtain ⟨r', hr', heq⟩ := bind_eq_ok.mp hrest
      exact ⟨a, r', ha, ih.mp hr', (Except.ok.inj heq).symm⟩
    · rintro ⟨a, r', ha, hr', rfl⟩
      exact ⟨a, ha, bind_eq_ok.mpr ⟨r', ih.mpr hr', rfl⟩⟩

/-- A list whose parts have results has one. -/
theorem exists_mapM_eq_ok {l : List β} {h : β → Except ε α} (hl : ∀ b ∈ l, ∃ a, h b = .ok a) :
    ∃ r, l.mapM h = .ok r := by
  induction l with
  | nil => exact ⟨[], rfl⟩
  | cons b l ih =>
    obtain ⟨a, ha⟩ := hl b (.head _)
    obtain ⟨r, hr⟩ := ih fun c hc => hl c (.tail _ hc)
    exact ⟨a :: r, mapM_eq_ok.mpr (.cons ha (mapM_eq_ok.mp hr))⟩

/-- Each part of a list has its result in it. -/
theorem exists_of_mapM_left {l : List β} {r : List α} {h : β → Except ε α} (hl : l.mapM h = .ok r)
    (hb : b ∈ l) : ∃ a ∈ r, h b = .ok a := by
  induction mapM_eq_ok.mp hl with
  | nil => cases hb
  | cons hba hrest ih =>
    cases hb with
    | head => exact ⟨_, (.head _), hba⟩
    | tail _ hb =>
      obtain ⟨a, ha, hab⟩ := ih (mapM_eq_ok.mpr hrest) hb
      exact ⟨a, List.mem_cons_of_mem _ ha, hab⟩

/-- Each result of a list is of a part of it. -/
theorem exists_of_mapM_right {l : List β} {r : List α} {h : β → Except ε α} (hl : l.mapM h = .ok r)
    (ha : a ∈ r) : ∃ b ∈ l, h b = .ok a := by
  induction mapM_eq_ok.mp hl with
  | nil => cases ha
  | cons hba hrest ih =>
    cases ha with
    | head => exact ⟨_, (.head _), hba⟩
    | tail _ ha =>
      obtain ⟨b, hb, hab⟩ := ih (mapM_eq_ok.mpr hrest) ha
      exact ⟨b, List.mem_cons_of_mem _ hb, hab⟩

/-! ### Without the errors -/

/-- There is a result where the computation has one. -/
theorem toOption_eq_some : x.toOption = some a ↔ x = .ok a := by
  cases x with
  | error e => exact ⟨fun h => (nomatch h), fun h => (nomatch h)⟩
  | ok a' => exact ⟨fun h => congrArg _ (Option.some.inj h), fun h => congrArg _ (Except.ok.inj h)⟩

/-- Computations that have the same results. -/
theorem toOption_congr {y : Except ε α} (h : ∀ a, x = .ok a ↔ y = .ok a) : x.toOption = y.toOption :=
  Option.ext fun a => by rw [toOption_eq_some, toOption_eq_some, h]

end Badc
