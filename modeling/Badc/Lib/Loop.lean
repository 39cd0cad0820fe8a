import Mathlib.Tactic

/-!
# Bounded loops

A `while` loop of an imperative program is modelled by a partial step function
`step : σ → Option σ`, where `none` says that the loop condition fails, and a
number of rounds it may take.  `whileSome` runs the loop, `Rounds` is the relation
"so many rounds lead from here to there", and the two main rules are
`whileSome_invariant` (what every round preserves holds at the end) and
`whileSome_done` (a measure that every round lowers bounds the rounds, so the loop
condition fails at the end).
-/

namespace Badc

variable {σ : Type*}

/-- Run `step` until it declines, for at most `fuel` rounds. -/
def whileSome (step : σ → Option σ) : ℕ → σ → σ
  | 0, s => s
  | fuel + 1, s =>
    match step s with
    | none => s
    | some s' => whileSome step fuel s'

@[simp] lemma whileSome_zero (step : σ → Option σ) (s : σ) : whileSome step 0 s = s := rfl

lemma whileSome_of_none {step : σ → Option σ} {s : σ} (h : step s = none) (fuel : ℕ) :
    whileSome step fuel s = s := by
  cases fuel with
  | zero => rfl
  | succ fuel => simp [whileSome, h]

lemma whileSome_of_some {step : σ → Option σ} {s s' : σ} (h : step s = some s') (fuel : ℕ) :
    whileSome step (fuel + 1) s = whileSome step fuel s' := by
  simp [whileSome, h]

/-- One more round goes on from where the loop is. -/
lemma whileSome_succ {step : σ → Option σ} (fuel : ℕ) (s : σ) : whileSome step (fuel + 1) s =
    (step (whileSome step fuel s)).getD (whileSome step fuel s) := by
  induction fuel generalizing s with
  | zero =>
    unfold whileSome
    cases step s <;> rfl
  | succ fuel ih =>
    cases h : step s with
    | none => simp [whileSome_of_none h, h]
    | some s' => rw [whileSome_of_some h, whileSome_of_some h, ih]

/-- What every round preserves holds at the end of the loop. -/
theorem whileSome_invariant {step : σ → Option σ} (I : σ → Prop)
    (hstep : ∀ s s', I s → step s = some s' → I s') (fuel : ℕ) {s : σ} (hs : I s) :
    I (whileSome step fuel s) := by
  induction fuel generalizing s with
  | zero => exact hs
  | succ fuel ih =>
    cases h : step s with
    | none => rwa [whileSome_of_none h]
    | some s' =>
      rw [whileSome_of_some h]
      exact ih (hstep s s' hs h)

/-- A measure that every round lowers, under an invariant, bounds the rounds: with that
much fuel the loop condition fails at the end. -/
theorem whileSome_done {step : σ → Option σ} (I : σ → Prop) (μ : σ → ℕ)
    (hstep : ∀ s s', I s → step s = some s' → I s' ∧ μ s' < μ s) {fuel : ℕ} {s : σ}
    (hs : I s) (hfuel : μ s ≤ fuel) : step (whileSome step fuel s) = none := by
  induction fuel generalizing s with
  | zero =>
    cases h : step s with
    | none => exact h
    | some s' =>
      have := (hstep s s' hs h).2
      omega
  | succ fuel ih =>
    cases h : step s with
    | none => rwa [whileSome_of_none h]
    | some s' =>
      rw [whileSome_of_some h]
      obtain ⟨hI, hμ⟩ := hstep s s' hs h
      exact ih hI (by omega)

/-- `Rounds step k s s'`: exactly `k` rounds of the loop lead from `s` to `s'`. -/
inductive Rounds (step : σ → Option σ) : ℕ → σ → σ → Prop
  | refl (s : σ) : Rounds step 0 s s
  | head {k : ℕ} {s s' s'' : σ} : step s = some s' → Rounds step k s' s'' →
      Rounds step (k + 1) s s''

lemma Rounds.trans {step : σ → Option σ} {k l : ℕ} {s s' s'' : σ} (h : Rounds step k s s')
    (h' : Rounds step l s' s'') : Rounds step (k + l) s s'' := by
  induction h with
  | refl s => simpa using h'
  | @head k s s₁ s₂ hs _ ih =>
    have := Rounds.head hs (ih h')
    rwa [show k + 1 + l = k + l + 1 by omega]

lemma Rounds.one {step : σ → Option σ} {s s' : σ} (h : step s = some s') :
    Rounds step 1 s s' :=
  Rounds.head h (Rounds.refl s')

lemma Rounds.whileSome_eq {step : σ → Option σ} {k : ℕ} {s s' : σ} (h : Rounds step k s s')
    (hs' : step s' = none) {fuel : ℕ} (hfuel : k ≤ fuel) : whileSome step fuel s = s' := by
  induction h generalizing fuel with
  | refl s => exact whileSome_of_none hs' fuel
  | @head k s s₁ s₂ hs _ ih =>
    obtain ⟨fuel, rfl⟩ := Nat.exists_eq_add_of_le' (show 1 ≤ fuel by omega)
    rw [whileSome_of_some hs]
    exact ih hs' (by omega)

end Badc
