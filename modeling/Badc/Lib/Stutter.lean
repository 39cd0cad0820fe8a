import Mathlib.Order.WellFounded
import Mathlib.Data.Option.Basic
import Mathlib.Data.List.Basic

/-!
# Stuttering simulation

A deterministic system steps, stops with a result or gets stuck; a step may show an event.  Two
systems have the same runs from two states when they show the same events, stop with the same
results and get stuck after the same events.

`StutterSim.sameRuns` gives this from a relation in which one side may take silent steps the
other side does without, as long as an index goes down with each of them.
-/

namespace Badc

/-- What a system does in a state. -/
inductive Move (σ ε ρ : Type*)
  | step (event : Option ε) (next : σ)
  | stop (result : ρ)
  | stuck

section

variable {σ σ' σ'' ε ρ : Type*}

/-- `Shows sys s tr t`: from `s` the system gets to `t`, and shows `tr` on the way. -/
inductive Shows (sys : σ → Move σ ε ρ) : σ → List ε → σ → Prop
  | refl (s : σ) : Shows sys s [] s
  | step {s s' t : σ} {e : Option ε} {tr : List ε} :
      sys s = .step e s' → Shows sys s' tr t → Shows sys s (e.toList ++ tr) t

lemma Shows.trans {sys : σ → Move σ ε ρ} {s t u : σ} {tr tr' : List ε} (h : Shows sys s tr t)
    (h' : Shows sys t tr' u) : Shows sys s (tr ++ tr') u := by
  induction h with
  | refl s => exact h'
  | step hs _ ih =>
    rw [List.append_assoc]
    exact .step hs (ih h')

lemma Shows.silent {sys : σ → Move σ ε ρ} {s s' t : σ} {tr : List ε}
    (hs : sys s = .step none s') (h : Shows sys s' tr t) : Shows sys s tr t :=
  .step hs h

/-- A run stops with one result at most. -/
lemma Shows.stop_unique {sys : σ → Move σ ε ρ} {s t t' : σ} {tr tr' : List ε} {r r' : ρ}
    (h : Shows sys s tr t) (hr : sys t = .stop r) (h' : Shows sys s tr' t')
    (hr' : sys t' = .stop r') : r = r' := by
  induction h generalizing tr' with
  | refl s =>
    cases h' with
    | refl _ =>
      rw [hr] at hr'
      injection hr'
    | step hs _ =>
      rw [hr] at hs
      cases hs
  | step hs _ ih =>
    cases h' with
    | refl _ =>
      rw [hr'] at hs
      cases hs
    | step hs' h' =>
      rw [hs] at hs'
      injection hs' with _ hnext
      subst hnext
      exact ih hr h'

/-- Two systems run alike from two states. -/
structure SameRuns (sys : σ → Move σ ε ρ) (sys' : σ' → Move σ' ε ρ) (s : σ) (s' : σ') :
    Prop where
  shows_iff : ∀ tr, (∃ t, Shows sys s tr t) ↔ ∃ t, Shows sys' s' tr t
  stops_iff : ∀ tr r, (∃ t, Shows sys s tr t ∧ sys t = .stop r) ↔
    ∃ t, Shows sys' s' tr t ∧ sys' t = .stop r
  stuck_iff : ∀ tr, (∃ t, Shows sys s tr t ∧ sys t = .stuck) ↔
    ∃ t, Shows sys' s' tr t ∧ sys' t = .stuck

lemma SameRuns.symm {sys : σ → Move σ ε ρ} {sys' : σ' → Move σ' ε ρ} {s : σ} {s' : σ'}
    (h : SameRuns sys sys' s s') : SameRuns sys' sys s' s :=
  ⟨fun tr => (h.shows_iff tr).symm, fun tr r => (h.stops_iff tr r).symm,
    fun tr => (h.stuck_iff tr).symm⟩

lemma SameRuns.trans {sys : σ → Move σ ε ρ} {sys' : σ' → Move σ' ε ρ}
    {sys'' : σ'' → Move σ'' ε ρ} {s : σ} {s' : σ'} {s'' : σ''} (h : SameRuns sys sys' s s')
    (h' : SameRuns sys' sys'' s' s'') : SameRuns sys sys'' s s'' :=
  ⟨fun tr => (h.shows_iff tr).trans (h'.shows_iff tr),
    fun tr r => (h.stops_iff tr r).trans (h'.stops_iff tr r),
    fun tr => (h.stuck_iff tr).trans (h'.stuck_iff tr)⟩

/-- `R i s s'`: the second system stands in `s'` when the first stands in `s`, and the first may
take silent steps on its own while `i` goes down. -/
structure StutterSim {ι : Type*} [LT ι] (sys : σ → Move σ ε ρ) (sys' : σ' → Move σ' ε ρ)
    (R : ι → σ → σ' → Prop) : Prop where
  step : ∀ i s s' e t, R i s s' → sys s = .step e t →
    (∃ j t', sys' s' = .step e t' ∧ R j t t') ∨ (e = none ∧ ∃ j < i, R j t s')
  stop : ∀ i s s' r, R i s s' → sys s = .stop r → sys' s' = .stop r
  stuck : ∀ i s s', R i s s' → sys s = .stuck → sys' s' = .stuck

namespace StutterSim

variable {ι : Type*} [LT ι] {sys : σ → Move σ ε ρ} {sys' : σ' → Move σ' ε ρ}
  {R : ι → σ → σ' → Prop}

lemma shows (h : StutterSim sys sys' R) {i : ι} {s t : σ} {s' : σ'} {tr : List ε}
    (hr : R i s s') (hrun : Shows sys s tr t) : ∃ j t', Shows sys' s' tr t' ∧ R j t t' := by
  induction hrun generalizing i s' with
  | refl s => exact ⟨i, s', .refl s', hr⟩
  | step hs _ ih =>
    rcases h.step i _ s' _ _ hr hs with ⟨j, t', ht', hj⟩ | ⟨rfl, j, -, hj⟩
    · obtain ⟨k, u', hu', hk⟩ := ih hj
      exact ⟨k, u', .step ht' hu', hk⟩
    · exact ih hj

variable [WellFoundedLT ι]

/-- After silent steps the first system makes the move the second one is about to make. -/
lemma catch_up (h : StutterSim sys sys' R) {i : ι} {s : σ} {s' : σ'} (hr : R i s s') :
    ∃ j t, Shows sys s [] t ∧ R j t s' ∧ match sys' s' with
      | .step e u' => ∃ k u, sys t = .step e u ∧ R k u u'
      | .stop r => sys t = .stop r
      | .stuck => sys t = .stuck := by
  induction i using WellFoundedLT.induction generalizing s with
  | ind i ih =>
    cases hs : sys s with
    | step e t =>
      rcases h.step i s s' e t hr hs with ⟨j, t', ht', hj⟩ | ⟨rfl, j, hji, hj⟩
      · refine ⟨i, s, .refl s, hr, ?_⟩
        rw [ht']
        exact ⟨j, t, hs, hj⟩
      · obtain ⟨k, u, hu, hk, hmove⟩ := ih j hji hj
        exact ⟨k, u, .silent hs hu, hk, hmove⟩
    | stop r =>
      refine ⟨i, s, .refl s, hr, ?_⟩
      rw [h.stop i s s' r hr hs]
      exact hs
    | stuck =>
      refine ⟨i, s, .refl s, hr, ?_⟩
      rw [h.stuck i s s' hr hs]
      exact hs

/-- The first system follows a run of the second. -/
lemma shows_back (h : StutterSim sys sys' R) {i : ι} {s : σ} {s' t' : σ'} {tr : List ε}
    (hr : R i s s') (hrun : Shows sys' s' tr t') : ∃ j t, Shows sys s tr t ∧ R j t t' := by
  induction hrun generalizing i s with
  | refl s' => exact ⟨i, s, .refl s, hr⟩
  | step hs' _ ih =>
    obtain ⟨j, t, ht, -, hmove⟩ := h.catch_up hr
    rw [hs'] at hmove
    obtain ⟨k, u, hu, hk⟩ := hmove
    obtain ⟨l, v, hv, hl⟩ := ih hk
    exact ⟨l, v, ht.trans (.step hu hv), hl⟩

/-- Related states run alike. -/
theorem sameRuns (h : StutterSim sys sys' R) {i : ι} {s : σ} {s' : σ'} (hr : R i s s') :
    SameRuns sys sys' s s' where
  shows_iff tr := by
    constructor
    · rintro ⟨t, ht⟩
      obtain ⟨-, t', ht', -⟩ := h.shows hr ht
      exact ⟨t', ht'⟩
    · rintro ⟨t', ht'⟩
      obtain ⟨-, t, ht, -⟩ := h.shows_back hr ht'
      exact ⟨t, ht⟩
  stops_iff tr r := by
    constructor
    · rintro ⟨t, ht, hstop⟩
      obtain ⟨j, t', ht', hj⟩ := h.shows hr ht
      exact ⟨t', ht', h.stop j t t' r hj hstop⟩
    · rintro ⟨t', ht', hstop⟩
      obtain ⟨j, t, ht, hj⟩ := h.shows_back hr ht'
      obtain ⟨-, u, hu, -, hmove⟩ := h.catch_up hj
      rw [hstop] at hmove
      exact ⟨u, by simpa using ht.trans hu, hmove⟩
  stuck_iff tr := by
    constructor
    · rintro ⟨t, ht, hstuck⟩
      obtain ⟨j, t', ht', hj⟩ := h.shows hr ht
      exact ⟨t', ht', h.stuck j t t' hj hstuck⟩
    · rintro ⟨t', ht', hstuck⟩
      obtain ⟨j, t, ht, hj⟩ := h.shows_back hr ht'
      obtain ⟨-, u, hu, -, hmove⟩ := h.catch_up hj
      rw [hstuck] at hmove
      exact ⟨u, by simpa using ht.trans hu, hmove⟩

end StutterSim

end

end Badc
