import Mathlib.Data.Nat.Basic
import Mathlib.Order.WellFounded
import Mathlib.Control.Basic

/-!
# Computations on fuel

A loop that need not end is modelled by a computation that takes fuel and fails when it runs out.
`Settles` says that such a computation ends: from some fuel on it succeeds, always with the same
result, and that result has a property.  Sequencing keeps it (`Settles.bind`), and a loop has it
where every round has it and lowers a well-founded measure (`Settles.loop`).  The measure may be a
ghost: it is any value a round can be given, not a function of the state.
-/

namespace Badc

universe u v

variable {σ α β δ : Type u} {γ : Type v}

/-- From some fuel on the computation gives one result, and that result has the property. -/
def Settles (m : ℕ → StateT σ Option α) (s : σ) (Q : α → σ → Prop) : Prop :=
  ∃ (N : ℕ) (a : α) (s' : σ), (∀ F, N ≤ F → m F s = some (a, s')) ∧ Q a s'

lemma settles_of_eq {m : ℕ → StateT σ Option α} {s s' : σ} {a : α} {Q : α → σ → Prop}
    (h : ∀ F, m F s = some (a, s')) (hQ : Q a s') : Settles m s Q :=
  ⟨0, a, s', fun F _ => h F, hQ⟩

lemma settles_pure {s : σ} {a : α} {Q : α → σ → Prop} (hQ : Q a s) :
    Settles (fun _ => pure a) s Q :=
  settles_of_eq (fun _ => rfl) hQ

lemma Settles.mono {m : ℕ → StateT σ Option α} {s : σ} {Q R : α → σ → Prop} (h : Settles m s Q)
    (hQR : ∀ a s', Q a s' → R a s') : Settles m s R := by
  obtain ⟨N, a, s', hm, hQ⟩ := h
  exact ⟨N, a, s', hm, hQR a s' hQ⟩

/-- The first computation settles, and the second does from where the first ended. -/
lemma Settles.bind {m : ℕ → StateT σ Option α} {f : ℕ → α → StateT σ Option β} {s : σ}
    {Q : α → σ → Prop} {R : β → σ → Prop} (h : Settles m s Q)
    (hf : ∀ a s', Q a s' → Settles (fun F => f F a) s' R) :
    Settles (fun F => m F >>= f F) s R := by
  obtain ⟨N, a, s', hm, hQ⟩ := h
  obtain ⟨N', b, s'', hf, hR⟩ := hf a s' hQ
  refine ⟨max N N', b, s'', fun F hF => ?_, hR⟩
  change (m F s).bind (fun p => f F p.1 p.2) = some (b, s'')
  rw [hm F (le_trans (le_max_left _ _) hF)]
  exact hf F (le_trans (le_max_right _ _) hF)

lemma Settles.assoc {m : ℕ → StateT σ Option α} {f : ℕ → α → StateT σ Option β}
    {g : ℕ → β → StateT σ Option δ} {s : σ} {Q : δ → σ → Prop}
    (h : Settles (fun F => (m F >>= f F) >>= g F) s Q) :
    Settles (fun F => m F >>= fun a => f F a >>= g F) s Q := by
  simpa only [bind_assoc] using h

lemma Settles.map {m : ℕ → StateT σ Option α} {f : α → β} {s : σ} {R : β → σ → Prop}
    (h : Settles m s fun a s' => R (f a) s') : Settles (fun F => f <$> m F) s R := by
  obtain ⟨N, a, s', hm, hR⟩ := h
  refine ⟨N, f a, s', fun F hF => ?_, hR⟩
  change (m F s).bind (fun p => some (f p.1, p.2)) = some (f a, s')
  rw [hm F hF]
  rfl

/-- **A loop ends** where every round settles, and either ends it or lowers the measure.  `run F G`
takes `G` rounds, each of which may use the fuel `F`. -/
theorem Settles.loop {next : ℕ → β → StateT σ Option (β ⊕ α)} {run : ℕ → ℕ → β → StateT σ Option α}
    (hrun : ∀ F G b, run F (G + 1) b = next F b >>= Sum.elim (run F G) pure)
    {r : γ → γ → Prop} (hr : WellFounded r) (I : γ → β → σ → Prop) {Q : α → σ → Prop}
    (hnext : ∀ g b s, I g b s → Settles (fun F => next F b) s
      (Sum.elim (fun b' s' => ∃ g', r g' g ∧ I g' b' s') Q)) :
    ∀ g b s, I g b s → Settles (fun F => run F F b) s Q := by
  suffices h : ∀ g b s, I g b s → ∃ (N : ℕ) (a : α) (s' : σ),
      (∀ F, N ≤ F → ∀ G, N ≤ G → run F G b s = some (a, s')) ∧ Q a s' by
    intro g b s hI
    obtain ⟨N, a, s', hrun, hQ⟩ := h g b s hI
    exact ⟨N, a, s', fun F hF => hrun F hF F hF, hQ⟩
  intro g
  -- induction on the measure the next round lowers
  induction g using hr.induction with
  | _ g ih =>
    intro b s hI
    obtain ⟨N, c, s₁, hround, hc⟩ := hnext g b s hI
    have hbind : ∀ F, N ≤ F → ∀ G, run F (G + 1) b s = Sum.elim (run F G) pure c s₁ := by
      intro F hF G
      rw [hrun]
      change (next F b s).bind (fun p => Sum.elim (run F G) pure p.1 p.2) = _
      rw [show next F b s = some (c, s₁) from hround F hF]
      rfl
    cases c with
    | inl b' =>
      obtain ⟨g', hlower, hI'⟩ := hc
      obtain ⟨N', a, s', hrest, hQ⟩ := ih g' hlower b' s₁ hI'
      refine ⟨max N N' + 1, a, s', fun F hF G hG => ?_, hQ⟩
      obtain ⟨G, rfl⟩ := Nat.exists_eq_add_of_le' (show 1 ≤ G by omega)
      rw [hbind F (by omega) G]
      exact hrest F (by omega) G (by omega)
    | inr a =>
      refine ⟨N + 1, a, s₁, fun F hF G hG => ?_, hc⟩
      obtain ⟨G, rfl⟩ := Nat.exists_eq_add_of_le' (show 1 ≤ G by omega)
      rw [hbind F (by omega) G]
      rfl

end Badc
