import Mathlib.Tactic

/-!
# Parallel moves

A parallel move reads all its sources before it writes any destination.  `Pending ms scratch σ fin`
says that writing the moves `ms` in parallel to the store `σ` gives `fin`, scratch places aside.  A
move whose destinations no other pending move reads can be made at once (`Pending.emit`); moves may
be given other sources that hold the same values (`Pending.reroute`); with no move pending the
store is `fin` (`Pending.done`).  The moves are kept in a list that is worked off in any order:
`swapRemove` takes one out and puts the last in its place.
-/

namespace Badc

/-! ## Taking an element out of a list -/

/-- Take the element at a place out of a list; the last one takes its place. -/
def swapRemove {α : Type*} (l : List α) (i : ℕ) : List α :=
  match l.getLast? with
  | some last => (l.set i last).dropLast
  | none => l

section

variable {α : Type*} {l : List α} {i : ℕ} {a : α}

/-- What is left is the list without the element. -/
lemma perm_swapRemove (h : l[i]? = some a) : l.Perm (a :: swapRemove l i) := by
  obtain ⟨hi, rfl⟩ := List.getElem?_eq_some_iff.mp h
  have hne : l ≠ [] := List.ne_nil_of_length_pos (by omega)
  obtain ⟨front, last, rfl⟩ : ∃ front last, l = front ++ [last] :=
    ⟨_, _, (List.dropLast_append_getLast hne).symm⟩
  simp only [swapRemove, List.getLast?_append, List.getLast?_singleton, Option.some_or]
  by_cases hlt : i < front.length
  · rw [List.set_append_left _ _ hlt, List.dropLast_concat, List.getElem_append_left hlt]
    refine (List.perm_append_singleton last front).trans ?_
    have hset := List.set_perm_cons_eraseIdx hlt last
    have hget := List.getElem_cons_eraseIdx_perm hlt
    exact (hget.symm.cons last).trans ((List.Perm.swap _ _ _).trans (hset.symm.cons _))
  · have hi' : i = front.length := by
      simp only [List.length_append, List.length_singleton] at hi
      omega
    subst hi'
    simp

lemma length_swapRemove (h : l[i]? = some a) : (swapRemove l i).length + 1 = l.length := by
  rw [(perm_swapRemove h).length_eq, List.length_cons]

end

/-! ## Moves -/

namespace ParallelMove

variable {U V : Type*}

/-- A move: the places it reads, each with the place it writes, and what it does to a value on the
way. -/
structure Move (U V : Type*) where
  pairs : List (U × U)
  conv : V → V

/-- The move writes the place. -/
def Move.Writes (m : Move U V) (u : U) : Prop := ∃ p ∈ m.pairs, p.2 = u

/-- The move reads the place. -/
def Move.Reads (m : Move U V) (u : U) : Prop := ∃ p ∈ m.pairs, p.1 = u

/-- Writing the moves in parallel to `σ` gives `fin`, scratch places aside. -/
structure Pending (ms : List (Move U V)) (scratch : U → Prop) (σ fin : U → V) : Prop where
  wants : ∀ m ∈ ms, ∀ p ∈ m.pairs, m.conv (σ p.1) = fin p.2
  settled : ∀ u, ¬ scratch u → (∀ m ∈ ms, ¬ m.Writes u) → σ u = fin u

variable {ms ms' : List (Move U V)} {m : Move U V} {scratch : U → Prop} {σ σ' fin : U → V}

lemma Pending.perm (h : Pending ms scratch σ fin) (hperm : ms.Perm ms') :
    Pending ms' scratch σ fin where
  wants m hm := h.wants m (hperm.mem_iff.mpr hm)
  settled u hu hfree := h.settled u hu fun m hm => hfree m (hperm.mem_iff.mp hm)

lemma Pending.done (h : Pending ms scratch σ fin) (hms : ms = []) {u : U} (hu : ¬ scratch u) :
    σ u = fin u := h.settled u hu fun m hm => by simp [hms] at hm

/-- **A move whose destinations no other move reads can be made.** -/
theorem Pending.emit (h : Pending (m :: ms) scratch σ fin)
    (hmade : ∀ p ∈ m.pairs, σ' p.2 = m.conv (σ p.1))
    (hkept : ∀ u, ¬ m.Writes u → ¬ scratch u → σ' u = σ u)
    (hfree : ∀ o ∈ ms, ∀ u, o.Reads u → ¬ m.Writes u)
    (hread : ∀ o ∈ ms, ∀ u, o.Reads u → ¬ m.Writes u → σ' u = σ u) :
    Pending ms scratch σ' fin where
  wants o ho p hp := by
    have hp' : o.Reads p.1 := ⟨p, hp, rfl⟩
    rw [hread o ho p.1 hp' (hfree o ho p.1 hp')]
    exact h.wants o (List.mem_cons_of_mem m ho) p hp
  settled u hu hnot := by
    by_cases hw : m.Writes u
    · obtain ⟨p, hp, rfl⟩ := hw
      rw [hmade p hp]
      exact h.wants m (.head _) p hp
    · rw [hkept u hw hu]
      refine h.settled u hu fun o ho => ?_
      rcases List.mem_cons.mp ho with rfl | ho
      · exact hw
      · exact hnot o ho

/-- **Moves may be given other sources that hold the same values.** -/
theorem Pending.reroute (h : Pending ms scratch σ fin)
    (hsame : ∀ o' ∈ ms', ∀ p' ∈ o'.pairs, ∃ o ∈ ms, ∃ p ∈ o.pairs,
      p.2 = p'.2 ∧ o'.conv (σ' p'.1) = o.conv (σ p.1))
    (hkept : ∀ u, ¬ scratch u → (∀ o' ∈ ms', ¬ o'.Writes u) → σ' u = σ u ∧
      (∀ o ∈ ms, ¬ o.Writes u) ∨ σ' u = fin u) : Pending ms' scratch σ' fin where
  wants o' ho' p' hp' := by
    obtain ⟨o, ho, p, hp, hdst, hval⟩ := hsame o' ho' p' hp'
    rw [hval, ← hdst]
    exact h.wants o ho p hp
  settled u hu hnot := by
    rcases hkept u hu hnot with ⟨heq, hfree⟩ | hfin
    · rw [heq]
      exact h.settled u hu hfree
    · exact hfin

/-- Moves that write different places have a final store. -/
theorem exists_pending (ms : List (Move U V)) (scratch : U → Prop) (σ : U → V)
    (hinj : ∀ m ∈ ms, ∀ p ∈ m.pairs, ∀ o ∈ ms, ∀ q ∈ o.pairs, p.2 = q.2 →
      m.conv (σ p.1) = o.conv (σ q.1)) : ∃ fin, Pending ms scratch σ fin := by
  classical
  refine ⟨fun u => if h : ∃ m ∈ ms, ∃ p ∈ m.pairs, p.2 = u
    then h.choose.conv (σ h.choose_spec.2.choose.1) else σ u, fun m hm p hp => ?_, fun u _ hnot => ?_⟩
  · have h : ∃ o ∈ ms, ∃ q ∈ o.pairs, q.2 = p.2 := ⟨m, hm, p, hp, rfl⟩
    rw [dif_pos h]
    exact hinj m hm p hp _ h.choose_spec.1 _ h.choose_spec.2.choose_spec.1
      h.choose_spec.2.choose_spec.2.symm
  · rw [dif_neg]
    rintro ⟨m, hm, hw⟩
    exact hnot m hm hw

end ParallelMove

end Badc
