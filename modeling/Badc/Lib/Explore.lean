import Mathlib.Algebra.BigOperators.Group.Finset.Basic
import Mathlib.Tactic
import Badc.Lib.Loop

/-!
# Exploring a graph from a stack

A round takes the top of a stack; a node not looked at yet is looked at, and its neighbours go on
the stack, the last of them on top.  A node that cannot be looked at ends the exploration.  Nodes
may wait on the stack more than once: they are told apart when they are taken, not when they are
put there.

With as much fuel as the nodes and their neighbours ask for, an exploration that does not fail ends
with nothing waiting (`run_spec`): what it started with has been looked at, and the neighbours of
what has been looked at have been too.
-/

namespace Badc

/-- The nodes looked at, in their order, those that wait, and whether one could not be looked
at. -/
structure Explore (α : Type*) where
  seen : List α := []
  stack : List α
  failed : Bool := false

namespace Explore

variable {α : Type*} [DecidableEq α]

/-- Take a node off the stack and look at it. -/
def round (next : α → Option (List α)) (s : Explore α) : Option (Explore α) :=
  if s.failed then none
  else match s.stack with
    | [] => none
    | x :: rest =>
      if x ∈ s.seen then some { s with stack := rest }
      else match next x with
        | none => some { s with stack := rest, failed := true }
        | some ys => some { s with seen := s.seen ++ [x], stack := ys.reverse ++ rest }

/-- Go on until no node waits. -/
def run (next : α → Option (List α)) (fuel : ℕ) (s : Explore α) : Explore α :=
  whileSome (round next) fuel s

/-- What a round can do. -/
lemma round_cases {next : α → Option (List α)} {s s' : Explore α} (h : s.round next = some s') :
    s.failed = false ∧ ∃ x rest, s.stack = x :: rest ∧
      (x ∈ s.seen ∧ s' = { s with stack := rest } ∨
        x ∉ s.seen ∧ next x = none ∧ s' = { s with stack := rest, failed := true } ∨
        x ∉ s.seen ∧ ∃ ys, next x = some ys ∧
          s' = { s with seen := s.seen ++ [x], stack := ys.reverse ++ rest }) := by
  unfold round at h
  split at h
  · cases h
  · rename_i hfailed
    refine ⟨by simpa using hfailed, ?_⟩
    split at h
    · cases h
    · rename_i x rest hstack
      refine ⟨x, rest, hstack, ?_⟩
      split at h
      · rename_i hx
        exact .inl ⟨hx, (Option.some.inj h).symm⟩
      · rename_i hx
        split at h
        · rename_i hnext
          exact .inr (.inl ⟨hx, hnext, (Option.some.inj h).symm⟩)
        · rename_i ys hnext
          exact .inr (.inr ⟨hx, ys, hnext, (Option.some.inj h).symm⟩)

/-- What an exploration that has not failed keeps: each node is looked at once, and a root or a
neighbour of a node looked at waits or has been looked at. -/
structure Inv (next : α → Option (List α)) (roots : List α) (P : α → Prop) (s : Explore α) :
    Prop where
  nodup : s.seen.Nodup
  holds : ∀ x ∈ s.seen ++ s.stack, P x
  roots : s.failed = false → ∀ x ∈ roots, x ∈ s.seen ∨ x ∈ s.stack
  closed : s.failed = false → ∀ x ∈ s.seen, ∃ ys, next x = some ys ∧
    ∀ y ∈ ys, y ∈ s.seen ∨ y ∈ s.stack

/-- A round keeps the invariant, where neighbours of nodes with the property have it. -/
lemma Inv.round {next : α → Option (List α)} {roots : List α} {P : α → Prop} {s s' : Explore α}
    (h : Inv next roots P s) (hP : ∀ x ys, P x → next x = some ys → ∀ y ∈ ys, P y)
    (hr : s.round next = some s') : Inv next roots P s' := by
  obtain ⟨hfailed, x, rest, hstack, ⟨hx, rfl⟩ | ⟨hx, hnext, rfl⟩ | ⟨hx, ys, hnext, rfl⟩⟩ :=
    round_cases hr
  · have hwait : ∀ y, y ∈ s.seen ∨ y ∈ s.stack → y ∈ s.seen ∨ y ∈ rest := by
      intro y hy
      rw [hstack, List.mem_cons] at hy
      rcases hy with hy | rfl | hy
      · exact .inl hy
      · exact .inl hx
      · exact .inr hy
    refine ⟨h.nodup, fun y hy => h.holds y ?_, fun hf y hy => hwait y (h.roots hf y hy),
      fun hf y hy => ?_⟩
    · rw [hstack]
      rcases List.mem_append.mp hy with hy | hy
      · exact List.mem_append_left _ hy
      · exact List.mem_append_right _ (.tail _ hy)
    · obtain ⟨ys, hys, hall⟩ := h.closed hf y hy
      exact ⟨ys, hys, fun z hz => hwait z (hall z hz)⟩
  · refine ⟨h.nodup, fun y hy => h.holds y ?_, fun hf => absurd hf (by simp),
      fun hf => absurd hf (by simp)⟩
    rw [hstack]
    rcases List.mem_append.mp hy with hy | hy
    · exact List.mem_append_left _ hy
    · exact List.mem_append_right _ (.tail _ hy)
  · have hwait : ∀ y, y ∈ s.seen ∨ y ∈ s.stack → y ∈ s.seen ++ [x] ∨ y ∈ ys.reverse ++ rest := by
      intro y hy
      rw [hstack, List.mem_cons] at hy
      rcases hy with hy | rfl | hy
      · exact .inl (List.mem_append_left _ hy)
      · exact .inl (by simp)
      · exact .inr (List.mem_append_right _ hy)
    have hPx : P x := h.holds x (by simp [hstack])
    refine ⟨?_, fun y hy => ?_, fun _ y hy => hwait y (h.roots hfailed y hy), fun _ y hy => ?_⟩
    · exact List.nodup_append.mpr ⟨h.nodup, List.nodup_singleton x, fun y hy z hz => by
        rw [List.mem_singleton.mp hz]
        rintro rfl
        exact hx hy⟩
    · simp only [List.mem_append, List.mem_singleton, List.mem_reverse] at hy
      rcases hy with (hy | rfl) | hy | hy
      · exact h.holds y (List.mem_append_left _ hy)
      · exact hPx
      · exact hP x ys hPx hnext y hy
      · exact h.holds y (by simp [hstack, hy])
    · rcases List.mem_append.mp hy with hy | hy
      · obtain ⟨zs, hzs, hall⟩ := h.closed hfailed y hy
        exact ⟨zs, hzs, fun z hz => hwait z (hall z hz)⟩
      · rw [List.mem_singleton.mp hy]
        exact ⟨ys, hnext, fun z hz => .inr (by simp [hz])⟩

/-- Rounds left at most: one for each waiting node, and for each node below `n` not looked at one
and its neighbours. -/
def measure (next : ℕ → Option (List ℕ)) (n : ℕ) (s : Explore ℕ) : ℕ :=
  s.stack.length +
    ∑ x ∈ (Finset.range n).filter fun x => x ∉ s.seen, (((next x).getD []).length + 1)

/-- A round lowers the measure. -/
lemma measure_lt {next : ℕ → Option (List ℕ)} {n : ℕ} {s s' : Explore ℕ}
    (hn : ∀ x ∈ s.stack, x < n) (hr : s.round next = some s') :
    measure next n s' < measure next n s := by
  obtain ⟨-, x, rest, hstack, ⟨-, rfl⟩ | ⟨-, -, rfl⟩ | ⟨hx, ys, hnext, rfl⟩⟩ := round_cases hr
  · simp only [measure, hstack, List.length_cons]
    omega
  · simp only [measure, hstack, List.length_cons]
    omega
  · have hlt : x < n := hn x (by simp [hstack])
    have hfilter : (Finset.range n).filter (fun y => y ∉ s.seen) =
        insert x ((Finset.range n).filter fun y => y ∉ s.seen ++ [x]) := by
      ext y
      simp only [Finset.mem_filter, Finset.mem_range, Finset.mem_insert, List.mem_append,
        List.mem_singleton]
      by_cases hyx : y = x
      · subst hyx
        simp [hlt, hx]
      · simp [hyx]
    have hsum : ∑ y ∈ (Finset.range n).filter (fun y => y ∉ s.seen),
          (((next y).getD []).length + 1) =
        (ys.length + 1) + ∑ y ∈ (Finset.range n).filter (fun y => y ∉ s.seen ++ [x]),
          (((next y).getD []).length + 1) := by
      rw [hfilter, Finset.sum_insert (by simp), hnext, Option.getD_some]
    simp only [measure, hstack, hsum, List.length_cons, List.length_append, List.length_reverse]
    omega

/-- On nodes below `n`, an exploration with fuel for all of them fails, or has looked at its roots
and at the neighbours of all it has looked at; each once. -/
theorem run_spec {next : ℕ → Option (List ℕ)} {roots : List ℕ} {n fuel : ℕ}
    (hroots : ∀ x ∈ roots, x < n) (hnext : ∀ x ys, x < n → next x = some ys → ∀ y ∈ ys, y < n)
    (hfuel : measure next n { stack := roots } ≤ fuel) :
    let s := run next fuel { stack := roots }
    s.seen.Nodup ∧ (∀ x ∈ s.seen, x < n) ∧ (s.failed = false →
      (∀ x ∈ roots, x ∈ s.seen) ∧
        ∀ x ∈ s.seen, ∃ ys, next x = some ys ∧ ∀ y ∈ ys, y ∈ s.seen) := by
  have hstep : ∀ s s' : Explore ℕ, Inv next roots (· < n) s → s.round next = some s' →
      Inv next roots (· < n) s' ∧ measure next n s' < measure next n s := fun s s' hs hr =>
    ⟨hs.round hnext hr, measure_lt (fun x hx => hs.holds x (List.mem_append_right _ hx)) hr⟩
  have hstart : Inv next roots (· < n) { stack := roots } :=
    ⟨List.nodup_nil, by simpa using hroots, fun _ x hx => .inr hx, fun _ x hx => (nomatch hx)⟩
  have hinv : Inv next roots (· < n) (run next fuel { stack := roots }) :=
    whileSome_invariant _ (fun s s' hs hr => (hstep s s' hs hr).1) fuel hstart
  have hdone : (run next fuel { stack := roots }).round next = none :=
    whileSome_done _ (measure next n) hstep hstart hfuel
  refine ⟨hinv.nodup, fun x hx => hinv.holds x (List.mem_append_left _ hx), fun hfailed => ?_⟩
  -- Nothing waits.
  have hstack : (run next fuel { stack := roots }).stack = [] := by
    unfold round at hdone
    rw [if_neg (by simp [hfailed])] at hdone
    split at hdone
    · assumption
    · split at hdone
      · cases hdone
      · split at hdone <;> cases hdone
  refine ⟨fun x hx => ?_, fun x hx => ?_⟩
  · simpa [hstack] using hinv.roots hfailed x hx
  · simpa [hstack] using hinv.closed hfailed x hx

end Explore

end Badc
