import Mathlib.Logic.Function.Basic
import Mathlib.Data.List.Basic

/-!
# A map with an undo log

A map whose insertions are logged, so that a mark taken earlier can be gone back to.
`ScopedMap.Since m m'` says that `m'` came from `m` by insertions, whatever was wound back in
between; going back to the mark of `m` then restores `m` (`Since.rewind`).
-/

namespace Badc

/-- A map, and what each insertion replaced, the last first. -/
structure ScopedMap (K V : Type*) where
  live : K → Option V
  undo : List (K × Option V)

namespace ScopedMap

variable {K V : Type*} [DecidableEq K] {m m' m'' : ScopedMap K V}

/-- The map without entries. -/
def empty : ScopedMap K V := ⟨fun _ => none, []⟩

/-- The map with an entry set. -/
def insert (m : ScopedMap K V) (k : K) (v : V) : ScopedMap K V :=
  ⟨Function.update m.live k (some v), (k, m.live k) :: m.undo⟩

/-- A mark to go back to. -/
def mark (m : ScopedMap K V) : ℕ := m.undo.length

/-- The insertions past a mark. -/
def past (m : ScopedMap K V) (mark : ℕ) : List (K × Option V) :=
  m.undo.take (m.undo.length - mark)

/-- What a map held before logged insertions. -/
def restore (live : K → Option V) (log : List (K × Option V)) : K → Option V :=
  log.foldl (fun live e => Function.update live e.1 e.2) live

/-- The map with the insertions past a mark taken back. -/
def rewind (m : ScopedMap K V) (mark : ℕ) : ScopedMap K V :=
  ⟨restore m.live (m.past mark), m.undo.drop (m.undo.length - mark)⟩

/-- `m'` came from `m` by insertions. -/
def Since (m m' : ScopedMap K V) : Prop :=
  ∃ log, m'.undo = log ++ m.undo ∧ restore m'.live log = m.live

lemma Since.refl (m : ScopedMap K V) : Since m m := ⟨[], rfl, rfl⟩

lemma Since.insert (h : Since m m') (k : K) (v : V) : Since m (m'.insert k v) := by
  obtain ⟨log, hundo, hlive⟩ := h
  refine ⟨(k, m'.live k) :: log, by simp [ScopedMap.insert, hundo], ?_⟩
  rw [← hlive]
  simp [restore, ScopedMap.insert]

lemma Since.trans (h : Since m m') (h' : Since m' m'') : Since m m'' := by
  obtain ⟨log, hundo, hlive⟩ := h
  obtain ⟨log', hundo', hlive'⟩ := h'
  refine ⟨log' ++ log, by rw [hundo', hundo, List.append_assoc], ?_⟩
  rw [restore, List.foldl_append]
  exact (congrArg (restore · log) hlive').trans hlive

lemma Since.rewind (h : Since m m') : m'.rewind m.mark = m := by
  obtain ⟨log, hundo, hlive⟩ := h
  have hlen : m'.undo.length - m.mark = log.length := by simp [hundo, mark]
  unfold ScopedMap.rewind past
  rw [hlen, hundo, List.take_left, List.drop_left, hlive]

end ScopedMap

end Badc
