import Badc.Ir.Eval
import Badc.Lib.Loop

/-!
# Ranges of a register

`Range` of `src/c5/codegen/passes/value_range.rs`: inclusive bounds on a 64-bit register read as a
signed integer, and the bounds of each integer operation over the bounds of its operands.  The
source's `i128` endpoints never overflow and are integers here.

`Range.Has r x` says that `x` lies in `r`.  Each transfer function is followed by its soundness:
from operands in their ranges the operation yields a word in the resulting range, a trapping
division having no result.
-/

namespace Badc

/-- Inclusive bounds on a register's contents, read as a signed integer. -/
structure Range where
  lo : ℤ
  hi : ℤ
  deriving DecidableEq, Repr

/-- Every register value. -/
def Range.univ : Range := ⟨-2 ^ 63, 2 ^ 63 - 1⟩

namespace Range

/-- One value. -/
def exact (k : Word) : Range := ⟨k.toInt, k.toInt⟩

/-- What lies in both. -/
def meet (a b : Range) : Range := ⟨max a.lo b.lo, min a.hi b.hi⟩

/-- The smallest range containing both. -/
def hull (a b : Range) : Range := ⟨min a.lo b.lo, max a.hi b.hi⟩

/-- Whether `a` contains `b`. -/
def contains (a b : Range) : Bool := a.lo ≤ b.lo && b.hi ≤ a.hi

/-- Whether every value in the range is non-negative. -/
def nonNegative (r : Range) : Bool := 0 ≤ r.lo

/-- Whether every value in the range has a clear high word. -/
def highWordClear (r : Range) : Bool := 0 ≤ r.lo && r.hi ≤ 0xffffffff

/-- Bounds a lower endpoint is widened to. -/
def widenLo : List ℤ := [0, -0x80, -0x8000, -0x80000000, -2 ^ 63]

/-- Bounds an upper endpoint is widened to. -/
def widenHi : List ℤ := [-1, 0x7f, 0xff, 0x7fff, 0xffff, 0x7fffffff, 0xffffffff, 2 ^ 63 - 1]

/-- Widening: an endpoint that moved outward goes to the first bound beyond it. -/
def widen (a b : Range) : Range :=
  let h := a.hull b
  { lo := if h.lo < a.lo then (widenLo.find? fun b => b ≤ h.lo).getD h.lo else a.lo
    hi := if a.hi < h.hi then (widenHi.find? fun b => h.hi ≤ b).getD h.hi else a.hi }

/-- The word `x` lies in the range. -/
def Has (r : Range) (x : Word) : Prop := r.lo ≤ x.toInt ∧ x.toInt ≤ r.hi

variable {a b r : Range} {x y : Word}

lemma toInt_mem (x : Word) : -2 ^ 63 ≤ x.toInt ∧ x.toInt ≤ 2 ^ 63 - 1 := by
  have h1 := BitVec.le_toInt x
  have h2 := BitVec.toInt_lt (x := x)
  omega

@[simp] lemma has_univ (x : Word) : univ.Has x := toInt_mem x

@[simp] lemma has_exact (x : Word) : (exact x).Has x := ⟨le_rfl, le_rfl⟩

lemma has_exact_iff {k : Word} : (exact k).Has x ↔ x = k := by
  constructor
  · rintro ⟨h1, h2⟩
    exact BitVec.eq_of_toInt_eq (le_antisymm h2 h1)
  · rintro rfl
    exact has_exact x

lemma has_meet : (a.meet b).Has x ↔ a.Has x ∧ b.Has x := by
  simp only [Has, meet, max_le_iff, le_min_iff]
  tauto

lemma has_hull_left (h : a.Has x) : (a.hull b).Has x :=
  ⟨(min_le_left _ _).trans h.1, h.2.trans (le_max_left _ _)⟩

lemma has_hull_right (h : b.Has x) : (a.hull b).Has x :=
  ⟨(min_le_right _ _).trans h.1, h.2.trans (le_max_right _ _)⟩

lemma contains_iff : a.contains b = true ↔ a.lo ≤ b.lo ∧ b.hi ≤ a.hi := by
  simp [contains]

lemma has_of_contains (h : a.contains b = true) (hb : b.Has x) : a.Has x := by
  rw [contains_iff] at h
  exact ⟨h.1.trans hb.1, hb.2.trans h.2⟩

/-- Widening contains the hull. -/
lemma widen_contains_hull (a b : Range) : (a.widen b).contains (a.hull b) = true := by
  have hlo : (a.hull b).lo ≤ a.lo := min_le_left _ _
  have hhi : a.hi ≤ (a.hull b).hi := le_max_left _ _
  rw [contains_iff]
  constructor
  · simp only [widen]
    split
    · cases h : widenLo.find? fun c => c ≤ (a.hull b).lo with
      | none => exact le_rfl
      | some c => simpa using List.find?_some h
    · omega
  · simp only [widen]
    split
    · cases h : widenHi.find? fun c => (a.hull b).hi ≤ c with
      | none => exact le_rfl
      | some c => simpa using List.find?_some h
    · omega

/-- `r` where it lies in the register's bounds, every value otherwise. -/
def representable (r : Range) : Range := if univ.contains r then r else univ

/-- A result the exact bounds have is had after wrapping. -/
lemma has_representable {z : ℤ} (hlo : r.lo ≤ z) (hhi : z ≤ r.hi) :
    r.representable.Has (BitVec.ofInt 64 z) := by
  unfold representable
  split
  · rename_i h
    rw [contains_iff] at h
    simp only [univ] at h
    have hz : (BitVec.ofInt 64 z).toInt = z := by
      rw [BitVec.toInt_ofInt]
      exact Int.bmod_eq_of_le (by omega) (by omega)
    exact ⟨by rw [hz]; exact hlo, by rw [hz]; exact hhi⟩
  · exact has_univ _

end Range

end Badc
