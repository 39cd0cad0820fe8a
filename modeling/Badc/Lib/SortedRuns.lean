import Mathlib.Order.Lattice
import Mathlib.Data.List.Basic
import Mathlib.Data.Nat.Basic

/-!
# Runs of a sorted list

In a list sorted by a key, the elements below a key come first, and those with one key follow each
other.  So a cursor that stands behind the elements below a key finds exactly the elements with
that key ahead of it, and the positions of these are consecutive.
-/

namespace Badc

variable {α κ : Type*} [LinearOrder κ] (key : α → κ)

/-- The elements stand in ascending order of their keys. -/
def SortedBy (l : List α) : Prop := l.Pairwise fun a b => key a ≤ key b

/-- How many elements have a smaller key. -/
def below (l : List α) (k : κ) : ℕ := l.countP fun a => key a < k

/-- How many elements have a key. -/
def counted (l : List α) (k : κ) : ℕ := l.countP fun a => key a = k

variable {key} {l : List α} {k k' : κ}

lemma below_eq_zero (h : ∀ a ∈ l, k ≤ key a) : below key l k = 0 := by
  rw [below, List.countP_eq_zero]
  intro a ha
  simpa using h a ha

lemma counted_eq_zero (h : ∀ a ∈ l, key a ≠ k) : counted key l k = 0 := by
  rw [counted, List.countP_eq_zero]
  intro a ha
  simpa using h a ha

lemma below_eq_length (h : ∀ a ∈ l, key a < k) : below key l k = l.length := by
  rw [below, List.countP_eq_length]
  intro a ha
  simpa using h a ha

lemma below_congr (h : ∀ a ∈ l, key a < k ↔ key a < k') : below key l k = below key l k' := by
  refine List.countP_congr fun a ha => ?_
  simpa using h a ha

lemma below_mono (h : k ≤ k') : below key l k ≤ below key l k' := by
  refine List.countP_mono_left fun a _ ha => ?_
  simp only [decide_eq_true_eq] at ha ⊢
  exact lt_of_lt_of_le ha h

/-- Below the next key are the elements below this one and those with it. -/
lemma below_next (h : ∀ a ∈ l, key a < k' ↔ key a < k ∨ key a = k) :
    below key l k' = below key l k + counted key l k := by
  induction l with
  | nil => rfl
  | cons b l ih =>
    have ih := ih fun a ha => h a (.tail _ ha)
    have hb := h b (List.mem_cons_self ..)
    simp only [below, counted, List.countP_cons, decide_eq_true_eq] at ih ⊢
    rw [ih]
    by_cases hlt : key b < k
    · have hne : key b ≠ k := ne_of_lt hlt
      simp only [hb, hlt, hne, true_or, if_true, if_false]
      omega
    · by_cases heq : key b = k
      · subst heq
        have hlt' : key b < k' := hb.mpr (Or.inr rfl)
        simp only [hlt', lt_irrefl, if_true, if_false]
        omega
      · simp [hb, hlt, heq]

lemma SortedBy.head_le {b : α} (hs : SortedBy key (b :: l)) : ∀ a ∈ b :: l, key b ≤ key a := by
  intro a ha
  rcases List.mem_cons.mp ha with rfl | ha
  · exact le_rfl
  · exact List.rel_of_pairwise_cons hs ha

/-- The positions below a key are those ahead of the count. -/
lemma lt_below_iff (hs : SortedBy key l) {j : ℕ} {a : α} (h : l[j]? = some a) :
    j < below key l k ↔ key a < k := by
  induction l generalizing j with
  | nil => cases h
  | cons b l ih =>
    by_cases hlt : key b < k
    · have hcons : below key (b :: l) k = below key l k + 1 := by
        simp [below, hlt]
      cases j with
      | zero =>
        cases h
        simp [hcons, hlt]
      | succ j =>
        rw [hcons, Nat.add_lt_add_iff_right]
        exact ih (List.Pairwise.of_cons hs) h
    · have hle : ∀ c ∈ b :: l, k ≤ key c := fun c hc =>
        le_trans (not_lt.mp hlt) (hs.head_le c hc)
      have hzero : below key (b :: l) k = 0 := below_eq_zero hle
      simp [hzero, hle a (List.mem_of_getElem? h)]

/-- The elements with a key stand at consecutive positions. -/
lemma positions_eq_range' (hs : SortedBy key l) (n : ℕ) :
    ((l.zipIdx n).filter fun p => key p.1 = k).map Prod.snd =
      List.range' (n + below key l k) (counted key l k) := by
  induction l generalizing n with
  | nil => rfl
  | cons b l ih =>
    have ih := ih (List.Pairwise.of_cons hs) (n + 1)
    rw [List.zipIdx_cons]
    rcases lt_trichotomy (key b) k with hlt | rfl | hgt
    · have hne : key b ≠ k := ne_of_lt hlt
      rw [List.filter_cons_of_neg (by simpa using hne), ih]
      simp only [below, counted, List.countP_cons, hlt, hne, decide_true, decide_false, if_true]
      congr 1
      omega
    · have hzero : below key (b :: l) (key b) = 0 := below_eq_zero hs.head_le
      have hzero' : below key l (key b) = 0 :=
        below_eq_zero fun a ha => hs.head_le a (.tail _ ha)
      have hcount : counted key (b :: l) (key b) = counted key l (key b) + 1 := by
        simp [counted]
      rw [List.filter_cons_of_pos (by simp), List.map_cons, ih, hzero, hzero', hcount,
        List.range'_succ]
      rfl
    · have hne : ∀ a ∈ b :: l, key a ≠ k := fun a ha =>
        ne_of_gt (lt_of_lt_of_le hgt (hs.head_le a ha))
      rw [counted_eq_zero hne, List.range'_zero, ← List.zipIdx_cons, List.filter_eq_nil_iff.mpr,
        List.map_nil]
      intro p hp
      obtain ⟨-, -, hget⟩ := List.mem_zipIdx hp
      simpa using hne p.1 (hget ▸ List.getElem_mem _)

/-- A cursor behind the elements below a key finds the elements with it. -/
lemma length_takeWhile_drop_below (hs : SortedBy key l) :
    ((l.drop (below key l k)).takeWhile fun a => key a = k).length = counted key l k := by
  induction l with
  | nil => rfl
  | cons b l ih =>
    have ih := ih (List.Pairwise.of_cons hs)
    rcases lt_trichotomy (key b) k with hlt | rfl | hgt
    · have hne : key b ≠ k := ne_of_lt hlt
      simpa [below, counted, hlt, hne] using ih
    · have hzero : below key (b :: l) (key b) = 0 := below_eq_zero hs.head_le
      have hzero' : below key l (key b) = 0 :=
        below_eq_zero fun a ha => hs.head_le a (.tail _ ha)
      rw [hzero', List.drop_zero] at ih
      rw [hzero, List.drop_zero, List.takeWhile_cons_of_pos (by simp), List.length_cons, ih]
      simp [counted]
    · have hgt' : ∀ a ∈ b :: l, k < key a := fun a ha => lt_of_lt_of_le hgt (hs.head_le a ha)
      have hzero : below key (b :: l) k = 0 := below_eq_zero fun a ha => le_of_lt (hgt' a ha)
      rw [counted_eq_zero fun a ha => ne_of_gt (hgt' a ha), hzero, List.drop_zero,
        List.takeWhile_cons_of_neg (by simpa using ne_of_gt hgt)]
      rfl

end Badc
