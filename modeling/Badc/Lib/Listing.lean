import Mathlib.Data.List.Basic
import Mathlib.Data.List.Induction

/-!
# Listings

A listing writes what a function says of each key one after the other.  Two listings that are equal
come from functions that are equal on the keys, where the parts have the same lengths or carry their
keys.  A list is read off its indices (`mapM_range`).
-/

namespace Badc

variable {α β : Type*} {l : List α}

lemma length_le_length_flatMap {f : α → List β} (h : ∀ a ∈ l, f a ≠ []) : l.length ≤ (l.flatMap f).length := by
  induction l with
  | nil => exact Nat.le_refl 0
  | cons a l ih =>
    have hpos := List.length_pos_iff.mpr (h a (.head _))
    have hrest := ih fun b hb => h b (.tail _ hb)
    rw [List.flatMap_cons, List.length_append, List.length_cons]
    omega

lemma eq_of_flatMap_eq {f g : α → List β} (hlen : ∀ a ∈ l, (f a).length = (g a).length)
    (h : l.flatMap f = l.flatMap g) : ∀ a ∈ l, f a = g a := by
  have hparts : (l.map f).map List.length = (l.map g).map List.length := by
    rw [List.map_map, List.map_map]
    exact List.map_congr_left hlen
  rw [List.flatMap_def, List.flatMap_def] at h
  exact List.map_inj_left.mp (List.eq_iff_flatten_eq.mpr ⟨h, hparts⟩)

/-- Equal listings of the values that are there, where they are there for the same keys. -/
lemma eq_of_filterMap_eq {f g : α → Option β} (hsome : ∀ a ∈ l, (f a).isSome = (g a).isSome)
    (h : l.filterMap f = l.filterMap g) : ∀ a ∈ l, f a = g a := by
  rw [List.filterMap_eq_flatMap_toList, List.filterMap_eq_flatMap_toList] at h
  intro a ha
  have hlen : ∀ b ∈ l, (f b).toList.length = (g b).toList.length := by
    intro b hb
    have hb' := hsome b hb
    cases hf : f b <;> cases hg : g b <;> simp_all
  have hlist := eq_of_flatMap_eq hlen h a ha
  cases hf : f a <;> cases hg : g a <;> simp_all

/-- What a map says of a key, with the key before it. -/
def entry (f : ℕ → Option ℕ) (k : ℕ) : List ℕ :=
  match f k with
  | some v => [k, v]
  | none => []

lemma head_flatMap_entry {f : ℕ → Option ℕ} {l : List ℕ} {k : ℕ} {rest : List ℕ}
    (h : l.flatMap (entry f) = k :: rest) : k ∈ l := by
  induction l with
  | nil => exact absurd h (by simp)
  | cons a l ih =>
    rw [List.flatMap_cons, entry] at h
    split at h
    · exact List.mem_cons.mpr (Or.inl (List.cons.inj h).1.symm)
    · exact List.mem_cons_of_mem _ (ih h)

/-- Equal listings of entries come from maps that are equal on the keys. -/
lemma eq_of_flatMap_entry_eq {f g : ℕ → Option ℕ} {l : List ℕ} (hnodup : l.Nodup)
    (h : l.flatMap (entry f) = l.flatMap (entry g)) : ∀ k ∈ l, f k = g k := by
  induction l with
  | nil => exact fun k hk => absurd hk (by simp)
  | cons a l ih =>
    obtain ⟨ha, hnodup⟩ := List.nodup_cons.mp hnodup
    rw [List.flatMap_cons, List.flatMap_cons] at h
    have hboth : f a = g a ∧ l.flatMap (entry f) = l.flatMap (entry g) := by
      unfold entry at h
      cases hf : f a with
      | some v =>
        cases hg : g a with
        | some w =>
          simp only [hf, hg, List.cons_append, List.nil_append, List.cons.injEq] at h
          exact ⟨congrArg some h.2.1, h.2.2⟩
        | none =>
          -- the other listing would start with a key that is not there
          simp only [hf, hg, List.cons_append, List.nil_append] at h
          exact absurd (head_flatMap_entry h.symm) ha
      | none =>
        cases hg : g a with
        | some w =>
          simp only [hf, hg, List.cons_append, List.nil_append] at h
          exact absurd (head_flatMap_entry h) ha
        | none =>
          simp only [hf, hg, List.nil_append] at h
          exact ⟨rfl, h⟩
    intro k hk
    rcases List.mem_cons.mp hk with rfl | hk
    · exact hboth.1
    · exact ih hnodup hboth.2 k hk

lemma length_foldl_set {at' : β → ℕ} {val : β → α} {l : List β} {rs : List α} :
    (l.foldl (fun rs b => rs.set (at' b) (val b)) rs).length = rs.length := by
  induction l generalizing rs with
  | nil => rfl
  | cons a l ih => exact ih.trans List.length_set

/-- After a list of writes, a place holds what it held or what one of them wrote. -/
lemma getElem?_foldl_set_or {val : β → α} (l : List (ℕ × β)) {a : List α} {k : ℕ} {x : α}
    (h : a[k]? = some x) : (l.foldl (fun a p => a.set p.1 (val p.2)) a)[k]? = some x ∨
      ∃ y, (k, y) ∈ l ∧ (l.foldl (fun a p => a.set p.1 (val p.2)) a)[k]? = some (val y) := by
  induction l generalizing a x with
  | nil => exact .inl h
  | cons p l ih =>
    rw [List.foldl_cons]
    by_cases hp : p.1 = k
    · have hset : (a.set p.1 (val p.2))[k]? = some (val p.2) := by
        rw [hp, List.getElem?_set_self (List.getElem?_eq_some_iff.mp h).1]
      have hmem : (k, p.2) ∈ p :: l := by
        rw [← hp]
        exact .head _
      rcases ih hset with heq | ⟨y, hy, heq⟩
      · exact .inr ⟨p.2, hmem, heq⟩
      · exact .inr ⟨y, List.mem_cons_of_mem _ hy, heq⟩
    · have hset : (a.set p.1 (val p.2))[k]? = some x := by rw [List.getElem?_set_ne hp, h]
      exact (ih hset).imp_right fun ⟨y, hy, heq⟩ => ⟨y, List.mem_cons_of_mem _ hy, heq⟩

/-- After a list of writes, a place holds what all writes to it wrote. -/
lemma getElem?_foldl_set {l : List (ℕ × α)} {a : List α} {k : ℕ} {x : α} (hk : k < a.length)
    (hmem : ∃ p ∈ l, p.1 = k) (hall : ∀ p ∈ l, p.1 = k → p.2 = x) :
    (l.foldl (fun a p => a.set p.1 p.2) a)[k]? = some x := by
  -- Once the place holds `x`, the writes that are left keep it there.
  have hkeep : ∀ (l : List (ℕ × α)) (a : List α), a[k]? = some x →
      (∀ p ∈ l, p.1 = k → p.2 = x) → (l.foldl (fun a p => a.set p.1 p.2) a)[k]? = some x := by
    intro l
    induction l with
    | nil => exact fun a ha _ => ha
    | cons p l ih =>
      intro a ha hall
      refine ih _ ?_ fun q hq => hall q (.tail _ hq)
      rw [List.getElem?_set]
      split
      · rename_i hp
        rw [if_pos (hp ▸ (List.getElem?_eq_some_iff.mp ha).1), hall p (by simp) hp]
      · exact ha
  induction l generalizing a with
  | nil => simp at hmem
  | cons p l ih =>
    rw [List.foldl_cons]
    by_cases hp : p.1 = k
    · refine hkeep l _ ?_ fun q hq => hall q (.tail _ hq)
      rw [hp, List.getElem?_set_self hk, hall p (by simp) hp]
    · obtain ⟨q, hq, hqk⟩ := hmem
      refine ih (by simpa using hk) ⟨q, ?_, hqk⟩ fun r hr => hall r (.tail _ hr)
      rcases List.mem_cons.mp hq with rfl | hq
      · exact absurd hqk hp
      · exact hq

/-- Changes that fix what a place holds leave it. -/
lemma getElem?_foldl_modify_of_fixed {g : β → α → α} {l : List (ℕ × β)} {a : List α} {k : ℕ} {x : α}
    (h : a[k]? = some x) (hfixed : ∀ p ∈ l, p.1 = k → g p.2 x = x) :
    (l.foldl (fun a p => a.modify p.1 (g p.2)) a)[k]? = some x := by
  induction l generalizing a with
  | nil => exact h
  | cons p l ih =>
    refine ih ?_ fun q hq => hfixed q (.tail _ hq)
    rw [List.getElem?_modify, h]
    dsimp only [Option.map_eq_map, Option.map_some]
    split
    · rename_i hp
      rw [hfixed p (.head _) hp]
    · rfl

/-- Changes that all turn what a place holds into one thing, and leave that, turn it into that. -/
lemma getElem?_foldl_modify {g : β → α → α} {l : List (ℕ × β)} {a : List α} {k : ℕ} {x y : α}
    (h : a[k]? = some x) (hmem : ∃ p ∈ l, p.1 = k) (hall : ∀ p ∈ l, p.1 = k → g p.2 x = y ∧ g p.2 y = y) :
    (l.foldl (fun a p => a.modify p.1 (g p.2)) a)[k]? = some y := by
  induction l generalizing a with
  | nil => simp at hmem
  | cons p l ih =>
    rw [List.foldl_cons]
    by_cases hp : p.1 = k
    · refine getElem?_foldl_modify_of_fixed ?_ fun q hq hk => (hall q (.tail _ hq) hk).2
      rw [hp, List.getElem?_modify_eq, h]
      exact congrArg some (hall p (.head _) hp).1
    · obtain ⟨q, hq, hk⟩ := hmem
      refine ih ?_ ⟨q, (List.mem_cons.mp hq).resolve_left fun heq => hp (heq ▸ hk), hk⟩
        fun r hr => hall r (.tail _ hr)
      rw [List.getElem?_modify_ne _ _ hp, h]

lemma flatMap_if_and {p q : α → Bool} {t : α → List β} (l : List α) :
    (l.flatMap fun a => if p a && q a then t a else []) =
      (l.filter p).flatMap fun a => if q a then t a else [] := by
  induction l with
  | nil => rfl
  | cons a l ih =>
    rw [List.flatMap_cons, ih, List.filter_cons]
    cases p a <;> rfl

/-- The places of a part of a list without repetition follow each other. -/
lemma map_idxOf_eq_range' {α : Type*} [DecidableEq α] {order a b c : List α} (hnodup : order.Nodup)
    (h : order = a ++ b ++ c) : b.map order.idxOf = List.range' a.length b.length := by
  refine List.ext_getElem (by simp) fun i hi hi' => ?_
  rw [List.length_map] at hi
  have hlt : a.length + i < order.length := by
    rw [h, List.length_append, List.length_append]
    omega
  have hget : order[a.length + i] = b[i] := by
    simp only [h, List.append_assoc]
    rw [List.getElem_append_right (by omega), List.getElem_append_left (by omega)]
    simp
  rw [List.getElem_map, List.getElem_range', ← hget, hnodup.idxOf_getElem]
  omega

/-- An entry of a table whose keys are different is what looking its key up gives. -/
lemma lookup_eq_some_of_mem {α β : Type*} [DecidableEq α] {l : List (α × β)}
    (hnodup : (l.map Prod.fst).Nodup) {a : α} {b : β} (h : (a, b) ∈ l) : l.lookup a = some b := by
  induction l with
  | nil => cases h
  | cons p l ih =>
    rw [List.map_cons, List.nodup_cons] at hnodup
    rcases List.mem_cons.mp h with rfl | h
    · rw [List.lookup_cons_self]
    · have hne : a ≠ p.1 := fun heq => hnodup.1 (heq ▸ List.mem_map_of_mem h)
      rw [List.lookup_cons, beq_false_of_ne hne]
      exact ih hnodup.2 h

/-- Looking up a key that has one entry finds it. -/
lemma lookup_eq_some_iff_mem {α β : Type*} [DecidableEq α] {l : List (α × β)} {a : α} {b : β}
    (hone : ∀ x y, (a, x) ∈ l → (a, y) ∈ l → x = y) : l.lookup a = some b ↔ (a, b) ∈ l := by
  constructor
  · intro h
    obtain ⟨l₁, l₂, rfl, _⟩ := List.lookup_eq_some_iff.mp h
    exact List.mem_append_right _ (.head _)
  · intro h
    cases hx : l.lookup a with
    | none => exact absurd (List.lookup_eq_none_iff.mp hx (a, b) h) (by simp)
    | some x =>
      obtain ⟨l₁, l₂, rfl, _⟩ := List.lookup_eq_some_iff.mp hx
      rw [hone x b (List.mem_append_right _ (.head _)) h]

/-- Indexes mapped to the elements of a list give the list. -/
lemma mapM_range {f : ℕ → Option α} {l : List α}
    (h : ∀ i (hi : i < l.length), f i = some l[i]) : (List.range l.length).mapM f = some l := by
  induction l using List.reverseRecOn with
  | nil => rfl
  | append_singleton l a ih =>
    have hl := ih fun i hi => by
      rw [h i (by rw [List.length_append]; exact Nat.lt_add_right _ hi), List.getElem_append_left hi]
    have ha := h l.length (by simp)
    rw [List.getElem_concat_length rfl] at ha
    rw [List.length_append, List.length_singleton, List.range_succ, List.mapM_append, hl]
    simp [ha]

end Badc
