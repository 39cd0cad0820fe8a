import Std.Data.ExtTreeMap
import Mathlib.Data.List.Nodup
import Mathlib.Data.List.Perm.Subperm

/-!
# Maps built by insertion

A map into which the entries of a list are inserted in turn holds under each key the last entry of that
key.  Its entries are among those of the list, and inserting the entries of a map anew gives the map back.
-/

namespace Badc.TreeMap

variable {α κ β : Type*} {cmp : κ → κ → Ordering} [Std.TransCmp cmp] [Std.LawfulEqCmp cmp] [DecidableEq κ]
  {k : α → κ} {f : α → β} {l : List α} {x : κ} {v : β}

/-- The map that the entries of a list make of `m`. -/
def insertAll (k : α → κ) (f : α → β) (m : Std.ExtTreeMap κ β cmp) (l : List α) : Std.ExtTreeMap κ β cmp :=
  l.foldl (fun m a => m.insert (k a) (f a)) m

/-- Under each key the last entry of that key is left. -/
lemma getElem?_insertAll (m : Std.ExtTreeMap κ β cmp) :
    (insertAll k f m l)[x]? = ((l.reverse.find? fun a => k a = x).map f).or m[x]? := by
  induction l generalizing m with
  | nil => rfl
  | cons a l ih =>
    rw [insertAll, List.foldl_cons, ← insertAll, ih, Std.ExtTreeMap.getElem?_insert, List.reverse_cons,
      List.find?_append]
    cases hl : l.reverse.find? fun a => k a = x with
    | some b => rfl
    | none =>
      simp only [Std.LawfulEqCmp.compare_eq_iff_eq]
      by_cases hx : k a = x
      · simp [hx]
      · simp [hx]

lemma exists_of_getElem?_insertAll (h : (insertAll k f (∅ : Std.ExtTreeMap κ β cmp) l)[x]? = some v) :
    ∃ a ∈ l, k a = x ∧ f a = v := by
  rw [getElem?_insertAll, Std.ExtTreeMap.getElem?_empty, Option.or_none] at h
  obtain ⟨a, ha, rfl⟩ := Option.map_eq_some_iff.mp h
  exact ⟨a, List.mem_reverse.mp (List.mem_of_find?_eq_some ha),
    by simpa using List.find?_some ha, rfl⟩

lemma isSome_getElem?_insertAll {a : α} (ha : a ∈ l) :
    ((insertAll k f (∅ : Std.ExtTreeMap κ β cmp) l)[k a]?).isSome := by
  rw [getElem?_insertAll, Std.ExtTreeMap.getElem?_empty, Option.or_none, Option.isSome_map,
    List.find?_isSome]
  exact ⟨a, List.mem_reverse.mpr ha, decide_eq_true rfl⟩

lemma getElem?_insertAll_of_mem {a : α} (ha : a ∈ l) (huniq : ∀ b ∈ l, k b = k a → b = a) :
    (insertAll k f (∅ : Std.ExtTreeMap κ β cmp) l)[k a]? = some (f a) := by
  have hsome : ((insertAll k f (∅ : Std.ExtTreeMap κ β cmp) l)[k a]?).isSome := isSome_getElem?_insertAll ha
  obtain ⟨v, hv⟩ := Option.isSome_iff_exists.mp hsome
  obtain ⟨b, hb, hkb, rfl⟩ := exists_of_getElem?_insertAll hv
  rw [hv, huniq b hb hkb]

omit [Std.LawfulEqCmp cmp] [DecidableEq κ] in
lemma nodup_toList (m : Std.ExtTreeMap κ β cmp) : m.toList.Nodup := by
  refine List.Nodup.of_map Prod.fst ?_
  rw [Std.ExtTreeMap.map_fst_toList_eq_keys]
  exact m.nodup_keys

/-- Inserting the entries of a map anew gives the map. -/
lemma insertAll_toList (m : Std.ExtTreeMap κ β cmp) : insertAll Prod.fst Prod.snd ∅ m.toList = m := by
  refine Std.ExtTreeMap.ext_getElem? fun x => ?_
  cases hx : m[x]? with
  | some v =>
    have hmem : (x, v) ∈ m.toList := Std.ExtTreeMap.mem_toList_iff_getElem?_eq_some.mpr hx
    refine getElem?_insertAll_of_mem (k := Prod.fst) (f := Prod.snd) hmem fun ⟨y, w⟩ hy hk => ?_
    obtain rfl : y = x := hk
    have hw := Std.ExtTreeMap.mem_toList_iff_getElem?_eq_some.mp hy
    rw [hx] at hw
    rw [Option.some.inj hw]
  | none =>
    rw [Option.eq_none_iff_forall_ne_some]
    intro v hv
    obtain ⟨⟨y, w⟩, hy, rfl, rfl⟩ := exists_of_getElem?_insertAll hv
    rw [Std.ExtTreeMap.mem_toList_iff_getElem?_eq_some.mp hy] at hx
    cases hx

lemma toList_insertAll_subperm (l : List (κ × β)) :
    (insertAll Prod.fst Prod.snd (∅ : Std.ExtTreeMap κ β cmp) l).toList.Subperm l := by
  refine (nodup_toList _).subperm fun ⟨x, v⟩ hx => ?_
  obtain ⟨a, ha, rfl, rfl⟩ := exists_of_getElem?_insertAll (Std.ExtTreeMap.mem_toList_iff_getElem?_eq_some.mp hx)
  exact ha

end Badc.TreeMap
