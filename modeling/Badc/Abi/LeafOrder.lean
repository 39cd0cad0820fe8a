import Badc.Abi.RegisterParts

/-!
# The order of the leaves

The classes that leaves give to an eightbyte merge one after the other, and `Eightbyte::merge` is not
associative: INTEGER absorbs an x87 class, and an x87 class beside any other goes to memory.  The class
of an aggregate is that of every order of its leaves exactly where no eightbyte is contested, or where
the aggregate goes to memory even with its integers first (`orderFree_iff`).
-/

namespace Badc.Abi

variable {size : ℕ} {fields : List FlatField}

/-- The class that given classes merge to with INTEGER first: INTEGER, else memory for an x87 class
beside any other, else SSE beside SSEUP. -/
def ofGiven (integer sse sseUp x87 x87Up : Bool) : Eightbyte :=
  if integer then .integer
  else if (x87 || x87Up) && (sse || sseUp || x87 && x87Up) then .memory
  else if x87 then .x87
  else if x87Up then .x87Up
  else if sse then .sse
  else if sseUp then .sseUp
  else .noClass

/-- INTEGER, an x87 class and a class other than these two are given: an order that brings the two last
together first sends the eightbyte to memory, and INTEGER first absorbs both. -/
def contest (integer sse sseUp x87 x87Up : Bool) : Bool :=
  integer && (x87 || x87Up) && (sse || sseUp || x87 && x87Up)

/-- The class of a list of classes, by which of them it holds. -/
def mergedSet (l : List Eightbyte) : Eightbyte :=
  ofGiven (decide (.integer ∈ l)) (decide (.sse ∈ l)) (decide (.sseUp ∈ l)) (decide (.x87 ∈ l))
    (decide (.x87Up ∈ l))

/-- A list of classes merges to different classes in different orders. -/
def contestedSet (l : List Eightbyte) : Bool :=
  contest (decide (.integer ∈ l)) (decide (.sse ∈ l)) (decide (.sseUp ∈ l)) (decide (.x87 ∈ l))
    (decide (.x87Up ∈ l))

lemma mergedSet_congr {l l' : List Eightbyte} (h : ∀ c, c ∈ l ↔ c ∈ l') : mergedSet l = mergedSet l' := by
  simp only [mergedSet, h]

lemma contestedSet_congr {l l' : List Eightbyte} (h : ∀ c, c ∈ l ↔ c ∈ l') :
    contestedSet l = contestedSet l' := by
  simp only [contestedSet, h]

lemma decide_mem_append_singleton (l : List Eightbyte) (c d : Eightbyte) :
    decide (d ∈ l ++ [c]) = (decide (d ∈ l) || c == d) := by
  rw [Bool.eq_iff_iff, decide_eq_true_iff, Bool.or_eq_true, decide_eq_true_iff, beq_iff_eq,
    List.mem_append, List.mem_singleton, eq_comm]

lemma merge_ofGiven : ∀ integer sse sseUp x87 x87Up : Bool, ∀ c ∈ leafClasses,
    let merged := (ofGiven integer sse sseUp x87 x87Up).merge c
    let set := ofGiven (integer || c == .integer) (sse || c == .sse) (sseUp || c == .sseUp)
      (x87 || c == .x87) (x87Up || c == .x87Up)
    (merged = set ∨ merged = .memory) ∧
      (contest (integer || c == .integer) (sse || c == .sse) (sseUp || c == .sseUp) (x87 || c == .x87)
        (x87Up || c == .x87Up) = false → merged = set) := by
  decide

lemma contest_mono : ∀ integer sse sseUp x87 x87Up integer' sse' sseUp' x87' x87Up' : Bool,
    contest (integer || integer') (sse || sse') (sseUp || sseUp') (x87 || x87') (x87Up || x87Up') =
      false → contest integer sse sseUp x87 x87Up = false := by
  decide

/-- The classes merge to what the set of them says, where there is no contest. -/
lemma foldl_merge_eq {l : List Eightbyte} (hl : ∀ c ∈ l, c ∈ leafClasses)
    (hcontest : contestedSet l = false) : l.foldl Eightbyte.merge .noClass = mergedSet l := by
  induction l using List.reverseRecOn with
  | nil => rfl
  | append_singleton l c ih =>
    unfold contestedSet at hcontest
    simp only [decide_mem_append_singleton] at hcontest
    rw [List.foldl_append, ih (fun d hd => hl d (List.mem_append_left _ hd))
      (contest_mono _ _ _ _ _ _ _ _ _ _ hcontest)]
    unfold mergedSet
    simp only [decide_mem_append_singleton]
    exact (merge_ofGiven _ _ _ _ _ c (hl c (by simp))).2 hcontest

lemma foldl_merge_memory (l : List Eightbyte) : l.foldl Eightbyte.merge .memory = .memory := by
  have hmerge : ∀ c : Eightbyte, Eightbyte.memory.merge c = .memory := by
    intro c
    cases c <;> rfl
  induction l with
  | nil => rfl
  | cons c l ih => rw [List.foldl_cons, hmerge, ih]

/-- In any order the classes merge to what the set of them says or to memory. -/
lemma foldl_merge_eq_or {l : List Eightbyte} (hl : ∀ c ∈ l, c ∈ leafClasses) :
    l.foldl Eightbyte.merge .noClass = mergedSet l ∨ l.foldl Eightbyte.merge .noClass = .memory := by
  induction l using List.reverseRecOn with
  | nil => exact .inl rfl
  | append_singleton l c ih =>
    rw [List.foldl_append]
    rcases ih fun d hd => hl d (List.mem_append_left _ hd) with h | h
    · rw [h]
      unfold mergedSet
      simp only [decide_mem_append_singleton]
      exact (merge_ofGiven _ _ _ _ _ c (hl c (by simp))).1
    · rw [h]
      exact .inr (foldl_merge_memory [c])

lemma foldl_merge_from_integer {l : List Eightbyte} (hl : ∀ c ∈ l, c ∈ leafClasses) :
    l.foldl Eightbyte.merge .integer = .integer := by
  have hmerge : ∀ c ∈ leafClasses, Eightbyte.integer.merge c = .integer := by decide
  induction l with
  | nil => rfl
  | cons c l ih =>
    rw [List.foldl_cons, hmerge c (hl c (.head _))]
    exact ih fun d hd => hl d (.tail _ hd)

/-- The leaves with those of integers first. -/
def integersFirst (fields : List FlatField) : List FlatField :=
  fields.filter (fun f => f.kind == .int) ++ fields.filter fun f => !(f.kind == .int)

lemma perm_integersFirst : (integersFirst fields).Perm fields :=
  List.filter_append_perm _ _

lemma eightbyte_eq_integer (f : FlatField) (high : Bool) :
    f.eightbyte high = .integer ↔ f.kind = .int := by
  unfold FlatField.eightbyte
  cases f.kind <;> cases high <;> decide

/-- With the leaves of integers first the classes merge to what the set of them says. -/
lemma eightbyteAt_integersFirst (lo : ℕ) :
    eightbyteAt (integersFirst fields) lo = mergedSet (givenAt fields lo) := by
  have hclasses : ∀ fields' : List FlatField, ∀ c ∈ givenAt fields' lo, c ∈ leafClasses :=
    fun _ _ hc => givenAt_subset hc
  rw [eightbyteAt_eq]
  by_cases hint : .integer ∈ givenAt fields lo
  · obtain ⟨f, hf, hclass⟩ := List.mem_map.mp hint
    obtain ⟨hmem, hover⟩ := List.mem_filter.mp hf
    have hfirst : f ∈ fields.filter fun f => f.kind == .int :=
      List.mem_filter.mpr ⟨hmem, beq_iff_eq.mpr ((eightbyte_eq_integer f _).mp hclass)⟩
    have hints : ∀ c ∈ givenAt (fields.filter fun f => f.kind == .int) lo, c = .integer := by
      intro c hc
      obtain ⟨g, hg, rfl⟩ := List.mem_map.mp hc
      exact (eightbyte_eq_integer g _).mpr
        (beq_iff_eq.mp (List.mem_filter.mp (List.mem_filter.mp hg).1).2)
    have hne : givenAt (fields.filter fun f => f.kind == .int) lo ≠ [] :=
      List.ne_nil_of_mem (List.mem_map_of_mem (List.mem_filter.mpr ⟨hfirst, hover⟩))
    obtain ⟨c, rest, hcons⟩ := List.exists_cons_of_ne_nil hne
    have hc : c = .integer := hints c (by rw [hcons]; exact .head _)
    have hgiven : givenAt (integersFirst fields) lo =
        .integer :: (rest ++ givenAt (fields.filter fun f => !(f.kind == .int)) lo) := by
      rw [← List.cons_append, ← hc, ← hcons, integersFirst, givenAt_append]
    rw [hgiven, List.foldl_cons, mergedSet, decide_eq_true hint]
    refine foldl_merge_from_integer fun d hd => ?_
    exact hclasses (integersFirst fields) d (hgiven ▸ List.mem_cons_of_mem _ hd)
  · have hset := mem_givenAt_iff (@perm_integersFirst fields) lo
    have hcontest : contestedSet (givenAt (integersFirst fields) lo) = false := by
      rw [contestedSet_congr hset, contestedSet, decide_eq_false hint]
      rfl
    rw [foldl_merge_eq (hclasses _) hcontest, mergedSet_congr hset]

/-- In an eightbyte of the aggregate a byte of an integer leaf, an x87 class and a third class meet. -/
def Contested (size : ℕ) (fields : List FlatField) : Prop :=
  ∃ k < (size + 7) / 8, contestedSet (givenAt fields (8 * k)) = true

/-- Where the class of an aggregate goes to memory. -/
def memoryClass (isReturn : Bool) : AggClass := if isReturn then .returnIndirect else .byStack

lemma classifySysv_congr {fields' : List FlatField} {isReturn : Bool} (hperm : fields'.Perm fields)
    (hbytes : eightbytesOf size fields' = eightbytesOf size fields) :
    classifySysv size fields' isReturn = classifySysv size fields isReturn := by
  have hany : (fields'.any fun f => f.singleFpVector || f.offset % max f.align 1 != 0) =
      fields.any fun f => f.singleFpVector || f.offset % max f.align 1 != 0 := hperm.any_eq
  unfold eightbytesOf at hbytes
  unfold classifySysv
  rw [hbytes, hany]

/-- An eightbyte sent to memory takes the aggregate with it. -/
lemma classifySysv_of_memory {isReturn : Bool} (h : .memory ∈ eightbytesOf size fields) :
    classifySysv size fields isReturn = memoryClass isReturn := by
  have hsize : size ≠ 0 := by
    rintro rfl
    exact absurd h List.not_mem_nil
  unfold eightbytesOf at h
  unfold classifySysv
  dsimp only
  rw [if_neg hsize]
  split
  · rfl
  · rw [if_pos (.inl h)]
    rfl

/-- The class of an aggregate does not depend on the order of its leaves, where there is no contest. -/
lemma classifySysv_perm {fields' : List FlatField} (hperm : fields'.Perm fields)
    (hcontest : ¬ Contested size fields) (isReturn : Bool) :
    classifySysv size fields' isReturn = classifySysv size fields isReturn := by
  refine classifySysv_congr hperm (List.map_congr_left fun k hk => ?_)
  have hset := mem_givenAt_iff hperm (8 * k)
  have hnone : contestedSet (givenAt fields (8 * k)) = false :=
    Bool.eq_false_iff.mpr fun h => hcontest ⟨k, List.mem_range.mp hk, h⟩
  have hnone' : contestedSet (givenAt fields' (8 * k)) = false :=
    (contestedSet_congr hset).trans hnone
  rw [eightbyteAt_eq, eightbyteAt_eq, foldl_merge_eq (fun c hc => givenAt_subset hc) hnone,
    foldl_merge_eq (fun c hc => givenAt_subset hc) hnone', mergedSet_congr hset]

/-- Some order of the leaves sends a contested aggregate to memory. -/
lemma exists_perm_memory (hcontest : Contested size fields) :
    ∃ fields', fields'.Perm fields ∧ .memory ∈ eightbytesOf size fields' := by
  obtain ⟨k, hk, hset⟩ := hcontest
  have hpick : ∀ l : List Eightbyte, contestedSet l = true →
      ∃ c ∈ l, ∃ d ∈ l, (Eightbyte.noClass.merge c).merge d = .memory := by
    intro l h
    simp only [contestedSet, contest, Bool.and_eq_true, Bool.or_eq_true, decide_eq_true_eq] at h
    obtain ⟨⟨-, hx⟩, (hs | hs) | ⟨hx0, hx1⟩⟩ := h
    · rcases hx with hx | hx
      · exact ⟨_, hx, _, hs, rfl⟩
      · exact ⟨_, hx, _, hs, rfl⟩
    · rcases hx with hx | hx
      · exact ⟨_, hx, _, hs, rfl⟩
      · exact ⟨_, hx, _, hs, rfl⟩
    · exact ⟨_, hx0, _, hx1, rfl⟩
  obtain ⟨c, hc, d, hd, hmerge⟩ := hpick _ hset
  obtain ⟨f, hf, rfl⟩ := List.mem_map.mp hc
  obtain ⟨g, hg, rfl⟩ := List.mem_map.mp hd
  have hne : g ≠ f := by
    rintro rfl
    have hleaf : ∀ c ∈ leafClasses, (Eightbyte.noClass.merge c).merge c ≠ .memory := by decide
    exact hleaf _ (g.eightbyte_mem _) hmerge
  obtain ⟨hfmem, hfover⟩ := List.mem_filter.mp hf
  obtain ⟨hgmem, hgover⟩ := List.mem_filter.mp hg
  have hperm : (f :: g :: (fields.erase f).erase g).Perm fields :=
    ((List.perm_cons_erase ((List.mem_erase_of_ne hne).mpr hgmem)).symm.cons f).trans
      (List.perm_cons_erase hfmem).symm
  refine ⟨_, hperm, List.mem_map.mpr ⟨k, List.mem_range.mpr hk, ?_⟩⟩
  rw [eightbyteAt_eq, givenAt_cons hfover, givenAt_cons hgover, List.foldl_cons, List.foldl_cons, hmerge]
  exact foldl_merge_memory _

/-- An aggregate with the integers first goes to memory only where it does in every order. -/
lemma classifySysv_of_integersFirst {fields' : List FlatField} {isReturn : Bool}
    (hperm : fields'.Perm fields)
    (h : classifySysv size (integersFirst fields) isReturn = memoryClass isReturn) :
    classifySysv size fields' isReturn = memoryClass isReturn := by
  by_cases hmemory : .memory ∈ eightbytesOf size fields'
  · exact classifySysv_of_memory hmemory
  · rw [← h]
    refine classifySysv_congr (hperm.trans perm_integersFirst.symm)
      (List.map_congr_left fun k hk => ?_)
    rw [eightbyteAt_integersFirst]
    rw [← mergedSet_congr (mem_givenAt_iff hperm (8 * k)), eightbyteAt_eq]
    refine (foldl_merge_eq_or fun c hc => givenAt_subset hc).resolve_right fun hm => ?_
    rw [← eightbyteAt_eq] at hm
    exact hmemory (List.mem_map.mpr ⟨k, hk, hm⟩)

/-- Every order of the leaves gives the same class, but for a contested aggregate that has registers
with its integers first. -/
lemma orderFree_iff {isReturn : Bool} :
    (∀ fields', fields'.Perm fields →
      classifySysv size fields' isReturn = classifySysv size fields isReturn) ↔
    (Contested size fields →
      classifySysv size (integersFirst fields) isReturn = memoryClass isReturn) := by
  constructor
  · intro h hcontest
    obtain ⟨fields', hperm, hmemory⟩ := exists_perm_memory hcontest
    rw [h _ perm_integersFirst, ← h _ hperm, classifySysv_of_memory hmemory]
  · intro h fields' hperm
    by_cases hcontest : Contested size fields
    · rw [classifySysv_of_integersFirst hperm (h hcontest),
        classifySysv_of_integersFirst (List.Perm.refl _) (h hcontest)]
    · exact classifySysv_perm hperm hcontest isReturn

end Badc.Abi
