import Mathlib.Data.Finset.Basic
import Mathlib.Data.List.Basic

/-!
# Hidesets

The hideset operations of `src/c5/preprocessor/expand.rs`.  The sets of one line share a pool: a
set is a sorted run of name ids in it, and its id is the place of the run in a list of spans, `0`
for the empty set.  Name ids are handed out in the order the names are first hidden.

A set stands for the names it contains.  Every operation only adds to the arena, so what a set
stands for never changes (`Extends.contains_iff`), and each computes the set operation it names:
`made_hsWithName`, `made_hsIntersect`, `made_hsUnion`.
-/

namespace Badc

namespace Preprocessor

/-- The characters of a token. -/
abbrev Spelling := List Char

/-- The storage of the hidesets: the pool of name ids, the span of each set in it, and the names
in the order of their ids. -/
structure Arena where
  pool : List ℕ := []
  spans : List (ℕ × ℕ) := []
  names : List Spelling := []
  deriving DecidableEq

namespace Arena

variable (a : Arena)

/-- The name ids of a set. -/
def run : ℕ → List ℕ
  | 0 => []
  | k + 1 =>
    match a.spans[k]? with
    | none => []
    | some (start, len) => (a.pool.drop start).take len

/-- The id of a name that has been hidden. -/
def nameId (name : Spelling) : Option ℕ := a.names.idxOf? name

/-- Close the run appended to the pool since `start` as a new set. -/
def closeSet (start : ℕ) : Arena × ℕ :=
  let len := a.pool.length - start
  if len = 0 then (a, 0)
  else ({ a with spans := a.spans ++ [(start, len)] }, a.spans.length + 1)

/-- Append a run to the pool and close it. -/
def pushRun (r : List ℕ) : Arena × ℕ :=
  closeSet { a with pool := a.pool ++ r } a.pool.length

/-- Whether a set holds a name. -/
def hsContains (hs : ℕ) (name : Spelling) : Bool :=
  hs != 0 && (a.nameId name).any fun id => id ∈ a.run hs

/-- The common ids of two sorted runs, in one walk over both. -/
def intersectRuns : ℕ → List ℕ → List ℕ → List ℕ
  | fuel + 1, x :: xs, y :: ys =>
    (if x = y then [x] else []) ++
      intersectRuns fuel (if x ≤ y then xs else x :: xs) (if y ≤ x then ys else y :: ys)
  | _, _, _ => []

/-- The ids of two sorted runs, in one walk over both. -/
def unionRuns : ℕ → List ℕ → List ℕ → List ℕ
  | fuel + 1, x :: xs, y :: ys =>
    min x y :: unionRuns fuel (if x ≤ y then xs else x :: xs) (if y ≤ x then ys else y :: ys)
  | _, xs, ys => xs ++ ys

/-- The set both sets hold. -/
def hsIntersect (x y : ℕ) : Arena × ℕ :=
  if x = 0 ∨ y = 0 then (a, 0)
  else if x = y then (a, x)
  else a.pushRun (intersectRuns ((a.run x).length + (a.run y).length) (a.run x) (a.run y))

/-- The set that holds what either does. -/
def hsUnion (x y : ℕ) : Arena × ℕ :=
  a.pushRun (unionRuns ((a.run x).length + (a.run y).length) (a.run x) (a.run y))

/-- The id of a name, handed out where it has none. -/
def internName (name : Spelling) : Arena × ℕ :=
  match a.nameId name with
  | some id => (a, id)
  | none => ({ a with names := a.names ++ [name] }, a.names.length)

/-- The set with one more name. -/
def hsWithName (hs : ℕ) (name : Spelling) : Arena × ℕ :=
  let (b, id) := a.internName name
  if hs = 0 then b.pushRun [id]
  else if id ∈ b.run hs then (b, hs)
  else
    let place := ((b.run hs).takeWhile (· < id)).length
    b.pushRun ((b.run hs).take place ++ [id] ++ (b.run hs).drop place)

/-! ## Well-formed storage -/

/-- Runs lie in the pool, are sorted, and hold ids of names; a name has one id. -/
structure Valid : Prop where
  spans : ∀ s ∈ a.spans, s.1 + s.2 ≤ a.pool.length
  sorted : ∀ hs, (a.run hs).Pairwise (· < ·)
  ids : ∀ hs, ∀ id ∈ a.run hs, id < a.names.length
  nodup : a.names.Nodup

/-- `b` holds everything `a` does, under the same ids. -/
structure Extends (a b : Arena) : Prop where
  pool : a.pool <+: b.pool
  spans : a.spans <+: b.spans
  names : a.names <+: b.names

variable {a} {b c : Arena}

lemma Extends.refl (a : Arena) : Extends a a :=
  ⟨List.prefix_refl _, List.prefix_refl _, List.prefix_refl _⟩

lemma Extends.trans (h : Extends a b) (h' : Extends b c) : Extends a c :=
  ⟨h.pool.trans h'.pool, h.spans.trans h'.spans, h.names.trans h'.names⟩

lemma valid_empty (names : List Spelling) (h : names.Nodup) : Valid { names := names } where
  spans := by simp
  sorted hs := by cases hs <;> simp [run]
  ids hs := by cases hs <;> simp [run]
  nodup := h

/-- A set keeps its ids. -/
lemma Extends.run_eq (ha : a.Valid) (h : Extends a b) {hs : ℕ} (hhs : hs ≤ a.spans.length) :
    b.run hs = a.run hs := by
  cases hs with
  | zero => rfl
  | succ k =>
    have hk : a.spans[k]? = some a.spans[k] := List.getElem?_eq_getElem hhs
    have hk' : b.spans[k]? = some a.spans[k] := by
      obtain ⟨rest, hrest⟩ := h.spans
      rw [← hrest, List.getElem?_append_left hhs, hk]
    have hin := ha.spans _ (List.getElem_mem hhs)
    obtain ⟨rest, hrest⟩ := h.pool
    simp only [run, hk, hk']
    rw [← hrest, List.drop_append_of_le_length (by omega),
      List.take_append_of_le_length (by rw [List.length_drop]; omega)]

/-- The id of a name is its place. -/
lemma Valid.nameId_eq_some (ha : a.Valid) {name : Spelling} {id : ℕ} :
    a.nameId name = some id ↔ a.names[id]? = some name := by
  rw [nameId, List.idxOf?_eq_some_iff, List.getElem?_eq_some_iff]
  constructor
  · rintro ⟨hlt, hget, -⟩
    exact ⟨hlt, hget⟩
  · rintro ⟨hlt, hget⟩
    refine ⟨hlt, hget, fun j hj hsame => ?_⟩
    have := ha.nodup.getElem_inj_iff.mp (hsame.trans hget.symm)
    omega

/-- A set holds the names of its ids. -/
lemma Valid.contains_iff (ha : a.Valid) {hs : ℕ} {name : Spelling} :
    a.hsContains hs name = true ↔ ∃ id ∈ a.run hs, a.names[id]? = some name := by
  have hzero : (∃ id ∈ a.run hs, a.names[id]? = some name) → hs ≠ 0 := by
    rintro ⟨id, hid, -⟩ rfl
    cases hid
  rw [hsContains, Bool.and_eq_true, bne_iff_ne, Option.any_eq_true]
  constructor
  · rintro ⟨-, id, hname, hid⟩
    exact ⟨id, of_decide_eq_true hid, ha.nameId_eq_some.mp hname⟩
  · rintro ⟨id, hid, hname⟩
    exact ⟨hzero ⟨id, hid, hname⟩, id, ha.nameId_eq_some.mpr hname, decide_eq_true hid⟩

lemma Extends.getElem?_names (h : Extends a b) {id : ℕ} (hid : id < a.names.length) :
    b.names[id]? = a.names[id]? := by
  obtain ⟨rest, hrest⟩ := h.names
  rw [← hrest, List.getElem?_append_left hid]

lemma Extends.contains_iff (ha : a.Valid) (hb : b.Valid) (h : Extends a b) {hs : ℕ}
    (hhs : hs ≤ a.spans.length) {name : Spelling} :
    b.hsContains hs name = true ↔ a.hsContains hs name = true := by
  rw [hb.contains_iff, ha.contains_iff, h.run_eq ha hhs]
  refine exists_congr fun id => and_congr_right fun hid => ?_
  rw [h.getElem?_names (ha.ids hs id hid)]

/-! ## The operations -/

/-- `b` is `a` with a set `hs` that holds the names `holds` says. -/
structure Made (a b : Arena) (hs : ℕ) (holds : Spelling → Prop) : Prop where
  extend : Extends a b
  valid : b.Valid
  bound : hs ≤ b.spans.length
  contains : ∀ name, b.hsContains hs name = true ↔ holds name

/-- A run that is pushed is the run of the new set. -/
lemma pushRun_spec (ha : a.Valid) {r : List ℕ} (hr : r.Pairwise (· < ·))
    (hids : ∀ id ∈ r, id < a.names.length) :
    Extends a (a.pushRun r).1 ∧ (a.pushRun r).1.Valid ∧
      (a.pushRun r).2 ≤ (a.pushRun r).1.spans.length ∧
      (a.pushRun r).1.run (a.pushRun r).2 = r ∧ (a.pushRun r).1.names = a.names := by
  have hlen : (a.pool ++ r).length - a.pool.length = r.length := by
    rw [List.length_append, Nat.add_sub_cancel_left]
  have hgrown : Extends a { a with pool := a.pool ++ r } :=
    ⟨List.prefix_append _ _, List.prefix_refl _, List.prefix_refl _⟩
  have hrun : ∀ hs, ({ a with pool := a.pool ++ r } : Arena).run hs = a.run hs := by
    intro hs
    by_cases hhs : hs ≤ a.spans.length
    · exact hgrown.run_eq ha hhs
    · obtain ⟨k, rfl⟩ := Nat.exists_eq_succ_of_ne_zero (by omega : hs ≠ 0)
      have hk : a.spans[k]? = none := List.getElem?_eq_none (by omega)
      simp only [run, hk]
  unfold pushRun closeSet
  by_cases hnil : r.length = 0
  · obtain rfl := List.length_eq_zero_iff.mp hnil
    simp only [hlen, if_pos hnil]
    refine ⟨hgrown, ⟨?_, ?_, ?_, ha.nodup⟩, Nat.zero_le _, rfl, trivial⟩
    · simpa using ha.spans
    · exact fun hs => by rw [hrun]; exact ha.sorted hs
    · exact fun hs => by rw [hrun]; exact ha.ids hs
  · simp only [hlen, if_neg hnil]
    set b : Arena := { a with
      pool := a.pool ++ r, spans := a.spans ++ [(a.pool.length, r.length)] } with hb
    have hext : Extends a b :=
      ⟨List.prefix_append _ _, List.prefix_append _ _, List.prefix_refl _⟩
    have hnew : b.run (a.spans.length + 1) = r := by
      have hget : b.spans[a.spans.length]? = some (a.pool.length, r.length) := by
        rw [hb, List.getElem?_append_right le_rfl, Nat.sub_self]
        rfl
      simp only [run, hget]
      rw [hb, List.drop_left, List.take_length]
    have hcase : ∀ hs, b.run hs = a.run hs ∨ b.run hs = r ∨ b.run hs = [] := by
      intro hs
      rcases Nat.lt_or_ge a.spans.length hs with hlt | hge
      · obtain ⟨k, rfl⟩ := Nat.exists_eq_succ_of_ne_zero (by omega : hs ≠ 0)
        rcases Nat.eq_or_lt_of_le (Nat.le_of_lt_succ hlt) with rfl | hlt'
        · exact Or.inr (Or.inl hnew)
        · have hk : b.spans[k]? = none := List.getElem?_eq_none (by simp [hb]; omega)
          exact Or.inr (Or.inr (by simp only [run, hk]))
      · exact Or.inl (hext.run_eq ha hge)
    refine ⟨hext, ⟨?_, ?_, ?_, ha.nodup⟩, by simp, hnew, trivial⟩
    · intro s hs
      rcases List.mem_append.mp hs with hs | hs
      · have := ha.spans s hs
        rw [hb, List.length_append]
        omega
      · obtain rfl := List.mem_singleton.mp hs
        rw [hb, List.length_append]
    · intro hs
      rcases hcase hs with hrun | hrun | hrun <;> rw [hrun]
      · exact ha.sorted hs
      · exact hr
      · exact List.Pairwise.nil
    · intro hs id hid
      rcases hcase hs with hrun | hrun | hrun <;> rw [hrun] at hid
      · exact ha.ids hs id hid
      · exact hids id hid
      · cases hid

lemma made_pushRun (ha : a.Valid) {r : List ℕ} (hr : r.Pairwise (· < ·))
    (hids : ∀ id ∈ r, id < a.names.length) : Made a (a.pushRun r).1 (a.pushRun r).2
      fun name => ∃ id ∈ r, a.names[id]? = some name := by
  obtain ⟨hext, hvalid, hbound, hrun, hnames⟩ := pushRun_spec ha hr hids
  refine ⟨hext, hvalid, hbound, fun name => ?_⟩
  rw [hvalid.contains_iff, hrun, hnames]

/-- A walk over two runs picks from the first. -/
lemma intersectRuns_sublist {fuel : ℕ} {xs ys : List ℕ} :
    (intersectRuns fuel xs ys).Sublist xs := by
  induction fuel generalizing xs ys with
  | zero => simp [intersectRuns]
  | succ fuel ih =>
    cases xs with
    | nil => simp [intersectRuns]
    | cons x xs =>
      cases ys with
      | nil => simp [intersectRuns]
      | cons y ys =>
        rw [intersectRuns]
        rcases lt_trichotomy x y with hlt | rfl | hgt
        · rw [if_neg hlt.ne, if_pos hlt.le, if_neg (not_le.mpr hlt)]
          exact ih.cons x
        · rw [if_pos rfl, if_pos le_rfl, if_pos le_rfl]
          exact ih.cons_cons x
        · rw [if_neg hgt.ne', if_neg (not_le.mpr hgt), if_pos hgt.le]
          exact ih

/-- The walk finds the common ids. -/
lemma mem_intersectRuns {fuel : ℕ} {xs ys : List ℕ} (hfuel : xs.length + ys.length ≤ fuel)
    (hxs : xs.Pairwise (· < ·)) (hys : ys.Pairwise (· < ·)) {id : ℕ} :
    id ∈ intersectRuns fuel xs ys ↔ id ∈ xs ∧ id ∈ ys := by
  induction fuel generalizing xs ys with
  | zero =>
    obtain rfl := List.length_eq_zero_iff.mp (by omega : xs.length = 0)
    simp [intersectRuns]
  | succ fuel ih =>
    cases xs with
    | nil => simp [intersectRuns]
    | cons x xs =>
      cases ys with
      | nil => simp [intersectRuns]
      | cons y ys =>
        obtain ⟨hx, hxs'⟩ := List.pairwise_cons.mp hxs
        obtain ⟨hy, hys'⟩ := List.pairwise_cons.mp hys
        simp only [List.length_cons] at hfuel
        rw [intersectRuns]
        rcases lt_trichotomy x y with hlt | rfl | hgt
        · have hnot : x ∉ y :: ys := by
            rw [List.mem_cons, not_or]
            exact ⟨hlt.ne, fun hmem => absurd (hy x hmem) (by omega)⟩
          rw [if_neg hlt.ne, if_pos hlt.le, if_neg (not_le.mpr hlt), List.nil_append,
            ih (by simp; omega) hxs' hys, List.mem_cons (a := id) (b := x)]
          constructor
          · exact fun h => ⟨Or.inr h.1, h.2⟩
          · rintro ⟨rfl | h, h'⟩
            · exact absurd h' hnot
            · exact ⟨h, h'⟩
        · have hnot : x ∉ xs := fun hmem => absurd (hx x hmem) (lt_irrefl x)
          rw [if_pos rfl, if_pos le_rfl, if_pos le_rfl, List.singleton_append, List.mem_cons,
            ih (by omega) hxs' hys', List.mem_cons, List.mem_cons]
          constructor
          · rintro (h | h)
            · exact ⟨Or.inl h, Or.inl h⟩
            · exact ⟨Or.inr h.1, Or.inr h.2⟩
          · rintro ⟨h | h, h' | h'⟩
            · exact Or.inl h
            · exact Or.inl h
            · exact Or.inl h'
            · exact Or.inr ⟨h, h'⟩
        · have hnot : y ∉ x :: xs := by
            rw [List.mem_cons, not_or]
            exact ⟨hgt.ne, fun hmem => absurd (hx y hmem) (by omega)⟩
          rw [if_neg hgt.ne', if_neg (not_le.mpr hgt), if_pos hgt.le, List.nil_append,
            ih (by simp; omega) hxs hys', List.mem_cons (a := id) (b := y)]
          constructor
          · exact fun h => ⟨h.1, Or.inr h.2⟩
          · rintro ⟨h, rfl | h'⟩
            · exact absurd h hnot
            · exact ⟨h, h'⟩

/-- The walk finds the ids of both runs. -/
lemma mem_unionRuns {fuel : ℕ} {xs ys : List ℕ} (hfuel : xs.length + ys.length ≤ fuel) {id : ℕ} :
    id ∈ unionRuns fuel xs ys ↔ id ∈ xs ∨ id ∈ ys := by
  induction fuel generalizing xs ys with
  | zero => simp [unionRuns]
  | succ fuel ih =>
    cases xs with
    | nil => simp [unionRuns]
    | cons x xs =>
      cases ys with
      | nil => simp [unionRuns]
      | cons y ys =>
        simp only [List.length_cons] at hfuel
        rw [unionRuns, List.mem_cons]
        rcases lt_trichotomy x y with hlt | rfl | hgt
        · rw [if_pos hlt.le, if_neg (not_le.mpr hlt), ih (by simp; omega), min_eq_left hlt.le,
            List.mem_cons (a := id) (b := x), or_assoc]
        · rw [if_pos le_rfl, if_pos le_rfl, ih (by omega), min_self, List.mem_cons, List.mem_cons]
          tauto
        · rw [if_neg (not_le.mpr hgt), if_pos hgt.le, ih (by simp; omega), min_eq_right hgt.le,
            List.mem_cons (a := id) (b := y)]
          tauto

/-- The walk keeps the order. -/
lemma pairwise_unionRuns {fuel : ℕ} {xs ys : List ℕ} (hfuel : xs.length + ys.length ≤ fuel)
    (hxs : xs.Pairwise (· < ·)) (hys : ys.Pairwise (· < ·)) :
    (unionRuns fuel xs ys).Pairwise (· < ·) := by
  induction fuel generalizing xs ys with
  | zero =>
    obtain rfl := List.length_eq_zero_iff.mp (by omega : xs.length = 0)
    simpa [unionRuns] using hys
  | succ fuel ih =>
    cases xs with
    | nil => simpa [unionRuns] using hys
    | cons x xs =>
      cases ys with
      | nil => simpa [unionRuns] using hxs
      | cons y ys =>
        obtain ⟨hx, hxs'⟩ := List.pairwise_cons.mp hxs
        obtain ⟨hy, hys'⟩ := List.pairwise_cons.mp hys
        simp only [List.length_cons] at hfuel
        rw [unionRuns]
        rcases lt_trichotomy x y with hlt | rfl | hgt
        · rw [if_pos hlt.le, if_neg (not_le.mpr hlt), min_eq_left hlt.le, List.pairwise_cons]
          refine ⟨fun id hid => ?_, ih (by simp; omega) hxs' hys⟩
          rcases (mem_unionRuns (by simp; omega)).mp hid with h | h
          · exact hx id h
          · rcases List.mem_cons.mp h with rfl | h
            · exact hlt
            · exact hlt.trans (hy id h)
        · rw [if_pos le_rfl, if_pos le_rfl, min_self, List.pairwise_cons]
          refine ⟨fun id hid => ?_, ih (by omega) hxs' hys'⟩
          rcases (mem_unionRuns (by omega)).mp hid with h | h
          · exact hx id h
          · exact hy id h
        · rw [if_neg (not_le.mpr hgt), if_pos hgt.le, min_eq_right hgt.le, List.pairwise_cons]
          refine ⟨fun id hid => ?_, ih (by simp; omega) hxs hys'⟩
          rcases (mem_unionRuns (by simp; omega)).mp hid with h | h
          · rcases List.mem_cons.mp h with rfl | h
            · exact hgt
            · exact hgt.trans (hx id h)
          · exact hy id h

/-- Two names with one id are one name. -/
lemma holds_both (ha : a.Valid) {x y : List ℕ} {name : Spelling} :
    (∃ id, (id ∈ x ∧ id ∈ y) ∧ a.names[id]? = some name) ↔
      (∃ id ∈ x, a.names[id]? = some name) ∧ ∃ id ∈ y, a.names[id]? = some name := by
  constructor
  · rintro ⟨id, ⟨hx, hy⟩, hname⟩
    exact ⟨⟨id, hx, hname⟩, id, hy, hname⟩
  · rintro ⟨⟨id, hx, hname⟩, id', hy, hname'⟩
    have hsame : id = id' := by
      have h := ha.nameId_eq_some.mpr hname
      rw [ha.nameId_eq_some.mpr hname'] at h
      exact (Option.some.inj h).symm
    subst hsame
    exact ⟨id, ⟨hx, hy⟩, hname⟩

/-- **The intersection** holds the names both sets hold. -/
theorem made_hsIntersect (ha : a.Valid) {x y : ℕ} (hx : x ≤ a.spans.length) :
    Made a (a.hsIntersect x y).1 (a.hsIntersect x y).2 fun name =>
      a.hsContains x name = true ∧ a.hsContains y name = true := by
  unfold hsIntersect
  by_cases hzero : x = 0 ∨ y = 0
  · rw [if_pos hzero]
    refine ⟨Extends.refl a, ha, Nat.zero_le _, fun name => ?_⟩
    rcases hzero with rfl | rfl <;> simp [hsContains]
  · rw [if_neg hzero]
    by_cases hxy : x = y
    · rw [if_pos hxy]
      exact ⟨Extends.refl a, ha, hx, fun name => by rw [hxy, and_self]⟩
    · rw [if_neg hxy]
      have hsub : (intersectRuns ((a.run x).length + (a.run y).length) (a.run x)
          (a.run y)).Sublist (a.run x) := intersectRuns_sublist
      obtain ⟨hext, hvalid, hbound, hcontains⟩ := made_pushRun ha ((ha.sorted x).sublist hsub)
        fun id hid => ha.ids x id (hsub.subset hid)
      refine ⟨hext, hvalid, hbound, fun name => (hcontains name).trans ?_⟩
      simp only [mem_intersectRuns le_rfl (ha.sorted x) (ha.sorted y)]
      rw [holds_both ha, ha.contains_iff, ha.contains_iff]

/-- **The union** holds the names either set holds. -/
theorem made_hsUnion (ha : a.Valid) {x y : ℕ} :
    Made a (a.hsUnion x y).1 (a.hsUnion x y).2 fun name =>
      a.hsContains x name = true ∨ a.hsContains y name = true := by
  obtain ⟨hext, hvalid, hbound, hcontains⟩ := made_pushRun ha
    (pairwise_unionRuns le_rfl (ha.sorted x) (ha.sorted y)) fun id hid =>
      ((mem_unionRuns le_rfl).mp hid).elim (ha.ids x id) (ha.ids y id)
  refine ⟨hext, hvalid, hbound, fun name => (hcontains name).trans ?_⟩
  simp only [mem_unionRuns le_rfl, or_and_right, exists_or]
  rw [ha.contains_iff, ha.contains_iff]

/-- A name that is interned has its id. -/
lemma internName_spec (ha : a.Valid) (name : Spelling) :
    Extends a (a.internName name).1 ∧ (a.internName name).1.Valid ∧
      (a.internName name).1.names[(a.internName name).2]? = some name ∧
      (a.internName name).1.spans = a.spans ∧
      (a.internName name).1.names = (if name ∈ a.names then a.names else a.names ++ [name]) := by
  unfold internName
  cases hid : a.nameId name with
  | some id =>
    have hget := ha.nameId_eq_some.mp hid
    exact ⟨Extends.refl a, ha, hget, rfl, by rw [if_pos (List.mem_of_getElem? hget)]⟩
  | none =>
    have hnot : name ∉ a.names := List.idxOf?_eq_none_iff.mp hid
    have hrun : ∀ hs, ({ a with names := a.names ++ [name] } : Arena).run hs = a.run hs := by
      intro hs
      cases hs <;> rfl
    refine ⟨⟨List.prefix_refl _, List.prefix_refl _, List.prefix_append _ _⟩,
      ⟨ha.spans, fun hs => by rw [hrun]; exact ha.sorted hs, ?_, ?_⟩, by simp, rfl,
      by rw [if_neg hnot]⟩
    · intro hs id hid
      rw [hrun] at hid
      have := ha.ids hs id hid
      rw [List.length_append]
      omega
    · exact List.nodup_append.mpr ⟨ha.nodup, List.nodup_singleton _, fun x hx y hy => by
        obtain rfl := List.mem_singleton.mp hy
        exact fun hxy => hnot (hxy ▸ hx)⟩

/-- An id put where the search for it ends keeps a run sorted. -/
lemma splice_spec {r : List ℕ} {id : ℕ} (hr : r.Pairwise (· < ·)) (hnot : id ∉ r) :
    (r.take (r.takeWhile (· < id)).length ++ [id] ++
        r.drop (r.takeWhile (· < id)).length).Pairwise (· < ·) ∧
      ∀ k, k ∈ r.take (r.takeWhile (· < id)).length ++ [id] ++
        r.drop (r.takeWhile (· < id)).length ↔ k = id ∨ k ∈ r := by
  have hsplit : r.takeWhile (· < id) ++ r.dropWhile (· < id) = r :=
    List.takeWhile_append_dropWhile
  have htake : r.take (r.takeWhile (· < id)).length = r.takeWhile (· < id) :=
    (List.prefix_iff_eq_take.mp (List.takeWhile_prefix _)).symm
  have hdrop : r.drop (r.takeWhile (· < id)).length = r.dropWhile (· < id) := by
    have hleft : (r.takeWhile (· < id) ++ r.dropWhile (· < id)).drop
        (r.takeWhile (· < id)).length = r.dropWhile (· < id) := List.drop_left
    rw [hsplit] at hleft
    exact hleft
  have hbelow : ∀ k ∈ r.takeWhile (· < id), k < id := fun k hk =>
    of_decide_eq_true (List.all_eq_true.mp List.all_takeWhile k hk)
  have habove : ∀ k ∈ r.dropWhile (· < id), id < k := by
    intro k hk
    have hne : k ≠ id := fun h => hnot (h ▸ hsplit ▸ List.mem_append_right _ hk)
    cases hcase : r.dropWhile (· < id) with
    | nil =>
      rw [hcase] at hk
      cases hk
    | cons first rest =>
      -- the search ended at the first id that is not smaller
      have hfirst : ¬ first < id := by
        have hhead := List.head?_dropWhile_not (p := fun k => decide (k < id)) (l := r)
        rw [hcase] at hhead
        simpa using hhead
      rw [hcase] at hk
      have hsorted : (first :: rest).Pairwise (· < ·) :=
        hcase ▸ hr.sublist (List.dropWhile_sublist _)
      rcases List.mem_cons.mp hk with rfl | hk
      · omega
      · have := List.rel_of_pairwise_cons hsorted hk
        omega
  rw [htake, hdrop]
  constructor
  · rw [List.append_assoc, List.pairwise_append]
    refine ⟨hr.sublist (List.takeWhile_sublist _), List.pairwise_append.mpr
      ⟨List.pairwise_singleton _ _, hr.sublist (List.dropWhile_sublist _), ?_⟩, ?_⟩
    · intro x hx y hy
      obtain rfl := List.mem_singleton.mp hx
      exact habove y hy
    · intro x hx y hy
      rcases List.mem_append.mp hy with hy | hy
      · obtain rfl := List.mem_singleton.mp hy
        exact hbelow x hx
      · exact (hbelow x hx).trans (habove y hy)
  · intro k
    rw [List.mem_append, List.mem_append, List.mem_singleton]
    conv_rhs => rw [← hsplit]
    rw [List.mem_append]
    tauto

/-- **A set with one more name** holds that name and what it held. -/
theorem made_hsWithName (ha : a.Valid) {hs : ℕ} (hhs : hs ≤ a.spans.length) (name : Spelling) :
    Made a (a.hsWithName hs name).1 (a.hsWithName hs name).2 fun other =>
      other = name ∨ a.hsContains hs other = true := by
  obtain ⟨hext, hvalid, hname, hspans, -⟩ := internName_spec ha name
  unfold hsWithName
  set b := (a.internName name).1 with hb
  set id := (a.internName name).2 with hid
  have hlt : id < b.names.length := (List.getElem?_eq_some_iff.mp hname).1
  have hsame : ∀ other, b.names[id]? = some other ↔ other = name := fun other => by
    rw [hname, Option.some.injEq]
    exact eq_comm
  have hkeep : ∀ other, (∃ k ∈ b.run hs, b.names[k]? = some other) ↔
      a.hsContains hs other = true := fun other => by
    rw [← hvalid.contains_iff, hext.contains_iff ha hvalid hhs]
  simp only
  by_cases hzero : hs = 0
  · rw [if_pos hzero]
    obtain ⟨hext', hvalid', hbound, hcontains⟩ := made_pushRun hvalid
      (List.pairwise_singleton _ id) fun k hk => by
        obtain rfl := List.mem_singleton.mp hk
        exact hlt
    refine ⟨hext.trans hext', hvalid', hbound, fun other => (hcontains other).trans ?_⟩
    simp only [List.mem_singleton, exists_eq_left, hsame, hzero, hsContains]
    simp
  · rw [if_neg hzero]
    by_cases hmem : id ∈ b.run hs
    · rw [if_pos hmem]
      refine ⟨hext, hvalid, by rw [hspans]; exact hhs, fun other => ?_⟩
      rw [hext.contains_iff ha hvalid hhs, iff_or_self]
      rintro rfl
      exact (hkeep _).mp ⟨id, hmem, hname⟩
    · rw [if_neg hmem]
      obtain ⟨hpair, hmemiff⟩ := splice_spec (hvalid.sorted hs) hmem
      obtain ⟨hext', hvalid', hbound, hcontains⟩ := made_pushRun hvalid hpair fun k hk =>
        ((hmemiff k).mp hk).elim (fun h => h ▸ hlt) (hvalid.ids hs k)
      refine ⟨hext.trans hext', hvalid', hbound, fun other => (hcontains other).trans ?_⟩
      simp only [hmemiff, or_and_right, exists_or, exists_eq_left, hsame]
      exact or_congr Iff.rfl (hkeep other)

end Arena

end Preprocessor

end Badc
