import Mathlib.Data.List.ReduceOption
import Mathlib.Data.Option.Basic
import Mathlib.Tactic

/-!
# Combining claims in two stages

Sources are asked for a claim, and some are silent.  The claims are combined with an associative
operation, and a combined claim that is not worth keeping is dropped.  A claim can need one source
that makes it (`combineAny`), or every source (`combineAll`).

The sources may come in groups, each combined on its own first, where a dropped claim makes the whole
group silent.  `combineAll_map_iff` and `combineAny_map` say when this gives what combining all the
sources at once gives.
-/

namespace Badc

variable {P : Type*} (op : P → P → P) (keep : P → Bool)

/-- The claims of a list in one, if there is any. -/
def joined : List P → Option P
  | [] => none
  | p :: ps => some (ps.foldl op p)

/-- The combined claim of the sources that make one, where it is worth keeping. -/
def combineAny (xs : List (Option P)) : Option P := (joined op xs.reduceOption).filter keep

/-- The combined claim of sources that all make one, where it is worth keeping. -/
def combineAll (xs : List (Option P)) : Option P :=
  if xs.all Option.isSome then combineAny op keep xs else none

variable {op keep} {p q : P} {ps qs : List P} {pss : List (List P)} {xs : List (Option P)}
  {gs : List (List (Option P))}

lemma reduceOption_map {α : Type*} (f : α → Option P) (l : List α) :
    (l.map f).reduceOption = l.filterMap f := by
  rw [List.reduceOption, List.filterMap_map, Function.id_comp]

lemma filter_eq_self {o : Option P} (h : ∀ p, o = some p → keep p = true) : o.filter keep = o := by
  cases o with
  | none => rfl
  | some p => rw [Option.filter_some, if_pos (h p rfl)]

@[simp] lemma joined_nil : joined op [] = none := rfl

@[simp] lemma joined_cons : joined op (p :: ps) = some (ps.foldl op p) := rfl

@[simp] lemma joined_eq_none : joined op ps = none ↔ ps = [] := by
  cases ps <;> simp

/-- What holds of every claim and is kept by joining holds of the joined claim. -/
lemma joined_induction {I : P → Prop} (hop : ∀ a b, I a → I b → I (op a b))
    (hps : ∀ q ∈ ps, I q) (h : joined op ps = some p) : I p := by
  obtain _ | ⟨q, ps⟩ := ps
  · cases h
  rw [joined_cons, Option.some.injEq] at h
  subst h
  induction ps generalizing q with
  | nil => exact hps q (.head _)
  | cons r ps ih =>
    obtain ⟨hq, hps⟩ := List.forall_mem_cons.mp hps
    obtain ⟨hr, hps⟩ := List.forall_mem_cons.mp hps
    exact ih (op q r) (List.forall_mem_cons.mpr ⟨hop q r hq hr, hps⟩)

section Associative

variable [ha : Std.Associative op]

lemma foldl_op_op : ps.foldl op (op p q) = op p (ps.foldl op q) := by
  induction ps generalizing q with
  | nil => rfl
  | cons r ps ih => rw [List.foldl_cons, List.foldl_cons, ha.assoc, ih]

lemma joined_append (hp : joined op ps = some p) (hq : joined op qs = some q) :
    joined op (ps ++ qs) = some (op p q) := by
  obtain _ | ⟨p₀, ps⟩ := ps
  · cases hp
  obtain _ | ⟨q₀, qs⟩ := qs
  · cases hq
  rw [joined_cons, Option.some.injEq] at hp hq
  rw [List.cons_append, joined_cons, List.foldl_append, hp, List.foldl_cons, foldl_op_op, hq]

/-- Joining lists one by one and then their results is joining them at once. -/
lemma joined_flatten : joined op (pss.filterMap (joined op)) = joined op pss.flatten := by
  induction pss with
  | nil => rfl
  | cons ps pss ih =>
    rw [List.flatten_cons]
    cases hps : joined op ps with
    | none =>
      rw [joined_eq_none] at hps
      rw [List.filterMap_cons_none (by rw [hps, joined_nil]), ih, hps, List.nil_append]
    | some p =>
      rw [List.filterMap_cons_some hps]
      cases hrest : joined op pss.flatten with
      | none =>
        rw [hrest, joined_eq_none] at ih
        rw [joined_eq_none] at hrest
        rw [ih, hrest, List.append_nil, hps, joined_cons, List.foldl_nil]
      | some q =>
        rw [joined_append hps hrest]
        rw [hrest] at ih
        rw [← List.singleton_append, joined_append (by rw [joined_cons, List.foldl_nil]) ih]

/-- Where a combination is kept only if both its parts are, each part of a kept one is. -/
lemma keep_of_keep_joined (hkeep : ∀ a b, keep (op a b) → keep a ∧ keep b)
    (hp : joined op ps = some p) (hkp : keep p) : ∀ q ∈ ps, keep q := by
  induction ps generalizing p with
  | nil => cases hp
  | cons q ps ih =>
    rw [joined_cons, Option.some.injEq] at hp
    obtain _ | ⟨r, ps⟩ := ps
    · rw [List.foldl_nil] at hp
      simpa [hp] using hkp
    · rw [List.foldl_cons, foldl_op_op] at hp
      rw [← hp] at hkp
      obtain ⟨hq, hrest⟩ := hkeep _ _ hkp
      exact List.forall_mem_cons.mpr ⟨hq, ih joined_cons hrest⟩

lemma joined_groups :
    joined op (gs.filterMap fun g => joined op g.reduceOption) =
      joined op gs.flatten.reduceOption := by
  have hpss : joined op ((gs.map List.reduceOption).filterMap (joined op)) =
      joined op (gs.map List.reduceOption).flatten := joined_flatten
  rw [List.filterMap_map] at hpss
  rw [List.reduceOption, List.filterMap_flatten]
  exact hpss

/-- Nothing is dropped: combining in groups is combining at once. -/
theorem combineAny_map (op : P → P → P) [Std.Associative op] (gs : List (List (Option P)))
    (hkeep : ∀ p, keep p = true) :
    combineAny op keep (gs.map (combineAny op keep)) = combineAny op keep gs.flatten := by
  have hany (xs : List (Option P)) : combineAny op keep xs = joined op xs.reduceOption :=
    filter_eq_self fun p _ => hkeep p
  rw [hany, hany, reduceOption_map, ← joined_groups]
  simp only [hany]

/-- Sources that all make a claim: combining in groups is combining at once exactly when no group's
own claim is dropped where the claim of all is kept. -/
theorem combineAll_map_iff (op : P → P → P) (keep : P → Bool) [Std.Associative op]
    (gs : List (List (Option P))) (hgs : ∀ g ∈ gs, g ≠ []) :
    combineAll op keep (gs.map (combineAll op keep)) = combineAll op keep gs.flatten ↔
      (gs.flatten.all Option.isSome → ∀ p, joined op gs.flatten.reduceOption = some p → keep p →
        ∀ g ∈ gs, ∀ q, joined op g.reduceOption = some q → keep q) := by
  by_cases hall : gs.flatten.all Option.isSome
  · have hclaim : ∀ g ∈ gs, combineAll op keep g = (joined op g.reduceOption).filter keep := by
      intro g hg
      rw [combineAll, if_pos (List.all_eq_true.mpr fun x hx =>
        List.all_eq_true.mp hall x (List.mem_flatten_of_mem hg hx)), combineAny]
    have hsome : ∀ g ∈ gs, ∃ q, joined op g.reduceOption = some q := by
      intro g hg
      rw [← Option.ne_none_iff_exists', Ne, joined_eq_none]
      obtain ⟨x, hx⟩ := List.exists_mem_of_ne_nil g (hgs g hg)
      obtain ⟨q, rfl⟩ := Option.isSome_iff_exists.mp
        (List.all_eq_true.mp hall x (List.mem_flatten_of_mem hg hx))
      exact List.ne_nil_of_mem (List.reduceOption_mem_iff.mpr hx)
    rw [List.map_congr_left hclaim, combineAll, combineAll, if_pos hall]
    by_cases hkept : ∀ g ∈ gs, ∀ q, joined op g.reduceOption = some q → keep q
    · have hfilter : ∀ g ∈ gs,
          (joined op g.reduceOption).filter keep = joined op g.reduceOption := by
        intro g hg
        exact filter_eq_self fun q hq => hkept g hg q hq
      rw [if_pos, List.map_congr_left hfilter, combineAny, combineAny,
        reduceOption_map, ← joined_groups]
      · exact ⟨fun _ _ _ _ _ => hkept, fun _ => rfl⟩
      · rw [List.map_congr_left hfilter, List.all_map, List.all_eq_true]
        intro g hg
        obtain ⟨q, hq⟩ := hsome g hg
        rw [Function.comp_apply, hq, Option.isSome_some]
    · have hkept' := hkept
      push Not at hkept'
      obtain ⟨g, hg, q, hq, hkq⟩ := hkept'
      rw [if_neg, eq_comm, combineAny, Option.filter_eq_none_iff]
      · refine ⟨fun hnone _ p hp hkp => absurd hkp (hnone p hp), fun h p hp hkp => ?_⟩
        exact hkept (h hall p hp hkp)
      · rw [List.all_map, List.all_eq_true]
        intro hsomes
        have := hsomes g hg
        rw [Function.comp_apply, hq, Option.filter_some, if_neg hkq] at this
        cases this
  · rw [combineAll, combineAll, if_neg hall, if_neg]
    · exact ⟨fun _ h => absurd h hall, fun _ => rfl⟩
    · intro hsomes
      refine hall (List.all_eq_true.mpr fun x hx => ?_)
      obtain ⟨g, hg, hxg⟩ := List.mem_flatten.mp hx
      have := List.all_eq_true.mp hsomes _ (List.mem_map_of_mem hg)
      rw [combineAll] at this
      split at this
      · rename_i hg
        exact List.all_eq_true.mp hg x hxg
      · cases this

end Associative

end Badc
