import Badc.Linker.GnuPropertyMerge
import Badc.Linker.GnuPropertyWalk

/-!
# What a merged note states

The rules of the psABI said of the payloads that the inputs state: which bits a merged bit set has, which
number is the largest, when every input has to state a type.  A merge holds exactly the properties the
rules prescribe (`mem_merge_iff`), so the order of the inputs matters to nothing but the payload of a
property that has no value (`merge_perm`).
-/

namespace Badc.GnuProperty

variable {align ty : ℕ} {rule : Rule} {inputs inputs' : List Input} {notes : Input}
  {ds ds' : List (List Byte)} {xs ys : List (List (List Byte))} {c c' : Claim} {d d' : List Byte}

/-! ## The rules -/

/-- The lengths of payloads. -/
def lengths (ds : List (List Byte)) : Set ℕ := {n | ∃ p ∈ ds, p.length = n}

/-- The numbers in payloads. -/
def numbers (ds : List (List Byte)) : Set ℕ := {v | ∃ p ∈ ds, readLe p = v}

/-- A payload has a bit. -/
def HasBit (ds : List (List Byte)) (i : ℕ) : Prop := ∃ p ∈ ds, (readLe p).testBit i = true

/-- The payload a rule prescribes for inputs that state the payloads `xs`, each its own. -/
def Rule.Prescribes : Rule → List (List (List Byte)) → List Byte → Prop
  | .and, xs, d => IsGreatest (lengths xs.flatten) d.length ∧
      (∀ i, (readLe d).testBit i = true ↔ ∀ ds ∈ xs, HasBit ds i) ∧ readLe d ≠ 0
  | .or, xs, d => IsGreatest (lengths xs.flatten) d.length ∧
      (∀ i, (readLe d).testBit i = true ↔ HasBit xs.flatten i) ∧ readLe d ≠ 0
  | .orAnd, xs, d => (∀ ds ∈ xs, ds ≠ []) ∧ IsGreatest (lengths xs.flatten) d.length ∧
      (∀ i, (readLe d).testBit i = true ↔ HasBit xs.flatten i) ∧ readLe d ≠ 0
  | .max, xs, d => IsGreatest (lengths xs.flatten) d.length ∧ IsGreatest (numbers xs.flatten) (readLe d)
  | .present, xs, d => xs.flatten.head? = some d
  | .agree, xs, d => xs ≠ [] ∧ ∀ ds ∈ xs, ds ≠ [] ∧ ∀ p ∈ ds, p = d

/-! ## One input's claim -/

lemma lengths_append : lengths (ds ++ ds') = lengths ds ∪ lengths ds' := by
  ext n
  simp [lengths, or_and_right, exists_or]

lemma numbers_append : numbers (ds ++ ds') = numbers ds ∪ numbers ds' := by
  ext n
  simp [numbers, or_and_right, exists_or]

lemma hasBit_append {i : ℕ} : HasBit (ds ++ ds') i ↔ HasBit ds i ∨ HasBit ds' i := by
  simp [HasBit, or_and_right, exists_or]

/-- What the claim of one input says about the payloads it states. -/
def Own : Rule → List (List Byte) → Claim → Prop
  | .and, ds, c | .or, ds, c | .orAnd, ds, c =>
    IsGreatest (lengths ds) c.1.length ∧ ∀ i, (readLe c.1).testBit i = true ↔ HasBit ds i
  | .max, ds, c => IsGreatest (lengths ds) c.1.length ∧ IsGreatest (numbers ds) (readLe c.1)
  | .present, ds, c => ds.head? = some c.1
  | .agree, ds, c => ds.head? = some c.1 ∧ (c.2 = true ↔ ∃ p ∈ ds, p ≠ c.1)

/-- How an input's repeats of a type are joined: a bit it states anywhere is stated. -/
def Rule.within (rule : Rule) : Rule := if rule = .and then .or else rule

lemma isGreatest_singleton_of {s : Set ℕ} {n : ℕ} (h : s = {n}) : IsGreatest s n := h ▸ isGreatest_singleton

/-- A payload claims itself. -/
lemma own_singleton (rule : Rule) (d : List Byte) : Own rule [d] (d, false) := by
  have hlength : IsGreatest (lengths [d]) d.length := by
    refine isGreatest_singleton_of ?_
    ext n
    simp [lengths, eq_comm]
  cases rule with
  | and | or | orAnd => exact ⟨hlength, fun i => by simp [HasBit]⟩
  | max =>
    refine ⟨hlength, isGreatest_singleton_of ?_⟩
    ext n
    simp [numbers, eq_comm]
  | present => rfl
  | agree => exact ⟨rfl, by simp⟩

lemma length_numJoin_of_le {f : ℕ → ℕ → ℕ} (hd : d.length ≤ 8) (hd' : d'.length ≤ 8) :
    (numJoin f d d').length = max d.length d'.length := by
  rw [length_numJoin, min_eq_left (max_le hd hd')]

/-- Joined claims say of all the payloads what the claims say of theirs, where bits unite. -/
lemma own_append (hrule : rule ≠ .and)
    (hwide : rule.numeric = true → c.1.length ≤ 8 ∧ c'.1.length ≤ 8) (h : Own rule ds c)
    (h' : Own rule ds' c') : Own rule (ds ++ ds') (rule.join c c') := by
  cases rule with
  | and => exact absurd rfl hrule
  | or =>
    obtain ⟨hc, hc'⟩ := hwide rfl
    refine ⟨?_, fun i => ?_⟩
    · rw [lengths_append, Rule.join, length_numJoin_of_le hc hc']
      exact h.1.union h'.1
    · rw [Rule.join, readLe_numJoin fitsWidth_or, Nat.testBit_or, Bool.or_eq_true, h.2, h'.2,
        hasBit_append]
  | orAnd =>
    obtain ⟨hc, hc'⟩ := hwide rfl
    refine ⟨?_, fun i => ?_⟩
    · rw [lengths_append, Rule.join, length_numJoin_of_le hc hc']
      exact h.1.union h'.1
    · rw [Rule.join, readLe_numJoin fitsWidth_or, Nat.testBit_or, Bool.or_eq_true, h.2, h'.2,
        hasBit_append]
  | max =>
    obtain ⟨hc, hc'⟩ := hwide rfl
    refine ⟨?_, ?_⟩
    · rw [lengths_append, Rule.join, length_numJoin_of_le hc hc']
      exact h.1.union h'.1
    · rw [numbers_append, Rule.join, readLe_numJoin fitsWidth_max]
      exact h.2.union h'.2
  | present =>
    have hhead : ds.head? = some c.1 := h
    change (ds ++ ds').head? = some c.1
    rw [List.head?_append, hhead]
    rfl
  | agree =>
    obtain ⟨hhead, hconf⟩ := h
    obtain ⟨hhead', hconf'⟩ := h'
    refine ⟨by rw [List.head?_append, hhead]; rfl, ?_⟩
    have hmem' : c'.1 ∈ ds' := List.mem_of_head? hhead'
    simp only [Rule.join, Bool.or_eq_true, hconf, hconf', decide_eq_true_eq, List.mem_append]
    constructor
    · rintro ((⟨p, hp, hne⟩ | hne) | ⟨p, hp, hne⟩)
      · exact ⟨p, .inl hp, hne⟩
      · exact ⟨c'.1, .inr hmem', Ne.symm hne⟩
      · by_cases hsame : c.1 = c'.1
        · exact ⟨p, .inr hp, by rwa [hsame]⟩
        · exact ⟨c'.1, .inr hmem', Ne.symm hsame⟩
    · rintro ⟨p, hp | hp, hne⟩
      · exact .inl (.inl ⟨p, hp, hne⟩)
      · by_cases hsame : c.1 = c'.1
        · exact .inr ⟨p, hp, by rwa [← hsame]⟩
        · exact .inl (.inr hsame)

lemma fold_claim (a : Acc) (data : List Byte) :
    (a.fold data true).claim = a.rule.within.join a.claim (data, false) := by
  obtain ⟨r, d, seen, conflict⟩ := a
  cases r <;> exact Prod.ext rfl (Bool.or_false _).symm

lemma own_within : Own rule.within ds c ↔ Own rule ds c := by
  cases rule <;> rfl

lemma within_ne_and : rule.within ≠ .and := by
  cases rule <;> decide

lemma within_numeric : rule.within.numeric = rule.numeric := by
  cases rule <;> rfl

/-- **An input's claim says of the payloads it states what the rule wants to know.** -/
theorem own_claimOf (h : claimOf align ty notes = some c) : Own (ruleFor ty) (stated align ty notes) c := by
  obtain ⟨acc, hacc, rfl⟩ := Option.map_eq_some_iff.mp h
  rw [getElem?_ownAccs] at hacc
  have hwide : ∀ d ∈ stated align ty notes, (ruleFor ty).numeric = true → d.length ≤ 8 :=
    fun d hd hrule => length_of_mem_stated hrule hd
  -- The payloads are added one after the other behind those that were added.
  have hrun : ∀ (ds pre : List (List Byte)) (a : Acc), (∀ d ∈ ds, (ruleFor ty).numeric = true → d.length ≤ 8) →
      a.rule = ruleFor ty → ((ruleFor ty).numeric = true → a.data.length ≤ 8) →
      Own (ruleFor ty) pre a.claim → ∀ acc, ds.foldl (addPayload (ruleFor ty)) (some a) = some acc →
      Own (ruleFor ty) (pre ++ ds) acc.claim := by
    intro ds
    induction ds with
    | nil =>
      intro pre a _ _ _ hown acc hacc
      cases hacc
      rwa [List.append_nil]
    | cons d ds ih =>
      intro pre a hds hrule hlength hown acc hacc
      have hd := hds d (.head _)
      have hclaim := fold_claim a d
      rw [hrule] at hclaim
      have hjoined : Own (ruleFor ty) (pre ++ [d]) (a.fold d true).claim := by
        rw [hclaim, ← own_within]
        refine own_append within_ne_and (fun hnum => ?_) (own_within.mpr hown)
          (own_within.mpr (own_singleton _ d))
        rw [within_numeric] at hnum
        exact ⟨hlength hnum, hd hnum⟩
      have hfits : (ruleFor ty).numeric = true → (a.fold d true).data.length ≤ 8 := by
        intro hnum
        obtain ⟨r, data, seen, conflict⟩ := a
        have hdata : data.length ≤ 8 := hlength hnum
        cases r with
        | present | agree => exact hdata
        | and | or | orAnd | max => exact length_leBytesOf.trans_le (min_le_right _ _)
      have := ih (pre ++ [d]) (a.fold d true) (fun e he => hds e (.tail _ he))
        ((fold_rule_seen a d true).1.trans hrule) hfits hjoined acc hacc
      rwa [List.append_assoc] at this
  cases hstated : stated align ty notes with
  | nil =>
    rw [hstated] at hacc
    cases hacc
  | cons d ds =>
    rw [hstated] at hacc hwide
    exact hrun ds [d] ⟨ruleFor ty, d, 1, false⟩ (fun e he => hwide e (.tail _ he)) rfl
      (hwide d (.head _)) (own_singleton _ d) acc hacc

/-- An input claims a type when it states a payload of it. -/
lemma claimOf_eq_none : claimOf align ty notes = none ↔ stated align ty notes = [] := by
  rw [claimOf, getElem?_ownAccs, Option.map_eq_none_iff]
  constructor
  · intro h
    cases hstated : stated align ty notes with
    | nil => rfl
    | cons d ds =>
      rw [hstated] at h
      have hrun : ∀ (ds : List (List Byte)) (a : Acc),
          ds.foldl (addPayload (ruleFor ty)) (some a) ≠ none := by
        intro ds
        induction ds with
        | nil => exact fun a h => by cases h
        | cons e ds ih => exact fun a => ih (a.fold e true)
      exact absurd h (hrun ds _)
  · intro h
    rw [h]
    rfl

/-! ## The inputs' claims -/

/-- What the joined claim says of the payloads that the inputs state. -/
def Joint (rule : Rule) (xs : List (List (List Byte))) (c : Claim) : Prop :=
  if rule = .and then
    IsGreatest (lengths xs.flatten) c.1.length ∧
      ∀ i, (readLe c.1).testBit i = true ↔ ∀ ds ∈ xs, HasBit ds i
  else Own rule xs.flatten c

/-- Another input's claim is joined. -/
lemma joint_append (hwide : rule.numeric = true → c.1.length ≤ 8 ∧ c'.1.length ≤ 8)
    (h : Joint rule xs c) (h' : Own rule ds c') : Joint rule (xs ++ [ds]) (rule.join c c') := by
  unfold Joint at h ⊢
  have hflat : (xs ++ [ds]).flatten = xs.flatten ++ ds := by simp
  rw [hflat]
  split
  · rename_i hand
    subst hand
    rw [if_pos rfl] at h
    obtain ⟨hc, hc'⟩ := hwide rfl
    refine ⟨?_, fun i => ?_⟩
    · rw [lengths_append, Rule.join, length_numJoin_of_le hc hc']
      exact h.1.union h'.1
    · rw [Rule.join, readLe_numJoin fitsWidth_and, Nat.testBit_and, Bool.and_eq_true, h.2, h'.2]
      simp [or_imp, forall_and]
  · rename_i hand
    rw [if_neg hand] at h
    exact own_append hand hwide h h'

lemma joint_singleton (h : Own rule ds c) : Joint rule [ds] c := by
  unfold Joint
  rw [List.flatten_singleton]
  split
  · rename_i hand
    subst hand
    exact ⟨h.1, fun i => by rw [h.2]; simp⟩
  · exact h

/-- **The joined claim says of all the payloads what the rule wants to know.** -/
theorem joint_joined {cs : List Claim} (h : List.Forall₂ (Own rule) xs cs)
    (hwide : rule.numeric = true → ∀ c ∈ cs, c.1.length ≤ 8) (hc : joined rule.join cs = some c) :
    Joint rule xs c := by
  have hrun : ∀ (ys : List (List (List Byte))) (cs : List Claim), List.Forall₂ (Own rule) ys cs →
      (rule.numeric = true → ∀ c ∈ cs, c.1.length ≤ 8) → ∀ (pre : List (List (List Byte))) (a : Claim),
      (rule.numeric = true → a.1.length ≤ 8) → Joint rule pre a →
      Joint rule (pre ++ ys) (cs.foldl rule.join a) := by
    intro ys cs h
    induction h with
    | nil =>
      intro _ pre a _ ha
      rwa [List.append_nil]
    | @cons y c' ys cs hown _ ih =>
      intro hwide pre a hlength ha
      have hc' : rule.numeric = true → c'.1.length ≤ 8 := fun hnum => hwide hnum c' (.head _)
      have hjoined := joint_append (fun hnum => ⟨hlength hnum, hc' hnum⟩) ha hown
      have hfits : rule.numeric = true → (rule.join a c').1.length ≤ 8 := by
        intro hnum
        cases rule with
        | and | or | orAnd | max => exact length_numJoin.trans_le (min_le_right _ _)
        | present | agree => exact hlength hnum
      have := ih (fun hnum c hc => hwide hnum c (.tail _ hc)) (pre ++ [y]) _ hfits hjoined
      rwa [List.append_assoc] at this
  cases h with
  | nil => cases hc
  | @cons y c₀ ys cs hown hrest =>
    rw [joined_cons, Option.some.injEq] at hc
    subst hc
    exact hrun ys cs hrest (fun hnum c hc => hwide hnum c (.tail _ hc)) [y] c₀
      (fun hnum => hwide hnum c₀ (.head _)) (joint_singleton hown)

/-! ## What the rules prescribe -/

lemma exists_bit (h : readLe d ≠ 0) : ∃ i, (readLe d).testBit i = true := by
  by_contra hnone
  refine h (Nat.eq_of_testBit_eq fun i => ?_)
  rw [Nat.zero_testBit]
  exact Bool.eq_false_iff.mpr fun hi => hnone ⟨i, hi⟩

lemma eq_of_length_bits (hd : d.length ≤ 8) (hlength : d.length = d'.length)
    (hbits : ∀ i, (readLe d).testBit i = true ↔ (readLe d').testBit i = true) : d = d' := by
  have hvalue : readLe d = readLe d' := Nat.eq_of_testBit_eq fun i => Bool.eq_iff_iff.mpr (hbits i)
  rw [← leBytesOf_readLe hd, hvalue, hlength, leBytesOf_readLe (hlength ▸ hd)]

lemma length_le_of_isGreatest (hwide : ∀ ds ∈ xs, ∀ p ∈ ds, p.length ≤ 8)
    (h : IsGreatest (lengths xs.flatten) d.length) : d.length ≤ 8 := by
  obtain ⟨p, hp, hlength⟩ := h.1
  obtain ⟨ds, hds, hp⟩ := List.mem_flatten.mp hp
  exact hlength ▸ hwide ds hds p hp

/-- The claims that are joined are of the inputs that state something. -/
lemma forall₂_own (inputs : List Input) :
    List.Forall₂ (Own (ruleFor ty)) ((inputs.map (stated align ty)).filter fun ds => ds ≠ [])
      (inputs.map (claimOf align ty)).reduceOption := by
  induction inputs with
  | nil => exact .nil
  | cons notes inputs ih =>
    rw [List.map_cons, List.map_cons]
    cases hclaim : claimOf align ty notes with
    | none =>
      rw [List.filter_cons_of_neg (by simp [claimOf_eq_none.mp hclaim]), List.reduceOption_cons_of_none]
      exact ih
    | some c =>
      have hne : stated align ty notes ≠ [] := fun hnil => by
        rw [claimOf_eq_none.mpr hnil] at hclaim
        cases hclaim
      rw [List.filter_cons_of_pos (by simpa using hne), List.reduceOption_cons_of_some]
      exact .cons (own_claimOf hclaim) ih

lemma joint_inputs (h : joined (ruleFor ty).join (inputs.map (claimOf align ty)).reduceOption = some c) :
    Joint (ruleFor ty) ((inputs.map (stated align ty)).filter fun ds => ds ≠ []) c := by
  refine joint_joined (forall₂_own inputs) (fun hnum c hc => ?_) h
  rw [reduceOption_map] at hc
  obtain ⟨notes, -, hclaim⟩ := List.mem_filterMap.mp hc
  exact length_claimOf hnum hclaim

lemma all_isSome_iff : (inputs.map (claimOf align ty)).all Option.isSome = true ↔
    ∀ ds ∈ inputs.map (stated align ty), ds ≠ [] := by
  simp only [List.all_map, List.all_eq_true, List.mem_map, forall_exists_index, and_imp,
    forall_apply_eq_imp_iff₂, Function.comp_apply]
  refine forall_congr' fun notes => imp_congr_right fun _ => ?_
  rw [Option.isSome_iff_ne_none]
  exact claimOf_eq_none.not

/-- A combined claim is a joined claim that is kept, and every input makes a claim that has to. -/
lemma combine_eq_some {os : List (Option Claim)} : rule.combine os = some c ↔
    joined rule.join os.reduceOption = some c ∧ rule.keep c = true ∧
      (rule.needsAll = true → os.all Option.isSome = true) := by
  unfold Rule.combine combineAll combineAny
  split
  · rename_i hneeds
    split
    · rename_i hall
      rw [Option.filter_eq_some_iff]
      exact ⟨fun h => ⟨h.1, h.2, fun _ => hall⟩, fun h => ⟨h.1, h.2.1⟩⟩
    · rename_i hall
      exact ⟨fun h => (nomatch h), fun h => absurd (h.2.2 hneeds) hall⟩
  · rename_i hneeds
    rw [Option.filter_eq_some_iff]
    exact ⟨fun h => ⟨h.1, h.2, fun h => absurd h hneeds⟩, fun h => ⟨h.1, h.2.1⟩⟩

/-- A joined claim that is kept is what the rule prescribes. -/
lemma prescribes_of_joint (hjoint : Joint rule (xs.filter fun ds => ds ≠ []) c)
    (hkeep : rule.keep c = true) (hall : rule.needsAll = true → ∀ ds ∈ xs, ds ≠ []) (hne : xs ≠ []) :
    rule.Prescribes xs c.1 := by
  have hflat : (xs.filter fun ds => ds ≠ []).flatten = xs.flatten := List.flatten_filter_ne_nil
  have hself : rule.needsAll = true → (xs.filter fun ds => ds ≠ []) = xs := fun hneeds =>
    List.filter_eq_self.mpr fun ds hds => by simpa using hall hneeds ds hds
  unfold Joint at hjoint
  rw [hflat] at hjoint
  cases rule with
  | and =>
    rw [if_pos rfl, hself rfl] at hjoint
    exact ⟨hjoint.1, hjoint.2, of_decide_eq_true hkeep⟩
  | or => exact ⟨hjoint.1, hjoint.2, of_decide_eq_true hkeep⟩
  | orAnd => exact ⟨hall rfl, hjoint.1, hjoint.2, of_decide_eq_true hkeep⟩
  | max => exact hjoint
  | present => exact hjoint
  | agree =>
    obtain ⟨-, hconf⟩ := hjoint
    have hagree : c.2 = false := by simpa [Rule.keep] using hkeep
    refine ⟨hne, fun ds hds => ⟨hall rfl ds hds, fun p hp => ?_⟩⟩
    by_contra hother
    rw [hconf.mpr ⟨p, List.mem_flatten.mpr ⟨ds, hds, hp⟩, hother⟩] at hagree
    cases hagree

/-- What a rule prescribes is what its joined claim holds, and it is kept. -/
lemma joint_of_prescribes (hjoint : Joint rule (xs.filter fun ds => ds ≠ []) c)
    (hwide : rule.numeric = true → ∀ ds ∈ xs, ∀ p ∈ ds, p.length ≤ 8) (h : rule.Prescribes xs d) :
    c.1 = d ∧ rule.keep c = true ∧ (rule.needsAll = true → ∀ ds ∈ xs, ds ≠ []) := by
  have hflat : (xs.filter fun ds => ds ≠ []).flatten = xs.flatten := List.flatten_filter_ne_nil
  have hkept : c.1 = d → readLe d ≠ 0 → decide (readLe c.1 ≠ 0) = true := fun he hd =>
    decide_eq_true (he ▸ hd)
  unfold Joint at hjoint
  rw [hflat] at hjoint
  cases rule with
  | and =>
    obtain ⟨hlength, hbits, hzero⟩ := h
    obtain ⟨i, hi⟩ := exists_bit hzero
    have hall : ∀ ds ∈ xs, ds ≠ [] := by
      rintro ds hds rfl
      obtain ⟨p, hp, _⟩ := (hbits i).mp hi [] hds
      cases hp
    rw [if_pos rfl, List.filter_eq_self.mpr fun ds hds => by simpa using hall ds hds] at hjoint
    have hsame : c.1 = d := eq_of_length_bits (length_le_of_isGreatest (hwide rfl) hjoint.1)
      (hjoint.1.unique hlength) fun i => (hjoint.2 i).trans (hbits i).symm
    exact ⟨hsame, hkept hsame hzero, fun _ => hall⟩
  | or =>
    obtain ⟨hlength, hbits, hzero⟩ := h
    have hsame : c.1 = d := eq_of_length_bits (length_le_of_isGreatest (hwide rfl) hjoint.1)
      (hjoint.1.unique hlength) fun i => (hjoint.2 i).trans (hbits i).symm
    exact ⟨hsame, hkept hsame hzero, fun h => nomatch h⟩
  | orAnd =>
    obtain ⟨hall, hlength, hbits, hzero⟩ := h
    have hsame : c.1 = d := eq_of_length_bits (length_le_of_isGreatest (hwide rfl) hjoint.1)
      (hjoint.1.unique hlength) fun i => (hjoint.2 i).trans (hbits i).symm
    exact ⟨hsame, hkept hsame hzero, fun _ => hall⟩
  | max =>
    obtain ⟨hlength, hnumber⟩ := h
    have hvalue : readLe c.1 = readLe d := hjoint.2.unique hnumber
    have hsame : c.1 = d := eq_of_length_bits (length_le_of_isGreatest (hwide rfl) hjoint.1)
      (hjoint.1.unique hlength) fun i => by rw [hvalue]
    exact ⟨hsame, rfl, fun h => nomatch h⟩
  | present => exact ⟨Option.some.inj (hjoint.symm.trans h), rfl, fun h => nomatch h⟩
  | agree =>
    obtain ⟨-, hall⟩ := h
    obtain ⟨hhead, hconf⟩ := hjoint
    have hmem : ∀ p ∈ xs.flatten, p = d := by
      intro p hp
      obtain ⟨ds, hds, hp⟩ := List.mem_flatten.mp hp
      exact (hall ds hds).2 p hp
    have hsame : c.1 = d := hmem c.1 (List.mem_of_head? hhead)
    have hagree : c.2 = false := by
      refine Bool.eq_false_iff.mpr fun htrue => ?_
      obtain ⟨p, hp, hother⟩ := hconf.mp htrue
      exact hother ((hmem p hp).trans hsame.symm)
    exact ⟨hsame, by rw [Rule.keep, hagree]; rfl, fun _ ds hds => (hall ds hds).1⟩

/-- A rule prescribes a payload where something is stated only. -/
lemma exists_mem_of_prescribes (h : rule.Prescribes xs d) : ∃ ds ∈ xs, ds ≠ [] := by
  have hlength : (lengths xs.flatten).Nonempty → ∃ ds ∈ xs, ds ≠ [] := by
    rintro ⟨_, p, hp, _⟩
    obtain ⟨ds, hds, hp⟩ := List.mem_flatten.mp hp
    exact ⟨ds, hds, List.ne_nil_of_mem hp⟩
  cases rule with
  | and | or | max => exact hlength h.1.nonempty
  | orAnd => exact hlength h.2.1.nonempty
  | present =>
    obtain ⟨ds, hds, hp⟩ := List.mem_flatten.mp (List.mem_of_head? h)
    exact ⟨ds, hds, List.ne_nil_of_mem hp⟩
  | agree =>
    obtain ⟨ds, hds⟩ := List.exists_mem_of_ne_nil _ h.1
    exact ⟨ds, hds, (h.2 ds hds).1⟩

/-- **A merge holds exactly the properties that the rules prescribe.** -/
theorem mem_merge_iff : (⟨ty, d⟩ : Property) ∈ merge inputs align ↔
    (ruleFor ty).Prescribes (inputs.map (stated align ty)) d := by
  rw [mem_merge, mergedAt_eq, Option.map_eq_some_iff]
  constructor
  · rintro ⟨c, hc, rfl⟩
    obtain ⟨hjoined, hkeep, hall⟩ := combine_eq_some.mp hc
    refine prescribes_of_joint (joint_inputs hjoined) hkeep (fun hneeds => all_isSome_iff.mp (hall hneeds)) ?_
    rintro hnil
    rw [List.map_eq_nil_iff.mp hnil] at hjoined
    cases hjoined
  · intro h
    have hwide : (ruleFor ty).numeric = true → ∀ ds ∈ inputs.map (stated align ty), ∀ p ∈ ds, p.length ≤ 8 := by
      intro hnum ds hds p hp
      obtain ⟨notes, -, rfl⟩ := List.mem_map.mp hds
      exact length_of_mem_stated hnum hp
    cases hjoined : joined (ruleFor ty).join (inputs.map (claimOf align ty)).reduceOption with
    | none =>
      obtain ⟨ds, hds, hne⟩ := exists_mem_of_prescribes h
      obtain ⟨notes, hnotes, rfl⟩ := List.mem_map.mp hds
      rw [joined_eq_none, reduceOption_map, List.filterMap_eq_nil_iff] at hjoined
      exact absurd (claimOf_eq_none.mp (hjoined notes hnotes)) hne
    | some c =>
      obtain ⟨hsame, hkeep, hall⟩ := joint_of_prescribes (joint_inputs hjoined) hwide h
      exact ⟨c, combine_eq_some.mpr ⟨hjoined, hkeep, fun hneeds => all_isSome_iff.mpr (hall hneeds)⟩, hsame⟩

/-! ## The order of the inputs -/

/-- The payloads the inputs state, in whatever order. -/
lemma Rule.Prescribes.perm (hperm : xs.Perm ys) (hrule : rule ≠ .present) (h : rule.Prescribes xs d) :
    rule.Prescribes ys d := by
  have hmem : ∀ {ds : List (List Byte)}, ds ∈ xs ↔ ds ∈ ys := hperm.mem_iff
  have hflat : ∀ {p : List Byte}, p ∈ xs.flatten ↔ p ∈ ys.flatten := hperm.flatten.mem_iff
  have hlengths : lengths xs.flatten = lengths ys.flatten := by
    ext n
    simp only [lengths, Set.mem_ofPred_eq, hflat]
  have hnumbers : numbers xs.flatten = numbers ys.flatten := by
    ext n
    simp only [numbers, Set.mem_ofPred_eq, hflat]
  have hbits : ∀ i, HasBit xs.flatten i ↔ HasBit ys.flatten i := by
    intro i
    simp only [HasBit, hflat]
  cases rule with
  | and => exact ⟨hlengths ▸ h.1, fun i => by simp only [h.2.1 i, hmem], h.2.2⟩
  | or => exact ⟨hlengths ▸ h.1, fun i => (h.2.1 i).trans (hbits i), h.2.2⟩
  | orAnd =>
    exact ⟨fun ds hds => h.1 ds (hmem.mpr hds), hlengths ▸ h.2.1, fun i => (h.2.2.1 i).trans (hbits i),
      h.2.2.2⟩
  | max => exact ⟨hlengths ▸ h.1, hnumbers ▸ h.2⟩
  | present => exact absurd rfl hrule
  | agree =>
    refine ⟨fun hnil => h.1 ?_, fun ds hds => h.2 ds (hmem.mpr hds)⟩
    exact List.perm_nil.mp (hnil ▸ hperm)

/-- A property without its payload, where it has no value. -/
def Property.unvalued (p : Property) : Property := if ruleFor p.ty = .present then ⟨p.ty, []⟩ else p

lemma eq_of_pairwise_ty {l l' : List Property} (hl : l.Pairwise fun p q => p.ty < q.ty)
    (hl' : l'.Pairwise fun p q => p.ty < q.ty) (h : ∀ p, p ∈ l ↔ p ∈ l') : l = l' := by
  have hnodup : ∀ {l : List Property}, l.Pairwise (fun p q => p.ty < q.ty) → l.Nodup := by
    intro l hl
    refine hl.imp ?_
    rintro p q hpq rfl
    exact lt_irrefl _ hpq
  exact List.Perm.eq_of_pairwise (fun p q _ _ hpq hqp => absurd hqp (lt_asymm hpq)) hl hl'
    ((List.perm_ext_iff_of_nodup (hnodup hl) (hnodup hl')).mpr h)

@[simp] lemma Property.unvalued_ty (p : Property) : p.unvalued.ty = p.ty := by
  unfold Property.unvalued
  split <;> rfl

/-- A payload of a property without a value is left where an input states one. -/
lemma exists_present_iff (hrule : rule = .present) :
    (∃ d, rule.Prescribes xs d) ↔ ∃ p, p ∈ xs.flatten := by
  subst hrule
  constructor
  · rintro ⟨d, h⟩
    exact ⟨d, List.mem_of_head? h⟩
  · rintro ⟨p, hp⟩
    cases hxs : xs.flatten with
    | nil =>
      rw [hxs] at hp
      cases hp
    | cons d rest => exact ⟨d, congrArg List.head? hxs⟩

/-- A merge of permuted inputs holds a property where the merge does, without its payload where it has
no value. -/
lemma mem_unvalued_of_perm (hperm : inputs.Perm inputs') {p : Property}
    (hp : p ∈ (merge inputs align).map Property.unvalued) :
    p ∈ (merge inputs' align).map Property.unvalued := by
  obtain ⟨⟨ty, d⟩, hmem, rfl⟩ := List.mem_map.mp hp
  have hprescribed := mem_merge_iff.mp hmem
  have hstated : (inputs.map (stated align ty)).Perm (inputs'.map (stated align ty)) := hperm.map _
  by_cases hrule : ruleFor ty = .present
  · obtain ⟨q, hq⟩ := (exists_present_iff hrule).mp ⟨d, hprescribed⟩
    obtain ⟨d', hd'⟩ := (exists_present_iff hrule).mpr ⟨q, hstated.flatten.mem_iff.mp hq⟩
    refine List.mem_map.mpr ⟨⟨ty, d'⟩, mem_merge_iff.mpr hd', ?_⟩
    rw [Property.unvalued, Property.unvalued, if_pos hrule, if_pos hrule]
  · exact List.mem_map_of_mem (mem_merge_iff.mpr (hprescribed.perm hstated hrule))

/-- **The order of the inputs does not matter**, but for the payload of a property that has no value. -/
theorem merge_perm (hperm : inputs.Perm inputs') :
    (merge inputs align).map Property.unvalued = (merge inputs' align).map Property.unvalued := by
  have hsorted : ∀ inputs : List Input,
      ((merge inputs align).map Property.unvalued).Pairwise fun p q => p.ty < q.ty := fun inputs =>
    List.pairwise_map.mpr (pairwise_merge.imp fun h => by rwa [Property.unvalued_ty, Property.unvalued_ty])
  exact eq_of_pairwise_ty (hsorted inputs) (hsorted inputs') fun p =>
    ⟨mem_unvalued_of_perm hperm, mem_unvalued_of_perm hperm.symm⟩

/-- Where no input gives a payload to a property that has no value, the order does not matter at all. -/
theorem merge_perm_of_valueless (hperm : inputs.Perm inputs')
    (hvalueless : ∀ notes ∈ inputs, ∀ ty, ruleFor ty = .present → ∀ d ∈ stated align ty notes, d = []) :
    merge inputs align = merge inputs' align := by
  have hself : ∀ inputs : List Input,
      (∀ notes ∈ inputs, ∀ ty, ruleFor ty = .present → ∀ d ∈ stated align ty notes, d = []) →
      (merge inputs align).map Property.unvalued = merge inputs align := by
    intro inputs hinputs
    refine (List.map_congr_left fun p hp => ?_).trans (List.map_id _)
    obtain ⟨ty, d⟩ := p
    rw [Property.unvalued]
    split
    · rename_i hrule
      have hprescribed := mem_merge_iff.mp hp
      rw [show ruleFor ty = .present from hrule] at hprescribed
      obtain ⟨ds, hds, hd⟩ := List.mem_flatten.mp (List.mem_of_head? hprescribed)
      obtain ⟨notes, hnotes, rfl⟩ := List.mem_map.mp hds
      rw [hinputs notes hnotes ty hrule d hd]
      rfl
    · rfl
  rw [← hself inputs hvalueless, ← hself inputs' fun notes hnotes => hvalueless notes (hperm.mem_iff.mpr hnotes),
    merge_perm hperm]

/-! ## Merging notes -/

/-- **Property notes merge by their rules.**  The walk over a section that memory can hold ends, inside
the section; a merge holds each type once and in order, with the payload its rule prescribes; the order
of the inputs matters to nothing but the payload of a property that has no value; and a note whose
descriptor fits its size field reads back as the properties it was written from. -/
theorem merge_rules (halign : align = 4 ∨ align = 8) :
    (∀ note : List Byte, note.length < 2 ^ 63 → walkSection note align = some (properties note align)) ∧
    (∀ inputs, (merge inputs align).Pairwise (fun p q => p.ty < q.ty) ∧
      ∀ ty d, (⟨ty, d⟩ : Property) ∈ merge inputs align ↔
        (ruleFor ty).Prescribes (inputs.map (stated align ty)) d) ∧
    (∀ inputs inputs' : List Input, inputs.Perm inputs' →
      (merge inputs align).map Property.unvalued = (merge inputs' align).map Property.unvalued ∧
      ((∀ notes ∈ inputs, ∀ ty, ruleFor ty = .present → ∀ d ∈ stated align ty notes, d = []) →
        merge inputs align = merge inputs' align)) ∧
    ∀ props, Fits props align → properties (encode props align) align = props := by
  have hpos : 0 < align := by omega
  refine ⟨fun note hnote => walkSection_eq hnote hpos (by omega), fun inputs => ⟨pairwise_merge,
    fun ty d => mem_merge_iff⟩, fun inputs inputs' hperm => ⟨merge_perm hperm,
    merge_perm_of_valueless hperm⟩, fun props hfits => properties_encode halign hfits⟩

/-- A note that gives a payload to a property that has no value. -/
def noCopyNote (b : Byte) : List Byte := encode [⟨gnuPropertyNoCopyOnProtected, [b]⟩] 8

/-- Notes of eight-byte alignment, merged. -/
theorem merge_rules_eight :
    merge [[noCopyNote 1], []] 8 = [⟨gnuPropertyNoCopyOnProtected, [1]⟩] ∧
      ∀ ty d, (⟨ty, d⟩ : Property) ∈ merge [[noCopyNote 1], []] 8 ↔
        (ruleFor ty).Prescribes ([[noCopyNote 1], []].map (stated 8 ty)) d :=
  ⟨by decide +kernel, ((merge_rules (.inr rfl)).2.1 [[noCopyNote 1], []]).2⟩

/-- The first input's payload of a property that has no value is written. -/
theorem merge_perm_noCopy :
    [[noCopyNote 1], [noCopyNote 2]].Perm [[noCopyNote 2], [noCopyNote 1]] ∧
      merge [[noCopyNote 1], [noCopyNote 2]] 8 ≠ merge [[noCopyNote 2], [noCopyNote 1]] 8 :=
  ⟨List.Perm.swap _ _ _, by decide +kernel⟩

end Badc.GnuProperty
