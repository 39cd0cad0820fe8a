import Badc.Lib.TwoStage
import Badc.Linker.GnuPropertyNote

/-!
# What a merge leaves of a type

What a merge leaves of one property type is a combination of the inputs' claims (`mergedAt_eq`): the
rule of the type says how two claims join, whether every input has to make one, and which combined
claim is dropped.  The merge is known by what it leaves of each type (`merge_eq_iff`).
-/

namespace Badc.GnuProperty

variable {align ty n : ℕ} {rule : Rule} {notes : Input} {inputs : List Input}

/-! ## Numbers as payloads -/

lemma readLe_lt (data : List Byte) : readLe data < 256 ^ min data.length 8 := leNat_lt

@[simp] lemma length_leBytesOf {value width : ℕ} :
    (leBytesOf value width).length = min width 8 := by
  simp [leBytesOf]

lemma readLe_leBytesOf {value width : ℕ} (h : value < 256 ^ min width 8) :
    readLe (leBytesOf value width) = value := by
  have hread := leNat_append_leBytes (n := min width 8) (x := value) [] []
  rw [List.append_nil, List.nil_append, List.length_nil, Nat.mod_eq_of_lt h] at hread
  rw [readLe, length_leBytesOf, min_eq_left (min_le_right _ _)]
  exact hread

lemma leBytesOf_readLe {data : List Byte} (h : data.length ≤ 8) :
    leBytesOf (readLe data) data.length = data := by
  rw [leBytesOf, readLe, leBytes_leNat (by rw [min_eq_left h, Nat.zero_add]), List.drop_zero]

/-- Two payloads in one, by an operation on their numbers. -/
def numJoin (f : ℕ → ℕ → ℕ) (a b : List Byte) : List Byte :=
  leBytesOf (f (readLe a) (readLe b)) (Nat.max a.length b.length)

/-- An operation that needs no more bits than its arguments. -/
def FitsWidth (f : ℕ → ℕ → ℕ) : Prop := ∀ k x y, x < 2 ^ k → y < 2 ^ k → f x y < 2 ^ k

lemma fitsWidth_and : FitsWidth (· &&& ·) := fun _ _ _ _ hy => Nat.and_lt_two_pow _ hy

lemma fitsWidth_or : FitsWidth (· ||| ·) := fun _ _ _ hx hy => Nat.or_lt_two_pow hx hy

lemma fitsWidth_max : FitsWidth Nat.max := fun _ _ _ hx hy => max_lt hx hy

section NumJoin

variable {f : ℕ → ℕ → ℕ} {a b c : List Byte}

@[simp] lemma length_numJoin : (numJoin f a b).length = min (max a.length b.length) 8 :=
  length_leBytesOf

/-- The number of a joined payload. -/
lemma readLe_numJoin (hf : FitsWidth f) : readLe (numJoin f a b) = f (readLe a) (readLe b) := by
  refine readLe_leBytesOf ?_
  have hpow (k : ℕ) : 256 ^ k = 2 ^ (8 * k) := by rw [pow_mul]; norm_num
  rw [hpow]
  refine hf _ _ _ ?_ ?_
  · exact (readLe_lt a).trans_le (by
      rw [hpow]
      exact Nat.pow_le_pow_right two_pos
        (Nat.mul_le_mul_left 8 (min_le_min_right 8 (le_max_left _ _))))
  · exact (readLe_lt b).trans_le (by
      rw [hpow]
      exact Nat.pow_le_pow_right two_pos
        (Nat.mul_le_mul_left 8 (min_le_min_right 8 (le_max_right _ _))))

lemma numJoin_assoc (hf : FitsWidth f) (hassoc : ∀ x y z, f (f x y) z = f x (f y z)) :
    numJoin f (numJoin f a b) c = numJoin f a (numJoin f b c) := by
  rw [numJoin, readLe_numJoin hf, length_numJoin, hassoc, numJoin, readLe_numJoin hf,
    length_numJoin, leBytesOf, leBytesOf]
  congr 1
  change min (max (min (max a.length b.length) 8) c.length) 8 =
    min (max a.length (min (max b.length c.length) 8)) 8
  omega

end NumJoin

/-! ## Claims about one type -/

/-- What is claimed of one type: the payload, and whether payloads disagreed. -/
abbrev Claim := List Byte × Bool

/-- The claim in an accumulator. -/
def Acc.claim (a : Acc) : Claim := (a.data, a.conflict)

/-- Two inputs' claims in one. -/
def Rule.join : Rule → Claim → Claim → Claim
  | .and, x, y => (numJoin (· &&& ·) x.1 y.1, x.2 || y.2)
  | .or, x, y => (numJoin (· ||| ·) x.1 y.1, x.2 || y.2)
  | .orAnd, x, y => (numJoin (· ||| ·) x.1 y.1, x.2 || y.2)
  | .max, x, y => (numJoin Nat.max x.1 y.1, x.2 || y.2)
  | .present, x, y => (x.1, x.2 || y.2)
  | .agree, x, y => (x.1, x.2 || decide (x.1 ≠ y.1) || y.2)

/-- Whether a combined claim is written. -/
def Rule.keep : Rule → Claim → Bool
  | .and, x => readLe x.1 ≠ 0
  | .or, x => readLe x.1 ≠ 0
  | .orAnd, x => readLe x.1 ≠ 0
  | .max, _ => true
  | .present, _ => true
  | .agree, x => !x.2

/-- Whether every input has to make the claim. -/
def Rule.needsAll (rule : Rule) : Bool := rule = .and ∨ rule = .orAnd ∨ rule = .agree

/-- The inputs' claims in one, by the rule. -/
def Rule.combine (rule : Rule) (xs : List (Option Claim)) : Option Claim :=
  if rule.needsAll then combineAll rule.join rule.keep xs else combineAny rule.join rule.keep xs

instance : Std.Associative rule.join := by
  refine ⟨fun x y z => ?_⟩
  cases rule with
  | and => simp only [Rule.join, numJoin_assoc fitsWidth_and Nat.and_assoc, Bool.or_assoc]
  | or => simp only [Rule.join, numJoin_assoc fitsWidth_or Nat.or_assoc, Bool.or_assoc]
  | orAnd => simp only [Rule.join, numJoin_assoc fitsWidth_or Nat.or_assoc, Bool.or_assoc]
  | max => simp only [Rule.join, numJoin_assoc fitsWidth_max Nat.max_assoc, Bool.or_assoc]
  | present => exact Prod.ext rfl (Bool.or_assoc _ _ _)
  | agree =>
    refine Prod.ext rfl ?_
    change (x.2 || decide (x.1 ≠ y.1) || y.2 || decide (x.1 ≠ z.1) || z.2) =
      (x.2 || decide (x.1 ≠ y.1) || (y.2 || decide (y.1 ≠ z.1) || z.2))
    by_cases hxy : x.1 = y.1
    · simp [hxy, Bool.or_assoc]
    · simp [hxy]

/-- Of a kept claim that every input has to make, unless it unites bits, each part is kept. -/
lemma keep_of_keep_join (hrule : rule = .and ∨ rule = .agree) (x y : Claim)
    (h : rule.keep (rule.join x y)) : rule.keep x ∧ rule.keep y := by
  obtain rfl | rfl := hrule
  · have hand : readLe (numJoin (· &&& ·) x.1 y.1) ≠ 0 := of_decide_eq_true h
    rw [readLe_numJoin fitsWidth_and] at hand
    constructor
    · exact decide_eq_true fun hx => hand (by simp [hx])
    · exact decide_eq_true fun hy => hand (by simp [hy])
  · have hconf : (!(x.2 || decide (x.1 ≠ y.1) || y.2)) = true := h
    simp only [Bool.not_or, Bool.and_eq_true] at hconf
    exact ⟨hconf.1.1, hconf.2⟩

lemma joined_of_combine {xs : List (Option Claim)} {c : Claim} (h : rule.combine xs = some c) :
    joined rule.join xs.reduceOption = some c ∧ rule.keep c := by
  unfold Rule.combine at h
  split at h
  · unfold combineAll at h
    split at h
    · exact Option.filter_eq_some_iff.mp h
    · cases h
  · exact Option.filter_eq_some_iff.mp h

/-! ## What one input states -/

/-- The payloads an input states of a type. -/
def stated (align ty : ℕ) (notes : Input) : List (List Byte) :=
  ((notes.flatMap fun note => properties note align).filter
    fun p => p.ty = ty ∧ p.admitted).map Property.data

/-- A payload added to what the input stated of its type before. -/
def addPayload (rule : Rule) (o : Option Acc) (data : List Byte) : Option Acc :=
  match o with
  | some acc => some (acc.fold data true)
  | none => some ⟨rule, data, 1, false⟩

/-- The claim of one input, if it makes one. -/
def claimOf (align ty : ℕ) (notes : Input) : Option Claim :=
  (ownAccs align notes)[ty]?.map Acc.claim

/-- A property changes what is stated of its own type. -/
lemma getElem?_addStated (own : Accs) (p : Property) :
    (addStated own p)[ty]? =
      if p.ty = ty ∧ p.admitted then addPayload (ruleFor ty) own[ty]? p.data else own[ty]? := by
  unfold addStated
  by_cases hadm : p.admitted = true
  · rw [if_pos hadm, Std.ExtTreeMap.getElem?_alter]
    by_cases hty : p.ty = ty
    · subst hty
      rw [if_pos (by simp), if_pos ⟨rfl, hadm⟩]
      rfl
    · rw [if_neg (by simpa using hty), if_neg (fun h => hty h.1)]
  · rw [if_neg hadm, if_neg (fun h => hadm h.2)]

/-- What a list of properties adds to what is stated of a type. -/
lemma getElem?_foldl_addStated (props : List Property) (own : Accs) :
    (props.foldl addStated own)[ty]? =
      ((props.filter fun p => p.ty = ty ∧ p.admitted).map Property.data).foldl
        (addPayload (ruleFor ty)) own[ty]? := by
  induction props generalizing own with
  | nil => rfl
  | cons p props ih =>
    rw [List.foldl_cons, ih, getElem?_addStated]
    by_cases hp : p.ty = ty ∧ p.admitted = true
    · rw [if_pos hp, List.filter_cons_of_pos (by simpa using hp)]
      rfl
    · rw [if_neg hp, List.filter_cons_of_neg (by simpa using hp)]

/-- What an input states of a type. -/
lemma getElem?_ownAccs :
    (ownAccs align notes)[ty]? = (stated align ty notes).foldl (addPayload (ruleFor ty)) none := by
  have hnotes : ∀ (notes : Input) (own : Accs),
      (notes.foldl (fun own note => (properties note align).foldl addStated own) own)[ty]? =
        (stated align ty notes).foldl (addPayload (ruleFor ty)) own[ty]? := by
    intro notes
    induction notes with
    | nil => intro own; rfl
    | cons note notes ih =>
      intro own
      rw [List.foldl_cons, ih, getElem?_foldl_addStated, stated, stated, List.flatMap_cons,
        List.filter_append, List.map_append, List.foldl_append]
  rw [ownAccs, hnotes, Std.ExtTreeMap.getElem?_empty]

/-- What holds of a type's first payload and is kept by the later ones holds of what is stated. -/
lemma ownAccs_induction {I : Acc → Prop}
    (hfirst : ∀ data ∈ stated align ty notes, I ⟨ruleFor ty, data, 1, false⟩)
    (hfold : ∀ data ∈ stated align ty notes, ∀ acc, I acc → I (acc.fold data true)) {acc : Acc}
    (h : (ownAccs align notes)[ty]? = some acc) : I acc := by
  rw [getElem?_ownAccs] at h
  have hrun : ∀ (ds : List (List Byte)) (o : Option Acc),
      (∀ data ∈ ds, data ∈ stated align ty notes) → (∀ acc, o = some acc → I acc) →
      ∀ acc, ds.foldl (addPayload (ruleFor ty)) o = some acc → I acc := by
    intro ds
    induction ds with
    | nil => exact fun o _ ho => ho
    | cons d ds ih =>
      intro o hmem ho
      have hd := hmem d (.head _)
      refine ih _ (fun data hdata => hmem data (.tail _ hdata)) ?_
      intro acc hacc
      obtain _ | a := o
      · cases hacc
        exact hfirst d hd
      · cases hacc
        exact hfold d hd a (ho a rfl)
  exact hrun _ none (fun _ h => h) (fun _ h => nomatch h) acc h

lemma fold_rule_seen (acc : Acc) (data : List Byte) (within : Bool) :
    (acc.fold data within).rule = acc.rule ∧ (acc.fold data within).seen = acc.seen := by
  obtain ⟨rule, d, seen, conflict⟩ := acc
  cases rule <;> exact ⟨rfl, rfl⟩

lemma ownAccs_rule_seen {acc : Acc} (h : (ownAccs align notes)[ty]? = some acc) :
    acc.rule = ruleFor ty ∧ acc.seen = 1 := by
  refine ownAccs_induction (I := fun acc => acc.rule = ruleFor ty ∧ acc.seen = 1)
    (fun _ _ => ⟨rfl, rfl⟩) (fun data _ acc hacc => ?_) h
  obtain ⟨hrule, hseen⟩ := fold_rule_seen acc data true
  exact ⟨hrule.trans hacc.1, hseen.trans hacc.2⟩

lemma fold_conflict {acc : Acc} (hrule : acc.rule ≠ .agree) (data : List Byte) (within : Bool) :
    (acc.fold data within).conflict = acc.conflict := by
  obtain ⟨rule, d, seen, conflict⟩ := acc
  cases rule with
  | agree => exact absurd rfl hrule
  | and | or | orAnd | max | present => rfl

lemma claimOf_snd (hrule : ruleFor ty ≠ .agree) {c : Claim} (h : claimOf align ty notes = some c) :
    c.2 = false := by
  obtain ⟨acc, hacc, rfl⟩ := Option.map_eq_some_iff.mp h
  refine (ownAccs_induction (I := fun acc => acc.rule = ruleFor ty ∧ acc.conflict = false)
    (fun _ _ => ⟨rfl, rfl⟩) (fun data _ a ha => ?_) hacc).2
  refine ⟨(fold_rule_seen a data true).1.trans ha.1, ?_⟩
  rw [fold_conflict (by rwa [ha.1])]
  exact ha.2

lemma length_of_mem_stated (hrule : (ruleFor ty).numeric) {data : List Byte}
    (h : data ∈ stated align ty notes) : data.length ≤ 8 := by
  obtain ⟨p, hp, rfl⟩ := List.mem_map.mp h
  obtain ⟨-, hadm⟩ := List.mem_filter.mp hp
  obtain ⟨rfl, hfits⟩ := of_decide_eq_true hadm
  rw [Property.admitted, hrule, Bool.true_and, Bool.not_eq_true', decide_eq_false_iff_not] at hfits
  omega

/-- A number an input claims has at most eight bytes. -/
lemma length_claimOf (hrule : (ruleFor ty).numeric) {c : Claim}
    (h : claimOf align ty notes = some c) : c.1.length ≤ 8 := by
  obtain ⟨acc, hacc, rfl⟩ := Option.map_eq_some_iff.mp h
  refine (ownAccs_induction (I := fun acc => acc.rule = ruleFor ty ∧ acc.data.length ≤ 8)
    (fun data hdata => ⟨rfl, length_of_mem_stated hrule hdata⟩) (fun data hdata a ha => ?_) hacc).2
  refine ⟨(fold_rule_seen a data true).1.trans ha.1, ?_⟩
  have hdata := length_of_mem_stated hrule hdata
  obtain ⟨r, d, seen, conflict⟩ := a
  have hd : d.length ≤ 8 := ha.2
  cases r with
  | present | agree => exact hd
  | and | or | orAnd | max => exact length_leBytesOf.trans_le (min_le_right _ _)

lemma fold_claim_of_unites {a : Acc} (hrule : a.rule = .or ∨ a.rule = .orAnd) (data : List Byte) :
    (a.fold data true).claim = a.rule.join a.claim (data, false) := by
  obtain ⟨r, d, seen, conflict⟩ := a
  obtain h | h := hrule <;> cases h <;> exact Prod.ext rfl (Bool.or_false _).symm

/-- A type whose bits unite is claimed with all the payloads in one. -/
lemma claimOf_eq_joined (hrule : ruleFor ty = .or ∨ ruleFor ty = .orAnd) :
    claimOf align ty notes =
      joined (ruleFor ty).join ((stated align ty notes).map fun d => (d, false)) := by
  rw [claimOf, getElem?_ownAccs]
  obtain _ | ⟨d, ds⟩ := stated align ty notes
  · rfl
  rw [List.foldl_cons, List.map_cons, joined_cons]
  have hrun : ∀ (ds : List (List Byte)) (a : Acc), a.rule = ruleFor ty →
      (ds.foldl (addPayload (ruleFor ty)) (some a)).map Acc.claim =
        some ((ds.map fun d => (d, false)).foldl (ruleFor ty).join a.claim) := by
    intro ds
    induction ds with
    | nil => exact fun _ _ => rfl
    | cons e ds ih =>
      intro a ha
      rw [List.foldl_cons, List.map_cons, List.foldl_cons]
      refine (ih (a.fold e true) ((fold_rule_seen a e true).1.trans ha)).trans ?_
      rw [fold_claim_of_unites (by rwa [ha]), ha]
  exact hrun ds ⟨ruleFor ty, d, 1, false⟩ rfl

/-! ## What the inputs state together -/

/-- One input's claim added to those before it. -/
def Acc.addOwn (acc o : Acc) : Acc :=
  let acc := acc.fold o.data false
  { acc with conflict := acc.conflict || o.conflict, seen := acc.seen + 1 }

lemma getElem?_addOwn (accs : Accs) (o : ℕ × Acc) :
    (addOwn accs o)[ty]? =
      if o.1 = ty then some (accs[ty]?.elim o.2 fun acc => acc.addOwn o.2) else accs[ty]? := by
  rw [addOwn, Std.ExtTreeMap.getElem?_alter]
  by_cases hty : o.1 = ty
  · subst hty
    rw [if_pos (by simp), if_pos rfl]
    cases accs[o.1]? <;> rfl
  · rw [if_neg (by simpa using hty), if_neg hty]

lemma getElem?_foldl_addOwn_of_not_mem {l : List (ℕ × Acc)} (accs : Accs)
    (h : ∀ o ∈ l, o.1 ≠ ty) : (l.foldl addOwn accs)[ty]? = accs[ty]? := by
  induction l generalizing accs with
  | nil => rfl
  | cons o l ih =>
    rw [List.foldl_cons, ih _ fun p hp => h p (.tail _ hp), getElem?_addOwn,
      if_neg (h o (.head _))]

/-- What an input states of a type is added once. -/
lemma getElem?_foldl_addOwn {l : List (ℕ × Acc)} (hl : l.Pairwise fun a b => a.1 ≠ b.1) {o : Acc}
    (ho : (ty, o) ∈ l) (accs : Accs) :
    (l.foldl addOwn accs)[ty]? = some (accs[ty]?.elim o fun acc => acc.addOwn o) := by
  induction l generalizing accs with
  | nil => cases ho
  | cons p l ih =>
    rw [List.foldl_cons]
    rw [List.pairwise_cons] at hl
    obtain rfl | ho := List.mem_cons.mp ho
    · rw [getElem?_foldl_addOwn_of_not_mem _ fun q hq => (hl.1 q hq).symm, getElem?_addOwn,
        if_pos rfl]
    · rw [ih hl.2 ho, getElem?_addOwn, if_neg (hl.1 _ ho)]

/-- One input in the merge: what it states of a type, if anything, is added once. -/
lemma getElem?_mergeInput (accs : Accs) :
    ((ownAccs align notes).toList.foldl addOwn accs)[ty]? =
      match (ownAccs align notes)[ty]? with
      | none => accs[ty]?
      | some o => some (accs[ty]?.elim o fun acc => acc.addOwn o) := by
  have hkeys : (ownAccs align notes).toList.Pairwise fun a b => a.1 ≠ b.1 :=
    Std.ExtTreeMap.distinct_keys_toList.imp fun h heq => h (by rw [heq]; simp)
  cases hown : (ownAccs align notes)[ty]? with
  | none =>
    refine getElem?_foldl_addOwn_of_not_mem accs fun ⟨k, o⟩ ho heq => ?_
    cases heq
    rw [Std.ExtTreeMap.mem_toList_iff_getElem?_eq_some, hown] at ho
    cases ho
  | some o =>
    exact getElem?_foldl_addOwn hkeys (Std.ExtTreeMap.mem_toList_iff_getElem?_eq_some.mpr hown) accs

/-- What the inputs state of a type is joined in their order. -/
lemma getElem?_mergeAccs :
    (mergeAccs inputs align)[ty]? =
      joined Acc.addOwn (inputs.filterMap fun notes => (ownAccs align notes)[ty]?) := by
  have hrun : ∀ (inputs : List Input) (accs : Accs),
      (inputs.foldl (fun accs notes => (ownAccs align notes).toList.foldl addOwn accs) accs)[ty]? =
        match accs[ty]? with
        | none => joined Acc.addOwn (inputs.filterMap fun notes => (ownAccs align notes)[ty]?)
        | some acc =>
          some ((inputs.filterMap fun notes => (ownAccs align notes)[ty]?).foldl Acc.addOwn acc) := by
    intro inputs
    induction inputs with
    | nil => intro accs; rw [List.foldl_nil, List.filterMap_nil]; cases accs[ty]? <;> rfl
    | cons notes inputs ih =>
      intro accs
      rw [List.foldl_cons, ih, getElem?_mergeInput, List.filterMap_cons]
      cases (ownAccs align notes)[ty]? with
      | none => rfl
      | some o => cases accs[ty]? <;> rfl
  rw [mergeAccs, hrun, Std.ExtTreeMap.getElem?_empty]

lemma addOwn_claim {acc o : Acc} (hrule : acc.rule = rule) :
    (acc.addOwn o).claim = rule.join acc.claim o.claim ∧ (acc.addOwn o).rule = rule ∧
      (acc.addOwn o).seen = acc.seen + 1 := by
  obtain ⟨r, d, seen, conflict⟩ := acc
  cases hrule
  cases r <;> exact ⟨rfl, rfl, rfl⟩

/-- What is joined from inputs' own accumulators: the claims joined, the rule, and the count. -/
lemma joined_addOwn {os : List Acc} (hos : ∀ o ∈ os, o.rule = rule ∧ o.seen = 1) {acc : Acc}
    (h : joined Acc.addOwn os = some acc) :
    joined rule.join (os.map Acc.claim) = some acc.claim ∧ acc.rule = rule ∧
      acc.seen = os.length := by
  obtain _ | ⟨o, os⟩ := os
  · cases h
  have hrun : ∀ (os : List Acc) (acc : Acc), acc.rule = rule →
      (os.foldl Acc.addOwn acc).claim = (os.map Acc.claim).foldl rule.join acc.claim ∧
        (os.foldl Acc.addOwn acc).rule = rule ∧
        (os.foldl Acc.addOwn acc).seen = acc.seen + os.length := by
    intro os
    induction os with
    | nil => exact fun _ h => ⟨rfl, h, rfl⟩
    | cons o os ih =>
      intro acc hacc
      obtain ⟨hclaim, hrule, hseen⟩ := addOwn_claim (o := o) hacc
      obtain ⟨hclaim', hrule', hseen'⟩ := ih (acc.addOwn o) hrule
      rw [hclaim] at hclaim'
      refine ⟨hclaim', hrule', hseen'.trans ?_⟩
      rw [hseen, List.length_cons]
      omega
  rw [joined_cons, Option.some.injEq] at h
  subst h
  obtain ⟨hrule, hseen⟩ := hos o (.head _)
  obtain ⟨hclaim, hrule', hseen'⟩ := hrun os o hrule
  refine ⟨by rw [List.map_cons, joined_cons, hclaim], hrule', hseen'.trans ?_⟩
  rw [hseen, List.length_cons, Nat.add_comm]

/-! ## What is left of a type -/

/-- The payload that is left of a type. -/
def mergedAt (inputs : List Input) (align ty : ℕ) : Option (List Byte) :=
  ((mergeAccs inputs align)[ty]?.filter fun a => a.survives inputs.length).map Acc.data

/-- A property is in the merged note when it is left. -/
lemma mem_merge {d : List Byte} :
    (⟨ty, d⟩ : Property) ∈ merge inputs align ↔ mergedAt inputs align ty = some d := by
  simp only [merge, mergedAt, List.mem_map, List.mem_filter, Option.map_eq_some_iff,
    Option.filter_eq_some_iff]
  constructor
  · rintro ⟨⟨k, a⟩, ⟨hmem, hsurv⟩, heq⟩
    cases heq
    exact ⟨a, ⟨Std.ExtTreeMap.mem_toList_iff_getElem?_eq_some.mp hmem, hsurv⟩, rfl⟩
  · rintro ⟨a, ⟨hget, hsurv⟩, rfl⟩
    exact ⟨(ty, a), ⟨Std.ExtTreeMap.mem_toList_iff_getElem?_eq_some.mpr hget, hsurv⟩, rfl⟩

lemma pairwise_merge : (merge inputs align).Pairwise fun p q => p.ty < q.ty := by
  refine List.pairwise_map.mpr ((Std.ExtTreeMap.ordered_keys_toList.filter _).imp fun h => ?_)
  exact Nat.compare_eq_lt.mp h

/-- A merge is known by what it leaves of each type. -/
lemma merge_eq_iff {inputs' : List Input} :
    merge inputs align = merge inputs' align ↔
      ∀ ty, mergedAt inputs align ty = mergedAt inputs' align ty := by
  constructor
  · intro h ty
    refine Option.ext fun d => ?_
    rw [← mem_merge, h, mem_merge]
  · intro h
    have hmem (p : Property) : p ∈ merge inputs align ↔ p ∈ merge inputs' align := by
      rw [mem_merge, mem_merge, h]
    have hnodup (inputs : List Input) : (merge inputs align).Nodup := by
      refine pairwise_merge.imp ?_
      rintro p q hpq rfl
      exact lt_irrefl _ hpq
    exact List.Perm.eq_of_pairwise (fun p q _ _ hpq hqp => absurd hqp (lt_asymm hpq))
      pairwise_merge pairwise_merge ((List.perm_ext_iff_of_nodup (hnodup _) (hnodup _)).mpr hmem)

lemma survives_iff {a : Acc} :
    a.survives n = (a.rule.keep a.claim && (!a.rule.needsAll || decide (a.seen = n))) := by
  obtain ⟨r, d, seen, conflict⟩ := a
  by_cases hd : readLe d = 0 <;> cases r <;>
    simp [Acc.survives, Rule.keep, Rule.needsAll, Acc.claim, hd, Bool.and_comm]

/-- As many claims as inputs: every input makes one. -/
lemma length_reduceOption_eq_iff {α : Type*} {xs : List (Option α)} :
    xs.reduceOption.length = xs.length ↔ xs.all Option.isSome = true := by
  induction xs with
  | nil => simp
  | cons x xs ih =>
    cases x with
    | none =>
      have := List.reduceOption_length_le xs
      simp only [List.reduceOption_cons_of_none, List.length_cons, List.all_cons,
        Option.isSome_none, Bool.false_and, Bool.false_eq_true, iff_false]
      omega
    | some a => simpa using ih

/-- What is left of a type is the inputs' claims, combined by the type's rule. -/
theorem mergedAt_eq :
    mergedAt inputs align ty =
      ((ruleFor ty).combine (inputs.map (claimOf align ty))).map Prod.fst := by
  have hclaims : (inputs.map (claimOf align ty)).reduceOption =
      (inputs.filterMap fun notes => (ownAccs align notes)[ty]?).map Acc.claim := by
    rw [reduceOption_map, List.map_filterMap]
    rfl
  have hos : ∀ o ∈ inputs.filterMap fun notes => (ownAccs align notes)[ty]?,
      o.rule = ruleFor ty ∧ o.seen = 1 := by
    intro o ho
    obtain ⟨notes, -, hown⟩ := List.mem_filterMap.mp ho
    exact ownAccs_rule_seen hown
  rw [mergedAt, getElem?_mergeAccs, Rule.combine, combineAll, combineAny, hclaims]
  cases hjoin : joined Acc.addOwn (inputs.filterMap fun notes => (ownAccs align notes)[ty]?) with
  | none =>
    rw [joined_eq_none] at hjoin
    rw [hjoin]
    split <;> [split; skip] <;> rfl
  | some acc =>
    obtain ⟨hclaim, hrule, hseen⟩ := joined_addOwn hos hjoin
    have hcount : acc.seen = inputs.length ↔
        (inputs.map (claimOf align ty)).all Option.isSome = true := by
      rw [← length_reduceOption_eq_iff, hclaims, List.length_map, List.length_map, hseen]
    rw [hclaim, Option.filter_some, survives_iff, hrule, Option.filter_some]
    by_cases hall : (inputs.map (claimOf align ty)).all Option.isSome = true
    · rw [hcount.mpr hall]
      simp only [hall, decide_true, Bool.or_true, Bool.and_true, if_true, ite_self]
      split <;> rfl
    · rw [decide_eq_false fun h => hall (hcount.mp h), Bool.or_false, if_neg hall]
      cases hneeds : (ruleFor ty).needsAll with
      | true => simp
      | false =>
        simp only [Bool.not_false, Bool.and_true, Bool.false_eq_true, if_false]
        split <;> rfl

end Badc.GnuProperty
