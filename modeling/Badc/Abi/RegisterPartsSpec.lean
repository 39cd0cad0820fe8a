import Badc.Abi.LeafOrder

/-!
# Aggregates of a table in registers

The descriptors that `host_abi_agg_desc_conv` builds of a table: a homogeneous aggregate has the size of
its elements, the leaves of an aggregate lie inside it where its members do, and the registers carry
each byte once (`registers_carry`).
-/

namespace Badc.Abi

/-! ## Descriptors of a table -/

variable {structs : StructTable} {target : Target} {conv : CallConv} {ty : Ty} {id : ℕ}

/-- What the parser keeps of a table: a zero-length member has no element count, and the members of an
anonymous aggregate, which is no vector, are copied into the aggregate around it. -/
structure Parsed (structs : StructTable) : Prop where
  zeroLen : ∀ id, ∀ f ∈ (structs.at id).fields, f.zeroLen = true → f.arraySize < 0
  promoted : ∀ id, ∀ m ∈ (structs.at id).anonMembers, (structs.at m.inner).isVector = false ∧
    ∀ g ∈ (structs.at m.inner).fields, ∃ f ∈ (structs.at id).fields, f.ty = g.ty ∧
      f.arraySize = g.arraySize ∧ f.zeroLen = g.zeroLen ∧ f.bitWidth = g.bitWidth

/-- What a fold that can fail keeps at every step holds of its result. -/
lemma foldlM_invariant {α β : Type} {P : β → Prop} {l : List α} {step : β → α → Option β} {acc r : β}
    (hstep : ∀ acc, ∀ a ∈ l, ∀ acc', P acc → step acc a = some acc' → P acc') (hacc : P acc)
    (h : l.foldlM step acc = some r) : P r := by
  induction l generalizing acc with
  | nil => exact Option.some.inj h ▸ hacc
  | cons a l ih =>
    rw [List.foldlM_cons] at h
    obtain ⟨acc', hacc', h⟩ := Option.bind_eq_some_iff.mp h
    exact ih (fun acc b hb => hstep acc b (.tail _ hb))
      (hstep acc a (.head _) acc' hacc hacc') h

/-- An anonymous member of an empty record is an empty record. -/
lemma isEmptyRecord_promoted (hparsed : Parsed structs) (hempty : isEmptyRecord structs id = true)
    {m : AnonMember} (hm : m ∈ (structs.at id).anonMembers) :
    isEmptyRecord structs m.inner = true := by
  obtain ⟨hvector, hcopied⟩ := hparsed.promoted id m hm
  rw [isEmptyRecord_eq, emptyBody, Bool.and_eq_true, List.all_eq_true] at hempty
  rw [isEmptyRecord_eq, emptyBody, hvector, Bool.not_false, Bool.true_and, List.all_eq_true]
  intro g hg
  obtain ⟨f, hf, hty, hsize, hlen, hwidth⟩ := hcopied g hg
  have := hempty.2 f hf
  rwa [hty, hsize, hlen, hwidth] at this

/-- The elements of a member without storage have no base type. -/
lemma memberElements_of_empty (hparsed : Parsed structs)
    (hinner : ∀ inner ∈ (structs.at id).holds, isEmptyRecord structs inner = true →
      ∀ acc, homogeneousElements structs target inner = some acc → acc.1 = none)
    {f : StructField} (hf : f ∈ (structs.at id).fields)
    (hempty : (f.zeroLen || (f.bitWidth == 0 && decide (0 ≤ f.arraySize) && match f.ty with
      | .struct inner => isEmptyRecord structs inner
      | _ => false)) = true) {member : Elements}
    (hmember : memberElements target (homogeneousElements structs target) f = some member) :
    member.1 = none := by
  unfold memberElements at hmember
  split at hmember
  · cases hmember
  · rename_i hplain
    rcases Bool.or_eq_true_iff.mp hempty with hzero | hrecord
    · exact absurd (.inr (hparsed.zeroLen id f hf hzero)) hplain
    · cases hty : f.ty with
      | struct inner =>
        rw [hty] at hmember hrecord
        obtain ⟨⟨kind, n⟩, hself, hmember⟩ := Option.bind_eq_some_iff.mp hmember
        rw [← Option.some.inj hmember]
        exact hinner inner (mem_holds_of_field hf hty) (Bool.and_eq_true_iff.mp hrecord).2 (kind, n)
          hself
      | pointer =>
        rw [hty, Bool.and_false] at hrecord
        cases hrecord
      | scalar s =>
        rw [hty, Bool.and_false] at hrecord
        cases hrecord

/-- The elements of an empty record have no base type. -/
lemma elements_of_empty (hparsed : Parsed structs) (hempty : isEmptyRecord structs id = true)
    {acc : Elements} (hacc : homogeneousElements structs target id = some acc) : acc.1 = none := by
  induction hrank : structs.rank id using Nat.strong_induction_on generalizing id acc with
  | _ r ih =>
    subst hrank
    have hinner : ∀ inner ∈ (structs.at id).holds, isEmptyRecord structs inner = true →
        ∀ acc, homogeneousElements structs target inner = some acc → acc.1 = none :=
      fun inner hmem hinner acc hacc => ih _ (structs.rank_lt id inner hmem) hinner hacc rfl
    have hpromoted : ∀ m ∈ (structs.at id).anonMembers, isEmptyRecord structs m.inner = true :=
      fun m hm => isEmptyRecord_promoted hparsed hempty hm
    have hadd : ∀ (acc acc' member : Elements), acc.1 = none → member.1 = none →
        addElements (structs.at id).isUnion acc member = some acc' → acc'.1 = none := by
      intro acc acc' member hacc hmember h
      unfold addElements at h
      rw [hacc, hmember] at h
      exact congrArg Prod.fst (Option.some.inj h).symm
    rw [isEmptyRecord_eq, emptyBody, Bool.and_eq_true, List.all_eq_true] at hempty
    rw [homogeneousElements_eq, homogeneousBody, if_neg (by simpa using hempty.1)] at hacc
    split at hacc
    · cases hacc
    · split at hacc
      · exact congrArg Prod.fst (Option.some.inj hacc).symm
      · obtain ⟨acc₁, hacc₁, hacc⟩ := Option.bind_eq_some_iff.mp hacc
        obtain ⟨acc₂, hacc₂, hacc⟩ := Option.bind_eq_some_iff.mp hacc
        have hnone₁ : acc₁.1 = none := by
          refine @foldlM_invariant _ _ (fun acc : Elements => acc.1 = none) _ _ _ _ ?_ rfl hacc₁
          intro acc m hm acc' hnone hstep
          obtain ⟨member, hmember, hstep⟩ := Option.bind_eq_some_iff.mp hstep
          exact hadd acc acc' member hnone
            (hinner m.inner (mem_holds_of_anon hm) (hpromoted m hm) member hmember) hstep
        have hnone₂ : acc₂.1 = none := by
          refine @foldlM_invariant _ _ (fun acc : Elements => acc.1 = none) _ _ _ _ ?_ hnone₁ hacc₂
          intro acc f hf acc' hnone hstep
          obtain ⟨member, hmember, hstep⟩ := Option.bind_eq_some_iff.mp hstep
          refine hadd acc acc' member hnone ?_ hstep
          have hfield : f ∈ (structs.at id).fields := by
            obtain ⟨p, hp, rfl⟩ := List.mem_map.mp hf
            exact List.fst_mem_of_mem_zipIdx (List.mem_filter.mp hp).1
          exact memberElements_of_empty hparsed hinner hfield (hempty.2 f hfield) hmember
        split at hacc
        · rw [← Option.some.inj hacc]
          exact hnone₂
        · cases hacc

lemma le_of_isBase {kind : ScalarKind} {width : ℕ} (h : isBase kind width = true) : width ≤ 16 := by
  cases kind <;> simp [isBase] at h <;> omega

/-- A homogeneous aggregate has elements of a base type. -/
lemma elements_of_homogeneous {hfa : HomogeneousAggregate}
    (h : homogeneousAggregate structs target id = some hfa) :
    ∃ kind width count, homogeneousElements structs target id = some (some (kind, width), count) ∧
      HomogeneousAggregate.new kind width count = some hfa := by
  by_cases harm : target.isAarch64 = true
  · rw [homogeneousAggregate, if_pos harm] at h
    generalize homogeneousElements structs target id = elements at h ⊢
    rcases elements with _ | ⟨_ | ⟨kind, width⟩, count⟩
    · cases h
    · cases h
    · exact ⟨kind, width, count, rfl, h⟩
  · rw [homogeneousAggregate, if_neg harm] at h
    cases h

/-- A homogeneous aggregate consists of its elements. -/
lemma abiSize_of_homogeneous (hparsed : Parsed structs) {hfa : HomogeneousAggregate}
    (h : homogeneousAggregate structs target id = some hfa) :
    abiSize structs target id = hfa.count * hfa.width := by
  obtain ⟨kind, width, count, helements, h⟩ := elements_of_homogeneous h
  have hempty : isEmptyRecord structs id ≠ true := fun hempty =>
    absurd (elements_of_empty hparsed hempty helements) (by simp)
  have hsize : abiSize structs target id = u32 (structs.at id).size := by
    rw [abiSize, if_neg fun h => hempty h.2]
  unfold HomogeneousAggregate.new at h
  split at h
  · rename_i hnew
    rw [← Option.some.inj h, hsize]
    dsimp only
    rw [homogeneousElements_eq] at helements
    unfold homogeneousBody at helements
    split at helements
    · split at helements
      · cases helements
        rw [Nat.one_mul]
      · cases helements
    · split at helements
      · cases helements
      · split at helements
        · cases helements
        · obtain ⟨acc₁, _, helements⟩ := Option.bind_eq_some_iff.mp helements
          obtain ⟨acc₂, _, helements⟩ := Option.bind_eq_some_iff.mp helements
          split at helements
          · rename_i hlayout
            rw [Option.some.inj helements] at hlayout
            change (structs.at id).size = count * width at hlayout
            rw [hlayout]
            have hle : count * width ≤ 4 * 16 := Nat.mul_le_mul hnew.2.2 (le_of_isBase hnew.1)
            exact Nat.mod_eq_of_lt (by omega)
          · cases helements
  · cases h

/-- A descriptor is that of an aggregate of the table, or that of a `long double` of 16 bytes. -/
lemma desc_cases {desc : AggDesc} (hdesc : hostAbiAggDescConv structs target conv ty = some desc) :
    (∃ id, ty = .struct id ∧ desc = aggDesc structs target id) ∨
      ∃ kind, desc = ⟨16, 16, 16, [⟨0, 16, kind, 16, false⟩], HomogeneousAggregate.new kind 16 1,
        false⟩ := by
  unfold hostAbiAggDescConv at hdesc
  split at hdesc
  · unfold longDoubleAggDesc at hdesc
    obtain ⟨kind, _, rfl⟩ := Option.map_eq_some_iff.mp hdesc
    exact .inr ⟨kind, rfl⟩
  · rename_i id
    refine .inl ⟨id, rfl, ?_⟩
    split at hdesc
    · cases hdesc
    · dsimp only at hdesc
      split at hdesc
      · split at hdesc
        · split at hdesc
          · exact (Option.some.inj hdesc).symm
          · cases hdesc
        · split at hdesc
          · cases hdesc
          · exact (Option.some.inj hdesc).symm
      · exact (Option.some.inj hdesc).symm
  · cases hdesc

/-- The descriptor of a homogeneous aggregate has the size of its elements. -/
lemma size_of_hostAbiAggDescConv (hparsed : Parsed structs) {desc : AggDesc}
    (hdesc : hostAbiAggDescConv structs target conv ty = some desc) (hfa : HomogeneousAggregate)
    (hhom : desc.homogeneous = some hfa) : desc.size = hfa.count * hfa.width := by
  rcases desc_cases hdesc with ⟨id, rfl, rfl⟩ | ⟨kind, rfl⟩
  · exact abiSize_of_homogeneous hparsed hhom
  · dsimp only at hhom
    unfold HomogeneousAggregate.new at hhom
    split at hhom
    · obtain rfl := Option.some.inj hhom
      rfl
    · cases hhom

/-! ## Leaves inside the aggregate -/

/-- The elements of a member. -/
def elementCount (f : StructField) : ℕ := if 0 < f.arraySize then u32 f.arraySize.toNat else 1

/-- Every member and every unnamed bit-field of the table lies inside its aggregate: a flexible or
zero-length array is taken to have one element. -/
structure Laid (structs : StructTable) (target : Target) : Prop where
  size_lt : ∀ id, (structs.at id).size < 2 ^ 32
  members : ∀ id, ∀ f ∈ (structs.at id).fields,
    (memberBytes structs target f).1 + elementCount f * (memberBytes structs target f).2 ≤
      (structs.at id).size
  bitScalar : ∀ id, ∀ f ∈ (structs.at id).fields, ∀ inner, f.ty = .struct inner → f.bitWidth = 0
  promoted : ∀ id, ∀ m ∈ (structs.at id).anonMembers,
    u32 m.offset + (structs.at m.inner).size ≤ (structs.at id).size
  bitFields : ∀ id, ∀ b ∈ (structs.at id).anonBitfields, (structs.at id).isUnion = false →
    0 < b.width → (b.bitStart + b.width + 7) / 8 ≤ (structs.at id).size

/-- The leaves of a list lie before a place. -/
def EndBy (fields : List FlatField) (limit : ℕ) : Prop := ∀ f ∈ fields, f.offset + f.size ≤ limit

lemma EndBy.append {left right : List FlatField} {limit : ℕ} (hleft : EndBy left limit)
    (hright : EndBy right limit) : EndBy (left ++ right) limit := fun f hf =>
  (List.mem_append.mp hf).elim (hleft f) (hright f)

section Leaves

variable {self : ℕ → ℕ → Bool → List FlatField} {base : ℕ} {checked : Bool}

/-- The leaves of a member lie inside the aggregate, where those of the aggregates it holds do. -/
lemma endBy_memberLeaves (hlaid : Laid structs target)
    (hself : ∀ inner ∈ (structs.at id).holds, ∀ base checked,
      EndBy (self inner base checked) (base + (structs.at inner).size))
    {f : StructField} (hf : f ∈ (structs.at id).fields) :
    EndBy (memberLeaves structs target self (structs.at id) base checked f)
      (base + (structs.at id).size) := by
  have hmember := hlaid.members id f hf
  have hstruct : ∀ inner, f.ty = .struct inner →
      (memberBytes structs target f).2 = (structs.at inner).size := by
    intro inner hty
    rw [memberBytes, if_neg (by rw [hlaid.bitScalar id f hf inner hty]; omega), hty]
    exact Nat.mod_eq_of_lt (hlaid.size_lt inner)
  intro leaf hleaf
  unfold memberLeaves at hleaf
  generalize memberBytes structs target f = bytes at hleaf hmember hstruct
  obtain ⟨off, size⟩ := bytes
  dsimp only at hleaf hmember hstruct
  obtain ⟨i, hi, hleaf⟩ := List.mem_flatMap.mp hleaf
  have hplace : i * size + size ≤ elementCount f * size := by
    rw [← Nat.succ_mul]
    exact Nat.mul_le_mul_right _ (List.mem_range.mp hi)
  cases hty : f.ty with
  | struct inner =>
    rw [hty] at hleaf
    have := hstruct inner hty
    have := hself inner (mem_holds_of_field hf hty) _ _ leaf hleaf
    omega
  | pointer =>
    rw [hty] at hleaf
    rw [List.mem_singleton.mp hleaf]
    dsimp only
    omega
  | scalar s =>
    rw [hty] at hleaf
    rw [List.mem_singleton.mp hleaf]
    dsimp only
    omega

/-- The leaves of the members from `next` on lie inside the aggregate. -/
lemma endBy_leavesFrom (hlaid : Laid structs target)
    (hself : ∀ inner ∈ (structs.at id).holds, ∀ base checked,
      EndBy (self inner base checked) (base + (structs.at inner).size))
    (fuel : ℕ) (members : List AnonMember) (next : ℕ)
    (hmembers : ∀ m ∈ members, m ∈ (structs.at id).anonMembers) :
    EndBy (leavesFrom structs target self (structs.at id) base checked fuel members next)
      (base + (structs.at id).size) := by
  induction fuel generalizing members next with
  | zero => exact fun _ h => absurd h List.not_mem_nil
  | succ fuel ih =>
    cases members with
    | nil =>
      unfold leavesFrom
      split
      · rename_i f hf
        exact (endBy_memberLeaves hlaid hself (List.mem_of_getElem? hf)).append (ih [] _ hmembers)
      · exact fun _ h => absurd h List.not_mem_nil
    | cons m members =>
      unfold leavesFrom
      split
      · have hm := hmembers m (.head _)
        refine EndBy.append (fun leaf hleaf => ?_)
          (ih members _ fun m' hm' => hmembers m' (.tail _ hm'))
        have := hself m.inner (mem_holds_of_anon hm) _ _ leaf hleaf
        have := hlaid.promoted id m hm
        omega
      · split
        · rename_i f hf
          exact (endBy_memberLeaves hlaid hself (List.mem_of_getElem? hf)).append
            (ih (m :: members) _ hmembers)
        · exact fun _ h => absurd h List.not_mem_nil

/-- The unnamed bit-fields lie inside the aggregate. -/
lemma endBy_unnamedBitFields (hlaid : Laid structs target) :
    EndBy (unnamedBitFields (structs.at id) base checked) (base + (structs.at id).size) := by
  intro leaf hleaf
  obtain ⟨b, hb, hleaf⟩ := List.mem_filterMap.mp hleaf
  obtain ⟨⟨first, last, align⟩, hpart, hleaf⟩ := Option.bind_eq_some_iff.mp hleaf
  have hlast : last ≤ (structs.at id).size := by
    split at hpart
    · cases hpart
      exact (Nat.min_le_right _ _).trans (Nat.mod_le _ _)
    · rename_i hunion
      split at hpart
      · rename_i hwidth
        cases hpart
        exact hlaid.bitFields id b hb (Bool.eq_false_iff.mpr hunion) hwidth
      · cases hpart
  change (if first < last then _ else none) = some leaf at hleaf
  split at hleaf
  · rw [← Option.some.inj hleaf]
    dsimp only
    omega
  · cases hleaf

end Leaves

/-- The leaves of an aggregate lie inside it. -/
lemma endBy_flattenLeaves (hlaid : Laid structs target) (base : ℕ) (checked : Bool) :
    EndBy (flattenLeaves structs target id base checked) (base + (structs.at id).size) := by
  induction hrank : structs.rank id using Nat.strong_induction_on generalizing id base checked with
  | _ r ih =>
    subst hrank
    have hself : ∀ inner ∈ (structs.at id).holds, ∀ base checked,
        EndBy (flattenLeaves structs target inner base checked) (base + (structs.at inner).size) :=
      fun inner hmem base checked => ih _ (structs.rank_lt id inner hmem) base checked rfl
    rw [flattenLeaves_eq]
    unfold flattenBody
    split
    · intro leaf hleaf
      rw [List.mem_singleton.mp hleaf]
      exact Nat.add_le_add_left (Nat.mod_le _ _) _
    · exact (endBy_leavesFrom hlaid hself _ _ 0 fun _ hm => hm).append (endBy_unnamedBitFields hlaid)

/-! ## Every byte is carried once -/

/-- **Registers carry an aggregate.**  Where a descriptor is classified into registers, its parts, its
SIMD slots on AArch64, and its slots on x86-64 and where there are no SIMD slots carry disjoint bytes of
the aggregate, each byte of a leaf in the aggregate once; an eightbyte that holds a byte of an integer
leaf is INTEGER under System V.  The System V class is that of every order of the leaves exactly where
no integer leaf, x87 leaf and leaf of a third class share an eightbyte, or the aggregate goes to memory
with its integers first.  All leaves are in the aggregate where the table lays its members inside and a
call moves all of it. -/
theorem registers_carry (hparsed : Parsed structs) {desc : AggDesc}
    (hdesc : hostAbiAggDescConv structs target conv ty = some desc) (isReturn : Bool) :
    (∀ classes, classifyAggregate desc (abiOf (target.abiRow conv)) isReturn = .regs classes →
      (∀ parts, registerParts desc (abiOf (target.abiRow conv)) isReturn = some parts →
        CarriesOnce desc.size desc.fields (parts.map RegPart.bytes)) ∧
      ((abiOf (target.abiRow conv)).arch = .aarch64 →
        ∀ members, fpMemberLayout desc isReturn = some members →
          CarriesOnce desc.size desc.fields members) ∧
      ((abiOf (target.abiRow conv)).arch = .x86_64 ∨ fpMemberLayout desc isReturn = none →
        CarriesOnce desc.size desc.fields (slotBytes desc.size classes)) ∧
      (target.abiRow conv = .linuxX64 → ∀ f ∈ desc.fields, f.kind = .int →
        ∀ b, f.offset ≤ b → b < f.offset + f.size → b < desc.size →
          (.integer, 8 * (b / 8)) ∈ registerSlots classes)) ∧
    ((∀ fields, fields.Perm desc.fields →
        classifySysv desc.size fields isReturn = classifySysv desc.size desc.fields isReturn) ↔
      (Contested desc.size desc.fields →
        classifySysv desc.size (integersFirst desc.fields) isReturn = memoryClass isReturn)) ∧
    (Laid structs target → (∀ id, ty = .struct id → desc.size = (structs.at id).size) →
      ∀ f ∈ desc.fields, f.offset + f.size ≤ desc.size) := by
  have hsize := size_of_hostAbiAggDescConv hparsed hdesc
  refine ⟨fun classes hclass => ?_, orderFree_iff, fun hlaid hwhole => ?_⟩
  · have hslots : (abiOf (target.abiRow conv)).arch = .x86_64 ∨
        (desc.homogeneous = none ∧ .vector ∉ classes) →
        CarriesOnce desc.size desc.fields (slotBytes desc.size classes) := by
      intro hwhere
      unfold classifyAggregate at hclass
      split at hclass
      · split at hclass
        · exact carriesOnce_win64 hclass
        · exact carriesOnce_sysv hclass
      · rename_i harch
        obtain ⟨hhom, hvector⟩ := hwhere.resolve_left harch
        exact carriesOnce_aapcs64 hclass hhom hvector
    refine ⟨fun parts hparts => ?_, fun _ members hmembers =>
      carriesOnce_fpMemberLayout hsize hmembers, fun hwhere => hslots ?_, ?_⟩
    · obtain ⟨hvector, hmembers | ⟨hwhere, hbytes⟩⟩ := bytes_registerParts hparts hclass
      · obtain ⟨hfa, hhom, hbytes⟩ := hmembers
        rw [hbytes, hsize hfa hhom]
        exact hfa.carriesOnce_members
      · rw [hbytes]
        exact hslots (hwhere.imp_right fun hhom => ⟨hhom, hvector⟩)
    · refine or_iff_not_imp_left.mpr fun harch => ?_
      rw [classifyAggregate, if_neg harch] at hclass
      exact aapcs64_of_fpMemberLayout_eq_none hclass (hwhere.resolve_left harch)
    · intro hrow f hf hint b hlo hhi hb
      rw [hrow] at hclass
      exact integer_mem_sysv hclass hf hint hlo hhi hb
  · rcases desc_cases hdesc with ⟨id, rfl, rfl⟩ | ⟨kind, rfl⟩
    · intro f hf
      have := endBy_flattenLeaves hlaid 0 true f hf
      rw [hwhole id rfl]
      omega
    · intro f hf
      rw [List.mem_singleton.mp hf]
      exact le_rfl

/-- A table of one aggregate that holds no other. -/
def oneAggregate (sd : StructDef) (h : sd.holds = []) : StructTable where
  defs := [sd]
  rank _ := 0
  rank_le _ := Nat.zero_le _
  rank_lt id inner hinner := by
    cases id with
    | zero => exact absurd hinner (by simp [h])
    | succ id => exact absurd hinner (by simp [StructDef.incomplete, StructDef.holds])

/-- A member of a scalar type at offset 0. -/
def scalarMember (s : Scalar) (arraySize : ℤ) (align : ℕ) : StructField :=
  ⟨0, .scalar s, arraySize, false, 0, 0, 0, 0, 0, align⟩

/-- `union { long double x; long i[2]; double d; }`. -/
def integersSecond : StructTable :=
  oneAggregate ⟨16, 16, 0, 16, 16,
    [scalarMember .longDouble 0 16, scalarMember .long 2 8, scalarMember .double 0 8], [], [], true,
    false⟩ rfl

/-- `union { long double x; double d; long i[2]; }`. -/
def integersThird : StructTable :=
  oneAggregate ⟨16, 16, 0, 16, 16,
    [scalarMember .longDouble 0 16, scalarMember .double 0 8, scalarMember .long 2 8], [], [], true,
    false⟩ rfl

/-- `struct { int n; int a[]; }`. -/
def flexible : StructTable :=
  oneAggregate ⟨4, 4, 0, 4, 4,
    [scalarMember .int 0 4, ⟨4, .scalar .int, -1, false, 0, 0, 0, 0, 0, 4⟩], [], [], false, false⟩ rfl

/-- The union with the integers second is returned in two registers that carry all its leaves. -/
theorem registers_carry_union :
    CarriesOnce 16 (flattenStructFields integersSecond .linuxX64 0) [(0, 8), (8, 8)] := by
  have hparsed : Parsed integersSecond := by
    constructor
    · intro id f hf
      match id with
      | 0 =>
        have hnone : ∀ f ∈ (integersSecond.at 0).fields, f.zeroLen = false := by decide
        rw [hnone f hf]
        exact fun h => absurd h (by decide)
      | _ + 1 => exact absurd hf List.not_mem_nil
    · intro id m hm
      match id with
      | 0 => exact absurd hm List.not_mem_nil
      | _ + 1 => exact absurd hm List.not_mem_nil
  have hdesc : hostAbiAggDescConv integersSecond .linuxX64 .target (.struct 0) =
      some (aggDesc integersSecond .linuxX64 0) := by decide
  have hclass : classifyAggregate (aggDesc integersSecond .linuxX64 0) (abiOf .linuxX64) true =
      .regs [.integer, .integer] := by decide
  exact ((registers_carry hparsed hdesc true).1 _ hclass).2.2.1 (.inl rfl)

/-- The unions have the same leaves in two orders; one is returned in memory and the other in two
registers.  The element that a flexible array counts for lies outside the one register. -/
theorem registers_carry_fails :
    (flattenStructFields integersThird .linuxX64 0).Perm (flattenStructFields integersSecond .linuxX64 0) ∧
    (hostAbiAggDescConv integersThird .linuxX64 .target (.struct 0)).map
      (classifyAggregate · (abiOf .linuxX64) true) = some .returnIndirect ∧
    (hostAbiAggDescConv integersSecond .linuxX64 .target (.struct 0)).map
      (classifyAggregate · (abiOf .linuxX64) true) = some (.regs [.integer, .integer]) ∧
    ∃ desc, hostAbiAggDescConv flexible .linuxX64 .target (.struct 0) = some desc ∧
      classifyAggregate desc (abiOf .linuxX64) false = .regs [.integer] ∧
      (registerParts desc (abiOf .linuxX64) false).map (List.map RegPart.bytes) = some [(0, 4)] ∧
      ∃ f ∈ desc.fields, f.offset = 4 ∧ f.size = 4 :=
  ⟨by decide, by decide, by decide, aggDesc flexible .linuxX64 0, by decide, by decide, by decide,
    by decide⟩

end Badc.Abi
