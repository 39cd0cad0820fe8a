import Badc.Abi.Classify

/-!
# How aggregates cross a call

`type_layout.rs`: the leaves of an aggregate, the homogeneous aggregate it forms, and the two questions
a call asks of it.  `passes_by_reference` decides from the size of the layout whether the caller hands
over the address of a copy; `host_abi_agg_desc_conv` decides from the size a call moves whether there is
a value to hand over.  The two disagree for an empty record of more than 16 bytes on the AArch64 targets
that move nothing for an empty record, and where the size is cut to 32 bits (`oneMode_iff`).
-/

namespace Badc.Abi

variable {structs : StructTable} {target : Target} {conv : CallConv} {id : ℕ}

/-- A number cut to 32 bits. -/
def u32 (n : ℕ) : ℕ := n % 2 ^ 32

/-- Arithmetic that stops at the largest 32-bit number. -/
def saturate (n : ℕ) : ℕ := min n (2 ^ 32 - 1)

/-! ## Leaves -/

/-- The kind of a member that is no aggregate. -/
def scalarKind (ty : Ty) (target : Target) : ScalarKind :=
  match ty with
  | .scalar .longDouble =>
    match target.longDouble with
    | .f64 => .f64
    | .x87 => .f80
    | .binary128 => .f128
  | .scalar .float => .f32
  | .scalar .double => .f64
  | _ => .int

/-- The bytes of the narrowest integer mode holding so many bits. -/
def intModeBytes (width : ℕ) : ℕ := ((max width 1 + 7) / 8).nextPowerOfTwo

/-- The unnamed bit-fields of an aggregate at `base` as leaves. -/
def unnamedBitFields (sd : StructDef) (base : ℕ) (checked : Bool) : List FlatField :=
  sd.anonBitfields.filterMap fun b =>
    let part : Option (ℕ × ℕ × ℕ) :=
      if sd.isUnion then some (0, min (max ((b.width + 7) / 8) 1) (u32 sd.size), intModeBytes b.width)
      else if 0 < b.width then some (b.bitStart / 8, (b.bitStart + b.width + 7) / 8, 1)
      else none
    part.bind fun (first, last, align) =>
      if first < last then
        some ⟨base + first, last - first, .int, if checked then align else 1, false⟩
      else none

/-- A bit-field's bytes, or those of an element of another member: the offset and the size. -/
def memberBytes (structs : StructTable) (target : Target) (f : StructField) : ℕ × ℕ :=
  if 0 < f.bitWidth then
    (u32 f.offset + f.bitOffset / 8, (f.bitOffset + f.bitWidth + 7) / 8 - f.bitOffset / 8)
  else
    match f.ty with
    | .struct id => (u32 f.offset, u32 (structs.at id).size)
    | ty => (u32 f.offset, flatScalarSize ty target)

/-- The boundary a member's leaf has to be on. -/
def memberAlign (isUnion : Bool) (f : StructField) (size : ℕ) : ℕ :=
  if f.bitWidth = 0 then min (max size 1) 16
  else if isUnion then intModeBytes f.bitWidth
  else 1

/-- An aggregate is a vector of one floating-point element. -/
def isSingleFpVector (sd : StructDef) (target : Target) : Bool :=
  sd.isVector && match sd.fields with
    | [f] => f.arraySize == 1 && (scalarKind f.ty target).isFpScalar
    | _ => false

/-- The leaves of a member, element by element; `self` gives those of an aggregate. -/
def memberLeaves (structs : StructTable) (target : Target) (self : ℕ → ℕ → Bool → List FlatField)
    (sd : StructDef) (base : ℕ) (checked : Bool) (f : StructField) : List FlatField :=
  let (off, size) := memberBytes structs target f
  let count := if 0 < f.arraySize then u32 f.arraySize.toNat else 1
  (List.range count).flatMap fun i =>
    let place := base + off + i * size
    let checked := checked && i == 0
    match f.ty with
    | .struct id => self id place checked
    | ty => [⟨place, size, scalarKind ty target,
        if checked then memberAlign sd.isUnion f size else 1, isSingleFpVector sd target⟩]

/-- The leaves of the members from `next` on, where the members promoted from anonymous aggregates are
one aggregate each. -/
def leavesFrom (structs : StructTable) (target : Target) (self : ℕ → ℕ → Bool → List FlatField)
    (sd : StructDef) (base : ℕ) (checked : Bool) : ℕ → List AnonMember → ℕ → List FlatField
  | 0, _, _ => []
  | fuel + 1, m :: members, next =>
    if m.first ≤ next then
      self m.inner (base + u32 m.offset) checked ++
        leavesFrom structs target self sd base checked fuel members (max next (m.first + m.count))
    else
      match sd.fields[next]? with
      | some f => memberLeaves structs target self sd base checked f ++
          leavesFrom structs target self sd base checked fuel (m :: members) (next + 1)
      | none => []
  | fuel + 1, [], next =>
    match sd.fields[next]? with
    | some f => memberLeaves structs target self sd base checked f ++
        leavesFrom structs target self sd base checked fuel [] (next + 1)
    | none => []

/-- The leaves of an aggregate at `base`; `checked` says that their alignment binds. -/
def flattenBody (structs : StructTable) (target : Target) (self : ℕ → ℕ → Bool → List FlatField)
    (sd : StructDef) (base : ℕ) (checked : Bool) : List FlatField :=
  if sd.isVector && isAbiVectorWidth (u32 sd.size) then
    [⟨base, u32 sd.size, .vector, if checked then min (max (u32 sd.size) 1) 16 else 1,
      isSingleFpVector sd target⟩]
  else
    leavesFrom structs target self sd base checked (sd.anonMembers.length + sd.fields.length + 1)
      sd.anonMembers 0 ++ unnamedBitFields sd base checked

lemma mem_holds_of_field {sd : StructDef} {f : StructField} (hf : f ∈ sd.fields)
    (hty : f.ty = .struct id) : id ∈ sd.holds := by
  refine List.mem_append_left _ (List.mem_filterMap.mpr ⟨f, hf, ?_⟩)
  rw [hty]

lemma mem_holds_of_anon {sd : StructDef} {m : AnonMember} (hm : m ∈ sd.anonMembers) :
    m.inner ∈ sd.holds :=
  List.mem_append_right _ (List.mem_map_of_mem hm)

/-- The leaves of an aggregate depend on the leaves of those it holds. -/
lemma flattenBody_congr {f g : ℕ → ℕ → Bool → List FlatField} {sd : StructDef}
    (h : ∀ inner ∈ sd.holds, f inner = g inner) :
    flattenBody structs target f sd = flattenBody structs target g sd := by
  have hmember : ∀ base checked, ∀ fld ∈ sd.fields,
      memberLeaves structs target f sd base checked fld =
        memberLeaves structs target g sd base checked fld := by
    intro base checked fld hfld
    unfold memberLeaves
    cases hty : fld.ty with
    | struct id =>
      dsimp only
      rw [h id (mem_holds_of_field hfld hty)]
    | pointer => rfl
    | scalar s => rfl
  have hfrom : ∀ base checked fuel members next, (∀ m ∈ members, m ∈ sd.anonMembers) →
      leavesFrom structs target f sd base checked fuel members next =
        leavesFrom structs target g sd base checked fuel members next := by
    intro base checked fuel
    induction fuel with
    | zero => exact fun _ _ _ => rfl
    | succ fuel ih =>
      intro members next hmembers
      cases members with
      | nil =>
        unfold leavesFrom
        split
        · rename_i fld hfld
          rw [hmember base checked fld (List.mem_of_getElem? hfld), ih [] _ hmembers]
        · rfl
      | cons m members =>
        unfold leavesFrom
        split
        · rw [h m.inner (mem_holds_of_anon (hmembers m (.head _))),
            ih members _ fun m' hm' => hmembers m' (.tail _ hm')]
        · split
          · rename_i fld hfld
            rw [hmember base checked fld (List.mem_of_getElem? hfld), ih (m :: members) _ hmembers]
          · rfl
  funext base checked
  unfold flattenBody
  rw [hfrom base checked _ sd.anonMembers 0 fun _ hm => hm]

/-- The leaves of an aggregate and of those it holds, at any place. -/
def flattenLeaves (structs : StructTable) (target : Target) : ℕ → ℕ → Bool → List FlatField :=
  structs.descend (flattenBody structs target) fun _ _ => []

/-- Flattening goes down through the aggregates that are held. -/
theorem flattenLeaves_eq (id : ℕ) : flattenLeaves structs target id =
    flattenBody structs target (flattenLeaves structs target) (structs.at id) :=
  @StructTable.descend_eq _ structs (flattenBody structs target) _
    (fun _ _ _ h => flattenBody_congr h) id

/-- The leaves of an aggregate. -/
def flattenStructFields (structs : StructTable) (target : Target) (id : ℕ) : List FlatField :=
  flattenLeaves structs target id 0 true

/-! ## Homogeneous aggregates -/

/-- The base type of an aggregate, none before the first element, and the number of elements. -/
abbrev Elements : Type := Option (ScalarKind × ℕ) × ℕ

/-- Count a member of so many elements. -/
def addElements (isUnion : Bool) (acc : Elements) (member : Elements) : Option Elements :=
  if member.1.isSome && acc.1.isSome && member.1 != acc.1 then none
  else some (acc.1.orElse fun _ => member.1,
    if isUnion then max acc.2 member.2 else saturate (acc.2 + member.2))

/-- The elements of a member that is not promoted. -/
def memberElements (target : Target) (self : ℕ → Option Elements) (f : StructField) :
    Option Elements :=
  if 0 < f.bitWidth ∨ f.arraySize < 0 then none
  else do
    let (kind, n) ← match f.ty with
      | .struct id => self id
      | ty =>
        if isBase (scalarKind ty target) (flatScalarSize ty target) then
          some (some (scalarKind ty target, flatScalarSize ty target), 1)
        else none
    let len := saturate (max f.arraySize 1).toNat
    return (kind, saturate (n * len))

/-- The members that are not promoted from an anonymous aggregate. -/
def ownFields (sd : StructDef) : List StructField :=
  (sd.fields.zipIdx.filter fun p =>
    !sd.anonMembers.any fun m => decide (m.first ≤ p.2 ∧ p.2 < m.first + m.count)).map Prod.fst

/-- The elements of an aggregate. -/
def homogeneousBody (target : Target) (self : ℕ → Option Elements) (sd : StructDef) :
    Option Elements :=
  if sd.isVector then
    if isBase .vector (u32 sd.size) then some (some (.vector, u32 sd.size), 1) else none
  else if sd.anonBitfields.any fun b => decide (0 < b.width) then none
  else if sd.fields.isEmpty && sd.anonMembers.isEmpty then some (none, 0)
  else do
    let acc ← sd.anonMembers.foldlM
      (fun acc m => do addElements sd.isUnion acc (← self m.inner)) ((none, 0) : Elements)
    let acc ← (ownFields sd).foldlM
      (fun acc f => do addElements sd.isUnion acc (← memberElements target self f)) acc
    if sd.size = acc.2 * (acc.1.map Prod.snd).getD 0 then some acc else none

/-- The elements of an aggregate of the table. -/
def homogeneousElements (structs : StructTable) (target : Target) (id : ℕ) : Option Elements :=
  structs.descend (homogeneousBody target) none id

lemma foldlM_congr_mem {α β : Type} {l : List α} {f g : β → α → Option β} {acc : β}
    (h : ∀ acc, ∀ a ∈ l, f acc a = g acc a) : l.foldlM f acc = l.foldlM g acc := by
  induction l generalizing acc with
  | nil => rfl
  | cons a l ih =>
    rw [List.foldlM_cons, List.foldlM_cons, h acc a List.mem_cons_self]
    exact congrArg ((g acc a).bind ·) (funext fun acc =>
      ih fun acc b hb => h acc b (.tail _ hb))

/-- The elements of an aggregate depend on the elements of those it holds. -/
lemma homogeneousBody_congr {f g : ℕ → Option Elements} {sd : StructDef}
    (h : ∀ inner ∈ sd.holds, f inner = g inner) :
    homogeneousBody target f sd = homogeneousBody target g sd := by
  have hmember : ∀ fld ∈ sd.fields, memberElements target f fld = memberElements target g fld := by
    intro fld hfld
    unfold memberElements
    cases hty : fld.ty with
    | struct id =>
      dsimp only
      rw [h id (mem_holds_of_field hfld hty)]
    | pointer => rfl
    | scalar s => rfl
  have hown : ∀ fld ∈ ownFields sd, fld ∈ sd.fields := by
    intro fld hfld
    obtain ⟨p, hp, rfl⟩ := List.mem_map.mp hfld
    exact List.fst_mem_of_mem_zipIdx (List.mem_filter.mp hp).1
  have hanon := fun acc => @foldlM_congr_mem _ _ sd.anonMembers _ _ acc fun acc m hm =>
    congrArg (fun x : Option Elements => x.bind (addElements sd.isUnion acc))
      (h m.inner (mem_holds_of_anon hm))
  have hfields := fun acc => @foldlM_congr_mem _ _ (ownFields sd) _ _ acc fun acc fld hfld =>
    congrArg (fun x : Option Elements => x.bind (addElements sd.isUnion acc))
      (hmember fld (hown fld hfld))
  unfold homogeneousBody
  simp only [Option.bind_eq_bind, hanon, hfields]

/-- Counting elements goes down through the aggregates that are held. -/
theorem homogeneousElements_eq (id : ℕ) : homogeneousElements structs target id =
    homogeneousBody target (homogeneousElements structs target) (structs.at id) :=
  @StructTable.descend_eq _ structs (homogeneousBody target) _
    (fun _ _ _ h => homogeneousBody_congr h) id

/-- The homogeneous aggregate of AAPCS64 an aggregate forms. -/
def homogeneousAggregate (structs : StructTable) (target : Target) (id : ℕ) :
    Option HomogeneousAggregate :=
  if target.isAarch64 then do
    let (base, count) ← homogeneousElements structs target id
    let (kind, width) ← base
    HomogeneousAggregate.new kind width count
  else none

/-! ## Empty records -/

/-- An aggregate holds no member with storage. -/
def emptyBody (self : ℕ → Bool) (sd : StructDef) : Bool :=
  !sd.isVector && sd.fields.all fun f => f.zeroLen ||
    (f.bitWidth == 0 && decide (0 ≤ f.arraySize) && match f.ty with
      | .struct id => self id
      | _ => false)

/-- An aggregate of the table holds no member with storage. -/
def isEmptyRecord (structs : StructTable) (id : ℕ) : Bool := structs.descend emptyBody false id

/-- Whether an aggregate is empty depends on those it holds. -/
lemma emptyBody_congr {f g : ℕ → Bool} {sd : StructDef}
    (h : ∀ inner ∈ sd.holds, f inner = g inner) : emptyBody f sd = emptyBody g sd := by
  unfold emptyBody
  refine congrArg (!sd.isVector && ·) ?_
  rw [Bool.eq_iff_iff, List.all_eq_true, List.all_eq_true]
  refine forall₂_congr fun fld hfld => ?_
  cases hty : fld.ty with
  | struct id =>
    dsimp only
    rw [h id (mem_holds_of_field hfld hty)]
  | pointer => rfl
  | scalar s => rfl

/-- Emptiness goes down through the aggregates that are held. -/
theorem isEmptyRecord_eq (id : ℕ) :
    isEmptyRecord structs id = emptyBody (isEmptyRecord structs) (structs.at id) :=
  @StructTable.descend_eq _ structs emptyBody _ (fun _ _ _ h => emptyBody_congr h) id

/-- The bytes a call moves for an aggregate: none for an empty record on Apple and Windows AArch64. -/
def abiSize (structs : StructTable) (target : Target) (id : ℕ) : ℕ :=
  if (target = .macOSAarch64 ∨ target = .windowsAarch64) ∧ isEmptyRecord structs id = true then 0
  else u32 (structs.at id).size

/-! ## The questions a call asks -/

/-- The descriptor of an aggregate of the table. -/
def aggDesc (structs : StructTable) (target : Target) (id : ℕ) : AggDesc where
  size := abiSize structs target id
  align := u32 (max (structs.at id).align 1)
  memberAlign := u32 (max (structs.at id).memberAlign 1)
  fields := flattenStructFields structs target id
  homogeneous := homogeneousAggregate structs target id
  vector := (structs.at id).isVector

/-- The descriptor a `long double` crosses a call as, where it crosses as an object of 16 bytes. -/
def longDoubleAggDesc (target : Target) (conv : CallConv) : Option AggDesc :=
  let kind : Option ScalarKind := match target.abiRow conv, target.longDouble with
    | .linuxX64, .x87 => some .f80
    | .linuxAarch64, .binary128 => some .f128
    | _, _ => none
  kind.map fun kind => ⟨16, 16, 16, [⟨0, 16, kind, 16, false⟩], HomogeneousAggregate.new kind 16 1, false⟩

/-- The descriptor of a type that is passed by value under a convention, none for a type that takes none
and for an aggregate that the convention passes by reference. -/
def hostAbiAggDescConv (structs : StructTable) (target : Target) (conv : CallConv) (ty : Ty) :
    Option AggDesc :=
  match ty with
  | .scalar .longDouble => longDoubleAggDesc target conv
  | .struct id =>
    if structs.defs.length ≤ id then none
    else
      let desc := aggDesc structs target id
      if desc.homogeneous.isNone then
        if target.abiRow conv = .windowsX64 then
          if desc.size = 1 ∨ desc.size = 2 ∨ desc.size = 4 ∨ desc.size = 8 then some desc else none
        else if 16 < desc.size ∧ target.abiRow conv ≠ .linuxX64 then none
        else some desc
      else some desc
  | _ => none

/-- An argument is passed as the address of a copy. -/
def passesByReference (structs : StructTable) (target : Target) (conv : CallConv) (ty : Ty)
    (isVariadic : Bool) : Bool :=
  match ty with
  | .struct id =>
    if structs.defs.length ≤ id then false
    else
      let size := (structs.at id).size
      let homogeneous := (homogeneousAggregate structs target id).isSome
      match target.abiRow conv with
      | .linuxAarch64 | .macOSAarch64 => decide (16 < size) && !homogeneous
      | .windowsAarch64 => decide (16 < size) && (isVariadic || !homogeneous)
      | .windowsX64 => !decide (size = 1 ∨ size = 2 ∨ size = 4 ∨ size = 8)
      | .linuxX64 => false
  | _ => false

/-- How a function returns a value. -/
inductive StructReturnAbi
  | notStruct
  | outPtr
  | regs (desc : AggDesc)
  | indirect (desc : AggDesc)
  deriving DecidableEq

/-- How a function returns a value under a convention. -/
def structReturnAbiConv (structs : StructTable) (target : Target) (conv : CallConv) (ty : Ty) :
    StructReturnAbi :=
  match ty with
  | .scalar .longDouble => ((longDoubleAggDesc target conv).map .regs).getD .notStruct
  | .struct id =>
    let row := target.abiRow conv
    if !target.isAarch64 ∧ row ≠ .linuxX64 ∧ row ≠ .windowsX64 then .outPtr
    else if structs.defs.length ≤ id then .outPtr
    else
      let desc := aggDesc structs target id
      if desc.homogeneous.isSome then .regs desc
      else if row = .windowsX64 then
        if desc.size = 1 ∨ desc.size = 2 ∨ desc.size = 4 ∨ desc.size = 8 then .regs desc else .outPtr
      else if !target.isAarch64 then
        if classifyAggregate desc (abiOf row) true = .returnIndirect then .outPtr else .regs desc
      else if desc.size ≤ 16 then .regs desc
      else .indirect desc
  | _ => .notStruct

/-! ## One mode for each aggregate -/

/-- An aggregate of this size goes in a register under the Microsoft x64 convention. -/
def RegisterSized (size : ℕ) : Prop := size = 1 ∨ size = 2 ∨ size = 4 ∨ size = 8

instance (size : ℕ) : Decidable (RegisterSized size) := inferInstanceAs (Decidable (_ ∨ _))

/-- The size a call moves and the size of the layout are on the same side of what the convention passes
by value: neither is an empty record of over 16 bytes left out, nor a size cut to 32 bits. -/
def SizesAgree (structs : StructTable) (target : Target) (conv : CallConv) (id : ℕ) : Prop :=
  match target.abiRow conv with
  | .linuxX64 => True
  | .windowsX64 => RegisterSized (u32 (structs.at id).size) → (structs.at id).size < 2 ^ 32
  | .linuxAarch64 => (homogeneousAggregate structs target id).isSome = true ∨
      (structs.at id).size ≤ 16 ∨ 16 < u32 (structs.at id).size
  | .macOSAarch64 | .windowsAarch64 => (homogeneousAggregate structs target id).isSome = true ∨
      (structs.at id).size ≤ 16 ∨
        (isEmptyRecord structs id = false ∧ 16 < u32 (structs.at id).size)

lemma homogeneousAggregate_eq_none (h : target.isAarch64 = false) :
    homogeneousAggregate structs target id = none := by
  unfold homogeneousAggregate
  rw [h]
  rfl

lemma abiRow_of_isAarch64 (h : target.isAarch64 = true) : target.abiRow conv = target := by
  cases target <;> cases conv <;> first | rfl | exact absurd h (by decide)

lemma abiRow_of_not_isAarch64 (h : target.isAarch64 = false) :
    target.abiRow conv = .linuxX64 ∨ target.abiRow conv = .windowsX64 := by
  cases target <;> cases conv <;> first | decide | exact absurd h (by decide)

lemma abiSize_le : abiSize structs target id ≤ (structs.at id).size := by
  unfold abiSize
  split
  · exact Nat.zero_le _
  · exact Nat.mod_le _ _

/-- On an AArch64 target the two sizes agree where an aggregate that is not homogeneous is over 16 bytes
in one as in the other. -/
lemma sizesAgree_aarch64 (htarget : target.isAarch64 = true) :
    SizesAgree structs target conv id ↔
      (homogeneousAggregate structs target id).isSome = true ∨ (structs.at id).size ≤ 16 ∨
        16 < abiSize structs target id := by
  unfold SizesAgree abiSize
  rw [abiRow_of_isAarch64 htarget]
  cases target with
  | linuxX64 => exact absurd htarget (by decide)
  | windowsX64 => exact absurd htarget (by decide)
  | linuxAarch64 => simp
  | macOSAarch64 => cases isEmptyRecord structs id <;> simp
  | windowsAarch64 => cases isEmptyRecord structs id <;> simp

lemma abiSize_of_not_isAarch64 (h : target.isAarch64 = false) :
    abiSize structs target id = u32 (structs.at id).size := by
  unfold abiSize
  rw [if_neg]
  rintro ⟨rfl | rfl, -⟩
  · exact absurd h (by decide)
  · exact absurd h (by decide)

/-- The two questions about an argument have one answer exactly where the sizes agree. -/
lemma passesByReference_iff (hid : id < structs.defs.length) :
    (passesByReference structs target conv (.struct id) false = true ↔
      hostAbiAggDescConv structs target conv (.struct id) = none) ↔
      SizesAgree structs target conv id := by
  have hrange : ¬ structs.defs.length ≤ id := by omega
  have hdesc : (aggDesc structs target id).size = abiSize structs target id := rfl
  have hhom : (aggDesc structs target id).homogeneous = homogeneousAggregate structs target id := rfl
  unfold passesByReference hostAbiAggDescConv
  dsimp only
  rw [if_neg hrange, if_neg hrange, hdesc, hhom]
  cases harch : target.isAarch64 with
  | true =>
    rw [sizesAgree_aarch64 harch, abiRow_of_isAarch64 harch]
    have hle : abiSize structs target id ≤ (structs.at id).size := abiSize_le
    cases hsome : homogeneousAggregate structs target id with
    | some hfa =>
      cases target with
      | linuxX64 => exact absurd harch (by decide)
      | windowsX64 => exact absurd harch (by decide)
      | linuxAarch64 => simp
      | macOSAarch64 => simp
      | windowsAarch64 => simp
    | none =>
      cases target with
      | linuxX64 => exact absurd harch (by decide)
      | windowsX64 => exact absurd harch (by decide)
      | linuxAarch64 => simp; omega
      | macOSAarch64 => simp; omega
      | windowsAarch64 => simp; omega
  | false =>
    rw [homogeneousAggregate_eq_none harch, abiSize_of_not_isAarch64 harch]
    unfold SizesAgree
    rcases @abiRow_of_not_isAarch64 target conv harch with hrow | hrow
    · rw [hrow]
      simp
    · rw [hrow]
      dsimp only [Option.isNone_none]
      rw [if_pos rfl, if_pos rfl, ite_eq_right_iff, Bool.not_eq_true', decide_eq_false_iff_not]
      change (¬ RegisterSized (structs.at id).size ↔
        RegisterSized (u32 (structs.at id).size) → some _ = none) ↔ _
      by_cases hlt : (structs.at id).size < 2 ^ 32
      · rw [show u32 (structs.at id).size = (structs.at id).size from Nat.mod_eq_of_lt hlt]
        simp only [hlt, reduceCtorEq, imp_false, implies_true]
      · have hbig : ¬ RegisterSized (structs.at id).size := by
          unfold RegisterSized
          omega
        simp only [hbig, hlt, not_false_eq_true, true_iff, reduceCtorEq]

lemma abiOf_aarch64 (h : target.isAarch64 = true) : abiOf target = ⟨.aarch64, false⟩ := by
  cases target <;> first | rfl | exact absurd h (by decide)

/-- An argument that has a descriptor is not classified by reference. -/
lemma classifyAggregate_ne_byRef {desc : AggDesc}
    (h : hostAbiAggDescConv structs target conv (.struct id) = some desc) :
    classifyAggregate desc (abiOf (target.abiRow conv)) false ≠ .byRef := by
  unfold hostAbiAggDescConv at h
  dsimp only at h
  obtain ⟨-, h⟩ := Option.ite_none_left_eq_some.mp h
  cases harch : target.isAarch64 with
  | true =>
    rw [abiRow_of_isAarch64 harch] at h ⊢
    rw [abiOf_aarch64 harch]
    intro hclass
    obtain ⟨hnone, hsize⟩ := (classifyAapcs64_eq desc false).mp hclass
    have hwin : target ≠ .windowsX64 := by
      rintro rfl
      exact absurd harch (by decide)
    have hlinux : target ≠ .linuxX64 := by
      rintro rfl
      exact absurd harch (by decide)
    rw [if_neg hwin] at h
    have hdesc : aggDesc structs target id = desc := by
      split at h
      · exact Option.some.inj (Option.ite_none_left_eq_some.mp h).2
      · exact Option.some.inj h
    rw [hdesc, hnone, if_pos Option.isNone_none, if_pos ⟨hsize, hlinux⟩] at h
    exact absurd h (by simp)
  | false =>
    rcases @abiRow_of_not_isAarch64 target conv harch with hrow | hrow
    · rw [hrow]
      exact classifySysv_ne_byRef desc.size desc.fields false
    · have hnone : (aggDesc structs target id).homogeneous = none :=
        homogeneousAggregate_eq_none harch
      rw [hrow, hnone, if_pos Option.isNone_none, if_pos rfl] at h
      obtain ⟨hsize, h⟩ := Option.ite_none_right_eq_some.mp h
      rw [hrow, ← Option.some.inj h]
      change classifyWin64 (aggDesc structs target id).size false ≠ _
      unfold classifyWin64
      rw [if_pos hsize]
      simp

/-- A function returns an aggregate in registers exactly where it is not classified as returned through a
pointer. -/
lemma structReturnAbiConv_regs_iff (hid : id < structs.defs.length) :
    structReturnAbiConv structs target conv (.struct id) = .regs (aggDesc structs target id) ↔
      classifyAggregate (aggDesc structs target id) (abiOf (target.abiRow conv)) true ≠
        .returnIndirect := by
  have hrange : ¬ structs.defs.length ≤ id := by omega
  unfold structReturnAbiConv
  dsimp only
  cases harch : target.isAarch64 with
  | true =>
    have hwin : target ≠ .windowsX64 := by
      rintro rfl
      exact absurd harch (by decide)
    rw [if_neg (by simp), if_neg hrange, abiRow_of_isAarch64 harch, abiOf_aarch64 harch, if_neg hwin]
    change _ ↔ classifyAapcs64 _ true ≠ (if true then .returnIndirect else .byRef)
    rw [Ne, classifyAapcs64_eq]
    cases hhom : (aggDesc structs target id).homogeneous with
    | some hfa => simp
    | none =>
      by_cases hsize : (aggDesc structs target id).size ≤ 16
      · simp [hsize]
      · simp [hsize]
  | false =>
    have hnone : (aggDesc structs target id).homogeneous = none := homogeneousAggregate_eq_none harch
    rcases @abiRow_of_not_isAarch64 target conv harch with hrow | hrow
    · rw [hrow, if_neg (by simp), if_neg hrange, hnone, if_neg (by simp), if_neg (by simp),
        if_pos (by simp)]
      by_cases hclass : classifyAggregate (aggDesc structs target id) (abiOf .linuxX64) true =
          .returnIndirect
      · simp [hclass]
      · simp [hclass]
    · rw [hrow, if_neg (by simp), if_neg hrange, hnone, if_neg (by simp), if_pos rfl]
      change _ ↔ classifyWin64 (aggDesc structs target id).size true ≠ _
      unfold classifyWin64
      by_cases hsize : (aggDesc structs target id).size = 1 ∨ (aggDesc structs target id).size = 2 ∨
          (aggDesc structs target id).size = 4 ∨ (aggDesc structs target id).size = 8
      · simp [hsize]
      · simp [hsize]

/-- Every aggregate of the table has one mode on a target and convention: the caller passes the address
of a copy exactly where there is no descriptor, a descriptor is not classified by reference, and the
value comes back in registers exactly where its class does not send it through a pointer. -/
def OneMode (structs : StructTable) (target : Target) (conv : CallConv) (id : ℕ) : Prop :=
  (passesByReference structs target conv (.struct id) false = true ↔
    hostAbiAggDescConv structs target conv (.struct id) = none) ∧
  (∀ desc, hostAbiAggDescConv structs target conv (.struct id) = some desc →
    classifyAggregate desc (abiOf (target.abiRow conv)) false ≠ .byRef) ∧
  (structReturnAbiConv structs target conv (.struct id) = .regs (aggDesc structs target id) ↔
    classifyAggregate (aggDesc structs target id) (abiOf (target.abiRow conv)) true ≠ .returnIndirect)

/-- An aggregate has one mode exactly where the size a call moves and the size of its layout agree. -/
theorem oneMode_iff (hid : id < structs.defs.length) :
    OneMode structs target conv id ↔ SizesAgree structs target conv id := by
  rw [← passesByReference_iff hid]
  refine ⟨fun h => h.1, fun h => ⟨h, fun desc hdesc => classifyAggregate_ne_byRef hdesc, ?_⟩⟩
  exact structReturnAbiConv_regs_iff hid

/-- A structure of five unnamed bit-fields of 32 bits, `struct { int : 32; … }`. -/
def reserved : StructTable where
  defs := [⟨20, 1, 0, 1, 1, [], (List.range 5).map fun k => ⟨0, 32, 4, 4, 0, 0, 32 * k⟩, [], false,
    false⟩]
  rank _ := 0
  rank_le _ := Nat.zero_le _
  rank_lt id inner hinner := by
    cases id with
    | zero => exact absurd hinner (by simp [StructDef.holds])
    | succ id => exact absurd hinner (by simp [StructDef.incomplete, StructDef.holds])

/-- The structure has one mode on Linux. -/
theorem oneMode_reserved : OneMode reserved .linuxAarch64 .target 0 :=
  (oneMode_iff (by decide)).mpr (Or.inr (Or.inr (by decide)))

/-- On macOS the caller passes the address of a copy, and the callee has a descriptor of no bytes. -/
theorem not_oneMode_reserved : passesByReference reserved .macOSAarch64 .target (.struct 0) false = true ∧
    (hostAbiAggDescConv reserved .macOSAarch64 .target (.struct 0)).map AggDesc.size = some 0 ∧
    ¬ OneMode reserved .macOSAarch64 .target 0 := by
  refine ⟨by decide, by decide, fun h => ?_⟩
  exact absurd (h.1.mp (by decide)) (by decide)

end Badc.Abi
