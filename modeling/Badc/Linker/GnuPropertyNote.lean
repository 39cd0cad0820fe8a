import Badc.Linker.GnuProperty

/-!
# A merged note reads back

`encode` writes a property as a block of a whole number of alignments, so the walk over a descriptor
and the writer stay in step: `properties_encode` reads the properties back, while the sizes fit their
32-bit fields.
-/

namespace Badc.GnuProperty

variable {n m align : ℕ} {props : List Property} {p : Property} {note before : List Byte}

/-! ## Rounding up -/

lemma le_nextMultipleOf (hm : 0 < m) : n ≤ nextMultipleOf n m := by
  have hdiv := Nat.div_add_mod (n + (m - 1)) m
  have hmod := Nat.mod_lt (n + (m - 1)) hm
  rw [Nat.mul_comm] at hdiv
  unfold nextMultipleOf
  omega

lemma dvd_nextMultipleOf : m ∣ nextMultipleOf n m := Nat.dvd_mul_left _ _

lemma nextMultipleOf_add (hm : 0 < m) (h : m ∣ n) {k : ℕ} :
    nextMultipleOf (n + k) m = n + nextMultipleOf k m := by
  obtain ⟨c, rfl⟩ := h
  rw [nextMultipleOf, nextMultipleOf, Nat.add_assoc, Nat.mul_add_div hm, Nat.add_mul,
    Nat.mul_comm c m]

lemma nextMultipleOf_of_dvd (hm : 0 < m) (h : m ∣ n) : nextMultipleOf n m = n := by
  have hzero : nextMultipleOf 0 m = 0 := by
    rw [nextMultipleOf, Nat.div_eq_of_lt (by omega), Nat.zero_mul]
  simpa [hzero] using nextMultipleOf_add (k := 0) hm h

/-! ## The blocks of a descriptor -/

/-- A property as it stands in a descriptor, filled up to the alignment. -/
def Property.block (align : ℕ) (p : Property) : List Byte :=
  leBytes 4 p.ty ++ leBytes 4 p.data.length ++ p.data ++
    List.replicate (nextMultipleOf p.data.length align - p.data.length) 0

lemma length_block (halign : 0 < align) :
    (p.block align).length = 8 + nextMultipleOf p.data.length align := by
  have hle := le_nextMultipleOf (n := p.data.length) halign
  simp only [Property.block, List.length_append, length_leBytes, List.length_replicate]
  omega

/-- A property after blocks adds its block. -/
lemma padTo_append_block {desc : List Byte} (halign : 0 < align) (h8 : align ∣ 8)
    (hdesc : align ∣ desc.length) :
    padTo align (desc ++ leBytes 4 p.ty ++ leBytes 4 p.data.length ++ p.data) =
      desc ++ p.block align := by
  have hlen : (desc ++ leBytes 4 p.ty ++ leBytes 4 p.data.length ++ p.data).length =
      desc.length + 8 + p.data.length := by
    simp only [List.length_append, length_leBytes]
  rw [padTo, hlen, nextMultipleOf_add halign (hdesc.add h8), Property.block,
    Nat.add_sub_add_left]
  simp only [List.append_assoc]

/-- A descriptor is the blocks of its properties. -/
lemma encodeDesc_eq (halign : 0 < align) (h8 : align ∣ 8) :
    encodeDesc props align = props.flatMap (Property.block align) := by
  have hstep : ∀ (props : List Property) (desc : List Byte), align ∣ desc.length →
      props.foldl (fun desc p =>
        padTo align (desc ++ leBytes 4 p.ty ++ leBytes 4 p.data.length ++ p.data)) desc =
        desc ++ props.flatMap (Property.block align) := by
    intro props
    induction props with
    | nil => simp
    | cons p props ih =>
      intro desc hdesc
      rw [List.foldl_cons, padTo_append_block halign h8 hdesc, ih, List.append_assoc,
        ← List.flatMap_cons]
      rw [List.length_append, length_block halign]
      exact hdesc.add (h8.add dvd_nextMultipleOf)
  exact (hstep props [] (dvd_zero align)).trans (List.nil_append _)

/-! ## Reading a note back -/

/-- The properties fit their fields. -/
structure Fits (props : List Property) (align : ℕ) : Prop where
  ty_lt : ∀ p ∈ props, p.ty < 2 ^ 32
  desc_lt : (encodeDesc props align).length < 2 ^ 32

/-- A block is read as its property. -/
lemma propertyStep_block (before rest : List Byte) (out : List Property) {descEnd : ℕ}
    (halign : 0 < align) (hty : p.ty < 2 ^ 32) (hdata : p.data.length < 2 ^ 32)
    (hend : before.length + (p.block align).length ≤ descEnd) :
    propertyStep (before ++ p.block align ++ rest) descEnd align (before.length, out) =
      some (before.length + (p.block align).length, out ++ [p]) := by
  have hle := le_nextMultipleOf (n := p.data.length) halign
  rw [length_block halign] at hend
  have hread : leNat (before ++ p.block align ++ rest) before.length 4 = p.ty := by
    have h := leNat_append_leBytes (n := 4) (x := p.ty) before
      (leBytes 4 p.data.length ++ p.data ++
        List.replicate (nextMultipleOf p.data.length align - p.data.length) 0 ++ rest)
    rw [Nat.mod_eq_of_lt (by norm_num; omega)] at h
    simpa only [Property.block, List.append_assoc] using h
  have hsize : leNat (before ++ p.block align ++ rest) (before.length + 4) 4 = p.data.length := by
    have h := leNat_append_leBytes (n := 4) (x := p.data.length) (before ++ leBytes 4 p.ty)
      (p.data ++ List.replicate (nextMultipleOf p.data.length align - p.data.length) 0 ++ rest)
    rw [Nat.mod_eq_of_lt (by norm_num; omega), List.length_append, length_leBytes] at h
    simpa only [Property.block, List.append_assoc] using h
  have hpayload :
      ((before ++ p.block align ++ rest).drop (before.length + 8)).take p.data.length = p.data := by
    have hsplit : before ++ p.block align ++ rest =
        (before ++ leBytes 4 p.ty ++ leBytes 4 p.data.length) ++ (p.data ++
          (List.replicate (nextMultipleOf p.data.length align - p.data.length) 0 ++ rest)) := by
      simp only [Property.block, List.append_assoc]
    rw [hsplit, List.drop_left' (by simp), List.take_left]
  rw [propertyStep, length_block halign]
  simp only [hread, hsize, hpayload]
  rw [if_pos (by omega), if_neg (by omega)]

/-- The walk over a descriptor at the end of a note reads its properties. -/
lemma rounds_propertyStep (halign : 0 < align) (before : List Byte) (out : List Property)
    {descEnd : ℕ} (hfits : ∀ p ∈ props, p.ty < 2 ^ 32 ∧ p.data.length < 2 ^ 32)
    (hnote : note = before ++ props.flatMap (Property.block align)) (hend : descEnd = note.length) :
    Rounds (propertyStep note descEnd align) props.length (before.length, out)
      (descEnd, out ++ props) := by
  induction props generalizing before out with
  | nil =>
    rw [List.flatMap_nil, List.append_nil] at hnote
    rw [List.append_nil, hend, hnote]
    exact Rounds.refl _
  | cons p props ih =>
    rw [List.flatMap_cons, ← List.append_assoc] at hnote
    obtain ⟨hty, hdata⟩ := hfits p (.head _)
    have hfit : before.length + (p.block align).length ≤ descEnd := by
      rw [hend, hnote, List.length_append, List.length_append]
      omega
    have hstep := propertyStep_block before (props.flatMap (Property.block align)) out halign hty
      hdata hfit
    rw [← hnote] at hstep
    refine Rounds.head hstep ?_
    have hrest := ih (before ++ p.block align) (out ++ [p])
      (fun q hq => hfits q (.tail _ hq)) hnote
    rwa [List.length_append, List.append_assoc, List.singleton_append] at hrest

lemma length_le_of_mem (halign : 0 < align) (hp : p ∈ props) :
    p.data.length ≤ (props.flatMap (Property.block align)).length := by
  have hblock : (p.block align).length ≤ (props.flatMap (Property.block align)).length :=
    List.Sublist.length_le (List.sublist_flatten_of_mem (List.mem_map_of_mem hp))
  have hle := le_nextMultipleOf (n := p.data.length) halign
  rw [length_block halign] at hblock
  omega

lemma length_props_le (halign : 0 < align) :
    props.length ≤ (props.flatMap (Property.block align)).length := by
  induction props with
  | nil => simp
  | cons p props ih =>
    rw [List.flatMap_cons, List.length_append, length_block halign, List.length_cons]
    omega

/-- What stands in front of a descriptor. -/
def header (props : List Property) (align : ℕ) : List Byte :=
  leBytes 4 4 ++ leBytes 4 (encodeDesc props align).length ++ leBytes 4 ntGnuPropertyType0 ++
    (gnuName ++ [0])

@[simp] lemma length_header : (header props align).length = 16 := by simp [header, gnuName]

lemma encode_eq : encode props align = header props align ++ encodeDesc props align := rfl

lemma length_encode : (encode props align).length = 16 + (encodeDesc props align).length := by
  rw [encode_eq, List.length_append, length_header]

lemma leNat_encode_namesz : leNat (encode props align) 0 4 = 4 := by
  have h := leNat_append_leBytes (n := 4) (x := 4) []
    (leBytes 4 (encodeDesc props align).length ++ leBytes 4 ntGnuPropertyType0 ++
      (gnuName ++ [0]) ++ encodeDesc props align)
  rw [Nat.mod_eq_of_lt (by norm_num)] at h
  simpa only [encode, List.append_assoc, List.nil_append, List.length_nil] using h

lemma leNat_encode_descsz (hlt : (encodeDesc props align).length < 2 ^ 32) :
    leNat (encode props align) 4 4 = (encodeDesc props align).length := by
  have h := leNat_append_leBytes (n := 4) (x := (encodeDesc props align).length) (leBytes 4 4)
    (leBytes 4 ntGnuPropertyType0 ++ (gnuName ++ [0]) ++ encodeDesc props align)
  rw [Nat.mod_eq_of_lt (by norm_num; omega), length_leBytes] at h
  simpa only [encode, List.append_assoc] using h

lemma leNat_encode_ntype : leNat (encode props align) 8 4 = ntGnuPropertyType0 := by
  have h := leNat_append_leBytes (n := 4) (x := ntGnuPropertyType0)
    (leBytes 4 4 ++ leBytes 4 (encodeDesc props align).length)
    ((gnuName ++ [0]) ++ encodeDesc props align)
  rw [Nat.mod_eq_of_lt (by decide)] at h
  change leNat _ (4 + 4) 4 = _
  simpa only [encode, List.append_assoc, List.length_append, length_leBytes] using h

lemma name_encode : ((encode props align).drop 12).take 3 = gnuName := by
  have hsplit : encode props align =
      (leBytes 4 4 ++ leBytes 4 (encodeDesc props align).length ++
        leBytes 4 ntGnuPropertyType0) ++ (gnuName ++ ([0] ++ encodeDesc props align)) := by
    simp only [encode, List.append_assoc]
  rw [hsplit, List.drop_left' (by simp)]
  rfl

section RoundTrip

variable (halign : align = 4 ∨ align = 8) (hfits : Fits props align)

include halign

lemma four_dvd_length_encodeDesc : 4 ∣ (encodeDesc props align).length := by
  have h4 : 4 ∣ align := by obtain rfl | rfl := halign <;> norm_num
  rw [encodeDesc_eq (by omega) (by obtain rfl | rfl := halign <;> norm_num), List.length_flatMap]
  refine List.dvd_sum fun x hx => ?_
  obtain ⟨p, -, rfl⟩ := List.mem_map.mp hx
  rw [length_block (by omega)]
  exact (by norm_num : 4 ∣ 8).add (h4.trans dvd_nextMultipleOf)

include hfits

/-- The walk over a merged note's descriptor. -/
lemma walk_encode :
    whileSome (propertyStep (encode props align) (encode props align).length align)
      (encode props align).length (16, []) = ((encode props align).length, props) := by
  have hpos : 0 < align := by omega
  have hdesc : encodeDesc props align = props.flatMap (Property.block align) :=
    encodeDesc_eq hpos (by obtain rfl | rfl := halign <;> norm_num)
  obtain ⟨hty, hlt⟩ := hfits
  rw [hdesc] at hlt
  have hrounds := rounds_propertyStep hpos (header props align) []
    (fun p hp => ⟨hty p hp, (length_le_of_mem hpos hp).trans_lt hlt⟩)
    (show encode props align = _ by rw [encode_eq, hdesc]) rfl
  rw [length_header, List.nil_append] at hrounds
  refine hrounds.whileSome_eq (by simp [propertyStep]) ?_
  rw [length_encode, hdesc]
  exact (length_props_le hpos).trans (Nat.le_add_left _ _)

/-- A merged note reads back as the properties it was written from. -/
theorem properties_encode : properties (encode props align) align = props := by
  have hround : nextMultipleOf (16 + (encodeDesc props align).length) 4 =
      (encode props align).length := by
    rw [length_encode, nextMultipleOf_of_dvd (by norm_num)
      ((by norm_num : 4 ∣ 16).add (four_dvd_length_encodeDesc halign))]
  have hstep : noteStep (encode props align) align (0, []) =
      some ((encode props align).length, props) := by
    have hlen : (encode props align).length = 16 + (encodeDesc props align).length := length_encode
    have hnext : nextMultipleOf 4 4 = 4 := rfl
    rw [noteStep]
    simp only [Nat.zero_add, leNat_encode_namesz, leNat_encode_descsz hfits.desc_lt,
      leNat_encode_ntype, hnext, name_encode]
    rw [if_pos (by omega), if_neg (by omega)]
    simp only [and_self, le_refl, if_true]
    rw [hround, ← hlen, walk_encode halign hfits]
  have hdone : noteStep (encode props align) align ((encode props align).length, props) = none := by
    rw [noteStep]
    simp
  rw [properties, (Rounds.one hstep).whileSome_eq hdone]
  rw [length_encode]
  omega

end RoundTrip

end Badc.GnuProperty
