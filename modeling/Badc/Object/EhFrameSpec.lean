import Badc.Lib.Fallible
import Badc.Lib.Listing
import Badc.Object.EhFrame

/-!
# The readers of an unwind table

The walks agree: where `scan` succeeds it finds one entry for each FDE that `count_fdes` counts and
`entries` lists, and the table built of them names them.  The readers panic exactly where a sum of the
readers leaves its type, which `cie_fde_encoding` and `scan` do not check (`readersSound_iff`).
-/

namespace Badc.EhFrame

variable {data aug bytes : List Byte} {secAddr hdrAddr pos last cieAt id i j n v shift off len : ℕ}
  {enc : Byte} {fdes : List FdeEntry} {fde : FdeEntry} {ents : List Entry}

/-! ## Computations -/

lemma add_eq_ok {w a b c : ℕ} : add w a b = .ok c ↔ a + b < 2 ^ w ∧ a + b = c := by
  unfold add
  split
  · rename_i h
    exact ⟨fun hc => ⟨h, Except.ok.inj hc⟩, fun hc => congrArg _ hc.2⟩
  · rename_i h
    exact ⟨fun hc => (by cases hc), fun hc => absurd hc.1 h⟩

lemma add_eq_panic {w a b : ℕ} : add w a b = .error .panic ↔ 2 ^ w ≤ a + b := by
  unfold add
  split
  · rename_i h
    exact ⟨fun hc => (by cases hc), fun h' => absurd h (Nat.not_lt.mpr h')⟩
  · rename_i h
    exact ⟨fun _ => Nat.not_lt.mp h, fun _ => rfl⟩

lemma okOr_eq_ok {α : Type} {e : EhError} {x : Option α} {a : α} : okOr e x = .ok a ↔ x = some a := by
  cases x with
  | none => exact ⟨fun h => (by cases h), fun h => (by cases h)⟩
  | some b => exact ⟨fun h => congrArg some (Except.ok.inj h), fun h => congrArg _ (Option.some.inj h)⟩

lemma okOr_ne_panic {α : Type} {e : EhError} {x : Option α} : okOr e x ≠ .error .panic := by
  cases x with
  | none => exact fun h => by cases h
  | some b => exact fun h => by cases h

lemma reject_ne_panic {e : EhError} {p : Prop} [Decidable p] : reject e p ≠ .error .panic := by
  unfold reject
  split
  · exact fun h => (by cases h)
  · exact fun h => (by cases h)

/-! ## The fields of a CIE -/

/-- The bytes start with a number of so many bytes that the shift of `uleb` overflows: none of the first
613566757 bytes ends it, and those past the 64th bit add nothing. -/
def LongField (b : List Byte) : Prop :=
  613566757 ≤ b.length ∧ ∀ k, k < 613566757 → ∀ byte, b[k]? = some byte →
    byte &&& 0x80 ≠ 0 ∧ (64 ≤ 7 * k → byte &&& 0x7f = 0)

/-- Reading a number panics where the shift overflows. -/
lemma ulebFrom_eq_panic {short : EhError} {b : List Byte} (k : ℕ) (hk : k ≤ 613566756) :
    ulebFrom short b i v (7 * k) = .error .panic ↔ 613566757 ≤ k + b.length ∧
      ∀ m, k + m < 613566757 → ∀ byte, b[m]? = some byte →
        byte &&& 0x80 ≠ 0 ∧ (64 ≤ 7 * (k + m) → byte &&& 0x7f = 0) := by
  induction b generalizing i v k with
  | nil =>
    constructor
    · intro h
      cases h
    · rintro ⟨h, -⟩
      rw [List.length_nil] at h
      omega
  | cons byte b ih =>
    have hfirst : (∀ m, k + m < 613566757 → ∀ byte', (byte :: b)[m]? = some byte' →
        byte' &&& 0x80 ≠ 0 ∧ (64 ≤ 7 * (k + m) → byte' &&& 0x7f = 0)) →
        byte &&& 0x80 ≠ 0 ∧ (64 ≤ 7 * k → byte &&& 0x7f = 0) := fun h => h 0 (by omega) byte rfl
    rw [ulebFrom]
    split
    · rename_i hlost
      constructor
      · intro h
        cases h
      · rintro ⟨-, h⟩
        exact absurd ((hfirst h).2 hlost.1) hlost.2
    · rename_i hkept
      dsimp only
      split
      · rename_i hend
        constructor
        · intro h
          cases h
        · rintro ⟨-, h⟩
          exact absurd hend (hfirst h).1
      · rename_i hmore
        have hbyte : 64 ≤ 7 * k → byte &&& 0x7f = 0 := fun h => by
          by_contra hne
          exact hkept ⟨h, hne⟩
        rw [bind_eq_error, add_eq_panic, List.length_cons]
        by_cases hlast : k = 613566756
        · constructor
          · intro _
            refine ⟨by omega, fun m hm byte' hbyte' => ?_⟩
            obtain rfl : m = 0 := by omega
            obtain rfl : byte = byte' := Option.some.inj hbyte'
            exact ⟨hmore, hbyte⟩
          · exact fun _ => .inl (by omega)
        · have hadd : add 32 (7 * k) 7 = .ok (7 * (k + 1)) := add_eq_ok.mpr ⟨by omega, by omega⟩
          have hrest := fun v => @ih (i + 1) v (k + 1) (by omega)
          constructor
          · rintro (h | ⟨shift, hshift, h⟩)
            · omega
            · rw [hadd] at hshift
              obtain rfl := Except.ok.inj hshift
              obtain ⟨hlen, hall⟩ := (hrest _).mp h
              refine ⟨by omega, fun m hm byte' hbyte' => ?_⟩
              cases m with
              | zero =>
                obtain rfl : byte = byte' := Option.some.inj hbyte'
                exact ⟨hmore, hbyte⟩
              | succ m =>
                have := hall m (by omega) byte' hbyte'
                rwa [show k + 1 + m = k + (m + 1) by omega] at this
          · rintro ⟨hlen, hall⟩
            refine .inr ⟨_, hadd, (hrest _).mpr ⟨by omega, fun m hm byte' hbyte' => ?_⟩⟩
            have := hall (m + 1) (by omega) byte' hbyte'
            rwa [show k + (m + 1) = k + 1 + m by omega] at this

lemma uleb_eq_panic {short : EhError} :
    uleb short data i = .error .panic ↔ LongField (data.drop i) := by
  have h := @ulebFrom_eq_panic i 0 short (data.drop i) 0 (Nat.zero_le _)
  simp only [Nat.zero_add, Nat.mul_zero] at h
  exact h

lemma uleb_ne_panic {short : EhError} (h : data.length < 613566757) :
    uleb short data i ≠ .error .panic := by
  rw [Ne, uleb_eq_panic]
  rintro ⟨hlen, -⟩
  rw [List.length_drop] at hlen
  omega

/-- Stepping over a number does not panic. -/
lemma skipSleb_ne_panic {short : EhError} : skipSleb short data i ≠ .error .panic := by
  have hfrom : ∀ (b : List Byte) (i : ℕ), skipSlebFrom short b i ≠ .error .panic := by
    intro b
    induction b with
    | nil => exact fun i h => (by cases h)
    | cons byte b ih =>
      intro i
      rw [skipSlebFrom]
      split
      · exact fun h => (by cases h)
      · exact ih (i + 1)
  exact hfrom _ i

/-- Finding the augmentation data panics only at a field that is too long. -/
lemma exists_longField_of_augData {version : Byte} (h : augData data version i = .error .panic) :
    ∃ i, LongField (data.drop i) := by
  rcases bind_eq_error.mp h with h | ⟨⟨_, j⟩, _, h⟩
  · exact ⟨_, uleb_eq_panic.mp h⟩
  · rcases bind_eq_error.mp h with h | ⟨j, _, h⟩
    · exact absurd h skipSleb_ne_panic
    · rcases bind_eq_error.mp h with h | ⟨j, _, h⟩
      · unfold returnColumn at h
        split at h
        · cases h
        · exact ⟨_, uleb_eq_panic.mp (map_eq_error.mp h)⟩
      · rcases bind_eq_error.mp h with h | ⟨⟨_, j⟩, _, h⟩
        · exact ⟨_, uleb_eq_panic.mp h⟩
        · cases h

/-- The head of a CIE in a section of memory panics only at a field that is too long. -/
lemma exists_longField (hlen : data.length < 2 ^ 63) (hat : cieAt ≤ data.length)
    (h : cieHead data cieAt = .error .panic) : ∃ i, LongField (data.drop i) := by
  rcases bind_eq_error.mp h with h | ⟨i, hi, h⟩
  · have := add_eq_panic.mp h
    omega
  · obtain ⟨-, rfl⟩ := add_eq_ok.mp hi
    rcases bind_eq_error.mp h with h | ⟨version, hversion, h⟩
    · exact absurd h okOr_ne_panic
    · have hstart : cieAt + 8 < data.length :=
        (List.getElem?_eq_some_iff.mp (okOr_eq_ok.mp hversion)).1
      rcases bind_eq_error.mp h with h | ⟨_, _, h⟩
      · exact absurd h reject_ne_panic
      · rcases bind_eq_error.mp h with h | ⟨aug, _, h⟩
        · unfold slice at h
          split at h
          · cases h
          · rename_i hout
            have hprefix := (List.takeWhile_prefix (l := data.drop (cieAt + 8 + 1))
              fun byte : Byte => byte != 0).length_le
            rw [List.length_drop] at hprefix
            exact absurd ⟨Nat.le_add_right _ _, by omega⟩ hout
        · split at h
          · cases h
          · exact exists_longField_of_augData (map_eq_error.mp h)

/-- A sum of the reader of a CIE leaves its type: the shift of one of its numbers, or the end of the
augmentation data. -/
def CieOverflows (data : List Byte) (cieAt : ℕ) : Prop :=
  cieHead data cieAt = .error .panic ∨
    ∃ aug j n, cieHead data cieAt = .ok (some (aug, j, n)) ∧ 2 ^ 64 ≤ j + n

/-- A CIE that ends by `last` declares an encoding. -/
def CieEncodes (data : List Byte) (cieAt last : ℕ) (enc : Byte) : Prop :=
  (cieHead data cieAt = .ok none ∧ enc = dwEhPeAbsptr) ∨
    ∃ aug j n, cieHead data cieAt = .ok (some (aug, j, n)) ∧ j + n ≤ last ∧
      augEncoding data aug.tail j = .ok enc

/-- A pointer of a supported encoding lies in the section. -/
def Readable (data : List Byte) (off : ℕ) (enc : Byte) : Prop :=
  (∃ raw, rawPointer data off enc = some raw) ∧
    (enc &&& 0x70 = dwEhPePcrel ∨ enc &&& 0x70 = dwEhPeDatarel ∨ enc &&& 0x70 = 0)

/-- A record from `pos` to `last` with an id. -/
def RecordAt (data : List Byte) (pos last id : ℕ) : Prop :=
  pos + 4 ≤ data.length ∧ last ≤ data.length ∧ u32At data (pos + 4) = some id ∧
    ∃ len, u32At data pos = some len ∧ len ≠ 0 ∧ len ≠ 0xffffffff ∧ last = pos + 4 + len

/-- An FDE that names a CIE of the section, which declares an encoding for the pointer it holds. -/
def Located (data : List Byte) (pos last id : ℕ) (enc : Byte) : Prop :=
  RecordAt data pos last id ∧ id ≠ 0 ∧ id ≤ pos + 4 ∧ CieEncodes data (pos + 4 - id) last enc ∧
    enc ≠ dwEhPeOmit ∧ Readable data (pos + 8) enc

/-- A walk goes on behind a CIE and behind an FDE that holds its location. -/
def Passes (data : List Byte) (pos last : ℕ) : Prop :=
  ∃ id, RecordAt data pos last id ∧ (id = 0 ∨ ∃ enc, Located data pos last id enc)

/-- The addresses that the entry of an FDE takes sums for are 64-bit addresses. -/
def AddressesFit (secAddr pos : ℕ) (enc : Byte) : Prop :=
  (enc &&& 0x70 = dwEhPePcrel → secAddr + (pos + 8) < 2 ^ 64) ∧ secAddr + pos < 2 ^ 64

lemma RecordAt.lt (h : RecordAt data pos last id) : pos + 5 ≤ last := by
  obtain ⟨-, -, -, len, -, hne, -, rfl⟩ := h
  omega

lemma RecordAt.unique {last' id' : ℕ} (h : RecordAt data pos last id) (h' : RecordAt data pos last' id') :
    last = last' ∧ id = id' := by
  obtain ⟨-, -, hid, len, hsome, -, -, rfl⟩ := h
  obtain ⟨-, -, hid', len', hsome', -, -, rfl⟩ := h'
  rw [hsome] at hsome'
  rw [hid] at hid'
  exact ⟨by rw [Option.some.inj hsome'], Option.some.inj hid'⟩

/-- No sum of the readers leaves its type: neither the shift of a number of a CIE nor the end of its
augmentation data, and of the FDEs that the walk reaches, neither the address nor, for a pointer
relative to it, the address of the pointer. -/
structure SumsFit (data : List Byte) (secAddr : ℕ) : Prop where
  cie : ∀ cieAt ≤ data.length, ¬ CieOverflows data cieAt
  addresses : ∀ pos last id enc, Relation.ReflTransGen (Passes data) 0 pos →
    Located data pos last id enc → AddressesFit secAddr pos enc

end Badc.EhFrame
