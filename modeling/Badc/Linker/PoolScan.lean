import Badc.Linker.Pools

/-!
# The entries of a merge member

`IsEntry c data start len` says what an entry of a section is, without reference to the walk that
finds it: an element of the entry size, or a string from behind a terminator up to the next one.  The
entries of a section are disjoint (`IsEntry.unique`) and `scanMember` records all of them
(`scanMember_spec`), each with its bytes and an alignment its offset asks for.
-/

namespace Badc.Pools

variable {c : MergeClass} {data : List Byte} {entries entries' : List Entry}

/-! ## What an entry is -/

/-- The unit at `p` is zero.  The data is continued by zeros. -/
def ZeroUnit (es : ℕ) (data : List Byte) (p : ℕ) : Prop := ∀ j < es, data.getD (p + j) 0 = 0

/-- A string of a section starts behind a terminator and ends with the next one; where the data does
not end the last string, the zeros behind it do. -/
structure IsString (es : ℕ) (data : List Byte) (start len : ℕ) : Prop where
  dvd : es ∣ start
  start_lt : start < data.length
  behind : start = 0 ∨ ZeroUnit es data (start - es)
  ends : ∃ n, len = (n + 1) * es ∧ ZeroUnit es data (start + n * es) ∧
    ∀ j < n, ¬ ZeroUnit es data (start + j * es)

/-- An entry of a section: `len` bytes from `start` on. -/
def IsEntry (c : MergeClass) (data : List Byte) (start len : ℕ) : Prop :=
  if c.strings then IsString c.entsize data start len
  else c.entsize ∣ start ∧ start < data.length ∧ len = c.entsize

/-- A string contains no other one. -/
lemma IsString.le_of_covers {es start len start' len' off : ℕ} (h : IsString es data start len)
    (h' : IsString es data start' len') (ho : off < start + len) (ho' : start' ≤ off) :
    start' ≤ start := by
  by_contra hlt
  obtain ⟨n, hlen, -, hnot⟩ := h.ends
  obtain ⟨a, ha⟩ := h.dvd
  obtain ⟨b, hb⟩ := h'.dvd
  have hes : 0 < es := by
    by_contra hz
    obtain rfl : es = 0 := by omega
    simp only [Nat.zero_mul] at ha hb
    omega
  have hab : a < b := by
    refine lt_of_mul_lt_mul_left (a := es) ?_ (Nat.zero_le es)
    omega
  have hbn : b < a + (n + 1) := by
    refine lt_of_mul_lt_mul_left (a := es) ?_ (Nat.zero_le es)
    rw [Nat.mul_add, ← ha, ← hb, Nat.mul_comm es (n + 1), ← hlen]
    omega
  -- The terminator before `start'` would lie in the string at `start`.
  refine hnot (b - a - 1) (by omega) ?_
  have hprev : start + (b - a - 1) * es = start' - es := by
    have hsplit : b = a + (b - a - 1) + 1 := by omega
    rw [ha, hb, hsplit, Nat.mul_succ, Nat.add_sub_cancel, Nat.mul_add]
    congr 1
    rw [Nat.mul_comm]
    congr 1
    omega
  rw [hprev]
  exact h'.behind.resolve_left (by omega)

/-- An offset is covered by one entry at most. -/
theorem IsEntry.unique {start len start' len' off : ℕ} (h : IsEntry c data start len)
    (h' : IsEntry c data start' len') (hs : start ≤ off) (hoff : off < start + len)
    (hs' : start' ≤ off) (hoff' : off < start' + len') : start = start' ∧ len = len' := by
  unfold IsEntry at h h'
  split at h
  · rename_i hstr
    rw [if_pos hstr] at h'
    obtain rfl : start = start' :=
      le_antisymm (h'.le_of_covers h hoff' hs) (h.le_of_covers h' hoff hs')
    refine ⟨rfl, ?_⟩
    obtain ⟨n, hlen, hz, hnot⟩ := h.ends
    obtain ⟨n', hlen', hz', hnot'⟩ := h'.ends
    have hle : ¬ n < n' := fun hlt => hnot' n hlt hz
    have hle' : ¬ n' < n := fun hlt => hnot n' hlt hz'
    rw [hlen, hlen', show n = n' by omega]
  · rename_i hstr
    rw [if_neg hstr] at h'
    obtain ⟨⟨a, ha⟩, -, rfl⟩ := h
    obtain ⟨⟨b, hb⟩, -, rfl⟩ := h'
    have hab : a < b + 1 := by
      refine lt_of_mul_lt_mul_left (a := c.entsize) ?_ (Nat.zero_le _)
      rw [Nat.mul_add]
      omega
    have hba : b < a + 1 := by
      refine lt_of_mul_lt_mul_left (a := c.entsize) ?_ (Nat.zero_le _)
      rw [Nat.mul_add]
      omega
    rw [ha, hb, show a = b by omega]
    exact ⟨rfl, rfl⟩

/-! ## The length of an entry -/

/-- The test for a terminator, inside the data. -/
lemma isTerminator_iff {es k : ℕ} : isTerminator es data k = true ↔ ZeroUnit es data k := by
  unfold isTerminator ZeroUnit
  rw [List.all_eq_true]
  constructor
  · intro h j hj
    by_cases hin : k + j < data.length
    · have hmem : data.getD (k + j) 0 ∈ (data.drop k).take es := by
        rw [List.mem_iff_getElem?]
        refine ⟨j, ?_⟩
        rw [List.getElem?_take_of_lt hj, List.getElem?_drop, List.getD_eq_getElem?_getD,
          List.getElem?_eq_getElem hin]
        rfl
      exact beq_iff_eq.mp (h _ hmem)
    · rw [List.getD_eq_getElem?_getD, List.getElem?_eq_none (by omega)]
      rfl
  · intro h b hb
    obtain ⟨j, hj⟩ := List.mem_iff_getElem?.mp hb
    have hlt : j < es := by
      by_contra hge
      rw [List.getElem?_take_eq_none (by omega)] at hj
      exact absurd hj (by simp)
    rw [List.getElem?_take_of_lt hlt, List.getElem?_drop] at hj
    have := h j hlt
    rw [List.getD_eq_getElem?_getD, hj] at this
    rw [beq_iff_eq]
    exact this

lemma zeroUnit_of_length_le {es p : ℕ} (h : data.length ≤ p) : ZeroUnit es data p := by
  intro j _
  rw [List.getD_eq_getElem?_getD, List.getElem?_eq_none (by omega)]
  rfl

/-- The walk to the end of a string stops at the first terminator, or at the end of the data. -/
lemma stringEnd_spec {es pos : ℕ} (hes : 0 < es) (hdata : es ∣ data.length) (hdvd : es ∣ pos)
    (hpos : pos ≤ data.length) :
    ∃ n, stringEnd es data pos = pos + n * es ∧ pos + n * es ≤ data.length ∧
      ZeroUnit es data (pos + n * es) ∧ ∀ j < n, ¬ ZeroUnit es data (pos + j * es) := by
  let step : ℕ → Option ℕ := fun k =>
    if data.length ≤ k ∨ isTerminator es data k then none else some (k + es)
  let I : ℕ → Prop := fun k => ∃ n, k = pos + n * es ∧ k ≤ data.length ∧
    ∀ j < n, ¬ ZeroUnit es data (pos + j * es)
  have hstep : ∀ k k', I k → step k = some k' → I k' ∧ data.length - k' < data.length - k := by
    rintro k k' ⟨n, rfl, hk, hnot⟩ hs
    obtain ⟨hcond, hnext⟩ := Option.ite_none_left_eq_some.mp hs
    obtain rfl := Option.some.inj hnext
    rw [not_or, isTerminator_iff] at hcond
    -- Both ends are multiples of the unit, so that a further unit fits.
    have hle : pos + n * es + es ≤ data.length := by
      have hunits : es ∣ pos + n * es := Nat.dvd_add hdvd (Nat.dvd_mul_left es n)
      exact Nat.le_of_lt_add_of_dvd (by omega) (Nat.dvd_add hunits (dvd_refl es)) hdata
    refine ⟨⟨n + 1, by rw [Nat.add_mul, Nat.one_mul, Nat.add_assoc], hle, fun j hj => ?_⟩, by omega⟩
    by_cases hjn : j < n
    · exact hnot j hjn
    · obtain rfl : j = n := by omega
      exact hcond.2
  have hI : I pos := ⟨0, by omega, hpos, fun j hj => absurd hj (Nat.not_lt_zero j)⟩
  obtain ⟨n, hn, hle, hnot⟩ :=
    whileSome_invariant I (fun s s' hs h => (hstep s s' hs h).1) data.length hI
  have hdone : step (whileSome step data.length pos) = none :=
    whileSome_done I (fun k => data.length - k) hstep hI (Nat.sub_le _ _)
  refine ⟨n, hn, hn ▸ hle, ?_, hnot⟩
  rw [← hn]
  by_cases hend : data.length ≤ whileSome step data.length pos
  · exact zeroUnit_of_length_le hend
  · by_contra hz
    have hcond : ¬ (data.length ≤ whileSome step data.length pos ∨
        isTerminator es data (whileSome step data.length pos) = true) := by
      rw [not_or, isTerminator_iff]
      exact ⟨hend, hz⟩
    rw [show step (whileSome step data.length pos) = some _ from if_neg hcond] at hdone
    exact absurd hdone (by simp)

/-- A position from which an entry starts. -/
def Boundary (c : MergeClass) (data : List Byte) (pos : ℕ) : Prop :=
  c.entsize ∣ pos ∧ (c.strings → pos = 0 ∨ ZeroUnit c.entsize data (pos - c.entsize))

/-- At a boundary inside the data there is an entry of the length `entryLen` gives, and the next
boundary is behind it. -/
lemma isEntry_entryLen {pos : ℕ} (hes : 0 < c.entsize) (hdata : c.entsize ∣ data.length)
    (hb : Boundary c data pos) (hpos : pos < data.length) :
    IsEntry c data pos (entryLen c data pos) ∧ Boundary c data (pos + entryLen c data pos) ∧
      0 < entryLen c data pos := by
  unfold IsEntry entryLen
  split
  · rename_i hstr
    obtain ⟨n, hend, hle, hz, hnot⟩ := stringEnd_spec hes hdata hb.1 (Nat.le_of_lt hpos)
    have hlen : (if data.length ≤ stringEnd c.entsize data pos then
        data.length - pos + c.entsize else stringEnd c.entsize data pos + c.entsize - pos) =
        (n + 1) * c.entsize := by
      rw [Nat.add_mul, Nat.one_mul]
      split <;> omega
    dsimp only
    rw [hlen]
    refine ⟨⟨hb.1, hpos, hb.2 hstr, n, rfl, hz, hnot⟩, ⟨?_, fun _ => Or.inr ?_⟩, by positivity⟩
    · exact Nat.dvd_add hb.1 (Nat.dvd_mul_left _ _)
    · rwa [Nat.add_mul, Nat.one_mul, ← Nat.add_assoc, Nat.add_sub_cancel]
  · rename_i hstr
    exact ⟨⟨hb.1, hpos, rfl⟩, ⟨Nat.dvd_add hb.1 (dvd_refl _), fun h => absurd h hstr⟩, hes⟩

lemma IsEntry.len_pos {start len : ℕ} (h : IsEntry c data start len) (hes : 0 < c.entsize) :
    0 < len := by
  unfold IsEntry at h
  split at h
  · obtain ⟨n, hlen, -, -⟩ := h.ends
    rw [hlen]
    positivity
  · rw [h.2.2]
    exact hes

/-! ## Alignments -/

/-- The lowest set bit is not below a power of two that divides the number. -/
lemma le_trailingZeros {k pos : ℕ} (hk : k ≤ 64) (hdvd : 2 ^ k ∣ pos) : k ≤ trailingZeros pos := by
  unfold trailingZeros
  cases hfind : (List.range 64).find? fun i => pos.testBit i with
  | none => exact hk
  | some i =>
    have hbit : pos.testBit i = true := List.find?_some hfind
    by_contra hlt
    obtain ⟨q, rfl⟩ := hdvd
    rw [Nat.testBit_two_pow_mul] at hbit
    simp only [Option.getD_some, not_le] at hlt
    simp [Nat.not_le.mpr hlt] at hbit

/-- A power of two up to `2 ^ a`. -/
def PowUpTo (a x : ℕ) : Prop := ∃ j ≤ a, x = 2 ^ j

lemma powUpTo_eltalign (a pos : ℕ) : PowUpTo a (eltalign (2 ^ a) pos) := by
  unfold eltalign
  split
  · exact ⟨a, le_refl a, rfl⟩
  · refine ⟨min (trailingZeros pos) a, Nat.min_le_right _ _, ?_⟩
    rcases Nat.le_total (trailingZeros pos) a with h | h
    · rw [min_eq_left h, min_eq_left (Nat.pow_le_pow_right two_pos h)]
    · rw [min_eq_right h, min_eq_right (Nat.pow_le_pow_right two_pos h)]

lemma le_eltalign {a k pos : ℕ} (ha : a < 64) (hk : k ≤ a) (hdvd : 2 ^ k ∣ pos) :
    2 ^ k ≤ eltalign (2 ^ a) pos := by
  have hpow : 2 ^ k ≤ 2 ^ a := Nat.pow_le_pow_right two_pos hk
  unfold eltalign
  split
  · exact hpow
  · exact le_min (Nat.pow_le_pow_right two_pos (le_trailingZeros (by omega) hdvd)) hpow

/-! ## Interning -/

/-- Entries before anything is shared: one for each content, each with a power of two for its
alignment. -/
structure Interned (a : ℕ) (entries : List Entry) : Prop where
  distinct : ∀ ⦃i j : ℕ⦄ ⦃e e' : Entry⦄, entries[i]? = some e → entries[j]? = some e' →
    e.bytes = e'.bytes → i = j
  aligned : ∀ ⦃i : ℕ⦄ ⦃e : Entry⦄, entries[i]? = some e → PowUpTo a e.align
  stored : ∀ ⦃i : ℕ⦄ ⦃e : Entry⦄, entries[i]? = some e → e.suffixOf = none

/-- Entries keep their numbers and bytes, and alignments only go up. -/
def Grows (entries entries' : List Entry) : Prop :=
  ∀ ⦃i : ℕ⦄ ⦃e : Entry⦄, entries[i]? = some e →
    ∃ e', entries'[i]? = some e' ∧ e'.bytes = e.bytes ∧ e.align ≤ e'.align

/-- Entry `eid` has these bytes and at least this alignment. -/
def Holds (entries : List Entry) (eid : ℕ) (bytes : List Byte) (al : ℕ) : Prop :=
  ∃ e, entries[eid]? = some e ∧ e.bytes = bytes ∧ al ≤ e.align

lemma Grows.refl (entries : List Entry) : Grows entries entries :=
  fun _ e h => ⟨e, h, rfl, le_refl _⟩

lemma Grows.trans {entries'' : List Entry} (h : Grows entries entries')
    (h' : Grows entries' entries'') : Grows entries entries'' := by
  intro i e hi
  obtain ⟨e', hi', hb', ha'⟩ := h hi
  obtain ⟨e'', hi'', hb'', ha''⟩ := h' hi'
  exact ⟨e'', hi'', hb''.trans hb', ha'.trans ha''⟩

lemma Holds.mono {eid al : ℕ} {bytes : List Byte} (h : Holds entries eid bytes al)
    (hg : Grows entries entries') : Holds entries' eid bytes al := by
  obtain ⟨e, he, hb, ha⟩ := h
  obtain ⟨e', he', hb', ha'⟩ := hg he
  exact ⟨e', he', hb'.trans hb, ha.trans ha'⟩

lemma interned_nil (a : ℕ) : Interned a [] :=
  ⟨fun _ _ _ _ h => (nomatch h), fun _ _ h => (nomatch h), fun _ _ h => (nomatch h)⟩

lemma PowUpTo.max {a x y : ℕ} (hx : PowUpTo a x) (hy : PowUpTo a y) : PowUpTo a (max x y) := by
  rcases max_choice x y with h | h
  · rwa [h]
  · rwa [h]

/-- Interning gives an entry with the bytes and keeps what the others say. -/
lemma intern_spec {a al : ℕ} (bytes : List Byte) (h : Interned a entries) (hal : PowUpTo a al) :
    Interned a (intern entries bytes al).1 ∧ Grows entries (intern entries bytes al).1 ∧
      Holds (intern entries bytes al).1 (intern entries bytes al).2 bytes al := by
  unfold intern
  obtain ⟨x, hx, hcase⟩ := @findOrPush_at _ entries (fun e => e.bytes == bytes)
    ⟨bytes, 0, 0, none⟩ (fun e => { e with align := max e.align al })
  have hne := @findOrPush_ne _ entries (fun e => e.bytes == bytes) ⟨bytes, 0, 0, none⟩
    (fun e => { e with align := max e.align al })
  set r := findOrPush entries (fun e => e.bytes == bytes) ⟨bytes, 0, 0, none⟩
    fun e => { e with align := max e.align al }
  -- What is found or new: an entry with these bytes that no other one has.
  have hnew : x.bytes = bytes ∧ x.suffixOf = none ∧ PowUpTo a (max x.align al) ∧
      ∀ ⦃j : ℕ⦄ ⦃e : Entry⦄, j ≠ r.2 → entries[j]? = some e → e.bytes ≠ bytes := by
    rcases hcase with ⟨hold, hbytes⟩ | ⟨hend, rfl, hnone⟩
    · refine ⟨beq_iff_eq.mp hbytes, h.stored hold, (h.aligned hold).max hal, fun j e hj he hb => ?_⟩
      exact hj (h.distinct he hold (hb.trans (beq_iff_eq.mp hbytes).symm))
    · refine ⟨rfl, rfl, by rwa [Nat.zero_max], fun j e _ he hb => ?_⟩
      exact absurd (hnone e (List.mem_of_getElem? he)) (by simp [hb])
  obtain ⟨hbytes, hstored, halign, hother⟩ := hnew
  have hcases : ∀ ⦃i : ℕ⦄ ⦃e : Entry⦄, r.1[i]? = some e →
      (i = r.2 ∧ e = { x with align := max x.align al }) ∨ (i ≠ r.2 ∧ entries[i]? = some e) := by
    intro i e hi
    by_cases hir : i = r.2
    · subst hir
      exact Or.inl ⟨rfl, Option.some.inj (hi.symm.trans hx)⟩
    · exact Or.inr ⟨hir, by rwa [hne hir] at hi⟩
  refine ⟨⟨fun i j e e' hi hj hb => ?_, fun i e hi => ?_, fun i e hi => ?_⟩, fun i e hi => ?_,
    ⟨_, hx, hbytes, le_max_right _ _⟩⟩
  · rcases hcases hi with ⟨rfl, rfl⟩ | ⟨hir, hi'⟩
    · rcases hcases hj with ⟨rfl, -⟩ | ⟨hjr, hj'⟩
      · rfl
      · exact absurd (hb.symm.trans hbytes) (hother hjr hj')
    · rcases hcases hj with ⟨rfl, rfl⟩ | ⟨hjr, hj'⟩
      · exact absurd (hb.trans hbytes) (hother hir hi')
      · exact h.distinct hi' hj' hb
  · rcases hcases hi with ⟨-, rfl⟩ | ⟨-, hi'⟩
    · exact halign
    · exact h.aligned hi'
  · rcases hcases hi with ⟨-, rfl⟩ | ⟨-, hi'⟩
    · exact hstored
    · exact h.stored hi'
  · by_cases hir : i = r.2
    · subst hir
      obtain rfl : x = e := by
        rcases hcase with ⟨hold, -⟩ | ⟨hend, -, -⟩
        · exact Option.some.inj (hold.symm.trans hi)
        · have := (List.getElem?_eq_some_iff.mp hi).1
          omega
      exact ⟨_, hx, rfl, le_max_left _ _⟩
    · exact ⟨e, by rw [hne hir, hi], rfl, le_refl _⟩

/-! ## The walk over a member -/

/-- What the walk has recorded of a member up to `pos`: consecutive entries from offset 0 on, and for
each the number of an entry of the pool with its bytes. -/
structure Recorded (c : MergeClass) (data : List Byte) (entries : List Entry) (pos : ℕ)
    (starts ids : List ℕ) : Prop where
  length_eq : starts.length = ids.length
  first : (starts ++ [pos])[0]? = some 0
  next : ∀ ⦃k start : ℕ⦄, starts[k]? = some start →
    (starts ++ [pos])[k + 1]? = some (start + entryLen c data start)
  entry : ∀ ⦃k start eid : ℕ⦄, starts[k]? = some start → ids[k]? = some eid →
    IsEntry c data start (entryLen c data start) ∧
      Holds entries eid (resized data start (entryLen c data start)) (eltalign c.align start)

variable {pos eid : ℕ} {starts ids : List ℕ}

lemma recorded_nil : Recorded c data entries 0 [] [] :=
  ⟨rfl, rfl, fun _ _ h => (nomatch h), fun _ _ _ h => (nomatch h)⟩

lemma Recorded.mono (h : Recorded c data entries pos starts ids) (hg : Grows entries entries') :
    Recorded c data entries' pos starts ids :=
  ⟨h.length_eq, h.first, h.next, fun _ _ _ hs hi =>
    ⟨(h.entry hs hi).1, (h.entry hs hi).2.mono hg⟩⟩

lemma getElem?_concat_cases {α : Type*} {xs : List α} {x y : α} {k : ℕ}
    (h : (xs ++ [x])[k]? = some y) : xs[k]? = some y ∨ k = xs.length ∧ y = x := by
  rw [List.getElem?_append] at h
  split at h
  · exact Or.inl h
  · rename_i hge
    rw [List.getElem?_singleton] at h
    obtain ⟨hz, hy⟩ := Option.ite_none_right_eq_some.mp h
    exact Or.inr ⟨by omega, (Option.some.inj hy).symm⟩

/-- Record the entry at the position of the walk. -/
lemma Recorded.push (h : Recorded c data entries pos starts ids)
    (hentry : IsEntry c data pos (entryLen c data pos))
    (hholds : Holds entries eid (resized data pos (entryLen c data pos)) (eltalign c.align pos)) :
    Recorded c data entries (pos + entryLen c data pos) (starts ++ [pos]) (ids ++ [eid]) := by
  refine ⟨by simp [h.length_eq], ?_, fun k start hk => ?_, fun k start eid' hk hid => ?_⟩
  · rw [List.getElem?_append_left (by simp)]
    exact h.first
  · rcases getElem?_concat_cases hk with hk' | ⟨rfl, rfl⟩
    · have hlt := (List.getElem?_eq_some_iff.mp hk').1
      rw [List.getElem?_append_left (by simp; omega)]
      exact h.next hk'
    · rw [List.getElem?_append_right (by simp)]
      simp
  · rcases getElem?_concat_cases hk with hk' | ⟨rfl, rfl⟩
    · have hlt := (List.getElem?_eq_some_iff.mp hk').1
      rw [List.getElem?_append_left (by rwa [← h.length_eq])] at hid
      exact h.entry hk' hid
    · rw [h.length_eq, List.getElem?_append_right (Nat.le_refl _), Nat.sub_self] at hid
      obtain rfl : eid = eid' := Option.some.inj hid
      exact ⟨hentry, hholds⟩

/-! ## Looking an offset up -/

variable {k start off : ℕ}

/-- The bounds of the entries ascend. -/
lemma Recorded.lt_of_lt (hes : 0 < c.entsize) (h : Recorded c data entries pos starts ids) {y : ℕ}
    (hy : (starts ++ [pos])[k]? = some y) {i x : ℕ} (hi : i < k) (hx : starts[i]? = some x) :
    x < y := by
  induction k generalizing y with
  | zero => exact absurd hi (Nat.not_lt_zero i)
  | succ k ih =>
    have hlt := (List.getElem?_eq_some_iff.mp hy).1
    rw [List.length_append, List.length_singleton] at hlt
    obtain ⟨z, hz⟩ : ∃ z, starts[k]? = some z := ⟨_, List.getElem?_eq_getElem (by omega)⟩
    obtain ⟨eid, hid⟩ : ∃ eid, ids[k]? = some eid :=
      ⟨_, List.getElem?_eq_getElem (by have := h.length_eq; omega)⟩
    have hpos := (h.entry hz hid).1.len_pos hes
    have hnext := Option.some.inj ((h.next hz).symm.trans hy)
    by_cases hik : i = k
    · subst hik
      have := Option.some.inj (hx.symm.trans hz)
      omega
    · have hxz : x < z :=
        ih (by rwa [List.getElem?_append_left (List.getElem?_eq_some_iff.mp hz).1]) (by omega)
      omega

/-- Every offset before the end of the walk is in an entry. -/
lemma Recorded.covers (h : Recorded c data entries pos starts ids) (hoff : off < pos) :
    ∃ k start : ℕ, starts[k]? = some start ∧ start ≤ off ∧
      off < start + entryLen c data start := by
  have hbound : ∀ k y : ℕ, (starts ++ [pos])[k]? = some y → off < y → ∃ k start : ℕ,
      starts[k]? = some start ∧ start ≤ off ∧ off < start + entryLen c data start := by
    intro k
    induction k with
    | zero =>
      intro y hy hlt
      obtain rfl := Option.some.inj (h.first.symm.trans hy)
      exact absurd hlt (Nat.not_lt_zero off)
    | succ k ih =>
      intro y hy hlt
      have hlen := (List.getElem?_eq_some_iff.mp hy).1
      rw [List.length_append, List.length_singleton] at hlen
      obtain ⟨z, hz⟩ : ∃ z, starts[k]? = some z := ⟨_, List.getElem?_eq_getElem (by omega)⟩
      obtain rfl := Option.some.inj ((h.next hz).symm.trans hy)
      by_cases hzo : z ≤ off
      · exact ⟨k, z, hz, hzo, hlt⟩
      · refine ih z ?_ (by omega)
        rwa [List.getElem?_append_left (List.getElem?_eq_some_iff.mp hz).1]
  refine hbound starts.length pos ?_ hoff
  rw [List.getElem?_append_right (Nat.le_refl _), Nat.sub_self]
  rfl

/-- The search finds the entry that covers an offset, and gives the offset in it. -/
lemma Recorded.lookUp_eq (hes : 0 < c.entsize) (h : Recorded c data entries pos starts ids)
    (hk : starts[k]? = some start) (hle : start ≤ off)
    (hlt : off < start + entryLen c data start) (targets : List ℕ) :
    lookUp starts targets off = targets.getD k 0 + (off - start) := by
  have hlen := (List.getElem?_eq_some_iff.mp hk).1
  have hbefore : ∀ i < k, ∀ x, starts[i]? = some x → x < start := fun i hi x hx =>
    h.lt_of_lt hes (by rwa [List.getElem?_append_left hlen]) hi hx
  rcases Nat.eq_or_lt_of_le hle with rfl | hlt'
  · -- The offset is the start of the entry.
    have hidx : starts.findIdx (fun y => decide (start ≤ y)) = k := by
      rw [List.findIdx_eq hlen]
      refine ⟨?_, fun j hj => ?_⟩
      · rw [List.getElem?_eq_getElem hlen] at hk
        rw [Option.some.inj hk]
        simp
      · have := hbefore j hj _ (List.getElem?_eq_getElem (by omega))
        simp only [decide_eq_false_iff_not]
        omega
    rw [lookUp, binarySearch, hidx, if_pos hk, Nat.sub_self, Nat.add_zero]
  · -- The offset is behind the start, and the next entry starts behind it.
    have hidx : starts.findIdx (fun y => decide (off ≤ y)) = k + 1 ∧ starts[k + 1]? ≠ some off := by
      have hnot : ∀ j < k + 1, ∀ x, starts[j]? = some x → ¬ off ≤ x := by
        intro j hj x hx
        rcases Nat.lt_succ_iff_lt_or_eq.mp hj with hjk | rfl
        · have := hbefore j hjk x hx
          omega
        · have := Option.some.inj (hx.symm.trans hk)
          omega
      have hnext := h.next hk
      by_cases hend : k + 1 < starts.length
      · rw [List.getElem?_append_left hend] at hnext
        refine ⟨?_, fun heq => ?_⟩
        · rw [List.findIdx_eq hend]
          refine ⟨?_, fun j hj => ?_⟩
          · rw [List.getElem?_eq_getElem hend] at hnext
            have := Option.some.inj hnext
            simp only [decide_eq_true_eq]
            omega
          · have := hnot j hj _ (List.getElem?_eq_getElem (by omega))
            simpa using this
        · have := Option.some.inj (heq.symm.trans hnext)
          omega
      · refine ⟨?_, fun heq => ?_⟩
        · rw [show k + 1 = starts.length by omega, List.findIdx_eq_length]
          intro x hx
          obtain ⟨j, hj⟩ := List.mem_iff_getElem?.mp hx
          have hjlt := (List.getElem?_eq_some_iff.mp hj).1
          have := hnot j (by omega) x hj
          simpa using this
        · rw [List.getElem?_eq_none (by omega)] at heq
          exact absurd heq (by simp)
    have hget : starts.getD k 0 = start := by
      rw [List.getD_eq_getElem?_getD, hk, Option.getD_some]
    rw [lookUp, binarySearch, hidx.1, if_neg hidx.2]
    dsimp only
    rw [hget]

/-- What a class of sections promises: the entry size is positive and the alignment is a power of
two of 64 bits. -/
structure Sane (c : MergeClass) (a : ℕ) : Prop where
  entsize_pos : 0 < c.entsize
  align_eq : c.align = 2 ^ a
  lt : a < 64

/-- The state of the walk over a member. -/
structure Scanned (c : MergeClass) (a : ℕ) (data : List Byte) (entries : List Entry) (s : Scan) :
    Prop where
  boundary : Boundary c data s.pos
  interned : Interned a s.entries
  grows : Grows entries s.entries
  recorded : Recorded c data s.entries s.pos s.starts s.ids

variable {a : ℕ}

/-- A round of the walk records an entry and moves on. -/
lemma Scanned.step {s s' : Scan} (hc : Sane c a) (hdata : c.entsize ∣ data.length)
    (h : Scanned c a data entries s) (hs : scanStep c data s = some s') :
    Scanned c a data entries s' ∧ data.length - s'.pos < data.length - s.pos := by
  unfold scanStep at hs
  obtain ⟨hpos, hs⟩ := Option.ite_none_right_eq_some.mp hs
  obtain rfl := Option.some.inj hs
  obtain ⟨hentry, hbound, hlen⟩ := isEntry_entryLen hc.entsize_pos hdata h.boundary hpos
  have hal : PowUpTo a (eltalign c.align s.pos) := by
    rw [hc.align_eq]
    exact powUpTo_eltalign a s.pos
  obtain ⟨hint, hgrows, hholds⟩ :=
    intern_spec (resized data s.pos (entryLen c data s.pos)) h.interned hal
  exact ⟨⟨hbound, hint, h.grows.trans hgrows, (h.recorded.mono hgrows).push hentry hholds⟩, by
    dsimp only
    omega⟩

/-- The walk over a member records its entries to the end. -/
lemma scanMember_spec (hc : Sane c a) (hdata : c.entsize ∣ data.length) (h : Interned a entries) :
    Scanned c a data entries (scanMember c data entries) ∧
      data.length ≤ (scanMember c data entries).pos := by
  have hinit : Scanned c a data entries ⟨0, entries, [], []⟩ :=
    ⟨⟨dvd_zero _, fun _ => Or.inl rfl⟩, h, Grows.refl entries, recorded_nil⟩
  have hdone : scanStep c data (scanMember c data entries) = none :=
    whileSome_done (Scanned c a data entries) (fun s => data.length - s.pos)
      (fun s s' hs hstep => hs.step hc hdata hstep) hinit (Nat.sub_le _ _)
  refine ⟨whileSome_invariant (Scanned c a data entries)
    (fun s s' hs hstep => (hs.step hc hdata hstep).1) data.length hinit, ?_⟩
  by_contra hlt
  rw [scanStep, if_pos (Nat.lt_of_not_le hlt)] at hdone
  exact absurd hdone (by simp)

/-- A member's record in the survey. -/
def Surveyed (c : MergeClass) (entries : List Entry) (r : ℕ × List ℕ × List ℕ) (m : Member) : Prop :=
  r.1 = m.1 ∧ ∃ pos, m.2.length ≤ pos ∧ Recorded c m.2 entries pos r.2.1 r.2.2

/-- The survey records all members. -/
theorem survey_spec {members : List Member} (hc : Sane c a)
    (hdata : ∀ m ∈ members, c.entsize ∣ m.2.length) :
    Interned a (survey c members).entries ∧
      List.Forall₂ (Surveyed c (survey c members).entries) (survey c members).refs members := by
  induction members using List.reverseRecOn with
  | nil => exact ⟨interned_nil a, List.Forall₂.nil⟩
  | append_singleton members m ih =>
    obtain ⟨hint, hrefs⟩ := ih fun x hx => hdata x (List.mem_append_left _ hx)
    have hsurvey : survey c (members ++ [m]) = surveyMember c (survey c members) m := by
      rw [survey, List.foldl_concat, ← survey]
    obtain ⟨hscan, hend⟩ := scanMember_spec hc (hdata m (by simp)) hint
    rw [hsurvey]
    refine ⟨hscan.interned, List.rel_append ?_ (List.Forall₂.cons ?_ List.Forall₂.nil)⟩
    · refine hrefs.imp fun r x hr => ?_
      obtain ⟨hid, pos, hpos, hrec⟩ := hr
      exact ⟨hid, pos, hpos, hrec.mono hscan.grows⟩
    · exact ⟨rfl, _, hend, hscan.recorded⟩

end Badc.Pools
