import Badc.Linker.PoolScan

/-!
# The layout of a merge pool

Which entries are stored inside others, in what order the candidates are looked at, does not matter
for the pool: an entry is only stored inside one that ends with its bytes at a place its alignment
allows, and the holder is stored itself (`Shared`).  `layOutEntries_spec` says that every entry is
then found in the pool at its offset, that the offset is a multiple of the entry's alignment, and
that no two stored entries overlap.
-/

namespace Badc.Pools

variable {c : MergeClass} {a : ℕ} {entries₀ entries : List Entry}

/-! ## Copying -/

/-- Of two stored entries the first ends before the second starts. -/
def Before (x y : Entry) : Prop :=
  x.align ≠ 0 → y.align ≠ 0 → x.index + x.bytes.length ≤ y.index

/-- What is copied fits the pool. -/
lemma copy_fits {pool pool' : List Byte} (h : entries.foldlM copyEntry pool = some pool') :
    ∀ e ∈ entries, e.align ≠ 0 → e.index + e.bytes.length ≤ pool.length := by
  induction entries generalizing pool with
  | nil => exact fun e he => absurd he (by simp)
  | cons x rest ih =>
    rw [List.foldlM_cons] at h
    obtain ⟨pool₁, hx, hrest⟩ := Option.bind_eq_some_iff.mp h
    unfold copyEntry at hx
    intro e he hstored
    by_cases hxs : x.align ≠ 0
    · rw [if_pos hxs] at hx
      obtain ⟨hfit, heq⟩ := Option.ite_none_right_eq_some.mp hx
      obtain rfl := Option.some.inj heq
      rcases List.mem_cons.mp he with rfl | he
      · exact hfit
      · have := ih hrest e he hstored
        rwa [length_overwrite] at this
    · rw [if_neg hxs] at hx
      obtain rfl := Option.some.inj hx
      rcases List.mem_cons.mp he with rfl | he
      · exact absurd hstored hxs
      · exact ih hrest e he hstored

/-- Entries that do not overlap are found where they were copied, and the rest of the pool is as it
was. -/
lemma copy_reads {pool pool' : List Byte} (hpair : entries.Pairwise Before)
    (h : entries.foldlM copyEntry pool = some pool') :
    (∀ e ∈ entries, e.align ≠ 0 → ∀ j < e.bytes.length, pool'[e.index + j]? = e.bytes[j]?) ∧
      ∀ p, (∀ e ∈ entries, e.align ≠ 0 → p < e.index ∨ e.index + e.bytes.length ≤ p) →
        pool'[p]? = pool[p]? := by
  induction entries generalizing pool with
  | nil =>
    obtain rfl := Option.some.inj h
    exact ⟨fun e he => absurd he (by simp), fun p _ => rfl⟩
  | cons x rest ih =>
    obtain ⟨hx, hpair⟩ := List.pairwise_cons.mp hpair
    rw [List.foldlM_cons] at h
    obtain ⟨pool₁, hcopy, hrest⟩ := Option.bind_eq_some_iff.mp h
    obtain ⟨hread, hkeep⟩ := ih hpair hrest
    unfold copyEntry at hcopy
    by_cases hxs : x.align ≠ 0
    · rw [if_pos hxs] at hcopy
      obtain ⟨hfit, heq⟩ := Option.ite_none_right_eq_some.mp hcopy
      obtain rfl := Option.some.inj heq
      refine ⟨fun e he hstored j hj => ?_, fun p hp => ?_⟩
      · rcases List.mem_cons.mp he with rfl | he
        · -- The later entries lie behind this one.
          rw [hkeep (e.index + j) fun y hy hys => Or.inl (by have := hx y hy hstored hys; omega)]
          exact getElem?_overwrite_of_inside hj hfit
        · exact hread e he hstored j hj
      · rw [hkeep p fun e he => hp e (List.mem_cons_of_mem x he)]
        exact getElem?_overwrite_of_outside (hp x (by simp) hxs)
    · rw [if_neg hxs] at hcopy
      obtain rfl := Option.some.inj hcopy
      refine ⟨fun e he hstored j hj => ?_, fun p hp => ?_⟩
      · rcases List.mem_cons.mp he with rfl | he
        · exact absurd hstored hxs
        · exact hread e he hstored j hj
      · exact hkeep p fun e he => hp e (List.mem_cons_of_mem x he)

/-! ## Offsets -/

lemma assignIndex_stored {size : ℕ} {x : Entry} {rest : List Entry} (h : x.align ≠ 0) :
    (assignIndex size (x :: rest)).1 = { x with index := alignUp size x.align } ::
      (assignIndex ((alignUp size x.align + x.bytes.length) % 2 ^ 64) rest).1 := by
  rw [assignIndex, if_pos h]

lemma assignIndex_suffix {size : ℕ} {x : Entry} {rest : List Entry} (h : ¬ x.align ≠ 0) :
    (assignIndex size (x :: rest)).1 = x :: (assignIndex size rest).1 := by
  rw [assignIndex, if_neg h]

lemma map_assignIndex (size : ℕ) :
    (assignIndex size entries).1.map (fun e => { e with index := 0 }) =
      entries.map fun e => { e with index := 0 } := by
  induction entries generalizing size with
  | nil => rfl
  | cons e rest ih =>
    by_cases hs : e.align ≠ 0
    · rw [assignIndex_stored hs, List.map_cons, List.map_cons, ih]
    · rw [assignIndex_suffix hs, List.map_cons, List.map_cons, ih]

/-- An entry with its offset. -/
lemma getElem?_assignIndex (size : ℕ) {i : ℕ} {e : Entry} (h : entries[i]? = some e) :
    ∃ index, (assignIndex size entries).1[i]? = some { e with index } := by
  have hmap := congrArg (fun l => l[i]?) (@map_assignIndex entries size)
  simp only [List.getElem?_map, h, Option.map_some] at hmap
  obtain ⟨e', he', heq⟩ := Option.map_eq_some_iff.mp hmap
  refine ⟨e'.index, he'.trans ?_⟩
  obtain ⟨b, al, ix, so⟩ := e'
  obtain ⟨b', al', ix', so'⟩ := e
  simp only [Entry.mk.injEq, true_and] at heq
  obtain ⟨rfl, rfl, rfl⟩ := heq
  rfl

/-- While the entries end below `2 ^ 63`, each stored entry starts at a multiple of its alignment
behind the ones before it. -/
lemma assignIndex_spec {size : ℕ} (hsize : size < 2 ^ 63)
    (hpow : ∀ e ∈ entries, e.align ≠ 0 → PowUpTo 63 e.align)
    (hfits : ∀ e ∈ (assignIndex size entries).1, e.align ≠ 0 →
      e.index + e.bytes.length < 2 ^ 63) :
    (∀ e ∈ (assignIndex size entries).1, e.align ≠ 0 → size ≤ e.index ∧ e.align ∣ e.index) ∧
      (assignIndex size entries).1.Pairwise Before := by
  induction entries generalizing size with
  | nil => exact ⟨fun e he => absurd he (by simp [assignIndex]), List.Pairwise.nil⟩
  | cons x rest ih =>
    have hpow' : ∀ e ∈ rest, e.align ≠ 0 → PowUpTo 63 e.align :=
      fun e he => hpow e (List.mem_cons_of_mem x he)
    by_cases hxs : x.align ≠ 0
    · rw [assignIndex_stored hxs] at hfits ⊢
      obtain ⟨k, hk, hal⟩ := hpow x (by simp) hxs
      have hle : 2 ^ k ≤ 2 ^ 63 := Nat.pow_le_pow_right two_pos hk
      have hwrap : size + (2 ^ k - 1) < 2 ^ 64 := by omega
      have hup : size ≤ alignUp size x.align := hal ▸ le_alignUp (by omega) hwrap
      have hdvd : x.align ∣ alignUp size x.align := hal ▸ dvd_alignUp (by omega) hwrap
      have hend : alignUp size x.align + x.bytes.length < 2 ^ 63 :=
        hfits { x with index := alignUp size x.align } (by simp) hxs
      rw [Nat.mod_eq_of_lt (by omega)] at hfits ⊢
      obtain ⟨hrest, hpair⟩ := ih hend hpow' fun e he => hfits e (.tail _ he)
      refine ⟨fun e he hstored => ?_, List.pairwise_cons.mpr ⟨fun y hy _ hys => ?_, hpair⟩⟩
      · rcases List.mem_cons.mp he with rfl | he
        · exact ⟨hup, hdvd⟩
        · obtain ⟨h1, h2⟩ := hrest e he hstored
          exact ⟨by omega, h2⟩
      · exact (hrest y hy hys).1
    · rw [assignIndex_suffix hxs] at hfits ⊢
      obtain ⟨hrest, hpair⟩ := ih hsize hpow' fun e he => hfits e (.tail _ he)
      refine ⟨fun e he hstored => ?_, List.pairwise_cons.mpr ⟨fun y _ hx => absurd hx hxs, hpair⟩⟩
      rcases List.mem_cons.mp he with rfl | he
      · exact absurd hstored hxs
      · exact hrest e he hstored

/-- An entry with the offset of a suffix. -/
def settled (entries : List Entry) (e : Entry) : Entry :=
  match e.suffixOf with
  | none => e
  | some t => { e with index :=
      ((entryAt entries t).index + ((entryAt entries t).bytes.length - e.bytes.length)) % 2 ^ 64 }

/-- Where the holders are stored themselves, the order in which suffixes get their offsets does not
matter. -/
lemma suffixIndices_eq (hown : ∀ e ∈ entries, ∀ t, e.suffixOf = some t →
    (entryAt entries t).suffixOf = none) : suffixIndices entries = entries.map (settled entries) := by
  have hfold : ∀ n ≤ entries.length, (List.range n).foldl suffixIndex entries =
      entries.mapIdx fun i e => if i < n then settled entries e else e := by
    intro n
    induction n with
    | zero =>
      intro _
      refine List.ext_getElem? fun i => ?_
      rw [List.getElem?_mapIdx]
      simp
    | succ n ih =>
      intro hn
      rw [List.range_succ, List.foldl_concat, ih (by omega)]
      -- Holders are not changed by the steps so far.
      have hholder : ∀ t, (entryAt entries t).suffixOf = none →
          entryAt (entries.mapIdx fun i e => if i < n then settled entries e else e) t =
            entryAt entries t := by
        intro t ht
        unfold entryAt at ht ⊢
        rw [List.getD_eq_getElem?_getD, List.getElem?_mapIdx]
        rw [List.getD_eq_getElem?_getD] at ht ⊢
        cases he : entries[t]? with
        | none => rfl
        | some e =>
          rw [he, Option.getD_some] at ht
          simp only [Option.map_some, Option.getD_some, settled, ht, ite_self]
      have hat : entryAt (entries.mapIdx fun i e => if i < n then settled entries e else e) n =
          entries[n] := by
        unfold entryAt
        rw [List.getD_eq_getElem?_getD, List.getElem?_mapIdx, List.getElem?_eq_getElem (by omega)]
        simp
      unfold suffixIndex
      rw [hat]
      refine List.ext_getElem? fun i => ?_
      cases hso : entries[n].suffixOf with
      | none =>
        simp only [List.getElem?_mapIdx]
        by_cases hi : i = n
        · subst hi
          rw [List.getElem?_eq_getElem (by omega)]
          simp [settled, hso]
        · simp only [show i < n + 1 ↔ i < n by omega]
      | some t =>
        have ht := hown _ (List.getElem_mem _) t hso
        simp only [List.getElem?_modify, List.getElem?_mapIdx, hholder t ht]
        by_cases hi : i = n
        · subst hi
          rw [List.getElem?_eq_getElem (by omega)]
          simp [settled, hso]
        · simp only [show i < n + 1 ↔ i < n by omega, Ne.symm hi, if_false]
          cases entries[i]? <;> rfl
  rw [suffixIndices, hfold entries.length (le_refl _)]
  refine List.ext_getElem? fun i => ?_
  rw [List.getElem?_mapIdx, List.getElem?_map]
  cases he : entries[i]? with
  | none => rfl
  | some e => simp [(List.getElem?_eq_some_iff.mp he).1]

/-! ## Suffixes -/

/-- Entry `e` may be stored at the end of entry `o`. -/
structure Suffix (o e : Entry) : Prop where
  align_le : e.align ≤ o.align
  length_lt : e.bytes.length < o.bytes.length
  dvd : e.align ∣ o.bytes.length - e.bytes.length
  drop_eq : o.bytes.drop (o.bytes.length - e.bytes.length) = e.bytes

/-- An entry as it was, or stored at the end of one that is as it was. -/
def SharedAt (entries₀ entries : List Entry) (held : ℕ → Prop) (i : ℕ) (e : Entry) : Prop :=
  entries[i]? = some e ∨ ∃ t o, held t ∧ entries₀[t]? = some o ∧ entries[t]? = some o ∧
    Suffix o e ∧ entries[i]? = some { e with suffixOf := some t, align := 0 }

/-- The walk over the entries in the order of their suffixes: those still ahead and the one the walk
holds are as they were. -/
structure Sharing (entries₀ : List Entry) (ahead : List ℕ) (st : List Entry × ℕ) : Prop where
  same : ∀ x ∈ ahead, st.1[x]? = entries₀[x]?
  holder_same : st.1[st.2]? = entries₀[st.2]?
  holder_not_mem : st.2 ∉ ahead
  each : ∀ ⦃i : ℕ⦄ ⦃e : Entry⦄, entries₀[i]? = some e →
    SharedAt entries₀ st.1 (fun t => t ∉ ahead) i e

lemma getElem?_entryAt {i : ℕ} (h : i < entries.length) :
    entries[i]? = some (entryAt entries i) := by
  rw [entryAt, List.getD_eq_getElem?_getD, List.getElem?_eq_getElem h]
  rfl

/-- A step of the walk. -/
lemma Sharing.step {ahead : List ℕ} {cmp : ℕ} {st : List Entry × ℕ}
    (h : Sharing entries₀ (cmp :: ahead) st) (hnd : cmp ∉ ahead) (hcmp : cmp < st.1.length)
    (hholder : st.2 < st.1.length) : Sharing entries₀ ahead (suffixStep st cmp) := by
  have hne : st.2 ≠ cmp := fun heq => h.holder_not_mem (by simp [heq])
  unfold suffixStep
  dsimp only
  split
  · rename_i hcond
    obtain ⟨h1, h2, h3, h4⟩ := hcond
    have hkeep : ∀ {x : ℕ}, x ≠ cmp → (st.1.modify cmp fun x =>
        { x with suffixOf := some st.2, align := 0 })[x]? = st.1[x]? := by
      intro x hx
      rw [List.getElem?_modify_ne _ _ (Ne.symm hx)]
    refine ⟨fun x hx => ?_, ?_, fun hmem => h.holder_not_mem (.tail _ hmem),
      fun i e hi => ?_⟩
    · rw [hkeep (fun heq => hnd (heq ▸ hx))]
      exact h.same x (.tail _ hx)
    · rw [hkeep hne]
      exact h.holder_same
    · by_cases hic : i = cmp
      · -- The entry that is stored inside the holder.
        subst hic
        have hsame := h.same i (by simp)
        rw [hi] at hsame
        have hat : entryAt st.1 i = e :=
          Option.some.inj ((getElem?_entryAt hcmp).symm.trans hsame)
        rw [hat] at h1 h2 h3 h4
        have hgo := getElem?_entryAt hholder
        refine Or.inr ⟨st.2, entryAt st.1 st.2, fun hmem => h.holder_not_mem
          (.tail _ hmem), ?_, ?_, ⟨h1, h2, h3, h4⟩, ?_⟩
        · rw [← h.holder_same, hgo]
        · rw [hkeep hne, hgo]
        · rw [List.getElem?_modify_eq, hsame]
          rfl
      · rcases h.each hi with hleft | ⟨t, o, ht, ho₀, ho, hsuf, he⟩
        · left
          rw [hkeep hic]
          exact hleft
        · refine Or.inr ⟨t, o, fun hmem => ht (.tail _ hmem), ho₀, ?_, hsuf, ?_⟩
          · rw [hkeep fun heq => ht (by simp [heq])]
            exact ho
          · rw [hkeep hic]
            exact he
  · refine ⟨fun x hx => h.same x (.tail _ hx), h.same cmp (by simp), hnd,
      fun i e hi => ?_⟩
    rcases h.each hi with hleft | ⟨t, o, ht, hrest⟩
    · exact Or.inl hleft
    · exact Or.inr ⟨t, o, fun hmem => ht (.tail _ hmem), hrest⟩

lemma length_suffixStep (st : List Entry × ℕ) (cmp : ℕ) :
    (suffixStep st cmp).1.length = st.1.length ∧
      ((suffixStep st cmp).2 = st.2 ∨ (suffixStep st cmp).2 = cmp) := by
  unfold suffixStep
  dsimp only
  split
  · exact ⟨List.length_modify _ _ _, Or.inl rfl⟩
  · exact ⟨rfl, Or.inr rfl⟩

/-- The whole walk. -/
lemma Sharing.run {ahead : List ℕ} {st : List Entry × ℕ} (h : Sharing entries₀ ahead st)
    (hnd : ahead.Nodup) (hin : ∀ x ∈ ahead, x < st.1.length) (hholder : st.2 < st.1.length) :
    Sharing entries₀ [] (ahead.foldl suffixStep st) := by
  induction ahead generalizing st with
  | nil => exact h
  | cons cmp ahead ih =>
    obtain ⟨hcmp, hnd⟩ := List.nodup_cons.mp hnd
    have hlt := hin cmp (by simp)
    obtain ⟨hlen, hheld⟩ := length_suffixStep st cmp
    refine ih (h.step hcmp hlt hholder) hnd (fun x hx => ?_) ?_
    · rw [hlen]
      exact hin x (.tail _ hx)
    · rw [hlen]
      rcases hheld with hheld | hheld
      · rw [hheld]
        exact hholder
      · rw [hheld]
        exact hlt

/-- After sharing, every entry is as it was or is stored at the end of one that is. -/
lemma shareSuffixes_spec {i : ℕ} {e : Entry} (h : entries[i]? = some e) :
    SharedAt entries (shareSuffixes c entries) (fun _ => True) i e := by
  unfold shareSuffixes
  split
  · have hperm : List.Perm (suffixOrder c.entsize entries).reverse (List.range entries.length) :=
      (List.reverse_perm _).trans (List.perm_insertionSort _ _)
    have hnd := hperm.nodup_iff.mpr List.nodup_range
    have hin : ∀ x ∈ (suffixOrder c.entsize entries).reverse, x < entries.length :=
      fun x hx => List.mem_range.mp (hperm.mem_iff.mp hx)
    cases hord : (suffixOrder c.entsize entries).reverse with
    | nil => exact Or.inl h
    | cons e₀ rest =>
      rw [hord] at hnd hin
      obtain ⟨hne, hnd⟩ := List.nodup_cons.mp hnd
      have hinit : Sharing entries rest (entries, e₀) :=
        ⟨fun _ _ => rfl, rfl, hne, fun _ _ hi => Or.inl hi⟩
      have hrun := hinit.run hnd (fun x hx => hin x (.tail _ hx)) (hin e₀ (by simp))
      rcases hrun.each h with hleft | ⟨t, o, -, hrest⟩
      · exact Or.inl hleft
      · exact Or.inr ⟨t, o, trivial, hrest⟩
  · exact Or.inl h

/-- Sharing does not add entries. -/
lemma length_shareSuffixes : (shareSuffixes c entries).length = entries.length := by
  have hfold : ∀ (ahead : List ℕ) (st : List Entry × ℕ),
      (ahead.foldl suffixStep st).1.length = st.1.length := by
    intro ahead
    induction ahead with
    | nil => exact fun _ => rfl
    | cons cmp ahead ih => exact fun st => (ih _).trans (length_suffixStep st cmp).1
  unfold shareSuffixes
  split
  · split
    · rfl
    · exact hfold _ _
  · rfl

/-! ## The layout -/

/-- The entries with their offsets before the suffixes have theirs. -/
def assigned (c : MergeClass) (entries : List Entry) : List Entry :=
  (assignIndex 0 (shareSuffixes c entries)).1

/-- An entry of the layout before the suffixes have their offsets: as it was, or with a holder that
is as it was. -/
lemma assigned_cases {i : ℕ} {e : Entry} (h : entries[i]? = some e) :
    (∃ index, (assigned c entries)[i]? = some { e with index }) ∨
      ∃ t o io index, entries[t]? = some o ∧ Suffix o e ∧
        (assigned c entries)[t]? = some { o with index := io } ∧
        (assigned c entries)[i]? = some { e with suffixOf := some t, align := 0, index } := by
  rcases shareSuffixes_spec (c := c) h with hsame | ⟨t, o, -, ho₀, ho, hsuf, he⟩
  · exact Or.inl (getElem?_assignIndex 0 hsame)
  · obtain ⟨io, hio⟩ := getElem?_assignIndex 0 ho
    obtain ⟨index, hindex⟩ := getElem?_assignIndex 0 he
    exact Or.inr ⟨t, o, io, index, ho₀, hsuf, hio, hindex⟩

/-- The entries of the layout before the suffixes have their offsets: stored ones are aligned, and
suffixes have stored holders. -/
lemma assigned_mem (hint : Interned a entries) {x : Entry} (hx : x ∈ assigned c entries) :
    (x.suffixOf = none ∧ PowUpTo a x.align) ∨
      x.align = 0 ∧ ∀ t, x.suffixOf = some t → (entryAt (assigned c entries) t).suffixOf = none := by
  obtain ⟨i, hi⟩ := List.mem_iff_getElem?.mp hx
  have hlen : (assigned c entries).length = entries.length := by
    have := congrArg List.length (@map_assignIndex (shareSuffixes c entries) 0)
    rw [List.length_map, List.length_map, length_shareSuffixes] at this
    exact this
  have hlt := (List.getElem?_eq_some_iff.mp hi).1
  obtain ⟨e, he⟩ : ∃ e, entries[i]? = some e := ⟨_, List.getElem?_eq_getElem (by omega)⟩
  rcases assigned_cases (c := c) he with ⟨index, hix⟩ | ⟨t, o, io, index, ho, -, hio, hix⟩
  · obtain rfl := Option.some.inj (hi.symm.trans hix)
    have hal : PowUpTo a e.align := hint.aligned he
    have hstored : e.suffixOf = none := hint.stored he
    exact Or.inl ⟨hstored, hal⟩
  · obtain rfl := Option.some.inj (hi.symm.trans hix)
    refine Or.inr ⟨rfl, fun t' ht => ?_⟩
    obtain rfl := Option.some.inj ht
    have hstored : o.suffixOf = none := hint.stored ho
    rw [entryAt, List.getD_eq_getElem?_getD, hio]
    exact hstored

lemma layOutEntries_eq (hint : Interned a entries) :
    (layOutEntries c entries).1 = (assigned c entries).map (settled (assigned c entries)) := by
  refine suffixIndices_eq fun x hx t ht => ?_
  rcases assigned_mem hint hx with ⟨hnone, -⟩ | ⟨-, hown⟩
  · rw [ht] at hnone
    exact absurd hnone (by simp)
  · exact hown t ht

lemma settled_of_stored (hint : Interned a entries) {x : Entry} (hx : x ∈ assigned c entries)
    (hstored : x.align ≠ 0) : settled (assigned c entries) x = x := by
  rcases assigned_mem hint hx with ⟨hnone, -⟩ | ⟨hzero, -⟩
  · rw [settled, hnone]
  · exact absurd hzero hstored

lemma settled_align (x : Entry) : (settled entries x).align = x.align := by
  unfold settled
  split <;> rfl

variable {size : ℕ} {pool : List Byte}

/-- Stored entries lie in the pool, one behind the other, each at a multiple of its alignment. -/
lemma assigned_spec (ha : a < 64) (hint : Interned a entries) (hsize : size < 2 ^ 63)
    (hcopy : (layOutEntries c entries).1.foldlM copyEntry (List.replicate size 0) = some pool) :
    (∀ x ∈ assigned c entries, x.align ≠ 0 →
        x.index + x.bytes.length ≤ size ∧ x.align ∣ x.index) ∧
      (assigned c entries).Pairwise Before := by
  have hmem : ∀ x ∈ assigned c entries, x.align ≠ 0 → x ∈ (layOutEntries c entries).1 := by
    intro x hx hstored
    rw [layOutEntries_eq hint]
    exact List.mem_map.mpr ⟨x, hx, settled_of_stored hint hx hstored⟩
  have hfits : ∀ x ∈ assigned c entries, x.align ≠ 0 → x.index + x.bytes.length ≤ size := by
    intro x hx hstored
    have := copy_fits hcopy x (hmem x hx hstored) hstored
    rwa [List.length_replicate] at this
  have hpow : ∀ x ∈ shareSuffixes c entries, x.align ≠ 0 → PowUpTo 63 x.align := by
    intro x hx hstored
    obtain ⟨i, hi⟩ := List.mem_iff_getElem?.mp hx
    obtain ⟨index, hindex⟩ := getElem?_assignIndex 0 hi
    rcases assigned_mem hint (List.mem_of_getElem? hindex) with ⟨-, j, hj, hal⟩ | ⟨hzero, -⟩
    · exact ⟨j, by omega, hal⟩
    · exact absurd hzero hstored
  obtain ⟨hal, hpair⟩ := assignIndex_spec (by norm_num) hpow
    fun x hx hstored => (hfits x hx hstored).trans_lt hsize
  exact ⟨fun x hx hstored => ⟨hfits x hx hstored, (hal x hx hstored).2⟩, hpair⟩

lemma layOutEntries_pairwise (ha : a < 64) (hint : Interned a entries) (hsize : size < 2 ^ 63)
    (hcopy : (layOutEntries c entries).1.foldlM copyEntry (List.replicate size 0) = some pool) :
    (layOutEntries c entries).1.Pairwise Before := by
  rw [layOutEntries_eq hint, List.pairwise_map]
  refine (assigned_spec ha hint hsize hcopy).2.imp_of_mem fun {x y} hx hy hxy hxs hys => ?_
  rw [settled_align] at hxs hys
  rw [settled_of_stored hint hx hxs, settled_of_stored hint hy hys]
  exact hxy hxs hys

lemma PowUpTo.dvd_of_le {x y : ℕ} (hx : PowUpTo a x) (hy : PowUpTo a y) (h : x ≤ y) : x ∣ y := by
  obtain ⟨i, -, rfl⟩ := hx
  obtain ⟨j, -, rfl⟩ := hy
  exact Nat.pow_dvd_pow 2 ((Nat.pow_le_pow_iff_right (by norm_num)).mp h)

/-- Every entry is found in the pool at its offset, which is a multiple of its alignment. -/
theorem layOutEntries_spec (ha : a < 64) (hint : Interned a entries) (hsize : size < 2 ^ 63)
    (hcopy : (layOutEntries c entries).1.foldlM copyEntry (List.replicate size 0) = some pool)
    {i : ℕ} {e : Entry} (he : entries[i]? = some e) :
    e.align ∣ (entryAt (layOutEntries c entries).1 i).index ∧
      ∀ j < e.bytes.length,
        pool[(entryAt (layOutEntries c entries).1 i).index + j]? = e.bytes[j]? := by
  obtain ⟨hstored, -⟩ := assigned_spec ha hint hsize hcopy
  obtain ⟨hread, -⟩ := copy_reads (layOutEntries_pairwise ha hint hsize hcopy) hcopy
  rw [layOutEntries_eq hint] at hread ⊢
  have hpos : ∀ {x : ℕ}, PowUpTo a x → x ≠ 0 := by
    rintro x ⟨j, -, rfl⟩
    exact (Nat.two_pow_pos j).ne'
  have hat : ∀ {x : Entry}, (assigned c entries)[i]? = some x →
      entryAt ((assigned c entries).map (settled (assigned c entries))) i =
        settled (assigned c entries) x := by
    intro x hx
    rw [entryAt, List.getD_eq_getElem?_getD, List.getElem?_map, hx]
    rfl
  -- A stored entry is copied to its offset.
  have hplace : ∀ {k index : ℕ} {x : Entry}, entries[k]? = some x →
      (assigned c entries)[k]? = some { x with index } →
      x.align ∣ index ∧ index + x.bytes.length ≤ size ∧
        ∀ j < x.bytes.length, pool[index + j]? = x.bytes[j]? := by
    intro k index x hk hix
    have hmem := List.mem_of_getElem? hix
    have hne : x.align ≠ 0 := hpos (hint.aligned hk)
    obtain ⟨hfit, hdvd⟩ := hstored _ hmem hne
    exact ⟨hdvd, hfit, hread _ (List.mem_map.mpr ⟨_, hmem, settled_of_stored hint hmem hne⟩) hne⟩
  rcases assigned_cases (c := c) he with ⟨index, hix⟩ | ⟨t, o, io, index, ho, hsuf, hio, hix⟩
  · have hne : e.align ≠ 0 := hpos (hint.aligned he)
    have hnone : settled (assigned c entries) { e with index } = { e with index } :=
      settled_of_stored hint (List.mem_of_getElem? hix) hne
    rw [hat hix, hnone]
    obtain ⟨hdvd, -, hbytes⟩ := hplace he hix
    exact ⟨hdvd, hbytes⟩
  · -- A suffix is read from its holder.
    obtain ⟨hdvd, hfit, hbytes⟩ := hplace ho hio
    have hlt := hsuf.length_lt
    have hown : entryAt (assigned c entries) t = { o with index := io } := by
      rw [entryAt, List.getD_eq_getElem?_getD, hio]
      rfl
    have hindex : (settled (assigned c entries)
        { e with suffixOf := some t, align := 0, index }).index =
        io + (o.bytes.length - e.bytes.length) := by
      change ((entryAt (assigned c entries) t).index +
        ((entryAt (assigned c entries) t).bytes.length - e.bytes.length)) % 2 ^ 64 = _
      rw [hown]
      change (io + (o.bytes.length - e.bytes.length)) % 2 ^ 64 = _
      exact Nat.mod_eq_of_lt (by omega)
    rw [hat hix, hindex]
    have hal : e.align ∣ o.align := (hint.aligned he).dvd_of_le (hint.aligned ho) hsuf.align_le
    refine ⟨Nat.dvd_add (hal.trans hdvd) hsuf.dvd, fun j hj => ?_⟩
    rw [Nat.add_assoc, hbytes _ (by omega), ← List.getElem?_drop, hsuf.drop_eq]

end Badc.Pools
