import Badc.Linker.PoolLayout

/-!
# Merge pools keep references

The pools of a link hold, for every offset into a merged section, the bytes from there to the end of
the entry around it; every entry starts in the pool at a multiple of the powers of two it starts at in
some member, up to the alignment of the section; and no two stored entries overlap
(`buildMergePools_spec`).  The build succeeds as long as the entries, each with an alignment of
padding, stay below `2 ^ 63` bytes (`buildMergePools_isSome`).
-/

namespace Badc.Pools

variable {c : MergeClass} {a : ℕ} {entries : List Entry} {members : List Member}

/-! ## One pool -/

/-- The entries of a pool with their offsets. -/
def poolEntries (c : MergeClass) (members : List Member) : List Entry :=
  (layOutEntries c (survey c members).entries).1

/-- Where the entries of a member are: every offset is in one, each is an entry of the pool, and an
offset in it is found as far behind the start of that one. -/
structure Mapped (c : MergeClass) (entries laid : List Entry) (data : List Byte)
    (starts targets : List ℕ) : Prop where
  covered : ∀ off < data.length, ∃ start len, IsEntry c data start len ∧ start ≤ off ∧
    off < start + len
  found : ∀ ⦃start len : ℕ⦄, IsEntry c data start len → ∃ eid,
    Holds entries eid (resized data start len) (eltalign c.align start) ∧
      ∀ off, start ≤ off → off < start + len →
        lookUp starts targets off = (entryAt laid eid).index + (off - start)

lemma IsEntry.start_lt {data : List Byte} {start len : ℕ} (h : IsEntry c data start len) :
    start < data.length := by
  unfold IsEntry at h
  split at h
  · exact h.start_lt
  · exact h.2.1

/-- A recorded member is mapped. -/
lemma Recorded.mapped (hes : 0 < c.entsize) {laid : List Entry} {data : List Byte} {pos : ℕ}
    {starts ids : List ℕ} (h : Recorded c data entries pos starts ids) (hpos : data.length ≤ pos) :
    Mapped c entries laid data starts (ids.map fun eid => (entryAt laid eid).index) := by
  have hentry : ∀ {k start : ℕ}, starts[k]? = some start → ∃ eid, ids[k]? = some eid ∧
      IsEntry c data start (entryLen c data start) ∧
        Holds entries eid (resized data start (entryLen c data start)) (eltalign c.align start) := by
    intro k start hk
    have hlt := (List.getElem?_eq_some_iff.mp hk).1
    obtain ⟨eid, hid⟩ : ∃ eid, ids[k]? = some eid :=
      ⟨_, List.getElem?_eq_getElem (by rwa [← h.length_eq])⟩
    exact ⟨eid, hid, h.entry hk hid⟩
  refine ⟨fun off hoff => ?_, fun start len hse => ?_⟩
  · obtain ⟨k, start, hk, hle, hlt⟩ := h.covers (hoff.trans_le hpos)
    obtain ⟨eid, -, hse, -⟩ := hentry hk
    exact ⟨start, _, hse, hle, hlt⟩
  · -- The walk has recorded an entry around the start, which is this one.
    obtain ⟨k, start', hk, hle, hlt⟩ := h.covers (hse.start_lt.trans_le hpos)
    obtain ⟨eid, hid, hse', hholds⟩ := hentry hk
    obtain ⟨rfl, rfl⟩ := hse.unique hse' (le_refl _) (by have := hse.len_pos hes; omega) hle hlt
    refine ⟨eid, hholds, fun off ho hoff => ?_⟩
    rw [h.lookUp_eq hes hk ho hoff, List.getD_eq_getElem?_getD, List.getElem?_map, hid]
    rfl

variable {pool : List Byte} {maps : PoolMemberMaps}

/-- What building a pool computes. -/
lemma buildPool_eq_some (h : buildPool c members = some (pool, maps)) :
    ∃ size < 2 ^ 63,
      (poolEntries c members).foldlM copyEntry (List.replicate size 0) = some pool ∧
        maps = (survey c members).refs.map fun r =>
          (r.1, r.2.1, r.2.2.map fun eid => (entryAt (poolEntries c members) eid).index) := by
  unfold buildPool at h
  simp only [Option.bind_eq_bind, Option.bind_eq_some_iff, Option.guard_eq_some', Option.pure_def,
    Option.some.injEq, Prod.mk.injEq] at h
  obtain ⟨-, hsize, pool', hcopy, rfl, rfl⟩ := h
  exact ⟨_, hsize, hcopy, rfl⟩

lemma buildPool_mapped (hc : Sane c a) (hdata : ∀ m ∈ members, c.entsize ∣ m.2.length)
    (h : buildPool c members = some (pool, maps)) :
    List.Forall₂ (fun r m => r.1 = m.1 ∧
      Mapped c (survey c members).entries (poolEntries c members) m.2 r.2.1 r.2.2) maps members := by
  obtain ⟨size, -, -, rfl⟩ := buildPool_eq_some h
  rw [List.forall₂_map_left_iff]
  refine (survey_spec hc hdata).2.imp fun r m hr => ?_
  obtain ⟨hid, pos, hpos, hrec⟩ := hr
  exact ⟨hid, hrec.mapped hc.entsize_pos hpos⟩

lemma getElem?_resized {data : List Byte} {pos len j : ℕ} (hj : j < len) :
    (resized data pos len)[j]? = some (data.getD (pos + j) 0) := by
  rw [resized, List.getElem?_map, List.getElem?_range hj]
  rfl

@[simp] lemma length_resized {data : List Byte} {pos len : ℕ} :
    (resized data pos len).length = len := by
  simp [resized]

/-- An entry of the pool is found at its offset, which is a multiple of each power of two it holds
an occurrence for. -/
lemma buildPool_holds (hc : Sane c a) (hdata : ∀ m ∈ members, c.entsize ∣ m.2.length)
    (h : buildPool c members = some (pool, maps)) {eid al : ℕ} {bytes : List Byte}
    (hholds : Holds (survey c members).entries eid bytes al) (hal : PowUpTo a al) :
    al ∣ (entryAt (poolEntries c members) eid).index ∧
      ∀ j < bytes.length, pool[(entryAt (poolEntries c members) eid).index + j]? = bytes[j]? := by
  obtain ⟨size, hsize, hcopy, -⟩ := buildPool_eq_some h
  have hint := (survey_spec hc hdata).1
  obtain ⟨e, he, rfl, hle⟩ := hholds
  obtain ⟨hdvd, hread⟩ := layOutEntries_spec hc.lt hint hsize hcopy he
  exact ⟨(hal.dvd_of_le (hint.aligned he) hle).trans hdvd, hread⟩

/-! ## Groups -/

variable {lk : LdsLinker} {gid m : ℕ} {g : Group}

/-- The groups of the sections below `n`: each section that is merged is in the group of its key. -/
structure Grouped (lk : LdsLinker) (n : ℕ) (groups : Groups) : Prop where
  key : ∀ ⦃gid : ℕ⦄ ⦃g : Group⦄, groups[gid]? = some g → ∀ m ∈ g.2, m < n ∧ lk.mergeKey m = some g.1
  distinct : ∀ ⦃gid gid' : ℕ⦄ ⦃g g' : Group⦄, groups[gid]? = some g → groups[gid']? = some g' →
    g.1 = g'.1 → gid = gid'
  nodup : ∀ ⦃gid : ℕ⦄ ⦃g : Group⦄, groups[gid]? = some g → g.2.Nodup ∧ g.2 ≠ []
  complete : ∀ m < n, ∀ key, lk.mergeKey m = some key →
    ∃ (gid : ℕ) (g : Group), groups[gid]? = some g ∧ g.1 = key ∧ m ∈ g.2

/-- Putting the next section into its group. -/
lemma Grouped.addMember {n : ℕ} {groups : Groups} {key : ℕ × MergeClass}
    (h : Grouped lk n groups) (hkey : lk.mergeKey n = some key) :
    Grouped lk (n + 1) (addMember groups key n) := by
  unfold Pools.addMember
  obtain ⟨x, hx, hcase⟩ := @findOrPush_at _ groups (fun g => g.1 == key) (key, [])
    fun g => (g.1, g.2 ++ [n])
  have hne := @findOrPush_ne _ groups (fun g => g.1 == key) (key, []) fun g => (g.1, g.2 ++ [n])
  set r := findOrPush groups (fun g => g.1 == key) (key, []) fun g => (g.1, g.2 ++ [n])
  have hx1 : x.1 = key := by
    rcases hcase with ⟨-, hb⟩ | ⟨-, rfl, -⟩
    · exact beq_iff_eq.mp hb
    · rfl
  have hx2 : ∀ m ∈ x.2, m < n ∧ lk.mergeKey m = some key := by
    rcases hcase with ⟨hold, -⟩ | ⟨-, rfl, -⟩
    · exact hx1 ▸ h.key hold
    · exact fun m hm => absurd hm (by simp)
  have hother : ∀ ⦃j : ℕ⦄ ⦃g : Group⦄, j ≠ r.2 → groups[j]? = some g → g.1 ≠ key := by
    intro j g hj hg heq
    rcases hcase with ⟨hold, -⟩ | ⟨-, -, hnone⟩
    · exact hj (h.distinct hg hold (heq.trans hx1.symm))
    · exact absurd (hnone g (List.mem_of_getElem? hg)) (by simp [heq])
  have hcases : ∀ ⦃i : ℕ⦄ ⦃g : Group⦄, r.1[i]? = some g →
      (i = r.2 ∧ g = (x.1, x.2 ++ [n])) ∨ (i ≠ r.2 ∧ groups[i]? = some g) := by
    intro i g hi
    by_cases hir : i = r.2
    · subst hir
      exact Or.inl ⟨rfl, Option.some.inj (hi.symm.trans hx)⟩
    · exact Or.inr ⟨hir, by rwa [hne hir] at hi⟩
  refine ⟨fun i g hi m hm => ?_, fun i j g g' hi hj heq => ?_, fun i g hi => ?_,
    fun m hm key' hkey' => ?_⟩
  · rcases hcases hi with ⟨-, rfl⟩ | ⟨-, hi'⟩
    · rcases List.mem_append.mp hm with hm | hm
      · exact ⟨Nat.lt_succ_of_lt (hx2 m hm).1, by rw [(hx2 m hm).2, hx1]⟩
      · obtain rfl := List.mem_singleton.mp hm
        exact ⟨Nat.lt_succ_self m, by rw [hkey, hx1]⟩
    · obtain ⟨h1, h2⟩ := h.key hi' m hm
      exact ⟨Nat.lt_succ_of_lt h1, h2⟩
  · rcases hcases hi with ⟨rfl, rfl⟩ | ⟨hir, hi'⟩
    · rcases hcases hj with ⟨rfl, -⟩ | ⟨hjr, hj'⟩
      · rfl
      · exact absurd (heq.symm.trans hx1) (hother hjr hj')
    · rcases hcases hj with ⟨rfl, rfl⟩ | ⟨hjr, hj'⟩
      · exact absurd (heq.trans hx1) (hother hir hi')
      · exact h.distinct hi' hj' heq
  · rcases hcases hi with ⟨-, rfl⟩ | ⟨-, hi'⟩
    · refine ⟨?_, by simp⟩
      have hnd : x.2.Nodup := by
        rcases hcase with ⟨hold, -⟩ | ⟨-, rfl, -⟩
        · exact (h.nodup hold).1
        · exact List.nodup_nil
      refine List.nodup_append.mpr ⟨hnd, List.nodup_singleton n, fun m hm m' hm' heq => ?_⟩
      have := (hx2 m hm).1
      rw [heq, List.mem_singleton.mp hm'] at this
      exact absurd this (lt_irrefl n)
    · exact h.nodup hi'
  · rcases Nat.lt_succ_iff_lt_or_eq.mp hm with hm | rfl
    · obtain ⟨gid, g, hg, hgk, hmem⟩ := h.complete m hm key' hkey'
      by_cases hir : gid = r.2
      · subst hir
        obtain rfl : x = g := by
          rcases hcase with ⟨hold, -⟩ | ⟨hend, -, -⟩
          · exact Option.some.inj (hold.symm.trans hg)
          · have := (List.getElem?_eq_some_iff.mp hg).1
            omega
        exact ⟨_, _, hx, hgk, List.mem_append_left _ hmem⟩
      · exact ⟨gid, g, by rw [hne hir, hg], hgk, hmem⟩
    · obtain rfl := Option.some.inj (hkey.symm.trans hkey')
      exact ⟨_, _, hx, hx1, by simp⟩

/-- The groups of the sections below a count. -/
def LdsLinker.groupsBelow (lk : LdsLinker) (n : ℕ) : Groups :=
  (List.range n).foldl (fun groups i => match lk.mergeKey i with
    | some key => addMember groups key i
    | none => groups) []

lemma groupsBelow_succ (lk : LdsLinker) (n : ℕ) : lk.groupsBelow (n + 1) =
    (lk.mergeKey n).elim (lk.groupsBelow n) fun key => addMember (lk.groupsBelow n) key n := by
  unfold LdsLinker.groupsBelow
  rw [List.range_succ, List.foldl_concat]
  cases lk.mergeKey n with
  | none => rfl
  | some key => rfl

/-- The groups of a link. -/
lemma grouped_groups (lk : LdsLinker) : Grouped lk lk.insecs.length lk.groups := by
  have hbelow : ∀ n, Grouped lk n (lk.groupsBelow n) := by
    intro n
    induction n with
    | zero =>
      exact ⟨fun _ _ h => (by cases h), fun _ _ _ _ h => (by cases h), fun _ _ h => (by cases h),
        fun m hm => absurd hm (Nat.not_lt_zero m)⟩
    | succ n ih =>
      rw [groupsBelow_succ]
      cases hkey : lk.mergeKey n with
      | some key => exact ih.addMember hkey
      | none =>
        refine ⟨fun i g hi m hm => ?_, ih.distinct, ih.nodup, fun m hm key hk => ?_⟩
        · exact ⟨Nat.lt_succ_of_lt (ih.key hi m hm).1, (ih.key hi m hm).2⟩
        · rcases Nat.lt_succ_iff_lt_or_eq.mp hm with hm | rfl
          · exact ih.complete m hm key hk
          · rw [hkey] at hk
            exact absurd hk (by simp)
  exact hbelow _

/-- A section that is merged has a sane class, and its size is a multiple of the entry size. -/
lemma mergeKey_sane {key : ℕ × MergeClass} (h : lk.mergeKey m = some key) :
    ∃ s a, lk.insecs[m]? = some s ∧ s.sectionData.length = s.size ∧ Sane key.2 a ∧
      key.2.entsize ∣ s.sectionData.length := by
  unfold LdsLinker.mergeKey at h
  split at h
  · rename_i out s hfate hsec
    obtain ⟨c, hclass, rfl⟩ := Option.map_eq_some_iff.mp h
    unfold RawSection.mergeClass at hclass
    obtain ⟨hkind, hclass⟩ := Option.ite_none_left_eq_some.mp hclass
    obtain ⟨hsize, hclass⟩ := Option.ite_none_left_eq_some.mp hclass
    obtain ⟨halign, hclass⟩ := Option.ite_none_left_eq_some.mp hclass
    obtain rfl := Option.some.inj hclass
    simp only [not_or, not_not] at hkind hsize halign
    have hbits : s.shtype ≠ shtNobits := by
      rw [hkind.2.2]
      decide
    have hlen : s.sectionData.length = s.size := by
      rw [RawSection.sectionData, if_neg hbits]
      exact s.length_contents hbits
    obtain ⟨a, ha, hpow⟩ : ∃ a < 64, max s.addralign 1 = 2 ^ a := by
      have := halign.1
      simp only [isPowerOfTwo, Bool.not_eq_true', Bool.not_eq_false, List.any_eq_true,
        List.mem_range, beq_iff_eq] at this
      exact this
    exact ⟨s, a, hsec, hlen, ⟨Nat.pos_of_ne_zero hsize.2.2.1, hpow, ha⟩, hlen ▸ hsize.2.2.2⟩
  · exact absurd h (by simp)

/-! ## The pools of a link -/

/-- Entering the members of a group. -/
lemma foldl_update {β : Type*} (v : β) (ms : List ℕ) (f : ℕ → β) :
    ms.foldl (fun f m => Function.update f m v) f m = if m ∈ ms then v else f m := by
  induction ms generalizing f with
  | nil => simp
  | cons x ms ih =>
    rw [List.foldl_cons, ih]
    by_cases hx : m = x
    · subst hx
      simp
    · simp [hx]

/-- Every group has its pool, and its members have the number of the pool. -/
lemma foldlM_addPool {gs : Groups} {p : PoolTable}
    (hdisj : ∀ ⦃gid gid' : ℕ⦄ ⦃g g' : Group⦄, gs[gid]? = some g → gs[gid']? = some g' →
      ∀ m ∈ g.2, m ∈ g'.2 → gid = gid')
    (h : gs.foldlM lk.addPool ⟨[], fun _ => none⟩ = some p) :
    p.pools.length = gs.length ∧ ∀ ⦃gid : ℕ⦄ ⦃g : Group⦄, gs[gid]? = some g →
      (∃ pool, p.pools[gid]? = some pool ∧ lk.poolOf g = some pool) ∧
        ∀ m ∈ g.2, p.mergeOf m = some gid := by
  induction gs using List.reverseRecOn generalizing p with
  | nil =>
    obtain rfl := Option.some.inj h
    exact ⟨rfl, fun _ _ h => (nomatch h)⟩
  | append_singleton gs g ih =>
    rw [List.foldlM_append] at h
    obtain ⟨p', hp', hlast⟩ := Option.bind_eq_some_iff.mp h
    have hpre : ∀ {gid : ℕ} {x : Group}, gs[gid]? = some x → (gs ++ [g])[gid]? = some x := by
      intro gid x hx
      rwa [List.getElem?_append_left (List.getElem?_eq_some_iff.mp hx).1]
    have hend : (gs ++ [g])[gs.length]? = some g := by
      rw [List.getElem?_append_right (Nat.le_refl _), Nat.sub_self]
      rfl
    obtain ⟨hlen, hgs⟩ := ih (fun _ _ _ _ hg hg' => hdisj (hpre hg) (hpre hg')) hp'
    simp only [List.foldlM_cons, List.foldlM_nil, bind_pure] at hlast
    unfold LdsLinker.addPool at hlast
    obtain ⟨pool, hpool, hp⟩ := Option.bind_eq_some_iff.mp hlast
    obtain rfl := Option.some.inj hp
    refine ⟨by simp [hlen], fun gid x hx => ?_⟩
    rcases getElem?_concat_cases hx with hx' | ⟨rfl, rfl⟩
    · obtain ⟨⟨pool', hp1, hp2⟩, hmem⟩ := hgs hx'
      have hlt := (List.getElem?_eq_some_iff.mp hx').1
      refine ⟨⟨pool', ?_, hp2⟩, fun m hm => ?_⟩
      · dsimp only
        rwa [List.getElem?_append_left (by omega)]
      · dsimp only
        -- A member of an earlier group is not in the last one.
        rw [foldl_update, if_neg, hmem m hm]
        intro hmg
        have := hdisj (hpre hx') hend m hm hmg
        omega
    · refine ⟨⟨pool, ?_, hpool⟩, fun m hm => ?_⟩
      · dsimp only
        rw [← hlen, List.getElem?_append_right (Nat.le_refl _), Nat.sub_self]
        rfl
      · dsimp only
        rw [foldl_update, if_pos hm, hlen]

/-- The members of a group with their contents. -/
def LdsLinker.membersOf (lk : LdsLinker) (g : Group) : List Member :=
  g.2.map fun m => (m, lk.dataOf m)

/-- A pool keeps the references to its members.  The contents of a member are continued by zeros,
where a terminator is missing. -/
structure Keeps (lk : LdsLinker) (p : PoolTable) (g : Group) (pool : MergePool) : Prop where
  /-- Every offset is in an entry, and from there to the end of the entry the pool has its bytes. -/
  reads : ∀ m ∈ g.2, ∀ off < (lk.dataOf m).length, ∃ start len at',
    IsEntry g.1.2 (lk.dataOf m) start len ∧ start ≤ off ∧ off < start + len ∧
      lk.mergeRemap p m off = some at' ∧
      ∀ j, off + j < start + len → pool.bytes[at' + j]? = some ((lk.dataOf m).getD (off + j) 0)
  /-- An entry that starts at a multiple of a power of two in some member does so in the pool,
  wherever else it occurs. -/
  aligned : ∀ m ∈ g.2, ∀ m' ∈ g.2, ∀ start len start' k,
    IsEntry g.1.2 (lk.dataOf m) start len → IsEntry g.1.2 (lk.dataOf m') start' len →
    resized (lk.dataOf m) start len = resized (lk.dataOf m') start' len →
    2 ^ k ∣ start → 2 ^ k ≤ g.1.2.align → ∃ at', lk.mergeRemap p m' start' = some at' ∧ 2 ^ k ∣ at'
  /-- Stored entries do not overlap. -/
  disjoint : (poolEntries g.1.2 (lk.membersOf g)).Pairwise Before

/-- The record of a member. -/
lemma find_record {R : ℕ × List ℕ × List ℕ → Member → Prop} {x : Member}
    (h : List.Forall₂ (fun r m => r.1 = m.1 ∧ R r m) maps members) (hx : x ∈ members) :
    ∃ r, maps.find? (fun r => r.1 == x.1) = some r ∧ ∃ y ∈ members, y.1 = x.1 ∧ R r y := by
  induction h with
  | nil => exact absurd hx (by simp)
  | @cons r y maps members hr _ ih =>
    by_cases hrx : r.1 = x.1
    · exact ⟨r, by simp [hrx], y, by simp, hr.1.symm.trans hrx, hr.2⟩
    · have hxm : x ∈ members := by
        refine (List.mem_cons.mp hx).resolve_left fun heq => ?_
        rw [heq] at hrx
        exact hrx hr.1
      obtain ⟨r', hfind, z, hz, hzx, hR⟩ := ih hxm
      refine ⟨r', ?_, z, List.mem_cons_of_mem y hz, hzx, hR⟩
      rw [List.find?_cons_of_neg (by simpa using hrx)]
      exact hfind

variable {p : PoolTable} {pool' : MergePool}

lemma dataOf_eq {s : RawSection} (h : lk.insecs[m]? = some s) : lk.dataOf m = s.sectionData := by
  rw [LdsLinker.dataOf, h]
  rfl

/-- The pool of a group keeps the references to its members. -/
lemma keeps_of_poolOf (hkey : ∀ m ∈ g.2, lk.mergeKey m = some g.1) (hne : g.2 ≠ [])
    (hof : ∀ m ∈ g.2, p.mergeOf m = some gid) (hat : p.pools[gid]? = some pool')
    (hpool : lk.poolOf g = some pool') : Keeps lk p g pool' := by
  unfold LdsLinker.poolOf at hpool
  obtain ⟨⟨bytes, maps⟩, hbuild, hpool⟩ := Option.bind_eq_some_iff.mp hpool
  obtain ⟨rep, -, hpool⟩ := Option.bind_eq_some_iff.mp hpool
  obtain rfl := Option.some.inj hpool
  obtain ⟨m₀, hm₀⟩ := List.exists_mem_of_ne_nil _ hne
  obtain ⟨-, a, -, -, hc, -⟩ := mergeKey_sane (hkey m₀ hm₀)
  have hdata : ∀ x ∈ lk.membersOf g, g.1.2.entsize ∣ x.2.length := by
    intro x hx
    obtain ⟨m, hm, rfl⟩ := List.mem_map.mp hx
    obtain ⟨s, -, hs, -, -, hdvd⟩ := mergeKey_sane (hkey m hm)
    dsimp only
    rwa [dataOf_eq hs]
  -- An offset into a member is looked up in the record of the member.
  have hremap : ∀ m ∈ g.2, ∃ starts targets,
      Mapped g.1.2 (survey g.1.2 (lk.membersOf g)).entries (poolEntries g.1.2 (lk.membersOf g))
        (lk.dataOf m) starts targets ∧
      ∀ off < (lk.dataOf m).length, lk.mergeRemap p m off = some (lookUp starts targets off) := by
    intro m hm
    obtain ⟨s, -, hs, hsize, -, -⟩ := mergeKey_sane (hkey m hm)
    have hmem : (m, lk.dataOf m) ∈ lk.membersOf g := List.mem_map.mpr ⟨m, hm, rfl⟩
    obtain ⟨⟨id, starts, targets⟩, hfind, y, hy, hym, hmapped⟩ :=
      find_record (buildPool_mapped hc hdata hbuild) hmem
    obtain ⟨m', -, rfl⟩ := List.mem_map.mp hy
    obtain rfl : m' = m := hym
    refine ⟨starts, targets, hmapped, fun off hoff => ?_⟩
    rw [dataOf_eq hs, hsize] at hoff
    dsimp only at hfind
    simp [LdsLinker.mergeRemap, hof m' hm, hat, hs, hfind, Nat.not_le.mpr hoff]
  have hheld : ∀ {m start len eid : ℕ}, Holds (survey g.1.2 (lk.membersOf g)).entries eid
      (resized (lk.dataOf m) start len) (eltalign g.1.2.align start) →
      eltalign g.1.2.align start ∣ (entryAt (poolEntries g.1.2 (lk.membersOf g)) eid).index ∧
        ∀ j < len, bytes[(entryAt (poolEntries g.1.2 (lk.membersOf g)) eid).index + j]? =
          some ((lk.dataOf m).getD (start + j) 0) := by
    intro m start len eid hholds
    have hal : PowUpTo a (eltalign g.1.2.align start) := by
      rw [hc.align_eq]
      exact powUpTo_eltalign a start
    obtain ⟨hdvd, hread⟩ := buildPool_holds hc hdata hbuild hholds hal
    rw [length_resized] at hread
    exact ⟨hdvd, fun j hj => (hread j hj).trans (getElem?_resized hj)⟩
  refine ⟨fun m hm off hoff => ?_, fun m hm m' hm' start len start' k hse hse' heq hdvd hk => ?_, ?_⟩
  · obtain ⟨starts, targets, hmapped, hlook⟩ := hremap m hm
    obtain ⟨start, len, hse, hle, hlt⟩ := hmapped.covered off hoff
    obtain ⟨eid, hholds, hfound⟩ := hmapped.found hse
    refine ⟨start, len, _, hse, hle, hlt, hlook off hoff, fun j hj => ?_⟩
    rw [hfound off hle hlt, Nat.add_assoc, (hheld hholds).2 _ (by omega)]
    congr 2
    omega
  · obtain ⟨starts, targets, hmapped, -⟩ := hremap m hm
    obtain ⟨starts', targets', hmapped', hlook'⟩ := hremap m' hm'
    obtain ⟨eid, hholds, -⟩ := hmapped.found hse
    obtain ⟨eid', hholds', hfound'⟩ := hmapped'.found hse'
    refine ⟨_, hlook' start' hse'.start_lt, ?_⟩
    -- Both occurrences are one entry of the pool.
    obtain rfl : eid = eid' := by
      obtain ⟨e, he, heb, -⟩ := hholds
      obtain ⟨e', he', heb', -⟩ := hholds'
      exact (survey_spec hc hdata).1.distinct he he' (by rw [heb, heb', heq])
    have hlen := hse'.len_pos hc.entsize_pos
    rw [hfound' start' (le_refl _) (by omega), Nat.sub_self, Nat.add_zero]
    rw [hc.align_eq] at hk
    have hka : k ≤ a := (Nat.pow_le_pow_iff_right (by norm_num)).mp hk
    have hle : 2 ^ k ≤ eltalign g.1.2.align start := by
      rw [hc.align_eq]
      exact le_eltalign hc.lt hka hdvd
    have hpow : PowUpTo a (eltalign g.1.2.align start) := by
      rw [hc.align_eq]
      exact powUpTo_eltalign a start
    have hkpow : PowUpTo a (2 ^ k) := ⟨k, hka, rfl⟩
    exact (hkpow.dvd_of_le hpow hle).trans (hheld hholds).1
  · obtain ⟨size, hsize, hcopy, -⟩ := buildPool_eq_some hbuild
    exact layOutEntries_pairwise hc.lt (survey_spec hc hdata).1 hsize hcopy

/-- The pools of a link keep references: every section that is merged is in the group of its key, and
the pool of each group keeps the references to its members. -/
theorem buildMergePools_spec (h : lk.buildMergePools = some p) :
    (∀ m key, lk.mergeKey m = some key → ∃ (gid : ℕ) (g : Group) (pool : MergePool),
      lk.groups[gid]? = some g ∧ g.1 = key ∧ m ∈ g.2 ∧ p.mergeOf m = some gid ∧
        p.pools[gid]? = some pool) ∧
    ∀ (gid : ℕ) (g : Group) (pool : MergePool), lk.groups[gid]? = some g →
      p.pools[gid]? = some pool → Keeps lk p g pool := by
  have hgroups := grouped_groups lk
  have hdisj : ∀ ⦃gid gid' : ℕ⦄ ⦃g g' : Group⦄, lk.groups[gid]? = some g →
      lk.groups[gid']? = some g' → ∀ m ∈ g.2, m ∈ g'.2 → gid = gid' := by
    intro gid gid' g g' hg hg' m hm hm'
    have hk := (hgroups.key hg m hm).2
    have hk' := (hgroups.key hg' m hm').2
    exact hgroups.distinct hg hg' (Option.some.inj (hk.symm.trans hk'))
  obtain ⟨-, htable⟩ := foldlM_addPool hdisj h
  refine ⟨fun m key hkey => ?_, fun gid g pool hg hpool => ?_⟩
  · obtain ⟨s, -, hs, -⟩ := mergeKey_sane hkey
    obtain ⟨gid, g, hg, hgk, hm⟩ :=
      hgroups.complete m (List.getElem?_eq_some_iff.mp hs).1 key hkey
    obtain ⟨⟨pool, hpool, -⟩, hof⟩ := htable hg
    exact ⟨gid, g, pool, hg, hgk, hm, hof m hm, hpool⟩
  · obtain ⟨⟨pool', hpool', hbuilt⟩, hof⟩ := htable hg
    obtain rfl := Option.some.inj (hpool'.symm.trans hpool)
    exact keeps_of_poolOf (fun m hm => (hgroups.key hg m hm).2) (hgroups.nodup hg).2 hof hpool hbuilt

/-- A section of strings. -/
def stringSection (contents : List Byte) : RawSection where
  shtype := shtProgbits
  flags := shfMerge ||| shfStrings
  size := contents.length
  addralign := 1
  entsize := 1
  relocs := []
  contents
  addralign_lt := by norm_num
  length_contents _ := rfl

/-- The strings `"foobar"` and `"x"` in one section, `"bar"` without its terminator in another. -/
def sharedLink : LdsLinker where
  insecs := [stringSection [102, 111, 111, 98, 97, 114, 0, 120, 0], stringSection [98, 97, 114]]
  fates := [.placed 0, .placed 0]

/-- The second section is found at the end of the first string. -/
theorem buildMergePools_spec_shared : ∃ p, sharedLink.buildMergePools = some p ∧
    sharedLink.mergeRemap p 1 0 = some 3 ∧
      ∀ (gid : ℕ) (g : Group) (pool : MergePool), sharedLink.groups[gid]? = some g →
        p.pools[gid]? = some pool → Keeps sharedLink p g pool := by
  have hrun : (sharedLink.buildMergePools.bind fun p => sharedLink.mergeRemap p 1 0) = some 3 := by
    decide +kernel
  obtain ⟨p, hp, hremap⟩ := Option.bind_eq_some_iff.mp hrun
  exact ⟨p, hp, hremap, (buildMergePools_spec hp).2⟩

/-! ## When the build succeeds -/

/-- The room entries need at most. -/
def roomFor (align : ℕ) (entries : List Entry) : ℕ :=
  (entries.map fun e => e.bytes.length + align).sum

/-- Entries with enough room below `2 ^ 63` end where the layout ends. -/
lemma assignIndex_bound (ha : a < 64) (size : ℕ)
    (hpow : ∀ e ∈ entries, e.align ≠ 0 → PowUpTo a e.align)
    (hroom : size + roomFor (2 ^ a) entries < 2 ^ 63) :
    (∀ e ∈ (assignIndex size entries).1, e.align ≠ 0 →
        e.index + e.bytes.length ≤ (assignIndex size entries).2) ∧
      size ≤ (assignIndex size entries).2 ∧
      (assignIndex size entries).2 ≤ size + roomFor (2 ^ a) entries := by
  induction entries generalizing size with
  | nil => exact ⟨fun e he => absurd he (by simp [assignIndex]), le_refl _, Nat.le_add_right _ _⟩
  | cons x rest ih =>
    have hpow' : ∀ e ∈ rest, e.align ≠ 0 → PowUpTo a e.align :=
      fun e he => hpow e (List.mem_cons_of_mem x he)
    have hcons : roomFor (2 ^ a) (x :: rest) = x.bytes.length + 2 ^ a + roomFor (2 ^ a) rest := by
      rw [roomFor, List.map_cons, List.sum_cons, ← roomFor]
    have hpos : 0 < 2 ^ a := Nat.two_pow_pos a
    rw [hcons] at hroom ⊢
    by_cases hxs : x.align ≠ 0
    · obtain ⟨k, hk, hal⟩ := hpow x (by simp) hxs
      have hle : 2 ^ k ≤ 2 ^ a := Nat.pow_le_pow_right two_pos hk
      have hkpos : 0 < 2 ^ k := Nat.two_pow_pos k
      have hup : size ≤ alignUp size x.align := hal ▸ le_alignUp (by omega) (by omega)
      have hdown : alignUp size x.align ≤ size + (2 ^ k - 1) := by
        rw [hal]
        exact alignUp_le (by omega) (by omega)
      have hmod : (alignUp size x.align + x.bytes.length) % 2 ^ 64 =
          alignUp size x.align + x.bytes.length := Nat.mod_eq_of_lt (by omega)
      obtain ⟨h1, h2, h3⟩ := ih (alignUp size x.align + x.bytes.length) hpow' (by omega)
      have htotal : (assignIndex size (x :: rest)).2 =
          (assignIndex (alignUp size x.align + x.bytes.length) rest).2 := by
        rw [assignIndex, if_pos hxs]
        dsimp only
        rw [hmod]
      rw [assignIndex_stored hxs, hmod, htotal]
      refine ⟨fun e he hstored => ?_, by omega, by omega⟩
      rcases List.mem_cons.mp he with rfl | he
      · exact h2
      · exact h1 e he hstored
    · obtain ⟨h1, h2, h3⟩ := ih size hpow' (by omega)
      have htotal : (assignIndex size (x :: rest)).2 = (assignIndex size rest).2 := by
        rw [assignIndex, if_neg hxs]
      rw [assignIndex_suffix hxs, htotal]
      refine ⟨fun e he hstored => ?_, h2, by omega⟩
      rcases List.mem_cons.mp he with rfl | he
      · exact absurd hstored hxs
      · exact h1 e he hstored

/-- Entries that fit are copied. -/
lemma copy_isSome (hfits : ∀ e ∈ entries, e.align ≠ 0 →
    e.index + e.bytes.length ≤ pool.length) : (entries.foldlM copyEntry pool).isSome := by
  induction entries generalizing pool with
  | nil => rfl
  | cons x rest ih =>
    have hrest : ∀ e ∈ rest, e.align ≠ 0 → e.index + e.bytes.length ≤ pool.length :=
      fun e he => hfits e (List.mem_cons_of_mem x he)
    rw [List.foldlM_cons]
    unfold copyEntry
    by_cases hxs : x.align ≠ 0
    · rw [if_pos hxs, if_pos (hfits x (by simp) hxs)]
      exact ih fun e he hstored => by rw [length_overwrite]; exact hrest e he hstored
    · rw [if_neg hxs]
      exact ih hrest

/-- Sharing suffixes does not change what room the entries need at most. -/
lemma roomFor_shareSuffixes (align : ℕ) :
    roomFor align (shareSuffixes c entries) = roomFor align entries := by
  unfold roomFor
  congr 1
  refine List.ext_getElem? fun i => ?_
  rw [List.getElem?_map, List.getElem?_map]
  by_cases hi : i < entries.length
  · have he := List.getElem?_eq_getElem hi
    rcases shareSuffixes_spec (c := c) he with hsame | ⟨t, o, -, -, -, -, hsuf⟩
    · rw [hsame, he]
    · rw [hsuf, he]
      rfl
  · rw [List.getElem?_eq_none (by rw [length_shareSuffixes]; omega),
      List.getElem?_eq_none (by omega)]

/-- A pool whose entries, each with an alignment of padding, stay below `2 ^ 63` bytes is built. -/
lemma buildPool_isSome (hc : Sane c a) (hdata : ∀ m ∈ members, c.entsize ∣ m.2.length)
    (hroom : roomFor c.align (survey c members).entries + c.align < 2 ^ 63) :
    (buildPool c members).isSome := by
  have hint := (survey_spec hc hdata).1
  set entries := (survey c members).entries with hentries
  rw [hc.align_eq] at hroom
  have hpow : ∀ x ∈ shareSuffixes c entries, x.align ≠ 0 → PowUpTo a x.align := by
    intro x hx hstored
    obtain ⟨i, hi⟩ := List.mem_iff_getElem?.mp hx
    obtain ⟨index, hindex⟩ := getElem?_assignIndex 0 hi
    rcases assigned_mem hint (List.mem_of_getElem? hindex) with ⟨-, hal⟩ | ⟨hzero, -⟩
    · exact hal
    · exact absurd hzero hstored
  have hpos : 0 < 2 ^ a := Nat.two_pow_pos a
  obtain ⟨hfit, -, htotal⟩ := assignIndex_bound hc.lt 0 hpow
    (by rw [roomFor_shareSuffixes]; omega)
  rw [roomFor_shareSuffixes] at htotal
  set total := (assignIndex 0 (shareSuffixes c entries)).2
  -- The pool holds the entries, with or without padding at the end.
  have hpad : total ≤ (if (survey c members).padTail then alignUp total c.align else total) ∧
      (if (survey c members).padTail then alignUp total c.align else total) < 2 ^ 63 := by
    have hlt := hc.lt
    split
    · rw [hc.align_eq]
      have hup : alignUp total (2 ^ a) ≤ total + (2 ^ a - 1) := alignUp_le (by omega) (by omega)
      exact ⟨le_alignUp (by omega) (by omega), by omega⟩
    · exact ⟨le_refl _, by omega⟩
  have hcopy : ((layOutEntries c entries).1.foldlM copyEntry (List.replicate
      (if (survey c members).padTail then alignUp total c.align else total) 0)).isSome := by
    refine copy_isSome fun e he hstored => ?_
    rw [layOutEntries_eq hint] at he
    obtain ⟨x, hx, rfl⟩ := List.mem_map.mp he
    rw [settled_align] at hstored
    rw [settled_of_stored hint hx hstored, List.length_replicate]
    exact (hfit x hx hstored).trans hpad.1
  obtain ⟨pool, hpool⟩ := Option.isSome_iff_exists.mp hcopy
  have heq : buildPool c members = (do
      guard ((if (survey c members).padTail then alignUp total c.align else total) < 2 ^ 63)
      let pool ← (layOutEntries c entries).1.foldlM copyEntry (List.replicate
        (if (survey c members).padTail then alignUp total c.align else total) 0)
      return (pool, (survey c members).refs.map fun r =>
        (r.1, r.2.1, r.2.2.map fun eid => (entryAt (layOutEntries c entries).1 eid).index))) := rfl
  rw [heq, hpool, guard, if_pos hpad.2]
  rfl

/-- A link whose groups each have room for their entries builds its pools. -/
theorem buildMergePools_isSome (hroom : ∀ g ∈ lk.groups,
    roomFor g.1.2.align (survey g.1.2 (lk.membersOf g)).entries + g.1.2.align < 2 ^ 63) :
    lk.buildMergePools.isSome := by
  have hgroups := grouped_groups lk
  have hpool : ∀ g ∈ lk.groups, (lk.poolOf g).isSome := by
    intro g hg
    obtain ⟨gid, hgid⟩ := List.mem_iff_getElem?.mp hg
    obtain ⟨-, hne⟩ := hgroups.nodup hgid
    have hkey : ∀ m ∈ g.2, lk.mergeKey m = some g.1 := fun m hm => (hgroups.key hgid m hm).2
    obtain ⟨m₀, hm₀⟩ := List.exists_mem_of_ne_nil _ hne
    obtain ⟨-, a, -, -, hc, -⟩ := mergeKey_sane (hkey m₀ hm₀)
    have hbuild : (buildPool g.1.2 (lk.membersOf g)).isSome := by
      refine buildPool_isSome hc (fun x hx => ?_) (hroom g hg)
      obtain ⟨m, hm, rfl⟩ := List.mem_map.mp hx
      obtain ⟨s, -, hs, -, -, hdvd⟩ := mergeKey_sane (hkey m hm)
      dsimp only
      rwa [dataOf_eq hs]
    obtain ⟨⟨bytes, maps⟩, hbytes⟩ := Option.isSome_iff_exists.mp hbuild
    obtain ⟨rep, hrep⟩ := Option.isSome_iff_exists.mp (List.isSome_min?_of_ne_nil hne)
    unfold LdsLinker.membersOf at hbytes
    simp [LdsLinker.poolOf, hbytes, hrep]
  have hfold : ∀ (gs : Groups), (∀ g ∈ gs, (lk.poolOf g).isSome) → ∀ p : PoolTable,
      (gs.foldlM lk.addPool p).isSome := by
    intro gs
    induction gs with
    | nil => exact fun _ _ => rfl
    | cons g gs ih =>
      intro hgs p
      obtain ⟨pool, hpool⟩ := Option.isSome_iff_exists.mp (hgs g (by simp))
      have hadd : lk.addPool p g = some ⟨p.pools ++ [pool],
          g.2.foldl (fun f m => Function.update f m (some p.pools.length)) p.mergeOf⟩ := by
        rw [LdsLinker.addPool, hpool]
        rfl
      rw [List.foldlM_cons, hadd]
      exact ih (fun x hx => hgs x (List.mem_cons_of_mem g hx)) _
  exact hfold _ hpool _

/-- The strings have room. -/
theorem buildMergePools_isSome_shared : sharedLink.buildMergePools.isSome :=
  buildMergePools_isSome (by decide +kernel)

end Badc.Pools
