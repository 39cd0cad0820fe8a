import Badc.Lib.SortedRuns
import Badc.Ssa.Tape
import Badc.Ssa.Verify

/-!
# An insertion relabels the tape

The walk of `insert` passes the places of the tape in the order of `At.order`: at each old index
the end of the block before, the empty blocks, the place ahead of the index, the instruction
itself.  A place is a `stop`, and its position on the new tape is its old index plus the number of
insertions with a smaller order: `pos`.  This is monotone, and everything the walk records is a
position.  So ranges that are separated by stops stay separated, whatever number of blocks meet at
one index.

The main result is `insert_relabels`.
-/

namespace Badc

namespace Tape

/-! ## Stops -/

/-- A place the walk passes: an old index, a rank there, and an empty block. -/
def stop (old rank b : ℕ) : ℕ ×ₗ ℕ ×ₗ ℕ := toLex (old, toLex (rank, b))

lemma stop_lt_stop {a b c a' b' c' : ℕ} :
    stop a b c < stop a' b' c' ↔ a < a' ∨ a = a' ∧ (b < b' ∨ b = b' ∧ c < c') := by
  simp [stop, Prod.Lex.toLex_lt_toLex]

lemma stop_inj {a b c a' b' c' : ℕ} :
    stop a b c = stop a' b' c' ↔ a = a' ∧ b = b' ∧ c = c' := by
  simp [stop]

lemma stop_le_stop {a b c a' b' c' : ℕ} :
    stop a b c ≤ stop a' b' c' ↔ a < a' ∨ a = a' ∧ (b < b' ∨ b = b' ∧ c ≤ c') := by
  rw [le_iff_lt_or_eq, stop_lt_stop, stop_inj]
  omega

/-- The old index of a stop. -/
def indexOf (k : ℕ ×ₗ ℕ ×ₗ ℕ) : ℕ := (ofLex k).1

@[simp] lemma indexOf_stop (old rank b : ℕ) : indexOf (stop old rank b) = old := rfl

lemma indexOf_mono {k k' : ℕ ×ₗ ℕ ×ₗ ℕ} (h : k ≤ k') : indexOf k ≤ indexOf k' := by
  rcases Prod.Lex.le_iff.mp h with h | h
  · exact le_of_lt h
  · exact le_of_eq h.1

lemma At.order_inj {blocks : List Block} {p q : At} : p.order blocks = q.order blocks ↔ p = q := by
  cases p <;> cases q <;> simp [At.order]
  rintro rfl
  rfl

variable (f : FunctionSsa) (ins : List Insertion)

/-- A place exists: the instruction it names is on the tape, the block it names holds none. -/
def At.Valid : At → Prop
  | .before k | .after k => k < f.insts.length
  | .empty b => b < f.blocks.length ∧ (rangeOf f.blocks b).stop ≤ (rangeOf f.blocks b).start

/-- What `insert` asks for: disjoint ranges on the tape, empty blocks on block boundaries, and
places that exist in ascending order.  The new tape must not need the id that stands for none. -/
structure Insertable : Prop where
  range : ∀ (b : ℕ) blk, f.blocks[b]? = some blk →
    blk.instRange.start ≤ blk.instRange.stop ∧ blk.instRange.stop ≤ f.insts.length
  disjoint : ∀ v b c, InBlock f v b → InBlock f v c → b = c
  boundary : ∀ (b : ℕ) blk, f.blocks[b]? = some blk →
    blk.instRange.start = blk.instRange.stop → atBoundary f.blocks blk.instRange.start = true
  valid : ∀ i ∈ ins, i.place.Valid f
  sorted : SortedBy (fun i : Insertion => i.place.order f.blocks) ins
  small : f.insts.length + ins.length ≤ noValue

/-- The insertions that go ahead of a stop. -/
def passed (k : ℕ ×ₗ ℕ ×ₗ ℕ) : ℕ := below (fun i : Insertion => i.place.order f.blocks) ins k

/-- The insertions that go to a stop. -/
def stopping (k : ℕ ×ₗ ℕ ×ₗ ℕ) : ℕ := counted (fun i : Insertion => i.place.order f.blocks) ins k

/-- The position of a stop on the new tape. -/
def pos (k : ℕ ×ₗ ℕ ×ₗ ℕ) : ℕ := indexOf k + passed f ins k

variable {f ins}

/-- No insertion goes between two stops. -/
def NextStop (f : FunctionSsa) (ins : List Insertion) (k k' : ℕ ×ₗ ℕ ×ₗ ℕ) : Prop :=
  ∀ i ∈ ins, i.place.order f.blocks < k' ↔
    i.place.order f.blocks < k ∨ i.place.order f.blocks = k

lemma NextStop.passed {k k' : ℕ ×ₗ ℕ ×ₗ ℕ} (h : NextStop f ins k k') :
    passed f ins k' = passed f ins k + stopping f ins k := below_next h

lemma NextStop.pos {k k' : ℕ ×ₗ ℕ ×ₗ ℕ} (h : NextStop f ins k k') (hi : indexOf k' = indexOf k) :
    pos f ins k' = pos f ins k + stopping f ins k := by
  rw [Tape.pos, Tape.pos, h.passed, hi, Nat.add_assoc]

lemma pos_mono {k k' : ℕ ×ₗ ℕ ×ₗ ℕ} (h : k ≤ k') : pos f ins k ≤ pos f ins k' :=
  Nat.add_le_add (indexOf_mono h) (below_mono h)

lemma pos_lt_pos {k k' : ℕ ×ₗ ℕ ×ₗ ℕ} (h : k ≤ k') (hi : indexOf k < indexOf k') :
    pos f ins k < pos f ins k' :=
  Nat.add_lt_add_of_lt_of_le hi (below_mono h)

/-- The position of an insertion is its number plus the index of its place. -/
def posOf (f : FunctionSsa) (j : ℕ) (i : Insertion) : ℕ := j + indexOf (i.place.order f.blocks)

section

variable (h : Insertable f ins) {j : ℕ} {i : Insertion} {k : ℕ ×ₗ ℕ ×ₗ ℕ}
include h

lemma Insertable.lt_passed (hi : ins[j]? = some i) :
    j < passed f ins k ↔ i.place.order f.blocks < k := lt_below_iff h.sorted hi

lemma Insertable.posOf_lt (hi : ins[j]? = some i) (hk : i.place.order f.blocks < k) :
    posOf f j i < pos f ins k := by
  have hj := (h.lt_passed hi).mpr hk
  have hindex := indexOf_mono (le_of_lt hk)
  unfold posOf pos
  omega

lemma Insertable.pos_le_posOf (hi : ins[j]? = some i) (hk : k ≤ i.place.order f.blocks) :
    pos f ins k ≤ posOf f j i := by
  have hj := mt (h.lt_passed hi).mp (not_lt.mpr hk)
  have hindex := indexOf_mono hk
  unfold posOf pos
  omega

/-- The three kinds of stops an insertion goes to. -/
lemma Insertable.order_cases (hi : i ∈ ins) :
    (∃ o, o < f.insts.length ∧ i.place.order f.blocks = stop (o + 1) 0 0) ∨
    (∃ o b, b ∈ emptiesAt f.blocks o ∧ i.place.order f.blocks = stop o 1 b) ∨
    ∃ o, o < f.insts.length ∧ i.place.order f.blocks = stop o 2 0 := by
  have hv := h.valid i hi
  cases hp : i.place with
  | after o =>
    rw [hp] at hv
    exact Or.inl ⟨o, hv, rfl⟩
  | empty b =>
    rw [hp] at hv
    refine Or.inr (Or.inl ⟨_, b, ?_, rfl⟩)
    simp [emptiesAt, hv.1, hv.2]
  | before o =>
    rw [hp] at hv
    exact Or.inr (Or.inr ⟨o, hv, rfl⟩)

end

lemma Insertable.next_end (h : Insertable f ins) (o : ℕ) :
    NextStop f ins (stop o 0 0) (stop o 1 0) := by
  intro i hi
  rcases h.order_cases hi with ⟨o', -, ho⟩ | ⟨o', b, -, ho⟩ | ⟨o', -, ho⟩ <;>
    rw [ho, stop_lt_stop, stop_lt_stop, stop_inj] <;> omega

lemma Insertable.next_empty (h : Insertable f ins) (o b : ℕ) :
    NextStop f ins (stop o 1 b) (stop o 1 (b + 1)) := by
  intro i hi
  rcases h.order_cases hi with ⟨o', -, ho⟩ | ⟨o', b', -, ho⟩ | ⟨o', -, ho⟩ <;>
    rw [ho, stop_lt_stop, stop_lt_stop, stop_inj] <;> omega

lemma Insertable.next_self (h : Insertable f ins) (o : ℕ) :
    NextStop f ins (stop o 2 0) (stop o 3 0) := by
  intro i hi
  rcases h.order_cases hi with ⟨o', -, ho⟩ | ⟨o', b, -, ho⟩ | ⟨o', -, ho⟩ <;>
    rw [ho, stop_lt_stop, stop_lt_stop, stop_inj] <;> omega

lemma Insertable.passed_succ (h : Insertable f ins) (o : ℕ) :
    passed f ins (stop (o + 1) 0 0) = passed f ins (stop o 3 0) := by
  refine below_congr fun i hi => ?_
  rcases h.order_cases hi with ⟨o', -, ho⟩ | ⟨o', b, -, ho⟩ | ⟨o', -, ho⟩ <;>
    rw [ho, stop_lt_stop, stop_lt_stop] <;> omega

lemma mem_emptiesAt {blocks : List Block} {o b : ℕ} : b ∈ emptiesAt blocks o ↔
    b < blocks.length ∧ (rangeOf blocks b).stop ≤ (rangeOf blocks b).start ∧
      (rangeOf blocks b).start = o := by
  simp [emptiesAt]

/-! ## The walk -/

/-- The walk has placed the insertions ahead of a stop and the first `n` old instructions, each at
its position. -/
structure Placed (f : FunctionSsa) (ins : List Insertion) (k : ℕ ×ₗ ℕ ×ₗ ℕ) (n : ℕ)
    (st : Placing) : Prop where
  cur : st.cur = passed f ins k
  slots : st.slots.length = st.cur + n
  idsLength : st.ids.length = st.cur
  remapLength : st.remap.length = n
  ids : ∀ j i, ins[j]? = some i → j < st.cur → st.ids[j]? = some (posOf f j i)
  remap : ∀ o < n, st.remap[o]? = some (pos f ins (stop o 3 0))
  news : ∀ j i, ins[j]? = some i → j < st.cur →
    st.slots[posOf f j i]? = some (newSlot f (indexOf (i.place.order f.blocks)) i)
  olds : ∀ o inst, o < n → f.insts[o]? = some inst →
    st.slots[pos f ins (stop o 3 0)]? = some (oldSlot f o inst)

lemma getElem?_append_of_some {α : Type*} {l l' : List α} {j : ℕ} {a : α} (h : l[j]? = some a) :
    (l ++ l')[j]? = some a := by
  rw [List.getElem?_append_left (List.getElem?_eq_some_iff.mp h).1]
  exact h

lemma range'_sub_append {a b c : ℕ} (hab : a ≤ b) (hbc : b ≤ c) :
    List.range' a (b - a) ++ List.range' b (c - b) = List.range' a (c - a) := by
  obtain ⟨x, rfl⟩ := Nat.exists_eq_add_of_le hab
  obtain ⟨y, rfl⟩ := Nat.exists_eq_add_of_le hbc
  rw [Nat.add_sub_cancel_left, Nat.add_sub_cancel_left, List.range'_append_1, Nat.add_assoc,
    Nat.add_sub_cancel_left]

/-- Placing the insertions that go to a stop. -/
lemma Placed.take {k k' : ℕ ×ₗ ℕ ×ₗ ℕ} {n rank b : ℕ} {st : Placing} (h : Insertable f ins)
    (hst : Placed f ins k n st) (hk : k = stop n rank b)
    (hk' : NextStop f ins k k') :
    Placed f ins k' n (take f ins n rank b st) := by
  have hnext := hk'.passed
  set taken := (ins.drop st.cur).takeWhile fun i =>
    i.place.order f.blocks = toLex (n, toLex (rank, b)) with htaken
  have hlen : taken.length = stopping f ins k := by
    rw [htaken, hst.cur, hk]
    exact length_takeWhile_drop_below h.sorted
  have hfront : taken = (ins.drop st.cur).take taken.length :=
    List.prefix_iff_eq_take.mp (List.takeWhile_prefix _)
  have hcur : st.cur + taken.length = passed f ins k' := by rw [hnext, hst.cur, hlen]
  -- an insertion that has just been placed goes to the stop
  have hnew : ∀ j i, ins[j]? = some i → ¬ j < st.cur → j < st.cur + taken.length →
      indexOf (i.place.order f.blocks) = n := by
    intro j i hi hlt hlt'
    rw [hst.cur, h.lt_passed hi] at hlt
    rw [hcur, h.lt_passed hi] at hlt'
    have horder := ((hk' i (List.mem_of_getElem? hi)).mp hlt').resolve_left hlt
    rw [horder, hk, indexOf_stop]
  refine ⟨hcur, ?_, ?_, hst.remapLength, ?_, hst.remap, ?_, ?_⟩
  · change (st.slots ++ taken.map (newSlot f n)).length = st.cur + taken.length + n
    rw [List.length_append, List.length_map, hst.slots]
    omega
  · change (st.ids ++ List.range' st.slots.length taken.length).length = st.cur + taken.length
    rw [List.length_append, List.length_range', hst.idsLength]
  · intro j i hi hj
    change (st.ids ++ List.range' st.slots.length taken.length)[j]? = _
    by_cases hlt : j < st.cur
    · exact getElem?_append_of_some (hst.ids j i hi hlt)
    · have hj' : j < st.cur + taken.length := hj
      rw [List.getElem?_append_right (by rw [hst.idsLength]; omega), hst.idsLength,
        List.getElem?_range' (by omega), posOf, hnew j i hi hlt hj, hst.slots]
      congr 1
      omega
  · intro j i hi hj
    change (st.slots ++ taken.map (newSlot f n))[posOf f j i]? = _
    by_cases hlt : j < st.cur
    · exact getElem?_append_of_some (hst.news j i hi hlt)
    · have hj' : j < st.cur + taken.length := hj
      have hindex := hnew j i hi hlt hj
      have hget : taken[j - st.cur]? = some i := by
        rw [hfront, List.getElem?_take_of_lt (by omega), List.getElem?_drop]
        rw [show st.cur + (j - st.cur) = j by omega]
        exact hi
      have hat : posOf f j i - st.slots.length = j - st.cur := by
        rw [posOf, hindex, hst.slots]
        omega
      rw [List.getElem?_append_right (by rw [posOf, hindex, hst.slots]; omega), hat,
        List.getElem?_map, hget, hindex]
      rfl
  · exact fun o inst ho hinst => getElem?_append_of_some (hst.olds o inst ho hinst)

/-- Placing the instruction at an old index. -/
lemma Placed.keep {n : ℕ} {inst : Inst} {st : Placing} (h : Insertable f ins)
    (hst : Placed f ins (stop n 3 0) n st) (hinst : f.insts[n]? = some inst) :
    Placed f ins (stop (n + 1) 0 0) (n + 1) (keepAt f n st) := by
  have hnext := (h.passed_succ n).symm
  have hlen : st.slots.length = pos f ins (stop n 3 0) := by
    rw [hst.slots, hst.cur, pos, indexOf_stop]
    omega
  have hkeep : keepAt f n st = { st with
      remap := st.remap ++ [st.slots.length]
      slots := st.slots ++ [oldSlot f n inst] } := by
    rw [keepAt, hinst]
  rw [hkeep]
  refine ⟨hst.cur.trans hnext, ?_, hst.idsLength, ?_, hst.ids, ?_, ?_, ?_⟩
  · rw [List.length_append, hst.slots]
    rfl
  · rw [List.length_append, hst.remapLength]
    rfl
  · intro o ho
    rcases Nat.lt_succ_iff_lt_or_eq.mp ho with ho | rfl
    · exact getElem?_append_of_some (hst.remap o ho)
    · rw [List.getElem?_append_right (by rw [hst.remapLength]), hst.remapLength, Nat.sub_self,
        hlen]
      rfl
  · exact fun j i hi hj => getElem?_append_of_some (hst.news j i hi hj)
  · intro o inst' ho hinst'
    rcases Nat.lt_succ_iff_lt_or_eq.mp ho with ho | rfl
    · exact getElem?_append_of_some (hst.olds o inst' ho hinst')
    · rw [hinst] at hinst'
      obtain rfl := Option.some.inj hinst'
      rw [List.getElem?_append_right (by rw [hlen]), hlen, Nat.sub_self]
      rfl

/-- The range an empty block gets. -/
def emptyRange (f : FunctionSsa) (ins : List Insertion) (b : ℕ) : InstRange where
  start := pos f ins (stop (rangeOf f.blocks b).start 1 b)
  stop := pos f ins (stop (rangeOf f.blocks b).start 1 (b + 1))

/-- Placing the insertions of the empty blocks at an index, those below a bound. -/
lemma takeEmpties_spec (h : Insertable f ins) {n : ℕ} {st : Placing}
    (hst : Placed f ins (stop n 1 0) n st) (hranges : st.ranges.length = f.blocks.length)
    {m : ℕ} (hm : m ≤ f.blocks.length) :
    let st' := ((List.range m).filter fun b => (rangeOf f.blocks b).stop ≤
      (rangeOf f.blocks b).start ∧ (rangeOf f.blocks b).start = n).foldl (takeEmpty f ins n) st
    Placed f ins (stop n 1 m) n st' ∧ st'.endAt = st.endAt ∧ st'.startAt = st.startAt ∧
      st'.ranges.length = f.blocks.length ∧
      (∀ b < m, b ∈ emptiesAt f.blocks n → st'.ranges[b]? = some (emptyRange f ins b)) ∧
      ∀ b, b ∉ emptiesAt f.blocks n → st'.ranges[b]? = st.ranges[b]? := by
  induction m with
  | zero => exact ⟨hst, rfl, rfl, hranges, fun b hb => absurd hb (by omega), fun b _ => rfl⟩
  | succ m ih =>
    obtain ⟨ihplaced, ihend, ihstart, ihlen, ihin, ihout⟩ := ih (by omega)
    rw [List.range_succ, List.filter_append, List.foldl_append]
    set st₁ := ((List.range m).filter fun b => (rangeOf f.blocks b).stop ≤
      (rangeOf f.blocks b).start ∧ (rangeOf f.blocks b).start = n).foldl (takeEmpty f ins n) st
    by_cases hmem : m ∈ emptiesAt f.blocks n
    · obtain ⟨-, hempty, hat⟩ := mem_emptiesAt.mp hmem
      rw [List.filter_cons_of_pos (by simpa using ⟨hempty, hat⟩)]
      have hplaced : Placed f ins (stop n 1 (m + 1)) n (take f ins n 1 m st₁) :=
        ihplaced.take h rfl (h.next_empty n m)
      have hrange : (⟨st₁.slots.length, (take f ins n 1 m st₁).slots.length⟩ : InstRange) =
          emptyRange f ins m := by
        rw [emptyRange, hat, pos, pos, indexOf_stop, indexOf_stop, ihplaced.slots, hplaced.slots,
          ihplaced.cur, hplaced.cur, Nat.add_comm n, Nat.add_comm n]
      refine ⟨⟨hplaced.cur, hplaced.slots, hplaced.idsLength, hplaced.remapLength, hplaced.ids,
        hplaced.remap, hplaced.news, hplaced.olds⟩, ihend, ihstart, ?_, ?_, ?_⟩
      · change (st₁.ranges.set m _).length = _
        rw [List.length_set, ihlen]
      · intro b hb hbmem
        change (st₁.ranges.set m _)[b]? = _
        rcases Nat.lt_succ_iff_lt_or_eq.mp hb with hb | rfl
        · rw [List.getElem?_set_ne (by omega)]
          exact ihin b hb hbmem
        · rw [List.getElem?_set_self (by omega), hrange]
      · intro b hb
        change (st₁.ranges.set m _)[b]? = _
        rw [List.getElem?_set_ne (by rintro rfl; exact hb hmem)]
        exact ihout b hb
    · have hnot : ¬ ((rangeOf f.blocks m).stop ≤ (rangeOf f.blocks m).start ∧
          (rangeOf f.blocks m).start = n) := fun hc =>
        hmem (mem_emptiesAt.mpr ⟨by omega, hc.1, hc.2⟩)
      rw [List.filter_cons_of_neg (by simpa using hnot)]
      have hsame : passed f ins (stop n 1 m) = passed f ins (stop n 1 (m + 1)) := by
        refine below_congr fun i hi => ?_
        rcases h.order_cases hi with ⟨o, -, ho⟩ | ⟨o, b, hb, ho⟩ | ⟨o, -, ho⟩
        · rw [ho, stop_lt_stop, stop_lt_stop]
          omega
        · -- the block itself would be an empty block at the index
          have hne : ¬ (o = n ∧ b = m) := by
            rintro ⟨rfl, rfl⟩
            exact hmem hb
          rw [ho, stop_lt_stop, stop_lt_stop]
          omega
        · rw [ho, stop_lt_stop, stop_lt_stop]
          omega
      refine ⟨⟨ihplaced.cur.trans hsame, ihplaced.slots, ihplaced.idsLength, ihplaced.remapLength,
        ihplaced.ids, ihplaced.remap, ihplaced.news, ihplaced.olds⟩, ihend, ihstart, ihlen, ?_,
        ihout⟩
      intro b hb hbmem
      rcases Nat.lt_succ_iff_lt_or_eq.mp hb with hb | rfl
      · exact ihin b hb hbmem
      · exact absurd hbmem hmem

/-- What the walk has recorded of the first `n` old indices: where blocks end and start there, and
the ranges of the empty blocks. -/
structure Recorded (f : FunctionSsa) (ins : List Insertion) (n : ℕ) (st : Placing) : Prop where
  endLength : st.endAt.length = n
  startLength : st.startAt.length = n
  rangesLength : st.ranges.length = f.blocks.length
  endAt : ∀ o < n, st.endAt[o]? = some (pos f ins (stop o 1 0))
  startAt : ∀ o < n, st.startAt[o]? = some (pos f ins (stop o 2 0))
  ranges : ∀ o < n, ∀ b ∈ emptiesAt f.blocks o, st.ranges[b]? = some (emptyRange f ins b)

lemma records_push {l : List ℕ} {n : ℕ} {g : ℕ → ℕ} (hlen : l.length = n)
    (h : ∀ o < n, l[o]? = some (g o)) :
    ∀ o < n + 1, (l ++ [g n])[o]? = some (g o) := by
  intro o ho
  rcases Nat.lt_succ_iff_lt_or_eq.mp ho with ho | rfl
  · exact getElem?_append_of_some (h o ho)
  · rw [List.getElem?_append_right (by omega), hlen, Nat.sub_self]
    rfl

/-- One old index of the walk, up to the instruction there. -/
lemma placeAt_spec (h : Insertable f ins) {n : ℕ} {st : Placing}
    (hst : Placed f ins (stop n 0 0) n st) (hrec : Recorded f ins n st) :
    Placed f ins (stop n 3 0) n (placeAt f ins n st) ∧
      Recorded f ins (n + 1) (placeAt f ins n st) := by
  have hafter : Placed f ins (stop n 1 0) n (take f ins n 0 0 st) :=
    hst.take h rfl (h.next_end n)
  set st₁ : Placing := { take f ins n 0 0 st with
    endAt := st.endAt ++ [(take f ins n 0 0 st).slots.length] } with hst₁
  have hplaced₁ : Placed f ins (stop n 1 0) n st₁ :=
    ⟨hafter.cur, hafter.slots, hafter.idsLength, hafter.remapLength, hafter.ids, hafter.remap,
      hafter.news, hafter.olds⟩
  obtain ⟨hempties, hend, hstart, hlen, hin, hout⟩ :=
    takeEmpties_spec h hplaced₁ hrec.rangesLength le_rfl
  set st₂ := (emptiesAt f.blocks n).foldl (takeEmpty f ins n) st₁ with hst₂
  change st₂.endAt = st₁.endAt at hend
  change st₂.startAt = st₁.startAt at hstart
  have hahead : Placed f ins (stop n 2 0) n st₂ := by
    have hsame : passed f ins (stop n 1 f.blocks.length) = passed f ins (stop n 2 0) := by
      refine below_congr fun i hi => ?_
      rcases h.order_cases hi with ⟨o, -, ho⟩ | ⟨o, b, hb, ho⟩ | ⟨o, -, ho⟩
      · rw [ho, stop_lt_stop, stop_lt_stop]
        omega
      · have hlt := (mem_emptiesAt.mp hb).1
        rw [ho, stop_lt_stop, stop_lt_stop]
        omega
      · rw [ho, stop_lt_stop, stop_lt_stop]
        omega
    exact ⟨hempties.cur.trans hsame, hempties.slots, hempties.idsLength, hempties.remapLength,
      hempties.ids, hempties.remap, hempties.news, hempties.olds⟩
  set st₃ : Placing := { st₂ with startAt := st₂.startAt ++ [st₂.slots.length] } with hst₃
  have hplaced₃ : Placed f ins (stop n 2 0) n st₃ :=
    ⟨hahead.cur, hahead.slots, hahead.idsLength, hahead.remapLength, hahead.ids, hahead.remap,
      hahead.news, hahead.olds⟩
  have hlast : Placed f ins (stop n 3 0) n (take f ins n 2 0 st₃) :=
    hplaced₃.take h rfl (h.next_self n)
  refine ⟨hlast, ?_, ?_, hlen, ?_, ?_, ?_⟩
  · change st₂.endAt.length = n + 1
    rw [hend, hst₁, List.length_append, hrec.endLength]
    rfl
  · change (st₂.startAt ++ [st₂.slots.length]).length = n + 1
    rw [List.length_append, hstart]
    exact congrArg (· + 1) hrec.startLength
  · change ∀ o < n + 1, st₂.endAt[o]? = _
    have hnow : (take f ins n 0 0 st).slots.length = pos f ins (stop n 1 0) := by
      rw [hafter.slots, hafter.cur, pos, indexOf_stop, Nat.add_comm]
    rw [hend, hst₁, hnow]
    exact records_push hrec.endLength hrec.endAt
  · change ∀ o < n + 1, (st₂.startAt ++ [st₂.slots.length])[o]? = _
    have hnow : st₂.slots.length = pos f ins (stop n 2 0) := by
      rw [hahead.slots, hahead.cur, pos, indexOf_stop, Nat.add_comm]
    rw [hstart, hnow]
    exact records_push hrec.startLength hrec.startAt
  · intro o ho b hb
    change st₂.ranges[b]? = _
    by_cases hbn : b ∈ emptiesAt f.blocks n
    · exact hin b (mem_emptiesAt.mp hbn).1 hbn
    · have hon : o ≠ n := fun hc => hbn (hc ▸ hb)
      exact (hout b hbn).trans (hrec.ranges o (by omega) b hb)

lemma Insertable.start_le (h : Insertable f ins) {b : ℕ} (hb : b < f.blocks.length) :
    (rangeOf f.blocks b).start ≤ f.insts.length := by
  have hget : f.blocks[b]? = some (f.blocks.getD b default) := by
    rw [List.getD_eq_getElem?_getD, List.getElem?_eq_getElem hb]
    rfl
  exact (h.range b _ hget).1.trans (h.range b _ hget).2

/-- The walk places everything, and records every old index. -/
lemma placed_spec (h : Insertable f ins) :
    Placed f ins (stop f.insts.length 3 0) f.insts.length (placed f ins) ∧
      Recorded f ins (f.insts.length + 1) (placed f ins) := by
  have hrun : ∀ n ≤ f.insts.length,
      Placed f ins (stop n 0 0) n ((List.range n).foldl
        (fun st old => keepAt f old (placeAt f ins old st))
        { ranges := f.blocks.map Block.instRange }) ∧
      Recorded f ins n ((List.range n).foldl (fun st old => keepAt f old (placeAt f ins old st))
        { ranges := f.blocks.map Block.instRange }) := by
    intro n hn
    induction n with
    | zero =>
      have hzero : passed f ins (stop 0 0 0) = 0 := by
        refine below_eq_zero fun i hi => ?_
        rcases h.order_cases hi with ⟨o, -, ho⟩ | ⟨o, b, -, ho⟩ | ⟨o, -, ho⟩ <;>
          rw [ho, stop_le_stop] <;> omega
      exact ⟨⟨hzero.symm, rfl, rfl, rfl, fun j i _ hj => absurd hj (by simp),
        fun o ho => absurd ho (by omega), fun j i _ hj => absurd hj (by simp),
        fun o inst ho => absurd ho (by omega)⟩,
        ⟨rfl, rfl, by simp, fun o ho => absurd ho (by omega), fun o ho => absurd ho (by omega),
          fun o ho => absurd ho (by omega)⟩⟩
    | succ n ih =>
      obtain ⟨ihplaced, ihrec⟩ := ih (by omega)
      rw [List.range_succ, List.foldl_append]
      obtain ⟨hplaced, hrec⟩ := placeAt_spec h ihplaced ihrec
      have hinst : f.insts[n]? = some f.insts[n] := List.getElem?_eq_getElem hn
      refine ⟨hplaced.keep h hinst, ?_⟩
      rw [List.foldl_cons, List.foldl_nil, keepAt, hinst]
      exact ⟨hrec.endLength, hrec.startLength, hrec.rangesLength, hrec.endAt, hrec.startAt,
        hrec.ranges⟩
  obtain ⟨hplaced, hrec⟩ := hrun f.insts.length le_rfl
  have hend : f.insts[f.insts.length]? = none := List.getElem?_eq_none le_rfl
  rw [placed, List.range_succ, List.foldl_append, List.foldl_cons, List.foldl_nil, keepAt, hend]
  exact placeAt_spec h hplaced hrec

section

variable (h : Insertable f ins)
include h

/-- The walk uses up the insertions. -/
lemma cur_placed : (placed f ins).cur = ins.length := by
  rw [(placed_spec h).1.cur]
  refine below_eq_length fun i hi => ?_
  rcases h.order_cases hi with ⟨o, ho, horder⟩ | ⟨o, b, hb, horder⟩ | ⟨o, ho, horder⟩
  · rw [horder, stop_lt_stop]
    omega
  · obtain ⟨hlt, -, rfl⟩ := mem_emptiesAt.mp hb
    have := h.start_le hlt
    rw [horder, stop_lt_stop]
    omega
  · rw [horder, stop_lt_stop]
    omega

lemma remap_placed : (placed f ins).remap =
    (List.range f.insts.length).map fun o => pos f ins (stop o 3 0) := by
  refine List.ext_getElem? fun o => ?_
  by_cases ho : o < f.insts.length
  · rw [(placed_spec h).1.remap o ho, List.getElem?_map, List.getElem?_range ho]
    rfl
  · rw [List.getElem?_eq_none (by rw [(placed_spec h).1.remapLength]; omega),
      List.getElem?_eq_none (by simpa using ho)]

/-- Each insertion gets its position. -/
lemma ids_placed : (placed f ins).ids = ins.zipIdx.map fun p => posOf f p.2 p.1 := by
  refine List.ext_getElem? fun j => ?_
  rw [List.getElem?_map, List.getElem?_zipIdx]
  cases hi : ins[j]? with
  | none =>
    have hj := List.getElem?_eq_none_iff.mp hi
    exact List.getElem?_eq_none (by rw [(placed_spec h).1.idsLength, cur_placed h]; omega)
  | some i =>
    have hj := (List.getElem?_eq_some_iff.mp hi).1
    rw [(placed_spec h).1.ids j i hi (by rw [cur_placed h]; omega)]
    simp

lemma pos_succ (o : ℕ) : pos f ins (stop (o + 1) 0 0) = pos f ins (stop o 3 0) + 1 := by
  rw [pos, pos, h.passed_succ, indexOf_stop, indexOf_stop]
  omega

/-- Where no empty block sits at an index, a block that ends there and one that starts there
meet. -/
lemma pos_start_of_no_empties {o : ℕ} (ho : emptiesAt f.blocks o = []) :
    pos f ins (stop o 2 0) = pos f ins (stop o 1 0) := by
  have hsame : passed f ins (stop o 2 0) = passed f ins (stop o 1 0) := by
    refine below_congr fun i hi => ?_
    rcases h.order_cases hi with ⟨o', -, ho'⟩ | ⟨o', b, hb, ho'⟩ | ⟨o', -, ho'⟩
    · rw [ho', stop_lt_stop, stop_lt_stop]
      omega
    · have hne : o' ≠ o := by
        rintro rfl
        rw [ho] at hb
        exact absurd hb (by simp)
      rw [ho', stop_lt_stop, stop_lt_stop]
      omega
    · rw [ho', stop_lt_stop, stop_lt_stop]
      omega
  rw [pos, pos, hsame, indexOf_stop, indexOf_stop]

end

/-! ## The ids of a block -/

/-- The ids of the insertions that go to a place, in their order. -/
def Rewrite.idsAt (rw : Rewrite) (ins : List Insertion) (p : At) : List ℕ :=
  ((ins.zip rw.ids).filter fun q => q.1.place = p).map Prod.snd

/-- The new ids of what a block holds: its old instructions in their order, each between the
insertions ahead of it and those after it; or the insertions into the empty block. -/
def Rewrite.blockIds (rw : Rewrite) (ins : List Insertion) (b : ℕ) (r : InstRange) : List ℕ :=
  if r.stop ≤ r.start then rw.idsAt ins (.empty b)
  else r.toList.flatMap fun k =>
    rw.idsAt ins (.before k) ++ (rw.remap[k]?).toList ++ rw.idsAt ins (.after k)

/-- The rewrite the walk returns. -/
def rewriteOf (f : FunctionSsa) (ins : List Insertion) : Rewrite :=
  ⟨(placed f ins).remap, (placed f ins).ids⟩

/-- Where a block starts. -/
def lo (b : ℕ) (r : InstRange) : ℕ ×ₗ ℕ ×ₗ ℕ :=
  if r.stop ≤ r.start then stop r.start 1 b else stop r.start 2 0

/-- Where a block ends. -/
def hi (b : ℕ) (r : InstRange) : ℕ ×ₗ ℕ ×ₗ ℕ :=
  if r.stop ≤ r.start then stop r.start 1 (b + 1) else stop r.stop 1 0

lemma rangeOf_eq {b : ℕ} {blk : Block} (hblk : f.blocks[b]? = some blk) :
    rangeOf f.blocks b = blk.instRange := by
  rw [rangeOf, List.getD_eq_getElem?_getD, hblk]
  rfl

lemma lo_le_hi {b : ℕ} {r : InstRange} : lo b r ≤ hi b r := by
  unfold lo hi
  split <;> rw [stop_le_stop] <;> omega

section

variable (h : Insertable f ins)
include h

/-- The insertions of a place have consecutive ids. -/
lemma idsAt_rewriteOf (p : At) : (rewriteOf f ins).idsAt ins p =
    List.range' (pos f ins (p.order f.blocks)) (stopping f ins (p.order f.blocks)) := by
  have hzip : ins.zip (rewriteOf f ins).ids =
      ins.zipIdx.map fun q => (q.1, posOf f q.2 q.1) := by
    rw [rewriteOf, ids_placed h]
    nth_rewrite 1 [← List.zipIdx_map_fst 0 ins]
    exact List.zip_map' ..
  have hkeep : ∀ q : Insertion × ℕ, (decide (q.1.place = p)) =
      decide (q.1.place.order f.blocks = p.order f.blocks) := by
    intro q
    rw [decide_eq_decide, At.order_inj]
  have hpos : ∀ q ∈ ins.zipIdx.filter fun q => decide (q.1.place.order f.blocks =
      p.order f.blocks), posOf f q.2 q.1 = indexOf (p.order f.blocks) + q.2 := by
    intro q hq
    rw [posOf, of_decide_eq_true (List.mem_filter.mp hq).2, Nat.add_comm]
  rw [Rewrite.idsAt, hzip, List.filter_map, List.map_map]
  simp only [Function.comp_def, hkeep]
  rw [List.map_congr_left hpos]
  have hrange := positions_eq_range' h.sorted (k := p.order f.blocks) 0
  rw [Nat.zero_add] at hrange
  calc ((ins.zipIdx.filter fun q => decide (q.1.place.order f.blocks = p.order f.blocks)).map
        fun q => indexOf (p.order f.blocks) + q.2)
      = ((ins.zipIdx.filter fun q => decide (q.1.place.order f.blocks =
          p.order f.blocks)).map Prod.snd).map (indexOf (p.order f.blocks) + ·) := by
        rw [List.map_map]
        rfl
    _ = (List.range' (passed f ins (p.order f.blocks))
          (stopping f ins (p.order f.blocks))).map (indexOf (p.order f.blocks) + ·) := by
        rw [hrange]
        rfl
    _ = _ := List.map_add_range' ..

/-- The ids between the places ahead of an instruction and behind it. -/
lemma ids_around {k : ℕ} (hk : k < f.insts.length) :
    (rewriteOf f ins).idsAt ins (.before k) ++ ((rewriteOf f ins).remap[k]?).toList ++
        (rewriteOf f ins).idsAt ins (.after k) =
      List.range' (pos f ins (stop k 2 0))
        (pos f ins (stop (k + 1) 1 0) - pos f ins (stop k 2 0)) := by
  have hself : pos f ins (stop k 3 0) = pos f ins (stop k 2 0) + stopping f ins (stop k 2 0) :=
    (h.next_self k).pos rfl
  have hend : pos f ins (stop (k + 1) 1 0) =
      pos f ins (stop (k + 1) 0 0) + stopping f ins (stop (k + 1) 0 0) :=
    (h.next_end (k + 1)).pos rfl
  have hsucc := pos_succ h k
  have hget : (rewriteOf f ins).remap[k]? = some (pos f ins (stop k 3 0)) :=
    (placed_spec h).1.remap k hk
  rw [idsAt_rewriteOf h, idsAt_rewriteOf h, hget]
  change List.range' (pos f ins (stop k 2 0)) (stopping f ins (stop k 2 0)) ++
    List.range' (pos f ins (stop k 3 0)) 1 ++
    List.range' (pos f ins (stop (k + 1) 0 0)) (stopping f ins (stop (k + 1) 0 0)) = _
  rw [hsucc, hself, List.range'_append_1, Nat.add_assoc, List.range'_append_1]
  congr 1
  omega

/-- The ids of a run of instructions without an empty block between them. -/
lemma ids_run {s d : ℕ} (hd : s + (d + 1) ≤ f.insts.length)
    (hinner : ∀ o, s < o → o < s + (d + 1) → emptiesAt f.blocks o = []) :
    ((List.range' s (d + 1)).flatMap fun k =>
      (rewriteOf f ins).idsAt ins (.before k) ++ ((rewriteOf f ins).remap[k]?).toList ++
        (rewriteOf f ins).idsAt ins (.after k)) =
      List.range' (pos f ins (stop s 2 0))
        (pos f ins (stop (s + (d + 1)) 1 0) - pos f ins (stop s 2 0)) := by
  induction d with
  | zero =>
    rw [List.range'_one, List.flatMap_singleton]
    exact ids_around h hd
  | succ d ih =>
    have hfirst := ih (by omega) fun o ho ho' => hinner o ho (by omega)
    have hlast := ids_around h (k := s + (d + 1)) (by omega)
    have hmeet := pos_start_of_no_empties h (hinner (s + (d + 1)) (by omega) (by omega))
    have hle : pos f ins (stop s 2 0) ≤ pos f ins (stop (s + (d + 1)) 1 0) :=
      pos_mono (stop_le_stop.mpr (by omega))
    have hle' : pos f ins (stop (s + (d + 1)) 1 0) ≤ pos f ins (stop (s + (d + 1) + 1) 1 0) :=
      pos_mono (stop_le_stop.mpr (by omega))
    rw [List.range'_concat, List.flatMap_append, hfirst, List.flatMap_singleton, Nat.one_mul,
      hlast, hmeet]
    exact range'_sub_append hle hle'

lemma not_inside_of_empty {b c : ℕ} {blk blk' : Block} (hblk : f.blocks[b]? = some blk)
    (hempty : blk.instRange.stop ≤ blk.instRange.start) (hblk' : f.blocks[c]? = some blk') :
    blk.instRange.start ≤ blk'.instRange.start ∨ blk'.instRange.stop ≤ blk.instRange.start := by
  have hb := h.boundary b blk hblk (le_antisymm (h.range b blk hblk).1 hempty)
  rw [atBoundary, Bool.not_eq_true', List.any_eq_false] at hb
  have hc := hb blk' (List.mem_of_getElem? hblk')
  simp only [Bool.and_eq_true, decide_eq_true_eq] at hc
  omega

/-- No empty block sits strictly inside another. -/
lemma emptiesAt_inside {b o : ℕ} {blk : Block} (hblk : f.blocks[b]? = some blk)
    (hlo : blk.instRange.start < o) (hhi : o < blk.instRange.stop) :
    emptiesAt f.blocks o = [] := by
  rw [List.eq_nil_iff_forall_not_mem]
  intro c hc
  obtain ⟨hlt, hempty, hat⟩ := mem_emptiesAt.mp hc
  have hget : f.blocks[c]? = some f.blocks[c] := List.getElem?_eq_getElem hlt
  rw [rangeOf_eq hget] at hempty hat
  have := not_inside_of_empty h hget hempty hblk
  omega

/-- The new range of a block lies between the positions of its ends. -/
lemma newRange_placed {b : ℕ} {blk : Block} (hblk : f.blocks[b]? = some blk) :
    newRange (placed f ins) b blk.instRange =
      ⟨pos f ins (lo b blk.instRange), pos f ins (hi b blk.instRange)⟩ := by
  obtain ⟨hle, hn⟩ := h.range b blk hblk
  have hrec := (placed_spec h).2
  unfold newRange lo hi
  by_cases hempty : blk.instRange.start = blk.instRange.stop
  · have hmem : b ∈ emptiesAt f.blocks blk.instRange.start := by
      rw [mem_emptiesAt, rangeOf_eq hblk]
      exact ⟨(List.getElem?_eq_some_iff.mp hblk).1, hempty.ge, rfl⟩
    rw [if_pos hempty, if_pos hempty.ge, if_pos hempty.ge, List.getD_eq_getElem?_getD,
      hrec.ranges _ (by omega) b hmem, emptyRange, rangeOf_eq hblk]
    rfl
  · rw [if_neg hempty, if_neg (by omega), if_neg (by omega), List.getD_eq_getElem?_getD,
      List.getD_eq_getElem?_getD, hrec.startAt _ (by omega), hrec.endAt _ (by omega)]
    rfl

/-- The new range of a block holds its ids. -/
lemma toList_newRange {b : ℕ} {blk : Block} (hblk : f.blocks[b]? = some blk) :
    (newRange (placed f ins) b blk.instRange).toList =
      (rewriteOf f ins).blockIds ins b blk.instRange := by
  obtain ⟨hle, hn⟩ := h.range b blk hblk
  rw [newRange_placed h hblk, InstRange.toList, Rewrite.blockIds]
  unfold lo hi
  by_cases hempty : blk.instRange.stop ≤ blk.instRange.start
  · have hnext := (h.next_empty blk.instRange.start b).pos rfl
    have horder : (At.empty b).order f.blocks = stop blk.instRange.start 1 b := by
      rw [At.order, rangeOf_eq hblk]
      rfl
    rw [if_pos hempty, if_pos hempty, if_pos hempty, idsAt_rewriteOf h, horder, hnext,
      Nat.add_sub_cancel_left]
  · obtain ⟨d, hd⟩ := Nat.exists_eq_add_of_lt (not_le.mp hempty)
    rw [if_neg hempty, if_neg hempty, if_neg hempty, InstRange.toList,
      show blk.instRange.stop - blk.instRange.start = d + 1 by omega,
      ids_run h (by omega) fun o ho ho' => emptiesAt_inside h hblk ho (by omega), hd,
      Nat.add_assoc]

/-- One of two blocks ends before the other starts. -/
lemma hi_le_lo {b c : ℕ} {blk blk' : Block} (hblk : f.blocks[b]? = some blk)
    (hblk' : f.blocks[c]? = some blk') (hbc : b ≠ c) :
    hi b blk.instRange ≤ lo c blk'.instRange ∨ hi c blk'.instRange ≤ lo b blk.instRange := by
  have hle := (h.range b blk hblk).1
  have hle' := (h.range c blk' hblk').1
  unfold lo hi
  by_cases hempty : blk.instRange.stop ≤ blk.instRange.start
  · have hout := not_inside_of_empty h hblk hempty hblk'
    by_cases hempty' : blk'.instRange.stop ≤ blk'.instRange.start
    · simp only [if_pos hempty, if_pos hempty', stop_le_stop, true_and]
      omega
    · simp only [if_pos hempty, if_neg hempty', stop_le_stop, true_and]
      omega
  · by_cases hempty' : blk'.instRange.stop ≤ blk'.instRange.start
    · have hout := not_inside_of_empty h hblk' hempty' hblk
      simp only [if_neg hempty, if_pos hempty', stop_le_stop, true_and]
      omega
    · -- the larger of the two starts would be in both
      have hapart : blk.instRange.stop ≤ blk'.instRange.start ∨
          blk'.instRange.stop ≤ blk.instRange.start := by
        by_contra hover
        refine hbc (h.disjoint (max blk.instRange.start blk'.instRange.start) b c
          ⟨blk, hblk, ?_⟩ ⟨blk', hblk', ?_⟩) <;> omega
      simp only [if_neg hempty, if_neg hempty', stop_le_stop]
      omega

/-! ## The ids of the tape -/

lemma remap_ascends : (rewriteOf f ins).remap.Pairwise (· < ·) := by
  rw [rewriteOf, remap_placed h, List.pairwise_map]
  refine List.pairwise_lt_range.imp fun hlt => ?_
  exact pos_lt_pos (stop_le_stop.mpr (Or.inl hlt)) hlt

lemma ids_ascend : (rewriteOf f ins).ids.Pairwise (· < ·) := by
  rw [rewriteOf, ids_placed h, List.pairwise_map, List.pairwise_iff_getElem]
  intro a b ha hb hab
  rw [List.length_zipIdx] at ha hb
  have hle := List.pairwise_iff_getElem.mp h.sorted a b ha hb hab
  have hindex : indexOf (ins[a].place.order f.blocks) ≤ indexOf (ins[b].place.order f.blocks) :=
    indexOf_mono hle
  simp only [List.getElem_zipIdx, posOf]
  omega

/-- An old instruction and an insertion have different ids. -/
lemma pos_ne_posOf {o j : ℕ} {i : Insertion} (hij : ins[j]? = some i) :
    pos f ins (stop o 3 0) ≠ posOf f j i := by
  rcases lt_or_ge (i.place.order f.blocks) (stop o 3 0) with hlt | hge
  · exact (h.posOf_lt hij hlt).ne'
  · have hsucc : stop (o + 1) 0 0 ≤ i.place.order f.blocks := by
      rcases h.order_cases (List.mem_of_getElem? hij) with ⟨o', -, ho⟩ | ⟨o', b, -, ho⟩ |
          ⟨o', -, ho⟩ <;>
        rw [ho, stop_le_stop] at hge <;> rw [ho, stop_le_stop] <;> omega
    have hpos := h.pos_le_posOf hij hsucc
    rw [pos_succ h] at hpos
    omega

lemma length_slots_placed : (placed f ins).slots.length = f.insts.length + ins.length := by
  rw [(placed_spec h).1.slots, cur_placed h, Nat.add_comm]

/-- The ids given out lie on the new tape. -/
lemma id_lt {v : ℕ} (hv : v ∈ (rewriteOf f ins).remap ++ (rewriteOf f ins).ids) :
    v < f.insts.length + ins.length := by
  rw [← length_slots_placed h]
  rcases List.mem_append.mp hv with hv | hv
  · rw [rewriteOf, remap_placed h] at hv
    obtain ⟨o, ho, rfl⟩ := List.mem_map.mp hv
    have ho := List.mem_range.mp ho
    exact (List.getElem?_eq_some_iff.mp
      ((placed_spec h).1.olds o _ ho (List.getElem?_eq_getElem ho))).1
  · rw [rewriteOf, ids_placed h] at hv
    obtain ⟨⟨i, j⟩, hij, rfl⟩ := List.mem_map.mp hv
    have hget : ins[j]? = some i := by simpa using List.mem_zipIdx_iff_getElem?.mp hij
    have hj := (List.getElem?_eq_some_iff.mp hget).1
    exact (List.getElem?_eq_some_iff.mp
      ((placed_spec h).1.news j i hget (by rw [cur_placed h]; omega))).1

/-- Each place of the new tape is given out once. -/
lemma ids_perm : ((rewriteOf f ins).remap ++ (rewriteOf f ins).ids).Perm
    (List.range (f.insts.length + ins.length)) := by
  have hnodup : ((rewriteOf f ins).remap ++ (rewriteOf f ins).ids).Nodup := by
    refine List.nodup_append.mpr ⟨(remap_ascends h).imp ne_of_lt, (ids_ascend h).imp ne_of_lt, ?_⟩
    intro v hv w hw
    rw [rewriteOf, remap_placed h] at hv
    rw [rewriteOf, ids_placed h] at hw
    obtain ⟨o, -, rfl⟩ := List.mem_map.mp hv
    obtain ⟨⟨i, j⟩, hij, rfl⟩ := List.mem_map.mp hw
    have hget : ins[j]? = some i := by simpa using List.mem_zipIdx_iff_getElem?.mp hij
    exact pos_ne_posOf h hget
  have hsub : (rewriteOf f ins).remap ++ (rewriteOf f ins).ids ⊆
      List.range (f.insts.length + ins.length) := fun v hv =>
    List.mem_range.mpr (id_lt h hv)
  refine (List.subperm_of_subset hnodup hsub).perm_of_length_le ?_
  rw [List.length_range, List.length_append, rewriteOf, (placed_spec h).1.remapLength,
    (placed_spec h).1.idsLength, cur_placed h]

lemma insert_rewrite : (insert f ins).2.1 = rewriteOf f ins := by
  change (⟨_, (placed f ins).ids ++ List.replicate (ins.length - (placed f ins).cur) noValue⟩ :
    Rewrite) = _
  rw [cur_placed h, Nat.sub_self, List.replicate_zero, List.append_nil]
  rfl

end

/-! ## The result -/

/-- The new name of a value id: an old instruction's, or an insertion's. -/
def Rewrite.rename (rw : Rewrite) : ℕ → ℕ := renumbered (rw.remap ++ rw.ids)

/-- A relocation table under new names; an entry without one is dropped. -/
def Rewrite.renameRefs (rw : Rewrite) (table : List (ℕ × ℕ)) : List (ℕ × ℕ) :=
  table.filterMap fun r => ((rw.remap ++ rw.ids)[r.1]?).map fun v => (v, r.2)

/-- The block a place names holds it: the block of the instruction, or the empty block. -/
def At.In (f : FunctionSsa) (b : ℕ) : At → Prop
  | .before k | .after k => InBlock f k b
  | .empty c => c = b

/-- `g` is `f` with the insertions, relabelled by `rw`. -/
structure Relabelled (f : FunctionSsa) (ins : List Insertion) (g : FunctionSsa) (rw : Rewrite) :
    Prop where
  /-- Each place of the new tape is that of one old instruction or of one insertion. -/
  each : (rw.remap ++ rw.ids).Perm (List.range (f.insts.length + ins.length))
  remapLength : rw.remap.length = f.insts.length
  idsLength : rw.ids.length = ins.length
  remapAscends : rw.remap.Pairwise (· < ·)
  idsAscend : rw.ids.Pairwise (· < ·)
  /-- The tape and its parallel tables have that many places. -/
  lengths : ∀ l ∈ [g.insts.length, g.instSrc.length, g.f32Values.length, g.cmp32.length,
    g.div32.length], l = f.insts.length + ins.length
  /-- Old ids are renamed by `remap`, those past the old tape name insertions. -/
  renameOld : ∀ k v : ℕ, rw.remap[k]? = some v → rw.rename k = v
  renameNew : ∀ j v : ℕ, rw.ids[j]? = some v → rw.rename (f.insts.length + j) = v
  renameNone : rw.rename noValue = noValue
  old : ∀ (k v : ℕ) inst, f.insts[k]? = some inst → rw.remap[k]? = some v →
    g.insts[v]? = some (inst.mapOperands rw.rename) ∧
    g.instSrc[v]? = some (f.instSrc.getD k (0, 0)) ∧
    g.f32Values[v]? = some (f.f32Values.getD k false) ∧
    g.cmp32[v]? = some (f.cmp32.getD k false) ∧
    g.div32[v]? = some (f.div32.getD k false)
  new : ∀ (j v : ℕ) i, ins[j]? = some i → rw.ids[j]? = some v →
    g.insts[v]? = some (i.inst.mapOperands rw.rename) ∧
    g.f32Values[v]? = some i.isF32 ∧ g.cmp32[v]? = some false ∧ g.div32[v]? = some false
  /-- An insertion sits in the block its place names, on the right side of the instruction. -/
  inside : ∀ (j v b : ℕ) i, ins[j]? = some i → rw.ids[j]? = some v → i.place.In f b →
    InBlock g v b
  ahead : ∀ (j v k w : ℕ) i, ins[j]? = some i → rw.ids[j]? = some v → i.place = .before k →
    rw.remap[k]? = some w → v < w
  behind : ∀ (j v k w : ℕ) i, ins[j]? = some i → rw.ids[j]? = some v → i.place = .after k →
    rw.remap[k]? = some w → w < v
  blocksLength : g.blocks.length = f.blocks.length
  /-- A block holds its old instructions in order, and its own insertions. -/
  blocks : ∀ (b : ℕ) blk, f.blocks[b]? = some blk → ∃ r : InstRange,
    g.blocks[b]? = some { blk with
      instRange := r
      exitAcc := rw.rename blk.exitAcc
      terminator := blk.terminator.mapOperands rw.rename } ∧
    r.start ≤ r.stop ∧ r.stop ≤ f.insts.length + ins.length ∧
    r.toList = rw.blockIds ins b blk.instRange
  disjoint : ∀ v b c, InBlock g v b → InBlock g v c → b = c
  boundary : ∀ (b : ℕ) blk, g.blocks[b]? = some blk →
    blk.instRange.start = blk.instRange.stop → atBoundary g.blocks blk.instRange.start = true
  callRefs : g.externCallRefs = rw.renameRefs f.externCallRefs
  immCodeRefs : g.externImmCodeRefs = rw.renameRefs f.externImmCodeRefs
  immDataRefs : g.externImmDataRefs = rw.renameRefs f.externImmDataRefs
  tlsRefs : g.externTlsRefs = rw.renameRefs f.externTlsRefs

/-- A relocation table under the new ids has an entry for each that has a new name. -/
lemma rekeyTable_eq {rw : Rewrite} (hids : ∀ v ∈ rw.remap ++ rw.ids, v ≠ noValue)
    (table : List (ℕ × ℕ)) : rekeyTable (rw.remap ++ rw.ids) table = rw.renameRefs table := by
  induction table with
  | nil => rfl
  | cons r table ih =>
    rw [rekeyTable, Rewrite.renameRefs] at ih ⊢
    rw [List.map_cons, List.filterMap_cons, List.getD_eq_getElem?_getD]
    cases hget : (rw.remap ++ rw.ids)[r.1]? with
    | none => rw [List.filter_cons_of_neg (by simp), ih, Option.map_none]
    | some v =>
      have hv := hids v (List.mem_of_getElem? hget)
      rw [List.filter_cons_of_pos (by simpa using hv), ih, Option.map_some]
      rfl

lemma rename_eq {rw : Rewrite} {k v : ℕ} (hk : k ≠ noValue)
    (hget : (rw.remap ++ rw.ids)[k]? = some v) : rw.rename k = v := by
  have hlt := (List.getElem?_eq_some_iff.mp hget).1
  rw [Rewrite.rename, renumbered, if_pos ⟨hk, hlt⟩, List.getD_eq_getElem?_getD, hget]
  rfl

section

variable (h : Insertable f ins)
include h

/-- The function an insertion returns. -/
lemma insert_fst : (insert f ins).1 = renumber
    { f with
      insts := (placed f ins).slots.map Slot.inst
      instSrc := (placed f ins).slots.map Slot.src
      f32Values := (placed f ins).slots.map Slot.isF32
      cmp32 := (placed f ins).slots.map Slot.isCmp32
      div32 := (placed f ins).slots.map Slot.isDiv32
      blocks := f.blocks.zipIdx.map fun p =>
        { p.1 with instRange := newRange (placed f ins) p.2 p.1.instRange } }
    ((rewriteOf f ins).remap ++ (rewriteOf f ins).ids) := by
  rw [← insert_rewrite h]
  rfl

/-- A block of the function an insertion returns. -/
lemma getElem?_blocks_insert {b : ℕ} : (insert f ins).1.blocks[b]? =
    (f.blocks[b]?).map fun blk => { blk with
      instRange := newRange (placed f ins) b blk.instRange
      exitAcc := (rewriteOf f ins).rename blk.exitAcc
      terminator := blk.terminator.mapOperands (rewriteOf f ins).rename } := by
  rw [insert_fst h]
  change (List.map (renumberBlock _) (List.map _ _))[b]? = _
  rw [List.getElem?_map, List.getElem?_map, List.getElem?_zipIdx]
  cases f.blocks[b]? with
  | none => rfl
  | some blk =>
    simp only [Option.map_some, Nat.zero_add]
    rfl

lemma block_of_insert {b : ℕ} {blk' : Block} (hblk' : (insert f ins).1.blocks[b]? = some blk') :
    ∃ blk, f.blocks[b]? = some blk ∧ blk'.instRange.start = pos f ins (lo b blk.instRange) ∧
      blk'.instRange.stop = pos f ins (hi b blk.instRange) := by
  rw [getElem?_blocks_insert h] at hblk'
  obtain ⟨blk, hblk, rfl⟩ := Option.map_eq_some_iff.mp hblk'
  exact ⟨blk, hblk, by rw [newRange_placed h hblk], by rw [newRange_placed h hblk]⟩

/-- A place of the result, with its entries in the parallel tables. -/
lemma slot_of_insert {v : ℕ} {slot : Slot} (hslot : (placed f ins).slots[v]? = some slot) :
    (insert f ins).1.insts[v]? = some (slot.inst.mapOperands (rewriteOf f ins).rename) ∧
    (insert f ins).1.instSrc[v]? = some slot.src ∧
    (insert f ins).1.f32Values[v]? = some slot.isF32 ∧
    (insert f ins).1.cmp32[v]? = some slot.isCmp32 ∧
    (insert f ins).1.div32[v]? = some slot.isDiv32 := by
  rw [insert_fst h]
  change (List.map _ (List.map Slot.inst _))[v]? = _ ∧ (List.map Slot.src _)[v]? = _ ∧
    (List.map Slot.isF32 _)[v]? = _ ∧ (List.map Slot.isCmp32 _)[v]? = _ ∧
    (List.map Slot.isDiv32 _)[v]? = _
  simp only [List.getElem?_map, hslot, Option.map_some, and_true]
  rfl

lemma inBlock_of_order {j b : ℕ} {i : Insertion} {blk : Block} (hij : ins[j]? = some i)
    (hblk : f.blocks[b]? = some blk) (hlo : lo b blk.instRange ≤ i.place.order f.blocks)
    (hhi : i.place.order f.blocks < hi b blk.instRange) :
    InBlock (insert f ins).1 (posOf f j i) b := by
  have hget := getElem?_blocks_insert h (b := b)
  rw [hblk, Option.map_some, newRange_placed h hblk] at hget
  exact ⟨_, hget, h.pos_le_posOf hij hlo, h.posOf_lt hij hhi⟩

/-- What goes to a place of a block goes between its ends. -/
lemma order_of_in {b : ℕ} {i : Insertion} (hi' : i ∈ ins) (hin : i.place.In f b) :
    ∃ blk, f.blocks[b]? = some blk ∧ lo b blk.instRange ≤ i.place.order f.blocks ∧
      i.place.order f.blocks < hi b blk.instRange := by
  have hvalid := h.valid i hi'
  cases hp : i.place with
  | before k =>
    rw [hp] at hin
    obtain ⟨blk, hblk, hk, hk'⟩ := hin
    have hne : ¬ blk.instRange.stop ≤ blk.instRange.start := by omega
    refine ⟨blk, hblk, ?_, ?_⟩
    · rw [lo, if_neg hne]
      exact stop_le_stop.mpr (by omega)
    · rw [hi, if_neg hne]
      exact stop_lt_stop.mpr (by omega)
  | after k =>
    rw [hp] at hin
    obtain ⟨blk, hblk, hk, hk'⟩ := hin
    have hne : ¬ blk.instRange.stop ≤ blk.instRange.start := by omega
    refine ⟨blk, hblk, ?_, ?_⟩
    · rw [lo, if_neg hne]
      exact stop_le_stop.mpr (by omega)
    · rw [hi, if_neg hne]
      exact stop_lt_stop.mpr (by omega)
  | empty c =>
    rw [hp] at hin hvalid
    obtain rfl : c = b := hin
    obtain ⟨hc, hempty⟩ := hvalid
    have hget : f.blocks[c]? = some f.blocks[c] := List.getElem?_eq_getElem hc
    rw [rangeOf_eq hget] at hempty
    refine ⟨f.blocks[c], hget, ?_, ?_⟩
    · rw [lo, if_pos hempty, At.order, rangeOf_eq hget]
      exact le_rfl
    · rw [hi, if_pos hempty, At.order, rangeOf_eq hget]
      exact stop_lt_stop.mpr (by omega)

lemma remap_get {k v : ℕ} (hv : (rewriteOf f ins).remap[k]? = some v) :
    k < f.insts.length ∧ v = pos f ins (stop k 3 0) := by
  have hk : k < f.insts.length := by
    rw [← (placed_spec h).1.remapLength]
    exact (List.getElem?_eq_some_iff.mp hv).1
  exact ⟨hk, Option.some.inj (hv.symm.trans ((placed_spec h).1.remap k hk))⟩

lemma ids_get {j v : ℕ} {i : Insertion} (hij : ins[j]? = some i)
    (hv : (rewriteOf f ins).ids[j]? = some v) : v = posOf f j i := by
  have hj := (List.getElem?_eq_some_iff.mp hij).1
  exact Option.some.inj (hv.symm.trans
    ((placed_spec h).1.ids j i hij (by rw [cur_placed h]; exact hj)))

lemma id_ne_noValue : ∀ v ∈ (rewriteOf f ins).remap ++ (rewriteOf f ins).ids, v ≠ noValue := by
  intro v hv
  have hlt := id_lt h hv
  have hsmall := h.small
  omega

/-- An insertion relabels the function and places what is inserted. -/
lemma relabelled_insert : Relabelled f ins (insert f ins).1 (rewriteOf f ins) where
  each := ids_perm h
  remapLength := (placed_spec h).1.remapLength
  idsLength := (placed_spec h).1.idsLength.trans (cur_placed h)
  remapAscends := remap_ascends h
  idsAscend := ids_ascend h
  lengths := by
    rw [insert_fst h]
    simp [renumber, rekey, length_slots_placed h]
  renameOld := by
    intro k v hv
    have hsmall := h.small
    have hk := (remap_get h hv).1
    exact rename_eq (by omega) (getElem?_append_of_some hv)
  renameNew := by
    intro j v hv
    have hsmall := h.small
    have hremap : (rewriteOf f ins).remap.length = f.insts.length := (placed_spec h).1.remapLength
    have hids : (rewriteOf f ins).ids.length = ins.length :=
      (placed_spec h).1.idsLength.trans (cur_placed h)
    have hj := (List.getElem?_eq_some_iff.mp hv).1
    refine rename_eq (by omega) ?_
    rw [List.getElem?_append_right (by omega), hremap, Nat.add_sub_cancel_left]
    exact hv
  renameNone := by
    rw [Rewrite.rename, renumbered, if_neg (by simp)]
  old := by
    intro k v inst hinst hv
    obtain ⟨hk, rfl⟩ := remap_get h hv
    exact slot_of_insert h ((placed_spec h).1.olds k inst hk hinst)
  new := by
    intro j v i hij hv
    obtain rfl := ids_get h hij hv
    have hj := (List.getElem?_eq_some_iff.mp hij).1
    obtain ⟨hinst, -, htables⟩ := slot_of_insert h
      ((placed_spec h).1.news j i hij (by rw [cur_placed h]; exact hj))
    exact ⟨hinst, htables⟩
  inside := by
    intro j v b i hij hv hin
    obtain rfl := ids_get h hij hv
    obtain ⟨blk, hblk, hlo, hhi⟩ := order_of_in h (List.mem_of_getElem? hij) hin
    exact inBlock_of_order h hij hblk hlo hhi
  ahead := by
    intro j v k w i hij hv hplace hw
    obtain rfl := ids_get h hij hv
    obtain ⟨-, rfl⟩ := remap_get h hw
    refine h.posOf_lt hij ?_
    rw [hplace]
    exact stop_lt_stop.mpr (by omega)
  behind := by
    intro j v k w i hij hv hplace hw
    obtain rfl := ids_get h hij hv
    obtain ⟨-, rfl⟩ := remap_get h hw
    have hle := h.pos_le_posOf hij (k := stop (k + 1) 0 0) (by rw [hplace]; exact le_rfl)
    rw [pos_succ h] at hle
    omega
  blocksLength := by
    rw [insert_fst h]
    simp [renumber, rekey]
  blocks := by
    intro b blk hblk
    refine ⟨newRange (placed f ins) b blk.instRange, ?_, ?_, ?_, toList_newRange h hblk⟩
    · rw [getElem?_blocks_insert h, hblk]
      rfl
    · rw [newRange_placed h hblk]
      exact pos_mono lo_le_hi
    · have hn := h.range b blk hblk
      have hle : pos f ins (hi b blk.instRange) ≤ pos f ins (stop f.insts.length 3 0) := by
        refine pos_mono ?_
        unfold hi
        split <;> rw [stop_le_stop] <;> omega
      have hend : pos f ins (stop f.insts.length 3 0) = f.insts.length + ins.length := by
        rw [pos, indexOf_stop, ← (placed_spec h).1.cur, cur_placed h]
      rw [newRange_placed h hblk, ← hend]
      exact hle
  disjoint := by
    rintro v b c ⟨blk, hblk, hlo, hhi⟩ ⟨blk', hblk', hlo', hhi'⟩
    obtain ⟨old, hold, hstart, hstop⟩ := block_of_insert h hblk
    obtain ⟨old', hold', hstart', hstop'⟩ := block_of_insert h hblk'
    by_contra hbc
    rcases hi_le_lo h hold hold' hbc with hle | hle
    · have := @pos_mono f ins _ _ hle
      omega
    · have := @pos_mono f ins _ _ hle
      omega
  boundary := by
    intro b blk hblk hempty
    obtain ⟨old, hold, hstart, hstop⟩ := block_of_insert h hblk
    rw [atBoundary, Bool.not_eq_true', List.any_eq_false]
    intro blk' hmem
    obtain ⟨c, hblk'⟩ := List.getElem?_of_mem hmem
    obtain ⟨old', hold', hstart', hstop'⟩ := block_of_insert h hblk'
    simp only [Bool.and_eq_true, decide_eq_true_eq, not_and, not_lt]
    intro hlt
    by_cases hbc : b = c
    · subst hbc
      rw [hblk] at hblk'
      obtain rfl := Option.some.inj hblk'
      omega
    · rcases hi_le_lo h hold hold' hbc with hle | hle
      · have := @pos_mono f ins _ _ hle
        omega
      · have := @pos_mono f ins _ _ hle
        omega
  callRefs := by
    rw [insert_fst h]
    exact rekeyTable_eq (id_ne_noValue h) _
  immCodeRefs := by
    rw [insert_fst h]
    exact rekeyTable_eq (id_ne_noValue h) _
  immDataRefs := by
    rw [insert_fst h]
    exact rekeyTable_eq (id_ne_noValue h) _
  tlsRefs := by
    rw [insert_fst h]
    exact rekeyTable_eq (id_ne_noValue h) _

/-- **An insertion is a pure relabelling plus the insertions**: every old instruction and every
insertion has one place on the new tape, with everything keyed by its id; every block keeps its
instructions in order and gains exactly its own insertions; and undoing brings the function back. -/
theorem insert_relabels :
    Relabelled f ins (insert f ins).1 (insert f ins).2.1 ∧
      (insert f ins).2.2.restore (insert f ins).1 = f := by
  refine ⟨?_, rfl⟩
  rw [insert_rewrite h]
  exact relabelled_insert h

end

/-- Two blocks with an empty one between them. -/
def twoBlocks : FunctionSsa where
  insts := [.imm 1, .neg 0, .copy 1 false]
  instSrc := [(1, 10), (1, 11), (1, 12)]
  blocks :=
    [{ instRange := ⟨0, 2⟩, terminator := .jmp 1 },
      { instRange := ⟨2, 2⟩, terminator := .fallThrough 2 },
      { instRange := ⟨2, 3⟩, terminator := .ret 2, exitAcc := 2 }]
  externCallRefs := [(2, 7)]

/-- One insertion into each of the blocks that meet at one index; the last reads the first. -/
def meeting : List Insertion :=
  [⟨.after 1, .imm 5, false⟩, ⟨.empty 1, .imm 6, true⟩, ⟨.before 2, .binop .add 1 3, false⟩]

/-- An insertion into each of the blocks that meet at one index is a relabelling. -/
theorem insert_relabels_meeting :
    Relabelled twoBlocks meeting (insert twoBlocks meeting).1 (insert twoBlocks meeting).2.1 ∧
      (insert twoBlocks meeting).2.2.restore (insert twoBlocks meeting).1 = twoBlocks := by
  refine insert_relabels ⟨?_, ?_, ?_, ?_, ?_, by decide⟩
  · intro b blk hblk
    have hmem := List.mem_of_getElem? hblk
    simp only [twoBlocks, List.mem_cons, List.not_mem_nil, or_false] at hmem
    rcases hmem with rfl | rfl | rfl <;> decide
  · rintro v b c ⟨blk, hblk, hlo, hhi⟩ ⟨blk', hblk', hlo', hhi'⟩
    rcases b with _ | _ | _ | b <;> rcases c with _ | _ | _ | c <;>
      simp [twoBlocks] at hblk hblk' <;> subst hblk <;> subst hblk' <;> simp at hlo hhi hlo' hhi' <;>
      omega
  · intro b blk hblk
    have hmem := List.mem_of_getElem? hblk
    simp only [twoBlocks, List.mem_cons, List.not_mem_nil, or_false] at hmem
    rcases hmem with rfl | rfl | rfl <;> decide
  · intro i hi
    simp only [meeting, List.mem_cons, List.not_mem_nil, or_false] at hi
    rcases hi with rfl | rfl | rfl
    · exact (by decide : 1 < twoBlocks.insts.length)
    · exact ⟨by decide, by decide⟩
    · exact (by decide : 2 < twoBlocks.insts.length)
  · unfold SortedBy
    decide

end Tape

end Badc
