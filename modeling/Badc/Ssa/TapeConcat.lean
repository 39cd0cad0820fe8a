import Badc.Lib.Listing
import Badc.Ssa.TapeInsert

/-!
# A concatenation permutes the tape

`concat` puts the later members of a chain behind its first non-empty one.  An instruction moves
where it belongs to such a member (`moved_iff`); everything else keeps its order.  The new order
lists each old index once, and a block that stays contributes one run of it: its own instructions,
with those of its chain behind them (`segment_of_stays`).  So the new range of the head of a chain
is such a run.

An empty block lands ahead of the first instruction at or past its start that stays.  That is a
block boundary where its start was one.
-/

namespace Badc

namespace Tape

variable (f : FunctionSsa) (chains : List (List ℕ))

/-- What `concat` relies on: disjoint ranges, those with instructions on the tape; chains of
distinct blocks, each in one chain; and a tape that does not need the id that stands for none. -/
structure Concatenable : Prop where
  range : ∀ (b : ℕ) blk, f.blocks[b]? = some blk → blk.instRange.start ≤ blk.instRange.stop ∧
    (blk.instRange.start < blk.instRange.stop → blk.instRange.stop ≤ f.insts.length)
  disjoint : ∀ v b c, InBlock f v b → InBlock f v c → b = c
  members : ∀ chain ∈ chains, ∀ b ∈ chain, b < f.blocks.length
  nonempty : ∀ chain ∈ chains, chain ≠ []
  nodup : chains.flatten.Nodup
  small : f.insts.length ≤ noValue

/-- The instructions of a block. -/
def held (b : ℕ) : List ℕ := (rangeOf f.blocks b).toList

/-- The members of a chain that hold instructions. -/
def fullBlocks (chain : List ℕ) : List ℕ :=
  chain.filter fun b => !isEmptyRange (rangeOf f.blocks b)

/-- The index behind which the later members of a chain go. -/
def baseEnd (chain : List ℕ) : Option ℕ :=
  (fullBlocks f chain).head?.map fun b => (rangeOf f.blocks b).stop - 1

variable {f chains}

lemma mem_held {v b : ℕ} : v ∈ held f b ↔ InBlock f v b := by
  rw [held, InstRange.mem_toList, rangeOf, List.getD_eq_getElem?_getD, InBlock]
  cases hblk : f.blocks[b]? with
  | none =>
    simp only [Option.getD_none, reduceCtorEq, false_and, exists_false, iff_false, not_and, not_lt]
    intro _
    exact Nat.zero_le v
  | some blk => simp

lemma held_of_empty {b : ℕ} (h : isEmptyRange (rangeOf f.blocks b) = true) : held f b = [] := by
  have hle := of_decide_eq_true h
  rw [held, InstRange.toList, Nat.sub_eq_zero_of_le hle]
  rfl

lemma start_mem_held {b : ℕ} (hlt : (rangeOf f.blocks b).start < (rangeOf f.blocks b).stop) :
    (rangeOf f.blocks b).start ∈ held f b := by
  rw [held, InstRange.mem_toList]
  omega

lemma last_mem_held {b : ℕ} (hlt : (rangeOf f.blocks b).start < (rangeOf f.blocks b).stop) :
    (rangeOf f.blocks b).stop - 1 ∈ held f b := by
  rw [held, InstRange.mem_toList]
  omega

lemma held_eq_concat {b : ℕ} (hlt : (rangeOf f.blocks b).start < (rangeOf f.blocks b).stop) :
    held f b = List.range' (rangeOf f.blocks b).start
        ((rangeOf f.blocks b).stop - 1 - (rangeOf f.blocks b).start) ++
      [(rangeOf f.blocks b).stop - 1] := by
  obtain ⟨d, hd⟩ := Nat.exists_eq_add_of_lt hlt
  rw [held, InstRange.toList, hd, Nat.add_assoc, Nat.add_sub_cancel_left, ← Nat.add_assoc,
    Nat.add_sub_cancel, Nat.add_sub_cancel_left, List.range'_concat, Nat.one_mul]

lemma mem_fullBlocks {chain : List ℕ} {b : ℕ} : b ∈ fullBlocks f chain ↔
    b ∈ chain ∧ (rangeOf f.blocks b).start < (rangeOf f.blocks b).stop := by
  simp [fullBlocks, isEmptyRange]

lemma fullRanges_eq (chain : List ℕ) :
    fullRanges f.blocks chain = (fullBlocks f chain).map (rangeOf f.blocks) := by
  rw [fullRanges, fullBlocks, List.filter_map]
  rfl

/-- A chain holds what its members that hold instructions do. -/
lemma flatMap_held (chain : List ℕ) :
    chain.flatMap (held f) = (fullBlocks f chain).flatMap (held f) := by
  induction chain with
  | nil => rfl
  | cons b chain ih =>
    have hcons : fullBlocks f (b :: chain) =
        if (!isEmptyRange (rangeOf f.blocks b)) = true then b :: fullBlocks f chain
        else fullBlocks f chain := List.filter_cons
    rw [List.flatMap_cons, ih, hcons]
    by_cases hempty : isEmptyRange (rangeOf f.blocks b) = true
    · rw [held_of_empty hempty, hempty]
      rfl
    · rw [Bool.not_eq_true] at hempty
      rw [hempty]
      rfl

/-! ## What moves -/

lemma foldl_mark {l : List InstRange} {m : ℕ → Bool} {v : ℕ} :
    l.foldl (fun m r v => m v || (r.start ≤ v && v < r.stop)) m v = true ↔
      m v = true ∨ ∃ r ∈ l, v ∈ r.toList := by
  induction l generalizing m with
  | nil => simp
  | cons r l ih =>
    rw [List.foldl_cons, ih]
    simp [or_assoc]

/-- What a run over chains has marked as moving. -/
lemma foldl_moved {l : List (List ℕ × ℕ)} {st : Moves} {v : ℕ} :
    (l.foldl (markChain f.blocks) st).moved v = true ↔
      st.moved v = true ∨ ∃ p ∈ l, ∃ b ∈ (fullBlocks f p.1).tail, v ∈ held f b := by
  induction l generalizing st with
  | nil => simp
  | cons p l ih =>
    rw [List.foldl_cons, ih]
    have hstep : (markChain f.blocks st p).moved v = true ↔
        st.moved v = true ∨ ∃ b ∈ (fullBlocks f p.1).tail, v ∈ held f b := by
      rw [markChain, fullRanges_eq]
      cases hfull : fullBlocks f p.1 with
      | nil => simp
      | cons base rest =>
        simp only [List.map_cons, List.tail_cons]
        rw [foldl_mark]
        simp [held]
    rw [hstep, or_assoc]
    simp

/-- **What moves**: the instructions of the members behind the first non-empty one of a chain. -/
lemma moved_iff {v : ℕ} : (movesOf f.blocks chains).moved v = true ↔
    ∃ chain ∈ chains, ∃ b ∈ (fullBlocks f chain).tail, v ∈ held f b := by
  rw [movesOf, foldl_moved]
  simp only [Bool.false_eq_true, false_or]
  constructor
  · rintro ⟨p, hp, hb⟩
    exact ⟨p.1, List.fst_mem_of_mem_zipIdx hp, hb⟩
  · rintro ⟨chain, hchain, hb⟩
    obtain ⟨c, hc⟩ := List.getElem?_of_mem hchain
    exact ⟨(chain, c), List.mem_zipIdx_iff_getElem?.mpr (by simpa using hc), hb⟩

/-- What a run over chains has recorded of an index, where only one chain ends its first member
there. -/
lemma foldl_tailOf {l : List (List ℕ × ℕ)} (st : Moves) {v : ℕ} (c : ℕ)
    (hone : ∀ p ∈ l, baseEnd f p.1 = some v → p.2 = c) :
    (l.foldl (markChain f.blocks) st).tailOf v =
      if ∃ p ∈ l, baseEnd f p.1 = some v then some c else st.tailOf v := by
  induction l generalizing st with
  | nil => simp
  | cons p l ih =>
    rw [List.foldl_cons, ih _ fun q hq => hone q (List.mem_cons_of_mem _ hq)]
    have hstep : (markChain f.blocks st p).tailOf v =
        if baseEnd f p.1 = some v then some c else st.tailOf v := by
      rw [markChain, fullRanges_eq]
      have hp := hone p (List.mem_cons_self ..)
      rw [baseEnd] at hp ⊢
      cases hfull : fullBlocks f p.1 with
      | nil => simp
      | cons base rest =>
        rw [hfull] at hp
        simp only [List.map_cons, List.head?_cons, Option.map_some, Option.some.injEq] at hp ⊢
        by_cases hv : (rangeOf f.blocks base).stop - 1 = v
        · rw [if_pos hv, ← hp hv, hv, Function.update_self]
        · rw [if_neg hv, Function.update_of_ne (Ne.symm hv)]
    rw [hstep]
    by_cases hl : ∃ q ∈ l, baseEnd f q.1 = some v
    · rw [if_pos hl, if_pos]
      obtain ⟨q, hq, hv⟩ := hl
      exact ⟨q, List.mem_cons_of_mem _ hq, hv⟩
    · rw [if_neg hl]
      refine if_congr ?_ rfl rfl
      simp only [List.mem_cons, exists_eq_or_imp, hl, or_false]

lemma mem_held_of_baseEnd {chain : List ℕ} {v : ℕ} (hv : baseEnd f chain = some v) :
    ∃ base rest, fullBlocks f chain = base :: rest ∧ base ∈ chain ∧ v ∈ held f base ∧
      v = (rangeOf f.blocks base).stop - 1 := by
  obtain ⟨base, hbase, rfl⟩ := Option.map_eq_some_iff.mp hv
  obtain ⟨rest, hfull⟩ := List.head?_eq_some_iff.mp hbase
  obtain ⟨hmem, hlt⟩ := mem_fullBlocks.mp (hfull ▸ List.mem_cons_self .. : base ∈ fullBlocks f chain)
  refine ⟨base, rest, hfull, hmem, ?_, rfl⟩
  rw [held, InstRange.mem_toList]
  omega

lemma moved_of_rest {chain : List ℕ} {b v : ℕ} (hchain : chain ∈ chains)
    (hb : b ∈ (fullBlocks f chain).tail) (hv : v ∈ held f b) :
    (movesOf f.blocks chains).moved v = true :=
  moved_iff.mpr ⟨chain, hchain, b, hb, hv⟩

section

variable (h : Concatenable f chains)
include h

/-- A block belongs to one chain. -/
lemma chain_unique {c c' b : ℕ} {chain chain' : List ℕ} (hc : chains[c]? = some chain)
    (hc' : chains[c']? = some chain') (hb : b ∈ chain) (hb' : b ∈ chain') : c = c' := by
  have hpair := (List.nodup_flatten.mp h.nodup).2
  rw [List.pairwise_iff_getElem] at hpair
  obtain ⟨hlt, rfl⟩ := List.getElem?_eq_some_iff.mp hc
  obtain ⟨hlt', rfl⟩ := List.getElem?_eq_some_iff.mp hc'
  rcases lt_trichotomy c c' with hcc | hcc | hcc
  · exact absurd hb' (hpair c c' hlt hlt' hcc hb)
  · exact hcc
  · exact absurd hb (hpair c' c hlt' hlt hcc hb')

lemma nodup_chain {chain : List ℕ} (hchain : chain ∈ chains) : chain.Nodup :=
  (List.nodup_flatten.mp h.nodup).1 chain hchain

lemma held_unique {v b c : ℕ} (hb : v ∈ held f b) (hc : v ∈ held f c) : b = c :=
  h.disjoint v b c (mem_held.mp hb) (mem_held.mp hc)

lemma lt_of_mem_held {v b : ℕ} (hv : v ∈ held f b) : v < f.insts.length := by
  obtain ⟨blk, hblk, hlo, hhi⟩ := mem_held.mp hv
  have := (h.range b blk hblk).2 (by omega)
  omega

/-- The chain that goes behind an index. -/
lemma tailOf_eq_some {v c : ℕ} : (movesOf f.blocks chains).tailOf v = some c ↔
    ∃ chain, chains[c]? = some chain ∧ baseEnd f chain = some v := by
  have hget : ∀ p ∈ chains.zipIdx, chains[p.2]? = some p.1 := fun p hp => by
    simpa using List.mem_zipIdx_iff_getElem?.mp hp
  have hsame : ∀ {d d' : ℕ} {chain chain' : List ℕ}, chains[d]? = some chain →
      chains[d']? = some chain' → baseEnd f chain = some v → baseEnd f chain' = some v →
      d = d' := by
    intro d d' chain chain' hd hd' hv hv'
    obtain ⟨base, _, -, hmem, hheld, -⟩ := mem_held_of_baseEnd hv
    obtain ⟨base', _, -, hmem', hheld', -⟩ := mem_held_of_baseEnd hv'
    obtain rfl := held_unique h hheld hheld'
    exact chain_unique h hd hd' hmem hmem'
  constructor
  · intro htail
    by_cases hex : ∃ p ∈ chains.zipIdx, baseEnd f p.1 = some v
    · obtain ⟨p, hp, hv⟩ := hex
      have hfold := foldl_tailOf {} p.2 fun q hq hqv =>
        hsame (hget q hq) (hget p hp) hqv hv
      rw [if_pos ⟨p, hp, hv⟩] at hfold
      obtain rfl := Option.some.inj (hfold.symm.trans htail)
      exact ⟨p.1, hget p hp, hv⟩
    · have hfold := foldl_tailOf {} c fun q hq hqv =>
        absurd ⟨q, hq, hqv⟩ hex
      rw [if_neg hex] at hfold
      cases hfold.symm.trans htail
  · rintro ⟨chain, hc, hv⟩
    have hmem : (chain, c) ∈ chains.zipIdx := List.mem_zipIdx_iff_getElem?.mpr (by simpa using hc)
    have hfold := foldl_tailOf {} c fun q hq hqv => hsame (hget q hq) hc hqv hv
    rw [if_pos ⟨_, hmem, hv⟩] at hfold
    exact hfold

/-- The first non-empty member of a chain stays. -/
lemma not_moved_of_base {chain : List ℕ} {base v : ℕ} {rest : List ℕ} (hchain : chain ∈ chains)
    (hfull : fullBlocks f chain = base :: rest) (hv : v ∈ held f base) :
    (movesOf f.blocks chains).moved v = false := by
  rw [Bool.eq_false_iff, Ne, moved_iff]
  rintro ⟨chain', hchain', b, hb, hvb⟩
  obtain rfl := held_unique h hvb hv
  obtain ⟨c, hc⟩ := List.getElem?_of_mem hchain
  obtain ⟨c', hc'⟩ := List.getElem?_of_mem hchain'
  have hmem : b ∈ chain := (mem_fullBlocks.mp (hfull ▸ List.mem_cons_self ..)).1
  have hmem' : b ∈ chain' := (mem_fullBlocks.mp (List.mem_of_mem_tail hb)).1
  obtain rfl := chain_unique h hc hc' hmem hmem'
  obtain rfl := Option.some.inj (hc.symm.trans hc')
  have hnodup : (fullBlocks f chain).Nodup := (nodup_chain h hchain).filter _
  rw [hfull] at hb hnodup
  exact (List.nodup_cons.mp hnodup).1 hb

lemma not_moved_of_free {b v : ℕ} (hb : ∀ chain ∈ chains, b ∉ chain) (hv : v ∈ held f b) :
    (movesOf f.blocks chains).moved v = false := by
  rw [Bool.eq_false_iff, Ne, moved_iff]
  rintro ⟨chain, hchain, b', hb', hvb⟩
  obtain rfl := held_unique h hvb hv
  exact hb chain hchain (mem_fullBlocks.mp (List.mem_of_mem_tail hb')).1

/-! ## The new order -/

/-- What goes behind the first non-empty member of a chain: the later members. -/
lemma tailsOf_eq {chain : List ℕ} (hchain : chain ∈ chains) :
    tailsOf f.blocks (movesOf f.blocks chains) chain =
      (fullBlocks f chain).tail.flatMap (held f) := by
  have htwo := flatMap_if_and (p := fun b => !isEmptyRange (rangeOf f.blocks b))
    (q := fun b => (movesOf f.blocks chains).moved (rangeOf f.blocks b).start) (t := held f) chain
  have hfirst : ∀ b ∈ fullBlocks f chain, (rangeOf f.blocks b).start ∈ held f b := by
    intro b hb
    have := (mem_fullBlocks.mp hb).2
    rw [held, InstRange.mem_toList]
    omega
  refine htwo.trans ?_
  change (fullBlocks f chain).flatMap _ = _
  cases hfull : fullBlocks f chain with
  | nil => rfl
  | cons base rest =>
    rw [hfull] at hfirst
    have hbase := not_moved_of_base h hchain hfull (hfirst base (List.mem_cons_self ..))
    rw [List.flatMap_cons, hbase, List.tail_cons, if_neg (by simp), List.nil_append]
    refine List.flatMap_congr fun b hb => ?_
    have hmoved := moved_of_rest hchain (by rw [hfull]; exact hb)
      (hfirst b (List.mem_cons_of_mem _ hb))
    rw [hmoved]
    rfl

/-- What an index contributes: nothing where it moves, else itself and what goes behind it. -/
lemma mem_chunk {v place : ℕ} :
    v ∈ chunk f.blocks chains (movesOf f.blocks chains) place ↔
      (movesOf f.blocks chains).moved place = false ∧ (v = place ∨ ∃ chain ∈ chains,
        baseEnd f chain = some place ∧ ∃ b ∈ (fullBlocks f chain).tail, v ∈ held f b) := by
  rw [chunk]
  cases hm : (movesOf f.blocks chains).moved place with
  | true => simp
  | false =>
    simp only [Bool.false_eq_true, if_false, List.mem_cons, true_and]
    refine or_congr Iff.rfl ?_
    cases htail : (movesOf f.blocks chains).tailOf place with
    | none =>
      simp only [List.not_mem_nil, false_iff]
      rintro ⟨chain, hchain, hend, -⟩
      obtain ⟨c, hc⟩ := List.getElem?_of_mem hchain
      have := (tailOf_eq_some h).mpr ⟨chain, hc, hend⟩
      rw [htail] at this
      cases this
    | some c =>
      obtain ⟨chain, hc, hend⟩ := (tailOf_eq_some h).mp htail
      have hchain : chain ∈ chains := List.mem_of_getElem? hc
      simp only [List.getD_eq_getElem?_getD, hc, Option.getD_some]
      rw [tailsOf_eq h hchain]
      simp only [List.mem_flatMap]
      constructor
      · rintro ⟨b, hb, hv⟩
        exact ⟨chain, hchain, hend, b, hb, hv⟩
      · rintro ⟨chain', hchain', hend', b, hb, hv⟩
        obtain ⟨c', hc'⟩ := List.getElem?_of_mem hchain'
        have := (tailOf_eq_some h).mpr ⟨chain', hc', hend'⟩
        obtain rfl := Option.some.inj (htail.symm.trans this)
        obtain rfl := Option.some.inj (hc.symm.trans hc')
        exact ⟨b, hb, hv⟩

/-- The new order lists the indices of the tape. -/
lemma mem_newOrder {v : ℕ} : v ∈ newOrder f.insts.length f.blocks chains ↔ v < f.insts.length := by
  rw [newOrder, List.mem_flatMap]
  constructor
  · rintro ⟨place, hplace, hv⟩
    rcases ((mem_chunk h).mp hv).2 with rfl | ⟨chain, -, -, b, -, hb⟩
    · exact List.mem_range.mp hplace
    · exact lt_of_mem_held h hb
  · intro hv
    cases hm : (movesOf f.blocks chains).moved v with
    | false => exact ⟨v, List.mem_range.mpr hv, (mem_chunk h).mpr ⟨hm, Or.inl rfl⟩⟩
    | true =>
      obtain ⟨chain, hchain, b, hb, hvb⟩ := moved_iff.mp hm
      cases hfull : fullBlocks f chain with
      | nil =>
        rw [hfull] at hb
        cases hb
      | cons base rest =>
        have hend : baseEnd f chain = some ((rangeOf f.blocks base).stop - 1) := by
          rw [baseEnd, hfull]
          rfl
        obtain ⟨base', rest', hfull', -, hheld, -⟩ := mem_held_of_baseEnd hend
        obtain ⟨rfl, rfl⟩ := List.cons.inj (hfull.symm.trans hfull')
        refine ⟨_, List.mem_range.mpr (lt_of_mem_held h hheld), (mem_chunk h).mpr
          ⟨not_moved_of_base h hchain hfull hheld, Or.inr ⟨chain, hchain, hend, b, hb, hvb⟩⟩⟩

lemma nodup_flatMap_held {l : List ℕ} (hl : l.Nodup) : (l.flatMap (held f)).Nodup := by
  rw [List.nodup_flatMap]
  refine ⟨fun b _ => InstRange.nodup_toList _, hl.imp fun hne => ?_⟩
  intro v hv hv'
  exact hne (held_unique h hv hv')

/-- The new order lists each index once. -/
lemma nodup_newOrder : (newOrder f.insts.length f.blocks chains).Nodup := by
  rw [newOrder, List.nodup_flatMap]
  constructor
  · intro place _
    rw [chunk]
    cases hm : (movesOf f.blocks chains).moved place with
    | true => simp
    | false =>
      simp only [Bool.false_eq_true, if_false]
      cases htail : (movesOf f.blocks chains).tailOf place with
      | none => simp
      | some c =>
        obtain ⟨chain, hc, hend⟩ := (tailOf_eq_some h).mp htail
        have hchain : chain ∈ chains := List.mem_of_getElem? hc
        simp only [List.getD_eq_getElem?_getD, hc, Option.getD_some]
        rw [tailsOf_eq h hchain, List.nodup_cons]
        refine ⟨?_, nodup_flatMap_held h (((nodup_chain h hchain).filter _).tail)⟩
        intro hmem
        obtain ⟨b, hb, hv⟩ := List.mem_flatMap.mp hmem
        rw [moved_of_rest hchain hb hv] at hm
        cases hm
  · refine List.nodup_range.imp fun hne => ?_
    intro v hv hv'
    obtain ⟨hm, hcase⟩ := (mem_chunk h).mp hv
    obtain ⟨hm', hcase'⟩ := (mem_chunk h).mp hv'
    rcases hcase with rfl | ⟨chain, hchain, hend, b, hb, hvb⟩
    · rcases hcase' with rfl | ⟨chain', hchain', -, b', hb', hvb'⟩
      · exact hne rfl
      · rw [moved_of_rest hchain' hb' hvb'] at hm
        cases hm
    · rcases hcase' with rfl | ⟨chain', hchain', hend', b', hb', hvb'⟩
      · rw [moved_of_rest hchain hb hvb] at hm'
        cases hm'
      · -- both indices end the first non-empty member of one chain
        obtain rfl := held_unique h hvb hvb'
        obtain ⟨c, hc⟩ := List.getElem?_of_mem hchain
        obtain ⟨c', hc'⟩ := List.getElem?_of_mem hchain'
        obtain rfl := chain_unique h hc hc' (mem_fullBlocks.mp (List.mem_of_mem_tail hb)).1
          (mem_fullBlocks.mp (List.mem_of_mem_tail hb')).1
        obtain rfl := Option.some.inj (hc.symm.trans hc')
        exact hne (Option.some.inj (hend.symm.trans hend'))

lemma length_newOrder : (newOrder f.insts.length f.blocks chains).length = f.insts.length := by
  have hperm : (newOrder f.insts.length f.blocks chains).Perm (List.range f.insts.length) := by
    rw [List.perm_ext_iff_of_nodup (nodup_newOrder h) List.nodup_range]
    intro v
    rw [mem_newOrder h, List.mem_range]
  rw [hperm.length_eq, List.length_range]

/-! ## The runs of the new order -/

/-- A block that stays contributes its instructions, and what goes behind the last of them. -/
lemma run_of_stays {b : ℕ} (hlt : (rangeOf f.blocks b).start < (rangeOf f.blocks b).stop)
    (hstay : ∀ v ∈ held f b, (movesOf f.blocks chains).moved v = false) :
    (held f b).flatMap (chunk f.blocks chains (movesOf f.blocks chains)) =
      List.range' (rangeOf f.blocks b).start
          ((rangeOf f.blocks b).stop - 1 - (rangeOf f.blocks b).start) ++
        chunk f.blocks chains (movesOf f.blocks chains) ((rangeOf f.blocks b).stop - 1) := by
  have hinner : ∀ v ∈ List.range' (rangeOf f.blocks b).start
      ((rangeOf f.blocks b).stop - 1 - (rangeOf f.blocks b).start),
      chunk f.blocks chains (movesOf f.blocks chains) v = [v] := by
    intro v hv
    have hmem : v ∈ held f b := by
      rw [held_eq_concat hlt]
      exact List.mem_append_left _ hv
    have htail : (movesOf f.blocks chains).tailOf v = none := by
      rw [Option.eq_none_iff_forall_ne_some]
      intro c hc
      obtain ⟨chain, -, hend⟩ := (tailOf_eq_some h).mp hc
      obtain ⟨base, -, -, -, hbase, hlast⟩ := mem_held_of_baseEnd hend
      obtain rfl := held_unique h hmem hbase
      have := (List.mem_range'_1.mp hv).2
      omega
    rw [chunk, hstay v hmem, htail]
    rfl
  rw [held_eq_concat hlt, List.flatMap_append, List.flatMap_singleton, List.flatMap_congr hinner,
    List.flatMap_singleton']

/-- The run of the new order at the first non-empty member of a chain is the whole chain. -/
lemma run_of_base {chain : List ℕ} {base : ℕ} {rest : List ℕ} (hchain : chain ∈ chains)
    (hfull : fullBlocks f chain = base :: rest) :
    (held f base).flatMap (chunk f.blocks chains (movesOf f.blocks chains)) =
      chain.flatMap (held f) := by
  have hlt := (mem_fullBlocks.mp (hfull ▸ List.mem_cons_self .. : base ∈ fullBlocks f chain)).2
  have hend : baseEnd f chain = some ((rangeOf f.blocks base).stop - 1) := by
    rw [baseEnd, hfull]
    rfl
  obtain ⟨c, hc⟩ := List.getElem?_of_mem hchain
  rw [run_of_stays h hlt fun v hv => not_moved_of_base h hchain hfull hv, chunk,
    not_moved_of_base h hchain hfull (last_mem_held hlt), (tailOf_eq_some h).mpr ⟨chain, hc, hend⟩,
    flatMap_held, hfull, List.flatMap_cons]
  simp only [Bool.false_eq_true, if_false, List.getD_eq_getElem?_getD, hc, Option.getD_some]
  rw [tailsOf_eq h hchain, hfull, List.tail_cons, held_eq_concat hlt, List.append_assoc,
    List.singleton_append]

/-- The run of the new order at a block of no chain is the block. -/
lemma run_of_free {b : ℕ} (hlt : (rangeOf f.blocks b).start < (rangeOf f.blocks b).stop)
    (hfree : ∀ chain ∈ chains, b ∉ chain) :
    (held f b).flatMap (chunk f.blocks chains (movesOf f.blocks chains)) = held f b := by
  have htail : (movesOf f.blocks chains).tailOf ((rangeOf f.blocks b).stop - 1) = none := by
    rw [Option.eq_none_iff_forall_ne_some]
    intro c hc
    obtain ⟨chain, hget, hend⟩ := (tailOf_eq_some h).mp hc
    obtain ⟨base, -, -, hmem, hbase, -⟩ := mem_held_of_baseEnd hend
    obtain rfl := held_unique h (last_mem_held hlt) hbase
    exact hfree chain (List.mem_of_getElem? hget) hmem
  rw [run_of_stays h hlt fun v hv => not_moved_of_free h hfree hv, chunk,
    not_moved_of_free h hfree (last_mem_held hlt), htail, held_eq_concat hlt]
  rfl

/-- What the new order says of an old index. -/
def rank (f : FunctionSsa) (chains : List (List ℕ)) (v : ℕ) : ℕ :=
  (newOrder f.insts.length f.blocks chains).idxOf v

/-- A run of the new order takes consecutive ranks, from that of its first index on. -/
lemma map_rank_run {b : ℕ} {run : List ℕ}
    (hlt : (rangeOf f.blocks b).start < (rangeOf f.blocks b).stop)
    (hrun : (held f b).flatMap (chunk f.blocks chains (movesOf f.blocks chains)) = run)
    (hstay : ∀ v ∈ held f b, (movesOf f.blocks chains).moved v = false) :
    run.map (rank f chains) =
      List.range' (rank f chains (rangeOf f.blocks b).start) run.length := by
  have hstop : (rangeOf f.blocks b).stop ≤ f.insts.length := by
    have := lt_of_mem_held h (last_mem_held hlt)
    omega
  have hsplit : List.range f.insts.length = List.range' 0 (rangeOf f.blocks b).start ++ held f b ++
      List.range' (rangeOf f.blocks b).stop (f.insts.length - (rangeOf f.blocks b).stop) := by
    have hfront := range'_sub_append (Nat.zero_le (rangeOf f.blocks b).start) hlt.le
    have hall := range'_sub_append (Nat.zero_le (rangeOf f.blocks b).stop) hstop
    rw [Nat.sub_zero, Nat.sub_zero] at hfront
    rw [Nat.sub_zero, Nat.sub_zero] at hall
    rw [held, InstRange.toList, hfront, hall, List.range_eq_range']
  have horder : newOrder f.insts.length f.blocks chains =
      (List.range' 0 (rangeOf f.blocks b).start).flatMap
          (chunk f.blocks chains (movesOf f.blocks chains)) ++ run ++
        (List.range' (rangeOf f.blocks b).stop
          (f.insts.length - (rangeOf f.blocks b).stop)).flatMap
          (chunk f.blocks chains (movesOf f.blocks chains)) := by
    rw [newOrder, hsplit, List.flatMap_append, List.flatMap_append, hrun]
  obtain ⟨p, hmap⟩ : ∃ p, run.map (rank f chains) = List.range' p run.length :=
    ⟨_, map_idxOf_eq_range' (nodup_newOrder h) horder⟩
  -- the run starts with the first index of the block
  have hhead : ∃ tail, run = (rangeOf f.blocks b).start :: tail := by
    obtain ⟨d, hd⟩ := Nat.exists_eq_add_of_lt hlt
    rw [← hrun, held, InstRange.toList, hd, Nat.add_assoc, Nat.add_sub_cancel_left,
      List.range'_succ, List.flatMap_cons, chunk, hstay _ (start_mem_held hlt)]
    exact ⟨_, rfl⟩
  obtain ⟨tail, rfl⟩ := hhead
  have hfirst : rank f chains (rangeOf f.blocks b).start = p := by
    rw [List.map_cons, List.length_cons, List.range'_succ] at hmap
    exact (List.cons.inj hmap).1
  rw [hfirst, hmap]

end

/-! ## The tables of the rewrite -/

/-- Writing one value at the places of a list. -/
lemma getElem?_foldl_set {α : Type*} {l : List ℕ} {rs : List α} {x : α} {b : ℕ} :
    (l.foldl (fun rs b => rs.set b x) rs)[b]? =
      if b ∈ l ∧ b < rs.length then some x else rs[b]? := by
  induction l generalizing rs with
  | nil => simp
  | cons a l ih =>
    rw [List.foldl_cons, ih, List.length_set, List.getElem?_set]
    by_cases hab : a = b
    · subst hab
      by_cases hlt : a < rs.length
      · simp [hlt]
      · simp [hlt]
    · have hba : b ≠ a := Ne.symm hab
      simp [hab, hba]

/-- Writing the number of each place of a list without repetition. -/
lemma getElem?_foldl_number {order : List ℕ} (hnodup : order.Nodup) {k : ℕ} {remap : List ℕ}
    {v : ℕ} : ((order.zipIdx k).foldl (fun remap p => remap.set p.1 p.2) remap)[v]? =
      if v ∈ order ∧ v < remap.length then some (k + order.idxOf v) else remap[v]? := by
  induction order generalizing k remap with
  | nil => simp
  | cons a order ih =>
    obtain ⟨ha, hnodup⟩ := List.nodup_cons.mp hnodup
    rw [List.zipIdx_cons, List.foldl_cons, ih hnodup, List.length_set, List.getElem?_set]
    by_cases hav : a = v
    · subst hav
      by_cases hlt : a < remap.length
      · simp [ha, hlt]
      · simp [hlt]
    · have hva : v ≠ a := Ne.symm hav
      rw [if_neg hav, List.idxOf_cons_ne _ hav]
      simp only [List.mem_cons, hva, false_or]
      refine if_congr Iff.rfl (congrArg some ?_) rfl
      omega

/-- The new index of each old one, as `concat` tabulates it. -/
def remapOf (f : FunctionSsa) (chains : List (List ℕ)) : List ℕ :=
  inverse f.insts.length (newOrder f.insts.length f.blocks chains)

lemma length_remapOf : (remapOf f chains).length = f.insts.length := by
  rw [remapOf, inverse, length_foldl_set, List.length_replicate]

lemma drop_foldr_cons {α : Type*} {g : α → List ℕ → ℕ} (l : List α) (acc : List ℕ) :
    (l.foldr (fun a acc => g a acc :: acc) acc).drop l.length = acc := by
  induction l with
  | nil => rfl
  | cons a l ih => exact ih

/-- Where an index lands: ahead of the first index at or past it that stays, or at the end. -/
def LandsAt (n : ℕ) (moved : ℕ → Bool) (remap : List ℕ) (s x : ℕ) : Prop :=
  x = n ∨ ∃ w, s ≤ w ∧ w < n ∧ moved w = false ∧ (∀ v, s ≤ v → v < w → moved v = true) ∧
    x = remap.getD w noValue

/-- The backward run finds the landing of each index. -/
lemma landings_spec {n : ℕ} {moved : ℕ → Bool} {remap : List ℕ} (s : ℕ) :
    LandsAt n moved remap s ((landings n moved remap).getD s n) := by
  by_cases hs : s ≤ n
  · set step : ℕ → List ℕ → List ℕ := fun place landing =>
      (if moved place then landing.headD n else remap.getD place noValue) :: landing with hstep
    have hrun : ∀ d t, LandsAt (t + d) moved remap t
        (((List.range' t d).foldr (fun place landing =>
          (if moved place then landing.headD (t + d) else remap.getD place noValue) :: landing)
          [t + d]).headD (t + d)) := by
      intro d
      induction d with
      | zero => exact fun t => Or.inl rfl
      | succ d ih =>
        intro t
        rw [List.range'_succ, List.foldr_cons, List.headD_cons]
        cases hm : moved t with
        | false =>
          exact Or.inr ⟨t, le_rfl, by omega, hm, fun v hv hv' => absurd hv (by omega), by simp⟩
        | true =>
          have hnext := ih (t + 1)
          rw [Nat.add_assoc, Nat.add_comm 1] at hnext
          rw [if_pos rfl]
          rcases hnext with hend | ⟨w, hw, hwn, hmw, hbetween, hx⟩
          · exact Or.inl hend
          · refine Or.inr ⟨w, by omega, hwn, hmw, fun v hv hv' => ?_, hx⟩
            rcases Nat.eq_or_lt_of_le hv with rfl | hlt
            · exact hm
            · exact hbetween v hlt hv'
    have hget : (landings n moved remap).getD s n =
        ((List.range' s (n - s)).foldr step [n]).headD n := by
      have hsplit := range'_sub_append (Nat.zero_le s) hs
      rw [Nat.sub_zero, Nat.sub_zero] at hsplit
      have hdrop := drop_foldr_cons (g := fun place landing =>
        if moved place then landing.headD n else remap.getD place noValue) (List.range' 0 s)
        ((List.range' s (n - s)).foldr step [n])
      rw [List.length_range'] at hdrop
      rw [landings, List.range_eq_range', ← hsplit, List.foldr_append, List.headD_eq_head?_getD]
      conv_rhs => rw [← hdrop]
      rw [List.head?_drop, List.getD_eq_getElem?_getD]
    have hspec := hrun (n - s) s
    rw [Nat.add_sub_cancel' hs] at hspec
    rw [hget]
    exact hspec
  · have hlen : (landings n moved remap).length ≤ s := by
      have hcount : ∀ l : List ℕ, (l.foldr (fun place landing =>
          (if moved place then landing.headD n else remap.getD place noValue) :: landing)
          [n]).length = l.length + 1 := by
        intro l
        induction l with
        | nil => rfl
        | cons a l ih => exact congrArg (· + 1) ih
      rw [landings, hcount, List.length_range]
      omega
    rw [List.getD_eq_getElem?_getD, List.getElem?_eq_none hlen]
    exact Or.inl rfl

lemma sum_lengths (chain : List ℕ) :
    (chain.map fun b => (rangeOf f.blocks b).stop - (rangeOf f.blocks b).start).sum =
      (chain.flatMap (held f)).length := by
  rw [List.length_flatMap]
  congr 1
  refine List.map_congr_left fun b _ => ?_
  rw [held, InstRange.toList, List.length_range']

/-- Where the head of a chain starts: with its first non-empty member, or where it stands. -/
def chainStart (f : FunctionSsa) (target : InstRange → InstRange) (ranges : List InstRange)
    (chain : List ℕ) : ℕ :=
  match fullBlocks f chain with
  | [] => (ranges.getD (chain.headD 0) ⟨0, 0⟩).start
  | base :: _ => (target (rangeOf f.blocks base)).start

/-- What `giveChain` does, with its parts under their names. -/
lemma giveChain_eq {target : InstRange → InstRange} {ranges : List InstRange} {chain : List ℕ} :
    giveChain f.blocks target ranges chain =
      ((chain.tail).foldl (fun rs b => rs.set b
        ⟨chainStart f target ranges chain + (chain.flatMap (held f)).length,
          chainStart f target ranges chain + (chain.flatMap (held f)).length⟩) ranges).set
        (chain.headD 0) ⟨chainStart f target ranges chain,
          chainStart f target ranges chain + (chain.flatMap (held f)).length⟩ := by
  have hfind : (chain.map (rangeOf f.blocks)).find? (fun r => !isEmptyRange r) =
      ((fullBlocks f chain).head?).map (rangeOf f.blocks) := by
    rw [← List.head?_filter, ← List.head?_map, ← fullRanges_eq]
    rfl
  rw [giveChain, hfind, sum_lengths, chainStart]
  cases fullBlocks f chain with
  | nil => rfl
  | cons base rest => rfl

/-- What `giveChain` leaves of the ranges. -/
lemma getElem?_giveChain {target : InstRange → InstRange} {ranges : List InstRange} {head b : ℕ}
    {rest : List ℕ} (hb : b < ranges.length) :
    (giveChain f.blocks target ranges (head :: rest))[b]? =
      if b = head then some ⟨chainStart f target ranges (head :: rest),
        chainStart f target ranges (head :: rest) + ((head :: rest).flatMap (held f)).length⟩
      else if b ∈ rest then some
        ⟨chainStart f target ranges (head :: rest) + ((head :: rest).flatMap (held f)).length,
          chainStart f target ranges (head :: rest) + ((head :: rest).flatMap (held f)).length⟩
      else ranges[b]? := by
  rw [giveChain_eq, List.headD_cons, List.tail_cons, List.getElem?_set, length_foldl_set,
    getElem?_foldl_set]
  by_cases hbh : b = head
  · subst hbh
    simp [hb]
  · rw [if_neg (Ne.symm hbh), if_neg hbh]
    exact if_congr (and_iff_left hb) rfl rfl

lemma length_giveChain {target : InstRange → InstRange} {ranges : List InstRange}
    {chain : List ℕ} : (giveChain f.blocks target ranges chain).length = ranges.length := by
  rw [giveChain_eq, List.length_set, length_foldl_set]

/-- Of a run over chains, a block sees only its own. -/
lemma getElem?_foldl_giveChain {target : InstRange → InstRange} {cs : List (List ℕ)}
    (hnodup : cs.flatten.Nodup) (hne : ∀ chain ∈ cs, chain ≠ []) {ranges : List InstRange}
    (hmem : ∀ chain ∈ cs, ∀ b ∈ chain, b < ranges.length) {b : ℕ} (hb : b < ranges.length) :
    ((∀ chain ∈ cs, b ∉ chain) →
      (cs.foldl (giveChain f.blocks target) ranges)[b]? = ranges[b]?) ∧
    ∀ chain ∈ cs, b ∈ chain → (cs.foldl (giveChain f.blocks target) ranges)[b]? =
      (giveChain f.blocks target ranges chain)[b]? := by
  induction cs generalizing ranges with
  | nil => exact ⟨fun _ => rfl, fun chain hchain => absurd hchain (by simp)⟩
  | cons first cs ih =>
    rw [List.flatten_cons, List.nodup_append] at hnodup
    obtain ⟨hfirst, hnodup, hapart⟩ := hnodup
    obtain ⟨head, rest, rfl⟩ := List.exists_cons_of_ne_nil (hne first (List.mem_cons_self ..))
    obtain ⟨ihout, ihin⟩ := ih hnodup (fun chain hc => hne chain (List.mem_cons_of_mem _ hc))
      (show ∀ chain ∈ cs, ∀ b ∈ chain,
          b < (giveChain f.blocks target ranges (head :: rest)).length from
        fun chain hc b hbc => by
          rw [length_giveChain]
          exact hmem chain (List.mem_cons_of_mem _ hc) b hbc)
      (by rw [length_giveChain]; exact hb)
    have hkeep : ∀ d < ranges.length, d ∉ head :: rest →
        (giveChain f.blocks target ranges (head :: rest))[d]? = ranges[d]? := by
      intro d hd hnot
      rw [List.mem_cons, not_or] at hnot
      rw [getElem?_giveChain hd, if_neg hnot.1, if_neg hnot.2]
    rw [List.foldl_cons]
    refine ⟨fun hout => ?_, fun chain hchain hbc => ?_⟩
    · rw [ihout fun chain hc => hout chain (List.mem_cons_of_mem _ hc)]
      exact hkeep b hb (hout _ (List.mem_cons_self ..))
    · rcases List.mem_cons.mp hchain with rfl | hchain
      · exact ihout fun chain hc hbc' =>
          hapart b hbc b (List.mem_flatten.mpr ⟨chain, hc, hbc'⟩) rfl
      · rw [ihin chain hchain hbc]
        obtain ⟨head', rest', rfl⟩ := List.exists_cons_of_ne_nil
          (hne chain (List.mem_cons_of_mem _ hchain))
        have hnot : head' ∉ head :: rest := fun hin =>
          hapart head' hin head' (List.mem_flatten.mpr ⟨_, hchain, List.mem_cons_self ..⟩) rfl
        have hlt := hmem _ (List.mem_cons_of_mem _ hchain) head' (List.mem_cons_self ..)
        have hstart : chainStart f target (giveChain f.blocks target ranges (head :: rest))
            (head' :: rest') = chainStart f target ranges (head' :: rest') := by
          rw [chainStart, chainStart]
          cases fullBlocks f (head' :: rest') with
          | nil =>
            simp only [List.headD_cons, List.getD_eq_getElem?_getD]
            rw [hkeep head' hlt hnot]
          | cons base rest'' => rfl
        have hdirect : (giveChain f.blocks target ranges (head' :: rest'))[b]? = _ :=
          getElem?_giveChain hb
        rw [getElem?_giveChain (by rw [length_giveChain]; exact hb), hdirect, hstart]
        rcases List.mem_cons.mp hbc with rfl | hrest
        · rw [if_pos rfl, if_pos rfl]
        · by_cases hbh : b = head'
          · rw [if_pos hbh, if_pos hbh]
          · rw [if_neg hbh, if_neg hbh, if_pos hrest, if_pos hrest]

/-! ## The new ranges -/

/-- The new place of a range, as `concat` computes it. -/
def targetOf (f : FunctionSsa) (chains : List (List ℕ)) : InstRange → InstRange :=
  movedTo f.insts.length (remapOf f chains)
    (landings f.insts.length (movesOf f.blocks chains).moved (remapOf f chains))

/-- The new ranges of the blocks. -/
def rangesOf (f : FunctionSsa) (chains : List (List ℕ)) : List InstRange :=
  chains.foldl (giveChain f.blocks (targetOf f chains))
    (f.blocks.map fun blk => targetOf f chains blk.instRange)

/-- The old indices of what a block holds afterwards: a block of no chain its own, the head of a
chain those of the whole chain, the other members none. -/
inductive Content (f : FunctionSsa) (chains : List (List ℕ)) : ℕ → List ℕ → Prop
  | free {b : ℕ} : (∀ chain ∈ chains, b ∉ chain) → Content f chains b (held f b)
  | head {b : ℕ} {rest : List ℕ} : b :: rest ∈ chains →
      Content f chains b ((b :: rest).flatMap (held f))
  | rest {b head : ℕ} {rest : List ℕ} : head :: rest ∈ chains → b ∈ rest → Content f chains b []

/-- A run of the new order: a block that stays, at the rank of its first instruction, and behind it
instructions that moved. -/
def IsRun (f : FunctionSsa) (chains : List (List ℕ)) (start : ℕ) (run : List ℕ) : Prop :=
  ∃ d, (rangeOf f.blocks d).start < (rangeOf f.blocks d).stop ∧
    start = rank f chains (rangeOf f.blocks d).start ∧
    (∀ v ∈ held f d, (movesOf f.blocks chains).moved v = false) ∧
    (∀ v ∈ run, v ∉ held f d → (movesOf f.blocks chains).moved v = true) ∧
    run.map (rank f chains) = List.range' start run.length

section

variable (h : Concatenable f chains)
include h

lemma getElem?_remapOf {v : ℕ} (hv : v < f.insts.length) :
    (remapOf f chains)[v]? = some (rank f chains v) := by
  rw [remapOf, inverse, getElem?_foldl_number (nodup_newOrder h), List.length_replicate,
    if_pos ⟨(mem_newOrder h).mpr hv, hv⟩, Nat.zero_add]
  rfl

lemma rank_lt {v : ℕ} (hv : v < f.insts.length) : rank f chains v < f.insts.length := by
  have hlt := List.idxOf_lt_length_of_mem ((mem_newOrder h).mpr hv)
  rw [length_newOrder h] at hlt
  exact hlt

lemma rank_inj {v w : ℕ} (hv : v < f.insts.length) (hvw : rank f chains v = rank f chains w) :
    v = w := (List.idxOf_inj ((mem_newOrder h).mpr hv)).mp hvw

/-- The range of a block with instructions moves with the first. -/
lemma targetOf_of_lt {b : ℕ} (hlt : (rangeOf f.blocks b).start < (rangeOf f.blocks b).stop) :
    targetOf f chains (rangeOf f.blocks b) =
      ⟨rank f chains (rangeOf f.blocks b).start,
        rank f chains (rangeOf f.blocks b).start + (held f b).length⟩ := by
  have hne : isEmptyRange (rangeOf f.blocks b) = false := by
    rw [isEmptyRange, decide_eq_false_iff_not]
    omega
  have hget : (remapOf f chains).getD (rangeOf f.blocks b).start f.insts.length =
      rank f chains (rangeOf f.blocks b).start := by
    rw [List.getD_eq_getElem?_getD, getElem?_remapOf h (lt_of_mem_held h (start_mem_held hlt))]
    rfl
  rw [targetOf, movedTo, hne, hget, held, InstRange.toList, List.length_range']
  rfl

/-- The run of a chain that holds instructions. -/
lemma isRun_of_base {chain : List ℕ} {base : ℕ} {rest : List ℕ} (hchain : chain ∈ chains)
    (hfull : fullBlocks f chain = base :: rest) :
    IsRun f chains (rank f chains (rangeOf f.blocks base).start) (chain.flatMap (held f)) := by
  have hlt := (mem_fullBlocks.mp (hfull ▸ List.mem_cons_self .. : base ∈ fullBlocks f chain)).2
  have hstay : ∀ v ∈ held f base, (movesOf f.blocks chains).moved v = false := fun v hv =>
    not_moved_of_base h hchain hfull hv
  refine ⟨base, hlt, rfl, hstay, ?_, map_rank_run h hlt (run_of_base h hchain hfull) hstay⟩
  intro v hv hnot
  rw [flatMap_held, hfull] at hv
  obtain ⟨b, hb, hvb⟩ := List.mem_flatMap.mp hv
  rcases List.mem_cons.mp hb with rfl | hb
  · exact absurd hvb hnot
  · exact moved_of_rest hchain (by rw [hfull]; exact hb) hvb

lemma isRun_of_free {b : ℕ} (hlt : (rangeOf f.blocks b).start < (rangeOf f.blocks b).stop)
    (hfree : ∀ chain ∈ chains, b ∉ chain) :
    IsRun f chains (rank f chains (rangeOf f.blocks b).start) (held f b) := by
  have hstay : ∀ v ∈ held f b, (movesOf f.blocks chains).moved v = false := fun v hv =>
    not_moved_of_free h hfree hv
  exact ⟨b, hlt, rfl, hstay, fun v hv hnot => absurd hv hnot,
    map_rank_run h hlt (run_of_free h hlt hfree) hstay⟩

lemma rangesOf_free {b : ℕ} (hb : b < f.blocks.length) (hfree : ∀ chain ∈ chains, b ∉ chain) :
    (rangesOf f chains)[b]? = some (targetOf f chains (rangeOf f.blocks b)) := by
  have hlen : b < (f.blocks.map fun blk => targetOf f chains blk.instRange).length := by
    rwa [List.length_map]
  rw [rangesOf, (getElem?_foldl_giveChain h.nodup h.nonempty
    (fun chain hc d hd => by rw [List.length_map]; exact h.members chain hc d hd) hlen).1 hfree,
    List.getElem?_map, List.getElem?_eq_getElem hb, rangeOf_eq (List.getElem?_eq_getElem hb)]
  rfl

/-- Where the head of a chain starts. -/
def startOf (f : FunctionSsa) (chains : List (List ℕ)) (chain : List ℕ) : ℕ :=
  chainStart f (targetOf f chains) (f.blocks.map fun blk => targetOf f chains blk.instRange) chain

/-- The members of a chain get what the chain gives them. -/
lemma rangesOf_chain {head b : ℕ} {rest : List ℕ} (hchain : head :: rest ∈ chains)
    (hb : b ∈ head :: rest) : (rangesOf f chains)[b]? =
      if b = head then some ⟨startOf f chains (head :: rest),
        startOf f chains (head :: rest) + ((head :: rest).flatMap (held f)).length⟩
      else some
        ⟨startOf f chains (head :: rest) + ((head :: rest).flatMap (held f)).length,
          startOf f chains (head :: rest) + ((head :: rest).flatMap (held f)).length⟩ := by
  have hlt := h.members _ hchain b hb
  have hlen : b < (f.blocks.map fun blk => targetOf f chains blk.instRange).length := by
    rwa [List.length_map]
  rw [rangesOf, (getElem?_foldl_giveChain h.nodup h.nonempty
    (fun chain hc d hd => by rw [List.length_map]; exact h.members chain hc d hd) hlen).2 _ hchain
    hb, getElem?_giveChain hlen]
  by_cases hbh : b = head
  · rw [if_pos hbh, if_pos hbh]
    rfl
  · rw [if_neg hbh, if_neg hbh, if_pos ((List.mem_cons.mp hb).resolve_left hbh)]
    rfl

lemma startOf_full {chain : List ℕ} {base : ℕ} {rest : List ℕ}
    (hfull : fullBlocks f chain = base :: rest) :
    startOf f chains chain = rank f chains (rangeOf f.blocks base).start := by
  have hlt := (mem_fullBlocks.mp (hfull ▸ List.mem_cons_self .. : base ∈ fullBlocks f chain)).2
  rw [startOf, chainStart, hfull]
  simp only [targetOf_of_lt h hlt]

/-- A chain without instructions starts where its head lands. -/
lemma startOf_empty {head : ℕ} {rest : List ℕ} (hchain : head :: rest ∈ chains)
    (hfull : fullBlocks f (head :: rest) = []) :
    LandsAt f.insts.length (movesOf f.blocks chains).moved (remapOf f chains)
      (rangeOf f.blocks head).start (startOf f chains (head :: rest)) := by
  have hlt := h.members _ hchain head (List.mem_cons_self ..)
  have hempty : isEmptyRange (rangeOf f.blocks head) = true := by
    by_contra hne
    have hmem : head ∈ fullBlocks f (head :: rest) :=
      List.mem_filter.mpr ⟨List.mem_cons_self .., by simpa using hne⟩
    rw [hfull] at hmem
    cases hmem
  have hstart : startOf f chains (head :: rest) =
      (landings f.insts.length (movesOf f.blocks chains).moved (remapOf f chains)).getD
        (rangeOf f.blocks head).start f.insts.length := by
    rw [startOf, chainStart, hfull]
    simp only [List.headD_cons, List.getD_eq_getElem?_getD, List.getElem?_map]
    rw [List.getElem?_eq_getElem hlt, Option.map_some, Option.getD_some,
      ← rangeOf_eq (List.getElem?_eq_getElem hlt), targetOf, movedTo, hempty,
      List.getD_eq_getElem?_getD]
    rfl
  rw [hstart]
  exact landings_spec _

/-- **The new range of a block** holds its content, as one run of the new order. -/
lemma rangesOf_spec {b : ℕ} (hb : b < f.blocks.length) :
    ∃ r content, (rangesOf f chains)[b]? = some r ∧ Content f chains b content ∧
      r.stop = r.start + content.length ∧ r.toList = content.map (rank f chains) ∧
      (content ≠ [] → IsRun f chains r.start content) := by
  have hlist : ∀ {start : ℕ} {run : List ℕ}, IsRun f chains start run →
      (⟨start, start + run.length⟩ : InstRange).toList = run.map (rank f chains) := by
    rintro start run ⟨-, -, -, -, -, hmap⟩
    rw [InstRange.toList, Nat.add_sub_cancel_left, hmap]
  have hnone : ∀ start : ℕ, (⟨start, start⟩ : InstRange).toList = [] := by
    intro start
    rw [InstRange.toList, Nat.sub_self]
    rfl
  by_cases hfree : ∀ chain ∈ chains, b ∉ chain
  · rw [rangesOf_free h hb hfree]
    by_cases hlt : (rangeOf f.blocks b).start < (rangeOf f.blocks b).stop
    · have hrun := isRun_of_free h hlt hfree
      rw [targetOf_of_lt h hlt]
      exact ⟨_, _, rfl, .free hfree, rfl, hlist hrun, fun _ => hrun⟩
    · have hempty : isEmptyRange (rangeOf f.blocks b) = true := decide_eq_true (not_lt.mp hlt)
      have hheld := held_of_empty hempty
      have hsub : (rangeOf f.blocks b).stop - (rangeOf f.blocks b).start = 0 :=
        Nat.sub_eq_zero_of_le (not_lt.mp hlt)
      refine ⟨_, _, rfl, .free hfree, ?_, ?_, fun hne => absurd hheld hne⟩
      · rw [targetOf, movedTo, hsub, hheld]
        rfl
      · rw [targetOf, movedTo, hsub, hheld]
        exact hnone _
  · push Not at hfree
    obtain ⟨chain, hchain, hbc⟩ := hfree
    obtain ⟨head, rest, rfl⟩ := List.exists_cons_of_ne_nil (h.nonempty chain hchain)
    rw [rangesOf_chain h hchain hbc]
    by_cases hbh : b = head
    · subst hbh
      rw [if_pos rfl]
      cases hfull : fullBlocks f (b :: rest) with
      | nil =>
        have hheld : (b :: rest).flatMap (held f) = [] := by rw [flatMap_held, hfull]; rfl
        refine ⟨_, _, rfl, .head hchain, rfl, ?_, fun hne => absurd hheld hne⟩
        rw [hheld]
        exact hnone _
      | cons base rest' =>
        have hrun := isRun_of_base h hchain hfull
        rw [startOf_full h hfull]
        exact ⟨_, _, rfl, .head hchain, rfl, hlist hrun, fun _ => hrun⟩
    · rw [if_neg hbh]
      exact ⟨_, [], rfl, .rest hchain ((List.mem_cons.mp hbc).resolve_left hbh), rfl, hnone _,
        fun hne => absurd rfl hne⟩

/-- Contents of different blocks are apart. -/
lemma content_unique {b c v : ℕ} {l l' : List ℕ} (hb : Content f chains b l)
    (hc : Content f chains c l') (hv : v ∈ l) (hv' : v ∈ l') : b = c := by
  have hsame : ∀ {d e : ℕ} {rest rest' : List ℕ}, d :: rest ∈ chains → e :: rest' ∈ chains →
      v ∈ (d :: rest).flatMap (held f) → v ∈ (e :: rest').flatMap (held f) → d = e := by
    intro d e rest rest' hd he hvd hve
    obtain ⟨x, hx, hvx⟩ := List.mem_flatMap.mp hvd
    obtain ⟨y, hy, hvy⟩ := List.mem_flatMap.mp hve
    obtain rfl := held_unique h hvx hvy
    obtain ⟨i, hi⟩ := List.getElem?_of_mem hd
    obtain ⟨j, hj⟩ := List.getElem?_of_mem he
    obtain rfl := chain_unique h hi hj hx hy
    exact (List.cons.inj (Option.some.inj (hi.symm.trans hj))).1
  have hfree : ∀ {d e : ℕ} {rest : List ℕ}, (∀ chain ∈ chains, d ∉ chain) → e :: rest ∈ chains →
      v ∈ held f d → v ∈ (e :: rest).flatMap (held f) → False := by
    intro d e rest hd he hvd hve
    obtain ⟨y, hy, hvy⟩ := List.mem_flatMap.mp hve
    obtain rfl := held_unique h hvd hvy
    exact hd _ he hy
  cases hb with
  | free hb =>
    cases hc with
    | free hc => exact held_unique h hv hv'
    | head hc => exact (hfree hb hc hv hv').elim
    | rest hc hmem => cases hv'
  | head hb =>
    cases hc with
    | free hc => exact (hfree hc hb hv' hv).elim
    | head hc => exact hsame hb hc hv hv'
    | rest hc hmem => cases hv'
  | rest hb hmem => cases hv

lemma lt_of_mem_content {b v : ℕ} {l : List ℕ} (hb : Content f chains b l) (hv : v ∈ l) :
    v < f.insts.length := by
  cases hb with
  | free hb => exact lt_of_mem_held h hv
  | head hb =>
    obtain ⟨x, -, hvx⟩ := List.mem_flatMap.mp hv
    exact lt_of_mem_held h hvx
  | rest hb hmem => cases hv

/-- The end of a chain that holds instructions lies strictly inside no new range. -/
lemma not_inside_of_full {head b : ℕ} {rest : List ℕ} (hchain : head :: rest ∈ chains)
    (hne : (head :: rest).flatMap (held f) ≠ []) {r r' : InstRange}
    (hr : (rangesOf f chains)[head]? = some r) (hr' : (rangesOf f chains)[b]? = some r')
    (hb : b < f.blocks.length) : ¬ (r'.start < r.stop ∧ r.stop < r'.stop) := by
  rintro ⟨hlo, hhi⟩
  have hhead := rangesOf_chain h hchain (List.mem_cons_self ..)
  rw [if_pos rfl, hr] at hhead
  obtain rfl := Option.some.inj hhead
  obtain ⟨r₀, content₀, hr₀, hc₀, -, hlist₀, -⟩ :=
    rangesOf_spec h (h.members _ hchain head (List.mem_cons_self ..))
  obtain ⟨r₁, content, hr₁, hc, -, hlist, -⟩ := rangesOf_spec h hb
  obtain rfl := Option.some.inj (hr₁.symm.trans hr')
  obtain rfl := Option.some.inj (hr₀.symm.trans hr)
  have hpos := List.length_pos_iff.mpr hne
  -- the index before the end is one of both blocks
  obtain ⟨v, hv, hvx⟩ := List.mem_map.mp (hlist₀ ▸ InstRange.mem_toList.mpr
    ⟨by simp only; omega, by simp only; omega⟩ : startOf f chains (head :: rest) +
      ((head :: rest).flatMap (held f)).length - 1 ∈ content₀.map (rank f chains))
  obtain ⟨w, hw, hwx⟩ := List.mem_map.mp (hlist ▸ InstRange.mem_toList.mpr
    ⟨by simp only at hlo; omega, by simp only at hhi; omega⟩ :
      startOf f chains (head :: rest) + ((head :: rest).flatMap (held f)).length - 1 ∈
        content.map (rank f chains))
  obtain rfl := rank_inj h (lt_of_mem_content h hc₀ hv) (hvx.trans hwx.symm)
  obtain rfl := content_unique h hc₀ hc hv hw
  obtain rfl := Option.some.inj (hr₁.symm.trans hr₀)
  exact lt_irrefl _ hhi

/-- The place of a chain without instructions, whose head sits on a block boundary, lies strictly
inside no new range. -/
lemma not_inside_of_landing {head b : ℕ} {rest : List ℕ} (hchain : head :: rest ∈ chains)
    (hfull : fullBlocks f (head :: rest) = [])
    (hboundary : atBoundary f.blocks (rangeOf f.blocks head).start = true) {r' : InstRange}
    (hr' : (rangesOf f chains)[b]? = some r') (hb : b < f.blocks.length) :
    ¬ (r'.start < startOf f chains (head :: rest) ∧ startOf f chains (head :: rest) < r'.stop) := by
  rintro ⟨hlo, hhi⟩
  obtain ⟨r₁, content, hr₁, hc, -, hlist, hrun⟩ := rangesOf_spec h hb
  obtain rfl := Option.some.inj (hr₁.symm.trans hr')
  obtain ⟨x, hx, hxstart⟩ := List.mem_map.mp (hlist ▸ InstRange.mem_toList.mpr ⟨hlo.le, hhi⟩ :
    startOf f chains (head :: rest) ∈ content.map (rank f chains))
  have hxn := lt_of_mem_content h hc hx
  rcases startOf_empty h hchain hfull with hend | ⟨w, hsw, hwn, hstay, hbetween, hw⟩
  · have := rank_lt h hxn
    omega
  · rw [List.getD_eq_getElem?_getD, getElem?_remapOf h hwn, Option.getD_some] at hw
    obtain rfl := rank_inj h hxn (hxstart.trans hw)
    -- the run of the block: the landing is one of the instructions that stay, and not the first
    obtain ⟨d, hlt, hstart, hheld, hmoved, -⟩ := hrun (List.ne_nil_of_mem hx)
    have hxd : x ∈ held f d := by
      by_contra hnot
      rw [hmoved x hx hnot] at hstay
      cases hstay
    have hfirst : x ≠ (rangeOf f.blocks d).start := by
      rintro rfl
      omega
    obtain ⟨blk, hblk, hlo', hhi'⟩ := mem_held.mp hxd
    rw [rangeOf_eq hblk] at hfirst
    have hbefore : ¬ (rangeOf f.blocks head).start ≤ x - 1 := by
      intro hle
      have hm := hbetween (x - 1) hle (by omega)
      rw [hheld (x - 1) (mem_held.mpr ⟨blk, hblk, by omega, by omega⟩)] at hm
      cases hm
    rw [atBoundary, Bool.not_eq_true', List.any_eq_false] at hboundary
    refine hboundary blk (List.mem_of_getElem? hblk) ?_
    simp only [Bool.and_eq_true, decide_eq_true_eq]
    omega

end

/-! ## The result -/

/-- `g` is `f` with its chains concatenated, and every value id renamed by `ρ`. -/
structure Concatenated (f : FunctionSsa) (chains : List (List ℕ)) (g : FunctionSsa) (ρ : ℕ → ℕ) :
    Prop where
  bijective : Function.Bijective ρ
  /-- Only the ids of the tape change. -/
  fixes : ∀ v, f.insts.length ≤ v → ρ v = v
  length : g.insts.length = f.insts.length
  insts : ∀ v inst, f.insts[v]? = some inst → g.insts[ρ v]? = some (inst.mapOperands ρ)
  tables : ∀ v < f.insts.length, g.instSrc.getD (ρ v) (0, 0) = f.instSrc.getD v (0, 0) ∧
    g.f32Values.getD (ρ v) false = f.f32Values.getD v false ∧
    g.cmp32.getD (ρ v) false = f.cmp32.getD v false ∧
    g.div32.getD (ρ v) false = f.div32.getD v false
  blocksLength : g.blocks.length = f.blocks.length
  blocks : ∀ (b : ℕ) blk, f.blocks[b]? = some blk → ∃ r : InstRange,
    r.start ≤ r.stop ∧ g.blocks[b]? = some { blk with
      instRange := r
      exitAcc := ρ blk.exitAcc
      terminator := blk.terminator.mapOperands ρ }
  /-- The first block of a chain holds the instructions of the whole chain, in chain order. -/
  heads : ∀ head rest, head :: rest ∈ chains → ∀ blk, g.blocks[head]? = some blk →
    blk.instRange.toList = ((head :: rest).flatMap (held f)).map ρ
  /-- The other members are empty, strictly inside no block. -/
  others : ∀ head rest, head :: rest ∈ chains → ∀ b ∈ rest, ∀ blk, g.blocks[b]? = some blk →
    blk.instRange.start = blk.instRange.stop ∧ atBoundary g.blocks blk.instRange.start = true
  /-- Every other block keeps its instructions. -/
  free : ∀ b, (∀ chain ∈ chains, b ∉ chain) → ∀ blk, g.blocks[b]? = some blk →
    blk.instRange.toList = (held f b).map ρ
  /-- The references that name an instruction name it by its new id. -/
  refs : ∀ table ∈ [FunctionSsa.externCallRefs, FunctionSsa.externImmCodeRefs,
      FunctionSsa.externImmDataRefs, FunctionSsa.externTlsRefs],
    (table g).filter (fun r => r.1 < f.insts.length) =
      ((table f).filter fun r => r.1 < f.insts.length).map fun r => (ρ r.1, r.2)
  /-- Nothing else changes. -/
  rest : (undoOf f).restore g = f

/-- The new id of an old one; an id past the tape stays. -/
def newId (f : FunctionSsa) (chains : List (List ℕ)) (v : ℕ) : ℕ :=
  if v < f.insts.length then rank f chains v else v

/-- The function with its new ranges, before its tape moves. -/
def withRanges (f : FunctionSsa) (chains : List (List ℕ)) : FunctionSsa :=
  { f with
    blocks := f.blocks.zipIdx.map fun p =>
      { p.1 with instRange := (rangesOf f chains).getD p.2 p.1.instRange } }

/-- The function with its new ranges and its tape in the new order. -/
def reordered (f : FunctionSsa) (chains : List (List ℕ)) : FunctionSsa :=
  let order := newOrder f.insts.length f.blocks chains
  { withRanges f chains with
    insts := order.map fun place => f.insts.getD place (.imm 0)
    instSrc := permute (0, 0) f.instSrc order
    f32Values := permute false f.f32Values order
    cmp32 := permute false f.cmp32 order
    div32 := permute false f.div32 order }

lemma concat_eq : concat f chains =
    if (newOrder f.insts.length f.blocks chains).zipIdx.all fun p => p.2 = p.1 then
      withRanges f chains
    else renumber (reordered f chains) (remapOf f chains) := rfl

section

variable (h : Concatenable f chains)
include h

/-- A new id renames the ids of the tape among themselves. -/
lemma newId_bijective : Function.Bijective (newId f chains) := by
  constructor
  · intro v w hvw
    unfold newId at hvw
    by_cases hv : v < f.insts.length <;> by_cases hw : w < f.insts.length
    · rw [if_pos hv, if_pos hw] at hvw
      exact rank_inj h hv hvw
    · rw [if_pos hv, if_neg hw] at hvw
      have := rank_lt h hv
      omega
    · rw [if_neg hv, if_pos hw] at hvw
      have := rank_lt h hw
      omega
    · rw [if_neg hv, if_neg hw] at hvw
      exact hvw
  · intro w
    by_cases hw : w < f.insts.length
    · have hlt : w < (newOrder f.insts.length f.blocks chains).length := by
        rwa [length_newOrder h]
      have hmem := (mem_newOrder h).mp (List.getElem_mem hlt)
      refine ⟨(newOrder f.insts.length f.blocks chains)[w], ?_⟩
      rw [newId, if_pos hmem, rank, (nodup_newOrder h).idxOf_getElem]
    · exact ⟨w, by rw [newId, if_neg hw]⟩

lemma renumbered_remapOf : renumbered (remapOf f chains) = newId f chains := by
  funext v
  have hsmall := h.small
  rw [renumbered, newId, length_remapOf]
  by_cases hv : v < f.insts.length
  · rw [if_pos ⟨by omega, hv⟩, if_pos hv, List.getD_eq_getElem?_getD, getElem?_remapOf h hv]
    rfl
  · rw [if_neg (fun hc => hv hc.2), if_neg hv]

/-- A permuted table has each entry under the new id. -/
lemma getD_permute {α : Type*} {dflt : α} {table : List α} {v : ℕ} (hv : v < f.insts.length) :
    (permute dflt table (newOrder f.insts.length f.blocks chains)).getD (rank f chains v) dflt =
      table.getD v dflt := by
  rw [permute]
  by_cases hempty : table.isEmpty = true
  · rw [if_pos hempty, List.isEmpty_iff.mp hempty]
    rfl
  · have hmem := (mem_newOrder h).mpr hv
    have hlt : rank f chains v < (newOrder f.insts.length f.blocks chains).length :=
      List.idxOf_lt_length_of_mem hmem
    have hget : (newOrder f.insts.length f.blocks chains)[rank f chains v] = v :=
      List.getElem_idxOf hlt
    rw [if_neg hempty, List.getD_eq_getElem?_getD, List.getElem?_map,
      List.getElem?_eq_getElem hlt, hget]
    rfl

/-- The references that name an instruction, under the new ids. -/
lemma filter_rekeyTable (table : List (ℕ × ℕ)) :
    (rekeyTable (remapOf f chains) table).filter (fun r => r.1 < f.insts.length) =
      (table.filter fun r => r.1 < f.insts.length).map fun r => (newId f chains r.1, r.2) := by
  have hsmall := h.small
  induction table with
  | nil => rfl
  | cons r table ih =>
    rw [rekeyTable] at ih ⊢
    rw [List.map_cons, List.getD_eq_getElem?_getD]
    by_cases hr : r.1 < f.insts.length
    · have hlt := rank_lt h hr
      have hsome : rank f chains r.1 ≠ noValue := by omega
      rw [getElem?_remapOf h hr, Option.getD_some, List.filter_cons_of_pos (by simpa using hsome),
        List.filter_cons_of_pos (by simpa using hlt), ih, List.filter_cons_of_pos (by simpa using hr),
        List.map_cons, newId, if_pos hr]
    · have hnone : (remapOf f chains)[r.1]? = none :=
        List.getElem?_eq_none (by rw [length_remapOf]; omega)
      rw [hnone, Option.getD_none, List.filter_cons_of_neg (by simp), ih,
        List.filter_cons_of_neg (by simpa using hr)]

/-- Where the order is the old one, the ids stay. -/
lemma newId_of_same (hsame : ((newOrder f.insts.length f.blocks chains).zipIdx.all
    fun p => p.2 = p.1) = true) : newId f chains = fun v => v := by
  funext v
  rw [newId]
  by_cases hv : v < f.insts.length
  · have hlt : v < (newOrder f.insts.length f.blocks chains).length := by rwa [length_newOrder h]
    have hmem : ((newOrder f.insts.length f.blocks chains)[v], v) ∈
        (newOrder f.insts.length f.blocks chains).zipIdx :=
      List.mem_zipIdx_iff_getElem?.mpr (List.getElem?_eq_getElem hlt)
    have hself : v = (newOrder f.insts.length f.blocks chains)[v] :=
      of_decide_eq_true (List.all_eq_true.mp hsame _ hmem)
    have hrank := (nodup_newOrder h).idxOf_getElem v hlt
    rw [← hself] at hrank
    rw [if_pos hv]
    exact hrank
  · rw [if_neg hv]

/-- A block of the result. -/
lemma getElem?_blocks_concat {b : ℕ} : (concat f chains).blocks[b]? =
    (f.blocks[b]?).map fun blk => { blk with
      instRange := (rangesOf f chains).getD b blk.instRange
      exitAcc := newId f chains blk.exitAcc
      terminator := blk.terminator.mapOperands (newId f chains) } := by
  rw [concat_eq]
  split
  · rename_i hsame
    rw [newId_of_same h hsame]
    change (List.map _ _)[b]? = _
    rw [List.getElem?_map, List.getElem?_zipIdx]
    cases f.blocks[b]? with
    | none => rfl
    | some blk => simp [Terminator.mapOperands_id]
  · change (List.map (renumberBlock _) (List.map _ _))[b]? = _
    rw [List.getElem?_map, List.getElem?_map, List.getElem?_zipIdx]
    cases f.blocks[b]? with
    | none => rfl
    | some blk =>
      simp only [Option.map_some, Nat.zero_add, renumberBlock, renumbered_remapOf h]

lemma range_of_concat {b : ℕ} {blk : Block} (hblk : (concat f chains).blocks[b]? = some blk) :
    b < f.blocks.length ∧ (rangesOf f chains)[b]? = some blk.instRange := by
  rw [getElem?_blocks_concat h] at hblk
  obtain ⟨old, hold, rfl⟩ := Option.map_eq_some_iff.mp hblk
  have hb := (List.getElem?_eq_some_iff.mp hold).1
  obtain ⟨r, -, hr, -⟩ := rangesOf_spec h hb
  refine ⟨hb, ?_⟩
  simp only [List.getD_eq_getElem?_getD, hr, Option.getD_some]

lemma content_of_concat {b : ℕ} {blk : Block} (hblk : (concat f chains).blocks[b]? = some blk) :
    ∃ content, Content f chains b content ∧
      blk.instRange.stop = blk.instRange.start + content.length ∧
      blk.instRange.toList = content.map (newId f chains) := by
  obtain ⟨hb, hr⟩ := range_of_concat h hblk
  obtain ⟨r, content, hr', hc, hstop, hlist, -⟩ := rangesOf_spec h hb
  obtain rfl := Option.some.inj (hr.symm.trans hr')
  refine ⟨content, hc, hstop, hlist.trans (List.map_congr_left fun v hv => ?_)⟩
  rw [newId, if_pos (lt_of_mem_content h hc hv)]

/-- An instruction of the result. -/
lemma insts_of_concat {v : ℕ} {inst : Inst} (hinst : f.insts[v]? = some inst) :
    (concat f chains).insts[newId f chains v]? = some (inst.mapOperands (newId f chains)) := by
  have hv := (List.getElem?_eq_some_iff.mp hinst).1
  rw [concat_eq]
  split
  · rename_i hsame
    rw [newId_of_same h hsame, Inst.mapOperands_id]
    exact hinst
  · have hlt : rank f chains v < (newOrder f.insts.length f.blocks chains).length :=
      List.idxOf_lt_length_of_mem ((mem_newOrder h).mpr hv)
    have hget : (newOrder f.insts.length f.blocks chains)[rank f chains v] = v :=
      List.getElem_idxOf hlt
    change (List.map _ (List.map _ (newOrder f.insts.length f.blocks chains)))[_]? = _
    rw [List.getElem?_map, List.getElem?_map, renumbered_remapOf h, newId, if_pos hv,
      List.getElem?_eq_getElem hlt, hget, Option.map_some, Option.map_some,
      List.getD_eq_getElem?_getD, hinst]
    rfl

/-- The tables parallel to the tape move with it. -/
lemma tables_of_concat {v : ℕ} (hv : v < f.insts.length) :
    (concat f chains).instSrc.getD (newId f chains v) (0, 0) = f.instSrc.getD v (0, 0) ∧
    (concat f chains).f32Values.getD (newId f chains v) false = f.f32Values.getD v false ∧
    (concat f chains).cmp32.getD (newId f chains v) false = f.cmp32.getD v false ∧
    (concat f chains).div32.getD (newId f chains v) false = f.div32.getD v false := by
  rw [concat_eq]
  split
  · rename_i hsame
    rw [newId_of_same h hsame]
    exact ⟨rfl, rfl, rfl, rfl⟩
  · rw [newId, if_pos hv]
    exact ⟨getD_permute h hv, getD_permute h hv, getD_permute h hv, getD_permute h hv⟩

/-- The references follow the instructions they name. -/
lemma refs_of_concat : ∀ table ∈ [FunctionSsa.externCallRefs, FunctionSsa.externImmCodeRefs,
      FunctionSsa.externImmDataRefs, FunctionSsa.externTlsRefs],
    (table (concat f chains)).filter (fun r => r.1 < f.insts.length) =
      ((table f).filter fun r => r.1 < f.insts.length).map
        fun r => (newId f chains r.1, r.2) := by
  rw [concat_eq]
  split
  · rename_i hsame
    rw [newId_of_same h hsame]
    intro table hmem
    simp only [Prod.mk.eta, List.map_id']
    simp only [List.mem_cons, List.not_mem_nil, or_false] at hmem
    rcases hmem with rfl | rfl | rfl | rfl <;> rfl
  · intro table hmem
    simp only [List.mem_cons, List.not_mem_nil, or_false] at hmem
    rcases hmem with rfl | rfl | rfl | rfl <;> exact filter_rekeyTable h _

/-- The other members of a chain are left on a block boundary. -/
lemma others_of_concat
    (hboundary : ∀ head rest, head :: rest ∈ chains → fullBlocks f (head :: rest) = [] →
      atBoundary f.blocks (rangeOf f.blocks head).start = true)
    {head b : ℕ} {rest : List ℕ} (hchain : head :: rest ∈ chains) (hb : b ∈ rest) {blk : Block}
    (hblk : (concat f chains).blocks[b]? = some blk) :
    blk.instRange.start = blk.instRange.stop ∧
      atBoundary (concat f chains).blocks blk.instRange.start = true := by
  obtain ⟨-, hr⟩ := range_of_concat h hblk
  have hnodup := nodup_chain h hchain
  have hbh : b ≠ head := by
    rintro rfl
    exact (List.nodup_cons.mp hnodup).1 hb
  rw [rangesOf_chain h hchain (List.mem_cons_of_mem _ hb), if_neg hbh] at hr
  have hrange := Option.some.inj hr
  rw [← hrange]
  refine ⟨rfl, ?_⟩
  rw [atBoundary, Bool.not_eq_true', List.any_eq_false]
  intro blk' hmem
  obtain ⟨c, hblk'⟩ := List.getElem?_of_mem hmem
  obtain ⟨hc, hr'⟩ := range_of_concat h hblk'
  simp only [Bool.and_eq_true, decide_eq_true_eq]
  by_cases hempty : (head :: rest).flatMap (held f) = []
  · have hfull : fullBlocks f (head :: rest) = [] := by
      rw [List.eq_nil_iff_forall_not_mem]
      intro d hd
      have hmem := start_mem_held (mem_fullBlocks.mp hd).2
      rw [flatMap_held] at hempty
      exact List.ne_nil_of_mem (List.mem_flatMap.mpr ⟨d, hd, hmem⟩) hempty
    have hout := not_inside_of_landing h hchain hfull (hboundary head rest hchain hfull) hr' hc
    rw [hempty]
    exact hout
  · have hhead := rangesOf_chain h hchain (List.mem_cons_self ..)
    rw [if_pos rfl] at hhead
    exact not_inside_of_full h hchain hempty hhead hr' hc

/-- **A concatenation is a permutation**: the first block of each chain gets exactly the
instructions of the chain, in chain order, the other members are left empty on a block boundary,
every other block keeps its instructions, and one bijection renames every value id. -/
theorem concat_permutes
    (hboundary : ∀ head rest, head :: rest ∈ chains → fullBlocks f (head :: rest) = [] →
      atBoundary f.blocks (rangeOf f.blocks head).start = true) :
    Concatenated f chains (concat f chains) (newId f chains) where
  bijective := newId_bijective h
  fixes v hv := if_neg (not_lt.mpr hv)
  length := by
    rw [concat_eq]
    split
    · rfl
    · change (List.map _ (List.map _ (newOrder f.insts.length f.blocks chains))).length = _
      rw [List.length_map, List.length_map, length_newOrder h]
  insts v inst hinst := insts_of_concat h hinst
  tables v hv := tables_of_concat h hv
  blocksLength := by
    rw [concat_eq]
    split
    · simp [withRanges]
    · simp [renumber, rekey, reordered, withRanges]
  blocks b blk hblk := by
    have hget := getElem?_blocks_concat h (b := b)
    rw [hblk, Option.map_some] at hget
    obtain ⟨content, -, hstop, -⟩ := content_of_concat h hget
    exact ⟨_, Nat.le.intro hstop.symm, hget⟩
  heads head rest hchain blk hblk := by
    obtain ⟨content, hc, -, hlist⟩ := content_of_concat h hblk
    rw [hlist]
    cases hc with
    | free hfree => exact absurd (List.mem_cons_self ..) (hfree _ hchain)
    | @head rest' hchain' =>
      obtain ⟨i, hi⟩ := List.getElem?_of_mem hchain
      obtain ⟨j, hj⟩ := List.getElem?_of_mem hchain'
      obtain rfl := chain_unique h hi hj (List.mem_cons_self ..) (List.mem_cons_self ..)
      rw [Option.some.inj (hi.symm.trans hj)]
    | @rest head' rest' hchain' hmem' =>
      obtain ⟨i, hi⟩ := List.getElem?_of_mem hchain
      obtain ⟨j, hj⟩ := List.getElem?_of_mem hchain'
      obtain rfl := chain_unique h hi hj (List.mem_cons_self ..) (List.mem_cons_of_mem _ hmem')
      obtain ⟨rfl, rfl⟩ := List.cons.inj (Option.some.inj (hi.symm.trans hj))
      exact absurd hmem' (List.nodup_cons.mp (nodup_chain h hchain)).1
  others head rest hchain b hb blk hblk := others_of_concat h hboundary hchain hb hblk
  free b hfree blk hblk := by
    obtain ⟨content, hc, -, hlist⟩ := content_of_concat h hblk
    rw [hlist]
    cases hc with
    | free _ => rfl
    | head hchain => exact absurd (List.mem_cons_self ..) (hfree _ hchain)
    | rest hchain hmem => exact absurd (List.mem_cons_of_mem _ hmem) (hfree _ hchain)
  refs := refs_of_concat h
  rest := by
    rw [concat_eq]
    split <;> rfl

end

/-- Three blocks, the first and the last of which are a chain. -/
def aroundBlock : FunctionSsa where
  insts := [.imm 1, .neg 3, .copy 1 false, .neg 0]
  instSrc := [(1, 10), (1, 11), (1, 12), (1, 13)]
  blocks :=
    [{ instRange := ⟨0, 1⟩, terminator := .jmp 2 },
      { instRange := ⟨1, 3⟩, terminator := .ret 2, exitAcc := 2 },
      { instRange := ⟨3, 4⟩, terminator := .jmp 1, exitAcc := 3 }]
  externCallRefs := [(1, 7), (3, 8)]

/-- A chain around another block moves past it. -/
theorem concat_permutes_around :
    Concatenated aroundBlock [[0, 2]] (concat aroundBlock [[0, 2]])
      (newId aroundBlock [[0, 2]]) := by
  refine concat_permutes ⟨?_, ?_, by decide, by decide, by decide, by decide⟩ ?_
  · intro b blk hblk
    have hmem := List.mem_of_getElem? hblk
    simp only [aroundBlock, List.mem_cons, List.not_mem_nil, or_false] at hmem
    rcases hmem with rfl | rfl | rfl <;> decide
  · rintro v b c ⟨blk, hblk, hlo, hhi⟩ ⟨blk', hblk', hlo', hhi'⟩
    rcases b with _ | _ | _ | b <;> rcases c with _ | _ | _ | c <;>
      simp [aroundBlock] at hblk hblk' <;> subst hblk <;> subst hblk' <;>
      simp at hlo hhi hlo' hhi' <;> omega
  · intro head rest hchain hfull
    simp only [List.mem_cons, List.cons.injEq, List.not_mem_nil, or_false] at hchain
    obtain ⟨rfl, rfl⟩ := hchain
    exact absurd hfull (by decide)

/-- Two empty blocks strictly inside another. -/
def insideBlock : FunctionSsa where
  insts := [.imm 1, .neg 0]
  blocks :=
    [{ instRange := ⟨0, 2⟩, terminator := .jmp 1 },
      { instRange := ⟨1, 1⟩, terminator := .jmp 2 },
      { instRange := ⟨1, 1⟩, terminator := .ret 1 }]

/-- The members of a chain without instructions stay strictly inside another block, where its head
is: nothing moves, and the chain is left where the head stood. -/
theorem concat_leaves_inside :
    Concatenable insideBlock [[1, 2]] ∧
      ¬ ∃ ρ, Concatenated insideBlock [[1, 2]] (concat insideBlock [[1, 2]]) ρ := by
  refine ⟨⟨?_, ?_, by decide, by decide, by decide, by decide⟩, ?_⟩
  · intro b blk hblk
    have hmem := List.mem_of_getElem? hblk
    simp only [insideBlock, List.mem_cons, List.not_mem_nil, or_false] at hmem
    rcases hmem with rfl | rfl | rfl <;> decide
  · rintro v b c ⟨blk, hblk, hlo, hhi⟩ ⟨blk', hblk', hlo', hhi'⟩
    rcases b with _ | _ | _ | b <;> rcases c with _ | _ | _ | c <;>
      simp [insideBlock] at hblk hblk' <;> subst hblk <;> subst hblk' <;>
      simp at hlo hhi hlo' hhi' <;> omega
  · rintro ⟨ρ, hρ⟩
    have hblk : (concat insideBlock [[1, 2]]).blocks[2]? =
        some { instRange := ⟨1, 1⟩, terminator := .ret 1 } := by decide
    have hat := (hρ.others 1 [2] (by decide) 2 (by decide) _ hblk).2
    exact absurd hat (by decide)

end Tape

end Badc
