import Badc.Lib.Listing
import Badc.Ssa.RepairApply

/-!
# A repair finds the reaching definition

After a repair the phis it put in read, on every path from the entry, the value the last definition
of their item had when the path took it (`Applied.reads`), and so does every read that was renamed.
`Repaired` says this of a whole function, and `repair_spec` that `repair` does it, or leaves the
function alone.
-/

namespace Badc

namespace Repair

open Reaching

/-! ## Reading through the phis -/

/-- Whether block `b` holds the instruction `u`. -/
def holds (g : FunctionSsa) (b u : ℕ) : Bool :=
  (g.blocks[b]?).any fun blk => blk.instRange.start ≤ u && u < blk.instRange.stop

lemma holds_iff {g : FunctionSsa} {b u : ℕ} : holds g b u = true ↔ InBlock g u b := by
  simp only [holds, Option.any_eq_true, Bool.and_eq_true, decide_eq_true_eq, InBlock]

/-- What the phi `u` takes over the edge from block `a`. -/
def takes (g : FunctionSsa) (u a : ℕ) : Option ℕ :=
  match g.insts[u]? with
  | some (.phi incoming _) => incoming.lookup a
  | _ => none

/-- What a read of `u` at the end of a path gives.  A phi of `new` has what it took over the edge on
which the path last entered its block, any other instruction the value `val` gives it. -/
def readAt {ω : Type} (g : FunctionSsa) (new : List ℕ) (val : List ℕ → ℕ → ω) :
    List ℕ → ℕ → Option ω
  | b :: a :: π, u =>
    if u ∈ new then
      if holds g b u then (takes g u a).bind (readAt g new val (a :: π))
      else readAt g new val (a :: π) u
    else some (val (b :: a :: π) u)
  | π, u => if u ∈ new then none else some (val π u)

/-- A path gives an instruction a new value only in the block that holds it. -/
def Framed {ω : Type} (g : FunctionSsa) (val : List ℕ → ℕ → ω) : Prop :=
  ∀ a b π u, ¬ InBlock g u b → val (b :: a :: π) u = val (a :: π) u

lemma readAt_of_notMem {ω : Type} {g : FunctionSsa} {new : List ℕ} {val : List ℕ → ℕ → ω} {u : ℕ}
    (hu : u ∉ new) (π : List ℕ) : readAt g new val π u = some (val π u) := by
  match π with
  | [] => rw [readAt, if_neg hu]; simp
  | [b] => rw [readAt, if_neg hu]; simp
  | b :: a :: π => rw [readAt, if_neg hu]

/-- The block that holds an instruction. -/
def blockOf (f : FunctionSsa) (v : ℕ) : ℕ :=
  f.blocks.findIdx fun blk => blk.instRange.start ≤ v && v < blk.instRange.stop

lemma blockOf_eq {f : FunctionSsa} (ht : TapeOk f) {v b : ℕ} (h : InBlock f v b) :
    blockOf f v = b := by
  obtain ⟨blk, hblk, hin⟩ := h
  have hlt : blockOf f v < f.blocks.length :=
    List.findIdx_lt_length_of_exists ⟨blk, List.mem_of_getElem? hblk, by simpa using hin⟩
  have hfound := List.findIdx_getElem (w := hlt)
  simp only [Bool.and_eq_true, decide_eq_true_eq] at hfound
  exact ht.disjoint v _ _ ⟨_, List.getElem?_eq_getElem hlt, hfound⟩ ⟨blk, hblk, hin⟩

/-- The new id of an old instruction. -/
def newId (rw : Tape.Rewrite) (v : ℕ) : ℕ := rw.remap.getD v noValue

/-! ## What is handed to a repair -/

/-- What the items handed to a repair keep: different values, each held by a home block; a value on an
edge is none of them, is computed on every path to the edge, and the edge leaves no home block.  The
entry has no predecessor. -/
structure Promised (f : FunctionSsa) (preds : List (List ℕ)) (items : List Redefined) : Prop where
  nodup : (items.map Redefined.value).Nodup
  lt : ∀ r ∈ items, ∀ v ∈ values r, v < f.insts.length
  home : ∀ r ∈ items, ∃ b ∈ r.home, InBlock f r.value b
  edgeHome : ∀ r ∈ items, ∀ e ∈ r.edges, e.1 ∉ r.home
  edgeValue : ∀ r ∈ items, ∀ e ∈ r.edges, ∀ r' ∈ items, e.2.2 ≠ r'.value
  edgeBlock : ∀ r ∈ items, ∀ e ∈ r.edges, ∃ b, InBlock f e.2.2 b ∧
    ∀ π, PathFrom (Pred preds) 0 (e.1 :: π) → b ∈ e.1 :: π
  entry : ∀ a, ¬ Pred preds a 0

/-- What a read of `o` in block `b` has become: where the item of that value has `b` outside its home,
on every path from the entry it gives the value of the last definition, as it was when the path took
it; elsewhere it reads what it did. -/
def ReadsIn (preds : List (List ℕ)) (items : List Redefined) (g : FunctionSsa) (rw : Tape.Rewrite)
    (b o u : ℕ) : Prop :=
  (∀ r ∈ items, r.value = o → b ∉ r.home → ∀ (ω : Type) (val : List ℕ → ℕ → ω), Framed g val →
    ∀ π, PathFrom (Pred preds) 0 (b :: π) → ∃ y,
      lastValue (carries r) (fun π v => val π (newId rw v)) (b :: π) = some y ∧
      readAt g rw.ids val (b :: π) u = some y) ∧
    ((∀ r ∈ items, r.value = o → b ∈ r.home) → u = rw.rename o)

/-- What the entry of a phi of block `b` from `q` has become: on every path that comes over that edge
it gives, at the end of `q`, the value of the last definition, that of the edge included. -/
def ReadsOver (preds : List (List ℕ)) (items : List Redefined) (g : FunctionSsa)
    (rw : Tape.Rewrite) (q b o u : ℕ) : Prop :=
  (∀ r ∈ items, r.value = o → ∀ (ω : Type) (val : List ℕ → ℕ → ω), Framed g val →
    ∀ π, PathFrom (Pred preds) 0 (b :: q :: π) → ∃ y,
      lastValue (carries r) (fun π v => val π (newId rw v)) (b :: q :: π) = some y ∧
      readAt g rw.ids val (q :: π) u = some y) ∧
    ((∀ r ∈ items, r.value ≠ o) → u = rw.rename o)

/-- `g` is `f` repaired: the old instructions under new ids, in their blocks, each read of an item
giving its last definition, and phis put in at the starts of blocks with one entry for each
predecessor. -/
structure Repaired (f : FunctionSsa) (preds : List (List ℕ)) (items : List Redefined)
    (g : FunctionSsa) (rw : Tape.Rewrite) : Prop where
  each : (rw.remap ++ rw.ids).Perm (List.range g.insts.length)
  length : rw.remap.length = f.insts.length
  blocks : g.blocks.length = f.blocks.length
  inBlock : ∀ v b, v < f.insts.length → (InBlock g (newId rw v) b ↔ InBlock f v b)
  inst : ∀ (i b : ℕ) inst, InBlock f i b → f.insts[i]? = some inst → inst.isPhi = false →
    ∃ σ, g.insts[newId rw i]? = some (inst.mapOperands σ) ∧
      ∀ o ∈ inst.operands, ReadsIn preds items g rw b o (σ o)
  phi : ∀ (i b : ℕ) incoming kind, InBlock f i b → f.insts[i]? = some (.phi incoming kind) →
    ∃ σ : ℕ → ℕ → ℕ,
      g.insts[newId rw i]? = some (.phi (incoming.map fun p => (p.1, σ p.1 p.2)) kind) ∧
      ∀ p ∈ incoming, ReadsOver preds items g rw p.1 b p.2 (σ p.1 p.2)
  ends : ∀ (b : ℕ) blk, f.blocks[b]? = some blk → ∃ r σ,
    g.blocks[b]? = some { blk with
      instRange := r, exitAcc := σ blk.exitAcc, terminator := blk.terminator.mapOperands σ } ∧
    ∀ o ∈ blk.terminator.operands ++ [blk.exitAcc], ReadsIn preds items g rw b o (σ o)
  inserted : ∀ u ∈ rw.ids, ∃ b incoming kind, g.insts[u]? = some (.phi incoming kind) ∧
    InBlock g u b ∧ (∀ v, InBlock f v b → u < newId rw v) ∧
    (incoming.map Prod.fst).Nodup ∧ ∀ q, q ∈ incoming.map Prod.fst ↔ Pred preds q b

/-- An application of plans: what was promised, and what the plans are. -/
structure Applied (f : FunctionSsa) (preds : List (List ℕ)) (items : List Redefined)
    (plans : List Plan) (nodes : ℕ → List (ℕ × List (ℕ × Source)))
    (same : ℕ → List (ℕ × Source)) : Prop where
  tape : TapeOk f
  graph : PredsOk f preds
  promised : Promised f preds items
  small : f.insts.length + items.length * f.blocks.length ≤ noValue
  length : plans.length = items.length
  planned : ∀ (k : ℕ) r p, items[k]? = some r → plans[k]? = some p →
    Planned f preds (reachable f preds) r p (nodes k) (same k)

/-- The phis to insert, in their order. -/
abbrev insertions (f : FunctionSsa) (items : List Redefined) (plans : List Plan) :
    List Tape.Insertion := (placements f items plans).map fun p => p.2.2

/-- The ids after they are inserted. -/
abbrev rewriting (f : FunctionSsa) (items : List Redefined) (plans : List Plan) : Tape.Rewrite :=
  Tape.rewriteOf f (insertions f items plans)

/-- The new id of an item's source. -/
abbrev sourceId (f : FunctionSsa) (items : List Redefined) (plans : List Plan) (k : ℕ) (s : Source) :
    ℕ := idOf (rewriting f items plans) (placements f items plans) k s

/-- The edits of the function with the phis inserted. -/
abbrev allEdits (f : FunctionSsa) (items : List Redefined) (plans : List Plan) : List Edit :=
  edits (rewriting f items plans) (placements f items plans) items plans

section

variable {f : FunctionSsa} {preds : List (List ℕ)} {items : List Redefined} {plans : List Plan}
  {nodes : ℕ → List (ℕ × List (ℕ × Source))} {same : ℕ → List (ℕ × Source)}
  (h : Applied f preds items plans nodes same)
include h

namespace Applied

lemma exists_item {k : ℕ} {p : Plan} (hp : plans[k]? = some p) : ∃ r, items[k]? = some r := by
  have hlt := (List.getElem?_eq_some_iff.mp hp).1
  rw [h.length] at hlt
  exact ⟨_, List.getElem?_eq_getElem hlt⟩

lemma exists_plan {k : ℕ} {r : Redefined} (hr : items[k]? = some r) : ∃ p, plans[k]? = some p := by
  have hlt := (List.getElem?_eq_some_iff.mp hr).1
  rw [← h.length] at hlt
  exact ⟨_, List.getElem?_eq_getElem hlt⟩

lemma nodup_phis : ∀ p ∈ plans, (p.phis.map Prod.fst).Nodup := by
  intro p hp
  obtain ⟨k, hk⟩ := List.mem_iff_getElem?.mp hp
  obtain ⟨r, hr⟩ := h.exists_item hk
  exact (h.planned k r p hr hk).nodup_phis

lemma phi_lt : ∀ p ∈ plans, ∀ b ∈ p.phis.map Prod.fst, b < f.blocks.length := by
  intro p hp
  obtain ⟨k, hk⟩ := List.mem_iff_getElem?.mp hp
  obtain ⟨r, hr⟩ := h.exists_item hk
  exact (h.planned k r p hr hk).phi_lt h.graph

lemma insertable : Tape.Insertable f (insertions f items plans) := by
  refine insertable_placements h.tape h.phi_lt (le_trans (Nat.add_le_add_left ?_ _) h.small)
  refine length_placements fun p hp => ?_
  have hsub : (p.phis.map Prod.fst).Subperm (List.range f.blocks.length) :=
    (h.nodup_phis p hp).subperm fun b hb => List.mem_range.mpr (h.phi_lt p hp b hb)
  simpa using hsub.length_le

lemma relabelled : Tape.Relabelled f (insertions f items plans)
    (Tape.insert f (insertions f items plans)).1 (rewriting f items plans) :=
  Tape.relabelled_insert h.insertable

lemma apply_eq : apply f items plans =
    (allEdits f items plans).foldl Edit.apply (Tape.insert f (insertions f items plans)).1 := by
  rw [Repair.apply_eq, Tape.insert_rewrite h.insertable]

lemma newId_get {v : ℕ} (hv : v < f.insts.length) :
    (rewriting f items plans).remap[v]? = some (newId (rewriting f items plans) v) := by
  rw [← h.relabelled.remapLength] at hv
  rw [newId, List.getD_eq_getElem?_getD, List.getElem?_eq_getElem hv]
  rfl

lemma newId_inj {v w : ℕ} (hv : v < f.insts.length) (hw : w < f.insts.length)
    (heq : newId (rewriting f items plans) v = newId (rewriting f items plans) w) : v = w := by
  have hnodup : (rewriting f items plans).remap.Nodup :=
    h.relabelled.remapAscends.imp fun hlt => ne_of_lt hlt
  have hget := h.newId_get hv
  rw [heq, ← h.newId_get hw] at hget
  exact (List.getElem?_inj (h.relabelled.remapLength.symm ▸ hv) hnodup).mp hget

/-- The new id of an instruction is none of an inserted phi. -/
lemma newId_notMem (v : ℕ) : newId (rewriting f items plans) v ∉ (rewriting f items plans).ids := by
  intro hmem
  have hnodup := h.relabelled.each.nodup_iff.mpr List.nodup_range
  by_cases hv : v < f.insts.length
  · exact (List.disjoint_of_nodup_append hnodup) (List.mem_of_getElem? (h.newId_get hv)) hmem
  · have hnone : newId (rewriting f items plans) v = noValue := by
      have hlen := h.relabelled.remapLength
      rw [newId, List.getD_eq_getElem?_getD, List.getElem?_eq_none (by omega)]
      rfl
    rw [hnone] at hmem
    exact Tape.id_ne_noValue h.insertable _ (List.mem_append_right _ hmem) rfl

lemma rename_eq {v : ℕ} (hv : v < f.insts.length) :
    (rewriting f items plans).rename v = newId (rewriting f items plans) v :=
  h.relabelled.renameOld v _ (h.newId_get hv)

/-- A block holds its old instructions under their new ids. -/
lemma inBlock_newId {v b : ℕ} (hv : v < f.insts.length) :
    InBlock (apply f items plans) (newId (rewriting f items plans) v) b ↔ InBlock f v b := by
  rw [h.apply_eq, inBlock_foldl]
  have hrel := h.relabelled
  constructor
  · rintro ⟨blk', hblk', hin⟩
    have hb : b < f.blocks.length := by
      rw [← hrel.blocksLength]
      exact (List.getElem?_eq_some_iff.mp hblk').1
    obtain ⟨r, hget, -, -, hids⟩ := hrel.blocks b _ (List.getElem?_eq_getElem hb)
    obtain rfl := Option.some.inj (hget.symm.trans hblk')
    have hmem := InstRange.mem_toList.mpr hin
    have hnot : ∀ p, newId (rewriting f items plans) v ∉
        (rewriting f items plans).idsAt (insertions f items plans) p := by
      intro p hp
      obtain ⟨q, hq, hid⟩ := List.mem_map.mp hp
      exact h.newId_notMem v (hid ▸ (List.of_mem_zip (List.mem_of_mem_filter hq)).2)
    rw [hids, Tape.Rewrite.blockIds] at hmem
    split at hmem
    · exact absurd hmem (hnot _)
    · obtain ⟨k, hk, hmem⟩ := List.mem_flatMap.mp hmem
      simp only [List.mem_append, hnot, false_or, or_false, Option.mem_toList] at hmem
      have hlt : k < f.insts.length := by
        rw [← hrel.remapLength]
        exact (List.getElem?_eq_some_iff.mp hmem).1
      obtain rfl := h.newId_inj hlt hv (Option.some.inj ((h.newId_get hlt).symm.trans hmem))
      exact ⟨_, List.getElem?_eq_getElem hb, InstRange.mem_toList.mp hk⟩
  · rintro ⟨blk, hblk, hin⟩
    obtain ⟨r, hget, -, -, hids⟩ := hrel.blocks b blk hblk
    refine ⟨_, hget, InstRange.mem_toList.mp ?_⟩
    rw [hids, Tape.Rewrite.blockIds, if_neg (by omega)]
    refine List.mem_flatMap.mpr ⟨v, InstRange.mem_toList.mpr hin, ?_⟩
    rw [h.newId_get hv]
    simp

/-! ## The phis put in -/

/-- The phi of an item in a block. -/
lemma exists_insertion {k b : ℕ} {r : Redefined} {p : Plan} (hr : items[k]? = some r)
    (hp : plans[k]? = some p) (hb : b ∈ p.phis.map Prod.fst) :
    ∃ j : ℕ, (placements f items plans)[j]? = some (k, b, insertionFor f r b) ∧
      (rewriting f items plans).ids[j]? = some (sourceId f items plans k (.entry b)) := by
  have hmem : (k, b, insertionFor f r b) ∈ placements f items plans :=
    mem_placements.mpr ⟨r, p, hr, hp, hb, rfl⟩
  have hget := getElem?_slotOf h.nodup_phis hmem
  have hlt : slotOf (placements f items plans) k b < (rewriting f items plans).ids.length := by
    rw [h.relabelled.idsLength, List.length_map]
    exact (List.getElem?_eq_some_iff.mp hget).1
  refine ⟨_, hget, ?_⟩
  rw [sourceId, idOf, List.getD_eq_getElem?_getD, List.getElem?_eq_getElem hlt]
  rfl

lemma sourceId_mem {k b : ℕ} {r : Redefined} {p : Plan} (hr : items[k]? = some r)
    (hp : plans[k]? = some p) (hb : b ∈ p.phis.map Prod.fst) :
    sourceId f items plans k (.entry b) ∈ (rewriting f items plans).ids := by
  obtain ⟨j, -, hid⟩ := h.exists_insertion hr hp hb
  exact List.mem_of_getElem? hid

/-- Different phis have different ids. -/
lemma sourceId_inj {k b k' b' : ℕ} {r r' : Redefined} {p p' : Plan} (hr : items[k]? = some r)
    (hp : plans[k]? = some p) (hb : b ∈ p.phis.map Prod.fst) (hr' : items[k']? = some r')
    (hp' : plans[k']? = some p') (hb' : b' ∈ p'.phis.map Prod.fst)
    (heq : sourceId f items plans k (.entry b) = sourceId f items plans k' (.entry b')) :
    k = k' ∧ b = b' := by
  obtain ⟨j, hj, hid⟩ := h.exists_insertion hr hp hb
  obtain ⟨j', hj', hid'⟩ := h.exists_insertion hr' hp' hb'
  have hnodup : (rewriting f items plans).ids.Nodup :=
    h.relabelled.idsAscend.imp fun hlt => ne_of_lt hlt
  have hlt := (List.getElem?_eq_some_iff.mp hid).1
  rw [heq, ← hid'] at hid
  obtain rfl := (List.getElem?_inj hlt hnodup).mp hid
  have heq' := Option.some.inj (hj.symm.trans hj')
  exact ⟨(Prod.mk.inj heq').1, (Prod.mk.inj (Prod.mk.inj heq').2).1⟩

/-- A phi stands at the start of its block. -/
lemma phi_inBlock {k b : ℕ} {r : Redefined} {p : Plan} (hr : items[k]? = some r)
    (hp : plans[k]? = some p) (hb : b ∈ p.phis.map Prod.fst) :
    InBlock (apply f items plans) (sourceId f items plans k (.entry b)) b ∧
      ∀ v, InBlock f v b → sourceId f items plans k (.entry b) < newId (rewriting f items plans) v := by
  obtain ⟨j, hj, hid⟩ := h.exists_insertion hr hp hb
  have hins : (insertions f items plans)[j]? = some (insertionFor f r b) := by
    rw [List.getElem?_map, hj]
    rfl
  have hlt := h.phi_lt p (List.mem_of_getElem? hp) b hb
  have hblk : f.blocks[b]? = some f.blocks[b] := List.getElem?_eq_getElem hlt
  have hrange := h.tape.range b _ hblk
  have hrel := h.relabelled
  constructor
  · rw [h.apply_eq, inBlock_foldl]
    refine hrel.inside j _ b _ hins hid ?_
    rw [insertionFor]
    dsimp only
    split
    · exact rfl
    · rename_i hfull
      rw [Tape.rangeOf_eq hblk] at hfull ⊢
      exact ⟨_, hblk, le_rfl, by omega⟩
  · rintro v ⟨blk, hblk', hlo, hhi⟩
    obtain rfl := Option.some.inj (hblk.symm.trans hblk')
    have hplace : (insertionFor f r b).place = .before f.blocks[b].instRange.start := by
      rw [insertionFor]
      dsimp only
      rw [Tape.rangeOf_eq hblk, if_neg (by omega)]
    have hstart : f.blocks[b].instRange.start < f.insts.length := by omega
    have hv : v < f.insts.length := by omega
    have hahead := hrel.ahead j _ _ _ _ hins hid hplace (h.newId_get hstart)
    rcases eq_or_lt_of_le hlo with rfl | hlo
    · exact hahead
    · refine hahead.trans ?_
      have hi := List.getElem?_eq_some_iff.mp (h.newId_get hstart)
      have hj := List.getElem?_eq_some_iff.mp (h.newId_get hv)
      have hasc := (List.pairwise_iff_getElem.mp hrel.remapAscends) _ _ hi.1 hj.1 hlo
      rw [hi.2, hj.2] at hasc
      exact hasc

/-- An inserted id is that of a phi of a plan. -/
lemma exists_phi {u : ℕ} (hu : u ∈ (rewriting f items plans).ids) : ∃ (k : ℕ) (b : ℕ) (r : Redefined)
    (p : Plan), items[k]? = some r ∧ plans[k]? = some p ∧ b ∈ p.phis.map Prod.fst ∧
      u = sourceId f items plans k (.entry b) := by
  obtain ⟨j, hj⟩ := List.mem_iff_getElem?.mp hu
  have hlt : j < (placements f items plans).length := by
    have := (List.getElem?_eq_some_iff.mp hj).1
    rw [h.relabelled.idsLength, List.length_map] at this
    exact this
  have hget := List.getElem?_eq_getElem hlt
  obtain ⟨r, p, hr, hp, hb, hins⟩ := mem_placements.mp (List.mem_of_getElem? hget)
  obtain ⟨j', hj', hid'⟩ := h.exists_insertion hr hp hb
  have hslot := slotOf_eq h.nodup_phis hget
  rw [← hins] at hj'
  have hjj := slotOf_eq h.nodup_phis hj'
  rw [hslot] at hjj
  subst hjj
  exact ⟨_, _, r, p, hr, hp, hb, Option.some.inj (hj.symm.trans hid')⟩

/-- What an inserted phi takes. -/
lemma phi_get {k b : ℕ} {r : Redefined} {p : Plan} {incoming : List (ℕ × Source)}
    (hr : items[k]? = some r) (hp : plans[k]? = some p) (hb : (b, incoming) ∈ p.phis) :
    (apply f items plans).insts[sourceId f items plans k (.entry b)]? =
      some (.phi (incoming.map fun q => (q.1, sourceId f items plans k q.2)) r.kind) := by
  have hkey : b ∈ p.phis.map Prod.fst := List.mem_map_of_mem hb
  obtain ⟨j, hj, hid⟩ := h.exists_insertion hr hp hkey
  have hins : (insertions f items plans)[j]? = some (insertionFor f r b) := by
    rw [List.getElem?_map, hj]
    rfl
  have hu := h.sourceId_mem hr hp hkey
  rw [h.apply_eq, getElem?_insts_foldl, (h.relabelled.new j _ _ hins hid).1, Option.map_some]
  congr 1
  refine foldl_onInst_fill (fun e he => ?_) ?_
  · obtain ⟨k', r', p', hr', hp', ⟨node, hnode, rfl⟩ | ⟨rd, -, rfl⟩⟩ := mem_edits.mp he
    · by_cases heq : sourceId f items plans k' (.entry node.1) = sourceId f items plans k (.entry b)
      · obtain ⟨rfl, rfl⟩ := h.sourceId_inj hr' hp' (List.mem_map_of_mem hnode) hr hp hkey heq
        obtain rfl := Option.some.inj (hp.symm.trans hp')
        have hsame : node.2 = incoming := congrArg Prod.snd
          (List.inj_on_of_nodup_map (h.nodup_phis p (List.mem_of_getElem? hp)) hnode hb rfl)
        exact .inl (hsame ▸ rfl)
      · exact .inr fun inst => if_neg heq
    · have hold : ∀ i, newId (rewriting f items plans) i ≠ sourceId f items plans k (.entry b) :=
        fun i heq => h.newId_notMem i (heq ▸ hu)
      cases rd with
      | operand i s => exact .inr fun inst => if_neg (hold i)
      | incoming i q s => exact .inr fun inst => if_neg (hold i)
      | atEnd c s => exact .inr fun inst => rfl
  · exact mem_edits.mpr ⟨k, r, p, hr, hp, .inl ⟨(b, incoming), hb, rfl⟩⟩

/-! ## Reading an item -/

/-- The block that holds an instruction of the tape. -/
lemma not_inBlock_of_ne {v b : ℕ} (hb : b ≠ blockOf f v) : ¬ InBlock (apply f items plans)
    (newId (rewriting f items plans) v) b := by
  intro hin
  by_cases hv : v < f.insts.length
  · exact hb (blockOf_eq h.tape ((h.inBlock_newId hv).mp hin)).symm
  · have hlen := h.relabelled.remapLength
    have hnone : newId (rewriting f items plans) v = noValue := by
      rw [newId, List.getD_eq_getElem?_getD, List.getElem?_eq_none (by omega)]
      rfl
    rw [hnone, h.apply_eq, inBlock_foldl] at hin
    obtain ⟨blk', hblk', hlo, hhi⟩ := hin
    have hbl : b < f.blocks.length := by
      rw [← h.relabelled.blocksLength]
      exact (List.getElem?_eq_some_iff.mp hblk').1
    obtain ⟨r, hget, -, hstop, -⟩ := h.relabelled.blocks b _ (List.getElem?_eq_getElem hbl)
    obtain rfl := Option.some.inj (hget.symm.trans hblk')
    have hsmall := h.insertable.small
    dsimp only at hhi
    omega

/-- The starts a plan looks at can be read. -/
lemma readable {k : ℕ} {r : Redefined} {p : Plan} (hr : items[k]? = some r)
    (hp : plans[k]? = some p) : Readable (Pred preds) 0 (carries r) (merged (same k))
      (fun e => e ∈ (nodes k).map Prod.fst ∧ e ∉ r.home) (blockOf f) := by
  have hplan := h.planned k r p hr hp
  have hrm := List.mem_of_getElem? hr
  refine ⟨hplan.sound.faithful, merged_val hplan.sound.ok, ?_, ?_, ?_, ?_⟩
  · rintro ⟨hzero, -⟩
    obtain ⟨node, hnode, hz⟩ := List.mem_map.mp hzero
    obtain ⟨-, hpred, hne, -⟩ := sourcesOf_eq_some (hplan.looked.sources node hnode)
    obtain ⟨q, hq⟩ := List.exists_mem_of_ne_nil _ hne
    rw [hz] at hpred
    exact h.promised.entry q.1 ((hpred q.1).mp (List.mem_map_of_mem hq))
  · rintro a b hab ⟨hb, -⟩ hcarry
    obtain ⟨node, hnode, rfl⟩ := List.mem_map.mp hb
    obtain ⟨-, hpred, -, hsrc⟩ := sourcesOf_eq_some (hplan.looked.sources node hnode)
    obtain ⟨q, hq, rfl⟩ := List.mem_map.mp ((hpred a).mpr hab)
    rcases onEdge_cases r q.1 node.1 with ⟨v, -, hedge⟩ | ⟨hedge, hhome⟩
    · rw [carries, hedge] at hcarry
      cases hcarry
    · exact ⟨hplan.looked.closed node hnode q hq q.1 ((hsrc q hq).1.trans hedge), hhome⟩
  · rintro a e ha he
    have hknown := hplan.sound.known (.entry a) ha
    have hfix := (merged_merged hplan.sound.ok (.entry a)).1
    rw [he] at hknown hfix
    exact ⟨hknown, hfix⟩
  · intro v
    by_cases hv : v = r.value
    · -- The item's own value: its block is home, and every edge out of a home block carries one.
      obtain ⟨b, hb, hin⟩ := h.promised.home r hrm
      rw [hv, blockOf_eq h.tape hin]
      refine .inl ⟨fun hnode => hnode.2 hb, fun c _ hnone => ?_⟩
      rcases onEdge_cases r b c with ⟨w, -, hedge⟩ | ⟨-, hhome⟩
      · rw [carries, hedge] at hnone
        cases hnone
      · exact hhome hb
    · refine .inr fun a b π hab hcarry hpath => ?_
      obtain ⟨e, he, rfl, rfl⟩ : ∃ e ∈ r.edges, e.1 = a ∧ e.2.2 = v := by
        unfold carries onEdge at hcarry
        cases hfind : r.edges.find? fun e => e.1 = a && e.2.1 = b with
        | some e =>
          rw [hfind] at hcarry
          have hkey := List.find?_some hfind
          simp only [Bool.and_eq_true, decide_eq_true_eq] at hkey
          exact ⟨e, List.mem_of_find?_eq_some hfind, hkey.1, Option.some.inj hcarry⟩
        | none =>
          rw [hfind] at hcarry
          dsimp only at hcarry
          split at hcarry
          · rename_i w hsrc
            split at hsrc
            · exact absurd ((Option.some.inj hcarry).symm.trans (Src.val.inj hsrc).symm) hv
            · cases hsrc
          · cases hcarry
      obtain ⟨c, hin, hall⟩ := h.promised.edgeBlock r hrm e he
      rw [blockOf_eq h.tape hin]
      exact hall π hpath

variable {ω : Type} {val : List ℕ → ℕ → ω}

/-- **Reading what reaches the start of a block gives the value of the last definition.** -/
theorem reads (hval : Framed (apply f items plans) val) {k : ℕ} {r : Redefined} {p : Plan}
    (hr : items[k]? = some r) (hp : plans[k]? = some p) {b : ℕ} {π : List ℕ}
    (hb : b ∈ (nodes k).map Prod.fst ∧ b ∉ r.home) (hpath : PathFrom (Pred preds) 0 (b :: π)) :
    ∃ y, lastValue (carries r) (fun π v => val π (newId (rewriting f items plans) v)) (b :: π) =
        some y ∧
      readAt (apply f items plans) (rewriting f items plans).ids val (b :: π)
        (sourceId f items plans k (merged (same k) (.entry b))) = some y := by
  have hplan := h.planned k r p hr hp
  have hphi : ∀ e, e ∈ (nodes k).map Prod.fst → merged (same k) (.entry e) = .entry e →
      e ∈ p.phis.map Prod.fst := fun e he hself => by
    obtain ⟨incoming, -, hmem⟩ := hplan.phi_of_entry he hself
    exact List.mem_map_of_mem hmem
  refine (h.readable hr hp).reads
    (fun π s => readAt (apply f items plans) (rewriting f items plans).ids val π
      (sourceId f items plans k s)) ?_ ?_ ?_ ?_ hpath hb
  · exact fun a b π v hne => hval a b π _ (h.not_inBlock_of_ne hne)
  · exact fun π v => readAt_of_notMem (h.newId_notMem v) π
  · intro a b π hab hb hself
    obtain ⟨incoming, hsrc, hmem⟩ := hplan.phi_of_entry hb.1 hself
    obtain ⟨hnodup, hpred, -, hedges⟩ := sourcesOf_eq_some hsrc
    obtain ⟨q, hq, rfl⟩ := List.mem_map.mp ((hpred a).mpr hab)
    have htake : takes (apply f items plans) (sourceId f items plans k (.entry b)) q.1 =
        some (sourceId f items plans k (merged (same k) (onEdge r q.1 b))) := by
      rw [takes, h.phi_get hr hp hmem, List.map_map]
      refine lookup_eq_some_of_mem ?_ (List.mem_map.mpr ⟨q, hq, by rw [← (hedges q hq).1]; rfl⟩)
      rw [List.map_map]
      exact hnodup
    rw [readAt, if_pos (h.sourceId_mem hr hp (hphi b hb.1 hself)),
      if_pos (holds_iff.mpr (h.phi_inBlock hr hp (hphi b hb.1 hself)).1), htake, edgeSrc_carries]
    rfl
  · intro a b e π he hself hne
    have hin := (h.phi_inBlock hr hp (hphi e he.1 hself)).1
    have hout : ¬ holds (apply f items plans) b (sourceId f items plans k (.entry e)) = true := by
      rw [holds_iff]
      intro hb
      refine hne ?_
      rw [h.apply_eq, inBlock_foldl] at hin hb
      exact h.relabelled.disjoint _ _ _ hin hb
    rw [readAt, if_pos (h.sourceId_mem hr hp (hphi e he.1 hself)), if_neg hout]

/-! ## What is renamed at a place -/

/-- Nothing but an item's value is renamed to its new id. -/
lemma rename_inj {o v : ℕ} (hv : v < f.insts.length)
    (heq : (rewriting f items plans).rename o = newId (rewriting f items plans) v) : o = v := by
  have hnodup := h.relabelled.each.nodup_iff.mpr List.nodup_range
  have hlen := h.relabelled.each.length_eq
  rw [List.length_range] at hlen
  have hget : ((rewriting f items plans).remap ++ (rewriting f items plans).ids)[v]? =
      some (newId (rewriting f items plans) v) := Tape.getElem?_append_of_some (h.newId_get hv)
  have hlt : newId (rewriting f items plans) v <
      f.insts.length + (insertions f items plans).length :=
    List.mem_range.mp (h.relabelled.each.mem_iff.mp (List.mem_of_getElem? hget))
  have hsmall := h.insertable.small
  rw [Tape.Rewrite.rename, Tape.renumbered] at heq
  split at heq
  · rename_i hin
    rw [List.getD_eq_getElem?_getD, List.getElem?_eq_getElem hin.2, Option.getD_some] at heq
    refine (List.getElem?_inj hin.2 hnodup).mp ?_
    rw [List.getElem?_eq_getElem hin.2, heq, hget]
  · rename_i hout
    rw [← heq] at hlt
    by_cases hno : o = noValue
    · omega
    · exact absurd ⟨hno, by omega⟩ hout

/-- The renamings at a place: those of the items that are read there, each to its target. -/
def Renames (f : FunctionSsa) (items : List Redefined) (plans : List Plan) (l : List (ℕ × ℕ))
    (on : Redefined → Prop) (target : ℕ → Redefined → ℕ) : Prop :=
  ∀ old new, (old, new) ∈ l ↔ ∃ k r, items[k]? = some r ∧ on r ∧
    old = newId (rewriting f items plans) r.value ∧ new = target k r

lemma item_eq {k k' : ℕ} {r r' : Redefined} (hr : items[k]? = some r) (hr' : items[k']? = some r')
    (hval : r.value = r'.value) : k = k' ∧ r = r' := by
  have hlt := (List.getElem?_eq_some_iff.mp hr).1
  have hget : (items.map Redefined.value)[k]? = (items.map Redefined.value)[k']? := by
    rw [List.getElem?_map, List.getElem?_map, hr, hr', Option.map_some, Option.map_some, hval]
  obtain rfl := (List.getElem?_inj (by rwa [List.length_map]) h.promised.nodup).mp hget
  exact ⟨rfl, Option.some.inj (hr.symm.trans hr')⟩

/-- The value of an item that is read at a place gets its target there. -/
lemma renames_on {l : List (ℕ × ℕ)} {on : Redefined → Prop} {target : ℕ → Redefined → ℕ}
    (hl : Renames f items plans l on target) {k : ℕ} {r : Redefined} {p : Plan}
    (hr : items[k]? = some r) (hp : plans[k]? = some p) (hon : on r) {s : Source}
    (hs : s.Known r (nodes k)) (htarget : target k r = sourceId f items plans k (merged (same k) s)) :
    renames l (newId (rewriting f items plans) r.value) = target k r := by
  have hrm := List.mem_of_getElem? hr
  have hlt := fun r hr => h.promised.lt r hr r.value (.head _)
  refine renames_of_mem ((hl _ _).mpr ⟨k, r, hr, hon, rfl, rfl⟩) (fun u hu => ?_) ?_
  · obtain ⟨k', r', hr', -, hold, rfl⟩ := (hl _ _).mp hu
    have hval := h.newId_inj (hlt r hrm) (hlt r' (List.mem_of_getElem? hr')) hold
    obtain ⟨rfl, rfl⟩ := h.item_eq hr hr' hval
    rfl
  · rw [htarget]
    rcases (h.planned k r p hr hp).merged_cases hs with ⟨v, hv, hm⟩ | ⟨e, he, hm⟩
    · rw [hm]
      rcases List.mem_cons.mp hv with rfl | hedge
      · exact .inl rfl
      · refine .inr fun u hu => ?_
        obtain ⟨k', r', hr', -, hold, -⟩ := (hl _ _).mp hu
        obtain ⟨e, he, rfl⟩ := List.mem_map.mp hedge
        have hrm' := List.mem_of_getElem? hr'
        exact h.promised.edgeValue r hrm e he r' hrm'
          (h.newId_inj (h.promised.lt r hrm _ hv) (hlt r' hrm') hold)
    · rw [hm]
      refine .inr fun u hu => ?_
      obtain ⟨k', r', -, -, hold, -⟩ := (hl _ _).mp hu
      exact h.newId_notMem r'.value (hold ▸ h.sourceId_mem hr hp he)

lemma renames_off {l : List (ℕ × ℕ)} {on : Redefined → Prop} {target : ℕ → Redefined → ℕ}
    (hl : Renames f items plans l on target) {o : ℕ} (hoff : ∀ r ∈ items, on r → r.value ≠ o) :
    renames l ((rewriting f items plans).rename o) = (rewriting f items plans).rename o := by
  refine renames_of_notMem fun u hu => ?_
  obtain ⟨k, r, hr, hon, hold, -⟩ := (hl _ _).mp hu
  have hrm := List.mem_of_getElem? hr
  exact hoff r hrm hon (h.rename_inj (h.promised.lt r hrm _ (.head _)) hold).symm

/-- The edits: the phis of the plans, and the reads with their sources merged. -/
lemma mem_allEdits {e : Edit} : e ∈ allEdits f items plans ↔
    ∃ k r p, items[k]? = some r ∧ plans[k]? = some p ∧
      ((∃ node ∈ p.phis, e = .fill (sourceId f items plans k (.entry node.1))
          (node.2.map fun q => (q.1, sourceId f items plans k q.2))) ∨
        ∃ rd, Asked f (reachable f preds) r rd ∧ e = editOf (rewriting f items plans)
          (sourceId f items plans k) (newId (rewriting f items plans) r.value)
          (rd.mapSrc (merged (same k)))) := by
  rw [mem_edits]
  refine exists_congr fun k => exists_congr fun r => exists_congr fun p =>
    and_congr_right fun hr => and_congr_right fun hp => or_congr Iff.rfl ?_
  rw [(h.planned k r p hr hp).reads]
  constructor
  · rintro ⟨rd, hrd, rfl⟩
    obtain ⟨rd', hrd', rfl⟩ := List.mem_map.mp hrd
    exact ⟨rd', mem_readsOf.mp hrd', rfl⟩
  · rintro ⟨rd, hrd, rfl⟩
    exact ⟨_, List.mem_map_of_mem (mem_readsOf.mpr hrd), rfl⟩

lemma sound_edits : ∀ e ∈ allEdits f items plans, e.Sound := by
  intro e he
  obtain ⟨k, r, p, hr, -, ⟨node, -, rfl⟩ | ⟨rd, -, rfl⟩⟩ := h.mem_allEdits.mp he
  · trivial
  · have hne : newId (rewriting f items plans) r.value ≠ noValue := by
      have hlt := h.promised.lt r (List.mem_of_getElem? hr) _ (.head _)
      exact Tape.id_ne_noValue h.insertable _
        (List.mem_append_left _ (List.mem_of_getElem? (h.newId_get hlt)))
    cases rd <;> exact hne

lemma fills_newId (v : ℕ) :
    ∀ e ∈ allEdits f items plans, e.fills (newId (rewriting f items plans) v) = false := by
  intro e he
  obtain ⟨k, r, p, hr, hp, ⟨node, hnode, rfl⟩ | ⟨rd, -, rfl⟩⟩ := h.mem_allEdits.mp he
  · refine decide_eq_false fun heq => h.newId_notMem v ?_
    rw [← heq]
    exact h.sourceId_mem hr hp (List.mem_map_of_mem hnode)
  · cases rd <;> rfl

/-- What is renamed among the operands of an instruction. -/
lemma renames_operand {i b : ℕ} {inst : Inst} (hin : InBlock f i b) (hinst : f.insts[i]? = some inst)
    (hphi : inst.isPhi = false) :
    Renames f items plans
      ((allEdits f items plans).filterMap (Edit.pairAt (newId (rewriting f items plans) i)))
      (fun r => b ∈ reachable f preds ∧ b ∉ r.home ∧ r.value ∈ inst.operands)
      fun k _ => sourceId f items plans k (merged (same k) (.entry b)) := by
  have hi := (List.getElem?_eq_some_iff.mp hinst).1
  intro old new
  rw [List.mem_filterMap]
  constructor
  · rintro ⟨e, he, hpair⟩
    obtain ⟨k, r, p, hr, -, ⟨node, -, rfl⟩ | ⟨rd, hrd, rfl⟩⟩ := h.mem_allEdits.mp he
    · cases hpair
    · cases hrd with
      | @operand i' b' inst' hb hin' hinst' hphi' hhome hreads =>
        simp only [Read.mapSrc, editOf, Edit.pairAt, Option.ite_none_right_eq_some,
          Option.some.injEq, Prod.mk.injEq] at hpair
        obtain ⟨heq, rfl, rfl⟩ := hpair
        obtain rfl := h.newId_inj (List.getElem?_eq_some_iff.mp hinst').1 hi heq
        obtain rfl := h.tape.disjoint _ _ _ hin hin'
        obtain rfl := Option.some.inj (hinst.symm.trans hinst')
        exact ⟨k, r, hr, ⟨hb, hhome, hreads⟩, rfl, rfl⟩
      | incoming => cases hpair
      | atEnd => cases hpair
  · rintro ⟨k, r, hr, ⟨hb, hhome, hreads⟩, rfl, rfl⟩
    obtain ⟨p, hp⟩ := h.exists_plan hr
    exact ⟨_, h.mem_allEdits.mpr ⟨k, r, p, hr, hp,
      .inr ⟨_, .operand hb hin hinst hphi hhome hreads, rfl⟩⟩, if_pos rfl⟩

/-- What is renamed among the entries of a phi from a block. -/
lemma renames_incoming {i b q : ℕ} {incoming : List (ℕ × ℕ)} {kind : LoadKind} (hin : InBlock f i b)
    (hinst : f.insts[i]? = some (.phi incoming kind)) :
    Renames f items plans
      ((allEdits f items plans).filterMap (Edit.pairFrom (newId (rewriting f items plans) i) q))
      (fun r => b ∈ reachable f preds ∧ (q, r.value) ∈ incoming ∧ q ∉ r.home ∧
        q ∈ reachable f preds)
      fun k r => sourceId f items plans k (merged (same k) (onEdge r q b)) := by
  have hi := (List.getElem?_eq_some_iff.mp hinst).1
  intro old new
  rw [List.mem_filterMap]
  constructor
  · rintro ⟨e, he, hpair⟩
    obtain ⟨k, r, p, hr, -, ⟨node, -, rfl⟩ | ⟨rd, hrd, rfl⟩⟩ := h.mem_allEdits.mp he
    · cases hpair
    · cases hrd with
      | @operand i' b' inst' hb hin' hinst' hphi' hhome hreads =>
        simp only [Read.mapSrc, editOf, Edit.pairFrom, Option.ite_none_right_eq_some,
          Option.some.injEq, Prod.mk.injEq] at hpair
        obtain rfl := h.newId_inj (List.getElem?_eq_some_iff.mp hinst').1 hi hpair.1
        obtain rfl := Option.some.inj (hinst.symm.trans hinst')
        cases hphi'
      | @incoming i' b' q' inc kind' hb hin' hinst' hq hhome hlive =>
        simp only [Read.mapSrc, editOf, Edit.pairFrom, Option.ite_none_right_eq_some,
          Option.some.injEq, Prod.mk.injEq] at hpair
        obtain ⟨⟨heq, rfl⟩, rfl, rfl⟩ := hpair
        obtain rfl := h.newId_inj (List.getElem?_eq_some_iff.mp hinst').1 hi heq
        obtain rfl := h.tape.disjoint _ _ _ hin hin'
        obtain ⟨rfl, rfl⟩ := Inst.phi.inj (Option.some.inj (hinst.symm.trans hinst'))
        exact ⟨k, r, hr, ⟨hb, hq, hhome, hlive⟩, rfl, rfl⟩
      | atEnd => cases hpair
  · rintro ⟨k, r, hr, ⟨hb, hq, hhome, hlive⟩, rfl, rfl⟩
    obtain ⟨p, hp⟩ := h.exists_plan hr
    exact ⟨_, h.mem_allEdits.mpr ⟨k, r, p, hr, hp,
      .inr ⟨_, .incoming hb hin hinst hq hhome hlive, rfl⟩⟩, if_pos ⟨rfl, rfl⟩⟩

/-- What is renamed at the end of a block. -/
lemma renames_end {b : ℕ} {blk : Block} (hblk : f.blocks[b]? = some blk) :
    Renames f items plans ((allEdits f items plans).filterMap (Edit.pairEnd b))
      (fun r => b ∈ reachable f preds ∧ b ∉ r.home ∧
        (blk.exitAcc = r.value ∨ r.value ∈ blk.terminator.operands))
      fun k _ => sourceId f items plans k (merged (same k) (.entry b)) := by
  intro old new
  rw [List.mem_filterMap]
  constructor
  · rintro ⟨e, he, hpair⟩
    obtain ⟨k, r, p, hr, -, ⟨node, -, rfl⟩ | ⟨rd, hrd, rfl⟩⟩ := h.mem_allEdits.mp he
    · cases hpair
    · cases hrd with
      | operand => cases hpair
      | incoming => cases hpair
      | @atEnd b' blk' hb hblk' hhome hreads =>
        simp only [Read.mapSrc, editOf, Edit.pairEnd, Option.ite_none_right_eq_some,
          Option.some.injEq, Prod.mk.injEq] at hpair
        obtain ⟨rfl, rfl, rfl⟩ := hpair
        obtain rfl := Option.some.inj (hblk.symm.trans hblk')
        exact ⟨k, r, hr, ⟨hb, hhome, hreads⟩, rfl, rfl⟩
  · rintro ⟨k, r, hr, ⟨hb, hhome, hreads⟩, rfl, rfl⟩
    obtain ⟨p, hp⟩ := h.exists_plan hr
    exact ⟨_, h.mem_allEdits.mpr ⟨k, r, p, hr, hp,
      .inr ⟨_, .atEnd hb hblk hhome hreads, rfl⟩⟩, if_pos rfl⟩

/-! ## What every read has become -/

/-- A read in a block gives the last definition. -/
lemma readsIn {l : List (ℕ × ℕ)} {b o : ℕ} {asks : Redefined → Prop}
    (hl : Renames f items plans l
      (fun r => b ∈ reachable f preds ∧ b ∉ r.home ∧ asks r)
      fun k _ => sourceId f items plans k (merged (same k) (.entry b)))
    (hasks : ∀ r ∈ items, r.value = o → asks r)
    (hrd : ∀ r, b ∈ reachable f preds → b ∉ r.home → asks r → ∃ rd,
      Asked f (reachable f preds) r rd ∧ rd.src = .entry b) :
    ReadsIn preds items (apply f items plans) (rewriting f items plans) b o
      (renames l ((rewriting f items plans).rename o)) := by
  constructor
  · rintro r hrm rfl hhome ω val hval π hpath
    obtain ⟨k, hr⟩ := List.mem_iff_getElem?.mp hrm
    obtain ⟨p, hp⟩ := h.exists_plan hr
    have hlive := reachable_of_path h.graph hpath
    obtain ⟨rd, hrd, hsrc⟩ := hrd r hlive hhome (hasks r hrm rfl)
    have hknown := (h.planned k r p hr hp).known_of_asked hrd
    rw [hsrc] at hknown
    rw [h.rename_eq (h.promised.lt r hrm _ (.head _)),
      h.renames_on hl hr hp ⟨hlive, hhome, hasks r hrm rfl⟩ hknown rfl]
    exact h.reads hval hr hp hknown hpath
  · exact fun hall => h.renames_off hl fun r hrm hon heq => hon.2.1 (hall r hrm heq)

/-- An entry of a phi gives the last definition over its edge. -/
lemma readsOver {i b : ℕ} {incoming : List (ℕ × ℕ)} {kind : LoadKind} (hin : InBlock f i b)
    (hinst : f.insts[i]? = some (.phi incoming kind)) {q o : ℕ} (hqo : (q, o) ∈ incoming) :
    ReadsOver preds items (apply f items plans) (rewriting f items plans) q b o
      (renames ((allEdits f items plans).filterMap
        (Edit.pairFrom (newId (rewriting f items plans) i) q))
        ((rewriting f items plans).rename o)) := by
  have hl := h.renames_incoming (q := q) hin hinst
  constructor
  · rintro r hrm rfl ω val hval π hpath
    obtain ⟨k, hr⟩ := List.mem_iff_getElem?.mp hrm
    obtain ⟨p, hp⟩ := h.exists_plan hr
    have hplan := h.planned k r p hr hp
    have hv := h.promised.lt r hrm _ (.head _)
    have hblive := reachable_of_path h.graph hpath
    obtain ⟨hpath', hqb⟩ : PathFrom (Pred preds) 0 (q :: π) ∧ Pred preds q b := by
      cases hpath with
      | step hpath hqb => exact ⟨hpath, hqb⟩
    have hqlive := reachable_of_path h.graph hpath'
    -- What the edge carries is the last definition.
    have hcarried : ∀ v, onEdge r q b = .val v → lastValue (carries r)
        (fun π v => val π (newId (rewriting f items plans) v)) (b :: q :: π) =
          some (val (q :: π) (newId (rewriting f items plans) v)) := by
      intro v hedge
      have hcarry : carries r q b = some v := by rw [carries, hedge]
      rw [lastValue, lastDef, hcarry]
      rfl
    by_cases hhome : q ∈ r.home
    · have hedge : onEdge r q b = .val r.value := by
        unfold onEdge
        split
        · rename_i e he
          have hkey := List.find?_some he
          simp only [Bool.and_eq_true, decide_eq_true_eq] at hkey
          exact absurd (hkey.1 ▸ hhome) (h.promised.edgeHome r hrm e (List.mem_of_find?_eq_some he))
        · rw [if_pos hhome]
      refine ⟨_, hcarried _ hedge, ?_⟩
      rw [h.renames_off hl fun r' hrm' hon heq => ?_, h.rename_eq hv]
      · exact readAt_of_notMem (h.newId_notMem _) _
      · obtain ⟨k', hr'⟩ := List.mem_iff_getElem?.mp hrm'
        obtain ⟨-, rfl⟩ := h.item_eq hr' hr heq
        exact hon.2.2.1 hhome
    · have hknown : Source.Known r (nodes k) (onEdge r q b) :=
        hplan.known_of_asked (.incoming hblive hin hinst hqo hhome hqlive)
      rw [h.rename_eq hv, h.renames_on hl hr hp ⟨hblive, hqo, hhome, hqlive⟩ hknown rfl]
      cases hedge : onEdge r q b with
      | val v =>
        refine ⟨_, hcarried v hedge, ?_⟩
        rw [merged_val hplan.sound.ok]
        exact readAt_of_notMem (h.newId_notMem v) _
      | entry e =>
        obtain rfl := eq_of_onEdge hedge
        rw [hedge] at hknown
        obtain ⟨y, hy, hread⟩ := h.reads hval hr hp hknown hpath'
        have hcarry : carries r e b = none := by rw [carries, hedge]
        refine ⟨y, ?_, hread⟩
        rw [← hy, lastValue, lastValue, lastDef, hcarry]
        rfl
  · exact fun hall => h.renames_off hl fun r hrm _ => hall r hrm

/-- An application repairs the function. -/
lemma repaired : Repaired f preds items (apply f items plans) (rewriting f items plans) where
  each := by
    have hlen : (apply f items plans).insts.length =
        f.insts.length + (insertions f items plans).length := by
      rw [h.apply_eq, length_insts_foldl]
      exact h.relabelled.lengths _ (by simp)
    rw [hlen]
    exact h.relabelled.each
  length := h.relabelled.remapLength
  blocks := by
    rw [h.apply_eq, length_blocks_foldl]
    exact h.relabelled.blocksLength
  inBlock v b hv := h.inBlock_newId hv
  inst i b inst hin hinst hphi := by
    have hi := (List.getElem?_eq_some_iff.mp hinst).1
    refine ⟨_, ?_, fun o ho => h.readsIn (h.renames_operand hin hinst hphi)
      (fun r _ hval => hval ▸ ho)
      fun r hb hhome hreads => ⟨_, .operand hb hin hinst hphi hhome hreads, rfl⟩⟩
    rw [h.apply_eq, getElem?_insts_foldl, (h.relabelled.old i _ _ hinst (h.newId_get hi)).1,
      Option.map_some, foldl_onInst h.sound_edits hphi]
  phi i b incoming kind hin hinst := by
    have hi := (List.getElem?_eq_some_iff.mp hinst).1
    refine ⟨fun q v => renames ((allEdits f items plans).filterMap
        (Edit.pairFrom (newId (rewriting f items plans) i) q))
        ((rewriting f items plans).rename v), ?_, fun p hp => h.readsOver hin hinst hp⟩
    rw [h.apply_eq, getElem?_insts_foldl, (h.relabelled.old i _ _ hinst (h.newId_get hi)).1,
      Option.map_some, Inst.mapOperands, foldl_onInst_phi (h.fills_newId i), List.map_map]
    rfl
  ends b blk hblk := by
    obtain ⟨r, hget, -⟩ := h.relabelled.blocks b blk hblk
    refine ⟨r, fun o => renames ((allEdits f items plans).filterMap (Edit.pairEnd b))
        ((rewriting f items plans).rename o), ?_, fun o ho => ?_⟩
    · rw [h.apply_eq, getElem?_blocks_foldl h.sound_edits, hget, Option.map_some]
      congr 2
      rw [Terminator.mapOperands_mapOperands]
      refine renames_noValue fun p hp => ?_
      obtain ⟨e, he, hep⟩ := List.mem_filterMap.mp hp
      exact (h.sound_edits e he).pairEnd hep
    · refine h.readsIn (h.renames_end hblk) (fun r _ hval => ?_)
        fun r hb hhome hreads => ⟨_, .atEnd hb hblk hhome hreads, rfl⟩
      rcases List.mem_append.mp ho with ho | ho
      · exact .inr (hval ▸ ho)
      · exact .inl ((List.mem_singleton.mp ho).symm.trans hval.symm)
  inserted u hu := by
    obtain ⟨k, b, r, p, hr, hp, hb, rfl⟩ := h.exists_phi hu
    obtain ⟨⟨b', incoming⟩, hmem, rfl⟩ := List.mem_map.mp hb
    obtain ⟨node, hnode, -, heq⟩ := (h.planned k r p hr hp).mem_phis.mp hmem
    obtain ⟨hnodup, hpred, -, -⟩ :=
      sourcesOf_eq_some ((h.planned k r p hr hp).looked.sources node hnode)
    obtain ⟨hin, hahead⟩ := h.phi_inBlock hr hp hb
    obtain ⟨rfl, rfl⟩ := Prod.mk.inj heq
    have hkeys : ((node.2.map fun q => (q.1, merged (same k) q.2)).map fun q : ℕ × Source =>
        (q.1, sourceId f items plans k q.2)).map Prod.fst = node.2.map Prod.fst := by
      rw [List.map_map, List.map_map]
      rfl
    refine ⟨node.1, _, r.kind, h.phi_get hr hp hmem, hin, hahead, ?_, ?_⟩
    · rw [hkeys]
      exact hnodup
    · rw [hkeys]
      exact hpred

end Applied

end

/-- **A repair finds the reaching definition**: where it has a plan, every read of an item outside
its home gives, on every path from the entry, the value of the item's last definition on the path,
and each phi put in has one entry for each predecessor of its block; where it has none, the function
stays. -/
theorem repair_spec {f : FunctionSsa} {preds : List (List ℕ)} {items : List Redefined}
    (ht : TapeOk f) (hg : PredsOk f preds) (hi : Promised f preds items)
    (hsmall : f.insts.length + items.length * f.blocks.length ≤ noValue) :
    (∀ g, repair f preds items = (g, true) → ∃ rw, Repaired f preds items g rw) ∧
      ∀ g, repair f preds items = (g, false) → g = f := by
  unfold repair
  cases hplan : plan f preds items with
  | none => exact ⟨(fun g hg => by cases hg), fun g hg => (Prod.mk.inj hg).1.symm⟩
  | some plans =>
    refine ⟨fun g hg' => ?_, (fun g hg' => by cases hg')⟩
    obtain rfl := (Prod.mk.inj hg').1
    obtain ⟨hlen, hall⟩ := plan_spec hg hplan
    have hchoice : ∀ k : ℕ, ∃ nodes same, ∀ r p, items[k]? = some r → plans[k]? = some p →
        Planned f preds (reachable f preds) r p nodes same := by
      intro k
      cases hr : items[k]? with
      | none => exact ⟨[], [], fun r p hr' => by cases hr'⟩
      | some r =>
        cases hp : plans[k]? with
        | none => exact ⟨[], [], fun r p _ hp' => by cases hp'⟩
        | some p =>
          obtain ⟨nodes, same, hp'⟩ := hall k r p hr hp
          refine ⟨nodes, same, fun r' p' hr' hp'' => ?_⟩
          obtain rfl := Option.some.inj hr'
          obtain rfl := Option.some.inj hp''
          exact hp'
    choose nodes same hplanned using hchoice
    have happ : Applied f preds items plans nodes same := ⟨ht, hg, hi, hsmall, hlen, hplanned⟩
    exact ⟨_, happ.repaired⟩

/-- A value `v1` of block 1 read at a join, which the entry now reaches directly with `v0`. -/
def join : FunctionSsa where
  insts := [.imm 5, .phi [(0, 0)] .i64, .copy 1 false]
  instSrc := [(1, 1), (1, 2), (1, 3)]
  blocks :=
    [{ instRange := ⟨0, 1⟩, terminator := .bz 0 1 2 },
      { instRange := ⟨1, 2⟩, terminator := .jmp 2 },
      { instRange := ⟨2, 3⟩, terminator := .ret 2, exitAcc := 2 }]

/-- The join is repaired. -/
theorem repair_spec_join :
    (repair join [[], [0], [1, 0]] [⟨1, .i64, [1], [(0, 2, 0)]⟩]).2 = true ∧
    ∃ rw, Repaired join [[], [0], [1, 0]] [⟨1, .i64, [1], [(0, 2, 0)]⟩]
      (repair join [[], [0], [1, 0]] [⟨1, .i64, [1], [(0, 2, 0)]⟩]).1 rw := by
  have hdone : (repair join [[], [0], [1, 0]] [⟨1, .i64, [1], [(0, 2, 0)]⟩]).2 = true := by decide
  have hheld : ∀ v b, InBlock join v b ↔ v = b ∧ b < 3 := by
    intro v b
    rcases b with _ | _ | _ | b <;> simp [InBlock, join] <;> omega
  have hpred : ∀ a b, Pred [[], [0], [1, 0]] a b ↔ a < b ∧ b < 3 := by
    intro a b
    rcases b with _ | _ | _ | b <;> simp [Pred]; omega
  refine ⟨hdone, (repair_spec ⟨?_, ?_, ?_⟩ ⟨by decide, by decide, ?_, by decide⟩
    ⟨by decide, by decide, ?_, by decide, by decide, ?_, ?_⟩ (by decide)).1 _ (Prod.ext rfl hdone)⟩
  · intro b blk hblk
    rcases b with _ | _ | _ | b <;> simp [join] at hblk <;> subst hblk <;> decide
  · intro v b c hb hc
    rw [hheld] at hb hc
    omega
  · intro b blk hblk hempty
    rcases b with _ | _ | _ | b <;> simp [join] at hblk <;> subst hblk <;>
      exact absurd hempty (by decide)
  · intro a b hab
    rw [hpred] at hab
    exact show a < 3 by omega
  · intro r hr
    obtain rfl := List.mem_singleton.mp hr
    exact ⟨1, by decide, (hheld 1 1).mpr ⟨rfl, by decide⟩⟩
  · intro r hr e he
    obtain rfl := List.mem_singleton.mp hr
    obtain rfl := List.mem_singleton.mp he
    exact ⟨0, (hheld 0 0).mpr ⟨rfl, by decide⟩, fun π _ => (.head _)⟩
  · intro a ha
    rw [hpred] at ha
    omega

end Repair

end Badc
