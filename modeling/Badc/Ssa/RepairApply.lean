import Badc.Ssa.RepairPlan
import Badc.Ssa.TapeInsert

/-!
# What an application of a repair edits

`apply` is a list of edits of the function with the phis inserted; what the edits leave of one place
of the tape and of one block is said once (`getElem?_insts_foldl`, `getElem?_blocks_foldl`).  Where
the phis go is a list of insertions `insert` accepts (`insertable_placements`), and each item has at
most one phi in a block (`getElem?_slotOf`).
-/

namespace Badc

namespace Repair

open Reaching

/-! ## Renaming one value after another -/

/-- Renamings one after another. -/
def renames (l : List (ℕ × ℕ)) (v : ℕ) : ℕ := l.foldl (fun v p => rename p.1 p.2 v) v

lemma renames_of_notMem {l : List (ℕ × ℕ)} {v : ℕ} (h : ∀ t, (v, t) ∉ l) : renames l v = v := by
  induction l with
  | nil => rfl
  | cons p l ih =>
    have hne : v ≠ p.1 := by
      rintro rfl
      exact h p.2 (by simp)
    rw [renames, List.foldl_cons, rename, if_neg hne]
    exact ih fun t ht => h t (.tail _ ht)

/-- A value all renamings of which agree gets its new name, where no renaming is about that. -/
lemma renames_of_mem {l : List (ℕ × ℕ)} {v t : ℕ} (hmem : (v, t) ∈ l)
    (hall : ∀ u, (v, u) ∈ l → u = t) (ht : t = v ∨ ∀ u, (t, u) ∉ l) : renames l v = t := by
  induction l with
  | nil => cases hmem
  | cons p l ih =>
    have hrest : ∀ {u w : ℕ}, (u, w) ∈ l → (u, w) ∈ p :: l := fun h => List.mem_cons_of_mem _ h
    rw [renames, List.foldl_cons, ← renames, rename]
    by_cases hp : v = p.1
    · have hpt : p.2 = t := hall p.2 (by simp [hp])
      rw [if_pos hp, hpt]
      rcases ht with rfl | ht
      · by_cases hin : (t, t) ∈ l
        · exact ih hin (fun u hu => hall u (hrest hu)) (.inl rfl)
        · refine renames_of_notMem fun u hu => hin ?_
          rwa [hall u (hrest hu)] at hu
      · exact renames_of_notMem fun u hu => ht u (hrest hu)
    · rw [if_neg hp]
      refine ih ?_ (fun u hu => hall u (hrest hu)) (ht.imp_right fun h u hu => h u (hrest hu))
      rcases List.mem_cons.mp hmem with rfl | hmem
      · exact absurd rfl hp
      · exact hmem

/-! ## Edits -/

/-- One edit of a function: fill a phi, rename the operands of an instruction, rename the entries of
a phi from one block, or rename at the end of a block. -/
inductive Edit
  | fill (v : ℕ) (merged : List (ℕ × ℕ))
  | operand (v old new : ℕ)
  | incoming (v q old new : ℕ)
  | atEnd (b old new : ℕ)

/-- Make an edit. -/
def Edit.apply (g : FunctionSsa) : Edit → FunctionSsa
  | .fill v merged => { g with insts := g.insts.modify v (fillPhi merged) }
  | .operand v old new => { g with insts := g.insts.modify v (Inst.mapOperands (rename old new)) }
  | .incoming v q old new => { g with insts := g.insts.modify v (renameIncoming old new q) }
  | .atEnd b old new =>
      { g with blocks := g.blocks.modify b fun blk => { blk with
          exitAcc := rename old new blk.exitAcc
          terminator := blk.terminator.mapOperands (rename old new) } }

/-- What an edit does to the instruction at `v`. -/
def Edit.onInst (v : ℕ) (inst : Inst) : Edit → Inst
  | .fill u merged => if u = v then fillPhi merged inst else inst
  | .operand u old new => if u = v then inst.mapOperands (rename old new) else inst
  | .incoming u q old new => if u = v then renameIncoming old new q inst else inst
  | .atEnd .. => inst

/-- The operands an edit renames at `v`. -/
def Edit.pairAt (v : ℕ) : Edit → Option (ℕ × ℕ)
  | .operand u old new => if u = v then some (old, new) else none
  | _ => none

/-- The entries from block `q` an edit renames in the phi at `v`. -/
def Edit.pairFrom (v q : ℕ) : Edit → Option (ℕ × ℕ)
  | .operand u old new => if u = v then some (old, new) else none
  | .incoming u p old new => if u = v ∧ q = p then some (old, new) else none
  | _ => none

/-- What an edit renames at the end of block `b`. -/
def Edit.pairEnd (b : ℕ) : Edit → Option (ℕ × ℕ)
  | .atEnd c old new => if c = b then some (old, new) else none
  | _ => none

/-- Whether an edit fills the phi at `v`. -/
def Edit.fills (v : ℕ) : Edit → Bool
  | .fill u _ => u = v
  | _ => false

/-- The absent operand is renamed by no edit. -/
def Edit.Sound : Edit → Prop
  | .fill .. => True
  | .operand _ old _ | .incoming _ _ old _ | .atEnd _ old _ => old ≠ noValue

section

variable {es : List Edit} {g : FunctionSsa} {v b : ℕ}

/-- The place `v` after edits. -/
lemma getElem?_insts_foldl : (es.foldl Edit.apply g).insts[v]? =
    (g.insts[v]?).map fun inst => es.foldl (Edit.onInst v) inst := by
  induction es generalizing g with
  | nil => simp
  | cons e es ih =>
    rw [List.foldl_cons, ih]
    cases e with
    | fill u merged | operand u old new | incoming u q old new =>
      simp only [Edit.apply, List.getElem?_modify, Option.map_eq_map, Option.map_map]
      congr 1
    | atEnd c old new => rfl

lemma length_insts_foldl : (es.foldl Edit.apply g).insts.length = g.insts.length := by
  induction es generalizing g with
  | nil => rfl
  | cons e es ih =>
    rw [List.foldl_cons, ih]
    cases e <;> simp [Edit.apply]

lemma length_blocks_foldl : (es.foldl Edit.apply g).blocks.length = g.blocks.length := by
  induction es generalizing g with
  | nil => rfl
  | cons e es ih =>
    rw [List.foldl_cons, ih]
    cases e <;> simp [Edit.apply]

/-- The place `v` of a function keeps its block through edits. -/
lemma inBlock_foldl : InBlock (es.foldl Edit.apply g) v b ↔ InBlock g v b := by
  induction es generalizing g with
  | nil => rfl
  | cons e es ih =>
    rw [List.foldl_cons, ih]
    cases e with
    | fill u merged | operand u old new | incoming u q old new => rfl
    | atEnd c old new =>
      simp only [InBlock, Edit.apply, List.getElem?_modify, Option.map_eq_map,
        Option.map_eq_some_iff]
      constructor
      · rintro ⟨blk, ⟨blk₀, hblk₀, rfl⟩, hv⟩
        refine ⟨blk₀, hblk₀, ?_⟩
        split at hv <;> exact hv
      · rintro ⟨blk, hblk, hv⟩
        refine ⟨_, ⟨blk, hblk, rfl⟩, ?_⟩
        split <;> exact hv

lemma rename_noValue {old new : ℕ} (h : old ≠ noValue) : rename old new noValue = noValue :=
  if_neg h.symm

/-- Edits of an instruction that is no phi rename its operands. -/
lemma foldl_onInst (hsound : ∀ e ∈ es, e.Sound) {inst : Inst} (hphi : inst.isPhi = false)
    {ρ : ℕ → ℕ} : es.foldl (Edit.onInst v) (inst.mapOperands ρ) =
      inst.mapOperands fun o => renames (es.filterMap (Edit.pairAt v)) (ρ o) := by
  have hfill : ∀ (σ : ℕ → ℕ) merged, fillPhi merged (inst.mapOperands σ) = inst.mapOperands σ := by
    intro σ merged
    cases inst <;> first | rfl | cases hphi
  have hincoming : ∀ (σ : ℕ → ℕ) old new q,
      renameIncoming old new q (inst.mapOperands σ) = inst.mapOperands σ := by
    intro σ old new q
    cases inst <;> first | rfl | cases hphi
  induction es generalizing ρ with
  | nil => rfl
  | cons e es ih =>
    have hes := fun e' he' => hsound e' (.tail _ he')
    have he := hsound e (.head _)
    rw [List.foldl_cons]
    cases e with
    | fill u merged =>
      have hstep : Edit.onInst v (inst.mapOperands ρ) (.fill u merged) = inst.mapOperands ρ := by
        simp [Edit.onInst, hfill]
      rw [hstep, ih hes]
      rfl
    | incoming u q old new =>
      have hstep : Edit.onInst v (inst.mapOperands ρ) (.incoming u q old new) =
          inst.mapOperands ρ := by
        simp [Edit.onInst, hincoming]
      rw [hstep, ih hes]
      rfl
    | atEnd c old new =>
      rw [show Edit.onInst v (inst.mapOperands ρ) (.atEnd c old new) = inst.mapOperands ρ from rfl,
        ih hes]
      rfl
    | operand u old new =>
      by_cases hu : u = v
      · subst hu
        have hpair : ((Edit.operand u old new) :: es).filterMap (Edit.pairAt u) =
            (old, new) :: es.filterMap (Edit.pairAt u) := by simp [Edit.pairAt]
        rw [Edit.onInst, if_pos rfl, Inst.mapOperands_mapOperands (rename_noValue he), ih hes, hpair]
        rfl
      · have hpair : ((Edit.operand u old new) :: es).filterMap (Edit.pairAt v) =
            es.filterMap (Edit.pairAt v) := by simp [Edit.pairAt, hu]
        rw [Edit.onInst, if_neg hu, ih hes, hpair]

/-- Edits of a phi none of them fills rename its entries. -/
lemma foldl_onInst_phi (hfill : ∀ e ∈ es, e.fills v = false) {incoming : List (ℕ × ℕ)}
    {kind : LoadKind} : es.foldl (Edit.onInst v) (.phi incoming kind) =
      .phi (incoming.map fun p => (p.1, renames (es.filterMap (Edit.pairFrom v p.1)) p.2)) kind := by
  induction es generalizing incoming with
  | nil => simp [renames]
  | cons e es ih =>
    have hes := fun e' he' => hfill e' (.tail _ he')
    have he := hfill e (.head _)
    rw [List.foldl_cons]
    cases e with
    | fill u merged =>
      have hu : u ≠ v := by simpa [Edit.fills] using he
      rw [Edit.onInst, if_neg hu, ih hes]
      rfl
    | atEnd c old new =>
      rw [show Edit.onInst v (.phi incoming kind) (.atEnd c old new) = .phi incoming kind from rfl,
        ih hes]
      rfl
    | operand u old new =>
      by_cases hu : u = v
      · rw [Edit.onInst, if_pos hu, Inst.mapOperands, ih hes, List.map_map]
        congr 2
        funext p
        simp only [Function.comp, List.filterMap_cons, Edit.pairFrom, if_pos hu]
        rfl
      · rw [Edit.onInst, if_neg hu, ih hes]
        congr 2
        funext p
        simp only [List.filterMap_cons, Edit.pairFrom, if_neg hu]
    | incoming u q old new =>
      by_cases hu : u = v
      · rw [Edit.onInst, if_pos hu, renameIncoming, ih hes, List.map_map]
        congr 2
        funext p
        by_cases hq : p.1 = q
        · simp only [Function.comp, List.filterMap_cons, Edit.pairFrom, hq, if_pos, hu, and_self]
          rfl
        · simp only [Function.comp, List.filterMap_cons, Edit.pairFrom, hq, and_false, if_false]
      · rw [Edit.onInst, if_neg hu, ih hes]
        congr 2
        funext p
        simp only [List.filterMap_cons, Edit.pairFrom, hu, false_and, if_false]

/-- Edits of a phi that leave it or fill it the same way fill it. -/
lemma foldl_onInst_fill {entries merged : List (ℕ × ℕ)} {kind : LoadKind}
    (hall : ∀ e ∈ es, e = .fill v merged ∨ ∀ inst, Edit.onInst v inst e = inst)
    (hmem : Edit.fill v merged ∈ es) :
    es.foldl (Edit.onInst v) (.phi entries kind) = .phi merged kind := by
  have hdone : ∀ es : List Edit, (∀ e ∈ es, e = .fill v merged ∨ ∀ inst, Edit.onInst v inst e = inst) →
      es.foldl (Edit.onInst v) (.phi merged kind) = .phi merged kind := by
    intro es hall
    induction es with
    | nil => rfl
    | cons e es ih =>
      have hes := fun e' he' => hall e' (.tail _ he')
      rw [List.foldl_cons]
      rcases hall e (.head _) with rfl | hkeep
      · rw [Edit.onInst, if_pos rfl]
        exact ih hes
      · rw [hkeep]
        exact ih hes
  induction es with
  | nil => cases hmem
  | cons e es ih =>
    have hes := fun e' he' => hall e' (.tail _ he')
    rw [List.foldl_cons]
    rcases hall e (.head _) with rfl | hkeep
    · rw [Edit.onInst, if_pos rfl]
      exact hdone es hes
    · rw [hkeep]
      rcases List.mem_cons.mp hmem with rfl | hmem
      · rw [← hkeep (.phi entries kind), Edit.onInst, if_pos rfl]
        exact hdone es hes
      · exact ih hes hmem

lemma renames_noValue {l : List (ℕ × ℕ)} (h : ∀ p ∈ l, p.1 ≠ noValue) :
    renames l noValue = noValue :=
  renames_of_notMem fun _ ht => h _ ht rfl

/-- No edit of the end of a block is about the absent operand. -/
lemma Edit.Sound.pairEnd {e : Edit} (h : e.Sound) {p : ℕ × ℕ} (hp : e.pairEnd b = some p) :
    p.1 ≠ noValue := by
  cases e with
  | atEnd c old new =>
    rw [Edit.pairEnd] at hp
    split at hp
    · rw [← Option.some.inj hp]
      exact h
    · cases hp
  | fill u merged | operand u old new | incoming u q old new => cases hp

/-- Edits of the end of a block rename its exit value and the operand of its terminator. -/
lemma getElem?_blocks_foldl (hsound : ∀ e ∈ es, e.Sound) :
    (es.foldl Edit.apply g).blocks[b]? = (g.blocks[b]?).map fun blk => { blk with
      exitAcc := renames (es.filterMap (Edit.pairEnd b)) blk.exitAcc
      terminator := blk.terminator.mapOperands (renames (es.filterMap (Edit.pairEnd b))) } := by
  induction es generalizing g with
  | nil =>
    have hid : renames [] = fun v => v := rfl
    simp [hid, Terminator.mapOperands_id]
  | cons e es ih =>
    have hes := fun e' he' => hsound e' (.tail _ he')
    rw [List.foldl_cons, ih hes]
    cases e with
    | fill u merged | operand u old new | incoming u q old new => rfl
    | atEnd c old new =>
      simp only [Edit.apply, List.getElem?_modify, Option.map_eq_map, Option.map_map]
      congr 1
      funext blk
      by_cases hc : c = b
      · simp only [Function.comp, if_pos hc, List.filterMap_cons, Edit.pairEnd]
        rw [Terminator.mapOperands_mapOperands]
        · rfl
        · refine renames_noValue fun p hp => ?_
          obtain ⟨e, he, hep⟩ := List.mem_filterMap.mp hp
          exact (hes e he).pairEnd hep
      · simp only [Function.comp, if_neg hc, List.filterMap_cons, Edit.pairEnd]

end

/-! ## The edits of an application -/

/-- The edit a read asks for. -/
def editOf (rw : Tape.Rewrite) (id : Source → ℕ) (old : ℕ) : Read → Edit
  | .operand i s => .operand (rw.remap.getD i noValue) old (id s)
  | .incoming i q s => .incoming (rw.remap.getD i noValue) q old (id s)
  | .atEnd b s => .atEnd b old (id s)

/-- The edits of one item. -/
def editsOf (rw : Tape.Rewrite) (placed : List (ℕ × ℕ × Tape.Insertion))
    (p : (Redefined × Plan) × ℕ) : List Edit :=
  let id := idOf rw placed p.2
  (p.1.2.phis.map fun node => .fill (id (.entry node.1)) (node.2.map fun q => (q.1, id q.2))) ++
    p.1.2.reads.map (editOf rw id (rw.remap.getD p.1.1.value noValue))

/-- Filling the phis of an item and renaming its reads is making its edits. -/
lemma applyItem_eq (rw : Tape.Rewrite) (placed : List (ℕ × ℕ × Tape.Insertion)) (g : FunctionSsa)
    (p : (Redefined × Plan) × ℕ) :
    applyItem rw placed g p = (editsOf rw placed p).foldl Edit.apply g := by
  have hread : ∀ (id : Source → ℕ) (old : ℕ),
      applyRead rw id old = fun g rd => (editOf rw id old rd).apply g := by
    intro id old
    funext g rd
    cases rd <;> rfl
  rw [editsOf, List.foldl_append, List.foldl_map, List.foldl_map, applyItem]
  dsimp only
  rw [hread]
  rfl

/-- The edits of an application. -/
def edits (rw : Tape.Rewrite) (placed : List (ℕ × ℕ × Tape.Insertion)) (items : List Redefined)
    (plans : List Plan) : List Edit :=
  (items.zip plans).zipIdx.flatMap (editsOf rw placed)

/-- An application makes its edits of the function with the phis inserted. -/
lemma apply_eq (f : FunctionSsa) (items : List Redefined) (plans : List Plan) :
    apply f items plans =
      (edits (Tape.insert f ((placements f items plans).map fun p => p.2.2)).2.1
        (placements f items plans) items plans).foldl Edit.apply
        (Tape.insert f ((placements f items plans).map fun p => p.2.2)).1 := by
  have hitem : ∀ rw placed, applyItem rw placed = fun g p =>
      (editsOf rw placed p).foldl Edit.apply g := fun rw placed => by
    funext g p
    exact applyItem_eq rw placed g p
  rw [apply, edits, List.foldl_flatMap, hitem]

/-- Where an edit of an application comes from. -/
lemma mem_edits {rw : Tape.Rewrite} {placed : List (ℕ × ℕ × Tape.Insertion)}
    {items : List Redefined} {plans : List Plan} {e : Edit} :
    e ∈ edits rw placed items plans ↔ ∃ k r p, items[k]? = some r ∧ plans[k]? = some p ∧
      ((∃ node ∈ p.phis, e = .fill (idOf rw placed k (.entry node.1))
          (node.2.map fun q => (q.1, idOf rw placed k q.2))) ∨
        ∃ rd ∈ p.reads, e = editOf rw (idOf rw placed k) (rw.remap.getD r.value noValue) rd) := by
  simp only [edits, List.mem_flatMap, List.mem_zipIdx_iff_getElem?]
  constructor
  · rintro ⟨⟨⟨r, p⟩, k⟩, hget, he⟩
    obtain ⟨hr, hp⟩ := List.getElem?_zip_eq_some.mp hget
    refine ⟨k, r, p, hr, hp, ?_⟩
    simp only [editsOf, List.mem_append, List.mem_map] at he
    rcases he with ⟨node, hnode, rfl⟩ | ⟨rd, hrd, rfl⟩
    · exact .inl ⟨node, hnode, rfl⟩
    · exact .inr ⟨rd, hrd, rfl⟩
  · rintro ⟨k, r, p, hr, hp, he⟩
    refine ⟨((r, p), k), List.getElem?_zip_eq_some.mpr ⟨hr, hp⟩, ?_⟩
    simp only [editsOf, List.mem_append, List.mem_map]
    rcases he with ⟨node, hnode, rfl⟩ | ⟨rd, hrd, rfl⟩
    · exact .inl ⟨node, hnode, rfl⟩
    · exact .inr ⟨rd, hrd, rfl⟩

/-! ## Where the phis go -/

section

variable {f : FunctionSsa} {items : List Redefined} {plans : List Plan}

/-- The phis of the plans, each with its item and its block. -/
lemma mem_placements {x : ℕ × ℕ × Tape.Insertion} : x ∈ placements f items plans ↔
    ∃ r p, items[x.1]? = some r ∧ plans[x.1]? = some p ∧ x.2.1 ∈ p.phis.map Prod.fst ∧
      x.2.2 = insertionFor f r x.2.1 := by
  obtain ⟨k, b, ins⟩ := x
  simp only [placements, List.mem_insertionSort, List.mem_flatMap, List.mem_zipIdx_iff_getElem?,
    List.mem_map, Prod.mk.injEq]
  constructor
  · rintro ⟨⟨⟨r, p⟩, k'⟩, hget, node, hnode, rfl, rfl, rfl⟩
    obtain ⟨hr, hp⟩ := List.getElem?_zip_eq_some.mp hget
    exact ⟨r, p, hr, hp, ⟨node, hnode, rfl⟩, rfl⟩
  · rintro ⟨r, p, hr, hp, ⟨node, hnode, rfl⟩, rfl⟩
    exact ⟨((r, p), k), List.getElem?_zip_eq_some.mpr ⟨hr, hp⟩, node, hnode, rfl, rfl, rfl⟩

/-- An item has at most one phi in a block. -/
lemma nodup_placements (hphis : ∀ p ∈ plans, (p.phis.map Prod.fst).Nodup) :
    ((placements f items plans).map fun x => (x.1, x.2.1)).Nodup := by
  rw [placements, ((List.perm_insertionSort _ _).map _).nodup_iff, List.map_flatMap, List.nodup_flatMap]
  constructor
  · rintro ⟨⟨r, p⟩, k⟩ hmem
    have hp : p ∈ plans :=
      List.mem_of_getElem? (List.getElem?_zip_eq_some.mp (List.mem_zipIdx_iff_getElem?.mp hmem)).2
    have hkeys : ((p.phis.map fun node => (k, node.1, insertionFor f r node.1)).map
        fun x => (x.1, x.2.1)) = (p.phis.map Prod.fst).map (Prod.mk k) := by
      simp [List.map_map, Function.comp_def]
    rw [hkeys]
    exact (hphis p hp).map fun a b hab => (Prod.mk.inj hab).2
  · have hnumbers : ((items.zip plans).zipIdx.map Prod.snd).Nodup := by
      rw [List.zipIdx_map_snd]
      exact List.nodup_range'
    refine (List.pairwise_map.mp hnumbers).imp ?_
    rintro ⟨⟨r, p⟩, k⟩ ⟨⟨r', p'⟩, k'⟩ hne x hx hx'
    simp only [List.mem_map] at hx hx'
    obtain ⟨y, ⟨node, -, rfl⟩, rfl⟩ := hx
    obtain ⟨y', ⟨node', -, rfl⟩, heq⟩ := hx'
    exact hne (Prod.mk.inj heq).1.symm

/-- The number of an item's phi in a block. -/
lemma getElem?_slotOf (hphis : ∀ p ∈ plans, (p.phis.map Prod.fst).Nodup)
    {x : ℕ × ℕ × Tape.Insertion} (hx : x ∈ placements f items plans) :
    (placements f items plans)[slotOf (placements f items plans) x.1 x.2.1]? = some x := by
  have hex : ∃ y ∈ placements f items plans, (y.1 = x.1 && y.2.1 = x.2.1) = true :=
    ⟨x, hx, by simp⟩
  have hlt := List.findIdx_lt_length_of_exists hex
  have hkey := List.findIdx_getElem (w := hlt)
  simp only [Bool.and_eq_true, decide_eq_true_eq] at hkey
  have hget := List.getElem?_eq_getElem hlt
  have hmem := List.getElem_mem hlt
  rw [slotOf, hget]
  congr 1
  exact List.inj_on_of_nodup_map (nodup_placements hphis) hmem hx (Prod.ext hkey.1 hkey.2)

lemma slotOf_eq (hphis : ∀ p ∈ plans, (p.phis.map Prod.fst).Nodup) {j : ℕ}
    {x : ℕ × ℕ × Tape.Insertion} (hx : (placements f items plans)[j]? = some x) :
    slotOf (placements f items plans) x.1 x.2.1 = j := by
  have hget := getElem?_slotOf hphis (List.mem_of_getElem? hx)
  have hlt := (List.getElem?_eq_some_iff.mp hget).1
  have hnodup : (placements f items plans).Nodup := (nodup_placements hphis).of_map _
  exact (List.getElem?_inj hlt hnodup).mp (hget.trans hx.symm)

/-- There are no more phis than items and blocks. -/
lemma length_placements (hlen : ∀ p ∈ plans, p.phis.length ≤ f.blocks.length) :
    (placements f items plans).length ≤ items.length * f.blocks.length := by
  rw [placements, List.length_insertionSort, List.length_flatMap]
  have hsum : ∀ n ∈ (items.zip plans).zipIdx.map fun p : (Redefined × Plan) × ℕ =>
      (p.1.2.phis.map fun node => (p.2, node.1, insertionFor f p.1.1 node.1)).length,
      n ≤ f.blocks.length := by
    intro n hn
    obtain ⟨⟨⟨r, p⟩, k⟩, hmem, rfl⟩ := List.mem_map.mp hn
    rw [List.length_map]
    exact hlen p (List.mem_of_getElem?
      (List.getElem?_zip_eq_some.mp (List.mem_zipIdx_iff_getElem?.mp hmem)).2)
  refine (List.sum_le_card_nsmul _ _ hsum).trans ?_
  rw [List.length_map, List.length_zipIdx, List.length_zip, smul_eq_mul]
  exact Nat.mul_le_mul_right _ (min_le_left _ _)

/-- The tape of a function: its blocks hold disjoint parts of it, and an empty block starts inside no
other. -/
structure TapeOk (f : FunctionSsa) : Prop where
  range : ∀ (b : ℕ) blk, f.blocks[b]? = some blk →
    blk.instRange.start ≤ blk.instRange.stop ∧ blk.instRange.stop ≤ f.insts.length
  disjoint : ∀ v b c, InBlock f v b → InBlock f v c → b = c
  emptyOutside : ∀ (b : ℕ) blk, f.blocks[b]? = some blk →
    blk.instRange.stop ≤ blk.instRange.start → 0 < blk.instRange.start →
    blk.instRange.start < f.insts.length →
    ¬ ∃ c, InBlock f blk.instRange.start c ∧ InBlock f (blk.instRange.start - 1) c

lemma Verified.tapeOk (h : Verified f) : TapeOk f := ⟨h.range, h.disjoint, h.emptyOutside⟩

/-- The phis can be inserted. -/
lemma insertable_placements (ht : TapeOk f)
    (hblocks : ∀ p ∈ plans, ∀ b ∈ p.phis.map Prod.fst, b < f.blocks.length)
    (hsmall : f.insts.length + (placements f items plans).length ≤ noValue) :
    Tape.Insertable f ((placements f items plans).map fun p => p.2.2) where
  range := ht.range
  disjoint := ht.disjoint
  boundary b blk hblk hempty := by
    simp only [Tape.atBoundary, Bool.not_eq_true', List.any_eq_false, Bool.and_eq_true,
      decide_eq_true_eq, not_and]
    intro other hother hlo hhi
    obtain ⟨c, hc⟩ := List.mem_iff_getElem?.mp hother
    have hstop := (ht.range c other hc).2
    exact ht.emptyOutside b blk hblk (le_of_eq hempty.symm) (by omega) (by omega)
      ⟨c, ⟨other, hc, by omega, hhi⟩, ⟨other, hc, by omega, by omega⟩⟩
  valid i hi := by
    obtain ⟨x, hx, rfl⟩ := List.mem_map.mp hi
    obtain ⟨r, p, -, hp, hb, hins⟩ := mem_placements.mp hx
    have hlt := hblocks p (List.mem_of_getElem? hp) _ hb
    have hblk : f.blocks[x.2.1]? = some f.blocks[x.2.1] := List.getElem?_eq_getElem hlt
    have hrange := ht.range _ _ hblk
    rw [hins, insertionFor]
    dsimp only
    split
    · rename_i hempty
      exact ⟨hlt, hempty⟩
    · rename_i hfull
      change (Tape.rangeOf f.blocks x.2.1).start < f.insts.length
      rw [Tape.rangeOf_eq hblk] at hfull ⊢
      omega
  sorted := by
    rw [SortedBy, List.pairwise_map]
    exact List.pairwise_insertionSort _ _
  small := by rwa [List.length_map]

end

end Repair

end Badc
