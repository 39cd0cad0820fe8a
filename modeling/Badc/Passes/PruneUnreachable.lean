import Badc.Lib.Mark
import Badc.Passes.RemapBlocks

/-!
# Deleting unreachable blocks

`src/c5/codegen/passes/prune_unreachable.rs`.  A block stays when the entry reaches it over the
targets of the terminators, when the exception dispatcher enters it, or when its address exists:
static data holds it, or a block that stays takes it.

`prune_renamed` says that what is left is the function under new names, and `prune_namesInRange`
that no reference to a deleted block is left behind.
-/

namespace Badc

/-- The block whose address an instruction takes. -/
def Inst.blockAddr? : Inst → Option ℕ
  | .blockAddr t => some t
  | _ => none

/-- The blocks that stay when `b` does: the targets of its terminator and the blocks whose
addresses it takes. -/
def aliveWith (f : FunctionSsa) (b : ℕ) : List ℕ :=
  match f.blocks[b]? with
  | none => []
  | some blk => blk.terminator.targets f.jumpTables ++
      blk.instRange.toList.filterMap fun v => (f.insts[v]?).bind Inst.blockAddr?

/-- The blocks entered from outside the function's own branches. -/
def pruneRoots (f : FunctionSsa) : List ℕ :=
  f.labelDataRelocs.map LabelDataReloc.block ++ f.sehScopes.filterMap SehScope.target

/-- The blocks that stay, in the order the search meets them. -/
def reachableBlocks (f : FunctionSsa) : List ℕ :=
  (((pruneRoots f).foldl Mark.insert ⟨[0], [0]⟩).run (aliveWith f) f.blocks.length).seen

/-- Whether a block that does not stay holds the instruction. -/
def deadValue (f : FunctionSsa) (v : ℕ) : Bool :=
  f.blocks.zipIdx.any fun p =>
    p.2 ∉ reachableBlocks f && (p.1.instRange.start ≤ v && v < p.1.instRange.stop)

/-- Whether a block that stays dispatches over the table. -/
def liveTable (f : FunctionSsa) (table : ℕ) : Bool :=
  f.blocks.zipIdx.any fun p => p.2 ∈ reachableBlocks f && p.1.terminator.table? = some table

/-- The blocks that stay, ascending. -/
def keptBlocks (f : FunctionSsa) : List ℕ :=
  (List.range f.blocks.length).filter fun b => b ∈ reachableBlocks f

/-- The function with the blocks that stay, before they are renumbered. -/
def scrubUnreachable (f : FunctionSsa) : FunctionSsa :=
  { f with
    externCallRefs := f.externCallRefs.filter fun r => !deadValue f r.1
    externImmCodeRefs := f.externImmCodeRefs.filter fun r => !deadValue f r.1
    externImmDataRefs := f.externImmDataRefs.filter fun r => !deadValue f r.1
    externTlsRefs := f.externTlsRefs.filter fun r => !deadValue f r.1
    insts := f.insts.zipIdx.map fun p =>
      if deadValue f p.2 then .imm 0 else p.1.keepIncomes (keptBlocks f)
    jumpTables := f.jumpTables.zipIdx.map fun p => if liveTable f p.2 then p.1 else []
    computedGotoTargets := f.computedGotoTargets.filter fun t => t ∈ reachableBlocks f
    blocks := (keptBlocks f).map fun old => f.blocks.getD old default }

/-- Delete the blocks that do not stay; whether there was one. -/
def pruneUnreachable (f : FunctionSsa) : FunctionSsa × Bool :=
  if f.blocks.length = 0 then (f, false)
  else if (List.range f.blocks.length).all fun b => b ∈ reachableBlocks f then (f, false)
  else (remapBlockIds (scrubUnreachable f) (newIds f.blocks.length (keptBlocks f)), true)

/-- The blocks code can enter: the entry, what static data and the dispatcher name, and what a
live block branches to or takes the address of. -/
inductive Live (f : FunctionSsa) : ℕ → Prop
  | entry : Live f 0
  | root {t : ℕ} : t ∈ pruneRoots f → Live f t
  | step {b t : ℕ} : Live f b → t ∈ aliveWith f b → Live f t

/-- The address of a block exists: static data holds it, or live code takes it. -/
def AddressTaken (f : FunctionSsa) (t : ℕ) : Prop :=
  t ∈ f.labelDataRelocs.map LabelDataReloc.block ∨
    ∃ b v, Live f b ∧ InBlock f v b ∧ f.insts[v]? = some (.blockAddr t)

/-- What the passes over the block graph rely on: the ranges of the blocks lie on the tape and are
disjoint, and every block named exists. -/
structure WellNamed (f : FunctionSsa) : Prop extends NamesInRange f where
  nonempty : 0 < f.blocks.length
  range : ∀ (b : ℕ) blk, f.blocks[b]? = some blk →
    blk.instRange.start ≤ blk.instRange.stop ∧ blk.instRange.stop ≤ f.insts.length
  disjoint : ∀ v b c, InBlock f v b → InBlock f v c → b = c
  held : ∀ (v t : ℕ), f.insts[v]? = some (.blockAddr t) → ∃ b, InBlock f v b
  targets : ∀ (b : ℕ) blk, f.blocks[b]? = some blk → TargetsExist f blk.terminator
  gotoTargets : ∀ t ∈ f.computedGotoTargets, t < f.blocks.length

section

variable {f : FunctionSsa}

/-- Membership in the blocks that stay with a block. -/
lemma mem_aliveWith {b t : ℕ} : t ∈ aliveWith f b ↔ ∃ blk, f.blocks[b]? = some blk ∧
    (t ∈ blk.terminator.targets f.jumpTables ∨
      ∃ v, InBlock f v b ∧ f.insts[v]? = some (.blockAddr t)) := by
  unfold aliveWith
  cases hblk : f.blocks[b]? with
  | none => simp
  | some blk =>
    simp only [List.mem_append, List.mem_filterMap, InstRange.mem_toList,
      Option.bind_eq_some_iff, Option.some.injEq, exists_eq_left']
    refine or_congr Iff.rfl (exists_congr fun v => ?_)
    constructor
    · rintro ⟨hv, inst, hinst, haddr⟩
      refine ⟨⟨blk, hblk, hv⟩, ?_⟩
      cases inst with
      | blockAddr u =>
        rw [hinst, Option.some.inj haddr]
      | _ => cases haddr
    · rintro ⟨⟨blk', hblk', hv⟩, hinst⟩
      obtain rfl := Option.some.inj (hblk.symm.trans hblk')
      exact ⟨hv, _, hinst, rfl⟩

lemma WellNamed.aliveWith_lt (hf : WellNamed f) {b t : ℕ} (h : t ∈ aliveWith f b) :
    t < f.blocks.length := by
  obtain ⟨blk, hblk, ht | ⟨v, -, hv⟩⟩ := mem_aliveWith.mp h
  · exact (hf.targets b blk hblk).targets_lt t ht
  · exact hf.addresses v t hv

lemma WellNamed.pruneRoots_lt (hf : WellNamed f) {t : ℕ} (h : t ∈ pruneRoots f) :
    t < f.blocks.length := by
  rcases List.mem_append.mp h with h | h
  · obtain ⟨r, hr, rfl⟩ := List.mem_map.mp h
    exact hf.labels r hr
  · obtain ⟨s, hs, ht⟩ := List.mem_filterMap.mp h
    exact hf.scopes s hs t ht

/-- What the search finds: blocks of the function, each once, the entry, the roots and all that
stays with a block found. -/
lemma WellNamed.reachableBlocks_spec (hf : WellNamed f) :
    (∀ b ∈ reachableBlocks f, b < f.blocks.length) ∧ 0 ∈ reachableBlocks f ∧
      (∀ t ∈ pruneRoots f, t ∈ reachableBlocks f) ∧
      ∀ b ∈ reachableBlocks f, ∀ t ∈ aliveWith f b, t ∈ reachableBlocks f := by
  have hinit : Mark.Inv (aliveWith f) (fun _ => False) ⟨[0], [0]⟩ :=
    ⟨by simp, by simp, by simp⟩
  have hlen := Mark.length_foldl ⟨[0], [0]⟩ (pruneRoots f)
  obtain ⟨hseen, hlt, -, hclosed⟩ := Mark.run_spec (hinit.foldl (pruneRoots f))
    (n := f.blocks.length) (by simp only [List.length_singleton] at hlen; omega)
    (by
      intro b hb
      rcases Mark.mem_seen_foldl.mp hb with hb | hb
      · rw [List.mem_singleton.mp hb]
        exact hf.nonempty
      · exact hf.pruneRoots_lt hb)
    (fun b _ t ht => hf.aliveWith_lt ht)
  refine ⟨hlt, hseen 0 (Mark.mem_seen_foldl.mpr (Or.inl (by simp))),
    fun t ht => hseen t (Mark.mem_seen_foldl.mpr (Or.inr ht)), fun b hb t ht => ?_⟩
  exact (hclosed b hb).resolve_left id t ht

lemma WellNamed.reachable_of_live (hf : WellNamed f) {b : ℕ} (h : Live f b) :
    b ∈ reachableBlocks f := by
  obtain ⟨-, hentry, hroots, hclosed⟩ := hf.reachableBlocks_spec
  induction h with
  | entry => exact hentry
  | root ht => exact hroots _ ht
  | step _ ht ih => exact hclosed _ ih _ ht

lemma WellNamed.reachable_of_addressTaken (hf : WellNamed f) {t : ℕ} (h : AddressTaken f t) :
    t ∈ reachableBlocks f := by
  rcases h with h | ⟨b, v, hb, hv, hinst⟩
  · exact hf.reachable_of_live (.root (List.mem_append_left _ h))
  · have ⟨blk, hblk, _⟩ := hv
    exact hf.reachable_of_live (.step hb (mem_aliveWith.mpr ⟨blk, hblk, Or.inr ⟨v, hv, hinst⟩⟩))

lemma WellNamed.mem_keptBlocks (hf : WellNamed f) {b : ℕ} :
    b ∈ keptBlocks f ↔ b ∈ reachableBlocks f := by
  simp only [keptBlocks, List.mem_filter, List.mem_range, decide_eq_true_eq, and_iff_right_iff_imp]
  exact hf.reachableBlocks_spec.1 b

lemma WellNamed.deadValue_eq_false (hf : WellNamed f) {b v : ℕ} (hb : b ∈ reachableBlocks f)
    (hv : InBlock f v b) : deadValue f v = false := by
  rw [Bool.eq_false_iff]
  intro hdead
  obtain ⟨⟨blk, c⟩, hc, hp⟩ := List.any_eq_true.mp hdead
  rw [List.mem_zipIdx_iff_getElem?] at hc
  simp only [Bool.and_eq_true, decide_eq_true_eq] at hp
  exact hp.1 (hf.disjoint v c b ⟨blk, hc, hp.2⟩ hv ▸ hb)

/-- Looking up a key in the entries that are kept, when all entries of the key are. -/
lemma lookup_filter {l : List (ℕ × ℕ)} {keep : ℕ × ℕ → Bool} {v : ℕ}
    (h : ∀ x, keep (v, x) = true) : (l.filter keep).lookup v = l.lookup v := by
  induction l with
  | nil => rfl
  | cons p l ih =>
    by_cases hp : p.1 = v
    · obtain ⟨k, x⟩ := p
      obtain rfl : k = v := hp
      rw [List.filter_cons_of_pos (h x)]
      rw [List.lookup_cons_self, List.lookup_cons_self]
    · have hne : (v == p.1) = false := beq_eq_false_iff_ne.mpr fun he => hp he.symm
      rw [List.filter_cons]
      split
      · rw [List.lookup_cons, List.lookup_cons, hne, ih]
      · rw [List.lookup_cons, hne, ih]

lemma symbolOf_scrub {v : ℕ} (hv : deadValue f v = false) :
    (scrubUnreachable f).symbolOf v = f.symbolOf v := by
  have hkeep : ∀ x : ℕ, (fun r : ℕ × ℕ => !deadValue f r.1) (v, x) = true := fun x => by simp [hv]
  simp only [FunctionSsa.symbolOf, scrubUnreachable, ← List.filter_append]
  exact lookup_filter hkeep

/-- What is left after scrubbing names only blocks that stay. -/
lemma WellNamed.scrubbed (hf : WellNamed f) (hlow : ∀ b, isMarked f.lowWordTests b = false) :
    Scrubbed (keptBlocks f) f (scrubUnreachable f) := by
  obtain ⟨hlt, hentry, hroots, hclosed⟩ := hf.reachableBlocks_spec
  have hstay : ∀ b ∈ keptBlocks f, ∀ t ∈ aliveWith f b, t ∈ keptBlocks f := fun b hb t ht =>
    hf.mem_keptBlocks.mpr (hclosed b (hf.mem_keptBlocks.mp hb) t ht)
  have halive : ∀ b ∈ keptBlocks f, ∀ v, InBlock f v b → deadValue f v = false :=
    fun b hb v hv => hf.deadValue_eq_false (hf.mem_keptBlocks.mp hb) hv
  refine
    { nodup := List.nodup_range.filter _
      entry := ?_
      count := hf.count
      inRange := fun b hb => hlt b (hf.mem_keptBlocks.mp hb)
      blocks := rfl
      inst := ?_
      targets := fun b hb blk hblk t ht =>
        hstay b hb t (mem_aliveWith.mpr ⟨blk, hblk, Or.inl ht⟩)
      addresses := ?_
      tables := ?_
      gotoTargets := ?_
      labels := rfl
      labelsKept := fun r hr => hf.mem_keptBlocks.mpr
        (hroots _ (List.mem_append_left _ (List.mem_map_of_mem hr)))
      scopes := rfl
      scopesKept := fun s hs t ht => hf.mem_keptBlocks.mpr
        (hroots _ (List.mem_append_right _ (List.mem_filterMap.mpr ⟨s, hs, ht⟩)))
      blockSeh := rfl
      lowWordTests := fun i b _ => (hlow i).trans (hlow b).symm
      symbol := fun b hb v hv => symbolOf_scrub (halive b hb v hv)
      f32Values := rfl
      cmp32 := rfl
      div32 := rfl }
  · -- The entry is the first block and stays.
    obtain ⟨n, hn⟩ := Nat.exists_eq_succ_of_ne_zero hf.nonempty.ne'
    rw [keptBlocks, hn, List.range_succ_eq_map, List.filter_cons_of_pos (by simp [hentry])]
    rfl
  · intro b hb v hv
    simp only [scrubUnreachable, List.getElem?_map, List.getElem?_zipIdx, Option.map_map]
    cases hinst : f.insts[v]? with
    | none => rfl
    | some inst => simp [halive b hb v hv]
  · intro b hb v t hv hinst
    have ⟨blk, hblk, _⟩ := hv
    exact hstay b hb t (mem_aliveWith.mpr ⟨blk, hblk, Or.inr ⟨v, hv, hinst⟩⟩)
  · intro b hb blk table hblk htable
    have hlive : liveTable f table = true := by
      refine List.any_eq_true.mpr ⟨(blk, b), List.mem_zipIdx_iff_getElem?.mpr hblk, ?_⟩
      simp [hf.mem_keptBlocks.mp hb, htable]
    simp only [scrubUnreachable, List.getElem?_map, List.getElem?_zipIdx, Option.map_map]
    cases f.jumpTables[table]? with
    | none => rfl
    | some row => simp [hlive]
  · simp only [scrubUnreachable, hf.mem_keptBlocks]

/-- A function under its own names. -/
lemma WellNamed.renamed_self (hf : WellNamed f) :
    Renamed (List.range f.blocks.length) f f := by
  have hself : ∀ b < f.blocks.length, (List.range f.blocks.length).idxOf b = b := fun b hb =>
    idxOf_of_getElem? List.nodup_range (List.getElem?_range hb)
  have hmem : ∀ {b}, b ∈ List.range f.blocks.length ↔ b < f.blocks.length := List.mem_range
  have hid : ∀ l : List ℕ, (∀ t ∈ l, t < f.blocks.length) →
      l.map (List.range f.blocks.length).idxOf = l := fun l hl =>
    (List.map_congr_left fun t ht => hself t (hl t ht)).trans (List.map_id l)
  have hget : ∀ {i b : ℕ}, (List.range f.blocks.length)[i]? = some b → i = b := fun h =>
    (List.getElem?_eq_some_iff.mp h).2 ▸ (List.getElem_range _).symm
  refine
    { nodup := List.nodup_range
      entry := List.getElem?_range hf.nonempty
      numBlocks := by simp
      block := ?_
      inst := ?_
      targets := fun b _ blk hblk t ht => hmem.mpr ((hf.targets b blk hblk).targets_lt t ht)
      addresses := fun b _ v t _ ht => hmem.mpr (hf.addresses v t ht)
      tables := ?_
      gotoTargets := ?_
      labels := ?_
      scopes := ?_
      blockSeh := fun i b hi => by rw [hget hi]
      lowWordTests := fun i b hi => by rw [hget hi]
      symbol := fun _ _ _ _ => rfl
      f32Values := rfl
      cmp32 := rfl
      div32 := rfl }
  · intro i b hi
    obtain rfl := hget hi
    have hlt : i < f.blocks.length := by simpa using List.mem_of_getElem? hi
    have hblk := List.getElem?_eq_getElem hlt
    refine ⟨_, hblk, ?_⟩
    have hterm : (f.blocks[i]).terminator.mapBlocks (List.range f.blocks.length).idxOf =
        (f.blocks[i]).terminator := by
      refine (Terminator.mapBlocks_congr (h := id) fun t ht =>
        hself t ((hf.targets i _ hblk).targets_lt t ht)).trans ?_
      cases (f.blocks[i]).terminator <;> rfl
    rw [hterm]
    exact hblk
  · intro b _ v _
    cases hinst : f.insts[v]? with
    | none => rfl
    | some inst =>
      cases inst with
      | blockAddr t =>
        simp only [Option.map_some, Inst.keepIncomes, Inst.mapBlocks, hself t
          (hf.addresses v t hinst)]
      | phi incoming kind =>
        have hin := hf.incomes v incoming kind hinst
        simp only [Option.map_some, Inst.keepIncomes, Inst.mapBlocks, Option.some.injEq,
          Inst.phi.injEq, and_true]
        rw [List.filter_eq_self.mpr fun q hq => decide_eq_true (hmem.mpr (hin q hq))]
        refine ((List.map_congr_left fun q hq => ?_).trans (List.map_id incoming)).symm
        rw [hself q.1 (hin q hq)]
        rfl
      | _ => rfl
  · intro b _ blk table _ _
    cases hrow : f.jumpTables[table]? with
    | none => rfl
    | some row =>
      rw [Option.map_some, hid row (hf.rows row (List.mem_of_getElem? hrow))]
  · rw [List.filter_eq_self.mpr fun t ht => decide_eq_true (hmem.mpr (hf.gotoTargets t ht)),
      hid _ hf.gotoTargets]
  · refine ((List.map_congr_left fun r hr => ?_).trans (List.map_id _)).symm
    rw [hself r.block (hf.labels r hr)]
    rfl
  · refine ((List.map_congr_left fun s hs => ?_).trans (List.map_id _)).symm
    cases htarget : s.target with
    | none => rw [Option.map_none, ← htarget]; rfl
    | some t =>
      rw [Option.map_some, hself t (hf.scopes s hs t htarget), ← htarget]
      rfl

/-- Pruning leaves the function under new names. -/
theorem WellNamed.prune_renamed (hf : WellNamed f) (hlow : ∀ b, isMarked f.lowWordTests b = false) :
    Renamed (keptBlocks f) f (pruneUnreachable f).1 := by
  unfold pruneUnreachable
  rw [if_neg hf.nonempty.ne']
  split
  · rename_i hall
    have hkept : keptBlocks f = List.range f.blocks.length :=
      List.filter_eq_self.mpr fun b hb => List.all_eq_true.mp hall b hb
    rw [hkept]
    exact hf.renamed_self
  · exact (hf.scrubbed hlow).renamed

lemma Renamed.inBlock_iff {order : List ℕ} {f' : FunctionSsa} (h : Renamed order f f') {i b v : ℕ}
    (hi : order[i]? = some b) : InBlock f' v i ↔ InBlock f v b := by
  obtain ⟨blk, hblk, hblk'⟩ := h.block i b hi
  simp only [InBlock, hblk, hblk', Option.some.injEq, exists_eq_left']

lemma Renamed.getElem?_of_block {order : List ℕ} {f' : FunctionSsa} (h : Renamed order f f')
    {i : ℕ} {blk' : Block} (hblk' : f'.blocks[i]? = some blk') : ∃ b, order[i]? = some b := by
  have hi : i < f'.blocks.length := (List.getElem?_eq_some_iff.mp hblk').1
  rw [h.numBlocks] at hi
  exact ⟨_, List.getElem?_eq_getElem hi⟩

/-- The blocks a renamed terminator names exist. -/
lemma Renamed.targetsExist {order : List ℕ} {f' : FunctionSsa} (h : Renamed order f f')
    (hf : WellNamed f) (i : ℕ) (blk' : Block) (hblk' : f'.blocks[i]? = some blk') :
    TargetsExist f' blk'.terminator := by
  obtain ⟨b, hi⟩ := h.getElem?_of_block hblk'
  obtain ⟨blk, hblk, hblk₁⟩ := h.block i b hi
  obtain rfl := Option.some.inj (hblk'.symm.trans hblk₁)
  have hb := List.mem_of_getElem? hi
  have htargets := h.targets b hb blk hblk
  have htables := h.tables b hb blk
  have hexist := hf.targets b blk hblk
  have hlt : ∀ t ∈ order, order.idxOf t < f'.blocks.length := fun t ht =>
    h.numBlocks ▸ List.idxOf_lt_length_of_mem ht
  revert htargets htables hexist
  cases blk.terminator with
  | jmp t | fallThrough t =>
    intro htargets _ _
    exact hlt t (htargets t (by simp [Terminator.targets]))
  | bz cond t e | bnz cond t e =>
    intro htargets _ _
    exact ⟨hlt t (htargets t (by simp [Terminator.targets])),
      hlt e (htargets e (by simp [Terminator.targets]))⟩
  | jumpTable idx table | asmGoto table =>
    intro htargets htables hexist
    obtain ⟨row, hrow, -⟩ := hexist
    refine ⟨row.map order.idxOf, by rw [htables table hblk rfl, hrow]; rfl, fun t ht => ?_⟩
    obtain ⟨u, hu, rfl⟩ := List.mem_map.mp ht
    refine hlt u (htargets u ?_)
    simpa [Terminator.targets, List.getD_eq_getElem?_getD, hrow] using hu
  | _ => exact fun _ _ _ => trivial

/-- An instruction that is left has its block left. -/
lemma WellNamed.keptBlocks_of_inBlock (hf : WellNamed f) {b v : ℕ} (hv : InBlock f v b)
    (hdead : deadValue f v = false) : b ∈ keptBlocks f := by
  have ⟨blk, hblk, hrange⟩ := hv
  by_contra hb
  have : deadValue f v = true := by
    refine List.any_eq_true.mpr ⟨(blk, b), List.mem_zipIdx_iff_getElem?.mpr hblk, ?_⟩
    simp only [Bool.and_eq_true, decide_eq_true_eq]
    exact ⟨fun h => hb (hf.mem_keptBlocks.mpr h), hrange⟩
  rw [this] at hdead
  cases hdead

/-- After the scrubbing, no block that is named is one that goes. -/
lemma WellNamed.namesInRange_remap (hf : WellNamed f) (hlow : ∀ b, isMarked f.lowWordTests b = false) :
    NamesInRange (remapBlockIds (scrubUnreachable f) (newIds f.blocks.length (keptBlocks f))) := by
  have hs := hf.scrubbed hlow
  have hr := hs.renamed
  have hlen := hr.numBlocks
  have hmap : ∀ t ∈ keptBlocks f, mapped (newIds f.blocks.length (keptBlocks f)) t <
      (keptBlocks f).length := fun t ht => by
    rw [mapped_newIds hs.nodup ht (hs.inRange t ht)]
    exact List.idxOf_lt_length_of_mem ht
  have hinst : ∀ (v : ℕ) inst', (remapBlockIds (scrubUnreachable f)
      (newIds f.blocks.length (keptBlocks f))).insts[v]? = some inst' →
      inst' = .imm 0 ∨ ∃ inst, f.insts[v]? = some inst ∧ deadValue f v = false ∧
        inst' = (inst.keepIncomes (keptBlocks f)).mapBlocks
          (mapped (newIds f.blocks.length (keptBlocks f))) := by
    intro v inst' h
    simp only [remapBlockIds, scrubUnreachable, List.getElem?_map, List.getElem?_zipIdx,
      Option.map_map, Option.map_eq_some_iff, Function.comp] at h
    obtain ⟨inst, hinst, rfl⟩ := h
    cases hdead : deadValue f v with
    | true => simp [hdead, Inst.mapBlocks]
    | false => simp [hdead, hinst]
  constructor
  · rw [hlen]
    refine le_trans ?_ hf.count
    have := (hs.nodup.subperm fun b hb => List.mem_range.mpr (hs.inRange b hb)).length_le
    rwa [List.length_range] at this
  · intro v t' h
    rw [hlen]
    rcases hinst v _ h with h0 | ⟨inst, hi, hdead, heq⟩
    · cases h0
    · cases inst with
      | blockAddr t =>
        obtain ⟨b, hb⟩ := hf.held v t hi
        injection heq with heq
        rw [heq]
        exact hmap t (hs.addresses b (hf.keptBlocks_of_inBlock hb hdead) v t hb hi)
      | _ => cases heq
  · intro v incoming' kind h q' hq'
    rw [hlen]
    rcases hinst v _ h with h0 | ⟨inst, hi, -, heq⟩
    · cases h0
    · cases inst with
      | phi incoming kind₀ =>
        injection heq with heq
        rw [heq] at hq'
        obtain ⟨q, hq, rfl⟩ := List.mem_map.mp hq'
        exact hmap q.1 (of_decide_eq_true (List.mem_filter.mp hq).2)
      | _ => cases heq
  · intro row' hrow' t' ht'
    rw [hlen]
    simp only [remapBlockIds, scrubUnreachable, List.mem_map] at hrow'
    obtain ⟨-, ⟨⟨row, k⟩, hk, rfl⟩, rfl⟩ := hrow'
    rw [List.mem_zipIdx_iff_getElem?] at hk
    cases hlive : liveTable f k with
    | false => simp [hlive] at ht'
    | true =>
      simp only [hlive, if_true, List.mem_map] at ht'
      obtain ⟨t, ht, rfl⟩ := ht'
      obtain ⟨⟨blk, b⟩, hb, hp⟩ := List.any_eq_true.mp hlive
      rw [List.mem_zipIdx_iff_getElem?] at hb
      simp only [Bool.and_eq_true, decide_eq_true_eq] at hp
      refine hmap t (hs.targets b (hf.mem_keptBlocks.mpr hp.1) blk hb t ?_)
      have htable := hp.2
      cases hterm : blk.terminator with
      | jumpTable idx k' | asmGoto k' =>
        rw [hterm] at htable
        obtain rfl : k' = k := Option.some.inj htable
        simpa [Terminator.targets, List.getD_eq_getElem?_getD, show f.jumpTables[k']? = some row
          from hk] using ht
      | _ =>
        rw [hterm] at htable
        cases htable
  · intro r' hr'
    rw [hlen]
    rw [hr.labels] at hr'
    obtain ⟨r, hmem, rfl⟩ := List.mem_map.mp hr'
    exact List.idxOf_lt_length_of_mem (hs.labelsKept r hmem)
  · intro s' hs' t' ht'
    rw [hlen]
    rw [hr.scopes] at hs'
    obtain ⟨s, hmem, rfl⟩ := List.mem_map.mp hs'
    obtain ⟨t, ht, rfl⟩ := Option.map_eq_some_iff.mp ht'
    exact List.idxOf_lt_length_of_mem (hs.scopesKept s hmem t ht)

/-- Pruning leaves a function in which every block named exists. -/
theorem WellNamed.prune (hf : WellNamed f) (hlow : ∀ b, isMarked f.lowWordTests b = false) :
    WellNamed (pruneUnreachable f).1 := by
  have hr := hf.prune_renamed hlow
  have htargets := hr.targetsExist hf
  revert hr htargets
  unfold pruneUnreachable
  rw [if_neg hf.nonempty.ne']
  split
  · exact fun _ _ => hf
  · intro hr htargets
    have hlen : (remapBlockIds (scrubUnreachable f)
        (newIds f.blocks.length (keptBlocks f))).insts.length = f.insts.length := by
      simp [remapBlockIds, scrubUnreachable]
    refine
      { hf.namesInRange_remap hlow with
        nonempty := by
          rw [hr.numBlocks]
          exact (List.getElem?_eq_some_iff.mp hr.entry).1
        range := ?_
        disjoint := ?_
        held := ?_
        targets := htargets
        gotoTargets := ?_ }
    · intro i blk' hblk'
      obtain ⟨b, hi⟩ := hr.getElem?_of_block hblk'
      obtain ⟨blk, hblk, hblk₁⟩ := hr.block i b hi
      obtain rfl := Option.some.inj (hblk'.symm.trans hblk₁)
      rw [hlen]
      exact hf.range b blk hblk
    · intro v i j hvi hvj
      obtain ⟨_, hblki, -⟩ := id hvi
      obtain ⟨_, hblkj, -⟩ := id hvj
      obtain ⟨b, hi⟩ := hr.getElem?_of_block hblki
      obtain ⟨c, hj⟩ := hr.getElem?_of_block hblkj
      obtain rfl := hf.disjoint v b c ((hr.inBlock_iff hi).mp hvi) ((hr.inBlock_iff hj).mp hvj)
      rw [← idxOf_of_getElem? hr.nodup hi, ← idxOf_of_getElem? hr.nodup hj]
    · intro v t h
      simp only [remapBlockIds, scrubUnreachable, List.getElem?_map, List.getElem?_zipIdx,
        Option.map_map, Option.map_eq_some_iff, Function.comp] at h
      obtain ⟨inst, hinst, h⟩ := h
      cases hdead : deadValue f v with
      | true => simp [hdead, Inst.mapBlocks] at h
      | false =>
        simp only [Nat.zero_add, hdead, Bool.false_eq_true, if_false] at h
        cases inst with
        | blockAddr u =>
          obtain ⟨b, hb⟩ := hf.held v u hinst
          exact ⟨_, (hr.inBlock_iff (getElem?_idxOf (hf.keptBlocks_of_inBlock hb hdead))).mpr hb⟩
        | _ => cases h
    · intro t ht
      rw [hr.gotoTargets] at ht
      obtain ⟨u, hu, rfl⟩ := List.mem_map.mp ht
      rw [hr.numBlocks]
      exact List.idxOf_lt_length_of_mem (of_decide_eq_true (List.mem_filter.mp hu).2)

end

end Badc
