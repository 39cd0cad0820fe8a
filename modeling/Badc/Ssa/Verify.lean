import Badc.Ssa.DomOrder

/-!
# The structural check of a function

`verify::check` of `src/c5/codegen/ssa/verify.rs`, with its messages.  Each loop of the source
returns at the first violation it meets; here it is the first hit of a search over the same
sequence.

`check_eq_ok_iff` states what acceptance means (`Verified`): block ranges lie in the tape and
share no instruction, branches name blocks, operands name instructions, and in a block the entry
reaches phis come first with one value per predecessor and every read is of a value defined
earlier in the block or in a dominating block.
-/

namespace Badc

/-- The first error a search over a list finds, as a result. -/
def firstError {α : Type} (l : List α) (bad : α → Option String) : Except String Unit :=
  match l.findSome? bad with
  | some e => .error e
  | none => .ok ()

/-- A search without a hit accepts every element. -/
lemma firstError_eq_ok_iff {α : Type} {l : List α} {bad : α → Option String} :
    firstError l bad = .ok () ↔ ∀ a ∈ l, bad a = none := by
  unfold firstError
  cases h : l.findSome? bad with
  | some e =>
    obtain ⟨a, ha, hbad⟩ := List.exists_of_findSome?_eq_some h
    simp only [reduceCtorEq, false_iff]
    intro hall
    rw [hall a ha] at hbad
    cases hbad
  | none => simpa using List.findSome?_eq_none_iff.mp h

namespace Verify

/-- Enter one instruction of block `b` into the table of holders. -/
def holdInst (b : ℕ) (blockOf : ℕ → Option ℕ) (v : ℕ) : Except String (ℕ → Option ℕ) :=
  match blockOf v with
  | some h => .error s!"blocks {h} and {b} both hold v{v}"
  | none => .ok (Function.update blockOf v (some b))

/-- Enter the instructions of one block into the table of holders. -/
def holdBlock (n b : ℕ) (r : InstRange) (blockOf : ℕ → Option ℕ) :
    Except String (ℕ → Option ℕ) :=
  if r.stop < r.start ∨ n < r.stop then
    .error s!"block {b} holds {r.start}..{r.stop} of a {n}-instruction tape"
  else
    r.toList.foldlM (holdInst b) blockOf

/-- Where an empty block starts inside another block. -/
def emptyInside (f : FunctionSsa) (blockOf : ℕ → Option ℕ) (p : Block × ℕ) : Option String :=
  let i := p.1.instRange.start
  if p.1.instRange.stop ≤ i ∧ 0 < i ∧ i < f.insts.length ∧ (blockOf i).isSome ∧
      blockOf i = blockOf (i - 1) then
    some s!"empty block {p.2} starts at v{i}, inside block {(blockOf i).getD 0}"
  else none

/-- The block holding each instruction, once the ranges pass their own rules. -/
def holders (f : FunctionSsa) : Except String (ℕ → Option ℕ) := do
  let blockOf ← f.blocks.zipIdx.foldlM (fun blockOf p =>
    holdBlock f.insts.length p.2 p.1.instRange blockOf) (fun _ => none)
  firstError f.blocks.zipIdx (emptyInside f blockOf)
  return blockOf

/-- The first block a terminator names that does not exist, or the table. -/
def badTarget (f : FunctionSsa) (b : ℕ) (term : Terminator) : Option String :=
  let nb := f.blocks.length
  let named := fun ts : List ℕ =>
    (ts.find? fun t => nb ≤ t).map fun t => s!"block {b} branches to block {t} of {nb}"
  match term with
  | .jmp t | .fallThrough t => named [t]
  | .bz _ target fallThrough | .bnz _ target fallThrough => named [target, fallThrough]
  | .jumpTable _ table | .asmGoto table =>
    match f.jumpTables[table]? with
    | none => some s!"block {b} names jump table {table} of {f.jumpTables.length}"
    | some targets => named targets
  | _ => none

/-- The operands of a block: of its instructions, of its terminator, and the accumulator. -/
def blockReads (f : FunctionSsa) (blk : Block) : List ℕ :=
  (blk.instRange.toList.flatMap fun pc => ((f.insts[pc]?).map Inst.operands).getD []) ++
    blk.terminator.operands ++ [blk.exitAcc]

/-- The first violation of the naming rules in a block. -/
def badNames (f : FunctionSsa) (p : Block × ℕ) : Option String :=
  (badTarget f p.2 p.1.terminator).or
    (((blockReads f p.1).find? fun v => v ≠ noValue ∧ f.insts.length ≤ v).map fun v =>
      s!"block {p.2} reads v{v} of a {f.insts.length}-instruction tape")

/-- Why `v` is not available to a read in block `b` ahead of `pc`, or at the block's end. -/
def unavailable (blockOf : ℕ → Option ℕ) (dominates : ℕ → ℕ → Bool) (v b : ℕ) (pc : Option ℕ) :
    Option String :=
  match blockOf v with
  | none => some s!"v{v}, which no block holds"
  | some db =>
    if db = b then
      match pc with
      | some pc => if pc ≤ v then some s!"v{v}, defined later in block {b}" else none
      | none => none
    else if !dominates db b then
      some s!"v{v} of block {db}, which does not dominate block {b}"
    else none

/-- The first operand of a list that is not available. -/
def firstUnavailable (blockOf : ℕ → Option ℕ) (dominates : ℕ → ℕ → Bool) (vs : List ℕ) (b : ℕ)
    (pc : Option ℕ) : Option String :=
  vs.findSome? fun v => if v ≠ noValue then unavailable blockOf dominates v b pc else none

/-- The first violation of an instruction of a reachable block. -/
def badInst (f : FunctionSsa) (blockOf : ℕ → Option ℕ) (idom : Idoms)
    (dominates : ℕ → ℕ → Bool) (blk : Block) (b pc : ℕ) : Option String :=
  match f.insts[pc]? with
  | none => none
  | some (.phi incoming _) =>
    if (List.range' blk.instRange.start (pc - blk.instRange.start)).any
        fun i => !((f.insts[i]?).any Inst.isPhi) then
      some s!"phi v{pc} follows another instruction of block {b}"
    else
      (incoming.findSome? fun q =>
        if q.1 ∉ f.graph.predsOf b then
          some s!"phi v{pc} takes a value from block {q.1}, no predecessor of block {b}"
        else if q.2 ≠ noValue ∧ (idom q.1).isSome then
          (unavailable blockOf dominates q.2 q.1 none).map fun e =>
            s!"phi v{pc} takes over the edge from block {q.1} {e}"
        else none).or
      (((f.graph.predsOf b).find? fun p =>
        (idom p).isSome && !(incoming.any fun q => q.1 = p)).map fun p =>
          s!"phi v{pc} takes no value from block {p}, a predecessor of block {b}")
  | some inst =>
    (firstUnavailable blockOf dominates inst.operands b (some pc)).map fun e =>
      s!"v{pc} reads {e}"

/-- The first violation in a block the entry reaches; any other block passes. -/
def badBlock (f : FunctionSsa) (blockOf : ℕ → Option ℕ) (idom : Idoms)
    (dominates : ℕ → ℕ → Bool) (p : Block × ℕ) : Option String :=
  if (idom p.2).isNone then none
  else
    (p.1.instRange.toList.findSome? (badInst f blockOf idom dominates p.1 p.2)).or
      ((firstUnavailable blockOf dominates (p.1.terminator.operands ++ [p.1.exitAcc]) p.2
        none).map fun e => s!"block {p.2} ends reading {e}")

/-- The first violation of the SSA rules in `f`. -/
def check (f : FunctionSsa) : Except String Unit := do
  let blockOf ← holders f
  firstError f.computedGotoTargets fun t =>
    if f.blocks.length ≤ t then
      some s!"a computed goto reaches block {t} of {f.blocks.length}"
    else none
  firstError f.blocks.zipIdx (badNames f)
  let idom := f.graph.dominatorsOf
  let order := DomOrder.build idom f.graph.size
  firstError f.blocks.zipIdx (badBlock f blockOf idom fun a b => order.dominates a b idom)

end Verify

/-! ## What acceptance means -/

/-- Instruction `v` lies in the range of block `b`. -/
def InBlock (f : FunctionSsa) (v b : ℕ) : Prop :=
  ∃ blk, f.blocks[b]? = some blk ∧ blk.instRange.start ≤ v ∧ v < blk.instRange.stop

/-- The value `v` is available to a read in block `b` ahead of `pc`, or at the block's end: it
is defined earlier in the block, or in a dominating block. -/
def Available (f : FunctionSsa) (v b : ℕ) (pc : Option ℕ) : Prop :=
  ∃ db, InBlock f v db ∧ (db = b → ∀ i, pc = some i → v < i) ∧
    (db ≠ b → f.graph.Dom db b)

/-- The blocks a terminator names exist. -/
def TargetsExist (f : FunctionSsa) : Terminator → Prop
  | .jmp t | .fallThrough t => t < f.blocks.length
  | .bz _ t e | .bnz _ t e => t < f.blocks.length ∧ e < f.blocks.length
  | .jumpTable _ table | .asmGoto table =>
      ∃ targets, f.jumpTables[table]? = some targets ∧ ∀ t ∈ targets, t < f.blocks.length
  | _ => True

/-- The rules of the blocks the entry reaches: phis come first and take one value per predecessor,
and every read is of an available value. -/
structure ReadsOk (f : FunctionSsa) : Prop where
  reads : ∀ b pc inst, f.graph.Reach b → InBlock f pc b → f.insts[pc]? = some inst →
    inst.isPhi = false → ∀ v ∈ inst.operands, v ≠ noValue → Available f v b (some pc)
  phisFirst : ∀ b pc i inst, f.graph.Reach b → InBlock f pc b → InBlock f i b → i < pc →
    f.insts[pc]? = some inst → inst.isPhi = true → ∃ inst', f.insts[i]? = some inst' ∧
      inst'.isPhi = true
  phiEdges : ∀ (b pc : ℕ) incoming kind, f.graph.Reach b → InBlock f pc b →
    f.insts[pc]? = some (.phi incoming kind) → ∀ q ∈ incoming, f.graph.Edge q.1 b ∧
      (q.2 ≠ noValue → f.graph.Reach q.1 → Available f q.2 q.1 none)
  phiComplete : ∀ (b pc : ℕ) incoming kind, f.graph.Reach b → InBlock f pc b →
    f.insts[pc]? = some (.phi incoming kind) → ∀ p, f.graph.Edge p b → f.graph.Reach p →
      ∃ v, (p, v) ∈ incoming
  ends : ∀ (b : ℕ) blk, f.blocks[b]? = some blk → f.graph.Reach b →
    ∀ v ∈ blk.terminator.operands ++ [blk.exitAcc], v ≠ noValue → Available f v b none

/-- The rules of a function in SSA form. -/
structure Verified (f : FunctionSsa) : Prop extends ReadsOk f where
  range : ∀ (b : ℕ) blk, f.blocks[b]? = some blk →
    blk.instRange.start ≤ blk.instRange.stop ∧ blk.instRange.stop ≤ f.insts.length
  disjoint : ∀ v b c, InBlock f v b → InBlock f v c → b = c
  emptyOutside : ∀ (b : ℕ) blk, f.blocks[b]? = some blk →
    blk.instRange.stop ≤ blk.instRange.start → 0 < blk.instRange.start →
    blk.instRange.start < f.insts.length →
    ¬ ∃ c, InBlock f blk.instRange.start c ∧ InBlock f (blk.instRange.start - 1) c
  gotoTargets : ∀ t ∈ f.computedGotoTargets, t < f.blocks.length
  targets : ∀ (b : ℕ) blk, f.blocks[b]? = some blk → TargetsExist f blk.terminator
  names : ∀ (b : ℕ) blk, f.blocks[b]? = some blk → ∀ v ∈ Verify.blockReads f blk, v ≠ noValue →
    v < f.insts.length

/-! ## The check accepts exactly the functions that keep the rules -/

namespace Verify

/-- Entering a list of instructions nobody holds succeeds, and records the block for each. -/
lemma hold_insts_ok {b : ℕ} {l : List ℕ} (hnd : l.Nodup) {m m' : ℕ → Option ℕ} :
    l.foldlM (holdInst b) m = .ok m' ↔
      (∀ v ∈ l, m v = none) ∧ m' = fun v => if v ∈ l then some b else m v := by
  induction l generalizing m with
  | nil => simp [pure, Except.pure, eq_comm]
  | cons a l ih =>
    obtain ⟨ha, hnd⟩ := List.nodup_cons.mp hnd
    rw [List.foldlM_cons]
    cases hm : m a with
    | some h => simp [holdInst, hm, bind, Except.bind]
    | none =>
      simp only [holdInst, hm, bind, Except.bind]
      rw [ih hnd]
      have hnone : (∀ v ∈ l, Function.update m a (some b) v = none) ↔ ∀ v ∈ l, m v = none := by
        refine forall₂_congr fun v hv => ?_
        have hva : v ≠ a := fun h => ha (h ▸ hv)
        rw [Function.update_of_ne hva]
      have htable : (fun v => if v ∈ l then some b else Function.update m a (some b) v) =
          fun v => if v ∈ a :: l then some b else m v := by
        funext v
        by_cases hva : v = a
        · simp [hva]
        · simp [hva]
      rw [hnone, htable]
      simp [hm]

/-- What entering one block takes and leaves. -/
lemma holdBlock_eq_ok_iff {n b : ℕ} {r : InstRange} {m m' : ℕ → Option ℕ} :
    holdBlock n b r m = .ok m' ↔ (r.start ≤ r.stop ∧ r.stop ≤ n) ∧
      (∀ v, r.start ≤ v → v < r.stop → m v = none) ∧
      m' = fun v => if r.start ≤ v ∧ v < r.stop then some b else m v := by
  unfold holdBlock
  split
  · simp only [reduceCtorEq, false_iff]
    omega
  · rename_i hr
    have hin : r.start ≤ r.stop ∧ r.stop ≤ n := by omega
    rw [hold_insts_ok r.nodup_toList, and_iff_right hin]
    simp

/-- Entering a list of blocks succeeds exactly where every range lies in the tape and every
instruction is entered once; the table then records the block of each. -/
lemma hold_blocks_ok {n : ℕ} {blocks : List Block} {k : ℕ} {m m' : ℕ → Option ℕ}
    (h : (blocks.zipIdx k).foldlM (fun blockOf p => holdBlock n p.2 p.1.instRange blockOf) m =
      .ok m') :
    (∀ (i : ℕ) blk, blocks[i]? = some blk →
      blk.instRange.start ≤ blk.instRange.stop ∧ blk.instRange.stop ≤ n) ∧
    (∀ v (i : ℕ) blk, blocks[i]? = some blk → v ∈ blk.instRange.toList →
      m v = none ∧ m' v = some (k + i)) ∧
    ∀ v, (∀ blk ∈ blocks, v ∉ blk.instRange.toList) → m' v = m v := by
  induction blocks generalizing k m with
  | nil =>
    simp only [List.zipIdx_nil, List.foldlM_nil, pure, Except.pure, Except.ok.injEq] at h
    simp [h]
  | cons blk blocks ih =>
    simp only [List.zipIdx_cons, List.foldlM_cons, bind, Except.bind] at h
    cases hb : holdBlock n k blk.instRange m with
    | error e => simp [hb] at h
    | ok m₁ =>
      simp only [hb] at h
      obtain ⟨hrange, hnone, rfl⟩ := holdBlock_eq_ok_iff.mp hb
      obtain ⟨h1, h2, h3⟩ := ih h
      have hother : ∀ v (i : ℕ) blk', blocks[i]? = some blk' → v ∈ blk'.instRange.toList →
          ¬ (blk.instRange.start ≤ v ∧ v < blk.instRange.stop) ∧ m v = none := by
        intro v i blk' hi hv
        have := (h2 v i blk' hi hv).1
        split at this
        · cases this
        · exact ⟨‹_›, this⟩
      refine ⟨?_, ?_, ?_⟩
      · rintro (_ | i) blk' hi
        · obtain rfl := Option.some.inj hi
          exact hrange
        · exact h1 i blk' (by simpa using hi)
      · rintro v (_ | i) blk' hi hv
        · obtain rfl := Option.some.inj hi
          have hv' := InstRange.mem_toList.mp hv
          refine ⟨hnone v hv'.1 hv'.2, ?_⟩
          rw [h3 v ?_, if_pos hv']
          · simp
          · intro blk' hblk' hvb
            obtain ⟨j, hj⟩ := List.getElem?_of_mem hblk'
            exact (hother v j blk' hj hvb).1 hv'
        · have hi' : blocks[i]? = some blk' := by simpa using hi
          refine ⟨(hother v i blk' hi' hv).2, ?_⟩
          rw [(h2 v i blk' hi' hv).2, Nat.add_right_comm, Nat.add_assoc]
      · intro v hv
        rw [h3 v fun blk' hblk' => hv blk' (.tail _ hblk'), if_neg]
        exact fun h => hv blk (.head _) (InstRange.mem_toList.mpr h)

/-- Blocks whose ranges lie in the tape and share no instruction are all entered. -/
lemma hold_blocks_succeeds {n : ℕ} {blocks : List Block} {k : ℕ} {m : ℕ → Option ℕ}
    (hrange : ∀ (i : ℕ) blk, blocks[i]? = some blk →
      blk.instRange.start ≤ blk.instRange.stop ∧ blk.instRange.stop ≤ n)
    (hfree : ∀ v, ∀ blk ∈ blocks, v ∈ blk.instRange.toList → m v = none)
    (hdisj : ∀ v (i j : ℕ) blk blk', blocks[i]? = some blk → blocks[j]? = some blk' →
      v ∈ blk.instRange.toList → v ∈ blk'.instRange.toList → i = j) :
    ∃ m', (blocks.zipIdx k).foldlM
      (fun blockOf p => holdBlock n p.2 p.1.instRange blockOf) m = .ok m' := by
  induction blocks generalizing k m with
  | nil => exact ⟨m, rfl⟩
  | cons blk blocks ih =>
    simp only [List.zipIdx_cons, List.foldlM_cons, bind, Except.bind]
    rw [holdBlock_eq_ok_iff.mpr ⟨hrange 0 blk rfl, fun v h1 h2 =>
      hfree v blk (.head _) (InstRange.mem_toList.mpr ⟨h1, h2⟩), rfl⟩]
    refine ih (fun i blk' hi => hrange (i + 1) blk' (by simpa using hi)) ?_ ?_
    · intro v blk' hblk' hv
      obtain ⟨j, hj⟩ := List.getElem?_of_mem hblk'
      rw [if_neg, hfree v blk' (.tail _ hblk') hv]
      intro hin
      have := hdisj v 0 (j + 1) blk blk' rfl (by simpa using hj) (InstRange.mem_toList.mpr hin) hv
      omega
    · intro v i j blk₁ blk₂ hi hj h1 h2
      have := hdisj v (i + 1) (j + 1) blk₁ blk₂ (by simpa using hi) (by simpa using hj) h1 h2
      omega

/-- Acceptance of the ranges: each lies in the tape, no two share an instruction, an empty one
does not start inside another; the table then records who holds what. -/
lemma holders_eq_ok {f : FunctionSsa} {blockOf : ℕ → Option ℕ} (h : holders f = .ok blockOf) :
    (∀ v b, blockOf v = some b ↔ InBlock f v b) ∧
    (∀ (b : ℕ) blk, f.blocks[b]? = some blk →
      blk.instRange.start ≤ blk.instRange.stop ∧ blk.instRange.stop ≤ f.insts.length) ∧
    ∀ p ∈ f.blocks.zipIdx, emptyInside f blockOf p = none := by
  simp only [holders, bind, Except.bind] at h
  split at h
  · cases h
  · rename_i m hm
    split at h
    · cases h
    · rename_i u hu
      obtain rfl := Except.ok.inj h
      obtain ⟨h1, h2, h3⟩ := hold_blocks_ok hm
      refine ⟨fun v b => ⟨fun hv => ?_, ?_⟩, h1, firstError_eq_ok_iff.mp hu⟩
      · by_contra hno
        by_cases hin : ∃ (i : ℕ) (blk : Block), f.blocks[i]? = some blk ∧ v ∈ blk.instRange.toList
        · obtain ⟨i, blk, hi, hvb⟩ := hin
          rw [(h2 v i blk hi hvb).2, Nat.zero_add, Option.some.injEq] at hv
          subst hv
          exact hno ⟨blk, hi, InstRange.mem_toList.mp hvb⟩
        · rw [h3 v] at hv
          · cases hv
          · intro blk hblk hvb
            obtain ⟨i, hi⟩ := List.getElem?_of_mem hblk
            exact hin ⟨i, blk, hi, hvb⟩
      · rintro ⟨blk, hb, hv⟩
        rw [(h2 v b blk hb (InstRange.mem_toList.mpr hv)).2, Nat.zero_add]

/-- Ranges that pass their rules are accepted. -/
lemma holders_succeeds {f : FunctionSsa} (h : Verified f) : ∃ blockOf, holders f = .ok blockOf := by
  have hmem : ∀ {b : ℕ} {blk : Block} {v : ℕ}, f.blocks[b]? = some blk →
      v ∈ blk.instRange.toList → InBlock f v b :=
    fun hb hv => ⟨_, hb, InstRange.mem_toList.mp hv⟩
  obtain ⟨m, hm⟩ := hold_blocks_succeeds (k := 0) (m := fun _ => none) h.range
    (fun _ _ _ _ => rfl)
    (fun v i j _ _ hi hj hv hv' => h.disjoint v i j (hmem hi hv) (hmem hj hv'))
  obtain ⟨-, hheld, hfree⟩ := hold_blocks_ok hm
  have hblock : ∀ v b, m v = some b → InBlock f v b := by
    intro v b hv
    by_cases hin : ∃ (i : ℕ) (blk : Block), f.blocks[i]? = some blk ∧ v ∈ blk.instRange.toList
    · obtain ⟨i, blk, hi, hvb⟩ := hin
      rw [(hheld v i blk hi hvb).2, Nat.zero_add, Option.some.injEq] at hv
      exact hv ▸ hmem hi hvb
    · rw [hfree v] at hv
      · cases hv
      · intro blk hblk hvb
        obtain ⟨i, hi⟩ := List.getElem?_of_mem hblk
        exact hin ⟨i, blk, hi, hvb⟩
  have hempty : firstError f.blocks.zipIdx (emptyInside f m) = .ok () := by
    rw [firstError_eq_ok_iff]
    rintro ⟨blk, b⟩ hp
    have hb : f.blocks[b]? = some blk := by simpa using List.mem_zipIdx_iff_getElem?.mp hp
    simp only [emptyInside, ite_eq_right_iff, reduceCtorEq, imp_false]
    rintro ⟨h1, h2, h3, h4, h5⟩
    obtain ⟨c, hc⟩ := Option.isSome_iff_exists.mp h4
    exact h.emptyOutside b blk hb h1 h2 h3 ⟨c, hblock _ c hc, hblock _ c (h5 ▸ hc)⟩
  exact ⟨m, by simp only [holders, bind, Except.bind, hm, hempty]; rfl⟩

lemma badTarget_eq_none_iff {f : FunctionSsa} {b : ℕ} {term : Terminator} :
    badTarget f b term = none ↔ TargetsExist f term := by
  cases term with
  | jumpTable idx table | asmGoto table =>
    simp only [badTarget, TargetsExist]
    cases f.jumpTables[table]? with
    | none => simp
    | some targets => simp
  | _ => simp [badTarget, TargetsExist]

lemma badNames_eq_none_iff {f : FunctionSsa} {p : Block × ℕ} :
    badNames f p = none ↔ TargetsExist f p.1.terminator ∧
      ∀ v ∈ blockReads f p.1, v ≠ noValue → v < f.insts.length := by
  simp [badNames, Option.or_eq_none_iff, badTarget_eq_none_iff]

end Verify

/-- The successors of a terminator whose blocks exist are blocks. -/
lemma TargetsExist.successors_lt {f : FunctionSsa} {term : Terminator}
    (hgoto : ∀ t ∈ f.computedGotoTargets, t < f.blocks.length) (h : TargetsExist f term) :
    ∀ s ∈ successors term f.computedGotoTargets f.jumpTables, s < f.blocks.length := by
  cases term with
  | jumpTable idx table | asmGoto table =>
    obtain ⟨targets, ht, hall⟩ := h
    intro s hs
    rw [successors, mem_foldl_insert_end] at hs
    refine hall s ?_
    simpa [List.getD_eq_getElem?_getD, ht] using hs
  | gotoIndirect target => exact hgoto
  | _ => simp_all [successors, TargetsExist]

lemma FunctionSsa.graph_closed {f : FunctionSsa}
    (hgoto : ∀ t ∈ f.computedGotoTargets, t < f.blocks.length)
    (ht : ∀ (b : ℕ) blk, f.blocks[b]? = some blk → TargetsExist f blk.terminator) :
    f.graph.Closed := by
  intro a b hab
  obtain ⟨blk, hblk, hb⟩ := graph_edge.mp hab
  rw [f.graph_size]
  exact (ht a blk hblk).successors_lt hgoto b hb

namespace Verify

section Reads

variable {f : FunctionSsa} {blockOf : ℕ → Option ℕ} {idom : Idoms} {dominates : ℕ → ℕ → Bool}

/-- A read passes exactly where its value is available. -/
lemma unavailable_eq_none_iff (hhold : ∀ v b, blockOf v = some b ↔ InBlock f v b)
    (hdom : ∀ a b, f.graph.Reach b → (dominates a b = true ↔ f.graph.Dom a b)) {v b : ℕ}
    {pc : Option ℕ} (hb : f.graph.Reach b) :
    unavailable blockOf dominates v b pc = none ↔ Available f v b pc := by
  unfold unavailable Available
  cases hv : blockOf v with
  | none =>
    simp only [reduceCtorEq, false_iff]
    rintro ⟨db, hin, -⟩
    rw [(hhold v db).mpr hin] at hv
    cases hv
  | some db =>
    have hin : ∀ c, InBlock f v c ↔ db = c := by
      intro c
      rw [← hhold, hv, Option.some.injEq]
    by_cases hdb : db = b
    · subst hdb
      cases pc with
      | none => simp [hin]
      | some i => simp [hin]
    · simp only [hin, exists_eq_left', hdb, false_imp_iff, true_and, if_false, ne_eq,
        not_false_iff, true_imp_iff, ← hdom db b hb]
      cases dominates db b <;> simp

/-- A list of reads passes exactly where each value is available. -/
lemma firstUnavailable_eq_none_iff (hhold : ∀ v b, blockOf v = some b ↔ InBlock f v b)
    (hdom : ∀ a b, f.graph.Reach b → (dominates a b = true ↔ f.graph.Dom a b)) {vs : List ℕ}
    {b : ℕ} {pc : Option ℕ} (hb : f.graph.Reach b) :
    firstUnavailable blockOf dominates vs b pc = none ↔
      ∀ v ∈ vs, v ≠ noValue → Available f v b pc := by
  rw [firstUnavailable, List.findSome?_eq_none_iff]
  refine forall₂_congr fun v _ => ?_
  by_cases hv : v = noValue
  · simp [hv]
  · simp only [ne_eq, hv, not_false_iff, if_true, true_imp_iff,
      unavailable_eq_none_iff hhold hdom hb]

/-- The rules of an instruction that is no phi. -/
lemma badInst_eq_none_iff (hhold : ∀ v b, blockOf v = some b ↔ InBlock f v b)
    (hdom : ∀ a b, f.graph.Reach b → (dominates a b = true ↔ f.graph.Dom a b)) {blk : Block}
    {b pc : ℕ} {inst : Inst} (hb : f.graph.Reach b) (hpc : f.insts[pc]? = some inst)
    (hphi : inst.isPhi = false) :
    badInst f blockOf idom dominates blk b pc = none ↔
      ∀ v ∈ inst.operands, v ≠ noValue → Available f v b (some pc) := by
  rw [← firstUnavailable_eq_none_iff hhold hdom hb]
  unfold badInst
  rw [hpc]
  cases inst with
  | phi incoming kind => simp [Inst.isPhi] at hphi
  | _ => simp

/-- The rules of a phi: only phis come before it in its block, its entries are over edges into
the block and read what is available at the other end, and no reachable predecessor is missed. -/
lemma badInst_phi_eq_none_iff (hhold : ∀ v b, blockOf v = some b ↔ InBlock f v b)
    (hdom : ∀ a b, f.graph.Reach b → (dominates a b = true ↔ f.graph.Dom a b))
    (hidom : ∀ b, (idom b).isSome ↔ f.graph.Reach b) {blk : Block} {b pc : ℕ}
    {incoming : List (ℕ × ℕ)} {kind : LoadKind} (hpc : f.insts[pc]? = some (.phi incoming kind)) :
    badInst f blockOf idom dominates blk b pc = none ↔
      (∀ i, blk.instRange.start ≤ i → i < pc → ∃ inst', f.insts[i]? = some inst' ∧
        inst'.isPhi = true) ∧
      (∀ q ∈ incoming, f.graph.Edge q.1 b ∧
        (q.2 ≠ noValue → f.graph.Reach q.1 → Available f q.2 q.1 none)) ∧
      ∀ p, f.graph.Edge p b → f.graph.Reach p → ∃ v, (p, v) ∈ incoming := by
  have hpast : (List.range' blk.instRange.start (pc - blk.instRange.start)).any
        (fun i => !((f.insts[i]?).any Inst.isPhi)) = false ↔
      ∀ i, blk.instRange.start ≤ i → i < pc → ∃ inst', f.insts[i]? = some inst' ∧
        inst'.isPhi = true := by
    rw [List.any_eq_false]
    constructor
    · intro h i h1 h2
      have := h i (by rw [List.mem_range'_1]; omega)
      simpa [Option.any_eq_true] using this
    · intro h i hi
      rw [List.mem_range'_1] at hi
      simpa [Option.any_eq_true] using h i (by omega) (by omega)
  unfold badInst
  rw [hpc]
  dsimp only
  split
  · rename_i hany
    simp only [reduceCtorEq, false_iff]
    intro h
    rw [hpast.mpr h.1] at hany
    cases hany
  · rename_i hany
    rw [Bool.not_eq_true, hpast] at hany
    rw [and_iff_right hany, Option.or_eq_none_iff, List.findSome?_eq_none_iff, Option.map_eq_none_iff,
      List.find?_eq_none]
    refine and_congr (forall₂_congr fun q _ => ?_) ?_
    · rw [← SuccGraph.mem_predsOf]
      by_cases hq : q.1 ∈ f.graph.predsOf b
      · simp only [hq, not_true, if_false, true_and]
        by_cases hcond : q.2 ≠ noValue ∧ (idom q.1).isSome
        · rw [if_pos hcond, Option.map_eq_none_iff,
            unavailable_eq_none_iff hhold hdom ((hidom _).mp hcond.2)]
          exact ⟨fun h _ _ => h, fun h => h hcond.1 ((hidom _).mp hcond.2)⟩
        · rw [if_neg hcond]
          simp only [true_iff]
          intro h1 h2
          exact absurd ⟨h1, (hidom _).mpr h2⟩ hcond
      · simp [hq]
    · refine forall_congr' fun p => ?_
      rw [← SuccGraph.mem_predsOf]
      refine imp_congr_right fun _ => ?_
      simp only [Bool.and_eq_true, hidom, Bool.not_eq_true', List.any_eq_false, decide_eq_true_eq,
        not_and, not_forall, not_not]
      refine imp_congr_right fun _ => ?_
      constructor
      · rintro ⟨q, hq, rfl⟩
        exact ⟨q.2, hq⟩
      · rintro ⟨v, hv⟩
        exact ⟨(p, v), hv, rfl⟩

/-- The loop over the blocks accepts exactly that. -/
lemma badBlock_eq_none_iff (hhold : ∀ v b, blockOf v = some b ↔ InBlock f v b)
    (hdom : ∀ a b, f.graph.Reach b → (dominates a b = true ↔ f.graph.Dom a b))
    (hidom : ∀ b, (idom b).isSome ↔ f.graph.Reach b)
    (hrange : ∀ (b : ℕ) blk, f.blocks[b]? = some blk →
      blk.instRange.start ≤ blk.instRange.stop ∧ blk.instRange.stop ≤ f.insts.length) :
    (∀ p ∈ f.blocks.zipIdx, badBlock f blockOf idom dominates p = none) ↔ ReadsOk f := by
  have hloop : (∀ p ∈ f.blocks.zipIdx, badBlock f blockOf idom dominates p = none) ↔
      ∀ (b : ℕ) blk, f.blocks[b]? = some blk → f.graph.Reach b →
        (∀ pc, InBlock f pc b → badInst f blockOf idom dominates blk b pc = none) ∧
        ∀ v ∈ blk.terminator.operands ++ [blk.exitAcc], v ≠ noValue → Available f v b none := by
    constructor
    · intro h b blk hblk hb
      have := h (blk, b) (List.mem_zipIdx_iff_getElem?.mpr (by simpa using hblk))
      have hsome : ¬ (idom b).isNone := by simpa using Option.isSome_iff_ne_none.mp ((hidom b).mpr hb)
      rw [badBlock, if_neg hsome, Option.or_eq_none_iff,
        List.findSome?_eq_none_iff, Option.map_eq_none_iff,
        firstUnavailable_eq_none_iff hhold hdom hb] at this
      refine ⟨fun pc hpc => this.1 pc ?_, this.2⟩
      obtain ⟨blk', hblk', hin⟩ := hpc
      obtain rfl := Option.some.inj (hblk.symm.trans hblk')
      exact InstRange.mem_toList.mpr hin
    · rintro h ⟨blk, b⟩ hp
      have hblk : f.blocks[b]? = some blk := by simpa using List.mem_zipIdx_iff_getElem?.mp hp
      rw [badBlock]
      split
      · rfl
      · rename_i hb
        have hb : f.graph.Reach b := (hidom b).mp (by simpa [Option.isSome_iff_ne_none] using hb)
        rw [Option.or_eq_none_iff, List.findSome?_eq_none_iff, Option.map_eq_none_iff,
          firstUnavailable_eq_none_iff hhold hdom hb]
        exact ⟨fun pc hpc => (h b blk hblk hb).1 pc ⟨blk, hblk, InstRange.mem_toList.mp hpc⟩,
          (h b blk hblk hb).2⟩
  rw [hloop]
  constructor
  · intro h
    refine ⟨?_, ?_, ?_, ?_, fun b blk hblk hb => (h b blk hblk hb).2⟩
    · rintro b pc inst hb hpc hinst hphi
      obtain ⟨blk, hblk, -⟩ := id hpc
      exact (badInst_eq_none_iff hhold hdom hb hinst hphi).mp ((h b blk hblk hb).1 pc hpc)
    · rintro b pc i inst hb hpc hi hlt hinst hphi
      obtain ⟨blk, hblk, -⟩ := id hpc
      cases inst with
      | phi incoming kind =>
        have := (badInst_phi_eq_none_iff hhold hdom hidom hinst).mp ((h b blk hblk hb).1 pc hpc)
        obtain ⟨blk', hblk', hin⟩ := hi
        obtain rfl := Option.some.inj (hblk.symm.trans hblk')
        exact this.1 i hin.1 hlt
      | _ => cases hphi
    · rintro b pc incoming kind hb hpc hinst
      obtain ⟨blk, hblk, -⟩ := id hpc
      exact ((badInst_phi_eq_none_iff hhold hdom hidom hinst).mp
        ((h b blk hblk hb).1 pc hpc)).2.1
    · rintro b pc incoming kind hb hpc hinst
      obtain ⟨blk, hblk, -⟩ := id hpc
      exact ((badInst_phi_eq_none_iff hhold hdom hidom hinst).mp
        ((h b blk hblk hb).1 pc hpc)).2.2
  · intro h b blk hblk hb
    refine ⟨fun pc hpc => ?_, h.ends b blk hblk hb⟩
    obtain ⟨blk', hblk', hin⟩ := id hpc
    obtain rfl := Option.some.inj (hblk.symm.trans hblk')
    have hlen : pc < f.insts.length := by
      have := hrange b blk hblk
      omega
    have hinst := List.getElem?_eq_getElem hlen
    cases hphi : (f.insts[pc]).isPhi with
    | false =>
      exact (badInst_eq_none_iff hhold hdom hb hinst hphi).mpr
        (h.reads b pc _ hb hpc hinst hphi)
    | true =>
      cases hi : f.insts[pc] with
      | phi incoming kind =>
        rw [hi] at hinst
        refine (badInst_phi_eq_none_iff hhold hdom hidom hinst).mpr
          ⟨fun i h1 h2 => h.phisFirst b pc i _ hb hpc ⟨blk, hblk, h1, by omega⟩ h2 hinst rfl,
            h.phiEdges b pc incoming kind hb hpc hinst,
            h.phiComplete b pc incoming kind hb hpc hinst⟩
      | _ => simp [hi, Inst.isPhi] at hphi

end Reads

end Verify

/-- `verify::check` accepts exactly the functions that keep the rules. -/
theorem check_eq_ok_iff {f : FunctionSsa} : Verify.check f = .ok () ↔ Verified f := by
  have hcheck : Verify.check f = .ok () ↔ ∃ blockOf, Verify.holders f = .ok blockOf ∧
      (∀ t ∈ f.computedGotoTargets, t < f.blocks.length) ∧
      (∀ p ∈ f.blocks.zipIdx, Verify.badNames f p = none) ∧
      ∀ p ∈ f.blocks.zipIdx, Verify.badBlock f blockOf f.graph.dominatorsOf (fun a b =>
        (DomOrder.build f.graph.dominatorsOf f.graph.size).dominates a b f.graph.dominatorsOf)
          p = none := by
    simp only [Verify.check, bind, Except.bind]
    cases Verify.holders f with
    | error e => simp
    | ok blockOf =>
      simp only [Except.ok.injEq, exists_eq_left']
      rw [← firstError_eq_ok_iff, ← firstError_eq_ok_iff]
      have hgoto : (∀ t ∈ f.computedGotoTargets, t < f.blocks.length) ↔
          firstError f.computedGotoTargets (fun t => if f.blocks.length ≤ t then
            some s!"a computed goto reaches block {t} of {f.blocks.length}" else none) =
            .ok () := by
        rw [firstError_eq_ok_iff]
        refine forall₂_congr fun t _ => ?_
        simp
      rw [hgoto]
      cases firstError f.computedGotoTargets (fun t => if f.blocks.length ≤ t then
            some s!"a computed goto reaches block {t} of {f.blocks.length}" else none) with
      | error e => simp
      | ok u =>
        cases firstError f.blocks.zipIdx (Verify.badNames f) with
        | error e => simp
        | ok u' => simp
  have hnames : (∀ p ∈ f.blocks.zipIdx, Verify.badNames f p = none) ↔
      ∀ (b : ℕ) blk, f.blocks[b]? = some blk → TargetsExist f blk.terminator ∧
        ∀ v ∈ Verify.blockReads f blk, v ≠ noValue → v < f.insts.length := by
    simp only [Verify.badNames_eq_none_iff]
    constructor
    · intro h b blk hb
      exact h (blk, b) (List.mem_zipIdx_iff_getElem?.mpr (by simpa using hb))
    · rintro h ⟨blk, b⟩ hp
      exact h b blk (by simpa using List.mem_zipIdx_iff_getElem?.mp hp)
  -- The last loop, once the ranges and the names are in order.
  have hreads : ∀ blockOf, (∀ v b, blockOf v = some b ↔ InBlock f v b) →
      (∀ (b : ℕ) blk, f.blocks[b]? = some blk →
        blk.instRange.start ≤ blk.instRange.stop ∧ blk.instRange.stop ≤ f.insts.length) →
      f.graph.Closed →
      ((∀ p ∈ f.blocks.zipIdx, Verify.badBlock f blockOf f.graph.dominatorsOf (fun a b =>
        (DomOrder.build f.graph.dominatorsOf f.graph.size).dominates a b f.graph.dominatorsOf)
          p = none) ↔ ReadsOk f) := by
    intro blockOf hhold hrange hclosed
    by_cases hnil : f.blocks = []
    · have hno : ∀ v b, ¬ InBlock f v b := by
        rintro v b ⟨blk, hblk, -⟩
        simp [hnil] at hblk
      simp only [hnil, List.zipIdx_nil, List.not_mem_nil, false_imp_iff, implies_true, true_iff]
      exact ⟨fun b pc _ _ h => absurd h (hno pc b), fun b pc _ _ _ h => absurd h (hno pc b),
        fun b pc _ _ _ h => absurd h (hno pc b), fun b pc _ _ _ h => absurd h (hno pc b),
        fun b blk h => by simp [hnil] at h⟩
    · have h0 : 0 < f.graph.size := by
        rw [f.graph_size]
        exact List.length_pos_iff.mpr hnil
      exact Verify.badBlock_eq_none_iff hhold
        (fun a b hb => SuccGraph.dominates_iff_dom hclosed h0 hb)
        (SuccGraph.dominatorsOf_spec hclosed h0).2.1 hrange
  rw [hcheck, hnames]
  constructor
  · rintro ⟨blockOf, hold, hgoto, hnam, hbad⟩
    obtain ⟨hhold, hrange, hempty⟩ := Verify.holders_eq_ok hold
    have hclosed := FunctionSsa.graph_closed hgoto fun b blk hb => (hnam b blk hb).1
    refine ⟨(hreads blockOf hhold hrange hclosed).mp hbad, hrange, ?_, ?_, hgoto,
      fun b blk hb => (hnam b blk hb).1, fun b blk hb => (hnam b blk hb).2⟩
    · intro v b c hb hc
      exact Option.some.inj (((hhold v b).mpr hb).symm.trans ((hhold v c).mpr hc))
    · rintro b blk hb h1 h2 h3 ⟨c, hc, hc'⟩
      have := hempty (blk, b) (List.mem_zipIdx_iff_getElem?.mpr (by simpa using hb))
      simp only [Verify.emptyInside, ite_eq_right_iff, reduceCtorEq, imp_false] at this
      refine this ⟨h1, h2, h3, ?_, ?_⟩
      · rw [(hhold _ c).mpr hc]
        rfl
      · rw [(hhold _ c).mpr hc, (hhold _ c).mpr hc']
  · intro h
    obtain ⟨blockOf, hold⟩ := Verify.holders_succeeds h
    obtain ⟨hhold, -, -⟩ := Verify.holders_eq_ok hold
    exact ⟨blockOf, hold, h.gotoTargets, fun b blk hb => ⟨h.targets b blk hb, h.names b blk hb⟩,
      (hreads blockOf hhold h.range (FunctionSsa.graph_closed h.gotoTargets h.targets)).mpr
        h.toReadsOk⟩

end Badc
