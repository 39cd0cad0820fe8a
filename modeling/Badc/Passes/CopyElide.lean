import Badc.Lib.Explore
import Badc.Ssa.Graph
import Badc.Ssa.Operands

/-!
# Eliding copies of temporaries

`run_one` of `src/c5/codegen/passes/copy_elide.rs`: an aggregate that is built in a frame temporary and copied
once is built in the destination.  The writes of the temporary take the destination's address, or the
temporary's base becomes the destination's address instruction; a call that fills the temporary fills the
destination.

An access keeps the alignment it states (`redirect`), whatever the destination has.
-/

namespace Badc.CopyElide

/-- What a function records about its frame, as far as the pass reads it. -/
structure FrameInfo where
  syntheticBase : ℤ
  /-- Sizes of the aggregate descriptors. -/
  aggSizes : List ℕ := []
  /-- First slot and number of cells of each wider object. -/
  multiCellSlots : List (ℤ × ℤ) := []
  hasReturnsTwiceCall : Bool := false
  indirectResultSlot : ℤ := 0
  paramLocalSlots : List ℤ := []
  overAligned : List ℤ := []

/-! ## Addresses of slots -/

/-- The slot and the byte offset that an address value names. -/
def baseOf (f : FunctionSsa) : ℕ → ℕ → Option (ℤ × ℤ)
  | 0, _ => none
  | n + 1, v =>
    match f.insts[v]? with
    | some (.localAddr off) => if off < 0 then some (off, 0) else none
    | some (.binopI .add lhs k) => (baseOf f n lhs).map fun b => (b.1, b.2 + k.toInt)
    | _ => none

/-- The slot and the byte offset that an address value names; no chain of additions is longer than the
tape. -/
def base (f : FunctionSsa) (v : ℕ) : Option (ℤ × ℤ) := baseOf f (f.insts.length + 1) v

/-- The aggregate result and the arguments of a call. -/
def callSite : Inst → Option (CallSite × List ℕ)
  | .call _ args _ _ site | .callIndirect _ args _ _ _ site | .callExt _ args site => some (site, args)
  | _ => none

/-- The slot an instruction names. -/
def slotOf : Inst → Option ℤ
  | .localAddr off | .loadLocal off .. | .storeLocal off .. | .allocaInit off => some off
  | inst => (callSite inst).map fun c => c.1.retSlotLocal

/-- Where a slot is named. -/
def named (f : FunctionSsa) (slot : ℤ) : List ℕ :=
  (List.range f.insts.length).filter fun i => (f.insts[i]?).bind slotOf = some slot

/-- What reads a value past the tape: a terminator, or the end of a block. -/
def atEnd : ℕ := 2 ^ 64 - 1

/-- The uses of a value, one for each operand. -/
def users (f : FunctionSsa) (v : ℕ) : List ℕ :=
  ((List.range f.insts.length).flatMap fun i =>
    (((f.insts[i]?).map Inst.operands).getD []).filterMap fun o => if o = v then some i else none) ++
    f.blocks.flatMap fun blk =>
      (blk.terminator.operands ++ [blk.exitAcc]).filterMap fun o => if o = v then some atEnd else none

/-! ## Planning a copy of written bytes -/

/-- Width of a store, in the bytes of its slot. -/
def spanWidth : StoreKind → ℤ
  | .i8 => 1
  | .i16 => 2
  | .i32 | .f32 => 4
  | .i64 | .f64 => 8
  | .f80 | .f128 | .v128 => 16

/-- The displacement and the width of a write through address `a`. -/
def writeSpan (a : ℕ) : Inst → Option (ℤ × ℤ)
  | .store addr disp _ kind false _ _ => if addr = a then some (disp, spanWidth kind) else none
  | .mzero dst size _ => if dst = a then some (0, size) else none
  | _ => none

/-- The address a write goes through. -/
def writeAddr : Inst → Option ℕ
  | .store addr .. => some addr
  | .mzero dst .. => some dst
  | _ => none

/-- Enter the interior address at `i`, if it is one. -/
def addInterior (f : FunctionSsa) (addrs : ℕ → Option ℤ) (i : ℕ) : ℕ → Option ℤ :=
  match f.insts[i]? with
  | some (.binopI .add lhs k) =>
    match addrs lhs with
    | some off => Function.update addrs i (some (off + k.toInt))
    | none => addrs
  | _ => addrs

/-- Every value that names the temporary at `slot` with its offset: the bases, and constant additions before
the copy. -/
def addrsOf (f : FunctionSsa) (slot : ℤ) (start mcpy : ℕ) : ℕ → Option ℤ :=
  (List.range' start (mcpy - start)).foldl (addInterior f) fun a => if a ∈ named f slot then some 0 else none

/-- Whether the slot is named by addresses in the block alone. -/
def namedHere (f : FunctionSsa) (slot : ℤ) (start mcpy : ℕ) : Bool :=
  !(named f slot).isEmpty && (named f slot).all fun a =>
    (match f.insts[a]? with | some (.localAddr _) => true | _ => false) && start ≤ a && a ≤ mcpy

/-- What one elision changes: the instructions whose address becomes the destination's, with the offset; the
bases of the temporary; and the bytes that are written. -/
structure Plan where
  redirects : List (ℕ × ℤ) := []
  roots : List ℕ := []
  spans : List (ℤ × ℤ) := []
  deriving DecidableEq

/-- What the users of the addresses say so far. -/
structure Scan where
  plan : Plan := {}
  writes : List ℕ := []
  reached : Bool := false

/-- A user of the address at `a`: the copy, a write, an interior address, or a value nothing reads. -/
def scanUser (f : FunctionSsa) (addrs : ℕ → Option ℤ) (mcpy a : ℕ) (off : ℤ) (s : Scan) (u : ℕ) : Option Scan :=
  if u = mcpy then some s
  else
    match f.insts[u]? with
    | none => none
    | some inst =>
      match writeSpan a inst with
      | some (disp, w) => some { s with
          plan := { s.plan with spans := s.plan.spans ++ [(off + disp, w)] }
          writes := s.writes ++ [u]
          reached := true }
      | none =>
        if (addrs u).isSome then some { s with reached := true }
        else if inst.isPure && (users f u).isEmpty then some s
        else none

/-- An address of the temporary and its users. -/
def scanAddr (f : FunctionSsa) (addrs : ℕ → Option ℤ) (mcpy : ℕ) (s : Scan) (a : ℕ) : Option Scan :=
  match addrs a with
  | none => some s
  | some off => do
    let s ← (users f a).foldlM (scanUser f addrs mcpy a off) { s with reached := false }
    let plan := s.plan
    -- An interior address takes the destination at its offset from the base.
    let plan := if s.reached ∧ off ≠ 0 then { plan with redirects := plan.redirects ++ [(a, off)] } else plan
    let plan := match f.insts[a]? with
      | some (.localAddr _) => if s.reached then { plan with roots := plan.roots ++ [a] } else plan
      | _ => plan
    return { s with plan }

/-- Add the write at `w`, if it goes through the base. -/
def addWrite (f : FunctionSsa) (addrs : ℕ → Option ℤ) (plan : Plan) (w : ℕ) : Option Plan :=
  match (f.insts[w]?).bind writeAddr with
  | none => none
  | some b => some (if addrs b = some 0 then { plan with redirects := plan.redirects ++ [(w, 0)] } else plan)

/-- What may stand between the first write and the copy: values computed without memory. -/
def isQuiet : Inst → Bool
  | .imm _ | .undef | .immData _ | .immCode _ | .immExtCode _ | .blockAddr _ | .tlsAddr _ | .binop .. | .binopI ..
  | .neg _ | .fneg _ | .fma .. | .mulAdd .. | .shiftOp .. | .bitField .. | .udiv128 .. | .extend .. | .bswap ..
  | .bitCount .. | .copy .. | .fpCast .. | .paramRef .. | .lifetimeEnd _ => true
  | _ => false

/-- Redirections are pairs in order. -/
def redirectLe (p q : ℕ × ℤ) : Prop := p.1 < q.1 ∨ p.1 = q.1 ∧ p.2 ≤ q.2

instance : DecidableRel redirectLe := fun _ _ => inferInstanceAs (Decidable (_ ∨ _))

/-- The plan for the copy at `mcpy`, where the temporary at `slot` qualifies. -/
def planOne (f : FunctionSsa) (slot : ℤ) (start mcpy : ℕ) : Option Plan := do
  if !namedHere f slot start mcpy then none
  else
    let addrs := addrsOf f slot start mcpy
    let s ← (List.range' start (mcpy + 1 - start)).foldlM (scanAddr f addrs mcpy) {}
    let plan ← s.writes.foldlM (addWrite f addrs) s.plan
    let writes := s.writes.insertionSort (· ≤ ·)
    let first ← writes.head?
    let last ← writes.getLast?
    if mcpy ≤ last then none
    else if (List.range' first (mcpy - first)).all fun i =>
        i ∈ writes || (addrs i).isSome || ((f.insts[i]?).map isQuiet).getD false then
      some { plan with redirects := (plan.redirects.insertionSort redirectLe).dedup }
    else none

/-- Spans are pairs in order. -/
def spanLe (p q : ℤ × ℤ) : Prop := p.1 < q.1 ∨ p.1 = q.1 ∧ p.2 ≤ q.2

instance : DecidableRel spanLe := fun _ _ => inferInstanceAs (Decidable (_ ∨ _))

/-- Whether spans cover the first `size` bytes with nothing outside. -/
def covers (spans : List (ℤ × ℤ)) (size : ℤ) : Bool :=
  let reach := (spans.insertionSort spanLe).foldl (fun at' p =>
    at'.bind fun at' => if p.1 < 0 ∨ size < p.1 + p.2 ∨ at' < p.1 then none else some (max at' (p.1 + p.2)))
    (some 0)
  match reach with
  | none => false
  | some at' => size ≤ at'

/-! ## Planning a copy of a call's result -/

/-- What may stand between a call and the copy of its result. -/
def isQuietCall : Inst → Bool
  | .imm _ | .undef | .immData _ | .immCode _ | .immExtCode _ | .blockAddr _ | .localAddr _ | .binop .. | .binopI ..
  | .neg _ | .extend .. | .copy .. | .lifetimeEnd _ => true
  | _ => false

/-- The call that fills a slot with the `size` bytes of its result, and the argument that points there where
no descriptor does. -/
def writerOf (fr : FrameInfo) (f : FunctionSsa) (slot size : ℤ) (call : Option (ℕ × Option ℕ)) (a : ℕ) :
    Option (Option (ℕ × Option ℕ)) :=
  match f.insts[a]? with
  | none => none
  | some (.localAddr _) => some call
  | some inst =>
    match callSite inst with
    | none => none
    | some (site, args) =>
      if site.retSlotLocal ≠ slot ∨ call.isSome then none
      else do
        let whole ← match site.retAgg with
          | some i => (fr.aggSizes[i]?).map fun n => (n : ℤ)
          | none => (fr.multiCellSlots.find? fun p => p.1 = slot).map fun p => p.2 * 8
        if whole ≠ size then none
        else some (some (a, if site.retAgg.isNone then args.head? else none))

/-- The uses of an address of the temporary: the copy, plain loads, and the call's first argument. -/
def renameUser (f : FunctionSsa) (mcpy call : ℕ) (out : Option ℕ) (a : ℕ) (s : List ℕ × Bool) (u : ℕ) :
    Option (List ℕ × Bool) :=
  if u = mcpy then some s
  else
    match f.insts[u]? with
    | some (.load addr _ _ false _ _) => if addr = a then some (s.1 ++ [u], true) else none
    | some inst =>
      match callSite inst with
      | some (_, args) => if u = call ∧ out = some a ∧ args.count a = 1 then some (s.1, true) else none
      | none => none
    | none => none

/-- An address of the temporary: whether it is renamed, and the loads that read it. -/
def renameAddr (f : FunctionSsa) (mcpy call : ℕ) (out : Option ℕ) (s : List ℕ × List ℕ) (a : ℕ) :
    Option (List ℕ × List ℕ) :=
  match f.insts[a]? with
  | some (.localAddr _) => do
    let (reads, renamed) ← (users f a).foldlM (renameUser f mcpy call out a) (s.2, false)
    return (if renamed then s.1 ++ [a] else s.1, reads)
  | _ => some s

/-- The call that fills the temporary, the addresses to rename and the loads among their readers. -/
def callWriter (fr : FrameInfo) (f : FunctionSsa) (slot : ℤ) (start mcpy : ℕ) (size : ℤ) :
    Option (ℕ × List ℕ × List ℕ) := do
  if fr.hasReturnsTwiceCall ∨ named f slot = [] then none
  else
    let (call, out) ← ← (named f slot).foldlM (writerOf fr f slot size) none
    let (renames, reads) ← (named f slot).foldlM (renameAddr f mcpy call out) ([], [])
    if out.any fun o => o ∉ renames then none
    else if call < start ∨ mcpy ≤ call ∨ reads.any fun u => call < u && u < mcpy then none
    else if (List.range' (call + 1) (mcpy - (call + 1))).all fun i => ((f.insts[i]?).map isQuietCall).getD false then
      some (call, renames, reads)
    else none

/-- Whether an address names a slot. -/
def into (f : FunctionSsa) (d : ℤ) (v : ℕ) : Bool := (base f v).any fun b => b.1 = d

/-- Whether the copy at `mcpy` alone writes slot `d`. -/
def soleWriter (f : FunctionSsa) (d : ℤ) (mcpy : ℕ) : Bool :=
  f.insts.zipIdx.all fun p =>
    match p.1 with
    | .store addr .. | .storeIndexed addr .. => !into f d addr
    | .mcpy dst .. | .mzero dst .. => p.2 = mcpy || !into f d dst
    | .storeLocal off .. => off ≠ d
    | inst => ((callSite inst).map fun c => decide (c.1.retSlotLocal ≠ d)).getD true

/-- Whether slot `d` is ordinary storage that a result pointer may name. -/
def slotStaysPut (fr : FrameInfo) (f : FunctionSsa) (d : ℤ) : Bool :=
  !(0 ≤ d || d = fr.indirectResultSlot || d ∈ fr.paramLocalSlots || d ∈ fr.overAligned) &&
    !f.insts.any fun inst =>
      match inst with
      | .loadLocal off _ _ vol | .storeLocal off _ _ _ vol _ => off = d && vol
      | .allocaInit off => off = d
      | .load addr _ _ true _ _ | .store addr _ _ _ true _ _ => into f d addr
      | _ => false

/-- One round of naming the values that a slot's address reaches by constant steps. -/
def nameRound (f : FunctionSsa) (d : ℤ) (names : ℕ → Bool) : ℕ → Bool := fun v =>
  names v || match f.insts[v]? with
    | some (.localAddr off) => off = d
    | some (.binopI .add lhs _) | some (.binopI .sub lhs _) => names lhs
    | _ => false

/-- The values that name a slot or a constant offset from it.  A round that goes on names one more. -/
def slotNames (f : FunctionSsa) (d : ℤ) : ℕ → Bool := (nameRound f d)^[f.insts.length] fun _ => false

/-- Whether an instruction lets a named address out. -/
def escapesAt (named : ℕ → Bool) : Inst → Bool
  | .load .. | .loadIndexed .. | .binopI .. | .mcpy .. | .mzero .. => false
  | .store _ _ value .. => named value
  | .storeIndexed _ index _ _ value .. => named index || named value
  | inst => inst.operands.any named

/-- Where in a block the address of slot `d` escapes. -/
def escapeList (f : FunctionSsa) (d : ℤ) (blk : Block) : List ℕ :=
  let named := fun v => v ≠ noValue && slotNames f d v
  (blk.instRange.toList.filter fun u => ((f.insts[u]?).map (escapesAt named)).getD false) ++
    if blk.terminator.operands.any named then [blk.instRange.stop] else []

/-- The blocks that some path from an escape enters, over one edge or more. -/
def entered (f : FunctionSsa) (d : ℤ) : List ℕ :=
  let next := fun b => some ((f.blocks[b]?.map fun blk =>
    successors blk.terminator f.computedGotoTargets f.jumpTables).getD [])
  let roots := (f.blocks.zipIdx.filter fun p => !(escapeList f d p.1).isEmpty).map Prod.snd
  let start : Explore ℕ := { stack := roots.flatMap fun b => (next b).getD [] }
  (start.run next (start.measure next f.blocks.length)).seen

/-- Whether an escape of slot `d` can run before the instruction at `at'`. -/
def reaches (f : FunctionSsa) (d : ℤ) (at' : ℕ) : Bool :=
  match f.blocks.zipIdx.find? fun p => p.1.instRange.start ≤ at' && at' < p.1.instRange.stop with
  | none => false
  | some (blk, b) => b ∈ entered f d || (escapeList f d blk).any fun u => u ≤ at'

/-! ## The pass -/

/-- A copy whose writes are redirected: where it is, the temporary, where its block starts, and the
destination. -/
structure Elision where
  mcpy : ℕ
  slot : ℤ
  start : ℕ
  dst : ℕ
  plan : Plan
  /-- The writes take the destination's value; elsewhere the temporary's base takes its instruction. -/
  direct : Bool
  deriving DecidableEq

/-- What the pass has decided. -/
structure Run where
  redirects : List (ℕ × ℕ × ℤ) := []
  namedAt : List (ℕ × ℕ) := []
  elided : List (ℕ × ℕ) := []
  taken : List ℤ := []
  retargets : List (ℕ × ℤ) := []
  renamed : List (ℕ × ℤ) := []
  /-- The elisions with a plan; nothing reads it. -/
  elisions : List Elision := []

/-- Point a call that fills the temporary at the destination, where it may. -/
def retarget (fr : FrameInfo) (f : FunctionSsa) (r : Run) (slot : ℤ) (start i dst : ℕ) (size : ℤ) : Run :=
  match callWriter fr f slot start i size, base f dst with
  | some (call, renames, reads), some (d, 0) =>
    if d ∉ r.taken ∧ (∀ p ∈ r.retargets, p.2 ≠ slot) ∧ slotStaysPut fr f d ∧ slot ∉ fr.overAligned ∧
        reaches f d call = false ∧ (reads = [] ∨ soleWriter f d i) ∧ ∀ u ∈ reads, reaches f d u = false then
      { r with
        retargets := r.retargets ++ [(call, d)]
        renamed := r.renamed ++ renames.map fun a => (a, d)
        elided := r.elided ++ [(i, dst)]
        taken := slot :: r.taken }
    else r
  | _, _ => r

/-- Elide the copy at `i` by its plan. -/
def elide (f : FunctionSsa) (r : Run) (slot : ℤ) (start i dst : ℕ) (size : ℤ) (plan : Plan) : Run :=
  if !covers plan.spans size then r
  else if ¬(start ≤ dst ∧ dst < i) ∨ ∀ p ∈ plan.redirects, dst < p.1 then
    { r with
      redirects := r.redirects ++ plan.redirects.map fun p => (p.1, dst, p.2)
      elided := r.elided ++ [(i, dst)]
      taken := slot :: r.taken
      elisions := r.elisions ++ [⟨i, slot, start, dst, plan, true⟩] }
  else
    match f.insts[dst]? with
    | some (.localAddr _) | some (.immData _) =>
      { r with
        namedAt := r.namedAt ++ plan.roots.map fun a => (a, dst)
        elided := r.elided ++ [(i, dst)]
        taken := slot :: r.taken
        elisions := r.elisions ++ [⟨i, slot, start, dst, plan, false⟩] }
    | _ => r

/-- Decide on the instruction at `i` of a block. -/
def decideAt (fr : FrameInfo) (f : FunctionSsa) (start : ℕ) (r : Run) (i : ℕ) : Run :=
  match f.insts[i]? with
  | some (.mcpy dst src size _) =>
    match base f src with
    | some (slot, 0) =>
      if slot ∈ r.taken ∨ (base f dst).any fun b => b.1 = slot then r
      else
        match planOne f slot start i with
        | none => retarget fr f r slot start i dst size
        | some plan => elide f r slot start i dst size plan
    | _ => r
  | _ => r

/-- Decide on every copy. -/
def decideAll (fr : FrameInfo) (f : FunctionSsa) : Run :=
  f.blocks.foldl (fun r blk => blk.instRange.toList.foldl (decideAt fr f blk.instRange.start) r) {}

/-- A call with its result slot changed. -/
def setRetSlot (d : ℤ) : Inst → Inst
  | .call t args n conv site => .call t args n conv { site with retSlotLocal := d }
  | .callIndirect t args vr n conv site => .callIndirect t args vr n conv { site with retSlotLocal := d }
  | .callExt b args site => .callExt b args { site with retSlotLocal := d }
  | inst => inst

/-- A write, or an address of one, at the destination.  The alignment is carried over. -/
def redirect (dst : ℕ) (off : ℤ) : Inst → Inst
  | .store _ disp value kind vol align pcRel => .store dst disp value kind vol align pcRel
  | .mzero _ size align => .mzero dst size align
  | .binopI op _ _ => .binopI op dst (BitVec.ofInt 64 off)
  | inst => inst

/-- The temporary's base becomes the destination's address instruction, with the symbol that names. -/
def nameAt (f : FunctionSsa) (p : ℕ × ℕ) : FunctionSsa :=
  { f with
    insts := f.insts.set p.1 ((f.insts[p.2]?).getD .undef)
    externImmDataRefs :=
      match f.externImmDataRefs.find? fun q => q.1 = p.2 with
      | some q => (f.externImmDataRefs ++ [(p.1, q.2)]).insertionSort fun a b => a.1 < b.1 ∨ a.1 = b.1 ∧ a.2 ≤ b.2
      | none => f.externImmDataRefs }

/-- The values that anything reads. -/
def isLive (f : FunctionSsa) (v : ℕ) : Bool :=
  f.insts.any (fun inst => v ∈ inst.operands) ||
    f.blocks.any fun blk => v ∈ blk.terminator.operands || blk.exitAcc = v

/-- A temporary's address that nothing reads loses its name. -/
def dropName (f : FunctionSsa) (taken : List ℤ) (i : ℕ) (inst : Inst) : Inst :=
  match inst with
  | .localAddr off => if off ∈ taken ∧ !isLive f i then .imm 0 else inst
  | _ => inst

/-- Carry out what is decided. -/
def apply (r : Run) (f : FunctionSsa) : FunctionSsa :=
  if r.elided = [] then f
  else
    let insts := r.retargets.foldl (fun insts p => insts.modify p.1 (setRetSlot p.2)) f.insts
    let insts := r.renamed.foldl (fun insts p => insts.set p.1 (.localAddr p.2)) insts
    let f := r.namedAt.foldl nameAt { f with insts }
    let insts := r.redirects.foldl (fun insts p => insts.modify p.1 (redirect p.2.1 p.2.2)) f.insts
    let insts := r.elided.foldl (fun insts p => insts.set p.1 (.copy p.2 false)) insts
    let f := { f with insts }
    { f with insts := f.insts.mapIdx fun i inst => dropName f r.taken i inst }

/-- Elide the copies of a function. -/
def runOne (fr : FrameInfo) (f : FunctionSsa) : FunctionSsa :=
  if fr.syntheticBase ≤ 0 ∨ !f.insts.any (fun inst => match inst with | .mcpy .. => true | _ => false) then f
  else apply (decideAll fr f) f

end Badc.CopyElide
