import Badc.Ssa.Graph
import Badc.Lib.Mark

/-!
# Operands, results and uses

What `src/c5/codegen/ssa/reg_alloc.rs` says of an instruction for the passes before allocation: the
operands it reads from a place (`for_each_operand`), the register file of its result
(`result_kind`), and how often each value is used (`compute_use_counts`), where dead instructions and
dead phis use nothing.
-/

namespace Badc

/-- The `VaArg` intrinsic. -/
def vaArgIntrinsic : ℤ := 5

/-- The operands an instruction reads from a place. -/
def Inst.placedOperands : Inst → List ℕ
  | .intrinsic kind args =>
    if kind = vaArgIntrinsic then (args.zipIdx.filter fun p => p.2 ≠ 1).map Prod.fst else args
  | .loadIndexed _ index _ _ _ true => [index]
  | .storeIndexed _ index _ _ value _ true => [index, value]
  | .load _ _ _ _ _ true => []
  | .store _ _ value _ _ _ true => [value]
  | inst => inst.operands

/-- The floating-point and vector kinds. -/
def LoadKind.isFp : LoadKind → Bool
  | .f32 | .f64 | .f80 | .f128 | .v128 => true
  | _ => false

/-- Whether the edge move of a phi of `kind` reads no place for its income `v`. -/
def phiIncomeReadsNoPlace (f : FunctionSsa) (kind : LoadKind) (v : ℕ) : Bool :=
  match f.insts[v]? with
  | some .undef => true
  | some (.imm _) => kind.isFp
  | _ => false

/-- The floating-point and vector kinds of a store. -/
def StoreKind.isFp : StoreKind → Bool
  | .f32 | .f64 | .f80 | .f128 | .v128 => true
  | _ => false

/-- Whether the instruction's only effect is defining its result. -/
def Inst.isPure : Inst → Bool
  | .imm _ | .undef | .immData _ | .immCode _ | .immExtCode _ | .localAddr _ | .tlsAddr _
  | .parentLocalAddr .. | .loadIndexed .. | .binop .. | .binopI .. | .neg _ | .fneg _ | .fma ..
  | .mulAdd .. | .shiftOp .. | .bitField .. | .udiv128 .. | .fpCast .. | .extend .. | .bswap ..
  | .bitCount .. | .copy .. | .paramPart .. | .retPart .. | .asmOut .. => true
  | .load _ _ _ isVolatile .. | .loadLocal _ _ _ isVolatile | .segLoad _ _ isVolatile _ =>
    !isVolatile
  | _ => false

/-- The register file of an instruction's result. -/
inductive ResultKind
  | int | fp | none
  deriving DecidableEq, Repr

/-- The unary floating-point intrinsics, from `Sqrt` to `Truncf`. -/
def isFpUnaryIntrinsic (kind : ℤ) : Bool := 11 ≤ kind && kind ≤ 20

/-- Where an instruction's result lives. -/
def resultKind (inst : Inst) : ResultKind :=
  let file := fun fp : Bool => if fp then ResultKind.fp else .int
  match inst with
  | .paramRef _ kind | .paramPart _ _ kind | .retPart _ kind | .asmOut _ kind | .phi _ kind
  | .load _ _ kind .. | .loadLocal _ _ kind _ | .segLoad _ kind .. | .loadIndexed _ _ _ _ kind _ =>
    file kind.isFp
  | .store _ _ _ kind .. | .storeLocal _ _ _ kind .. | .segStore _ _ kind .. => file kind.isFp
  | .copy _ isFp => file isFp
  | .binop op .. | .binopI op .. => file (isFpArithOp op)
  | .fneg _ | .fma .. => .fp
  | .fpCast kind _ =>
    match kind with
    | .fpToInt | .ufpToInt => .int
    | .intToFp | .uintToFp | .f32ToF64 | .f64ToF32 => .fp
  | .call _ _ _ _ site | .callIndirect _ _ _ _ _ site | .callExt _ _ site => file site.fpReturn
  | .intrinsic kind _ => file (isFpUnaryIntrinsic kind)
  | .inlineAsm asm _ =>
    match asm.operands.find? fun o => o.value && o.isOutput with
    | some o => file (o.constraint = .fp)
    | none => .none
  | .aggParts .. | .x86Simd .. | .tailExt _ | .mzero .. | .atomicStore .. | .allocaInit _
  | .lifetimeEnd _ => .none
  | _ => .int

/-- Whether an instruction's result lives in the floating-point file. -/
def producesFpResult (inst : Inst) : Bool := resultKind inst = .fp

/-! ## Use counts -/

/-- State of the count: how often each value is used, the instructions found dead, and whether the
sweep found one. -/
structure UseCount where
  counts : ℕ → ℕ
  killed : ℕ → Bool
  changed : Bool

section

variable (f : FunctionSsa)

/-- One more use of a value. -/
def bumpInto (counts : ℕ → ℕ) (v : ℕ) : ℕ → ℕ :=
  if v ≠ noValue ∧ v < f.insts.length then Function.update counts v (counts v + 1) else counts

/-- One use less. -/
def decrement (counts : ℕ → ℕ) (v : ℕ) : ℕ → ℕ :=
  if v ≠ noValue ∧ v < f.insts.length then Function.update counts v (counts v - 1) else counts

/-- A sweep over the pure instructions: one that is not used uses nothing. -/
def sweepPure (s : UseCount) : UseCount :=
  f.insts.zipIdx.foldl (fun s p =>
    if s.killed p.2 || !p.1.isPure || s.counts p.2 ≠ 0 then s
    else
      { counts := p.1.placedOperands.foldl (decrement f) s.counts
        killed := Function.update s.killed p.2 true
        changed := true }) { s with changed := false }

/-- Sweep until nothing changes. -/
def killPure (s : UseCount) : UseCount :=
  whileSome (fun s => if (sweepPure f s).changed then some (sweepPure f s) else none)
    (f.insts.length + 1) s

/-- The phis an instruction or a terminator still reads, through phis. -/
def livePhis (killed : ℕ → Bool) : List ℕ :=
  let phis := fun vs : List ℕ => vs.filter fun v =>
    v ≠ noValue && !killed v && ((f.insts[v]?).any Inst.isPhi)
  let seeds := phis <|
    (f.insts.zipIdx.flatMap fun p => if killed p.2 || p.1.isPhi then [] else p.1.placedOperands) ++
      f.blocks.flatMap fun blk => blk.terminator.operands
  let next := fun p => match f.insts[p]? with
    | some (Inst.phi incoming _) => phis (incoming.map Prod.snd)
    | _ => []
  (Mark.run next f.insts.length (seeds.foldl Mark.insert ⟨[], []⟩)).seen

/-- The phis nothing reads use nothing. -/
def killPhis (s : UseCount) : UseCount :=
  let live := livePhis f s.killed
  f.insts.zipIdx.foldl (fun s p =>
    match p.1 with
    | .phi incoming kind =>
      if s.killed p.2 || live.contains p.2 then s
      else
        { counts := (incoming.map Prod.snd).foldl (fun counts v =>
            if phiIncomeReadsNoPlace f kind v then counts else decrement f counts v) s.counts
          killed := Function.update s.killed p.2 true
          changed := true }
    | _ => s) { s with changed := false }

/-- The uses of each value that are not by dead instructions or dead phis. -/
def computeUseCounts : ℕ → ℕ :=
  let counts := (f.insts.flatMap Inst.placedOperands ++
    f.blocks.flatMap fun blk => blk.terminator.operands).foldl (bumpInto f) fun _ => 0
  let round := fun s : UseCount =>
    let s' := killPhis f (killPure f s)
    if (List.range f.insts.length).any fun i => s'.killed i != s.killed i then some s' else none
  (whileSome round (f.insts.length + 1) ⟨counts, fun _ => false, false⟩).counts

end

end Badc
