import Badc.Passes.ValueRange.Eval
import Badc.Ssa.Calls

/-!
# Interprocedural parameter facts

A function with internal linkage whose address does not escape is entered through the call sites of
its translation unit.  Where every site passes one constant for a parameter, reads of the parameter
become that constant, and the hull of the ranges the arguments carry is a range for the parameter.
An argument's range is read from its own instruction with nothing else in scope, so one pass over the
sites gathers the facts.
-/

namespace Badc.IpaConstParam

/-- The value a parameter read at `kind` yields for an argument whose constant is `k`.  An integer
constant does not describe a floating parameter. -/
def narrowToKind (k : Word) (kind : LoadKind) : Option Word :=
  match kind with
  | .i64 | .i32 | .u32 | .i16 | .u16 | .i8 | .u8 => some (extendLoad k kind)
  | .f32 | .f64 | .f80 | .f128 | .v128 => none

/-- The constant a value is defined as. -/
def constOperand (f : FunctionSsa) (v : ℕ) : Option Word :=
  if v = noValue then none
  else match f.insts[v]? with
    | some (.imm k) => some k
    | _ => none

/-- The range an argument carries: its instruction's own, over unbounded operands. -/
def argRange (f : FunctionSsa) (v : ℕ) : Range :=
  match f.insts[v]? with
  | some inst => eval (M := Id) inst [] fun _ => .univ
  | none => .univ

/-- What the call sites of one function agree about its parameters. -/
structure Agreed where
  /-- The constant every site seen so far passes. -/
  consts : List (Option Word)
  /-- The hull of the ranges the arguments carry. -/
  ranges : List Range
  deriving DecidableEq

/-- Whether the call sites describe every entry of the function, and its parameters have fixed
positions. -/
def isCandidate (escaping : List ℕ) (f : Func) : Bool :=
  f.isInternal && !f.isVariadic && !f.isNaked && decide (0 < f.nParams) &&
    decide (f.entPc ∉ escaping)

/-- The number of parameters of the candidate with an entry, the last one of the list. -/
def paramsOf (funcs : List Func) (escaping : List ℕ) (pc : ℕ) : Option ℕ :=
  (funcs.reverse.find? fun f => isCandidate escaping f && f.entPc = pc).map Func.nParams

/-- The parameters a body reads from the whole register. -/
def rawReadsOf (f : FunctionSsa) : Word :=
  f.insts.foldl (fun mask inst => match inst with
    | .paramRef idx .i64 => if idx < 64 then mask ||| BitVec.twoPow 64 idx else mask
    | _ => mask) 0

/-- The parameters read from the whole register, by entry. -/
def rawReads (funcs : List Func) (escaping : List ℕ) (pc : ℕ) : Word :=
  ((funcs.reverse.find? fun f => (paramsOf funcs escaping f.entPc).isSome && f.entPc = pc).map
    fun f => rawReadsOf f.ssa).getD 0

/-- What has been gathered from the call sites: the facts by entry, and the entries that were
called. -/
structure Gathered where
  agreed : ℕ → Option Agreed
  called : List ℕ

/-- The facts before any call site. -/
def start (funcs : List Func) (escaping : List ℕ) : Gathered where
  agreed pc := (paramsOf funcs escaping pc).map fun n =>
    ⟨List.replicate n none, List.replicate n .univ⟩
  called := []

/-- The constant after one more site: the first one assigns, a later one has to agree. -/
def agreeConst (first : Bool) (arg prev : Option Word) : Option Word :=
  match arg, prev with
  | some k, none => if first then some k else none
  | some k, some prev => if k = prev then some prev else none
  | none, _ => none

/-- One argument's range.  The upper half of a low-word argument is unspecified, so it bounds no
parameter that is read from the whole register. -/
def siteRange (f : FunctionSsa) (unbounded : Word) (i arg : ℕ) : Range :=
  if i < 64 && unbounded.getLsbD i then .univ else argRange f arg

/-- The facts after one more call site with as many arguments as parameters. -/
def Agreed.join (slots : Agreed) (f : FunctionSsa) (first : Bool) (unbounded : Word)
    (args : List ℕ) : Agreed where
  consts := args.mapIdx fun i arg =>
    agreeConst first (constOperand f arg) ((slots.consts[i]?).getD none)
  ranges := args.mapIdx fun i arg =>
    let r := siteRange f unbounded i arg
    if first then r else ((slots.ranges[i]?).getD .univ).hull r

/-- One instruction of the pass over the call sites.  A site whose argument list does not match the
declared one leaves the parameter positions undetermined. -/
def gatherInst (raw : ℕ → Word) (f : FunctionSsa) (g : Gathered) (inst : Inst) : Gathered :=
  match inst.request with
  | none => g
  | some c =>
    match g.agreed c.targetPc with
    | none => g
    | some slots =>
      if c.args.length ≠ slots.consts.length then
        { g with agreed := Function.update g.agreed c.targetPc none }
      else
        let first := decide (c.targetPc ∉ g.called)
        let slots := slots.join f first (c.lowWordArgs &&& raw c.targetPc) c.args
        ⟨Function.update g.agreed c.targetPc (some slots), c.targetPc :: g.called⟩

/-- The facts of all call sites. -/
def gather (funcs : List Func) (escaping : List ℕ) : Gathered :=
  funcs.foldl (fun g f => f.ssa.insts.foldl (gatherInst (rawReads funcs escaping) f.ssa) g)
    (start funcs escaping)

/-- The facts of the functions that are called. -/
def facts (funcs : List Func) (escaping : List ℕ) (pc : ℕ) : Option Agreed :=
  let g := gather funcs escaping
  if pc ∈ g.called then g.agreed pc else none

/-! ## Substituting the constants -/

/-- Whether a value feeds the entry spill of its own parameter's cell, which the inliner reads. -/
def isPinned (f : FunctionSsa) (v : ℕ) : Bool :=
  f.insts.any fun inst => match inst with
    | .storeLocal off _ value .. =>
      value = v && match f.insts[value]? with
        | some (.paramRef idx _) => decide ((idx : ℤ) + 2 = off)
        | _ => false
    | _ => false

/-- The constant a parameter read becomes. -/
def substConst (slots : List (Option Word)) (pinned : Bool) (inst : Inst) : Option (ℕ × Word) :=
  match inst with
  | .paramRef idx kind =>
    if pinned || decide (64 ≤ idx) then none
    else do
      let k ← (slots[idx]?).getD none
      return (idx, ← narrowToKind k kind)
  | _ => none

/-- The function with the agreed constants in place of its parameter reads. -/
def substitute (agreed : ℕ → Option Agreed) (f : Func) : Func :=
  match agreed f.entPc with
  | none => f
  | some slots =>
    let folded := (f.ssa.insts.zipIdx.filterMap fun p =>
      (substConst slots.consts (isPinned f.ssa p.2) p.1).map Prod.fst)
    { f with
      ssa := { f.ssa with
        insts := f.ssa.insts.mapIdx fun v inst =>
          match substConst slots.consts (isPinned f.ssa v) inst with
          | some (_, c) => .imm c
          | none => inst }
      constParams := folded.foldl (fun mask idx => mask ||| BitVec.twoPow 64 idx) f.constParams }

/-- The pass: the functions with the constants substituted, and the parameter ranges of the functions
for which any parameter is bounded. -/
def run (funcs : List Func) (escaping : List ℕ) : List Func × (ℕ → Option (List Range)) :=
  let agreed := facts funcs escaping
  (funcs.map (substitute agreed), fun pc =>
    (agreed pc).bind fun a => if a.ranges.any (· ≠ .univ) then some a.ranges else none)

end Badc.IpaConstParam
