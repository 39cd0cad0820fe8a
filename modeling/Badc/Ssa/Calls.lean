import Mathlib.Logic.Relation
import Badc.Ssa.Machine

/-!
# Running a set of functions

A translation unit's functions call each other: `Calls.Step` runs a stack of activations.  A call
whose target is a function of the set pushes an activation, whose parameters are what the arguments
hold; of a word marked in `low_word_args` only the low half arrives as it was.  Every
other instruction is a step of the activation on top.  Code outside the set may enter the functions
it can reach at any time, with any arguments.
-/

namespace Badc

/-- A function of a translation unit: its body, and what its declaration says. -/
structure Func where
  ssa : FunctionSsa
  entPc : ℕ
  isInternal : Bool
  isVariadic : Bool
  isNaked : Bool
  nParams : ℕ
  /-- The parameters whose incoming register no instruction reads. -/
  constParams : Word := 0
  deriving DecidableEq

/-- A function that was entered and has not returned. -/
structure Activation where
  fn : Func
  args : ℕ → Val
  base : Word
  /-- Whether a call of the set entered it. -/
  fromCall : Bool
  block : ℕ
  pc : ℕ
  regs : Regs

/-- What a call instruction asks for: the callee, the arguments, and which of them arrive in the low
word only. -/
structure CallRequest where
  targetPc : ℕ
  args : List ℕ
  lowWordArgs : Word
  deriving DecidableEq

/-- The call an instruction makes. -/
def Inst.request : Inst → Option CallRequest
  | .call target args _ _ site => some ⟨target, args, site.lowWordArgs⟩
  | _ => none

namespace Activation

variable {Ext : Type}

/-- The activation as the state of a run. -/
def state (a : Activation) (w : World Ext) : State Ext := ⟨a.block, a.pc, a.regs, w⟩

/-- The activation after a step. -/
def resume (a : Activation) (s : State Ext) : Activation :=
  { a with block := s.block, pc := s.pc, regs := s.regs }

/-- The call the activation is about to make. -/
def request (a : Activation) : Option CallRequest := do
  let blk ← a.fn.ssa.blocks[a.block]?
  if a.pc < blk.instRange.stop then (← a.fn.ssa.insts[a.pc]?).request else none

/-- The activation after the call it made returned. -/
def receive (a : Activation) (value : Option Val) : Activation :=
  { a with pc := a.pc + 1, regs := a.regs.set a.pc value }

/-- A function on entry. -/
def enter (fn : Func) (args : ℕ → Val) (base : Word) (fromCall : Bool) : Activation where
  fn
  args
  base
  fromCall
  block := 0
  pc := ((fn.ssa.blocks[0]?).map fun blk => blk.instRange.start).getD 0
  regs _ := none

end Activation

/-- What arrives for an argument: the argument itself, or a word that agrees with it in the low
half. -/
def ArrivesAs (lowWord : Bool) : Val → Val → Prop
  | .word x, y => ∃ y', y = .word y' ∧ if lowWord then y'.setWidth 32 = x.setWidth 32 else y' = x
  | .vec x, y => y = .vec x

/-- What arrives for the arguments of a call. -/
def Arrives (regs : Regs) (c : CallRequest) (arrived : ℕ → Val) : Prop :=
  ∀ i a, c.args[i]? = some a →
    ∃ x, regs.get a = some x ∧ ArrivesAs (c.lowWordArgs.getLsbD i) x (arrived i)

/-- The word of a parameter register; of a vector the low half. -/
def Val.lowHalf : Val → Word
  | .word x => x
  | .vec x => x.setWidth 64

namespace Calls

/-- The activations, the innermost first, and the world they share. -/
structure Config (Ext : Type) where
  world : World Ext
  stack : List Activation

variable (m : Machine) (funcs : List Func) (outside : Func → Prop)

/-- The machine as an activation sees it. -/
def within (a : Activation) : Machine := { m with frame := a.base, arg := fun i => (a.args i).lowHalf }

/-- One step of the set of functions. -/
inductive Step : Config m.Ext → Config m.Ext → Prop
  /-- The activation on top goes on. -/
  | inner {w : World m.Ext} {a : Activation} {rest : List Activation} {s : State m.Ext}
      (hout : ∀ c, a.request = some c → ∀ g ∈ funcs, g.entPc ≠ c.targetPc)
      (h : (within m a).step a.fn.ssa (a.state w) = some (.running s)) :
      Step ⟨w, a :: rest⟩ ⟨s.world, a.resume s :: rest⟩
  /-- The activation on top calls a function of the set. -/
  | call {w : World m.Ext} {a : Activation} {rest : List Activation} {c : CallRequest} {g : Func}
      {arrived : ℕ → Val} {base : Word} (hc : a.request = some c) (hg : g ∈ funcs)
      (hpc : g.entPc = c.targetPc) (harr : Arrives a.regs c arrived) :
      Step ⟨w, a :: rest⟩ ⟨w, .enter g arrived base true :: a :: rest⟩
  /-- The activation on top returns to the one that called it. -/
  | ret {w w' : World m.Ext} {a b : Activation} {rest : List Activation} {value : Option Val}
      {c : CallRequest} (hfrom : a.fromCall = true) (hc : b.request = some c)
      (h : (within m a).step a.fn.ssa (a.state w) = some (.returned value w')) :
      Step ⟨w, a :: b :: rest⟩ ⟨w', b.receive value :: rest⟩
  /-- The activation on top returns to code outside the set. -/
  | leave {w w' : World m.Ext} {a : Activation} {rest : List Activation} {value : Option Val}
      (hfrom : a.fromCall = false)
      (h : (within m a).step a.fn.ssa (a.state w) = some (.returned value w')) :
      Step ⟨w, a :: rest⟩ ⟨w', rest⟩
  /-- Code outside the set enters a function that it can reach. -/
  | enter {w w' : World m.Ext} {stack : List Activation} {g : Func} {args : ℕ → Val}
      {base : Word} (hg : g ∈ funcs) (hout : outside g) :
      Step ⟨w, stack⟩ ⟨w', .enter g args base false :: stack⟩

/-- The configurations a run passes through, from an empty stack on. -/
def Reachable (cfg : Config m.Ext) : Prop :=
  ∃ w : World m.Ext, Relation.ReflTransGen (Step m funcs outside) ⟨w, []⟩ cfg

variable {m funcs outside} {I : Activation → Prop}

/-- What holds on every entry, and what an activation's own steps and the return of a callee keep,
holds of every activation of every run. -/
theorem Reachable.forall_mem {cfg : Config m.Ext} (h : Reachable m funcs outside cfg)
    (hinner : ∀ (a : Activation) (w : World m.Ext) (s : State m.Ext), I a →
      (within m a).step a.fn.ssa (a.state w) = some (.running s) → I (a.resume s))
    (hcall : ∀ a c g arrived base, I a → a.request = some c → g ∈ funcs → g.entPc = c.targetPc →
      Arrives a.regs c arrived → I (.enter g arrived base true))
    (hret : ∀ a c value, I a → a.request = some c → I (a.receive value))
    (henter : ∀ g args base, g ∈ funcs → outside g → I (.enter g args base false)) :
    ∀ a ∈ cfg.stack, I a := by
  obtain ⟨w, h⟩ := h
  induction h with
  | refl => simp
  | tail _ hstep ih =>
    cases hstep with
    | inner hout hs =>
      obtain ⟨ha, hrest⟩ := List.forall_mem_cons.mp ih
      exact List.forall_mem_cons.mpr ⟨hinner _ _ _ ha hs, hrest⟩
    | call hc hg hpc harr =>
      obtain ⟨ha, -⟩ := List.forall_mem_cons.mp ih
      exact List.forall_mem_cons.mpr ⟨hcall _ _ _ _ _ ha hc hg hpc harr, ih⟩
    | ret hfrom hc hs =>
      obtain ⟨-, hrest⟩ := List.forall_mem_cons.mp ih
      obtain ⟨hb, hrest⟩ := List.forall_mem_cons.mp hrest
      exact List.forall_mem_cons.mpr ⟨hret _ _ _ hb hc, hrest⟩
    | leave hfrom hs => exact (List.forall_mem_cons.mp ih).2
    | enter hg hout => exact List.forall_mem_cons.mpr ⟨henter _ _ _ hg hout, ih⟩

end Calls

end Badc
