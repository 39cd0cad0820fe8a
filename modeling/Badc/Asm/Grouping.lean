import Badc.Asm.Expr
import Badc.Lib.Precedence

/-!
# What an expression says

The reading of an expression that its evaluation is compared with: a text is cut into tokens, the tokens
are the print of one grouped tree, and the tree has a value once every location has an address.
`* / % << >>` bind tightest, then `| & ^`, then `+ -`, then the comparisons, then `&&`, then `||`.
-/

namespace Badc.Asm

open Precedence

inductive UnaryOp
  | neg | plus | not | lnot
  deriving DecidableEq

inductive BinaryOp
  | mul (op : MulOp)
  | bit (op : BitOp)
  | add (sub : Bool)
  | rel (op : RelOp)
  | logand
  | logor

/-- The levels of the binary operators, the tightest first. -/
def BinaryOp.level : BinaryOp → ℕ
  | .mul _ => 0
  | .bit _ => 1
  | .add _ => 2
  | .rel _ => 3
  | .logand => 4
  | .logor => 5

/-- An expression over the values of its leaves. -/
abbrev Expr := Tree AsmExprValue UnaryOp BinaryOp

abbrev ExprToken := Token AsmExprValue UnaryOp BinaryOp

/-! ## Tokens -/

/-- The prefix operator at the front of a text. -/
def unaryOperator : Text → Option (UnaryOp × Text)
  | a :: r =>
    if a == byte '-' then some (.neg, r)
    else if a == byte '+' then some (.plus, r)
    else if a == byte '~' then some (.not, r)
    else if a == byte '!' && r.head? != some (byte '=') then some (.lnot, r)
    else none
  | [] => none

/-- The binary operators of two bytes. -/
def longOperator (a b : UInt8) : Option BinaryOp :=
  if a == byte '<' && b == byte '<' then some (.mul .shl)
  else if a == byte '>' && b == byte '>' then some (.mul .shr)
  else if a == byte '=' && b == byte '=' then some (.rel .eq)
  else if a == byte '!' && b == byte '=' then some (.rel .ne)
  else if a == byte '<' && b == byte '>' then some (.rel .ne)
  else if a == byte '<' && b == byte '=' then some (.rel .le)
  else if a == byte '>' && b == byte '=' then some (.rel .ge)
  else if a == byte '&' && b == byte '&' then some .logand
  else if a == byte '|' && b == byte '|' then some .logor
  else none

/-- The binary operators of one byte. -/
def shortOperator (a : UInt8) : Option BinaryOp :=
  if a == byte '*' then some (.mul .mul)
  else if a == byte '/' then some (.mul .div)
  else if a == byte '%' then some (.mul .rem)
  else if a == byte '|' then some (.bit .or)
  else if a == byte '&' then some (.bit .and)
  else if a == byte '^' then some (.bit .xor)
  else if a == byte '+' then some (.add false)
  else if a == byte '-' then some (.add true)
  else if a == byte '<' then some (.rel .lt)
  else if a == byte '>' then some (.rel .gt)
  else none

/-- The binary operator at the front of a text, the longer one first. -/
def binaryOperator : Text → Option (BinaryOp × Text)
  | a :: b :: r =>
    match longOperator a b with
    | some o => some (o, r)
    | none => (shortOperator a).map (·, b :: r)
  | [a] => (shortOperator a).map (·, [])
  | [] => none

/-- The leaf at the front of a text. -/
def leafAt (ctx : AsmExprCtx) : Text → Result (AsmExprValue × Text)
  | a :: r => if a == byte '%' then valOperand ctx r else valLeaf ctx (a :: r)
  | [] => valLeaf ctx []

/-- What a place of a text is to hold next. -/
inductive Place
  | operand | operator

/-- The tokens of a text, after blanks. -/
inductive Lexes (ctx : AsmExprCtx) : Place → Text → List ExprToken → Prop
  | done {r : Text} : skipWs r = [] → Lexes ctx .operator r []
  | unary {r r' : Text} {u : UnaryOp} {ts : List ExprToken} :
      unaryOperator (skipWs r) = some (u, r') → Lexes ctx .operand r' ts →
      Lexes ctx .operand r (.unary u :: ts)
  | opening {r r' : Text} {ts : List ExprToken} :
      skipWs r = byte '(' :: r' → Lexes ctx .operand r' ts → Lexes ctx .operand r (.opening :: ts)
  | leaf {r r' : Text} {v : AsmExprValue} {ts : List ExprToken} :
      leafAt ctx (skipWs r) = .ok (v, r') → Lexes ctx .operator r' ts →
      Lexes ctx .operand r (.leaf v :: ts)
  | binary {r r' : Text} {o : BinaryOp} {ts : List ExprToken} :
      binaryOperator (skipWs r) = some (o, r') → Lexes ctx .operand r' ts →
      Lexes ctx .operator r (.binary o :: ts)
  | closing {r r' : Text} {ts : List ExprToken} :
      skipWs r = byte ')' :: r' → Lexes ctx .operator r' ts → Lexes ctx .operator r (.closing :: ts)

/-- A text reads as a grouped expression whose print is its tokens. -/
def ReadsAs (ctx : AsmExprCtx) (s : Text) (e : Expr) : Prop :=
  e.Grouped BinaryOp.level ∧ Lexes ctx .operand s e.print

variable {ctx : AsmExprCtx} {r r' s : Text}

/-- No leaf starts with a byte that is no letter, digit, quote or percent sign. -/
lemma leafAt_ne_ok {a : UInt8} {x : AsmExprValue × Text} (hblank : isWhitespace a = false)
    (hquote : a ≠ byte '\'') (hpercent : a ≠ byte '%') (hident : isIdent a = false) :
    leafAt ctx (a :: r) ≠ .ok x := by
  have hskip : skipWs (a :: r) = a :: r := by
    rw [skipWs, List.dropWhile_cons_of_neg (by simp [hblank])]
  have hchar : parseAsmCharConst (a :: r) = none := by
    cases r with
    | nil => rfl
    | cons c r => simp [parseAsmCharConst, hquote]
  rw [leafAt, if_neg (by simpa using hpercent), valLeaf]
  rw [hskip]
  simp only [hchar, List.takeWhile_cons_of_neg (Bool.not_eq_true _ ▸ hident)]
  split <;> exact fun h => nomatch h

/-- A prefix operator is no parenthesis and no leaf. -/
lemma unaryOperator_some {u : UnaryOp} (h : unaryOperator r = some (u, r')) :
    (∀ t, r ≠ byte '(' :: t) ∧ ∀ x, leafAt ctx r ≠ .ok x := by
  cases r with
  | nil => cases h
  | cons a r =>
    rw [unaryOperator] at h
    have ha : a = byte '-' ∨ a = byte '+' ∨ a = byte '~' ∨ a = byte '!' := by
      split at h
      · exact .inl (beq_iff_eq.mp ‹_›)
      · split at h
        · exact .inr (.inl (beq_iff_eq.mp ‹_›))
        · split at h
          · exact .inr (.inr (.inl (beq_iff_eq.mp ‹_›)))
          · split at h
            · rename_i hmark
              exact .inr (.inr (.inr (beq_iff_eq.mp (Bool.and_eq_true_iff.mp hmark).1)))
            · cases h
    rcases ha with rfl | rfl | rfl | rfl <;>
    exact ⟨fun t he => absurd (List.cons.inj he).1 (by decide),
      fun x => leafAt_ne_ok (by decide) (by decide) (by decide) (by decide)⟩

lemma leafAt_paren (x : AsmExprValue × Text) : leafAt ctx (byte '(' :: r) ≠ .ok x :=
  leafAt_ne_ok (by decide) (by decide) (by decide) (by decide)

lemma binaryOperator_paren : binaryOperator (byte ')' :: r) = none := by
  cases r with
  | nil => rfl
  | cons b r => rfl

/-- **A text has one list of tokens.** -/
theorem Lexes.unique {p : Place} {ts ts' : List ExprToken} (h : Lexes ctx p s ts)
    (h' : Lexes ctx p s ts') : ts = ts' := by
  induction h generalizing ts' with
  | done hend =>
    cases h' with
    | done _ => rfl
    | binary hop _ =>
      rw [hend] at hop
      cases hop
    | closing hclose _ =>
      rw [hend] at hclose
      cases hclose
  | unary hop _ ih =>
    cases h' with
    | unary hop' hrest' =>
      rw [hop] at hop'
      obtain ⟨rfl, rfl⟩ := Prod.mk.inj (Option.some.inj hop')
      rw [ih hrest']
    | opening hopen _ => exact absurd hopen ((@unaryOperator_some ctx _ _ _ hop).1 _)
    | leaf hleaf _ => exact absurd hleaf ((unaryOperator_some hop).2 _)
  | opening hopen _ ih =>
    cases h' with
    | unary hop _ => exact absurd hopen ((@unaryOperator_some ctx _ _ _ hop).1 _)
    | opening hopen' hrest' =>
      rw [hopen] at hopen'
      obtain rfl := (List.cons.inj hopen').2
      rw [ih hrest']
    | leaf hleaf _ =>
      rw [hopen] at hleaf
      exact absurd hleaf (leafAt_paren _)
  | leaf hleaf _ ih =>
    cases h' with
    | unary hop _ => exact absurd hleaf ((unaryOperator_some hop).2 _)
    | opening hopen _ =>
      rw [hopen] at hleaf
      exact absurd hleaf (leafAt_paren _)
    | leaf hleaf' hrest' =>
      rw [hleaf] at hleaf'
      obtain ⟨rfl, rfl⟩ := Prod.mk.inj (Except.ok.inj hleaf')
      rw [ih hrest']
  | binary hop _ ih =>
    cases h' with
    | done hend =>
      rw [hend] at hop
      cases hop
    | binary hop' hrest' =>
      rw [hop] at hop'
      obtain ⟨rfl, rfl⟩ := Prod.mk.inj (Option.some.inj hop')
      rw [ih hrest']
    | closing hclose _ =>
      rw [hclose, binaryOperator_paren] at hop
      cases hop
  | closing hclose _ ih =>
    cases h' with
    | done hend =>
      rw [hend] at hclose
      cases hclose
    | binary hop _ =>
      rw [hclose, binaryOperator_paren] at hop
      cases hop
    | closing hclose' hrest' =>
      rw [hclose] at hclose'
      obtain rfl := (List.cons.inj hclose').2
      rw [ih hrest']

/-- **A text has one reading.** -/
theorem ReadsAs.unique {e e' : Expr} (h : ReadsAs ctx s e) (h' : ReadsAs ctx s e') : e = e' :=
  Tree.print_injective h.1 h'.1 (h.2.unique h'.2)

/-! ## Values -/

/-- Addresses for the spaces and for the undefined symbols. -/
structure Addresses where
  base : AsmSpace → ℤ
  symbol : AsmSectionTarget → ℤ

/-- The address of a term. -/
def Addresses.term (A : Addresses) (t : AsmExprTerm) : ℤ :=
  match t.space with
  | some (space, off) => A.base space + off
  | none => A.symbol t.target

/-- The number a value stands for. -/
def AsmExprValue.at (v : AsmExprValue) (A : Addresses) : ℤ :=
  v.add + v.pos.elim 0 A.term - v.neg.elim 0 A.term

def UnaryOp.value : UnaryOp → ℤ → ℤ
  | .neg, a => -a
  | .plus, a => a
  | .not, a => -a - 1
  | .lnot, a => if a = 0 then 1 else 0

/-- Divisions and shifts are those of 64-bit words; a division by zero has a value only where it is
folded to zero. -/
def MulOp.value (laxDiv : Bool) : MulOp → ℤ → ℤ → Option ℤ
  | .mul, a, c => some (a * c)
  | .div, a, c => if c = 0 then if laxDiv then some 0 else none else some (toWord (a.tdiv c)).toInt
  | .rem, a, c => if c = 0 then if laxDiv then some 0 else none else some (a.tmod c)
  | .shl, a, c => if 0 ≤ c ∧ c < 64 then some (toWord a <<< c.toNat).toInt else none
  | .shr, a, c => if 0 ≤ c ∧ c < 64 then some (toWord a >>> c.toNat).toInt else none

def BitOp.value : BitOp → ℤ → ℤ → ℤ
  | .or, a, c => (toWord a ||| toWord c).toInt
  | .and, a, c => (toWord a &&& toWord c).toInt
  | .xor, a, c => (toWord a ^^^ toWord c).toInt

/-- The difference of two quantities depends on the addresses. -/
def Moving (f g : Addresses → Option ℤ) : Prop :=
  ∃ A B, ((f A).bind fun a => (g A).map fun c => a - c) ≠ (f B).bind fun a => (g B).map fun c => a - c

open Classical in
/-- Whether a comparison holds.  An equality test of quantities whose difference depends on the
addresses reads them as unequal. -/
noncomputable def RelOp.truth (op : RelOp) (f g : Addresses → Option ℤ) (a c : ℤ) : Bool :=
  if (op = .eq ∨ op = .ne) ∧ Moving f g then op.holds 1 0 else op.holds a c

/-- The value of an expression under addresses. -/
noncomputable def exprValue (laxDiv : Bool) : Expr → Addresses → Option ℤ
  | .leaf v, A => some (v.at A)
  | .unary u e, A => (exprValue laxDiv e A).map u.value
  | .paren e, A => exprValue laxDiv e A
  | .binary o l r, A =>
    (exprValue laxDiv l A).bind fun a => (exprValue laxDiv r A).bind fun c =>
      match o with
      | .mul op => op.value laxDiv a c
      | .bit op => some (op.value a c)
      | .add sub => some (if sub then a - c else a + c)
      | .rel op => some (if op.truth (exprValue laxDiv l) (exprValue laxDiv r) a c then -1 else 0)
      | .logand => some (ofBool (a != 0 && c != 0))
      | .logor => some (ofBool (a != 0 || c != 0))

end Badc.Asm
