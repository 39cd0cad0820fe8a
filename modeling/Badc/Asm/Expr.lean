import Mathlib.Tactic

/-!
# Assembler expressions

The expressions of an assembler statement are evaluated while they are read: six levels of left
associative operators over leaves that a resolver values.  A value is a constant plus at most one
added and one subtracted location; two locations of one space are a constant apart.

Texts are byte strings, and a cursor into one is the part still to read.
-/

namespace Badc.Asm

/-- The UTF-8 bytes of a string. -/
abbrev Text := List UInt8

/-- The bytes of a string literal. -/
def text (s : String) : Text := s.toUTF8.data.toList

/-- The byte of an ASCII character. -/
def byte (c : Char) : UInt8 := UInt8.ofNat c.toNat

def isDigit (b : UInt8) : Bool := byte '0' ≤ b && b ≤ byte '9'

def isAlpha (b : UInt8) : Bool :=
  (byte 'a' ≤ b && b ≤ byte 'z') || (byte 'A' ≤ b && b ≤ byte 'Z')

/-- The bytes of an identifier. -/
def isIdent (b : UInt8) : Bool :=
  isDigit b || isAlpha b || b == byte '_' || b == byte '.' || b == byte '$'

def isWhitespace (b : UInt8) : Bool := b == 32 || b == 9 || b == 10 || b == 12 || b == 13

/-- A text may be cut before `r`: no character starts further left and ends further right. -/
def isCharBoundary : Text → Bool
  | [] => true
  | b :: _ => b.toNat / 64 != 2

/-! ## Names of labels -/

def isNumericLabel (name : Text) : Bool := !name.isEmpty && name.all isDigit

/-- The digits of a reference to a numeric label, without the letter that gives its direction. -/
def numericLabelDigits (name : Text) : Option Text :=
  let digits :=
    match name.getLast? with
    | some c => if c == byte 'b' || c == byte 'f' then name.dropLast else name
    | none => name
  if isNumericLabel digits then some digits else none

/-- The name under which a reference is looked up among the labels. -/
def labelKey (name : Text) : Text := (numericLabelDigits name).getD name

/-! ## Values -/

/-- What identifies a section: its name, flags, type and group. -/
structure SectionKey where
  name : Text
  flags : Text
  shType : Option Text
  group : Option (Text × Bool)
  deriving DecidableEq

inductive AsmSpace
  | text
  | deferred (region : ℕ)
  | section (key : SectionKey)
  | frag (run : ℕ)
  deriving DecidableEq

inductive AsmSectionTarget
  | text (off : ℕ)
  | symbol (name : Text)
  | expr (text : Text)
  | data (off : ℕ)
  | textBlock (block : ℕ)
  | deferredText (region off : ℕ)
  | ownSection (off : ℕ)
  | sectionStart (key : SectionKey)
  deriving DecidableEq

/-- A symbolic term: where it lies, if this unit lays it out, and what a field that names it is
relocated against. -/
structure AsmExprTerm where
  space : Option (AsmSpace × ℤ)
  target : AsmSectionTarget
  deriving DecidableEq

/-- A constant plus at most one added and one subtracted term. -/
structure AsmExprValue where
  add : ℤ
  pos : Option AsmExprTerm
  neg : Option AsmExprTerm
  deriving DecidableEq

inductive AsmExprLeaf
  | abs (v : ℤ)
  | loc (t : AsmExprTerm)
  deriving DecidableEq

/-- Why an expression has no value. -/
inductive AsmExprError
  | junk (rest : Text)
  | notAbsolute (op : String)
  | overflow
  | twoSymbols
  | divisionByZero
  | shiftCount (c : ℤ)
  | missingParen
  | badOperandReference
  | operandNotConstant (idx : ℕ)
  | expressionExpected (rest : Text)
  | noLocationCounter
  | badLiteral (tok : Text)
  | subtractsOutsideField
  | crossesSections
  | subtractsUndefined
  | subtractsFromConstant
  deriving DecidableEq

/-- How an evaluation ends without a value: it reports an error, or it aborts the assembler.
Rounds that no byte of the text pays for do not arise. -/
inductive Fault
  | err (e : AsmExprError)
  | panic
  | exhausted
  deriving DecidableEq

abbrev Result := Except Fault

/-- What values the leaves of an expression. -/
structure AsmExprCtx where
  resolve : Text → Option AsmExprLeaf
  constOf : ℕ → Option ℤ
  laxDiv : Bool

/-- The numbers of a signed 64-bit word. -/
def inI64 (v : ℤ) : Bool := -2 ^ 63 ≤ v && v < 2 ^ 63

/-- A checked operation reports what does not fit. -/
def checkedI64 (v : ℤ) : Result ℤ := if inI64 v then .ok v else .error (.err .overflow)

/-- An unchecked operation aborts on what does not fit. -/
def plainI64 (v : ℤ) : Result ℤ := if inI64 v then .ok v else .error .panic

lemma plainI64_eq_ok {a c : ℤ} (h : plainI64 a = .ok c) : c = a := by
  unfold plainI64 at h
  split at h
  · exact (Except.ok.inj h).symm
  · cases h

lemma checkedI64_eq_ok {a c : ℤ} (h : checkedI64 a = .ok c) : c = a := by
  unfold checkedI64 at h
  split at h
  · exact (Except.ok.inj h).symm
  · cases h

/-- The 64-bit word of a number. -/
def toWord (v : ℤ) : BitVec 64 := BitVec.ofInt 64 v

namespace AsmExprValue

def abs (v : ℤ) : AsmExprValue := ⟨v, none, none⟩

def fromTerm (t : AsmExprTerm) : AsmExprValue := ⟨0, some t, none⟩

def toAbs (v : AsmExprValue) : Option ℤ :=
  if v.pos.isNone && v.neg.isNone then some v.add else none

/-- The symbol a value names when it is a single term with nothing subtracted. -/
def loneSymbol (v : AsmExprValue) : Option Text :=
  match v.pos, v.neg with
  | some t, none =>
    match t.target with
    | .symbol n => some n
    | _ => none
  | _, _ => none

end AsmExprValue

/-- The constant distance from `n` to `p`, if there is one. -/
def termDistance (p n : AsmExprTerm) : Option ℤ :=
  match p.space, n.space with
  | some (ps, po), some (ns, no) => if ps = ns then some (po - no) else none
  | none, none => if p.target = n.target then some 0 else none
  | _, _ => none

/-- Put a term into a place that holds at most one. -/
def placeTerm : Option AsmExprTerm → Option AsmExprTerm → Result (Option AsmExprTerm)
  | slot, none => .ok slot
  | none, some t => .ok (some t)
  | some _, some _ => .error (.err .twoSymbols)

/-- `v + rhs`, or `v - rhs`, where an added and a subtracted location of one space cancel. -/
def AsmExprValue.combine (v rhs : AsmExprValue) (sub : Bool) : Result AsmExprValue := do
  let (rpos, rneg) := if sub then (rhs.neg, rhs.pos) else (rhs.pos, rhs.neg)
  let radd ← if sub then checkedI64 (-rhs.add) else pure rhs.add
  let add ← checkedI64 (v.add + radd)
  let pos ← placeTerm v.pos rpos
  let neg ← placeTerm v.neg rneg
  match pos, neg with
  | some p, some n =>
    match termDistance p n with
    | some delta =>
      let delta ← plainI64 delta
      let add ← plainI64 (add + delta)
      pure ⟨add, none, none⟩
    | none => pure ⟨add, pos, neg⟩
  | _, _ => pure ⟨add, pos, neg⟩

/-- What an evaluated expression deposits. -/
inductive AsmResolved
  | abs (v : ℤ)
  | reloc (target : AsmSectionTarget) (addend : ℤ) (pcrel : Bool)
  deriving DecidableEq

/-- Resolve a value at the place where it is deposited. -/
def resolveAsmValue (v : AsmExprValue) (deposit : Option (AsmSpace × ℤ)) : Result AsmResolved :=
  match v.pos, v.neg with
  | none, none => .ok (.abs v.add)
  | some p, none => .ok (.reloc p.target v.add false)
  | some p, some n =>
    match deposit with
    | none => .error (.err .subtractsOutsideField)
    | some (dspace, doff) =>
      match n.space with
      | some (ns, no) =>
        if ns = dspace then do
          let d ← plainI64 (doff - no)
          let addend ← plainI64 (v.add + d)
          pure (.reloc p.target addend true)
        else .error (.err .crossesSections)
      | none => .error (.err .subtractsUndefined)
  | none, some _ => .error (.err .subtractsFromConstant)

/-! ## Literals -/

/-- The value of a digit in a radix up to sixteen. -/
def toDigit (b : UInt8) (radix : ℕ) : Option ℕ :=
  let d :=
    if isDigit b then b.toNat - 48
    else if byte 'a' ≤ b && b ≤ byte 'f' then b.toNat - 87
    else if byte 'A' ≤ b && b ≤ byte 'F' then b.toNat - 55
    else 16
  if d < radix then some d else none

/-- The number of a digit string, if every byte is a digit. -/
def digitsValue (radix : ℕ) : ℕ → Text → Option ℕ
  | acc, [] => some acc
  | acc, b :: r =>
    match toDigit b radix with
    | some d => digitsValue radix (acc * radix + d) r
    | none => none

/-- The text without the suffix letters of an integer literal. -/
def trimSuffix (t : Text) : Text :=
  (t.reverse.dropWhile fun c =>
    c == byte 'u' || c == byte 'U' || c == byte 'l' || c == byte 'L').reverse

/-- The radix of a literal and its digits. -/
def literalRadix : Text → ℕ × Text
  | a :: b :: r =>
    if a == byte '0' && (b == byte 'x' || b == byte 'X') then (16, r)
    else if a == byte '0' && (b == byte 'b' || b == byte 'B') then (2, r)
    else if a == byte '0' then (8, b :: r)
    else (10, a :: b :: r)
  | t => (10, t)

/-- An integer literal, read as an unsigned 64-bit number and taken as a signed one. -/
def parseAsmNumber (t : Text) : Option ℤ :=
  let (radix, digits) := literalRadix (trimSuffix t)
  if digits.isEmpty then none
  else
    match digitsValue radix 0 digits with
    | some v => if v < 2 ^ 64 then some (BitVec.ofNat 64 v).toInt else none
    | none => none

/-- The hexadecimal digits of an escape: the low byte of their number, and what follows. -/
def hexEscape : ℕ → Text → ℕ × Text
  | acc, [] => (acc, [])
  | acc, b :: r =>
    match toDigit b 16 with
    | some d => hexEscape ((acc * 16 + d) % 256) r
    | none => (acc, b :: r)

def isOctal (b : UInt8) : Bool := byte '0' ≤ b && b ≤ byte '7'

/-- Up to `n` further octal digits of an escape. -/
def octalEscape : ℕ → ℕ → Text → ℕ × Text
  | n + 1, acc, b :: r =>
    if isOctal b then octalEscape n (acc * 8 + (b.toNat - 48)) r else (acc, b :: r)
  | _, acc, r => (acc, r)

/-- An escape sequence after its backslash. -/
def charEscape : Text → Option (ℕ × Text)
  | [] => none
  | e :: r =>
    if e == byte 'n' then some (10, r)
    else if e == byte 't' then some (9, r)
    else if e == byte 'r' then some (13, r)
    else if e == byte 'b' then some (8, r)
    else if e == byte 'f' then some (12, r)
    else if e == byte 'v' then some (11, r)
    else if e == byte 'a' then some (7, r)
    else if e == byte 'e' then some (27, r)
    else if e == byte 'x' || e == byte 'X' then
      let (v, r') := hexEscape 0 r
      if r'.length = r.length then none else some (v, r')
    else if isOctal e then
      let (v, r') := octalEscape 2 (e.toNat - 48) r
      some (v % 256, r')
    else some (e.toNat, r)

/-- A character constant, whose closing quote may be missing. -/
def parseAsmCharConst : Text → Option (ℤ × Text)
  | q :: c :: r =>
    if q == byte '\'' then
      match if c == byte '\\' then charEscape r else some (c.toNat, r) with
      | some (v, q' :: r') => some (v, if q' == byte '\'' then r' else q' :: r')
      | some (v, []) => some (v, [])
      | none => none
    else none
  | _ => none

/-! ## The levels -/

/-- What reading a part of an expression gives: its value and what follows it. -/
abbrev Reader := Text → Result (AsmExprValue × Text)

def skipWs (r : Text) : Text := r.dropWhile isWhitespace

/-- Require an absolute operand. -/
def valAbs (v : AsmExprValue) (op : String) : Result ℤ :=
  match v.toAbs with
  | some a => .ok a
  | none => .error (.err (.notAbsolute op))

/-- The rounds of a level of left associative operators: `operator` reads an operator, `operand`
its right side, and `apply` computes. -/
def leftAssoc {ω : Type} (operand : Reader) (operator : Text → Option (ω × Text))
    (apply : ω → AsmExprValue → AsmExprValue → Result AsmExprValue) :
    ℕ → AsmExprValue → Text → Result (AsmExprValue × Text)
  | 0, _, _ => .error .exhausted
  | n + 1, v, r =>
    match operator (skipWs r) with
    | none => .ok (v, skipWs r)
    | some (op, r') => do
      let (rhs, r'') ← operand r'
      let v ← apply op v rhs
      leftAssoc operand operator apply n v r''

/-- A level: a first operand and the operators that follow it. -/
def level {ω : Type} (operand : Reader) (operator : Text → Option (ω × Text))
    (apply : ω → AsmExprValue → AsmExprValue → Result AsmExprValue) : Reader := fun r => do
  let (v, r') ← operand r
  leftAssoc operand operator apply (r'.length + 1) v r'

def ofBool (b : Bool) : ℤ := if b then 1 else 0

/-- `* / % << >>`. -/
inductive MulOp
  | mul | div | rem | shl | shr
  deriving DecidableEq

def mulOperator : Text → Option (MulOp × Text)
  | a :: r =>
    if a == byte '*' then some (.mul, r)
    else if a == byte '/' then some (.div, r)
    else if a == byte '%' then some (.rem, r)
    else
      match r with
      | b :: r' =>
        if a == byte '<' && b == byte '<' then some (.shl, r')
        else if a == byte '>' && b == byte '>' then some (.shr, r')
        else none
      | [] => none
  | [] => none

def mulApply (laxDiv : Bool) (op : MulOp) (v rhs : AsmExprValue) : Result AsmExprValue := do
  let a ← valAbs v "arithmetic op"
  let c ← valAbs rhs "arithmetic op"
  match op with
  | .mul => return .abs (← checkedI64 (a * c))
  | .div | .rem =>
    if c = 0 then
      if laxDiv then return .abs 0 else throw (.err .divisionByZero)
    else if op = .div then return .abs (toWord (a.tdiv c)).toInt
    else return .abs (a.tmod c)
  | .shl | .shr =>
    if 0 ≤ c ∧ c < 64 then
      if op = .shl then return .abs (toWord a <<< c.toNat).toInt
      -- the 64-bit value is shifted, so the sign is not replicated
      else return .abs (toWord a >>> c.toNat).toInt
    else throw (.err (.shiftCount c))

/-- `| & ^`. -/
inductive BitOp
  | or | and | xor

def bitOperator : Text → Option (BitOp × Text)
  | a :: r =>
    if a == byte '|' && r.head? != some (byte '|') then some (.or, r)
    else if a == byte '&' && r.head? != some (byte '&') then some (.and, r)
    else if a == byte '^' then some (.xor, r)
    else none
  | [] => none

def bitApply (op : BitOp) (v rhs : AsmExprValue) : Result AsmExprValue := do
  let a ← valAbs v "bitwise op"
  let c ← valAbs rhs "bitwise op"
  return .abs
    (match op with
    | .or => (toWord a ||| toWord c).toInt
    | .and => (toWord a &&& toWord c).toInt
    | .xor => (toWord a ^^^ toWord c).toInt)

/-- `+` and `-`, where the sign says whether the right side is subtracted. -/
def addOperator : Text → Option (Bool × Text)
  | a :: r =>
    if a == byte '+' then some (false, r)
    else if a == byte '-' then some (true, r)
    else none
  | [] => none

inductive RelOp
  | eq | ne | le | ge | lt | gt
  deriving DecidableEq

def RelOp.holds : RelOp → ℤ → ℤ → Bool
  | .eq, a, c => a = c
  | .ne, a, c => a ≠ c
  | .le, a, c => a ≤ c
  | .ge, a, c => a ≥ c
  | .lt, a, c => a < c
  | .gt, a, c => a > c

def relOperator : Text → Option (RelOp × Text)
  | a :: b :: r =>
    if a == byte '=' && b == byte '=' then some (.eq, r)
    else if a == byte '!' && b == byte '=' then some (.ne, r)
    else if a == byte '<' && b == byte '>' then some (.ne, r)
    else if a == byte '<' && b == byte '=' then some (.le, r)
    else if a == byte '>' && b == byte '=' then some (.ge, r)
    else if a == byte '<' && b != byte '<' then some (.lt, b :: r)
    else if a == byte '>' && b != byte '>' then some (.gt, b :: r)
    else none
  | [a] =>
    if a == byte '<' then some (.lt, [])
    else if a == byte '>' then some (.gt, [])
    else none
  | [] => none

/-- A comparison yields -1 or 0.  An equality between undefined symbols reads them as unequal. -/
def relApply (op : RelOp) (v rhs : AsmExprValue) : Result AsmExprValue := do
  let d ← v.combine rhs true
  let undefined (t : Option AsmExprTerm) : Bool := t.all fun t => t.space.isNone
  let truth ←
    match d.toAbs with
    | some a => pure (op.holds a 0)
    | none =>
      if (op = .eq ∨ op = .ne) ∧ undefined d.pos ∧ undefined d.neg then pure (op.holds 1 0)
      else throw (.err (.notAbsolute "comparison"))
  return .abs (if truth then -1 else 0)

/-- A doubled letter, as `&&` and `||` are written. -/
def doubled (c : Char) : Text → Option (Unit × Text)
  | a :: b :: r => if a == byte c && b == byte c then some ((), r) else none
  | _ => none

/-- The right side of `&&` has to be absolute only where the left side is true. -/
def logandApply (_ : Unit) (v rhs : AsmExprValue) : Result AsmExprValue := do
  let a ← valAbs v "&&"
  if a = 0 then return .abs 0
  return .abs (ofBool ((← valAbs rhs "&&") != 0))

/-- The right side of `||` has to be absolute only where the left side is false. -/
def logorApply (_ : Unit) (v rhs : AsmExprValue) : Result AsmExprValue := do
  let a ← valAbs v "||"
  if a ≠ 0 then return .abs 1
  return .abs (ofBool ((← valAbs rhs "||") != 0))

/-- The value of a name: an unresolved one is an undefined symbol. -/
def leafOf (ctx : AsmExprCtx) (tok : Text) : AsmExprValue :=
  match ctx.resolve tok with
  | some (.abs v) => .abs v
  | some (.loc t) => .fromTerm t
  | none => .fromTerm ⟨none, .symbol tok⟩

/-- A literal, the location counter, a numeric label reference or an identifier. -/
def valLeaf (ctx : AsmExprCtx) : Reader := fun r =>
  let r := skipWs r
  match parseAsmCharConst r with
  | some (v, r') => .ok (.abs v, r')
  | none =>
    let tok := r.takeWhile isIdent
    let r' := r.dropWhile isIdent
    match tok with
    | [] =>
      -- the diagnostic shows the next twelve bytes
      if isCharBoundary r && isCharBoundary (r.drop 12) then
        .error (.err (.expressionExpected (r.take 12)))
      else .error .panic
    | c :: _ =>
      if tok = [byte '.'] then
        match ctx.resolve tok with
        | some _ => .ok (leafOf ctx tok, r')
        | none => .error (.err .noLocationCounter)
      else if isDigit c then
        match numericLabelDigits tok with
        | some digits =>
          if digits.length < tok.length &&
              !(tok.length > 2 && c == byte '0' &&
                (tok[1]? == some (byte 'b') || tok[1]? == some (byte 'B'))) then
            .ok (leafOf ctx tok, r')
          else
            match parseAsmNumber tok with
            | some v => .ok (.abs v, r')
            | none => .error (.err (.badLiteral tok))
        | none =>
          match parseAsmNumber tok with
          | some v => .ok (.abs v, r')
          | none => .error (.err (.badLiteral tok))
      else .ok (leafOf ctx tok, r')

/-- `%N`, `%cN` and `%PN` are an operand's constant; any other `%name` is a symbol. -/
def valOperand (ctx : AsmExprCtx) (r : Text) : Result (AsmExprValue × Text) :=
  let r' :=
    match r with
    | c :: r' => if c == byte 'c' || c == byte 'P' then r' else r
    | [] => r
  let digits := r'.takeWhile isDigit
  if digits.isEmpty then
    let name := r.takeWhile isIdent
    if name.isEmpty then .error (.err .badOperandReference)
    else .ok (.fromTerm ⟨none, .symbol (byte '%' :: name)⟩, r.dropWhile isIdent)
  else
    match digitsValue 10 0 digits with
    | some idx =>
      if idx < 256 then
        match ctx.constOf idx with
        | some v => .ok (.abs v, r'.dropWhile isDigit)
        | none => .error (.err (.operandNotConstant idx))
      else .error (.err .badOperandReference)
    | none => .error (.err .badOperandReference)

def valMul (ctx : AsmExprCtx) (unary : Reader) : Reader :=
  level unary mulOperator (mulApply ctx.laxDiv)

def valBitgroup (ctx : AsmExprCtx) (unary : Reader) : Reader :=
  level (valMul ctx unary) bitOperator bitApply

def valAdd (ctx : AsmExprCtx) (unary : Reader) : Reader :=
  level (valBitgroup ctx unary) addOperator fun sub v rhs => v.combine rhs sub

def valRelational (ctx : AsmExprCtx) (unary : Reader) : Reader :=
  level (valAdd ctx unary) relOperator relApply

def valLogand (ctx : AsmExprCtx) (unary : Reader) : Reader :=
  level (valRelational ctx unary) (doubled '&') logandApply

def valLogor (ctx : AsmExprCtx) (unary : Reader) : Reader :=
  level (valLogand ctx unary) (doubled '|') logorApply

/-- Signs, negations, parentheses, operands and leaves. -/
def valUnary (ctx : AsmExprCtx) : ℕ → Reader
  | 0, _ => .error .exhausted
  | n + 1, r =>
    match skipWs r with
    | [] => valLeaf ctx []
    | a :: r' =>
      if a == byte '-' then do
        let (v, r'') ← valUnary ctx n r'
        return (← (AsmExprValue.abs 0).combine v true, r'')
      else if a == byte '+' then valUnary ctx n r'
      else if a == byte '~' then do
        let (v, r'') ← valUnary ctx n r'
        return (.abs (-(← valAbs v "~") - 1), r'')
      -- `!=` in the place of an operand is the relational operator
      else if a == byte '!' && r'.head? != some (byte '=') then do
        let (v, r'') ← valUnary ctx n r'
        return (.abs (ofBool ((← valAbs v "!") == 0)), r'')
      else if a == byte '(' then do
        let (v, r'') ← valLogor ctx (valUnary ctx n) r'
        match skipWs r'' with
        | c :: r3 => if c == byte ')' then return (v, r3) else throw (.err .missingParen)
        | [] => throw (.err .missingParen)
      else if a == byte '%' then valOperand ctx r'
      else valLeaf ctx (a :: r')

/-- Evaluate a whole text. -/
def evalAsmValue (s : Text) (ctx : AsmExprCtx) : Result AsmExprValue := do
  let (v, r) ← valLogor ctx (valUnary ctx (s.length + 1)) s
  match skipWs r with
  | [] => return v
  | rest => if isCharBoundary rest then throw (.err (.junk rest)) else throw .panic

/-- The absolute value of an expression, if it has one. -/
def evalAbs (s : Text) (ctx : AsmExprCtx) : Option ℤ :=
  match evalAsmValue s ctx with
  | .ok v => v.toAbs
  | .error _ => none

/-- A constant expression, whose leaves are literals and operand constants. -/
def evalConstExprOps (s : Text) (constOf : ℕ → Option ℤ) : Option ℤ :=
  evalAbs s ⟨fun _ => none, constOf, false⟩

/-- An expression whose names `resolve` values. -/
def evalAsmExprWithLabels (s : Text) (resolve : Text → Option ℤ) : Option ℤ :=
  evalAbs s ⟨fun t => (resolve t).map .abs, fun _ => none, false⟩

-- the grouping of the levels, and the short-cut of the logical operators
example : evalConstExprOps (text "-(((7-2)-(3-1)) > 0) * (1<<3|2)") (fun _ => none) = some 10 := by
  decide +kernel
example : evalConstExprOps (text "0x1F == 31 || foo") (fun _ => none) = some 1 := by
  decide +kernel
example : evalConstExprOps (text "775f-774f") (fun _ => none) = none := by decide +kernel

end Badc.Asm
