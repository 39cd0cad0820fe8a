import Badc.Lib.Align
import Badc.Ir.Inst

/-!
# Linker script expressions

Expressions of a linker script are evaluated in 64-bit arithmetic, with a note of what a value is
relative to.  What an expression reads besides its own numbers (the location counter, symbols,
output sections) is a `Scope`; diagnostics are collected and only arise on the final pass.
-/

namespace Badc.Script

inductive UnOp
  | neg
  | not
  | bitNot
  deriving DecidableEq

inductive BinOp
  | add | sub | mul | div | rem | shl | shr
  | eq | ne | lt | le | gt | ge
  | bitAnd | bitOr | bitXor | logAnd | logOr
  deriving DecidableEq

/-- An expression; the symbol `.` is the location counter. -/
inductive Expr
  | number (n : Word)
  | symbol (name : String)
  | unary (op : UnOp) (a : Expr)
  | binary (op : BinOp) (a b : Expr)
  | ternary (c t f : Expr)
  | alignDot (a : Expr)
  | align2 (v a : Expr)
  | absolute (a : Expr)
  | addr (name : String)
  | loadaddr (name : String)
  | sizeof (name : String)
  | alignof (name : String)
  | sizeofHeaders
  | defined (name : String)
  | min (a b : Expr)
  | max (a b : Expr)
  | assert (a : Expr) (msg : String)
  deriving DecidableEq

/-- What a value is relative to.  An address taken from the location counter outside any output
section is absolute, but picks up a section of the symbol table. -/
inductive Att
  | abs
  | dotAbs
  | out (oi : ℕ)
  deriving DecidableEq

/-- A value and what it is relative to. -/
structure Val where
  v : Word
  att : Att
  deriving DecidableEq

/-- A number. -/
def Val.abs (v : Word) : Val := ⟨v, .abs⟩

/-- The value an expression that names the symbol sees. -/
def Val.asReference (x : Val) : Val :=
  match x.att with
  | .dotAbs => Val.abs x.v
  | _ => x

/-- A truth value. -/
def ofBool (b : Bool) : Word := if b then 1 else 0

/-- The operators on one operand. -/
def UnOp.apply : UnOp → Word → Word
  | .neg, a => -a
  | .not, a => ofBool (a == 0)
  | .bitNot, a => ~~~a

/-- The amount of a shift, of which 32 bits are taken and then the low six. -/
def shiftAmount (b : Word) : ℕ := b.toNat % 2 ^ 32 % 64

/-- The operators on two operands.  Division and remainder are signed, and give zero for a divisor of
zero. -/
def BinOp.apply : BinOp → Word → Word → Word
  | .add, a, b => a + b
  | .sub, a, b => a - b
  | .mul, a, b => a * b
  | .div, a, b => if b = 0 then 0 else a.sdiv b
  | .rem, a, b => if b = 0 then 0 else a.srem b
  | .shl, a, b => a <<< shiftAmount b
  | .shr, a, b => a >>> shiftAmount b
  | .eq, a, b => ofBool (a == b)
  | .ne, a, b => ofBool (a != b)
  | .lt, a, b => ofBool (a < b)
  | .le, a, b => ofBool (a ≤ b)
  | .gt, a, b => ofBool (b < a)
  | .ge, a, b => ofBool (b ≤ a)
  | .bitAnd, a, b => a &&& b
  | .bitOr, a, b => a ||| b
  | .bitXor, a, b => a ^^^ b
  | .logAnd, a, b => ofBool (a != 0 && b != 0)
  | .logOr, a, b => ofBool (a != 0 || b != 0)

/-- What the result of an operator is relative to: a section or the location counter moved by a
number stays so, and any other combination is a number. -/
def BinOp.att : BinOp → Att → Att → Att
  | .add, .out s, .abs => .out s
  | .add, .abs, .out s => .out s
  | .sub, .out s, .abs => .out s
  | .add, .dotAbs, .abs => .dotAbs
  | .add, .abs, .dotAbs => .dotAbs
  | .sub, .dotAbs, .abs => .dotAbs
  | _, _, _ => .abs

/-- What an expression reads. -/
structure Scope where
  dot : Word
  curOut : Option ℕ
  /-- The value of a name other than `.`. -/
  symbol : String → Option Val
  maxPageSize : Word
  commonPageSize : Word
  /-- The output section of a name, with its addresses, size and alignment. -/
  findOut : String → Option ℕ
  addr : ℕ → Word
  lma : ℕ → Word
  size : ℕ → Word
  align : ℕ → Word
  sizeofHeaders : Word
  defined : String → Bool
  finalPass : Bool

/-- What the location counter is relative to. -/
def Scope.dotAtt (sc : Scope) : Att :=
  match sc.curOut with
  | some o => .out o
  | none => .dotAbs

/-- The value of a name. -/
def Scope.lookup (sc : Scope) (name : String) : Option Val :=
  if name = "." then some ⟨sc.dot, sc.dotAtt⟩ else sc.symbol name

/-- Errors and undefined symbols an evaluation reports. -/
structure Diag where
  errors : List String
  undefined : List String
  deriving DecidableEq

/-- Nothing to report. -/
def Diag.none : Diag := ⟨[], []⟩

/-- Reports one after the other. -/
def Diag.and (d d' : Diag) : Diag := ⟨d.errors ++ d'.errors, d.undefined ++ d'.undefined⟩

/-- An error, on the final pass. -/
def Scope.error (sc : Scope) (text : String) : Diag := if sc.finalPass then ⟨[text], []⟩ else .none

/-- An undefined symbol, on the final pass. -/
def Scope.undef (sc : Scope) (name : String) : Diag := if sc.finalPass then ⟨[], [name]⟩ else .none

/-- Round a word up. -/
def alignWord (v a : Word) : Word := BitVec.ofNat 64 (alignUp v.toNat a.toNat)

/-- The value of an expression, and what its evaluation reports. -/
def evalInner (sc : Scope) : Expr → Val × Diag
  | .number n => (.abs n, .none)
  | .symbol name =>
    match sc.lookup name with
    | some v => (v, .none)
    | none =>
      if name = "MAXPAGESIZE" then (.abs sc.maxPageSize, .none)
      else if name = "COMMONPAGESIZE" then (.abs sc.commonPageSize, .none)
      else (.abs 0, sc.undef name)
  | .unary op a =>
    let (a, d) := evalInner sc a
    (.abs (op.apply a.v), d)
  | .binary op a b =>
    let (a, d) := evalInner sc a
    let (b, d') := evalInner sc b
    let zero := if op = .div ∧ b.v = 0 then sc.error "division by zero in script" else .none
    (⟨op.apply a.v b.v, op.att a.att b.att⟩, (d.and d').and zero)
  | .ternary c t f =>
    let (c, d) := evalInner sc c
    let (r, d') := if c.v ≠ 0 then evalInner sc t else evalInner sc f
    (r, d.and d')
  | .alignDot a =>
    let (a, d) := evalInner sc a
    (⟨alignWord sc.dot a.v, sc.dotAtt⟩, d)
  | .align2 v a =>
    let (v, d) := evalInner sc v
    let (a, d') := evalInner sc a
    (⟨alignWord v.v a.v, v.att⟩, d.and d')
  | .absolute a =>
    let (a, d) := evalInner sc a
    (.abs a.v, d)
  | .addr name =>
    match sc.findOut name with
    | some oi => (⟨sc.addr oi, .out oi⟩, .none)
    | none => (.abs 0, sc.error ("ADDR(" ++ name ++ "): no such output section"))
  | .loadaddr name =>
    match sc.findOut name with
    | some oi => (.abs (sc.lma oi), .none)
    | none => (.abs 0, sc.error ("LOADADDR(" ++ name ++ "): no such output section"))
  | .sizeof name => (.abs (((sc.findOut name).map sc.size).getD 0), .none)
  | .alignof name => (.abs (((sc.findOut name).map sc.align).getD 0), .none)
  | .sizeofHeaders => (.abs sc.sizeofHeaders, .none)
  | .defined name => (.abs (ofBool (sc.defined name)), .none)
  | .min a b =>
    let (a, d) := evalInner sc a
    let (b, d') := evalInner sc b
    (.abs (if b.v < a.v then b.v else a.v), d.and d')
  | .max a b =>
    let (a, d) := evalInner sc a
    let (b, d') := evalInner sc b
    (.abs (if b.v < a.v then a.v else b.v), d.and d')
  | .assert a msg =>
    let (a, d) := evalInner sc a
    (a, d.and (if a.v = 0 then sc.error ("assertion failed: " ++ msg) else .none))

/-- The symbols an expression names. -/
def collectSymbols : Expr → List String
  | .symbol n => [n]
  | .unary _ a | .alignDot a | .absolute a | .assert a _ => collectSymbols a
  | .binary _ a b | .align2 a b | .min a b | .max a b => collectSymbols a ++ collectSymbols b
  | .ternary a b c => collectSymbols a ++ collectSymbols b ++ collectSymbols c
  | _ => []

/-! ## Assignments -/

inductive AssignOp
  | set | add | sub | mul | div | shl | shr | and | or
  deriving DecidableEq

/-- An assignment; the symbol `.` moves the location counter. -/
structure Assignment where
  symbol : String
  op : AssignOp
  value : Expr
  provide : Bool
  hidden : Bool
  deriving DecidableEq

/-- The value an assignment operator gives. -/
def applyAssignOp (base : Word) : AssignOp → Word → Word
  | .set, v => v
  | .add, v => base + v
  | .sub, v => base - v
  | .mul, v => base * v
  | .div, v => if v = 0 then 0 else base.sdiv v
  | .shl, v => base <<< shiftAmount v
  | .shr, v => base >>> shiftAmount v
  | .and, v => base &&& v
  | .or, v => base ||| v

section

-- The equations are made here, once for all the lemmas that unfold these.
attribute [local simp] evalInner

end

end Badc.Script
