import Badc.Ir.Inst

/-!
# Operator semantics

The integer operators on two 64-bit words, as `eval_int_binop` (`src/c5/ir.rs`) and
`apply_binop` (`src/c5/vm/eval.rs`) compute them for the interpreter and the constant folders,
the fold gate `foldBinop` over them, and the two readings of a 32-bit form that
`src/c5/codegen/passes/narrow.rs` gives a marked comparison (`foldAtWidth`) and a marked
division (`foldDiv32`).  The floating-point arms of `apply_binop` are no integer operators and
have no value here.
-/

namespace Badc

/-- The word of a truth value. -/
def boolWord (b : Bool) : Word := if b then 1 else 0

/-- `x as i32 as i64`: the low word, sign-extended. -/
def sext32 (x : Word) : Word := (x.setWidth 32).signExtend 64

/-- `x as u32 as i64`: the low word, zero-extended. -/
def zext32 (x : Word) : Word := (x.setWidth 32).setWidth 64

/-- The integer operators on two known operands; `none` for a zero divisor and for the
floating-point operators.  Arithmetic wraps, a shift takes its count modulo 64. -/
def applyBinop (op : BinOp) (lhs rhs : Word) : Option Word :=
  match op with
  | .add => some (lhs + rhs)
  | .sub => some (lhs - rhs)
  | .mul => some (lhs * rhs)
  | .and => some (lhs &&& rhs)
  | .or => some (lhs ||| rhs)
  | .xor => some (lhs ^^^ rhs)
  | .shl => some (lhs <<< (rhs.toNat % 64))
  | .shr => some (lhs.sshiftRight (rhs.toNat % 64))
  | .shru => some (lhs >>> (rhs.toNat % 64))
  | .eq => some (boolWord (lhs = rhs))
  | .ne => some (boolWord (lhs ≠ rhs))
  | .lt => some (boolWord (lhs.toInt < rhs.toInt))
  | .gt => some (boolWord (rhs.toInt < lhs.toInt))
  | .le => some (boolWord (lhs.toInt ≤ rhs.toInt))
  | .ge => some (boolWord (rhs.toInt ≤ lhs.toInt))
  | .ult => some (boolWord (lhs.toNat < rhs.toNat))
  | .ugt => some (boolWord (rhs.toNat < lhs.toNat))
  | .ule => some (boolWord (lhs.toNat ≤ rhs.toNat))
  | .uge => some (boolWord (rhs.toNat ≤ lhs.toNat))
  | .div => if rhs = 0 then none else some (lhs.sdiv rhs)
  | .mod => if rhs = 0 then none else some (lhs.srem rhs)
  | .divu => if rhs = 0 then none else some (lhs / rhs)
  | .modu => if rhs = 0 then none else some (lhs % rhs)
  | .mulh => some (BitVec.ofInt 64 (lhs.toInt * rhs.toInt / 2 ^ 64))
  | .mulhu => some (BitVec.ofNat 64 (lhs.toNat * rhs.toNat / 2 ^ 64))
  | .ror => some (lhs.rotateRight (rhs.toNat % 64))
  | .fadd | .fsub | .fmul | .fmulContractible | .fdiv | .feq | .fne | .flt | .fgt | .fle | .fge
  | .fone | .funo => none

/-- `i64::MIN`. -/
def wordMin : Word := BitVec.intMin 64

/-- Compile-time fold gate over `applyBinop`: it refuses out-of-range shift counts, the
floating-point operators, `i64::MIN / -1` and a zero divisor. -/
def foldBinop (op : BinOp) (lhs rhs : Word) : Option Word :=
  if (op = .shl ∨ op = .shr ∨ op = .shru) ∧ ¬ (0 ≤ rhs.toInt ∧ rhs.toInt < 64) then none
  else if isFpOp op then none
  else if (op = .div ∨ op = .mod) ∧ lhs = wordMin ∧ rhs = -1 then none
  else applyBinop op lhs rhs

lemma applyBinop_of_foldBinop {op : BinOp} {x y z : Word} (h : foldBinop op x y = some z) :
    isFpOp op = false ∧ applyBinop op x y = some z := by
  unfold foldBinop at h
  obtain ⟨-, h⟩ := Option.ite_none_left_eq_some.mp h
  obtain ⟨hfp, h⟩ := Option.ite_none_left_eq_some.mp h
  obtain ⟨-, h⟩ := Option.ite_none_left_eq_some.mp h
  exact ⟨by simpa using hfp, h⟩

/-- The operators that read their operands unsigned. -/
def isUnsignedCmp : BinOp → Bool
  | .ult | .ugt | .ule | .uge => true
  | _ => false

/-- `fold_binop` on the low words, under the operator's sign, when `narrow`. -/
def foldAtWidth (op : BinOp) (lhs rhs : Word) (narrow : Bool) : Option Word :=
  let low := fun x : Word =>
    if !narrow then x else if isUnsignedCmp op then zext32 x else sext32 x
  foldBinop op (low lhs) (low rhs)

/-- `fold_binop` of a division or remainder in the 32-bit form: the low words under the
operator's sign, and the result zero-extended. -/
def foldDiv32 (op : BinOp) (lhs rhs : Word) : Option Word :=
  let low := fun x : Word => if op = .divu ∨ op = .modu then zext32 x else sext32 x
  (foldBinop op (low lhs) (low rhs)).map zext32

/-- `Inst::Udiv128`; `none` where the quotient passes 64 bits. -/
def udiv128 (hi lo divisor : Word) : Option Word :=
  if hi.toNat < divisor.toNat then
    some (BitVec.ofNat 64 ((hi.toNat * 2 ^ 64 + lo.toNat) / divisor.toNat))
  else none

/-- `Inst::Extend`: discard the bits above the kind's width and replicate the sign bit. -/
def evalExtend (raw : Word) : ExtendKind → Word
  | .i8 => (raw.setWidth 8).signExtend 64
  | .i16 => (raw.setWidth 16).signExtend 64
  | .i32 => sext32 raw

/-- Reverse the low `n` bytes of a word and zero-extend them. -/
def revBytes (raw : Word) (n : ℕ) : Word :=
  (List.range n).foldl
    (fun acc i => acc <<< 8 ||| ((raw >>> (8 * i)).setWidth 8).setWidth 64) 0

/-- `Inst::Bswap`: reverse the low `width` bytes (2, 4, or 8) and zero-extend. -/
def evalBswap (raw : Word) (width : ℕ) : Word :=
  match width with
  | 2 => revBytes raw 2
  | 4 => revBytes raw 4
  | _ => revBytes raw 8

/-- Number of zeros above the highest set bit of `x` among its low `w` bits. -/
def leadingZeros (x : ℕ) (w : ℕ) : ℕ := w - x.size

/-- Number of zeros below the lowest set bit of `x` among its low `w` bits. -/
def trailingZeros (x : ℕ) (w : ℕ) : ℕ :=
  ((List.range w).find? fun i => x.testBit i).getD w

/-- Number of set bits of `x` among its low `w` bits. -/
def countOnes (x : ℕ) (w : ℕ) : ℕ := (List.range w).countP fun i => x.testBit i

/-- `Inst::BitCount`: count over the low `width` bytes. -/
def evalBitCount (op : BitCountOp) (raw : Word) (width : CountWidth) : Word :=
  let w := 8 * width.bytes
  let x := raw.toNat % 2 ^ w
  BitVec.ofNat 64 <| match op with
    | .clz => leadingZeros x w
    | .ctz => trailingZeros x w
    | .popcount => countOnes x w
    | .clrsb => leadingZeros ((x ^^^ (2 * x % 2 ^ w)) ||| 1) w

/-- `Inst::BitField`'s value: the bits of the span, sign- or zero-extended. -/
def evalBitField (x : Word) (span : FieldSpan) (signed : Bool) : Word :=
  let left := x <<< (64 - span.lsb - span.width)
  if signed then left.sshiftRight (64 - span.width) else left >>> (64 - span.width)

/-- What a load of an integer kind leaves in the register for the low bytes of `raw`; the
other kinds pass through. -/
def extendLoad (raw : Word) : LoadKind → Word
  | .u8 => (raw.setWidth 8).setWidth 64
  | .i8 => (raw.setWidth 8).signExtend 64
  | .u16 => (raw.setWidth 16).setWidth 64
  | .i16 => (raw.setWidth 16).signExtend 64
  | .u32 => zext32 raw
  | .i32 => sext32 raw
  | .i64 | .f32 | .f64 | .f80 | .f128 | .v128 => raw

/-- Whether `v` is marked in a side table; a shorter table reads as all-false. -/
def isMarked (table : List Bool) (v : ℕ) : Bool := table.getD v false

/-- Whether `v` is a comparison marked for the 32-bit operand form. -/
def isCmp32 (f : FunctionSsa) (v : ℕ) : Bool := isMarked f.cmp32 v

/-- Whether `v` is marked for the 32-bit division form. -/
def isDiv32 (f : FunctionSsa) (v : ℕ) : Bool := isMarked f.div32 v

/-- `is_div32` of a division or remainder, not of a slot rewritten since. -/
def isNarrowDiv (f : FunctionSsa) (v : ℕ) : Bool :=
  match f.insts[v]? with
  | some (.binop op _ _) | some (.binopI op _ _) => isDivmodOp op && isDiv32 f v
  | _ => false

end Badc
