import Badc.Linker.LayoutSpec

/-!
# What a script expression evaluates to

Division and remainder in a script are the signed ones of the implementation language, which panic
where the quotient does not fit; every other operator wraps.  `Link.evalInner?` is the evaluation with
its state and its panics, and the evaluation the layout uses is what it gives where it does not panic.
The meaning of an expression is an integer (`value`): sums, differences and products are those of the
integers, and an operator that looks at a sign or at the order takes its operands modulo `2 ^ 64`.
-/

namespace Badc.Script

/-! ## Operators that panic -/

/-- The signed division of two words, which panics on a divisor of zero and on the one quotient that
does not fit. -/
def signedDiv? (a b : Word) : Option Word :=
  if b = 0 ∨ a = BitVec.intMin 64 ∧ b = -1 then none else some (a.sdiv b)

/-- The remainder of the signed division, which panics where the division does. -/
def signedRem? (a b : Word) : Option Word :=
  if b = 0 ∨ a = BitVec.intMin 64 ∧ b = -1 then none else some (a.srem b)

/-- The operators on two operands. -/
def BinOp.apply? (op : BinOp) (a b : Word) : Option Word :=
  match op with
  | .div => if b = 0 then some 0 else signedDiv? a b
  | .rem => if b = 0 then some 0 else signedRem? a b
  | op => some (op.apply a b)

/-- The value an assignment operator gives. -/
def applyAssignOp? (base : Word) (op : AssignOp) (v : Word) : Option Word :=
  match op with
  | .div => if v = 0 then some 0 else signedDiv? base v
  | op => some (applyAssignOp base op v)

/-- The operator on two operands that an assignment operator stands for. -/
def AssignOp.binOp : AssignOp → Option BinOp
  | .set => none
  | .add => some .add
  | .sub => some .sub
  | .mul => some .mul
  | .div => some .div
  | .shl => some .shl
  | .shr => some .shr
  | .and => some .bitAnd
  | .or => some .bitOr

/-! ## Integers modulo the word size -/

/-- The unsigned reading of an integer modulo `2 ^ 64`. -/
def unsigned (x : ℤ) : ℕ := (x % 2 ^ 64).toNat

/-- The signed reading of an integer modulo `2 ^ 64`. -/
def signed (x : ℤ) : ℤ := x.bmod (2 ^ 64)

/-- A truth value. -/
def truth (p : Prop) [Decidable p] : ℤ := if p then 1 else 0

/-- An operator on one operand. -/
def UnOp.meaning : UnOp → ℤ → ℤ
  | .neg, x => -x
  | .not, x => truth (unsigned x = 0)
  | .bitNot, x => -x - 1

/-- An operator on two operands.  A shift takes its amount modulo 64. -/
def BinOp.meaning : BinOp → ℤ → ℤ → ℤ
  | .add, x, y => x + y
  | .sub, x, y => x - y
  | .mul, x, y => x * y
  | .div, x, y => (signed x).tdiv (signed y)
  | .rem, x, y => if signed y = 0 then 0 else (signed x).tmod (signed y)
  | .shl, x, y => x * 2 ^ (unsigned y % 64)
  | .shr, x, y => unsigned x / 2 ^ (unsigned y % 64)
  | .eq, x, y => truth (unsigned x = unsigned y)
  | .ne, x, y => truth (unsigned x ≠ unsigned y)
  | .lt, x, y => truth (unsigned x < unsigned y)
  | .le, x, y => truth (unsigned x ≤ unsigned y)
  | .gt, x, y => truth (unsigned y < unsigned x)
  | .ge, x, y => truth (unsigned y ≤ unsigned x)
  | .bitAnd, x, y => (unsigned x &&& unsigned y : ℕ)
  | .bitOr, x, y => (unsigned x ||| unsigned y : ℕ)
  | .bitXor, x, y => (unsigned x ^^^ unsigned y : ℕ)
  | .logAnd, x, y => truth (unsigned x ≠ 0 ∧ unsigned y ≠ 0)
  | .logOr, x, y => truth (unsigned x ≠ 0 ∨ unsigned y ≠ 0)

/-- The least multiple of a power of two that is not below an integer.  Any other alignment asks for
what its mask leaves. -/
def aligned (x a : ℤ) : ℤ :=
  if ∃ k < 64, unsigned a = 2 ^ k then (x + (unsigned a - 1)) / unsigned a * unsigned a
  else alignUp (unsigned x) (unsigned a)

/-- The meaning of an expression: an integer, of which the evaluation keeps the residue modulo
`2 ^ 64`. -/
def value (sc : Scope) : Expr → ℤ
  | .number n => n.toNat
  | .symbol name =>
    match sc.lookup name with
    | some v => v.v.toNat
    | none =>
      if name = "MAXPAGESIZE" then sc.maxPageSize.toNat
      else if name = "COMMONPAGESIZE" then sc.commonPageSize.toNat
      else 0
  | .unary op a => op.meaning (value sc a)
  | .binary op a b => op.meaning (value sc a) (value sc b)
  | .ternary c t f => if unsigned (value sc c) ≠ 0 then value sc t else value sc f
  | .alignDot a => aligned sc.dot.toNat (value sc a)
  | .align2 v a => aligned (value sc v) (value sc a)
  | .absolute a => value sc a
  | .addr name => ((sc.findOut name).map fun oi => ((sc.addr oi).toNat : ℤ)).getD 0
  | .loadaddr name => ((sc.findOut name).map fun oi => ((sc.lma oi).toNat : ℤ)).getD 0
  | .sizeof name => ((sc.findOut name).map fun oi => ((sc.size oi).toNat : ℤ)).getD 0
  | .alignof name => ((sc.findOut name).map fun oi => ((sc.align oi).toNat : ℤ)).getD 0
  | .sizeofHeaders => sc.sizeofHeaders.toNat
  | .defined name => truth (sc.defined name = true)
  | .min a b => min (unsigned (value sc a)) (unsigned (value sc b))
  | .max a b => max (unsigned (value sc a)) (unsigned (value sc b))
  | .assert a _ => value sc a

/-- The one division of two words whose quotient is not a word. -/
def Overflows (x y : ℤ) : Prop := signed x = -2 ^ 63 ∧ signed y = -1

instance (x y : ℤ) : Decidable (Overflows x y) := inferInstanceAs (Decidable (_ ∧ _))

/-- Evaluating an expression divides the least word by minus one. -/
def DividesOver (sc : Scope) : Expr → Prop
  | .unary _ a | .alignDot a | .absolute a | .assert a _ => DividesOver sc a
  | .binary op a b => DividesOver sc a ∨ DividesOver sc b ∨
      (op = .div ∨ op = .rem) ∧ Overflows (value sc a) (value sc b)
  | .ternary c t f => DividesOver sc c ∨
      if unsigned (value sc c) ≠ 0 then DividesOver sc t else DividesOver sc f
  | .align2 a b | .min a b | .max a b => DividesOver sc a ∨ DividesOver sc b
  | _ => False

section

-- The equations are made here, once for all the lemmas that unfold these.
attribute [local simp] value DividesOver

end

/-! ## Operators on residues -/

variable {sc : Scope} {x y : ℤ}

lemma unsigned_eq (x : ℤ) : unsigned x = (BitVec.ofInt 64 x).toNat := by
  rw [BitVec.toNat_ofInt]
  rfl

lemma signed_eq (x : ℤ) : signed x = (BitVec.ofInt 64 x).toInt := BitVec.toInt_ofInt x |>.symm

@[simp] lemma ofInt_toNat (w : Word) : BitVec.ofInt 64 (w.toNat : ℤ) = w := by
  rw [BitVec.ofInt_natCast, BitVec.ofNat_toNat, BitVec.setWidth_eq]

lemma ofInt_truth (p : Prop) [Decidable p] (b : Bool) (h : b = true ↔ p) :
    BitVec.ofInt 64 (truth p) = ofBool b := by
  by_cases hp : p
  · rw [truth, if_pos hp, h.mpr hp]
    rfl
  · rw [truth, if_neg hp, Bool.eq_false_iff.mpr (mt h.mp hp)]
    rfl

lemma toNat_eq_zero (w : Word) : w.toNat = 0 ↔ w = 0 := by
  rw [← BitVec.toNat_inj]
  rfl

/-- An operator on one operand computes its meaning modulo `2 ^ 64`. -/
lemma UnOp.apply_ofInt (op : UnOp) (x : ℤ) :
    op.apply (BitVec.ofInt 64 x) = BitVec.ofInt 64 (op.meaning x) := by
  cases op with
  | neg => exact BitVec.ofInt_neg.symm
  | not =>
    refine (ofInt_truth _ _ ?_).symm
    rw [beq_iff_eq, unsigned_eq, toNat_eq_zero]
  | bitNot =>
    show ~~~BitVec.ofInt 64 x = BitVec.ofInt 64 (-x - 1)
    have hone : BitVec.ofInt 64 1 = 1#64 := by decide
    rw [BitVec.not_eq_neg_add, Int.sub_eq_add_neg, BitVec.ofInt_add, BitVec.ofInt_neg,
      BitVec.ofInt_neg, hone, BitVec.sub_eq_add_neg]

lemma sdiv_eq (a b : Word) :
    (if b = 0 then 0 else a.sdiv b) = BitVec.ofInt 64 (a.toInt.tdiv b.toInt) := by
  split
  · rename_i h
    rw [h]
    simp
  · exact BitVec.eq_of_toInt_eq (by rw [BitVec.toInt_sdiv, BitVec.toInt_ofInt])

lemma srem_eq (a b : Word) : (if b = 0 then 0 else a.srem b) =
    BitVec.ofInt 64 (if b.toInt = 0 then 0 else a.toInt.tmod b.toInt) := by
  have hzero : b.toInt = 0 ↔ b = 0 := by rw [← BitVec.toInt_inj]; rfl
  by_cases h : b = 0
  · rw [if_pos h, if_pos (hzero.mpr h)]
    rfl
  · rw [if_neg h, if_neg (mt hzero.mp h), ← BitVec.toInt_srem, BitVec.ofInt_toInt]

lemma shiftAmount_eq (w : Word) : shiftAmount w = w.toNat % 64 := by
  unfold shiftAmount
  omega

/-- An operator on two operands computes its meaning modulo `2 ^ 64`. -/
lemma BinOp.apply_ofInt (op : BinOp) (x y : ℤ) :
    op.apply (BitVec.ofInt 64 x) (BitVec.ofInt 64 y) = BitVec.ofInt 64 (op.meaning x y) := by
  cases op with
  | add => exact (BitVec.ofInt_add x y).symm
  | sub =>
    show BitVec.ofInt 64 x - BitVec.ofInt 64 y = BitVec.ofInt 64 (x - y)
    rw [Int.sub_eq_add_neg, BitVec.ofInt_add, BitVec.ofInt_neg, BitVec.sub_eq_add_neg]
  | mul => exact (BitVec.ofInt_mul x y).symm
  | div =>
    show (if _ then _ else _) = BitVec.ofInt 64 ((signed x).tdiv (signed y))
    rw [signed_eq, signed_eq, sdiv_eq]
  | rem =>
    show (if _ then _ else _) = BitVec.ofInt 64 (if signed y = 0 then _ else _)
    rw [signed_eq, signed_eq, srem_eq]
  | shl =>
    show BitVec.ofInt 64 x <<< shiftAmount _ = BitVec.ofInt 64 (x * 2 ^ (unsigned y % 64))
    rw [shiftAmount_eq, ← unsigned_eq, BitVec.shiftLeft_eq_mul_twoPow, BitVec.ofInt_mul]
    congr 1
    apply BitVec.eq_of_toNat_eq
    rw [BitVec.toNat_twoPow, BitVec.toNat_ofInt]
    norm_cast
  | shr =>
    show BitVec.ofInt 64 x >>> shiftAmount _ = BitVec.ofInt 64 (unsigned x / 2 ^ (unsigned y % 64))
    have hcast : (unsigned x / 2 ^ (unsigned y % 64) : ℤ) =
        ((BitVec.ofInt 64 x >>> (unsigned y % 64)).toNat : ℕ) := by
      rw [BitVec.toNat_ushiftRight, Nat.shiftRight_eq_div_pow, ← unsigned_eq]
      push_cast
      rfl
    rw [shiftAmount_eq, ← unsigned_eq, hcast, ofInt_toNat]
  | eq =>
    refine (ofInt_truth _ _ ?_).symm
    rw [beq_iff_eq, unsigned_eq, unsigned_eq, BitVec.toNat_inj]
  | ne =>
    refine (ofInt_truth _ _ ?_).symm
    rw [bne_iff_ne, unsigned_eq, unsigned_eq, Ne, Ne, BitVec.toNat_inj]
  | lt => exact (ofInt_truth _ _ (by rw [decide_eq_true_iff, unsigned_eq, unsigned_eq]; rfl)).symm
  | le => exact (ofInt_truth _ _ (by rw [decide_eq_true_iff, unsigned_eq, unsigned_eq]; rfl)).symm
  | gt => exact (ofInt_truth _ _ (by rw [decide_eq_true_iff, unsigned_eq, unsigned_eq]; rfl)).symm
  | ge => exact (ofInt_truth _ _ (by rw [decide_eq_true_iff, unsigned_eq, unsigned_eq]; rfl)).symm
  | bitAnd =>
    show _ &&& _ = BitVec.ofInt 64 ((_ : ℕ) : ℤ)
    rw [unsigned_eq, unsigned_eq, ← BitVec.toNat_and, ofInt_toNat]
  | bitOr =>
    show _ ||| _ = BitVec.ofInt 64 ((_ : ℕ) : ℤ)
    rw [unsigned_eq, unsigned_eq, ← BitVec.toNat_or, ofInt_toNat]
  | bitXor =>
    show _ ^^^ _ = BitVec.ofInt 64 ((_ : ℕ) : ℤ)
    rw [unsigned_eq, unsigned_eq, ← BitVec.toNat_xor, ofInt_toNat]
  | logAnd =>
    refine (ofInt_truth _ _ ?_).symm
    rw [Bool.and_eq_true, bne_iff_ne, bne_iff_ne, unsigned_eq, unsigned_eq, Ne, Ne, Ne, Ne,
      toNat_eq_zero, toNat_eq_zero]
  | logOr =>
    refine (ofInt_truth _ _ ?_).symm
    rw [Bool.or_eq_true, bne_iff_ne, bne_iff_ne, unsigned_eq, unsigned_eq, Ne, Ne, Ne, Ne,
      toNat_eq_zero, toNat_eq_zero]

lemma ofInt_add_mul (x q : ℤ) : BitVec.ofInt 64 (x + 2 ^ 64 * q) = BitVec.ofInt 64 x := by
  have hzero : BitVec.ofInt 64 (2 ^ 64) = 0#64 := by decide
  rw [BitVec.ofInt_add, BitVec.ofInt_mul, hzero, BitVec.zero_mul, BitVec.add_zero]

lemma emod_eq_add_mul (x : ℤ) : ∃ q : ℤ, x % 2 ^ 64 = x + 2 ^ 64 * q :=
  ⟨-(x / 2 ^ 64), by rw [Int.emod_def]; ring⟩

lemma cast_unsigned (x : ℤ) : (unsigned x : ℤ) = x % 2 ^ 64 :=
  Int.toNat_of_nonneg (Int.emod_nonneg _ (by norm_num))

/-- Rounding a residue up with the mask of a power of two rounds the integer up. -/
lemma ofInt_alignUp {k : ℕ} (hk : k < 64) (x : ℤ) :
    BitVec.ofInt 64 (alignUp (unsigned x) (2 ^ k)) =
      BitVec.ofInt 64 ((x + (2 ^ k - 1)) / 2 ^ k * 2 ^ k) := by
  obtain ⟨q, hq⟩ := emod_eq_add_mul x
  rw [← cast_unsigned] at hq
  unfold alignUp
  split
  · rename_i hle
    have hone : (2 : ℤ) ^ k = 1 := by exact_mod_cast le_antisymm hle Nat.one_le_two_pow
    rw [hq, ofInt_add_mul, hone]
    simp
  · rw [and_highMask (Nat.mod_lt _ (by norm_num)) hk.le]
    -- What the sum loses is a multiple of `2 ^ 64`, hence one of `2 ^ k`.
    obtain ⟨m, hm⟩ : (2 : ℤ) ^ k ∣ 2 ^ 64 := pow_dvd_pow 2 hk.le
    have hpos : (2 : ℤ) ^ k ≠ 0 := by positivity
    obtain ⟨r, hr⟩ := emod_eq_add_mul (unsigned x + (2 ^ k - 1))
    have hround : (x + (2 ^ k - 1) + 2 ^ 64 * (q + r)) / 2 ^ k * 2 ^ k =
        (x + (2 ^ k - 1)) / 2 ^ k * 2 ^ k + 2 ^ 64 * (q + r) := by
      rw [hm, mul_assoc, Int.add_mul_ediv_left _ _ hpos, add_mul]
      ring
    have hsum : ((unsigned x + (2 ^ k - 1)) % 2 ^ 64 : ℤ) = x + (2 ^ k - 1) + 2 ^ 64 * (q + r) := by
      rw [hr, hq]
      ring
    have hcast : (((unsigned x + (2 ^ k - 1)) % 2 ^ 64 / 2 ^ k * 2 ^ k : ℕ) : ℤ) =
        (x + (2 ^ k - 1)) / 2 ^ k * 2 ^ k + 2 ^ 64 * (q + r) := by
      rw [← hround, ← hsum]
      push_cast [Nat.one_le_two_pow]
      rfl
    rw [hcast, ofInt_add_mul]

/-- Rounding up computes its meaning modulo `2 ^ 64`. -/
lemma alignWord_ofInt (x a : ℤ) :
    alignWord (BitVec.ofInt 64 x) (BitVec.ofInt 64 a) = BitVec.ofInt 64 (aligned x a) := by
  unfold alignWord aligned
  rw [← unsigned_eq, ← unsigned_eq]
  split
  · rename_i h
    obtain ⟨k, hk, ha⟩ := h
    rw [ha, ← BitVec.ofInt_natCast, ofInt_alignUp hk]
    norm_cast
  · rw [BitVec.ofInt_natCast]

lemma getD_ofInt (o : Option ℕ) (f : ℕ → Word) :
    (o.map f).getD 0 = BitVec.ofInt 64 ((o.map fun oi => ((f oi).toNat : ℤ)).getD 0) := by
  cases o with
  | none => rfl
  | some oi => exact (ofInt_toNat _).symm

/-- The evaluation of an expression is its meaning modulo `2 ^ 64`. -/
lemma evalInner_eq_value (sc : Scope) (e : Expr) :
    (evalInner sc e).1.v = BitVec.ofInt 64 (value sc e) := by
  induction e with
  | number n => exact (ofInt_toNat n).symm
  | symbol name =>
    rw [evalInner, value]
    cases hl : sc.lookup name with
    | some v => exact (ofInt_toNat _).symm
    | none =>
      dsimp only
      split
      · exact (ofInt_toNat _).symm
      · split
        · exact (ofInt_toNat _).symm
        · rfl
  | unary op a iha =>
    show op.apply (evalInner sc a).1.v = _
    rw [iha, UnOp.apply_ofInt, value]
  | binary op a b iha ihb =>
    show op.apply (evalInner sc a).1.v (evalInner sc b).1.v = _
    rw [iha, ihb, BinOp.apply_ofInt, value]
  | ternary c t f ihc iht ihf =>
    have hiff : (evalInner sc c).1.v ≠ 0 ↔ unsigned (value sc c) ≠ 0 := by
      rw [ihc, unsigned_eq, Ne, Ne, toNat_eq_zero]
    show ((if (evalInner sc c).1.v ≠ 0 then evalInner sc t else evalInner sc f).1).v = _
    rw [value]
    by_cases h : (evalInner sc c).1.v ≠ 0
    · rw [if_pos h, if_pos (hiff.mp h), iht]
    · rw [if_neg h, if_neg (mt hiff.mpr h), ihf]
  | alignDot a iha =>
    show alignWord sc.dot (evalInner sc a).1.v = _
    rw [iha, value, ← alignWord_ofInt, ofInt_toNat]
  | align2 v a ihv iha =>
    show alignWord (evalInner sc v).1.v (evalInner sc a).1.v = _
    rw [ihv, iha, value, alignWord_ofInt]
  | absolute a iha => rw [value, ← iha]; rfl
  | assert a msg iha => rw [value, ← iha]; rfl
  | addr name =>
    rw [value, ← getD_ofInt, evalInner]
    cases sc.findOut name <;> rfl
  | loadaddr name =>
    rw [value, ← getD_ofInt, evalInner]
    cases sc.findOut name <;> rfl
  | sizeof name => exact getD_ofInt _ _
  | alignof name => exact getD_ofInt _ _
  | sizeofHeaders => exact (ofInt_toNat _).symm
  | defined name => exact (ofInt_truth _ _ Iff.rfl).symm
  | min a b iha ihb =>
    show (if (evalInner sc b).1.v < (evalInner sc a).1.v then _ else _) = _
    rw [value, ← Nat.cast_min, unsigned_eq, unsigned_eq, ← iha, ← ihb]
    split
    · rename_i h
      rw [Nat.min_eq_right (Nat.le_of_lt h), ofInt_toNat]
    · rename_i h
      rw [Nat.min_eq_left (Nat.le_of_not_lt h), ofInt_toNat]
  | max a b iha ihb =>
    show (if (evalInner sc b).1.v < (evalInner sc a).1.v then _ else _) = _
    rw [value, ← Nat.cast_max, unsigned_eq, unsigned_eq, ← iha, ← ihb]
    split
    · rename_i h
      rw [Nat.max_eq_left (Nat.le_of_lt h), ofInt_toNat]
    · rename_i h
      rw [Nat.max_eq_right (Nat.le_of_not_lt h), ofInt_toNat]

lemma overflows_iff (x y : ℤ) :
    Overflows x y ↔ BitVec.ofInt 64 x = BitVec.intMin 64 ∧ BitVec.ofInt 64 y = -1 := by
  rw [Overflows, signed_eq, signed_eq, ← BitVec.toInt_inj, ← BitVec.toInt_inj]
  rfl

/-- A panicking operator is the one that wraps, but for the quotient that does not fit. -/
lemma BinOp.apply?_eq (op : BinOp) (a b : Word) : op.apply? a b =
    if (op = .div ∨ op = .rem) ∧ a = BitVec.intMin 64 ∧ b = -1 then none
    else some (op.apply a b) := by
  have hne : b = -1 → b ≠ 0 := by rintro rfl; decide
  cases op with
  | div => 
    show (if b = 0 then _ else signedDiv? a b) = _
    unfold signedDiv? BinOp.apply
    split <;> grind
  | rem => 
    show (if b = 0 then _ else signedRem? a b) = _
    unfold signedRem? BinOp.apply
    split <;> grind
  | _ => rw [if_neg (by simp)]; rfl

lemma applyAssignOp?_eq (base v : Word) (op : AssignOp) :
    applyAssignOp? base op v = (op.binOp.elim (some v) fun b => b.apply? base v) := by
  cases op <;> rfl

end Badc.Script

namespace Badc.Layout

open Script

variable {δ : Type}

/-! ## The evaluation with its state -/

/-- Evaluate an expression in a state, where the evaluation does not panic. -/
def Link.evalInner? (lk : Link δ) (finalPass : Bool) : Expr → Pass δ → Option (Val × Pass δ)
  | .number n, st => some (.abs n, st)
  | .symbol name, st =>
    let sc := lk.scope finalPass st st.dot
    match sc.lookup name with
    | some v => some (v, st)
    | none =>
      if name = "MAXPAGESIZE" then some (.abs lk.maxPageSize, st)
      else if name = "COMMONPAGESIZE" then some (.abs lk.commonPageSize, st)
      else some (.abs 0, st.report (sc.undef name))
  | .unary op a, st => do
    let (a, st) ← lk.evalInner? finalPass a st
    some (.abs (op.apply a.v), st)
  | .binary op a b, st => do
    let (a, st) ← lk.evalInner? finalPass a st
    let (b, st) ← lk.evalInner? finalPass b st
    let v ← op.apply? a.v b.v
    let st := if op = .div ∧ b.v = 0 then
      st.report ((lk.scope finalPass st st.dot).error "division by zero in script") else st
    some (⟨v, op.att a.att b.att⟩, st)
  | .ternary c t f, st => do
    let (c, st) ← lk.evalInner? finalPass c st
    if c.v ≠ 0 then lk.evalInner? finalPass t st else lk.evalInner? finalPass f st
  | .alignDot a, st => do
    let (a, st) ← lk.evalInner? finalPass a st
    let sc := lk.scope finalPass st st.dot
    some (⟨alignWord sc.dot a.v, sc.dotAtt⟩, st)
  | .align2 v a, st => do
    let (v, st) ← lk.evalInner? finalPass v st
    let (a, st) ← lk.evalInner? finalPass a st
    some (⟨alignWord v.v a.v, v.att⟩, st)
  | .absolute a, st => do
    let (a, st) ← lk.evalInner? finalPass a st
    some (.abs a.v, st)
  | .addr name, st =>
    let sc := lk.scope finalPass st st.dot
    match sc.findOut name with
    | some oi => some (⟨sc.addr oi, .out oi⟩, st)
    | none => some (.abs 0, st.report (sc.error ("ADDR(" ++ name ++ "): no such output section")))
  | .loadaddr name, st =>
    let sc := lk.scope finalPass st st.dot
    match sc.findOut name with
    | some oi => some (.abs (sc.lma oi), st)
    | none => some (.abs 0, st.report (sc.error ("LOADADDR(" ++ name ++ "): no such output section")))
  | .sizeof name, st =>
    let sc := lk.scope finalPass st st.dot
    some (.abs (((sc.findOut name).map sc.size).getD 0), st)
  | .alignof name, st =>
    let sc := lk.scope finalPass st st.dot
    some (.abs (((sc.findOut name).map sc.align).getD 0), st)
  | .sizeofHeaders, st => some (.abs (lk.sizeofHeaders st.phdrs), st)
  | .defined name, st => some (.abs (ofBool ((lk.scope finalPass st st.dot).defined name)), st)
  | .min a b, st => do
    let (a, st) ← lk.evalInner? finalPass a st
    let (b, st) ← lk.evalInner? finalPass b st
    some (.abs (if b.v < a.v then b.v else a.v), st)
  | .max a b, st => do
    let (a, st) ← lk.evalInner? finalPass a st
    let (b, st) ← lk.evalInner? finalPass b st
    some (.abs (if b.v < a.v then a.v else b.v), st)
  | .assert a msg, st => do
    let (v, st) ← lk.evalInner? finalPass a st
    let st := if v.v = 0 then
      st.report ((lk.scope finalPass st st.dot).error ("assertion failed: " ++ msg)) else st
    some (v, st)

/-- Evaluate an expression with the location counter at `dot`, and put the location counter back. -/
def Link.evalWithDot? (lk : Link δ) (finalPass : Bool) (st : Pass δ) (e : Expr) (dot : ℕ) :
    Option (Val × Pass δ) := do
  let saved := st.dot
  let (v, st) ← lk.evalInner? finalPass e { st with dot }
  some (v, { st with dot := saved })

section

-- The equations are made here, once for all the lemmas that unfold these.
attribute [local simp] Link.evalInner?

end

variable {lk : Link δ} {finalPass : Bool} {st : Pass δ}

lemma report_none (st : Pass δ) : st.report .none = st := by
  simp [Pass.report, Diag.none]

lemma report_and (st : Pass δ) (d d' : Diag) : st.report (d.and d') = (st.report d).report d' := by
  simp [Pass.report, Diag.and]

lemma report_ite (st : Pass δ) (d : Diag) (p : Prop) [Decidable p] :
    st.report (if p then d else .none) = if p then st.report d else st := by
  split
  · rfl
  · exact report_none st

lemma scope_report (st : Pass δ) (d : Diag) :
    lk.scope finalPass (st.report d) (st.report d).dot = lk.scope finalPass st st.dot := rfl

/-- Without the quotient that does not fit, the evaluation is the one of the layout. -/
lemma evalInner?_eq_some {sc : Scope} (e : Expr) (st : Pass δ)
    (hsc : lk.scope finalPass st st.dot = sc) (h : ¬DividesOver sc e) : lk.evalInner? finalPass e st =
      some ((evalInner sc e).1, st.report (evalInner sc e).2) := by
  induction e generalizing st with
  | number n => exact congrArg some (Prod.ext rfl (report_none st).symm)
  | symbol name =>
    rw [Link.evalInner?, evalInner, hsc]
    cases hl : sc.lookup name with
    | some v => exact congrArg some (Prod.ext rfl (report_none st).symm)
    | none =>
      subst hsc
      dsimp only
      split
      · exact congrArg some (Prod.ext rfl (report_none st).symm)
      · split
        · exact congrArg some (Prod.ext rfl (report_none st).symm)
        · rfl
  | unary op a iha =>
    rw [Link.evalInner?, iha st hsc h]
    rfl
  | binary op a b iha ihb =>
    obtain ⟨ha, hb, hop⟩ := (not_or.trans (and_congr_right fun _ => not_or)).mp h
    rw [overflows_iff, ← evalInner_eq_value, ← evalInner_eq_value] at hop
    rw [Link.evalInner?, iha st hsc ha]
    simp only [Option.bind_eq_bind, Option.bind_some]
    rw [ihb (st.report _) hsc hb]
    simp only [Option.bind_some, scope_report, BinOp.apply?_eq, if_neg hop, evalInner, report_and,
      report_ite, hsc]
  | ternary c t f ihc iht ihf =>
    obtain ⟨hc, hbranch⟩ := not_or.mp h
    have hiff : (evalInner sc c).1.v ≠ 0 ↔ unsigned (value sc c) ≠ 0 := by
      rw [evalInner_eq_value, unsigned_eq, Ne, Ne, toNat_eq_zero]
    rw [Link.evalInner?, ihc st hsc hc]
    simp only [Option.bind_eq_bind, Option.bind_some, evalInner]
    by_cases hz : (evalInner sc c).1.v ≠ 0
    · rw [if_pos (hiff.mp hz)] at hbranch
      rw [if_pos hz, if_pos hz, iht (st.report _) hsc hbranch, report_and]
    · rw [if_neg (mt hiff.mpr hz)] at hbranch
      rw [if_neg hz, if_neg hz, ihf (st.report _) hsc hbranch, report_and]
  | alignDot a iha =>
    rw [Link.evalInner?, iha st hsc h]
    simp only [Option.bind_eq_bind, Option.bind_some, scope_report, evalInner, hsc]
  | align2 v a ihv iha =>
    obtain ⟨hv, ha⟩ := not_or.mp h
    rw [Link.evalInner?, ihv st hsc hv]
    simp only [Option.bind_eq_bind, Option.bind_some]
    rw [iha (st.report _) hsc ha]
    simp only [Option.bind_some, evalInner, report_and]
  | absolute a iha =>
    rw [Link.evalInner?, iha st hsc h]
    rfl
  | assert a msg iha =>
    rw [Link.evalInner?, iha st hsc h]
    simp only [Option.bind_eq_bind, Option.bind_some, scope_report, evalInner, report_and,
      report_ite, hsc]
  | addr name =>
    rw [Link.evalInner?, evalInner, hsc]
    cases sc.findOut name with
    | some oi => exact congrArg some (Prod.ext rfl (report_none st).symm)
    | none => rfl
  | loadaddr name =>
    rw [Link.evalInner?, evalInner, hsc]
    cases sc.findOut name with
    | some oi => exact congrArg some (Prod.ext rfl (report_none st).symm)
    | none => rfl
  | sizeof name =>
    rw [Link.evalInner?, evalInner, hsc, report_none]
  | alignof name =>
    rw [Link.evalInner?, evalInner, hsc, report_none]
  | sizeofHeaders =>
    rw [Link.evalInner?, evalInner, ← hsc, report_none]
    rfl
  | defined name =>
    rw [Link.evalInner?, evalInner, hsc, report_none]
  | min a b iha ihb | max a b iha ihb =>
    obtain ⟨ha, hb⟩ := not_or.mp h
    rw [Link.evalInner?, iha st hsc ha]
    simp only [Option.bind_eq_bind, Option.bind_some]
    rw [ihb (st.report _) hsc hb]
    simp only [Option.bind_some, evalInner, report_and]

/-- **A script expression evaluates to its meaning.**  Where no quotient fails to fit, the evaluation
returns, puts the location counter back, and gives the meaning of the expression modulo `2 ^ 64`.  An
assignment operator does on every pair of words what the operator it stands for does. -/
theorem evalWithDot_spec (lk : Link δ) (finalPass : Bool) (st : Pass δ) (e : Expr) (dot : ℕ) :
    (¬DividesOver (lk.scope finalPass st dot) e →
      lk.evalWithDot? finalPass st e dot = some (lk.evalWithDot finalPass st e dot) ∧
      (lk.evalWithDot finalPass st e dot).2.dot = st.dot ∧
      ((lk.evalWithDot finalPass st e dot).1.v.toNat : ℤ) =
        value (lk.scope finalPass st dot) e % 2 ^ 64) ∧
    ∀ base op w, applyAssignOp? base op w =
      op.binOp.elim (some w) fun bin => bin.apply? base w := by
  refine ⟨fun h => ⟨?_, rfl, ?_⟩, fun base op w => applyAssignOp?_eq base w op⟩
  · unfold Link.evalWithDot?
    rw [evalInner?_eq_some e { st with dot } rfl h]
    rfl
  · show ((evalInner (lk.scope finalPass st dot) e).1.v.toNat : ℤ) = _
    rw [evalInner_eq_value, ← unsigned_eq, cast_unsigned]

/-- The least word divided by a symbol that is not minus one. -/
theorem evalWithDot_spec_quotient :
    ((twoWords []).evalWithDot? true freshPass (.binary .div (.number (BitVec.intMin 64))
      (.symbol ".")) 2).isSome = true := by
  have hfits : ¬Overflows (BitVec.intMin 64).toNat
      (value ((twoWords []).scope true freshPass 2) (.symbol ".")) := by decide
  have h := ((evalWithDot_spec (twoWords []) true freshPass (.binary .div
    (.number (BitVec.intMin 64)) (.symbol ".")) 2).1 fun h =>
      h.elim False.elim (Or.rec False.elim fun h => hfits h.2)).1
  rw [h]
  rfl

/-- A shift by 64 leaves its operand, which is not what it means modulo `2 ^ 64`; and the least word
divided by minus one panics. -/
theorem evalWithDot_wraps :
    ((twoWords []).evalWithDot? true freshPass (.binary .shl (.number 1) (.number 64)) 0).map
      (fun r => r.1.v) = some 1 ∧ (1 * 2 ^ 64 : ℤ) % 2 ^ 64 = 0 ∧
    (twoWords []).evalWithDot? true freshPass
      (.binary .div (.number (BitVec.intMin 64)) (.number (-1))) 0 = none := by
  exact ⟨rfl, by norm_num, rfl⟩

end Badc.Layout
