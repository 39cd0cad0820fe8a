import Badc.Ir.Eval
import Badc.Magic.Search

/-!
# Lowering of a constant division

`lower_divmod` and `lower_udivmod` of `src/c5/codegen/magic.rs` over a `DivSink`, the receiver of
the instructions they ask for.  Two sinks stand here, those of the source's own derivation tests
(`src/c5/codegen/magic/tests.rs`): `recorder` keeps the sequence, which `replay` runs from a
numerator, and `evaluator` computes each value as it is asked for.  `eval_of_agrees` carries what
the evaluator finds over to the recorded sequence.  The source's `u64` divisors and multipliers
are natural numbers here.
-/

namespace Badc.Magic

/-- Receiver for the constant-divide lowering. -/
structure DivSink (m : Type → Type) (V : Type) where
  imm : Word → m V
  binop : BinOp → V → V → m V
  binopImm : BinOp → V → Word → m V

/-- `log2(x)` when `x` is a power of two. -/
def pow2Log (x : ℕ) : Option ℕ :=
  if 2 ^ Nat.log 2 x = x then some (trailingZeros x 64) else none

section Lowering

variable {m : Type → Type} [Monad m] {V : Type} (s : DivSink m V)

/-- `v` shifted right by `k` under `op`. -/
def shiftRight (op : BinOp) (v : V) (k : ℕ) : m V :=
  if k = 0 then pure v else s.binopImm op v (BitVec.ofNat 64 k)

/-- `floor(n * mag / 2^(w + extra))` for unsigned operands. -/
def mulhu (n : V) (mag w extra : ℕ) : m V :=
  if w = 64 then do
    let mv ← s.imm (BitVec.ofNat 64 mag)
    let hi ← s.binop .mulhu n mv
    shiftRight s .shru hi extra
  else do
    let prod ← s.binopImm .mul n (BitVec.ofNat 64 mag)
    s.binopImm .shru prod (BitVec.ofNat 64 (32 + extra))

/-- The add-back form: the multiply sees the multiplier short by `2^w`. -/
def addBack (n : V) (mag : UnsignedMagic) (w : ℕ) : m V := do
  let t ← mulhu s n mag.m w 0
  let diff ← s.binop .sub n t
  let half ← s.binopImm .shru diff 1
  let sum ← s.binop .add half t
  shiftRight s .shru sum mag.shift

/-- Unsigned `n / d` for a non-power-of-two `d` below `2^w` and a numerator below `2^bits`. -/
def udivMagic (n : V) (d w bits : ℕ) : m V :=
  if bits < w then
    let mag := magicUnsigned d w bits
    mulhu s n mag.m w mag.shift
  else
    let tz := trailingZeros d 64
    let odd := magicUnsigned (d >>> tz) w (w - tz)
    if 0 < tz ∧ odd.add = false then do
      let pre ← s.binopImm .shru n (BitVec.ofNat 64 tz)
      mulhu s pre odd.m w odd.shift
    else
      let mag := magicUnsigned d w w
      if mag.add = false then mulhu s n mag.m w mag.shift
      else addBack s n mag w

/-- The floored quotient of `sdiv_magic`. -/
def sdivFloor (n : V) (mag : SignedMagic) (w : ℕ) : m V :=
  if w = 64 then do
    let mv ← s.imm (BitVec.ofNat 64 mag.m)
    let hi ← s.binop .mulh n mv
    -- The high multiply reads a multiplier with its top bit set as negative.
    let hi ← (if mag.m >>> (w - 1) ≠ 0 then s.binop .add hi n else pure hi : m V)
    shiftRight s .shr hi mag.shift
  else do
    let prod ← s.binopImm .mul n (BitVec.ofNat 64 mag.m)
    s.binopImm .shr prod (BitVec.ofNat 64 (32 + mag.shift))

/-- Signed `n / d` for a positive non-power-of-two `d` below `2^(w-1)`. -/
def sdivMagic (n : V) (d w : ℕ) : m V := do
  let q0 ← sdivFloor s n (magicSigned d w) w
  let sign ← s.binopImm .shru q0 63
  s.binop .add q0 sign

/-- A numerator biased by `2^k - 1` when it is negative, and the bias. -/
def sdivPow2Bias (n : V) (k w : ℕ) : m (V × V) := do
  let sign ← (if k ≤ 65 - w then pure n else s.binopImm .shr n 63 : m V)
  let bias ← s.binopImm .shru sign (BitVec.ofNat 64 (64 - k))
  return (← s.binop .add n bias, bias)

/-- `-v`. -/
def negate (v : V) : m V := do
  let zero ← s.imm 0
  s.binop .sub zero v

/-- `n - q * d`. -/
def remainderOf (n q : V) (d : Word) : m V := do
  let qd ← s.binopImm .mul q d
  s.binop .sub n qd

/-- The quotient of a divisor that is no power of two: above `2^(w-1)` it is a compare. -/
def udivQuotient (n : V) (du w bits : ℕ) : m V :=
  if 2 ^ (w - 1) < du then s.binopImm .uge n (BitVec.ofNat 64 du) else udivMagic s n du w bits

/-- Unsigned `n / d`, or `n % d` with `wantRem`, for a numerator below `2^bits`; none for a zero
divisor. -/
def lowerUdivmod (wantRem : Bool) (n : V) (du w bits : ℕ) : m (Option V) :=
  if du = 0 then pure none
  else if du = 1 then do
    if wantRem then some <$> s.imm 0 else return some n
  -- Every numerator is below the divisor.
  else if bits < 64 ∧ du >>> bits ≠ 0 then do
    if wantRem then return some n else some <$> s.imm 0
  else match pow2Log du with
    | some k =>
      if wantRem then some <$> s.binopImm .and n (BitVec.ofNat 64 (du - 1))
      else some <$> s.binopImm .shru n (BitVec.ofNat 64 k)
    | none => do
      let q ← udivQuotient s n du w bits
      if !wantRem then return some q
      else some <$> remainderOf s n q (BitVec.ofNat 64 du)

/-- The signed arms of `lower_divmod`: `n / d`, or `n % d` with `wantRem`. -/
def lowerSdivmod (wantRem : Bool) (n : V) (d : Word) (w : ℕ) : m (Option V) :=
  if d = 0 then pure none
  else
    let ad := d.toInt.natAbs
    let signed : V → m V := fun q => if d.toInt < 0 then negate s q else pure q
    if ad = 1 then
      if wantRem then some <$> s.imm 0 else some <$> signed n
    else match pow2Log ad with
      | some k => do
        let (adj, bias) ← sdivPow2Bias s n k w
        if !wantRem then do
          let q ← s.binopImm .shr adj (BitVec.ofNat 64 k)
          some <$> signed q
        else do
          let masked ← s.binopImm .and adj (BitVec.ofNat 64 (ad - 1))
          some <$> s.binop .sub masked bias
      | none => do
        let q ← sdivMagic s n ad w
        let q ← signed q
        if !wantRem then return some q
        else some <$> remainderOf s n q d

/-- Lower `n op d` for a compile-time divisor to multiplies and shifts; none for a zero divisor and
for an operator that is no division. -/
def lowerDivmod (op : BinOp) (n : V) (d : Word) (w : ℕ) : m (Option V) :=
  match op with
  | .divu | .modu =>
    let du := if w = 64 then d.toNat else d.toNat % 2 ^ 32
    lowerUdivmod s (op = .modu) n du w w
  | .div | .mod => lowerSdivmod s (op = .mod) n d w
  | _ => pure none

end Lowering

/-! ## The sinks -/

/-- One recorded step: slot 0 holds the numerator, step `i` defines slot `i + 1`. -/
inductive Step where
  | imm (k : Word)
  | binop (op : BinOp) (lhs rhs : ℕ)
  | binopImm (op : BinOp) (lhs : ℕ) (rhs : Word)
  deriving DecidableEq

/-- The value of a step over the slots' values; none where it traps. -/
def Step.eval (vals : List Word) : Step → Option Word
  | .imm k => some k
  | .binop op a b => do applyBinop op (← vals[a]?) (← vals[b]?)
  | .binopImm op a k => do applyBinop op (← vals[a]?) k

/-- The slots' values after the steps, from the numerator `n`. -/
def replay (n : Word) (steps : List Step) : Option (List Word) :=
  steps.foldlM (fun vals step => (step.eval vals).map fun v => vals ++ [v]) [n]

/-- Record a step; its slot is the result. -/
def record (step : Step) : StateM (List Step) ℕ := do
  modify fun steps => steps ++ [step]
  return (← get).length

/-- The sink that keeps the sequence. -/
def recorder : DivSink (StateM (List Step)) ℕ where
  imm k := record (.imm k)
  binop op a b := record (.binop op a b)
  binopImm op a k := record (.binopImm op a k)

/-- The sink that computes. -/
def evaluator : DivSink Option Word where
  imm k := some k
  binop op a b := applyBinop op a b
  binopImm op a k := applyBinop op a k

/-! ## The recorded sequence computes what the evaluator does -/

/-- Slot `i` holds `x`. -/
def Slot (vals : List Word) (i : ℕ) (x : Word) : Prop := vals[i]? = some x

/-- From a sequence whose slots hold `vals`, the recorded computation `c` adds steps that replay,
and where `e` has a value its result and `c`'s are related. -/
def Agrees (n : Word) (vals : List Word) {α β : Type} (c : StateM (List Step) α) (e : Option β)
    (R : List Word → α → β → Prop) : Prop :=
  ∀ steps b, replay n steps = some vals → e = some b →
    ∃ more, replay n (c steps).2 = some (vals ++ more) ∧ R (vals ++ more) (c steps).1 b

variable {n x y : Word} {vals more : List Word} {steps : List Step} {i j : ℕ}

lemma Slot.append (h : Slot vals i x) (more : List Word) : Slot (vals ++ more) i x := by
  obtain ⟨hi, -⟩ := List.getElem?_eq_some_iff.mp h
  rw [Slot, List.getElem?_append_left hi]
  exact h

lemma replay_append (h : replay n steps = some vals) {step : Step} (hx : step.eval vals = some x) :
    replay n (steps ++ [step]) = some (vals ++ [x]) := by
  unfold replay at h ⊢
  rw [List.foldlM_append, h]
  simp [hx]

/-- There is one slot more than steps. -/
lemma length_of_replay (h : replay n steps = some vals) : vals.length = steps.length + 1 := by
  induction steps using List.reverseRecOn generalizing vals with
  | nil =>
    obtain rfl := Option.some.inj h
    rfl
  | append_singleton steps step ih =>
    unfold replay at h
    rw [List.foldlM_append] at h
    obtain ⟨vals', hvals, h⟩ := Option.bind_eq_some_iff.mp h
    have hlen := ih hvals
    simp only [List.foldlM_cons, List.foldlM_nil, Option.bind_eq_bind, Option.bind_eq_some_iff,
      Option.map_eq_some_iff] at h
    obtain ⟨_, ⟨v, -, rfl⟩, h⟩ := h
    obtain rfl := Option.some.inj h
    simp [hlen]

lemma agrees_record {step : Step} {e : Option Word}
    (h : ∀ b, e = some b → step.eval vals = some b) : Agrees n vals (record step) e Slot := by
  intro steps b hreplay he
  have hlen := length_of_replay hreplay
  refine ⟨[b], replay_append hreplay (h b he), ?_⟩
  change (vals ++ [b])[(steps ++ [step]).length]? = some b
  rw [List.length_append, List.length_singleton, ← hlen, List.getElem?_concat_length]

lemma agrees_imm (k : Word) : Agrees n vals (recorder.imm k) (evaluator.imm k) Slot :=
  agrees_record fun _ h => h

lemma agrees_binop (op : BinOp) (hx : Slot vals i x) (hy : Slot vals j y) :
    Agrees n vals (recorder.binop op i j) (evaluator.binop op x y) Slot := by
  refine agrees_record fun b h => ?_
  rw [Slot] at hx hy
  rw [Step.eval, hx, hy]
  exact h

lemma agrees_binopImm (op : BinOp) (hx : Slot vals i x) (k : Word) :
    Agrees n vals (recorder.binopImm op i k) (evaluator.binopImm op x k) Slot := by
  refine agrees_record fun b h => ?_
  rw [Slot] at hx
  rw [Step.eval, hx]
  exact h

section Rules

variable {α β γ δ : Type} {R : List Word → α → β → Prop} {Q : List Word → γ → δ → Prop}

lemma agrees_pure {a : α} {b : β} (h : R vals a b) :
    Agrees n vals (pure a : StateM (List Step) α) (pure b : Option β) R := by
  intro steps b' hreplay hb
  obtain rfl := Option.some.inj hb
  exact ⟨[], by rwa [List.append_nil], by rwa [List.append_nil]⟩

/-- Agreement goes through a sequence of two computations. -/
lemma Agrees.bind {c : StateM (List Step) α} {e : Option β} {f : α → StateM (List Step) γ}
    {g : β → Option δ} (h : Agrees n vals c e R)
    (hf : ∀ more a b, R (vals ++ more) a b → Agrees n (vals ++ more) (f a) (g b) Q) :
    Agrees n vals (c >>= f) (e >>= g) Q := by
  intro steps d hreplay hd
  obtain ⟨b, he, hg⟩ := Option.bind_eq_some_iff.mp hd
  obtain ⟨more, hmore, hR⟩ := h steps b hreplay he
  obtain ⟨more', hmore', hQ⟩ := hf more _ b hR _ d hmore hg
  refine ⟨more ++ more', ?_, ?_⟩
  · rw [← List.append_assoc]
    exact hmore'
  · rw [← List.append_assoc]
    exact hQ

lemma Agrees.map {c : StateM (List Step) α} {e : Option β} (f : α → γ) (g : β → δ)
    (h : Agrees n vals c e R) (hf : ∀ vals a b, R vals a b → Q vals (f a) (g b)) :
    Agrees n vals (f <$> c) (g <$> e) Q := by
  rw [map_eq_pure_bind, map_eq_pure_bind]
  exact h.bind fun more a b hR => agrees_pure (hf _ a b hR)

end Rules

lemma agrees_shiftRight (op : BinOp) (hx : Slot vals i x) (k : ℕ) :
    Agrees n vals (shiftRight recorder op i k) (shiftRight evaluator op x k) Slot := by
  unfold shiftRight
  split
  · exact agrees_pure hx
  · exact agrees_binopImm op hx _

lemma agrees_mulhu (hx : Slot vals i x) (mag w extra : ℕ) :
    Agrees n vals (mulhu recorder i mag w extra) (mulhu evaluator x mag w extra) Slot := by
  unfold mulhu
  split
  · refine (agrees_imm _).bind fun _ _ _ hmv => ?_
    refine (agrees_binop .mulhu (hx.append _) hmv).bind fun _ _ _ hhi => ?_
    exact agrees_shiftRight .shru hhi extra
  · refine (agrees_binopImm .mul hx _).bind fun _ _ _ hprod => ?_
    exact agrees_binopImm .shru hprod _

lemma agrees_addBack (hx : Slot vals i x) (mag : UnsignedMagic) (w : ℕ) :
    Agrees n vals (addBack recorder i mag w) (addBack evaluator x mag w) Slot := by
  unfold addBack
  refine (agrees_mulhu hx mag.m w 0).bind fun _ _ _ ht => ?_
  refine (agrees_binop .sub (hx.append _) ht).bind fun _ _ _ hdiff => ?_
  refine (agrees_binopImm .shru hdiff 1).bind fun _ _ _ hhalf => ?_
  refine (agrees_binop .add hhalf ((ht.append _).append _)).bind fun _ _ _ hsum => ?_
  exact agrees_shiftRight .shru hsum mag.shift

/-- Unsigned quotients by a multiplier agree. -/
lemma agrees_udivMagic (hx : Slot vals i x) (d w bits : ℕ) :
    Agrees n vals (udivMagic recorder i d w bits) (udivMagic evaluator x d w bits) Slot := by
  unfold udivMagic
  dsimp only
  split
  · exact agrees_mulhu hx _ w _
  · split
    · refine (agrees_binopImm .shru hx _).bind fun _ _ _ hpre => ?_
      exact agrees_mulhu hpre _ w _
    · split
      · exact agrees_mulhu hx _ w _
      · exact agrees_addBack hx _ w

/-- Floored signed quotients agree. -/
lemma agrees_sdivFloor (hx : Slot vals i x) (mag : SignedMagic) (w : ℕ) :
    Agrees n vals (sdivFloor recorder i mag w) (sdivFloor evaluator x mag w) Slot := by
  unfold sdivFloor
  split
  · refine (agrees_imm _).bind fun _ _ _ hmv => ?_
    refine (agrees_binop .mulh (hx.append _) hmv).bind fun _ _ _ hhi => ?_
    refine Agrees.bind (R := Slot) ?_ fun _ _ _ hhi' => agrees_shiftRight .shr hhi' mag.shift
    split
    · exact agrees_binop .add hhi ((hx.append _).append _)
    · exact agrees_pure hhi
  · refine (agrees_binopImm .mul hx _).bind fun _ _ _ hprod => ?_
    exact agrees_binopImm .shr hprod _

lemma agrees_sdivMagic (hx : Slot vals i x) (d w : ℕ) :
    Agrees n vals (sdivMagic recorder i d w) (sdivMagic evaluator x d w) Slot := by
  unfold sdivMagic
  refine (agrees_sdivFloor hx _ w).bind fun _ _ _ hq => ?_
  refine (agrees_binopImm .shru hq 63).bind fun _ _ _ hsign => ?_
  exact agrees_binop .add (hq.append _) hsign

/-- Biased numerators agree, and their biases. -/
lemma agrees_sdivPow2Bias (hx : Slot vals i x) (k w : ℕ) :
    Agrees n vals (sdivPow2Bias recorder i k w) (sdivPow2Bias evaluator x k w)
      fun vals p q => Slot vals p.1 q.1 ∧ Slot vals p.2 q.2 := by
  unfold sdivPow2Bias
  refine Agrees.bind (R := Slot) ?_ fun _ _ _ hsign => ?_
  · split
    · exact agrees_pure hx
    · exact agrees_binopImm .shr hx 63
  · refine (agrees_binopImm .shru hsign _).bind fun _ _ _ hbias => ?_
    refine (agrees_binop .add ((hx.append _).append _) hbias).bind fun _ _ _ hadj => ?_
    exact agrees_pure ⟨hadj, hbias.append _⟩

lemma agrees_negate (hx : Slot vals i x) :
    Agrees n vals (negate recorder i) (negate evaluator x) Slot := by
  unfold negate
  refine (agrees_imm 0).bind fun _ _ _ hzero => ?_
  exact agrees_binop .sub hzero (hx.append _)

lemma agrees_remainderOf (hx : Slot vals i x) (hq : Slot vals j y) (d : Word) :
    Agrees n vals (remainderOf recorder i j d) (remainderOf evaluator x y d) Slot := by
  unfold remainderOf
  refine (agrees_binopImm .mul hq d).bind fun _ _ _ hqd => ?_
  exact agrees_binop .sub (hx.append _) hqd

/-- Results of a lowering: both declined, or a slot that holds the value. -/
def Result (vals : List Word) (r : Option ℕ) (v : Option Word) : Prop :=
  Option.Rel (Slot vals) r v

lemma Agrees.result {c : StateM (List Step) ℕ} {e : Option Word} (h : Agrees n vals c e Slot) :
    Agrees n vals (some <$> c) (some <$> e) Result :=
  h.map some some fun _ _ _ hslot => .some hslot

/-- Unsigned lowerings agree. -/
lemma agrees_lowerUdivmod (wantRem : Bool) (hx : Slot vals i x) (du w bits : ℕ) :
    Agrees n vals (lowerUdivmod recorder wantRem i du w bits)
      (lowerUdivmod evaluator wantRem x du w bits) Result := by
  unfold lowerUdivmod
  split
  · exact agrees_pure .none
  · split
    · cases wantRem with
      | true => exact (agrees_imm 0).result
      | false => exact agrees_pure (.some hx)
    · split
      · cases wantRem with
        | true => exact agrees_pure (.some hx)
        | false => exact (agrees_imm 0).result
      · cases pow2Log du with
        | some k =>
          cases wantRem with
          | true => exact (agrees_binopImm .and hx _).result
          | false => exact (agrees_binopImm .shru hx _).result
        | none =>
          have hquot : Agrees n vals (udivQuotient recorder i du w bits)
              (udivQuotient evaluator x du w bits) Slot := by
            unfold udivQuotient
            split
            · exact agrees_binopImm .uge hx _
            · exact agrees_udivMagic hx du w bits
          refine hquot.bind fun _ _ _ hq => ?_
          cases wantRem with
          | true => exact (agrees_remainderOf (hx.append _) hq _).result
          | false => exact agrees_pure (.some hq)

/-- Signed lowerings agree. -/
lemma agrees_lowerSdivmod (wantRem : Bool) (hx : Slot vals i x) (d : Word) (w : ℕ) :
    Agrees n vals (lowerSdivmod recorder wantRem i d w) (lowerSdivmod evaluator wantRem x d w)
      Result := by
  -- The quotient takes the divisor's sign.
  have hsigned : ∀ {vals i x}, Slot vals i x →
      Agrees n vals (if d.toInt < 0 then negate recorder i else pure i)
        (if d.toInt < 0 then negate evaluator x else pure x) Slot := by
    intro vals i x hx
    split
    · exact agrees_negate hx
    · exact agrees_pure hx
  unfold lowerSdivmod
  split
  · exact agrees_pure .none
  · dsimp only
    split
    · cases wantRem with
      | true => exact (agrees_imm 0).result
      | false => exact (hsigned hx).result
    · cases pow2Log d.toInt.natAbs with
      | some k =>
        refine (agrees_sdivPow2Bias hx k w).bind fun _ _ _ h => ?_
        cases wantRem with
        | true =>
          refine (agrees_binopImm .and h.1 _).bind fun _ _ _ hmasked => ?_
          exact (agrees_binop .sub hmasked (h.2.append _)).result
        | false =>
          refine (agrees_binopImm .shr h.1 _).bind fun _ _ _ hq => ?_
          exact (hsigned hq).result
      | none =>
        refine (agrees_sdivMagic hx _ w).bind fun _ _ _ hq0 => ?_
        refine (hsigned hq0).bind fun _ _ _ hq => ?_
        cases wantRem with
        | true => exact (agrees_remainderOf ((hx.append _).append _) hq d).result
        | false => exact agrees_pure (.some hq)

lemma agrees_lowerDivmod (op : BinOp) (hx : Slot vals i x) (d : Word) (w : ℕ) :
    Agrees n vals (lowerDivmod recorder op i d w) (lowerDivmod evaluator op x d w) Result := by
  cases op with
  | divu | modu => exact agrees_lowerUdivmod _ hx _ w w
  | div | mod => exact agrees_lowerSdivmod _ hx d w
  | _ => exact agrees_pure .none

/-- A recorded lowering: its steps, and the slot that holds its result. -/
structure Recorded where
  steps : List Step
  out : ℕ

/-- The lowering's recorded sequence, where it does not decline. -/
def Recorded.of (c : ℕ → StateM (List Step) (Option ℕ)) : Option Recorded :=
  (c 0 []).1.map fun out => ⟨(c 0 []).2, out⟩

/-- The value of the recorded sequence at the numerator `n`; none where a step traps. -/
def Recorded.eval (r : Recorded) (n : Word) : Option Word := do (← replay n r.steps)[r.out]?

/-- What the evaluator computes is what the recorded sequence evaluates to, and the evaluator
declines where the recorder does. -/
theorem eval_of_agrees {c : ℕ → StateM (List Step) (Option ℕ)} {e : Option (Option Word)}
    (h : Agrees n [n] (c 0) e Result) {v : Option Word} (he : e = some v) :
    match v with
    | some x => ∃ r, Recorded.of c = some r ∧ r.eval n = some x
    | none => Recorded.of c = none := by
  obtain ⟨more, hreplay, hresult⟩ := h [] v rfl he
  cases v with
  | none =>
    unfold Result at hresult
    cases hc : (c 0 []).1 with
    | none => simp [Recorded.of, hc]
    | some out =>
      rw [hc] at hresult
      cases hresult
  | some x =>
    unfold Result at hresult
    cases hc : (c 0 []).1 with
    | none =>
      rw [hc] at hresult
      cases hresult
    | some out =>
      rw [hc] at hresult
      cases hresult with
      | some hslot =>
        refine ⟨⟨(c 0 []).2, out⟩, by simp [Recorded.of, hc], ?_⟩
        rw [Recorded.eval, hreplay]
        exact hslot

end Badc.Magic
