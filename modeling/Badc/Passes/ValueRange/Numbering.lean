import Badc.Ir.LowWord
import Badc.Lib.Numbering
import Badc.Ssa.Held

/-!
# Value numbers

`value_numbers` of `src/c5/codegen/passes/value_range.rs`: instructions computing the same pure
expression of the same values share a canonical id.  The source's key tuples are the constructors
of `NumKey`.

In every state of a run, held values of one canonical id hold the same
(`Reaches.regs_eq_of_canon`), where no division is marked for a 32-bit comparison only: a key
does not tell the two marks apart.
-/

namespace Badc

/-- Integer operators whose result is a function of the operand values alone. -/
def isPureInt (op : BinOp) : Bool := !isFpOp op

/-- Whether `v` computes a 32-bit comparison or division, another function of its operands. -/
def isNarrow (f : FunctionSsa) (v : ℕ) : Bool := isCmp32 f v || isNarrowDiv f v

/-- Expression identity of an instruction over canonical operand ids. -/
inductive NumKey
  | imm (k : Word)
  | localAddr (off : ℤ)
  | paramRef (idx : ℕ) (kind : LoadKind)
  | extend (value : ℕ) (kind : ExtendKind)
  | binopI (lhs : ℕ) (op : BinOp) (narrow : Bool) (k : Word)
  | binop (lhs rhs : ℕ) (op : BinOp) (narrow : Bool)
  deriving DecidableEq

/-- The key with its operand ids renamed. -/
def NumKey.map (g : ℕ → ℕ) : NumKey → NumKey
  | .extend value kind => .extend (g value) kind
  | .binopI lhs op narrow k => .binopI (g lhs) op narrow k
  | .binop lhs rhs op narrow => .binop (g lhs) (g rhs) op narrow
  | key => key

/-- The key of an instruction; an address a fixup resolves, and what is no pure expression, has
none. -/
def numKey (f : FunctionSsa) (canon : ℕ → ℕ) (i : ℕ) : Option NumKey :=
  match f.insts[i]? with
  | some (.imm k) => some (.imm k)
  | some (.localAddr off) => some (.localAddr off)
  | some (.paramRef idx kind) => some (.paramRef idx kind)
  | some (.extend value kind _) => some (.extend (canon value) kind)
  | some (.binopI op lhs k) =>
      if isPureInt op then some (.binopI (canon lhs) op (isNarrow f i) k) else none
  | some (.binop op lhs rhs) =>
      if isPureInt op then some (.binop (canon lhs) (canon rhs) op (isNarrow f i)) else none
  | _ => none

/-- Canonical id per value, and the first instruction of each key. -/
abbrev Numbering := Numbers NumKey

/-- The canonical id of a value. -/
def Numbering.of (numbers : Numbering) (v : ℕ) : ℕ := numbers.canon v

/-- The canonical id of `Extend { v, I32 }` (signed) or `v & 0xffff_ffff`, when the function
computes it. -/
def Numbering.extensionOf (numbers : Numbering) (v : ℕ) (signed : Bool) : Option ℕ :=
  numbers.first.lookup <|
    if signed then .extend (numbers.of v) .i32 else .binopI (numbers.of v) .and false 0xffffffff

/-- The value numbers of a function. -/
def valueNumbers (f : FunctionSsa) : Numbering := Numbers.build (numKey f) f.insts.length

/-! ## Equal numbers, equal values -/

/-- The keys of a function's instructions. -/
def FunctionSsa.keyed (f : FunctionSsa) : Keyed NumKey where
  key := numKey f
  map := NumKey.map
  map_map g h k := by cases k <;> rfl
  key_comp g c x := by
    unfold numKey
    split <;> first | rfl | split <;> rfl

variable {f : FunctionSsa}

lemma valueNumbers_inv (f : FunctionSsa) : Numbers.Inv f.keyed f.insts.length (valueNumbers f) :=
  Numbers.inv_build f.keyed _

@[simp] lemma Numbering.of_of (f : FunctionSsa) (v : ℕ) :
    (valueNumbers f).of ((valueNumbers f).of v) = (valueNumbers f).of v :=
  (valueNumbers_inv f).idem v

/-- The operator of a binary instruction. -/
def Inst.op? : Inst → Option BinOp
  | .binop op .. | .binopI op .. => some op
  | _ => none

/-- No division is marked for a 32-bit comparison only. -/
def DivMarksAgree (f : FunctionSsa) : Prop :=
  ∀ (v : ℕ) inst op, f.insts[v]? = some inst → inst.op? = some op → isDivmodOp op = true →
    isCmp32 f v = true → isDiv32 f v = true

/-- The instruction a key stands for. -/
def NumKey.Fits (f : FunctionSsa) (canon : ℕ → ℕ) (i : ℕ) : NumKey → Prop
  | .imm k => f.insts[i]? = some (.imm k)
  | .localAddr off => f.insts[i]? = some (.localAddr off)
  | .paramRef idx kind => f.insts[i]? = some (.paramRef idx kind)
  | .extend c kind => ∃ value nsw, f.insts[i]? = some (.extend value kind nsw) ∧ canon value = c
  | .binopI c op narrow k => ∃ lhs, f.insts[i]? = some (.binopI op lhs k) ∧ canon lhs = c ∧
      isPureInt op = true ∧ isNarrow f i = narrow
  | .binop c d op narrow => ∃ lhs rhs, f.insts[i]? = some (.binop op lhs rhs) ∧ canon lhs = c ∧
      canon rhs = d ∧ isPureInt op = true ∧ isNarrow f i = narrow

/-- A key stands for its instruction. -/
lemma NumKey.fits {canon : ℕ → ℕ} {i : ℕ} {key : NumKey} (h : numKey f canon i = some key) :
    key.Fits f canon i := by
  unfold numKey at h
  split at h
  · obtain rfl := Option.some.inj h
    assumption
  · obtain rfl := Option.some.inj h
    assumption
  · obtain rfl := Option.some.inj h
    assumption
  · obtain rfl := Option.some.inj h
    exact ⟨_, _, ‹_›, rfl⟩
  · obtain ⟨hpure, h⟩ := Option.ite_none_right_eq_some.mp h
    obtain rfl := Option.some.inj h
    exact ⟨_, ‹_›, rfl, hpure, rfl⟩
  · obtain ⟨hpure, h⟩ := Option.ite_none_right_eq_some.mp h
    obtain rfl := Option.some.inj h
    exact ⟨_, _, ‹_›, rfl, rfl, hpure, rfl⟩
  · cases h

/-- A keyed instruction is pure. -/
lemma role_of_numKey {canon : ℕ → ℕ} {u : ℕ} {key : NumKey} (h : numKey f canon u = some key) :
    ∃ inst, f.insts[u]? = some inst ∧ inst.role = .pure := by
  have hfit := NumKey.fits h
  cases key with
  | imm k | localAddr k | paramRef idx k => exact ⟨_, hfit, rfl⟩
  | extend c kind =>
    obtain ⟨value, nsw, hinst, -⟩ := hfit
    exact ⟨_, hinst, rfl⟩
  | binopI c op narrow k =>
    obtain ⟨lhs, hinst, -⟩ := hfit
    exact ⟨_, hinst, rfl⟩
  | binop c d op narrow =>
    obtain ⟨lhs, rhs, hinst, -⟩ := hfit
    exact ⟨_, hinst, rfl⟩

/-- On a division, the key tells the 32-bit form. -/
lemma isNarrow_of_div (hmarks : DivMarksAgree f) {v : ℕ} {inst : Inst} {op : BinOp}
    (hinst : f.insts[v]? = some inst) (hop : inst.op? = some op) (hdiv : isDivmodOp op = true) :
    isNarrow f v = isDiv32 f v := by
  have hm := hmarks v inst op hinst hop hdiv
  have hd : isNarrowDiv f v = isDiv32 f v := by
    cases inst with
    | binop op' lhs rhs | binopI op' lhs rhs =>
      obtain rfl := Option.some.inj hop
      simp [isNarrowDiv, hinst, hdiv]
    | _ => cases hop
  rw [isNarrow, hd]
  cases hc : isCmp32 f v with
  | true => rw [hm hc, Bool.or_self]
  | false => rw [Bool.false_or]

/-- On a comparison, the key tells the 32-bit form. -/
lemma isNarrow_of_cmp {v : ℕ} {inst : Inst} {op : BinOp} (hinst : f.insts[v]? = some inst)
    (hop : inst.op? = some op) (hcmp : isIntComparisonOp op = true) :
    isNarrow f v = isCmp32 f v := by
  have hdiv : isDivmodOp op = false := by cases op <;> first | rfl | cases hcmp
  have hd : isNarrowDiv f v = false := by
    cases inst with
    | binop op' lhs rhs | binopI op' lhs rhs =>
      obtain rfl := Option.some.inj hop
      simp [isNarrowDiv, hinst, hdiv]
    | _ => cases hop
  rw [isNarrow, hd, Bool.or_false]

namespace Machine

variable {m : Machine} {w : World m.Ext} {s : State m.Ext}

/-- An integer operation is a function of its operands and of what its key tells. -/
lemma binop_congr (hmarks : DivMarksAgree f) {u v : ℕ} {iu iv : Inst} {op : BinOp} {x y : Word}
    (hiu : f.insts[u]? = some iu) (hiv : f.insts[v]? = some iv) (hu : iu.op? = some op)
    (hv : iv.op? = some op) (hpure : isPureInt op = true) (hnarrow : isNarrow f u = isNarrow f v) :
    m.binop f u op x y = m.binop f v op x y := by
  have hfp : isFpOp op = false := by simpa [isPureInt] using hpure
  simp only [binop, hfp, Bool.false_eq_true, if_false]
  cases hd : isDivmodOp op with
  | true =>
    have hc : isIntComparisonOp op = false := by cases op <;> first | rfl | cases hd
    rw [isNarrow_of_div hmarks hiu hu hd, isNarrow_of_div hmarks hiv hv hd] at hnarrow
    rw [hnarrow, hc]
    simp
  | false =>
    cases hc : isIntComparisonOp op with
    | true =>
      rw [isNarrow_of_cmp hiu hu hc, isNarrow_of_cmp hiv hv hc] at hnarrow
      rw [hnarrow]
      simp
    | false => simp

/-- Two instructions of one key compute the same from operands that agree where their ids do. -/
lemma pureWord_eq_of_numKey (hmarks : DivMarksAgree f) {canon : ℕ → ℕ} {u v : ℕ} {key : NumKey}
    {iu iv : Inst} {regs : Regs} {x y : Word} (hu : numKey f canon u = some key)
    (hv : numKey f canon v = some key) (hiu : f.insts[u]? = some iu) (hiv : f.insts[v]? = some iv)
    (hops : ∀ o ∈ iu.operands, ∀ o' ∈ iv.operands, canon o = canon o' → ∀ a b,
      regs.word o = some a → regs.word o' = some b → a = b)
    (hx : m.pureWord f u regs iu = some x) (hy : m.pureWord f v regs iv = some y) : x = y := by
  have hfu := NumKey.fits hu
  have hfv := NumKey.fits hv
  cases key with
  | imm k | localAddr k | paramRef idx k =>
    obtain rfl := Option.some.inj (hiu.symm.trans hfu)
    obtain rfl := Option.some.inj (hiv.symm.trans hfv)
    exact Option.some.inj (hx.symm.trans hy)
  | extend c kind =>
    obtain ⟨o, nsw, hiu', hc⟩ := hfu
    obtain ⟨o', nsw', hiv', hc'⟩ := hfv
    obtain rfl := Option.some.inj (hiu.symm.trans hiu')
    obtain rfl := Option.some.inj (hiv.symm.trans hiv')
    obtain ⟨a, ha, rfl⟩ := Option.map_eq_some_iff.mp hx
    obtain ⟨b, hb, rfl⟩ := Option.map_eq_some_iff.mp hy
    rw [hops o (by simp [Inst.operands]) o' (by simp [Inst.operands]) (hc.trans hc'.symm) a b ha hb]
  | binopI c op narrow k =>
    obtain ⟨o, hiu', hc, hpure, hn⟩ := hfu
    obtain ⟨o', hiv', hc', -, hn'⟩ := hfv
    obtain rfl := Option.some.inj (hiu.symm.trans hiu')
    obtain rfl := Option.some.inj (hiv.symm.trans hiv')
    simp only [pureWord, bind, Option.bind_eq_some_iff] at hx hy
    obtain ⟨a, ha, hx⟩ := hx
    obtain ⟨b, hb, hy⟩ := hy
    obtain rfl := hops o (by simp [Inst.operands]) o' (by simp [Inst.operands])
      (hc.trans hc'.symm) a b ha hb
    rw [binop_congr hmarks hiu hiv rfl rfl hpure (hn.trans hn'.symm)] at hx
    exact Option.some.inj (hx.symm.trans hy)
  | binop c d op narrow =>
    obtain ⟨o, p, hiu', hc, hd, hpure, hn⟩ := hfu
    obtain ⟨o', p', hiv', hc', hd', -, hn'⟩ := hfv
    obtain rfl := Option.some.inj (hiu.symm.trans hiu')
    obtain rfl := Option.some.inj (hiv.symm.trans hiv')
    simp only [pureWord, bind, Option.bind_eq_some_iff] at hx hy
    obtain ⟨a, ha, e, he, hx⟩ := hx
    obtain ⟨b, hb, e', he', hy⟩ := hy
    obtain rfl := hops o (by simp [Inst.operands]) o' (by simp [Inst.operands])
      (hc.trans hc'.symm) a b ha hb
    obtain rfl := hops p (by simp [Inst.operands]) p' (by simp [Inst.operands])
      (hd.trans hd'.symm) e e' he he'
    rw [binop_congr hmarks hiu hiv rfl rfl hpure (hn.trans hn'.symm)] at hx
    exact Option.some.inj (hx.symm.trans hy)

lemma not_isPhi_of_numKey {canon : ℕ → ℕ} {u : ℕ} {key : NumKey}
    (h : numKey f canon u = some key) : ¬ IsPhi f u := by
  obtain ⟨inst, hinst, hrole⟩ := role_of_numKey h
  rintro ⟨inst', hinst', hphi⟩
  rw [hinst] at hinst'
  rw [← Option.some.inj hinst', isPhi_of_role_pure hrole] at hphi
  cases hphi

/-- What an instruction computes equals what a held instruction of the same key holds, where
held values of one canonical id hold the same. -/
lemma Reaches.exec_eq_of_numKey (hf : Verified f) (hmarks : DivMarksAgree f)
    (h : m.Reaches f w s) {blk : Block} (hblk : f.blocks[s.block]? = some blk)
    (hsame : ∀ u v, Held f s.block s.pc u → Held f s.block s.pc v →
      (valueNumbers f).of u = (valueNumbers f).of v → s.regs u = s.regs v)
    (hpc : InBlock f s.pc s.block) {inst : Inst} (hinst : f.insts[s.pc]? = some inst)
    {r : Regs × World m.Ext} (hr : m.exec f s.pc s.regs s.world inst = some r) {v : ℕ}
    (hv : Held f s.block s.pc v) {key : NumKey}
    (hkpc : numKey f (valueNumbers f).canon s.pc = some key)
    (hkv : numKey f (valueNumbers f).canon v = some key) : r.1 s.pc = s.regs v := by
  have hreach := (h.placed hf hblk).1
  obtain ⟨inst', hinst', hrole⟩ := role_of_numKey hkpc
  obtain rfl := Option.some.inj (hinst.symm.trans hinst')
  obtain ⟨iv, hiv, hrv⟩ := role_of_numKey hkv
  obtain ⟨x, hx, rfl⟩ := exec_pure hrole hr
  obtain ⟨y, hy, hye⟩ := h.pure_eq hf hblk hv hiv hrv
  have hops : ∀ o ∈ inst.operands, ∀ o' ∈ iv.operands,
      (valueNumbers f).canon o = (valueNumbers f).canon o' → ∀ a b,
      s.regs.word o = some a → s.regs.word o' = some b → a = b := by
    intro o ho o' ho' hc a b ha hb
    obtain ⟨hne, hra⟩ := Regs.get_eq_some (Regs.word_eq_some.mp ha)
    obtain ⟨hne', hrb⟩ := Regs.get_eq_some (Regs.word_eq_some.mp hb)
    have := hsame o o'
      (hf.reads _ _ _ hreach hpc hinst (isPhi_of_role_pure hrole) o ho hne).held
      (hv.operand hf hiv (isPhi_of_role_pure hrv) hreach ho' hne') hc
    rw [hra, hrb] at this
    exact Val.word.inj (Option.some.inj this)
  dsimp only
  rw [Regs.set_self, hy, pureWord_eq_of_numKey hmarks hkpc hkv hinst hiv hops hx hye]

/-- Held values of one canonical id hold the same. -/
theorem Reaches.regs_eq_of_canon (hf : Verified f) (hmarks : DivMarksAgree f)
    (h : m.Reaches f w s) {u v : ℕ} (hu : Held f s.block s.pc u) (hv : Held f s.block s.pc v)
    (hc : (valueNumbers f).of u = (valueNumbers f).of v) : s.regs u = s.regs v := by
  induction h generalizing u v with
  | initial => rfl
  | step hs hstep ih =>
    rename_i s₀ s'
    by_cases huv : u = v
    · rw [huv]
    -- Both have a key, so neither is a phi.
    have hinv := valueNumbers_inv f
    obtain ⟨key, hku⟩ : ∃ key, numKey f (valueNumbers f).canon u = some key :=
      Option.isSome_iff_exists.mp (hinv.key_isSome hc huv)
    have hkv : numKey f (valueNumbers f).canon v = some key := (hinv.key_eq hc).symm.trans hku
    obtain ⟨blk, hblk, ⟨hlt, inst, r, hinst, hr, rfl⟩ | ⟨hge, b, blk', hb, hblk', rfl⟩⟩ :=
      step_cases hstep
    · have hpc : InBlock f s₀.pc s₀.block := ⟨blk, hblk, (hs.placed hf hblk).2.1, hlt⟩
      obtain ⟨x, hx⟩ := exec_regs hr
      dsimp only at hu hv ⊢
      have hold : ∀ o, Held f s₀.block (s₀.pc + 1) o → o ≠ s₀.pc →
          Held f s₀.block s₀.pc o ∧ r.1 o = s₀.regs o := by
        intro o ho hne
        refine ⟨ho.of_succ.resolve_left fun h => hne h.1, ?_⟩
        rw [hx, Regs.set_of_ne hne]
      by_cases hupc : u = s₀.pc
      · subst hupc
        obtain ⟨hv₀, hrv⟩ := hold v hv (Ne.symm huv)
        rw [hrv]
        exact hs.exec_eq_of_numKey hf hmarks hblk (fun _ _ => ih) hpc hinst hr hv₀ hku hkv
      · obtain ⟨hu₀, hru⟩ := hold u hu hupc
        by_cases hvpc : v = s₀.pc
        · subst hvpc
          rw [hru]
          exact (hs.exec_eq_of_numKey hf hmarks hblk (fun _ _ => ih) hpc hinst hr hu₀ hkv hku).symm
        · obtain ⟨hv₀, hrv⟩ := hold v hv hvpc
          rw [hru, hrv]
          exact ih hu₀ hv₀ hc
    · have hreach := (hs.placed hf hblk).1
      have hedge := branchTo_edge hblk hb
      dsimp only at hu hv ⊢
      obtain ⟨hnu, hu₀⟩ := (hu.of_enter hf hreach hedge hblk hge hblk').resolve_left
        fun h => not_isPhi_of_numKey hku h.2
      obtain ⟨hnv, hv₀⟩ := (hv.of_enter hf hreach hedge hblk hge hblk').resolve_left
        fun h => not_isPhi_of_numKey hkv h.2
      rw [enterRegs_of_notMem hblk' hnu, enterRegs_of_notMem hblk' hnv]
      exact ih hu₀ hv₀ hc

/-- The key of the id of an extension. -/
lemma numKey_of_extensionOf {v c : ℕ} {signed : Bool}
    (h : (valueNumbers f).extensionOf v signed = some c) :
    numKey f (valueNumbers f).canon c = some
      (if signed then .extend ((valueNumbers f).of v) .i32
        else .binopI ((valueNumbers f).of v) .and false 0xffffffff) := by
  have hkey := ((valueNumbers_inv f).first _ _ h).2.2
  change numKey f _ c = _ at hkey
  rw [hkey]
  cases signed
  · simp only [Bool.false_eq_true, if_false]
    exact congrArg (fun c => some (NumKey.binopI c .and false 0xffffffff)) (Numbering.of_of f v)
  · simp only [if_true]
    exact congrArg (fun c => some (NumKey.extend c .i32)) (Numbering.of_of f v)

/-- A held value with the canonical id of a value's extension holds the extension of what the
value holds. -/
theorem Reaches.regs_of_extensionOf (hf : Verified f) (hmarks : DivMarksAgree f)
    (h : m.Reaches f w s) {blk : Block} (hblk : f.blocks[s.block]? = some blk) {u v : ℕ}
    {signed : Bool} {y : Word} (hu : Held f s.block s.pc u) (hv : Held f s.block s.pc v)
    (hext : (valueNumbers f).extensionOf v signed = some ((valueNumbers f).of u))
    (hy : s.regs v = some (.word y)) :
    s.regs u = some (.word (if signed then sext32 y else zext32 y)) := by
  have hreach := (h.placed hf hblk).1
  -- The key of `u` is the one looked up.
  have hkey : numKey f (valueNumbers f).canon u = some
      (if signed then .extend ((valueNumbers f).of v) .i32
        else .binopI ((valueNumbers f).of v) .and false 0xffffffff) := by
    rw [← numKey_of_extensionOf hext]
    exact ((valueNumbers_inv f).key_canon u).symm
  -- Its operand is held and has the canonical id of `v`.
  have hoperand : ∀ {inst : Inst} {o : ℕ} {a : Word}, f.insts[u]? = some inst →
      inst.role = .pure → o ∈ inst.operands →
      (valueNumbers f).of o = (valueNumbers f).of v → s.regs.word o = some a → a = y := by
    intro inst o a hinst hrole ho hc ha
    obtain ⟨hne, hra⟩ := Regs.get_eq_some (Regs.word_eq_some.mp ha)
    have := h.regs_eq_of_canon hf hmarks
      (hu.operand hf hinst (isPhi_of_role_pure hrole) hreach ho hne) hv hc
    rw [hra, hy] at this
    exact Val.word.inj (Option.some.inj this)
  cases signed with
  | true =>
    obtain ⟨o, nsw, hinst, hc⟩ := NumKey.fits hkey
    obtain ⟨x, hx, hxe⟩ := h.pure_eq hf hblk hu hinst rfl
    obtain ⟨a, ha, rfl⟩ := Option.map_eq_some_iff.mp hxe
    rw [hx, hoperand hinst rfl (by simp [Inst.operands]) hc ha]
    rfl
  | false =>
    obtain ⟨o, hinst, hc, -⟩ := NumKey.fits hkey
    obtain ⟨x, hx, hxe⟩ := h.pure_eq hf hblk hu hinst rfl
    simp only [pureWord, bind, Option.bind_eq_some_iff] at hxe
    obtain ⟨a, ha, hxe⟩ := hxe
    obtain rfl := hoperand hinst rfl (by simp [Inst.operands]) hc ha
    have hval : m.binop f u .and a 0xffffffff = some (a &&& 0xffffffff) := by
      simp [binop, isFpOp, isFpArithOp, isFpComparisonOp, isDivmodOp, isIntComparisonOp, divTraps,
        applyBinop]
    rw [hval] at hxe
    rw [hx, ← Option.some.inj hxe, and_lowMask]
    rfl

end Machine

end Badc
