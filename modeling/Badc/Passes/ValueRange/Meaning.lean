import Badc.Passes.ValueRange.Walk
import Badc.Ssa.Memory

/-!
# What a fact says

A fact bounds what its key denotes at a point of a run: a value in scope, an expression over
values in scope, or what a load would read from memory now (`Den`).  Values of one canonical id
agree, so a key denotes one thing (`Den.unique`), and what it denotes stays as long as the values
in scope stay and, for a load key, memory does (`Den.keep`).  `Known` says that a map of facts is
true at a point.
-/

namespace Badc

namespace Machine

variable (m : Machine)

/-- An integer operation at the width a key names. -/
def intBinop (op : BinOp) (narrow : Bool) (x y : Word) : Option Word :=
  if isDivmodOp op && narrow then
    if m.divTraps op (sext32 x) (sext32 y) (sext32 (BitVec.ofNat 64 (2 ^ 31))) then none
    else foldDiv32 op x y
  else if isIntComparisonOp op && narrow then foldAtWidth op x y true
  else if m.divTraps op x y wordMin then none
  else applyBinop op x y

variable {m}

/-- An integer operation is the one its key names. -/
lemma binop_eq_intBinop {f : FunctionSsa} (hmarks : DivMarksAgree f) {v : ℕ} {inst : Inst}
    {op : BinOp} {x y : Word} (hinst : f.insts[v]? = some inst) (hop : inst.op? = some op)
    (hpure : isPureInt op = true) : m.binop f v op x y = m.intBinop op (isNarrow f v) x y := by
  have hfp : isFpOp op = false := by simpa [isPureInt] using hpure
  simp only [binop, intBinop, hfp, Bool.false_eq_true, if_false]
  cases hd : isDivmodOp op with
  | true =>
    have hc : isIntComparisonOp op = false := by cases op <;> first | rfl | cases hd
    rw [isNarrow_of_div hmarks hinst hop hd, hc]
    simp only [Bool.false_and]
  | false =>
    cases hc : isIntComparisonOp op with
    | true => rw [isNarrow_of_cmp hinst hop hc]; simp
    | false => simp

lemma loaded_congr {kind : LoadKind} (h : kind.isFloating = false) (single single' : Bool)
    (mem : Mem) (a : Word) : m.loaded single mem a kind = m.loaded single' mem a kind := by
  cases kind <;> first | rfl | cases h

end Machine

namespace ValueRange

/-- A point of a run: the values in scope, the registers and memory. -/
structure Point where
  held : ℕ → Prop
  regs : Regs
  mem : Mem

/-- The point a state stands at. -/
def Point.of (f : FunctionSsa) {Ext : Type} (s : State Ext) : Point :=
  ⟨Held f s.block s.pc, s.regs, s.world.mem⟩

variable (m : Machine) (f : FunctionSsa)

/-- A value in scope with canonical id `c` holds the word `x`. -/
def Point.Names (f : FunctionSsa) (p : Point) (c : ℕ) (x : Word) : Prop :=
  ∃ u, p.held u ∧ (valueNumbers f).of u = c ∧ p.regs u = some (.word x)

/-- Whether a key names a floating-point object in memory. -/
def FactKey.isFloating : FactKey → Bool
  | .load _ kind _ | .loadLocal _ kind _ | .loadIndexed _ _ _ _ kind => kind.isFloating
  | _ => false

/-- The precision mark of the loads of a key; an integer load has either. -/
def Single (key : FactKey) (single : Bool) : Prop :=
  key.isFloating = true →
    ∃ v, loadExprKey f (valueNumbers f) v = some key ∧ isMarked f.f32Values v = single

/-- What a key denotes at a point. -/
def Den (p : Point) : FactKey → Option Val → Prop
  | .own c, y => ∃ u, p.held u ∧ (valueNumbers f).of u = c ∧ y = p.regs u
  | .imm k, y => y = some (.word k)
  | .extend c kind, y => ∃ x, p.Names f c x ∧ y = some (.word (evalExtend x kind))
  | .binopI c op narrow k, y => ∃ x, p.Names f c x ∧ y = (m.intBinop op narrow x k).map .word
  | .binop c d op narrow, y =>
      ∃ x x', p.Names f c x ∧ p.Names f d x' ∧ y = (m.intBinop op narrow x x').map .word
  | .load c kind disp, y => ∃ x single, p.Names f c x ∧ Single f (.load c kind disp) single ∧
      y = some (m.loaded single p.mem (x + BitVec.ofInt 64 disp) kind)
  | .loadLocal disp kind off, y => ∃ single, Single f (.loadLocal disp kind off) single ∧
      y = some (m.loaded single p.mem (m.slot off disp) kind)
  | .loadIndexed c d ext scale kind, y => ∃ x x' single, p.Names f c x ∧ p.Names f d x' ∧
      Single f (.loadIndexed c d ext scale kind) single ∧
      y = some (m.loaded single p.mem (x + readIndex x' ext * BitVec.ofNat 64 scale) kind)

/-- Loads of a floating kind that share a key share their precision mark. -/
def FpLoadsAgree : Prop :=
  ∀ u v key, loadExprKey f (valueNumbers f) u = some key →
    loadExprKey f (valueNumbers f) v = some key → key.isFloating = true →
    isMarked f.f32Values u = isMarked f.f32Values v

/-- Values in scope of one canonical id hold the same. -/
def Point.Agrees (f : FunctionSsa) (p : Point) : Prop :=
  ∀ u v, p.held u → p.held v → (valueNumbers f).of u = (valueNumbers f).of v → p.regs u = p.regs v

variable {m f} {p p' : Point} {key : FactKey} {y y' : Option Val} {c : ℕ} {x x' : Word}

lemma Point.Names.unique (hp : p.Agrees f) (h : p.Names f c x) (h' : p.Names f c x') : x = x' := by
  obtain ⟨u, hu, hc, hx⟩ := h
  obtain ⟨v, hv, hc', hx'⟩ := h'
  have := hp u v hu hv (hc.trans hc'.symm)
  rw [hx, hx'] at this
  exact Val.word.inj (Option.some.inj this)

/-- Loads of a key read the same. -/
lemma loaded_of_single (hfp : FpLoadsAgree f) {kind : LoadKind} {single single' : Bool}
    (hkind : key.isFloating = kind.isFloating) (h : Single f key single) (h' : Single f key single')
    (mem : Mem) (a : Word) : m.loaded single mem a kind = m.loaded single' mem a kind := by
  cases hk : kind.isFloating with
  | false => exact Machine.loaded_congr hk _ _ _ _
  | true =>
    rw [hk] at hkind
    obtain ⟨u, hu, rfl⟩ := h hkind
    obtain ⟨v, hv, rfl⟩ := h' hkind
    rw [hfp u v key hu hv hkind]

/-- A key denotes one thing. -/
lemma Den.unique (hfp : FpLoadsAgree f) (hp : p.Agrees f) (h : Den m f p key y)
    (h' : Den m f p key y') : y = y' := by
  cases key with
  | own c =>
    obtain ⟨u, hu, hc, rfl⟩ := h
    obtain ⟨v, hv, hc', rfl⟩ := h'
    exact hp u v hu hv (hc.trans hc'.symm)
  | imm k => exact h.trans h'.symm
  | extend c kind | binopI c op narrow k =>
    obtain ⟨x, hx, rfl⟩ := h
    obtain ⟨x', hx', rfl⟩ := h'
    rw [hx.unique hp hx']
  | binop c d op narrow =>
    obtain ⟨x, z, hx, hz, rfl⟩ := h
    obtain ⟨x', z', hx', hz', rfl⟩ := h'
    rw [hx.unique hp hx', hz.unique hp hz']
  | load c kind disp =>
    obtain ⟨x, single, hx, hs, rfl⟩ := h
    obtain ⟨x', single', hx', hs', rfl⟩ := h'
    rw [hx.unique hp hx', loaded_of_single hfp rfl hs hs']
  | loadLocal disp kind off =>
    obtain ⟨single, hs, rfl⟩ := h
    obtain ⟨single', hs', rfl⟩ := h'
    rw [loaded_of_single hfp rfl hs hs']
  | loadIndexed c d ext scale kind =>
    obtain ⟨x, z, single, hx, hz, hs, rfl⟩ := h
    obtain ⟨x', z', single', hx', hz', hs', rfl⟩ := h'
    rw [hx.unique hp hx', hz.unique hp hz', loaded_of_single hfp rfl hs hs']

/-- The values in scope at one point stay at another. -/
def Point.Keeps (p p' : Point) : Prop := ∀ u, p.held u → p'.held u ∧ p'.regs u = p.regs u

lemma Point.Names.keep (hk : p.Keeps p') (h : p.Names f c x) : p'.Names f c x := by
  obtain ⟨u, hu, hc, hx⟩ := h
  exact ⟨u, (hk u hu).1, hc, (hk u hu).2.trans hx⟩

/-- What a key denotes stays. -/
lemma Den.keep (hk : p.Keeps p') (hmem : key.isLoad = true → p'.mem = p.mem)
    (h : Den m f p key y) : Den m f p' key y := by
  cases key with
  | own c =>
    obtain ⟨u, hu, hc, rfl⟩ := h
    exact ⟨u, (hk u hu).1, hc, (hk u hu).2.symm⟩
  | imm k => exact h
  | extend c kind | binopI c op narrow k =>
    obtain ⟨x, hx, rfl⟩ := h
    exact ⟨x, hx.keep hk, rfl⟩
  | binop c d op narrow =>
    obtain ⟨x, z, hx, hz, rfl⟩ := h
    exact ⟨x, z, hx.keep hk, hz.keep hk, rfl⟩
  | load c kind disp =>
    obtain ⟨x, single, hx, hs, rfl⟩ := h
    exact ⟨x, single, hx.keep hk, hs, by rw [hmem rfl]⟩
  | loadLocal disp kind off =>
    obtain ⟨single, hs, rfl⟩ := h
    exact ⟨single, hs, by rw [hmem rfl]⟩
  | loadIndexed c d ext scale kind =>
    obtain ⟨x, z, single, hx, hz, hs, rfl⟩ := h
    exact ⟨x, z, single, hx.keep hk, hz.keep hk, hs, by rw [hmem rfl]⟩

variable (m f) in
/-- What a key denotes, a word, lies in a range. -/
def Holds (p : Point) (key : FactKey) (r : Range) : Prop :=
  ∃ y, Den m f p key y ∧ ∀ x, y = some (.word x) → r.Has x

variable (m f) in
/-- The facts are true at a point. -/
def Known (p : Point) (facts : Facts) : Prop :=
  ∀ key, facts.get key ≠ .univ → Holds m f p key (facts.get key)

variable {facts : Facts} {r : Range}

lemma Known.keep (hk : p.Keeps p')
    (hmem : ∀ key, key.isLoad = true → facts.get key ≠ .univ → p'.mem = p.mem)
    (h : Known m f p facts) : Known m f p' facts := by
  intro key hkey
  obtain ⟨y, hy, hr⟩ := h key hkey
  exact ⟨y, hy.keep hk fun hload => hmem key hload hkey, hr⟩

lemma Known.has (hfp : FpLoadsAgree f) (hp : p.Agrees f) (h : Known m f p facts)
    (hden : Den m f p key (some (.word x))) : (facts.get key).Has x := by
  by_cases hkey : facts.get key = .univ
  · rw [hkey]
    exact Range.has_univ x
  · obtain ⟨y, hy, hr⟩ := h key hkey
    exact hr x (hy.unique hfp hp hden)

lemma Known.set (h : Known m f p facts) (hr : Holds m f p key r) :
    Known m f p (facts.set key r) := by
  intro key' hkey'
  by_cases hk : key' = key
  · subst hk
    rw [Facts.get_set_self]
    exact hr
  · rw [Facts.get_set_of_ne hk] at hkey' ⊢
    exact h key' hkey'

lemma Known.holds_meet (hfp : FpLoadsAgree f) (hp : p.Agrees f) (h : Known m f p facts)
    (hr : Holds m f p key r) : Holds m f p key ((facts.get key).meet r) := by
  obtain ⟨y, hy, hr⟩ := hr
  refine ⟨y, hy, ?_⟩
  rintro x rfl
  exact Range.has_meet.mpr ⟨h.has hfp hp hy, hr x rfl⟩

lemma Known.narrow (hfp : FpLoadsAgree f) (hp : p.Agrees f) (h : Known m f p facts)
    (hr : Holds m f p key r) : Known m f p (facts.narrow key r) :=
  h.set (h.holds_meet hfp hp hr)

/-- Wiped facts stay true whatever memory becomes. -/
lemma Known.wipe (hn : facts.Noted) (hk : p.Keeps p') (h : Known m f p facts) :
    Known m f p' facts.wipeLoads := by
  obtain ⟨hother, hload, -⟩ := Facts.wipeLoads_spec hn
  intro key hkey
  cases hl : key.isLoad with
  | true => exact absurd (hload key hl) hkey
  | false =>
    rw [hother key hl] at hkey ⊢
    obtain ⟨y, hy, hr⟩ := h key hkey
    exact ⟨y, hy.keep hk (fun h => absurd (hl.symm.trans h) (by simp)), hr⟩

/-! ## In a state of a run -/

/-- The key of an operand, from its number key. -/
def NumKey.factKey (c : ℕ) : Option NumKey → FactKey
  | some (.imm k) => .imm k
  | some (.extend value kind) => .extend value kind
  | some (.binopI lhs op narrow k) => .binopI lhs op narrow k
  | some (.binop lhs rhs op narrow) => .binop lhs rhs op narrow
  | _ => .own c

/-- A fact key says what the number key says. -/
lemma keyOf_eq (f : FunctionSsa) (v : ℕ) : keyOf f (valueNumbers f) v =
    NumKey.factKey ((valueNumbers f).of v) (numKey f (valueNumbers f).canon v) := by
  unfold keyOf numKey
  cases f.insts[v]? with
  | none => rfl
  | some inst =>
    cases inst with
    | binopI op lhs k | binop op lhs rhs =>
      dsimp only
      split <;> rfl
    | _ => rfl

lemma keyOf_of (f : FunctionSsa) (v : ℕ) :
    keyOf f (valueNumbers f) ((valueNumbers f).of v) = keyOf f (valueNumbers f) v := by
  rw [keyOf_eq, keyOf_eq, Numbering.of_of]
  exact congrArg _ ((valueNumbers_inv f).key_canon v)

section State

variable {w : World m.Ext} {s : State m.Ext}

lemma agrees_of (hf : Verified f) (hmarks : DivMarksAgree f) (h : m.Reaches f w s) :
    (Point.of f s).Agrees f :=
  fun _ _ hu hv hc => h.regs_eq_of_canon hf hmarks hu hv hc

lemma names_of {v : ℕ} (hv : Held f s.block s.pc v) (hx : s.regs v = some (.word x)) :
    (Point.of f s).Names f ((valueNumbers f).of v) x :=
  ⟨v, hv, rfl, hx⟩

/-- In a state of a run, the key of a held value denotes what the value holds. -/
theorem den_keyOf (hf : Verified f) (hmarks : DivMarksAgree f) (h : m.Reaches f w s) {blk : Block}
    (hblk : f.blocks[s.block]? = some blk) {v : ℕ} (hv : Held f s.block s.pc v) :
    Den m f (Point.of f s) (keyOf f (valueNumbers f) v) (s.regs v) := by
  have hown : Den m f (Point.of f s) (.own ((valueNumbers f).of v)) (s.regs v) := ⟨v, hv, rfl, rfl⟩
  unfold keyOf
  split
  · rename_i k hinst
    obtain ⟨x, hx, hword⟩ := h.pure_eq hf hblk hv hinst rfl
    rw [hx, ← Option.some.inj hword]
    rfl
  · rename_i value kind nsw hinst
    obtain ⟨x, hx, hword⟩ := h.pure_eq hf hblk hv hinst rfl
    obtain ⟨a, ha, rfl⟩ := Option.map_eq_some_iff.mp hword
    obtain ⟨hheld, hra⟩ := h.held_word hf hblk hv hinst rfl (by simp [Inst.operands]) ha
    exact ⟨a, names_of hheld hra, hx⟩
  · rename_i op lhs k hinst
    split
    · rename_i hpure
      obtain ⟨x, hx, -⟩ := h.pure_eq hf hblk hv hinst rfl
      obtain ⟨a, ⟨hheld, hra⟩, hop⟩ := h.binopI_eq hf hblk hv hinst hx
      rw [Machine.binop_eq_intBinop hmarks hinst rfl hpure] at hop
      exact ⟨a, names_of hheld hra, by rw [hop, hx]; rfl⟩
    · exact hown
  · rename_i op lhs rhs hinst
    split
    · rename_i hpure
      obtain ⟨x, hx, -⟩ := h.pure_eq hf hblk hv hinst rfl
      obtain ⟨a, b, ⟨ha, hra⟩, ⟨hb, hrb⟩, hop⟩ := h.binop_eq hf hblk hv hinst hx
      rw [Machine.binop_eq_intBinop hmarks hinst rfl hpure] at hop
      exact ⟨a, b, names_of ha hra, names_of hb hrb, by rw [hop, hx]; rfl⟩
    · exact hown
  · exact hown

/-- In a state of a run in which a bound on a canonical id is met, its key denotes a word that
satisfies the bound. -/
lemma den_of_bounded (hf : Verified f) (hmarks : DivMarksAgree f) (h : m.Reaches f w s)
    {blk : Block} (hblk : f.blocks[s.block]? = some blk) {c : ℕ} {b : Bound}
    (hb : Machine.Bounded f s c b) :
    ∃ x, Den m f (Point.of f s) (keyOf f (valueNumbers f) c) (some (.word x)) ∧ b.Sat x := by
  obtain ⟨v, x, hv, hx, ⟨rfl, hsat⟩ | ⟨signed, hext, hsat⟩⟩ := hb
  · refine ⟨x, ?_, hsat⟩
    rw [keyOf_of, ← hx]
    exact den_keyOf hf hmarks h hblk hv
  · refine ⟨_, ?_, hsat⟩
    rw [keyOf_eq, Machine.numKey_of_extensionOf hext]
    cases signed with
    | true => exact ⟨x, names_of hv hx, rfl⟩
    | false =>
      refine ⟨x, names_of hv hx, ?_⟩
      have hand : m.intBinop .and false x 0xffffffff = some (x &&& 0xffffffff) := by
        simp [Machine.intBinop, isDivmodOp, isIntComparisonOp, Machine.divTraps, applyBinop]
      rw [hand, and_lowMask]
      rfl

end State

end ValueRange

end Badc
