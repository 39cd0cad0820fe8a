import Badc.Lib.Listing
import Badc.Linker.LayoutSpec

/-!
# When a settled layout stays

Passes repeat until two in a row have one fingerprint, and a last pass then lays the output out.  The
fingerprint records the addresses, sizes and load addresses of sections, the values of script symbols
and the veneer areas; the offsets of inputs, the alignments of sections, the names referenced and the
sizes of tables are read by the next pass too, but not recorded.  A layout can hence have a settled
fingerprint and still move in the last pass (`moved`).  Where two passes agree in what the fingerprint
leaves out as well, the last pass repeats the layout before it (`run_settled`).
-/

namespace Badc.Layout

open Script Pools

variable {δ : Type} {lk : Link δ} {f g : Bool} {s t : Pass δ} {oi start i : ℕ}

/-! ## Evaluation -/

/-- Two scopes give every name, section and function the same value. -/
structure ScopeAgree (sc sc' : Scope) : Prop where
  dot : sc.dot = sc'.dot
  symbol : ∀ n, (sc.symbol n).map Val.v = (sc'.symbol n).map Val.v
  maxPageSize : sc.maxPageSize = sc'.maxPageSize
  commonPageSize : sc.commonPageSize = sc'.commonPageSize
  findOut : sc.findOut = sc'.findOut
  out : ∀ n oi, sc.findOut n = some oi → sc.addr oi = sc'.addr oi ∧ sc.lma oi = sc'.lma oi ∧
    sc.size oi = sc'.size oi ∧ sc.align oi = sc'.align oi
  sizeofHeaders : sc.sizeofHeaders = sc'.sizeofHeaders
  defined : sc.defined = sc'.defined

lemma ScopeAgree.lookup {sc sc' : Scope} (h : ScopeAgree sc sc') (name : String) :
    (sc.lookup name).map Val.v = (sc'.lookup name).map Val.v := by
  unfold Scope.lookup
  split
  · exact congrArg some h.dot
  · exact h.symbol name

/-- Scopes that agree give expressions the same value; what it is relative to does not matter. -/
lemma ScopeAgree.evalInner {sc sc' : Scope} (h : ScopeAgree sc sc') (e : Expr) :
    (evalInner sc e).1.v = (evalInner sc' e).1.v := by
  induction e with
  | number n => rfl
  | symbol name =>
    have hl := h.lookup name
    unfold Script.evalInner
    cases hs : sc.lookup name with
    | some v =>
      rw [hs] at hl
      obtain ⟨v', hs', hv'⟩ := Option.map_eq_some_iff.mp hl.symm
      rw [hs']
      exact hv'.symm
    | none =>
      rw [hs] at hl
      rw [Option.map_eq_none_iff.mp hl.symm]
      dsimp only
      rw [h.maxPageSize, h.commonPageSize]
      split
      · rfl
      · split <;> rfl
  | unary op a iha => exact congrArg op.apply iha
  | binary op a b iha ihb => exact congrArg₂ op.apply iha ihb
  | ternary c a b ihc iha ihb =>
    unfold Script.evalInner
    dsimp only
    rw [ihc]
    split
    · exact iha
    · exact ihb
  | alignDot a iha => exact congrArg₂ alignWord h.dot iha
  | align2 v a ihv iha => exact congrArg₂ alignWord ihv iha
  | absolute a iha => exact iha
  | addr name =>
    unfold Script.evalInner
    rw [← h.findOut]
    cases hf : sc.findOut name with
    | some oi => exact (h.out name oi hf).1
    | none => rfl
  | loadaddr name =>
    unfold Script.evalInner
    rw [← h.findOut]
    cases hf : sc.findOut name with
    | some oi => exact (h.out name oi hf).2.1
    | none => rfl
  | sizeof name =>
    unfold Script.evalInner
    rw [← h.findOut]
    cases hf : sc.findOut name with
    | some oi => exact (h.out name oi hf).2.2.1
    | none => rfl
  | alignof name =>
    unfold Script.evalInner
    rw [← h.findOut]
    cases hf : sc.findOut name with
    | some oi => exact (h.out name oi hf).2.2.2
    | none => rfl
  | sizeofHeaders => exact h.sizeofHeaders
  | defined name => exact congrArg (fun d => ofBool (d name)) h.defined
  | min a b iha ihb =>
    unfold Script.evalInner
    dsimp only
    rw [iha, ihb]
  | max a b iha ihb =>
    unfold Script.evalInner
    dsimp only
    rw [iha, ihb]
  | assert a msg iha => exact iha

/-! ## What a pass carries -/

/-- The indices of a link are in range, and a fingerprint takes as many counts from any tables. -/
structure Link.Indexed (lk : Link δ) : Prop where
  opened : ∀ oi ∈ opens lk.stmts, oi < lk.outSecs.length
  placed : ∀ (i oi : ℕ), lk.fates[i]? = some (SecFate.placed oi) → oi < lk.outSecs.length
  counted : ∀ d d' : δ, (lk.counts d).length = (lk.counts d').length

/-- The value of a script symbol. -/
def ScriptSym.value (x : ScriptSym) : Word := x.val.v

/-- Two states that have the same values at the same point of a pass. -/
structure Agree (lk : Link δ) (s t : Pass δ) : Prop where
  dot : s.dot = t.dot
  now : ∀ n, (s.scriptNow n).map ScriptSym.value = (t.scriptNow n).map ScriptSym.value
  prev : ∀ n, (s.scriptPrev n).map ScriptSym.value = (t.scriptPrev n).map ScriptSym.value
  off : ∀ i, (s.placements i).off = (t.placements i).off
  out : ∀ oi < lk.outSecs.length, (s.outs oi).addr = (t.outs oi).addr ∧
    (s.outs oi).lma = (t.outs oi).lma ∧ (s.outs oi).size = (t.outs oi).size ∧
    (s.outs oi).align = (t.outs oi).align
  referenced : s.referenced = t.referenced
  lmaDelta : s.lmaDelta = t.lmaDelta
  veneers : ∀ oi < lk.outSecs.length, s.veneerReserve oi = t.veneerReserve oi
  phdrs : s.phdrs = t.phdrs
  tables : ∀ i, lk.synthSize s.tables i = lk.synthSize t.tables i

/-- Symbols of the objects have one value in states that agree. -/
lemma Agree.objectSymVal (hix : lk.Indexed) (h : Agree lk s t) (d : SymDef) :
    (lk.objectSymVal s d).map Val.v = (lk.objectSymVal t d).map Val.v := by
  cases d with
  | abs v => rfl
  | undefined => rfl
  | inSection i value =>
    unfold Link.objectSymVal
    dsimp only
    split
    · rename_i out hf
      rw [(h.out out (hix.placed i out hf)).1, h.off i]
      cases lk.placedOff i value with
      | none => rfl
      | some off =>
        cases lk.poolOf i with
        | none => rfl
        | some pool =>
          dsimp only
          rw [h.off pool.rep]
    · rfl

lemma map_asReference (x : Option ScriptSym) :
    (x.map fun y => y.val.asReference).map Val.v = x.map ScriptSym.value := by
  cases x with
  | none => rfl
  | some y =>
    unfold ScriptSym.value Val.asReference
    dsimp only [Option.map_some]
    split <;> rfl

/-- Names have one value in states that agree. -/
lemma Agree.symbolVal (hix : lk.Indexed) (h : Agree lk s t) (n : String) :
    (lk.symbolVal s n).map Val.v = (lk.symbolVal t n).map Val.v := by
  have hnow := h.now n
  have hprev := h.prev n
  have hobj : ((lk.globals n).bind fun x => lk.objectSymVal s x.value).map Val.v =
      ((lk.globals n).bind fun x => lk.objectSymVal t x.value).map Val.v := by
    cases lk.globals n with
    | none => rfl
    | some x => exact h.objectSymVal hix x.value
  unfold Link.symbolVal
  cases hs : s.scriptNow n with
  | some x =>
    rw [hs] at hnow
    obtain ⟨x', hs', hx'⟩ := Option.map_eq_some_iff.mp hnow.symm
    have href := map_asReference (some x)
    have href' := map_asReference (some x')
    rw [hs']
    dsimp only [Option.map_some] at href href' ⊢
    rw [href, href', hx']
  | none =>
    rw [hs] at hnow
    rw [Option.map_eq_none_iff.mp hnow.symm]
    dsimp only
    cases ho : (lk.globals n).bind fun x => lk.objectSymVal s x.value with
    | some v =>
      rw [ho] at hobj
      obtain ⟨v', ho', hv'⟩ := Option.map_eq_some_iff.mp hobj.symm
      rw [ho']
      exact congrArg some hv'.symm
    | none =>
      rw [ho] at hobj
      rw [Option.map_eq_none_iff.mp hobj.symm]
      dsimp only
      rw [map_asReference, map_asReference, hprev]

lemma isSome_eq_of_map {x y : Option ScriptSym} (h : x.map ScriptSym.value = y.map ScriptSym.value) :
    x.isSome = y.isSome := by
  rw [← Option.isSome_map, h, Option.isSome_map]

/-- States that agree give expressions scopes that agree. -/
lemma Agree.scope (hix : lk.Indexed) (h : Agree lk s t) (dot : ℕ) :
    ScopeAgree (lk.scope f s dot) (lk.scope g t dot) where
  dot := rfl
  symbol n := h.symbolVal hix n
  maxPageSize := rfl
  commonPageSize := rfl
  findOut := rfl
  out n oi hf := by
    obtain ⟨haddr, hlma, hsize, halign⟩ := h.out oi (List.findIdx?_eq_some_iff_findIdx_eq.mp hf).1
    dsimp only [Link.scope]
    rw [haddr, hlma, hsize, halign]
    exact ⟨rfl, rfl, rfl, rfl⟩
  sizeofHeaders := congrArg lk.sizeofHeaders h.phdrs
  defined := by
    funext n
    dsimp only [Link.scope]
    rw [isSome_eq_of_map (h.now n), isSome_eq_of_map (h.prev n)]

/-! ## The steps of a pass -/

lemma Agree.evalWithDot (hix : lk.Indexed) (h : Agree lk s t) (e : Expr) (dot : ℕ) :
    (lk.evalWithDot f s e dot).1.v = (lk.evalWithDot g t e dot).1.v ∧
      Agree lk (lk.evalWithDot f s e dot).2 (lk.evalWithDot g t e dot).2 :=
  ⟨(h.scope hix dot).evalInner e, { h with }⟩

lemma Agree.eval (hix : lk.Indexed) (h : Agree lk s t) (e : Expr) :
    (lk.eval f s e).1.v = (lk.eval g t e).1.v ∧ Agree lk (lk.eval f s e).2 (lk.eval g t e).2 := by
  unfold Link.eval
  rw [h.dot]
  exact h.evalWithDot hix e t.dot

lemma Agree.update (h : Agree lk s t) (n : String) {x y : ScriptSym} (hxy : x.value = y.value) :
    Agree lk { s with scriptNow := Function.update s.scriptNow n (some x) }
      { t with scriptNow := Function.update t.scriptNow n (some y) } := by
  refine { h with now := fun m => ?_ }
  dsimp only
  rw [Function.update_apply, Function.update_apply]
  split
  · exact congrArg some hxy
  · exact h.now m

/-- Defining a script symbol. -/
lemma Agree.define (hix : lk.Indexed) (h : Agree lk s t) (a : Assignment) :
    Agree lk (lk.define f s a) (lk.define g t a) := by
  have hend : Agree lk (if isEnd a.symbol then { s with foundEnd := true } else s)
      (if isEnd a.symbol then { t with foundEnd := true } else t) := by
    split
    · exact { h with }
    · exact h
  unfold Link.define
  dsimp only
  set s₁ := if isEnd a.symbol then { s with foundEnd := true } else s
  set t₁ := if isEnd a.symbol then { t with foundEnd := true } else t
  obtain ⟨hv, hst⟩ := @Agree.eval _ _ f g _ _ hix hend a.value
  have hcur := (@Agree.scope _ _ f g _ _ hix hend t₁.dot).lookup a.symbol
  have hcur' : (((lk.scope f s₁ s₁.dot).lookup a.symbol).map Val.v).getD 0 =
      (((lk.scope g t₁ t₁.dot).lookup a.symbol).map Val.v).getD 0 := by
    rw [hend.dot, hcur]
  refine hst.update a.symbol ?_
  unfold ScriptSym.value
  dsimp only
  rw [hcur', hv]
  split
  · exact hv
  · rfl

/-- Executing an assignment. -/
lemma Agree.execAssignment (hix : lk.Indexed) (h : Agree lk s t) (a : Assignment) (after : Bool) :
    Agree lk (lk.execAssignment f s a after) (lk.execAssignment g t a after) := by
  unfold Link.execAssignment
  split
  · obtain ⟨hv, hst⟩ := @Agree.eval _ _ f g _ _ hix h a.value
    dsimp only
    rw [hv, hst.dot]
    split
    · exact hst
    · exact { hst with dot := rfl }
  · split
    · rw [h.referenced]
      split
      · exact h
      · refine Agree.define hix ?_ a
        exact { h with referenced := rfl }
    · exact h.define hix a

/-- Executing an assertion. -/
lemma Agree.execAssert (hix : lk.Indexed) (h : Agree lk s t) (e : Expr) (msg : String) :
    Agree lk (lk.execAssert f s e msg) (lk.execAssert g t e msg) := by
  obtain ⟨-, hst⟩ := @Agree.eval _ _ f g _ _ hix h e
  unfold Link.execAssert
  dsimp only
  split
  · split
    · exact { hst with }
    · exact { hst with }
  · split
    · exact { hst with }
    · exact hst

/-! ## The walk over a section -/

variable {alloc : Bool} {lay : ChunkLayout}

lemma Agree.follow (h : Agree lk s t) (alloc : Bool) (start : ℕ) (lay : ChunkLayout) :
    Agree lk (s.follow alloc start lay) (t.follow alloc start lay) := by
  unfold Pass.follow
  split
  · exact { h with dot := rfl }
  · exact h

lemma Agree.place (h : Agree lk s t) (i : ℕ) (p : Placement) :
    Agree lk { s with placements := Function.update s.placements i p }
      { t with placements := Function.update t.placements i p } := by
  refine { h with off := fun j => ?_ }
  dsimp only
  rw [Function.update_apply, Function.update_apply]
  split
  · rfl
  · exact h.off j

lemma Agree.insecPlacedSize (h : Agree lk s t) (i : ℕ) :
    lk.insecPlacedSize s i = lk.insecPlacedSize t i := by
  unfold Link.insecPlacedSize
  rw [h.tables i]

/-- Two states of the walk over a section that agree and have laid the same chunks. -/
def Abreast (lk : Link δ) (p q : Pass δ × ChunkLayout) : Prop := Agree lk p.1 q.1 ∧ p.2 = q.2

variable {p q : Pass δ × ChunkLayout}

/-- Placing an input section. -/
lemma Abreast.placeInput (h : Abreast lk p q) (i : ℕ) :
    Abreast lk (lk.placeInput oi start alloc p i) (lk.placeInput oi start alloc q i) := by
  obtain ⟨s, lay⟩ := p
  obtain ⟨t, lay'⟩ := q
  obtain ⟨h, rfl⟩ : Agree lk s t ∧ lay = lay' := h
  unfold Link.placeInput
  dsimp only
  rw [h.insecPlacedSize i]
  split
  · exact ⟨h.place i _, rfl⟩
  · exact ⟨(h.place i _).follow alloc start _, rfl⟩

lemma Abreast.placeInputs (h : Abreast lk p q) (v : List ℕ) :
    Abreast lk (lk.placeInputs oi start alloc v p) (lk.placeInputs oi start alloc v q) := by
  induction v generalizing p q with
  | nil => exact h
  | cons i v ih => exact ih (h.placeInput i)

lemma Abreast.layVeneers (h : Abreast lk p q) (n : ℕ) :
    Abreast lk (layVeneers n start alloc p) (layVeneers n start alloc q) := by
  unfold Layout.layVeneers
  rw [h.2]
  exact ⟨h.1.follow alloc start _, rfl⟩

/-- Laying a piece, where the final pass reports nothing. -/
lemma Abreast.layOutPiece (hix : lk.Indexed) (hoi : oi < lk.outSecs.length) (h : Abreast lk p q)
    (piece : Piece) (veneers : Bool)
    (herr : (lk.layOutPiece true oi start alloc q piece veneers).1.errors = []) :
    Abreast lk (lk.layOutPiece false oi start alloc p piece veneers)
      (lk.layOutPiece true oi start alloc q piece veneers) := by
  obtain ⟨s, lay⟩ := p
  obtain ⟨t, lay'⟩ := q
  obtain ⟨h, rfl⟩ : Agree lk s t ∧ lay = lay' := h
  cases piece with
  | inputs v =>
    have hv : Abreast lk (lk.placeInputs oi start alloc v (s, lay))
        (lk.placeInputs oi start alloc v (t, lay)) := by
      refine Abreast.placeInputs ?_ v
      exact ⟨h, rfl⟩
    unfold Link.layOutPiece
    dsimp only
    rw [hv.1.veneers oi hoi]
    split
    · exact hv.layVeneers _
    · exact hv
  | assign a =>
    have ha := @Agree.execAssignment _ _ false true _ _ hix h a false
    unfold Link.layOutPiece at herr ⊢
    dsimp only at herr ⊢
    rw [ha.dot]
    split
    · -- below the start of the section only the final pass reports, and lays nothing
      rw [if_neg (by simp)]
      split
      · rename_i halloc hlow
        rw [if_pos halloc, if_pos hlow] at herr
        exact absurd herr (by simp)
      · exact ⟨ha, rfl⟩
    · exact ⟨ha, rfl⟩
  | assert e msg => exact ⟨@Agree.execAssert _ _ false true _ _ hix h e msg, rfl⟩
  | data w e =>
    obtain ⟨hv, hst⟩ := @Agree.eval _ _ false true _ _ hix h e
    unfold Link.layOutPiece
    dsimp only
    rw [hv]
    exact ⟨hst.follow alloc start _, rfl⟩
  | fill e =>
    obtain ⟨hv, hst⟩ := @Agree.eval _ _ false true _ _ hix h e
    unfold Link.layOutPiece
    dsimp only
    rw [hv]
    exact ⟨hst, rfl⟩

/-- Walking the pieces of a section, where the final pass reports nothing. -/
lemma Abreast.layOutPieces (hix : lk.Indexed) (hoi : oi < lk.outSecs.length) (h : Abreast lk p q)
    (ps : List Piece) (herr : (lk.layOutPieces true oi start alloc ps q).1.errors = []) :
    Abreast lk (lk.layOutPieces false oi start alloc ps p)
      (lk.layOutPieces true oi start alloc ps q) := by
  induction ps generalizing p q with
  | nil => exact h
  | cons piece ps ih =>
    have hstep : (lk.layOutPiece true oi start alloc q piece (!ps.any Piece.isInputs)).1.errors =
        [] := by
      obtain ⟨more, hm⟩ := (@kept_layOutPieces _ lk true oi start
        (lk.layOutPiece true oi start alloc q piece (!ps.any Piece.isInputs)) alloc ps).errors
      rw [Link.layOutPieces, hm] at herr
      exact (List.append_eq_nil_iff.mp herr).1
    exact ih (h.layOutPiece hix hoi piece _ hstep) herr

/-! ## An output section -/

/-- Giving an output section its address. -/
lemma Agree.placeSection (hix : lk.Indexed) (h : Agree lk s t) (oi : ℕ) :
    Agree lk (lk.placeSection f s oi).1 (lk.placeSection g t oi).1 ∧
      (lk.placeSection f s oi).2 = (lk.placeSection g t oi).2 := by
  have hattr : (lk.attrAlign f s oi).1 = (lk.attrAlign g t oi).1 ∧
      Agree lk (lk.attrAlign f s oi).2 (lk.attrAlign g t oi).2 := by
    unfold Link.attrAlign
    split
    · obtain ⟨hv, hst⟩ := @Agree.eval _ _ f g _ _ hix h ‹_›
      dsimp only
      rw [hv]
      exact ⟨rfl, hst⟩
    · exact ⟨rfl, h⟩
  obtain ⟨hal, hst⟩ := hattr
  unfold Link.placeSection
  dsimp only
  rw [hal]
  split
  · obtain ⟨hv, hst'⟩ := @Agree.eval _ _ f g _ _ hix hst ‹_›
    dsimp only
    rw [hv]
    refine ⟨?_, rfl⟩
    split
    · exact { hst' with dot := rfl }
    · exact hst'
  · rw [hst.dot]
    split
    · exact ⟨{ hst with dot := rfl }, rfl⟩
    · exact ⟨hst, rfl⟩

/-- Recording values of an output section that agree. -/
lemma Agree.setOut (h : Agree lk s t) (oi : ℕ) {o o' : OutVals}
    (ho : oi < lk.outSecs.length → o.addr = o'.addr ∧ o.lma = o'.lma ∧ o.size = o'.size ∧
      o.align = o'.align) :
    Agree lk (s.setOut oi o) (t.setOut oi o') := by
  refine { h with out := fun oj hoj => ?_ }
  unfold Pass.setOut
  dsimp only
  rw [Function.update_apply, Function.update_apply]
  split
  · rename_i heq
    exact ho (heq ▸ hoj)
  · exact h.out oj hoj

lemma Agree.openAt (h : Agree lk s t) (oi start : ℕ) :
    Agree lk (s.openAt oi start) (t.openAt oi start) := by
  unfold Pass.openAt
  refine Agree.setOut ?_ oi fun hoi => ?_
  · exact { h with }
  · exact ⟨rfl, (h.out oi hoi).2⟩

/-- The chunks before the pieces are walked. -/
lemma Agree.initLayout (hix : lk.Indexed) (h : Agree lk s t) (oi : ℕ) :
    Abreast lk (lk.initLayout f s oi) (lk.initLayout g t oi) := by
  unfold Link.initLayout
  cases (lk.outSec oi).fill with
  | some e =>
    obtain ⟨hv, hst⟩ := @Agree.eval _ _ f g _ _ hix h e
    dsimp only
    rw [hv]
    exact ⟨hst, rfl⟩
  | none => exact ⟨h, rfl⟩

/-- Bounding an output section with symbols. -/
lemma Agree.defineStartStop (h : Agree lk s t) (hoi : oi < lk.outSecs.length)
    (halloc : (s.outs oi).alloc = (t.outs oi).alloc) :
    Agree lk (lk.defineStartStop s oi) (lk.defineStartStop t oi) := by
  have hbound : ∀ (s t : Pass δ) (n : String) (x : ScriptSym), Agree lk s t →
      Agree lk
        (if (lk.globals n).isSome || lk.scriptAssigned n || !s.referenced n then s
          else { s with scriptNow := Function.update s.scriptNow n (some x) })
        (if (lk.globals n).isSome || lk.scriptAssigned n || !t.referenced n then t
          else { t with scriptNow := Function.update t.scriptNow n (some x) }) := by
    intro s t n x h
    rw [congrFun h.referenced n]
    split
    · exact h
    · exact h.update n rfl
  obtain ⟨haddr, -, hsize, -⟩ := h.out oi hoi
  unfold Link.defineStartStop
  dsimp only
  rw [halloc, haddr, hsize]
  split
  · exact h
  · simp only [List.foldl_cons, List.foldl_nil]
    exact hbound _ _ _ _ (hbound s t _ _ h)

/-- The load address of a section. -/
lemma Agree.loadAddress (hix : lk.Indexed) (h : Agree lk s t) (oi start : ℕ) :
    (lk.loadAddress f s oi start).1 = (lk.loadAddress g t oi start).1 ∧
      Agree lk (lk.loadAddress f s oi start).2 (lk.loadAddress g t oi start).2 := by
  unfold Link.loadAddress
  cases (lk.outSec oi).at with
  | some e =>
    obtain ⟨hv, hst⟩ := @Agree.evalWithDot _ _ f g _ _ hix h e start
    dsimp only
    rw [hv]
    exact ⟨rfl, { hst with lmaDelta := rfl }⟩
  | none =>
    dsimp only
    rw [h.lmaDelta]
    exact ⟨rfl, h⟩

lemma Agree.close (h : Agree lk s t) (hoi : oi < lk.outSecs.length)
    (halloc : (s.outs oi).alloc = (t.outs oi).alloc) :
    Agree lk { lk.defineStartStop s oi with curOut := none }
      { lk.defineStartStop t oi with curOut := none } := by
  have hbound := h.defineStartStop hoi halloc
  exact { hbound with }

/-- Recording an output section after its pieces are walked. -/
lemma Abreast.recordSection (hix : lk.Indexed) (hoi : oi < lk.outSecs.length) (h : Abreast lk p q)
    (secAlign savedDot : ℕ) :
    Agree lk (lk.recordSection f oi start secAlign savedDot p)
      (lk.recordSection g oi start secAlign savedDot q) := by
  obtain ⟨s, lay⟩ := p
  obtain ⟨t, lay'⟩ := q
  obtain ⟨h, rfl⟩ : Agree lk s t ∧ lay = lay' := h
  obtain ⟨haddr, hlma, -, -⟩ := h.out oi hoi
  unfold Link.recordSection
  dsimp only
  rw [haddr, hlma]
  have hset := h.setOut oi (o := lk.laid oi secAlign (t.outs oi).addr (t.outs oi).lma lay)
    fun _ => ⟨rfl, rfl, rfl, rfl⟩
  obtain ⟨hload, hst⟩ := @Agree.loadAddress _ _ f g
    { s.setOut oi (lk.laid oi secAlign (t.outs oi).addr (t.outs oi).lma lay) with
      dot := (start + lay.end) % 2 ^ 64 }
    { t.setOut oi (lk.laid oi secAlign (t.outs oi).addr (t.outs oi).lma lay) with
      dot := (start + lay.end) % 2 ^ 64 } hix { hset with dot := rfl } oi start
  refine Agree.close ?_ hoi ?_
  · split
    · rw [hload]
      exact hst.setOut oi fun _ => ⟨rfl, rfl, rfl, rfl⟩
    · refine Agree.setOut ?_ oi fun _ => ⟨rfl, rfl, rfl, rfl⟩
      exact { hset with dot := rfl }
  · split
    · simp [Pass.setOut, Link.laid]
    · simp [Pass.setOut, Link.laid]

/-- Laying out an output section, where the final pass reports nothing. -/
lemma Agree.layoutOutSection (hix : lk.Indexed) (hoi : oi < lk.outSecs.length) (h : Agree lk s t)
    (herr : (lk.layoutOutSection true t oi).errors = []) :
    Agree lk (lk.layoutOutSection false s oi) (lk.layoutOutSection true t oi) := by
  obtain ⟨hst, hplace⟩ := @Agree.placeSection _ _ false true _ _ hix h oi
  have hstart : (lk.placeSection false s oi).2.1 = (lk.placeSection true t oi).2.1 :=
    congrArg Prod.fst hplace
  have halign : (lk.placeSection false s oi).2.2 = (lk.placeSection true t oi).2.2 :=
    congrArg Prod.snd hplace
  have hinit := @Agree.initLayout _ _ false true _ _ hix
    (hst.openAt oi (lk.placeSection true t oi).2.1) oi
  unfold Link.layoutOutSection at herr ⊢
  dsimp only at herr ⊢
  rw [hstart, halign, hst.dot]
  refine Abreast.recordSection hix hoi (hinit.layOutPieces hix hoi _ ?_) _ _
  obtain ⟨-, -, -, more, hm⟩ := @recordSection_spec _ lk true oi (lk.placeSection true t oi).2.1
    (lk.layOutPieces true oi (lk.placeSection true t oi).2.1 (lk.allocated oi) (lk.outSec oi).pieces
      (lk.initLayout true ((lk.placeSection true t oi).1.openAt oi (lk.placeSection true t oi).2.1)
        oi)) (lk.placeSection true t oi).2.2 (lk.placeSection true t oi).1.dot
  rw [hm] at herr
  exact (List.append_eq_nil_iff.mp herr).1

/-! ## The passes -/

/-- Coming to an output section. -/
lemma Agree.enterSection (h : Agree lk s t) (oi : ℕ) :
    Agree lk (lk.enterSection s oi) (lk.enterSection t oi) := by
  unfold Link.enterSection
  dsimp only
  split
  · split
    · exact { h with }
    · exact { h with }
  · split
    · exact { h with }
    · exact { h with }

/-- Executing a statement, where the final pass reports nothing. -/
lemma Agree.execStmt (hix : lk.Indexed) (h : Agree lk s t) {p : Stmt × ℕ} (hp : p.1 ∈ lk.stmts)
    (herr : (lk.execStmt true t p).errors = []) :
    Agree lk (lk.execStmt false s p) (lk.execStmt true t p) := by
  obtain ⟨stmt, n⟩ := p
  unfold Link.execStmt at herr ⊢
  cases stmt with
  | assign a =>
    dsimp only
    split
    · refine Agree.execAssignment hix ?_ a false
      exact { h with }
    · refine Agree.execAssignment hix ?_ a false
      exact { h with }
  | assert e msg =>
    refine Agree.execAssert hix ?_ e msg
    exact { h with }
  | «open» oi =>
    have hoi : oi < lk.outSecs.length := hix.opened oi (List.mem_filterMap.mpr ⟨_, hp, rfl⟩)
    refine Agree.layoutOutSection hix hoi (Agree.enterSection ?_ oi) herr
    exact { h with }

/-- Executing statements, where the final pass reports nothing. -/
lemma Agree.foldl_execStmt (hix : lk.Indexed) (h : Agree lk s t) {ps : List (Stmt × ℕ)}
    (hps : ∀ p ∈ ps, p.1 ∈ lk.stmts) (herr : (ps.foldl (lk.execStmt true) t).errors = []) :
    Agree lk (ps.foldl (lk.execStmt false) s) (ps.foldl (lk.execStmt true) t) := by
  induction ps generalizing s t with
  | nil => exact h
  | cons p ps ih =>
    have hstep : (lk.execStmt true t p).errors = [] := by
      obtain ⟨more, hm⟩ := @errors_foldl_execStmt _ lk true (lk.execStmt true t p) ps
      rw [List.foldl_cons, hm] at herr
      exact (List.append_eq_nil_iff.mp herr).1
    exact ih (h.execStmt hix (hps p (.head _)) hstep)
      (fun p' hp' => hps p' (.tail _ hp')) herr

/-- Executing commands, where the final pass reports nothing. -/
lemma Agree.foldl_execCommand (hix : lk.Indexed) (h : Agree lk s t) {cs : List Command} (after : Bool)
    (herr : (cs.foldl (lk.execCommand true) (t, after)).1.errors = []) :
    Agree lk (cs.foldl (lk.execCommand false) (s, after)).1
      (cs.foldl (lk.execCommand true) (t, after)).1 := by
  induction cs generalizing s t after with
  | nil => exact h
  | cons c cs ih =>
    have hstep : (lk.execCommand true (t, after) c).1.errors = [] := by
      obtain ⟨more, hm⟩ := @errors_foldl_execCommand _ lk true cs (lk.execCommand true (t, after) c)
      rw [List.foldl_cons, hm] at herr
      exact (List.append_eq_nil_iff.mp herr).1
    cases c with
    | assign a => exact ih (h.execAssignment hix a after) after herr
    | assert e msg => exact ih (h.execAssert hix e msg) after herr
    | sections =>
      have hmem : ∀ p ∈ lk.stmts.zipIdx, p.1 ∈ lk.stmts := fun p hp =>
        List.fst_mem_of_mem_zipIdx hp
      exact ih (h.foldl_execStmt hix hmem hstep) true herr
    | other => exact ih h after herr

/-- Two states from which passes start alike. -/
structure Carried (lk : Link δ) (s t : Pass δ) : Prop where
  now : ∀ n, (s.scriptNow n).map ScriptSym.value = (t.scriptNow n).map ScriptSym.value
  off : ∀ i, (s.placements i).off = (t.placements i).off
  out : ∀ oi < lk.outSecs.length, (s.outs oi).addr = (t.outs oi).addr ∧
    (s.outs oi).lma = (t.outs oi).lma ∧ (s.outs oi).size = (t.outs oi).size ∧
    (s.outs oi).align = (t.outs oi).align
  referenced : s.referenced = t.referenced
  veneers : ∀ oi < lk.outSecs.length, s.veneerReserve oi = t.veneerReserve oi
  phdrs : s.phdrs = t.phdrs
  tables : ∀ i, lk.synthSize (lk.sizeDynamic s) i = lk.synthSize (lk.sizeDynamic t) i

lemma Carried.layoutPass (hix : lk.Indexed) (h : Carried lk s t)
    (herr : (lk.layoutPass true t).errors = []) :
    Agree lk (lk.layoutPass false s) (lk.layoutPass true t) := by
  refine Agree.foldl_execCommand hix ?_ false herr
  exact ⟨rfl, fun _ => rfl, h.now, h.off, h.out, h.referenced, rfl, h.veneers, h.phdrs, h.tables⟩

/-! ## The names a pass defines -/

/-- The names of a link are those its script can define. -/
structure Link.Named (lk : Link δ) : Prop where
  command : ∀ a, Command.assign a ∈ lk.commands → a.symbol = "." ∨ a.symbol ∈ lk.names
  stmt : ∀ a, Stmt.assign a ∈ lk.stmts → a.symbol = "." ∨ a.symbol ∈ lk.names
  piece : ∀ oi a, Piece.assign a ∈ (lk.outSec oi).pieces → a.symbol = "." ∨ a.symbol ∈ lk.names
  bound : ∀ oi, isCIdentifier (lk.outSec oi).name = true →
    "__start_" ++ (lk.outSec oi).name ∈ lk.names ∧ "__stop_" ++ (lk.outSec oi).name ∈ lk.names

/-- Only names of the link are defined. -/
def Keyed (lk : Link δ) (st : Pass δ) : Prop := ∀ n, (st.scriptNow n).isSome = true → n ∈ lk.names

lemma Keyed.update {st : Pass δ} (h : Keyed lk st) {n : String} (hn : n ∈ lk.names) (x : ScriptSym) :
    Keyed lk { st with scriptNow := Function.update st.scriptNow n (some x) } := by
  intro m hm
  dsimp only at hm
  rw [Function.update_apply] at hm
  split at hm
  · rename_i heq
    exact heq ▸ hn
  · exact h m hm

/-- Executing an assignment. -/
lemma Keyed.execAssignment {st : Pass δ} (h : Keyed lk st) {a : Assignment}
    (ha : a.symbol = "." ∨ a.symbol ∈ lk.names) (after : Bool) :
    Keyed lk (lk.execAssignment f st a after) := by
  have hdef : ∀ st : Pass δ, Keyed lk st → a.symbol ≠ "." → Keyed lk (lk.define f st a) := by
    intro st h hne
    unfold Link.define
    dsimp only
    refine Keyed.update ?_ (ha.resolve_left hne) _
    split
    · exact h
    · exact h
  unfold Link.execAssignment
  split
  · dsimp only
    split
    · exact h
    · exact h
  · split
    · split
      · exact h
      · refine hdef _ ?_ ‹_›
        exact h
    · exact hdef st h ‹_›

lemma Keyed.execAssert {st : Pass δ} (h : Keyed lk st) (e : Expr) (msg : String) :
    Keyed lk (lk.execAssert f st e msg) := by
  unfold Link.execAssert
  dsimp only
  split
  · exact h
  · exact h

lemma Keyed.follow {st : Pass δ} (h : Keyed lk st) (lay : ChunkLayout) :
    Keyed lk (st.follow alloc start lay) := by
  unfold Pass.follow
  split
  · exact h
  · exact h

/-- Placing inputs defines nothing. -/
lemma Keyed.placeInputs (h : Keyed lk p.1) (v : List ℕ) :
    Keyed lk (lk.placeInputs oi start alloc v p).1 := by
  induction v generalizing p with
  | nil => exact h
  | cons i v ih =>
    refine ih ?_
    unfold Link.placeInput
    dsimp only
    split
    · exact h
    · refine Keyed.follow ?_ _
      exact h

/-- Laying a piece. -/
lemma Keyed.layOutPiece (h : Keyed lk p.1) {piece : Piece} {veneers : Bool}
    (hpiece : ∀ a, piece = .assign a → a.symbol = "." ∨ a.symbol ∈ lk.names) :
    Keyed lk (lk.layOutPiece f oi start alloc p piece veneers).1 := by
  unfold Link.layOutPiece
  cases piece with
  | inputs v =>
    have hv := @Keyed.placeInputs _ _ oi start alloc p h v
    dsimp only
    split
    · exact hv.follow _
    · exact hv
  | assign a =>
    have ha := @Keyed.execAssignment _ _ f p.1 h a (hpiece a rfl) false
    dsimp only
    split
    · split
      · exact ha
      · exact ha
    · exact ha
  | assert e msg => exact h.execAssert e msg
  | data w e =>
    refine Keyed.follow ?_ _
    exact h
  | fill e => exact h

lemma Keyed.layOutPieces (h : Keyed lk p.1) {ps : List Piece}
    (hps : ∀ a, Piece.assign a ∈ ps → a.symbol = "." ∨ a.symbol ∈ lk.names) :
    Keyed lk (lk.layOutPieces f oi start alloc ps p).1 := by
  induction ps generalizing p with
  | nil => exact h
  | cons piece ps ih =>
    refine ih (h.layOutPiece fun a ha => ?_) fun a ha => hps a (.tail _ ha)
    exact hps a (ha ▸ (.head _))

/-- Bounding a section with symbols. -/
lemma Keyed.defineStartStop {st : Pass δ} (hn : lk.Named) (h : Keyed lk st) (oi : ℕ) :
    Keyed lk (lk.defineStartStop st oi) := by
  have hbound : ∀ (st : Pass δ) (n : String) (x : ScriptSym), n ∈ lk.names → Keyed lk st →
      Keyed lk (if (lk.globals n).isSome || lk.scriptAssigned n || !st.referenced n then st
        else { st with scriptNow := Function.update st.scriptNow n (some x) }) := by
    intro st n x hmem h
    split
    · exact h
    · exact h.update hmem x
  unfold Link.defineStartStop
  dsimp only
  split
  · exact h
  · rename_i hid
    rw [not_or, Bool.not_eq_true, Bool.not_eq_true, Bool.not_eq_false', Bool.not_eq_false'] at hid
    obtain ⟨hstart, hstop⟩ := hn.bound oi hid.2
    simp only [List.foldl_cons, List.foldl_nil]
    exact hbound _ _ _ hstop (hbound st _ _ hstart h)

/-- Laying out an output section. -/
lemma Keyed.layoutOutSection {st : Pass δ} (hn : lk.Named) (h : Keyed lk st) (oi : ℕ) :
    Keyed lk (lk.layoutOutSection f st oi) := by
  have hattr : Keyed lk (lk.attrAlign f st oi).2 := by
    unfold Link.attrAlign
    split
    · exact h
    · exact h
  have hplace : Keyed lk (lk.placeSection f st oi).1 := by
    unfold Link.placeSection
    dsimp only
    split
    · dsimp only
      split
      · exact hattr
      · exact hattr
    · split
      · exact hattr
      · exact hattr
  have hinit : Keyed lk (lk.initLayout f ((lk.placeSection f st oi).1.openAt oi
      (lk.placeSection f st oi).2.1) oi).1 := by
    unfold Link.initLayout
    dsimp only
    split
    · exact hplace
    · exact hplace
  have hwalk := @Keyed.layOutPieces _ _ f oi (lk.placeSection f st oi).2.1 (lk.allocated oi) _ hinit
    (lk.outSec oi).pieces (hn.piece oi)
  unfold Link.layoutOutSection Link.recordSection
  dsimp only
  refine Keyed.defineStartStop hn ?_ oi
  split
  · unfold Link.loadAddress
    split
    · exact hwalk
    · exact hwalk
  · exact hwalk

/-- Executing a statement. -/
lemma Keyed.execStmt {st : Pass δ} (hn : lk.Named) (h : Keyed lk st) {p : Stmt × ℕ}
    (hp : p.1 ∈ lk.stmts) : Keyed lk (lk.execStmt f st p) := by
  obtain ⟨stmt, n⟩ := p
  unfold Link.execStmt
  cases stmt with
  | assign a =>
    refine Keyed.execAssignment ?_ (hn.stmt a hp) false
    split
    · exact h
    · exact h
  | assert e msg =>
    refine Keyed.execAssert ?_ e msg
    exact h
  | «open» oi =>
    refine Keyed.layoutOutSection hn ?_ oi
    unfold Link.enterSection
    dsimp only
    split
    · exact h
    · exact h

/-- A pass defines only names of the link. -/
lemma keyed_layoutPass (hn : lk.Named) (st : Pass δ) : Keyed lk (lk.layoutPass f st) := by
  have hcmd : ∀ (cs : List Command) (s : Pass δ × Bool), (∀ c ∈ cs, c ∈ lk.commands) →
      Keyed lk s.1 → Keyed lk (cs.foldl (lk.execCommand f) s).1 := by
    intro cs
    induction cs with
    | nil => exact fun _ _ h => h
    | cons c cs ih =>
      intro s hcs h
      refine ih _ (fun c' hc' => hcs c' (.tail _ hc')) ?_
      cases c with
      | assign a => exact h.execAssignment (hn.command a (hcs _ (.head _))) s.2
      | assert e msg => exact h.execAssert e msg
      | sections =>
        exact List.foldlRecOn _ _ h fun st hst p hp =>
          Keyed.execStmt hn hst (List.fst_mem_of_mem_zipIdx hp)
      | other => exact h
  exact hcmd _ _ (fun c hc => hc) fun n hn => absurd hn (by simp [Link.beginPass])

/-! ## The fingerprint -/

/-- Two states agree in what a fingerprint leaves out and the next pass reads. -/
structure Steady (lk : Link δ) (s t : Pass δ) : Prop where
  off : ∀ i, (s.placements i).off = (t.placements i).off
  align : ∀ oi < lk.outSecs.length, (s.outs oi).align = (t.outs oi).align
  defined : ∀ n, (s.scriptNow n).isSome = (t.scriptNow n).isSome
  referenced : s.referenced = t.referenced
  phdrs : s.phdrs = t.phdrs
  tables : ∀ i, lk.synthSize (lk.sizeDynamic s) i = lk.synthSize (lk.sizeDynamic t) i

/-- States with one fingerprint that agree in what it leaves out start passes alike. -/
lemma Steady.carried (hix : lk.Indexed) (h : Steady lk s t) (hs : Keyed lk s)
    (hfp : lk.fingerprint s = lk.fingerprint t) : Carried lk s t := by
  have hdefined : ∀ n, ((s.scriptNow n).map fun x => x.val.v.toNat).isSome =
      ((t.scriptNow n).map fun x => x.val.v.toNat).isSome := by
    intro n
    rw [Option.isSome_map, Option.isSome_map]
    exact h.defined n
  unfold Link.fingerprint at hfp
  rw [List.append_assoc, List.append_assoc, List.append_assoc, List.append_assoc] at hfp
  obtain ⟨houts, hfp⟩ := List.append_inj hfp (by simp [List.length_flatMap])
  obtain ⟨hnow, hfp⟩ := List.append_inj hfp (by
    rw [List.length_filterMap_eq_countP, List.length_filterMap_eq_countP]
    exact congrArg (fun q => List.countP q lk.names) (funext hdefined))
  obtain ⟨-, hveneers⟩ := List.append_inj hfp (hix.counted _ _)
  have hout := eq_of_flatMap_eq (fun _ _ => by rfl) houts
  refine ⟨fun n => ?_, h.off, fun oi hoi => ?_, h.referenced, fun oi hoi => ?_, h.phdrs, h.tables⟩
  · by_cases hn : n ∈ lk.names
    · have hval := eq_of_filterMap_eq (fun n _ => hdefined n) hnow n hn
      cases hsn : s.scriptNow n <;> cases htn : t.scriptNow n <;>
        simp_all [ScriptSym.value, BitVec.toNat_inj]
    · have hnone : s.scriptNow n = none := by
        cases hsn : s.scriptNow n with
        | none => rfl
        | some x => exact absurd (hs n (by rw [hsn]; rfl)) hn
      have hnone' : t.scriptNow n = none := by
        have hd := h.defined n
        rw [hnone] at hd
        exact Option.isNone_iff_eq_none.mp (by rw [← Option.not_isSome, ← hd]; rfl)
      rw [hnone, hnone']
  · have hrow := hout oi (List.mem_range.mpr hoi)
    simp only [List.cons.injEq, and_true] at hrow
    exact ⟨hrow.1, hrow.2.2, hrow.2.1, h.align oi hoi⟩
  · have hkeyed : (List.range lk.outSecs.length).flatMap (entry s.veneerReserve) =
        (List.range lk.outSecs.length).flatMap (entry t.veneerReserve) := hveneers
    exact eq_of_flatMap_entry_eq List.nodup_range hkeyed oi (List.mem_range.mpr hoi)

/-! ## Runs -/

/-- The state before the last of the passes that settle a fingerprint. -/
def Link.convergeFrom (lk : Link δ) : ℕ → Option (List ℕ) → Pass δ → Option (Pass δ)
  | 0, _, _ => none
  | fuel + 1, prev, st =>
    if prev = some (lk.fingerprint (lk.round st)) then some st
    else lk.convergeFrom fuel (some (lk.fingerprint (lk.round st))) (lk.round st)

/-- The state before the last pass but the final one. -/
def Link.lastPass (lk : Link δ) : ℕ → Pass δ → Option (Pass δ)
  | 0, _ => none
  | fuel + 1, st => do
    let st ← lk.convergeFrom 48 none st
    let n ← lk.countPhdrs (lk.round st)
    if n = (lk.round st).phdrs ∨ fuel = 0 then return st
    else lk.lastPass fuel { lk.round st with phdrs := n }

/-- Settling a fingerprint ends with the pass after this state, which has the fingerprint of the
state, and the state is what a pass left. -/
lemma converge_eq_some {fuel : ℕ} {prev : Option (List ℕ)} {st st' : Pass δ}
    (hprev : ∀ fp, prev = some fp → fp = lk.fingerprint st ∧ ∃ st₀, st = lk.round st₀)
    (h : lk.converge fuel prev st = some st') :
    ∃ st₁, lk.convergeFrom fuel prev st = some st₁ ∧ st' = lk.round st₁ ∧
      lk.fingerprint st₁ = lk.fingerprint st' ∧ ∃ st₀, st₁ = lk.round st₀ := by
  induction fuel generalizing prev st with
  | zero => exact absurd h (by simp [Link.converge])
  | succ fuel ih =>
    unfold Link.converge at h
    dsimp only at h
    unfold Link.convergeFrom
    split at h
    · rename_i heq
      obtain ⟨hfp, hround⟩ := hprev _ heq
      obtain rfl := Option.some.inj h
      rw [if_pos heq]
      exact ⟨st, rfl, rfl, hfp.symm, hround⟩
    · rename_i hne
      rw [if_neg hne]
      refine ih (fun fp hfp => ?_) h
      exact ⟨(Option.some.inj hfp).symm, st, rfl⟩

/-- The final pass starts after a pass that settled a fingerprint, with some number of program
headers. -/
lemma settle_eq_some {fuel : ℕ} {st st' : Pass δ} (h : lk.settle (fuel + 1) st = some st') :
    ∃ st₁ n, lk.lastPass (fuel + 1) st = some st₁ ∧ st' = { lk.round st₁ with phdrs := n } ∧
      lk.fingerprint st₁ = lk.fingerprint st' ∧ ∃ st₀, st₁ = lk.round st₀ := by
  induction fuel generalizing st with
  | zero =>
    unfold Link.settle at h
    obtain ⟨st₂, hconv, h⟩ := Option.bind_eq_some_iff.mp h
    obtain ⟨n, hn, h⟩ := Option.bind_eq_some_iff.mp h
    obtain ⟨st₁, hfrom, rfl, hfp, hround⟩ := converge_eq_some (by simp) hconv
    refine ⟨st₁, st'.phdrs, ?_, ?_⟩
    · simp [Link.lastPass, hfrom, hn]
    · split at h
      · obtain rfl := Option.some.inj h
        exact ⟨rfl, hfp, hround⟩
      · obtain rfl := Option.some.inj h
        exact ⟨rfl, hfp, hround⟩
  | succ fuel ih =>
    unfold Link.settle at h
    obtain ⟨st₂, hconv, h⟩ := Option.bind_eq_some_iff.mp h
    obtain ⟨n, hn, h⟩ := Option.bind_eq_some_iff.mp h
    obtain ⟨st₁, hfrom, rfl, hfp, hround⟩ := converge_eq_some (by simp) hconv
    unfold Link.lastPass
    split at h
    · rename_i heq
      obtain rfl := Option.some.inj h
      refine ⟨st₁, (lk.round st₁).phdrs, ?_, rfl, hfp, hround⟩
      simp [hfrom, hn, heq]
    · rename_i hne
      obtain ⟨st₁', n', hlast, hst', hrest⟩ := ih h
      refine ⟨st₁', n', ?_, hst', hrest⟩
      simp only [hfrom, Option.bind_eq_bind, Option.bind_some, hn]
      rw [if_neg (by simpa using hne)]
      exact hlast

/-- The layout that passes settle on is the final one, where the last pass and the one before it agree
in what the fingerprint leaves out: every section has its address, load address and size, every input
its offset and size, and every script symbol its value. -/
theorem run_settled {st₀ st₁ st st' : Pass δ} (hix : lk.Indexed) (hnamed : lk.Named)
    (hrun : lk.run st₀ = some st') (hlast : lk.lastPass 4 st₀ = some st₁)
    (hsettled : lk.settle 4 st₀ = some st) (hsteady : Steady lk st₁ st) :
    (∀ oi < lk.outSecs.length, (st.outs oi).addr = (st'.outs oi).addr ∧
      (st.outs oi).lma = (st'.outs oi).lma ∧ (st.outs oi).size = (st'.outs oi).size) ∧
    (∀ i, (st.placements i).off = (st'.placements i).off) ∧
    (∀ i, lk.insecPlacedSize st i = lk.insecPlacedSize st' i) ∧
    ∀ n, (st.scriptNow n).map ScriptSym.value = (st'.scriptNow n).map ScriptSym.value := by
  obtain ⟨st₂, hst₂, rfl, herr⟩ := run_eq_some hrun
  obtain rfl := Option.some.inj (hsettled.symm.trans hst₂)
  obtain ⟨st₁', n, hlast', hst, hfp, st₀', hround⟩ := settle_eq_some hsettled
  obtain rfl := Option.some.inj (hlast.symm.trans hlast')
  have hkeyed : Keyed lk st₁ := by
    rw [hround]
    exact @keyed_layoutPass _ _ false hnamed st₀'
  have hagree := (hsteady.carried hix hkeyed hfp).layoutPass hix herr
  have houts : st.outs = (lk.layoutPass false st₁).outs := by rw [hst]; rfl
  have hplaces : st.placements = (lk.layoutPass false st₁).placements := by rw [hst]; rfl
  have hnow : st.scriptNow = (lk.layoutPass false st₁).scriptNow := by rw [hst]; rfl
  have hsize : ∀ i, lk.insecPlacedSize st i = lk.insecPlacedSize (lk.layoutPass false st₁) i := by
    rw [hst]
    exact fun i => rfl
  refine ⟨fun oi hoi => ?_, fun i => ?_, fun i => ?_, fun n => ?_⟩
  · obtain ⟨haddr, hlma, hsz, -⟩ := hagree.out oi hoi
    rw [houts]
    exact ⟨haddr, hlma, hsz⟩
  · rw [hplaces]
    exact hagree.off i
  · rw [hsize]
    exact hagree.insecPlacedSize i
  · rw [hnow]
    exact hagree.now n

/-- One word in `.text` at `0x1000`, behind a gap that the script takes from the place of a symbol in
the word.  The section ends at `0x1040`. -/
def gapped (gap : Expr) : Link Unit where
  insecs := [wordSection 1]
  fates := [.placed 0]
  pools := ⟨[], fun _ => none⟩
  ehFrames _ := none
  globals n := if n = "a" then some ⟨0, .inSection 0 0⟩ else none
  scriptAssigned _ := false
  outSecs := [⟨".text", some (.number 0x1000), none, none, none,
    [.assign ⟨".", .set, .binary .add (.symbol ".") gap, false, false⟩, .inputs [0],
      .assign ⟨".", .set, .number 0x1040, false, false⟩], none, false⟩]
  stmts := [.open 0]
  commands := [.sections]
  machine := 62
  maxPageSize := 0x1000
  commonPageSize := 0x1000
  sizeofHeaders n := BitVec.ofNat 64 (64 + 56 * n)
  isSynth _ := false
  synthSize _ _ := none
  sizeDynamic _ := ()
  sizeReserve _ _ := none
  countPhdrs _ := some 1
  counts _ := [0, 0, 0]
  names := []

/-- The indices of the link are in range. -/
lemma indexed_gapped (gap : Expr) : (gapped gap).Indexed where
  opened oi hoi := by
    obtain rfl := List.mem_singleton.mp hoi
    exact Nat.one_pos
  placed i oi hi := by
    cases i with
    | zero =>
      obtain rfl : 0 = oi := by simpa [gapped] using hi
      exact Nat.one_pos
    | succ i => exact absurd hi (by simp [gapped])
  counted _ _ := rfl

/-- The script of the link defines no names. -/
lemma named_gapped (gap : Expr) : (gapped gap).Named where
  command a ha := absurd ha (by simp [gapped])
  stmt a ha := absurd ha (by simp [gapped])
  piece oi a ha := by
    cases oi with
    | zero => simp [Link.outSec, gapped] at ha; rcases ha with rfl | rfl <;> exact Or.inl rfl
    | succ oi => exact absurd ha (by simp [Link.outSec, gapped])
  bound oi hid := by
    cases oi with
    | zero =>
      have hname : ((gapped gap).outSec 0).name = ".text" := rfl
      rw [hname] at hid
      exact absurd hid (by decide)
    | succ oi =>
      have hname : ((gapped gap).outSec (oi + 1)).name = "" := rfl
      rw [hname] at hid
      exact absurd hid (by decide)

/-- Sixteen bytes in any pass. -/
def fixedGap : Expr := .number 16

/-- Sixteen bytes where the pass before had the word at the start of the section, and none where it
had not. -/
def swingingGap : Expr :=
  .ternary (.binary .eq (.symbol "a") (.addr ".text")) (.number 16) (.number 0)

lemma runs_fixedGap : ((gapped fixedGap).lastPass 4 freshPass).isSome = true ∧
    ((gapped fixedGap).settle 4 freshPass).isSome = true ∧
    ((gapped fixedGap).run freshPass).isSome = true := by
  decide +kernel

lemma lastPass_fixedGap : ((gapped fixedGap).lastPass 4 freshPass).isSome = true :=
  runs_fixedGap.1

lemma settle_fixedGap : ((gapped fixedGap).settle 4 freshPass).isSome = true :=
  runs_fixedGap.2.1

lemma run_fixedGap : ((gapped fixedGap).run freshPass).isSome = true :=
  runs_fixedGap.2.2

/-- Behind a fixed gap the word stays where the settled layout has it. -/
theorem run_settled_fixedGap :
    ((((gapped fixedGap).settle 4 freshPass).get settle_fixedGap).placements 0).off = 16 ∧
    ((((gapped fixedGap).settle 4 freshPass).get settle_fixedGap).placements 0).off =
      ((((gapped fixedGap).run freshPass).get run_fixedGap).placements 0).off := by
  refine ⟨by decide +kernel, ?_⟩
  have hsteady : Steady (gapped fixedGap) (((gapped fixedGap).lastPass 4 freshPass).get
      lastPass_fixedGap) (((gapped fixedGap).settle 4 freshPass).get settle_fixedGap) := by
    set st₁ := ((gapped fixedGap).lastPass 4 freshPass).get lastPass_fixedGap with hst₁
    set st := ((gapped fixedGap).settle 4 freshPass).get settle_fixedGap with hst
    have hoff : ∀ i, (st₁.placements (i + 1)).off = 0 ∧ (st.placements (i + 1)).off = 0 := by
      rw [hst₁, hst]
      exact fun i => ⟨rfl, rfl⟩
    have hnow : ∀ n, st₁.scriptNow n = none ∧ st.scriptNow n = none := by
      rw [hst₁, hst]
      exact fun n => ⟨rfl, rfl⟩
    have href : ∀ n, st₁.referenced n = false ∧ st.referenced n = false := by
      rw [hst₁, hst]
      exact fun n => ⟨rfl, rfl⟩
    refine ⟨fun i => ?_, fun oi hoi => ?_, fun n => ?_, ?_, ?_, fun i => rfl⟩
    · cases i with
      | zero =>
        rw [hst₁, hst]
        decide +kernel
      | succ i => rw [(hoff i).1, (hoff i).2]
    · obtain rfl : oi = 0 := Nat.lt_one_iff.mp hoi
      rw [hst₁, hst]
      decide +kernel
    · rw [(hnow n).1, (hnow n).2]
    · funext n
      rw [(href n).1, (href n).2]
    · rw [hst₁, hst]
      decide +kernel
  exact (run_settled (indexed_gapped fixedGap) (named_gapped fixedGap) (Option.some_get _).symm
    (Option.some_get _).symm (Option.some_get _).symm hsteady).2.1 0

/-- With a gap that swings, the passes settle with the word at the start of the section, and the final
pass moves it by sixteen bytes. -/
theorem moved :
    (((gapped swingingGap).settle 4 freshPass).map fun st => (st.placements 0).off) = some 0 ∧
    (((gapped swingingGap).run freshPass).map fun st => (st.placements 0).off) = some 16 := by
  decide +kernel

end Badc.Layout
