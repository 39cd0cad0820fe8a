import Badc.Asm.Section

/-!
# Measuring the layout

Before a statement is laid out, the offset of every label is measured.  A round walks the items
and values fill counts, `.org` targets and repeat counts against the labels it has placed so far;
a second round reads the others from the offsets the first one ended with.  Relaxable branches
start short, and the rounds are repeated until every short branch reaches.
-/

namespace Badc.Asm

/-- Why a statement is not laid out. -/
inductive LayoutError
  | fillCount (count : Text)
  | reptCount (count : Text)
  | alignSpec (text : Text)
  | alignNotMeasured (text : Text)
  | alignPadding (gap width : ℕ)
  /-- The assembler aborts on an alignment of zero, which no directive denotes. -/
  | alignZero
  | code (text : Text)
  | orgLabel (label : Text)
  | orgAddend
  | orgTarget (expr : Text)
  | orgBackwards
  | reptItem
  | setValue (name expr : Text)
  | unsettled
  | numericTwice (name : Text)
  | duplicateLabel (name : Text)
  | field (site : Site)
  | rounds
  deriving DecidableEq

/-- An error and the line it is reported at, if any. -/
abbrev AsmError := Option ℕ × LayoutError

/-- What a measurement gives: the place of every label and assigned location, the values of the
other assignments, the branches in their long form, the key a section name stands for, the place
of every item, the alignments of expression-valued directives and the chains of assignments.
`values` notes the count, target or alignment every item was measured under. -/
structure SectionLabelOffsets where
  map : Text → Option (SectionKey × ℤ)
  syms : Text → Option ℤ
  long : Finset Site
  sections : Text → Option SectionKey
  places : Site → Option ℤ
  aliases : Text → Option Text
  aligns : Site → Option ℕ
  values : Site → Option ℤ

namespace SectionLabelOffsets

/-- A measurement that knows nothing. -/
def empty : SectionLabelOffsets :=
  ⟨fun _ => none, fun _ => none, ∅, fun _ => none, fun _ => none, fun _ => none, fun _ => none,
    fun _ => none⟩

def offset (m : SectionLabelOffsets) (name : Text) : Option ℤ :=
  (m.map (labelKey name)).map Prod.snd

def symbol (m : SectionLabelOffsets) (name : Text) : Option ℤ := m.syms name

def sectionNamed (m : SectionLabelOffsets) (name : Text) : Option SectionKey := m.sections name

def place (m : SectionLabelOffsets) (site : Site) : Option ℤ := m.places site

/-- The target of an assignment, unless the name is a label or has a value. -/
def aliasOf (m : SectionLabelOffsets) (name : Text) : Option Text :=
  if (m.map (labelKey name)).isSome || (m.syms name).isSome then none else m.aliases name

/-- The name a chain of assignments ends at. -/
def aliasTarget (m : SectionLabelOffsets) : ℕ → Text → Text
  | 0, t => t
  | n + 1, t =>
    match m.aliasOf t with
    | some next => m.aliasTarget n next
    | none => t

end SectionLabelOffsets

/-- The longest chain of assignments that is followed. -/
def asmAliasDepthLimit : ℕ := 16

/-! ## Expressions of the layout -/

/-- A text of digits only is a number, not a name. -/
def allDigits (t : Text) : Bool := t.all isDigit

/-- A fill or repeat count with the location counter at `here`. -/
def evalFillCountWith (expr : Text) (here : ℤ) (constOf : ℕ → Option ℤ)
    (resolve : Text → Option ℤ) : Option ℤ :=
  evalAbs expr
    ⟨fun t => if t = [byte '.'] then some (.abs here) else (resolve t).map .abs, constOf, false⟩

/-- A count that names no label. -/
def evalFillCount (expr : Text) (constOf : ℕ → Option ℤ) : Option ℤ :=
  (evalConstExprOps expr constOf).map (max · 0)

/-- The location of an offset of a section. -/
def sectionLoc (k : SectionKey) (off : ℤ) (target : AsmSectionTarget) : AsmExprLeaf :=
  .loc ⟨some (.section k, off), target⟩

/-- The start of a section. -/
def sectionStartLeaf (k : SectionKey) : AsmExprLeaf := sectionLoc k 0 (.sectionStart k)

/-- A leaf of an `.org` target: the locations of the own section are their offsets. -/
def orgLeaf (key : SectionKey) (at_ : ℤ) (resolve : Text → Option AsmExprLeaf) (t : Text) :
    Option AsmExprLeaf :=
  if t = [byte '.'] then some (.abs at_)
  else
    match resolve t with
    | some (.loc ⟨some (.section k, off), target⟩) =>
      if k = key then some (.abs off) else some (sectionLoc k off target)
    | other => other

/-- The offset an `.org` expression names in its section. -/
def evalOrgTarget (expr : Text) (key : SectionKey) (at_ : ℤ) (resolve : Text → Option AsmExprLeaf)
    (constOf : ℕ → Option ℤ) : Option ℤ :=
  match evalAsmValue expr ⟨orgLeaf key at_ resolve, constOf, false⟩ with
  | .ok v =>
    match v.pos, v.neg with
    | none, none => some v.add
    | some p, none =>
      match p.space with
      | some (.section k, off) => if k = key then some (off + v.add) else none
      | _ => none
    | _, _ => none
  | .error _ => none

/-- The value of an assignment. -/
inductive SectionSetValue
  | abs (v : ℤ)
  | loc (key : SectionKey) (off : ℤ)
  | aliased
  deriving DecidableEq

/-- A name of an assignment's expression: a label, or the label a chain of assignments ends at, or
the start of a section. -/
def setNameLeaf (labels : Text → Option (SectionKey × ℤ)) (aliases : Text → Option Text)
    (sections : Text → Option SectionKey) : ℕ → Text → Option AsmExprLeaf
  | 0, _ => none
  | n + 1, t =>
    match labels (labelKey t) with
    | some (sk, off) => some (sectionLoc sk off (.symbol t))
    | none =>
      match aliases t with
      | some next => setNameLeaf labels aliases sections n next
      | none => (sections t).map sectionStartLeaf

/-- A leaf of an assignment's expression, written at offset `at_` of the section `key`. -/
def setLeaf (key : SectionKey) (at_ : ℤ) (labels : Text → Option (SectionKey × ℤ))
    (syms : Text → Option ℤ) (aliases : Text → Option Text)
    (sections : Text → Option SectionKey) (t : Text) : Option AsmExprLeaf :=
  if t = [byte '.'] then some (sectionLoc key at_ (.ownSection (at_ % 2 ^ 32).toNat))
  else
    match syms t with
    | some v => some (.abs v)
    | none => setNameLeaf labels aliases sections asmAliasDepthLimit t

/-- The value of an assigned expression under a resolver. -/
def evalSetWith (expr : Text) (resolve : Text → Option AsmExprLeaf) (constOf : ℕ → Option ℤ) :
    Option SectionSetValue :=
  match evalAsmValue expr ⟨resolve, constOf, false⟩ with
  | .ok v =>
    match v.pos, v.neg with
    | none, none => some (.abs v.add)
    | some p, none =>
      match p.space, p.target with
      | some (.section sk, off), _ => some (.loc sk (off + v.add))
      | none, .symbol _ => some .aliased
      | _, _ => none
    | _, _ => none
  | .error _ => none

/-- The value of `.set name, expr`. -/
def evalSectionSetExpr (expr : Text) (key : SectionKey) (at_ : ℤ)
    (labels : Text → Option (SectionKey × ℤ)) (syms : Text → Option ℤ)
    (aliases : Text → Option Text) (sections : Text → Option SectionKey)
    (constOf : ℕ → Option ℤ) : Option SectionSetValue :=
  evalSetWith expr (setLeaf key at_ labels syms aliases sections) constOf

/-! ## A round -/

/-- What does not change while a statement is laid out: the operands' constants, whether the target
pads to instructions, the sink and the blocks. -/
structure AsmStatement where
  constOf : ℕ → Option ℤ
  alignIsP2 : Bool
  sink : AsmSectionSink
  blocks : List AsmSectionBlock

/-- A `.set` with the place it was written at. -/
structure SetLine where
  name : Text
  expr : Text
  key : SectionKey
  at_ : ℤ
  line : ℕ

/-- A relaxable branch as a round placed it. -/
structure AsmRelaxSite where
  site : Site
  at_ : ℤ

/-- A round under way, at offset `at_` of the section being walked, which `state` is the mapping
state of.  `unresolved` says that a count or target had no value. -/
structure Round where
  map : Text → Option (SectionKey × ℤ)
  lens : SectionKey → Option ℤ
  sets : List SetLine
  aliases : Text → Option Text
  places : Site → Option ℤ
  aligns : Site → Option ℕ
  values : Site → Option ℤ
  states : SectionKey → Option (Option MapClass)
  sites : List AsmRelaxSite
  unresolved : Bool
  at_ : ℤ
  state : Option MapClass

/-- A round that has not begun. -/
def Round.start : Round :=
  ⟨fun _ => none, fun _ => none, [], fun _ => none, fun _ => none, fun _ => none, fun _ => none,
    fun _ => none, [], false, 0, none⟩

/-- An error, with whether a count or target had no value before it. -/
abbrev RoundError := LayoutError × Bool

/-- What a fill count names: the labels of this round, then the offsets and values of the one
before. -/
def fillResolve (map : Text → Option (SectionKey × ℤ)) (prev : Option SectionLabelOffsets)
    (t : Text) : Option ℤ :=
  if allDigits t then none
  else
    ((map (labelKey t)).map Prod.snd).or
      ((prev.bind (·.offset t)).or (prev.bind (·.symbol t)))

/-- What an `.org` expression names. -/
def orgResolve (map : Text → Option (SectionKey × ℤ)) (prev : Option SectionLabelOffsets)
    (t : Text) : Option AsmExprLeaf :=
  (((map (labelKey t)).or (prev.bind fun p => p.map (labelKey t))).map fun l =>
    sectionLoc l.1 l.2 (.symbol t)).or
      ((prev.bind (·.symbol t)).map .abs)

/-- What an alignment names: the labels this round has placed. -/
def alignResolve (map : Text → Option (SectionKey × ℤ)) (t : Text) : Option ℤ :=
  if allDigits t then none else (map (labelKey t)).map Prod.snd

/-- The length of an item in the body of a `.rept`: fixed, and without labels. -/
def reptItemLen (constOf : ℕ → Option ℤ) : AsmSectionItem → Except LayoutError ℤ
  | .data width count _ => .ok (width * count)
  | .bytes len => .ok len
  | .codeBytes len false _ => .ok len
  | .fill count unit =>
    match evalFillCount count constOf with
    | some n => .ok (n * unit)
    | none => .error (.fillCount count)
  | _ => .error .reptItem

def AsmSectionItem.isCode : AsmSectionItem → Bool
  | .codeBytes .. => true
  | _ => false

/-- One pass over a repeated body whose instructions are padded to. -/
def measureBody (u : AsmStatement) (exec : Bool) :
    List AsmSectionItem → ℤ × Option MapClass → Except LayoutError (ℤ × Option MapClass)
  | [], s => .ok s
  | it :: items, (at_, state) => do
    let at_ := if it.isCode then at_ + insnAlignGap at_ state exec u.alignIsP2 else at_
    let len ← reptItemLen u.constOf it
    measureBody u exec items (at_ + len, stepMapState exec it state)

/-- A repeated body, pass by pass. -/
def measureBodies (u : AsmStatement) (exec : Bool) (items : List AsmSectionItem) :
    ℕ → ℤ × Option MapClass → Except LayoutError (ℤ × Option MapClass)
  | 0, s => .ok s
  | n + 1, s => do measureBodies u exec items n (← measureBody u exec items s)

/-- The length of a body that is not padded. -/
def bodyLen (constOf : ℕ → Option ℤ) : List AsmSectionItem → Except LayoutError ℤ
  | [] => .ok 0
  | it :: items => do return (← reptItemLen constOf it) + (← bodyLen constOf items)

/-- `n` repetitions of a body.  Padding before an instruction depends on where the repetition
starts, so such a body is measured pass by pass. -/
def measureRept (u : AsmStatement) (exec : Bool) (items : List AsmSectionItem) (n : ℤ) (at_ : ℤ)
    (state : Option MapClass) : Except LayoutError (ℤ × Option MapClass) :=
  if items.any AsmSectionItem.isCode && u.alignIsP2 && exec then
    measureBodies u exec items n.toNat (at_, state)
  else do
    let len ← bodyLen u.constOf items
    return (at_ + max n 0 * len,
      if 0 < n then stepMapStates exec items state else state)

/-- Note the value an item is measured under. -/
def Round.note (r : Round) (site : Site) (v : ℤ) : Round :=
  { r with values := Function.update r.values site (some v) }

/-- A fill or repeat count.  The first round takes one without a value as zero and asks for a second
one, which reports it. -/
def measureCount (u : AsmStatement) (prev : Option SectionLabelOffsets) (site : Site) (count : Text)
    (e : LayoutError) (r : Round) : Except RoundError (ℤ × Round) :=
  match evalFillCountWith count r.at_ u.constOf (fillResolve r.map prev) with
  | some n => .ok (n, r.note site n)
  | none => if prev.isSome then .error (e, true) else .ok (0, { r with unresolved := true })

/-- The alignment of an item whose operand is an expression.  A first round takes one without a
value as no alignment. -/
def measureAlignSpec (prev : Option SectionLabelOffsets) (site : Site) (t : Text) (pow2 : Bool)
    (r : Round) : Except RoundError (ℕ × Round) :=
  match alignExprValue t pow2 (alignResolve r.map) with
  | some n => .ok (n, { r with aligns := Function.update r.aligns site (some n) })
  | none =>
    if prev.isSome then .error (.alignSpec t, r.unresolved)
    else .ok (1, { r with unresolved := true, aligns := Function.update r.aligns site (some 1) })

/-- The padding of an alignment directive. -/
def measureAlign (exec : Bool) (site : Site) (n : ℕ) (max : Option ℕ) (r : Round) : Round :=
  { r.note site n with
    at_ := r.at_ + alignGap r.at_ n max
    state := if 1 < n then some (if exec then .code else .data) else r.state }

/-- The labels of a literal pool's entries. -/
def poolLabels (key : SectionKey) (map : Text → Option (SectionKey × ℤ)) :
    List AsmPoolEntry → List ℤ → Text → Option (SectionKey × ℤ)
  | e :: es, o :: os => poolLabels key (Function.update map e.label (some (key, o))) es os
  | _, _ => map

/-- The walk over one item, from where its bytes start. -/
def measureItem (u : AsmStatement) (prev : Option SectionLabelOffsets) (long : Finset Site)
    (key : SectionKey) (site : Site) (line : ℕ) (item : AsmSectionItem) (r : Round) :
    Except RoundError Round :=
  let step (r : Round) : Round := { r with state := stepMapState key.exec item r.state }
  match item with
  | .label name =>
    .ok { r with map := Function.update r.map (labelKey name) (some (key, r.at_)) }
  | .symbolAttr .. | .weak _ | .unitAttr _ => .ok r
  | .symSet name target => .ok { r with aliases := Function.update r.aliases name (some target) }
  | .setExpr name expr => .ok { r with sets := r.sets ++ [⟨name, expr, key, r.at_, line⟩] }
  | .absSet name value =>
    .ok { r with sets := r.sets ++ [⟨name, text (toString value), key, r.at_, line⟩] }
  | .literalPool entries =>
    let (offs, fin) := literalPoolLayout entries r.at_
    .ok { r with map := poolLabels key r.map entries offs, at_ := fin }
  | .data width count _ => .ok (step { r with at_ := r.at_ + width * count })
  | .bytes len => .ok (step { r with at_ := r.at_ + len })
  | .fill count unit => do
    let (n, r) ← measureCount u prev site count (.fillCount count) r
    return step { r with at_ := r.at_ + max n 0 * unit }
  | .codeBytes len _ short =>
    match short with
    | none => .ok (step { r with at_ := r.at_ + len })
    | some s =>
      .ok (step { r with
        sites := r.sites ++ [⟨site, r.at_⟩]
        at_ := r.at_ + if site ∈ long then (len : ℤ) else s.len })
  | .code t => .error (.code t, r.unresolved)
  | .align (.bytes n) _ max _ =>
    if n = 0 then .error (.alignZero, r.unresolved) else .ok (measureAlign key.exec site n max r)
  | .align (.expr t pow2) _ max _ => do
    let (n, r) ← measureAlignSpec prev site t pow2 r
    return measureAlign key.exec site n max r
  | .org n => .ok { r.note site n with at_ := max r.at_ n }
  | .orgLabel label addend =>
    match r.map (labelKey label) with
    | some (sk, base) =>
      if sk = key then
        match evalConstExprOps addend u.constOf with
        | some add => .ok { r.note site (base + add) with at_ := max (base + add) r.at_ }
        | none => .error (.orgAddend, r.unresolved)
      else .error (.orgLabel label, r.unresolved)
    | none => .error (.orgLabel label, r.unresolved)
  | .orgExpr expr =>
    match evalOrgTarget expr key r.at_ (orgResolve r.map prev) u.constOf with
    | some target => .ok { r.note site target with at_ := max target r.at_ }
    | none =>
      if prev.isSome then .error (.orgTarget expr, true) else .ok { r with unresolved := true }
  | .rept count items => do
    let (n, r) ← measureCount u prev site count (.reptCount count) r
    match measureRept u key.exec items n r.at_ r.state with
    | .ok (at_, state) => return { r with at_ := at_, state := state }
    | .error e => throw (e, r.unresolved)

/-- The bytes before an instruction, and the place the item takes. -/
def Round.place (u : AsmStatement) (key : SectionKey) (site : Site) (item : AsmSectionItem) (r : Round) :
    Round :=
  let at_ :=
    if item.isCode then r.at_ + insnAlignGap r.at_ r.state key.exec u.alignIsP2 else r.at_
  { r with at_ := at_, places := Function.update r.places site (some at_) }

/-- The walk over the items of a block from the item number `ii` on. -/
def measureItems (u : AsmStatement) (prev : Option SectionLabelOffsets) (long : Finset Site)
    (key : SectionKey) (bi : ℕ) : ℕ → List AsmLineItem → Round → Except (AsmError × Bool) Round
  | _, [], r => .ok r
  | ii, li :: items, r =>
    match measureItem u prev long key (bi, ii) li.line li.item (r.place u key (bi, ii) li.item) with
    | .ok r' => measureItems u prev long key bi (ii + 1) items r'
    | .error (e, unresolved) => .error ((some li.line, e), unresolved)

/-- Take up the section of a block where it was left, or where the sink left it. -/
def Round.enter (sink : AsmSectionSink) (key : SectionKey) (r : Round) : Round :=
  { r with
    at_ := (r.lens key).getD ((sink.sections key).elim 0 fun s => (s.len : ℤ))
    state := (r.states key).getD ((sink.sections key).elim none AsmSection.mapState) }

/-- Leave the section of a block. -/
def Round.leave (key : SectionKey) (r : Round) : Round :=
  { r with
    lens := Function.update r.lens key (some r.at_)
    states := Function.update r.states key (some r.state) }

/-- The walk over the blocks. -/
def measureBlocks (u : AsmStatement) (prev : Option SectionLabelOffsets) (long : Finset Site) :
    List (ℕ × AsmSectionBlock) → Round → Except (AsmError × Bool) Round
  | [], r => .ok r
  | (bi, b) :: bs, r =>
    match measureItems u prev long b.key bi 0 b.items (r.enter u.sink b.key) with
    | .ok r' => measureBlocks u prev long bs (r'.leave b.key)
    | .error e => .error e

/-- The key a section name stands for, the sink's answer winning. -/
def sectionNames (u : AsmStatement) (name : Text) : Option SectionKey :=
  (u.sink.sectionNamed name).or
    ((u.blocks.reverse.find? fun b => b.key.name = name).map AsmSectionBlock.key)

/-- The key a block of this statement gives a section name. -/
def blockSections (blocks : List AsmSectionBlock) (name : Text) : Option SectionKey :=
  (blocks.reverse.find? fun b => b.key.name = name).map AsmSectionBlock.key

/-- The labels and symbols, and the assignments that had no value. -/
structure Assigned where
  map : Text → Option (SectionKey × ℤ)
  syms : Text → Option ℤ
  errors : List AsmError

/-- One assignment, after every label is placed. -/
def assign (u : AsmStatement) (aliases : Text → Option Text) (a : Assigned) (s : SetLine) : Assigned :=
  match evalSectionSetExpr s.expr s.key s.at_ a.map a.syms aliases (sectionNames u) u.constOf with
  | some (.abs v) =>
    { a with
      syms := Function.update a.syms s.name (some v)
      map := Function.update a.map s.name none }
  | some (.loc sk off) =>
    { a with
      map := Function.update a.map s.name (some (sk, off))
      syms := Function.update a.syms s.name none }
  | some .aliased =>
    { a with
      map := Function.update a.map s.name none
      syms := Function.update a.syms s.name none }
  | none => { a with errors := a.errors ++ [(some s.line, .setValue s.name s.expr)] }

/-- The measurement a finished round stands for, and the assignments that had no value. -/
def Round.finish (u : AsmStatement) (r : Round) : SectionLabelOffsets × List AsmError :=
  let a := r.sets.foldl (assign u r.aliases) ⟨r.map, fun _ => none, []⟩
  (⟨a.map, a.syms, ∅, blockSections u.blocks, r.places, r.aliases, r.aligns, r.values⟩, a.errors)

/-- One round: what it measured with the branches it placed, and whether a count or target had no
value.  An assignment without a value is reported unless a second round follows. -/
def measureRound (u : AsmStatement) (prev : Option SectionLabelOffsets) (long : Finset Site) :
    Except (List AsmError) (SectionLabelOffsets × List AsmRelaxSite) × Bool :=
  match measureBlocks u prev long (subsectionOrder u.blocks) Round.start with
  | .ok r =>
    let (m, errors) := r.finish u
    if (prev.isSome || !r.unresolved) && !errors.isEmpty then (.error errors, r.unresolved)
    else (.ok (m, r.sites), r.unresolved)
  | .error (e, unresolved) => (.error [e], unresolved)

/-- The rounds for one choice of long branches. -/
def measureFillRounds (u : AsmStatement) (long : Finset Site) :
    Except (List AsmError) (SectionLabelOffsets × List AsmRelaxSite) :=
  match measureRound u none long with
  | (.ok m, false) => .ok m
  | (first, true) =>
    let prev := match first with | .ok (m, _) => m | .error _ => .empty
    match measureRound u (some prev) long with
    | (.ok m, false) => .ok m
    | (.error e, _) => .error e
    | _ => .error [(none, .unsettled)]
  | (.error e, _) => .error e

section

-- The equations are made here, once for all the lemmas that unfold these.
attribute [local simp] measureItem measureCount measureAlignSpec poolLabels

end

end Badc.Asm
