import Badc.Asm.Expr

/-!
# Sections of an assembler statement

A statement is a list of section blocks, each a list of items in source order.  Of an item the
layout reads how many bytes it takes; what the bytes are is left to the encoders, so a section in
the sink is its length here, with its labels and the mapping state its last item left behind.
-/

namespace Badc.Asm

inductive MapClass
  | code
  | data
  deriving DecidableEq

/-- The no-op forms that fill a gap before an instruction. -/
inductive AlignNops
  | x86
  | x86Bits16
  | a64
  deriving DecidableEq

/-- The unit an alignment gap is filled with. -/
structure AlignFill where
  value : ℕ
  width : ℕ
  deriving DecidableEq

/-- The operand of an alignment directive: a byte count, or an expression over labels. -/
inductive AlignSpec
  | bytes (n : ℕ)
  | expr (text : Text) (pow2 : Bool)
  deriving DecidableEq

structure AsmPoolEntry where
  size : ℕ
  label : Text
  deriving DecidableEq

/-- The field of a short branch: where it lies in the encoding, how wide it is and what it
reaches. -/
structure AsmShortReloc where
  offset : ℕ
  width : ℕ
  target : AsmSectionTarget
  addend : ℤ
  deriving DecidableEq

structure AsmShortBranch where
  len : ℕ
  reloc : AsmShortReloc
  deriving DecidableEq

/-- The directives that attach something to a label, which may still come. -/
inductive SymbolAttr
  | globl | local_ | type | size
  deriving DecidableEq

/-- The directives that lay no byte and touch no label of a section. -/
inductive UnitAttr
  | common | visibility | file | ident | condDiag | cfi | reloc
  deriving DecidableEq

/-- An item of a section block.  Of data values and of encoded instructions only the number and
the length is kept; `constant` says that a `.byte` family directive holds constants only and
`relocated` that an instruction has relocations. -/
inductive AsmSectionItem
  | data (width count : ℕ) (constant : Bool)
  | align (spec : AlignSpec) (fill : Option AlignFill) (max : Option ℕ) (nops : AlignNops)
  | org (n : ℕ)
  | orgLabel (label addend : Text)
  | orgExpr (expr : Text)
  | rept (count : Text) (items : List AsmSectionItem)
  | fill (count : Text) (unit : ℕ)
  | bytes (len : ℕ)
  | label (name : Text)
  | symbolAttr (kind : SymbolAttr) (name : Text)
  | weak (name : Text)
  | code (text : Text)
  | codeBytes (len : ℕ) (relocated : Bool) (short : Option AsmShortBranch)
  | symSet (name target : Text)
  | setExpr (name expr : Text)
  | absSet (name : Text) (value : ℤ)
  | literalPool (entries : List AsmPoolEntry)
  | unitAttr (kind : UnitAttr)

structure AsmLineItem where
  line : ℕ
  item : AsmSectionItem

structure AsmSectionBlock where
  key : SectionKey
  subsection : ℕ
  items : List AsmLineItem

/-- Whether the flags of a section make it executable. -/
def SectionKey.exec (k : SectionKey) : Bool := k.flags.contains (byte 'x')

/-- Block and item index. -/
abbrev Site := ℕ × ℕ

/-- Insert a block behind those of its subsection. -/
def insertBlock (b : ℕ × AsmSectionBlock) :
    List (ℕ × AsmSectionBlock) → List (ℕ × AsmSectionBlock)
  | [] => [b]
  | c :: l => if b.2.subsection < c.2.subsection then b :: c :: l else c :: insertBlock b l

/-- The blocks with their indices in the order in which they are laid out: stable by subsection
number. -/
def subsectionOrder (blocks : List AsmSectionBlock) : List (ℕ × AsmSectionBlock) :=
  (blocks.zipIdx.map Prod.swap).foldl (fun l b => insertBlock b l) []

/-! ## Alignment -/

/-- The bytes to the next multiple of `align`, or none where that is more than `max`. -/
def alignGap (at_ : ℤ) (align : ℤ) (max : Option ℕ) : ℤ :=
  let gap := (align - at_ % align) % align
  match max with
  | some m => if gap > m then 0 else gap
  | none => gap

/-- The bytes before an instruction. -/
def insnAlignGap (at_ : ℤ) (state : Option MapClass) (exec alignIsP2 : Bool) : ℤ :=
  if alignIsP2 && exec && state == some .data then alignGap at_ 4 none else 0

/-- The byte alignment an operand denotes. -/
def alignSpecValue (v : ℤ) (pow2 : Bool) : Option ℕ :=
  if pow2 then
    if 0 ≤ v ∧ v ≤ 12 then some (2 ^ v.toNat) else none
  else if 0 ≤ v ∧ v < 2 ^ 32 then
    if v = 0 then some 1
    else if 2 ^ v.toNat.log2 = v.toNat then some v.toNat else none
  else none

/-- The operand of an expression alignment under a resolver; a forward reference has no value. -/
def alignExprValue (t : Text) (pow2 : Bool) (resolve : Text → Option ℤ) : Option ℕ :=
  let placed (t : Text) : Option ℤ :=
    if t.getLast? == some (byte 'f') && (numericLabelDigits t).isSome then none else resolve t
  (evalAsmExprWithLabels t placed).bind fun v => alignSpecValue v pow2

/-! ## Items -/

mutual
/-- The mapping state an item leaves behind. -/
def stepMapState (exec : Bool) : AsmSectionItem → Option MapClass → Option MapClass
  | .codeBytes .., _ => some .code
  | .align (.bytes n) _ _ _, cur => if 1 < n then some (if exec then .code else .data) else cur
  | .data .., _ => some .data
  | .fill .., _ => some .data
  | .bytes _, _ => some .data
  | .rept _ items, cur => stepMapStates exec items cur
  | _, cur => cur

/-- The mapping state a list of items leaves behind. -/
def stepMapStates (exec : Bool) : List AsmSectionItem → Option MapClass → Option MapClass
  | [], cur => cur
  | it :: items, cur => stepMapStates exec items (stepMapState exec it cur)
end

/-- The offsets the entries of one width take from `at_` on, entry by entry, and the offset past
them. -/
def poolWidth (size : ℕ) : List AsmPoolEntry → List ℤ → ℤ → List ℤ × ℤ
  | e :: es, o :: os, at_ =>
    if e.size = size then
      let here := at_ + alignGap at_ size none
      let r := poolWidth size es os (here + size)
      (here :: r.1, r.2)
    else
      let r := poolWidth size es os at_
      (o :: r.1, r.2)
  | _, os, at_ => (os, at_)

/-- The offsets of a literal pool's entries and the offset past it: the widths ascend, and each
entry is aligned to its own. -/
def literalPoolLayout (entries : List AsmPoolEntry) (at_ : ℤ) : List ℤ × ℤ :=
  let r := poolWidth 4 entries (entries.map fun _ => 0) at_
  let r := poolWidth 8 entries r.1 r.2
  poolWidth 16 entries r.1 r.2

/-! ## The sink -/

structure AsmSectionLabel where
  name : Text
  offset : ℕ
  absolute : Option ℤ
  deriving DecidableEq

/-- A section: the length of its bytes, its labels, of which the first `published` belong to
earlier statements, whether its last byte came from an instruction, and the mapping state. -/
structure AsmSection where
  len : ℕ
  labels : List AsmSectionLabel
  published : ℕ
  align : ℕ
  afterInsn : Bool
  mapState : Option MapClass

/-- What earlier statements left: the sections, the labels they published, the key a bare section
name stands for, and the names they bound weak. -/
structure AsmSectionSink where
  sections : SectionKey → Option AsmSection
  labels : Text → Option (SectionKey × ℤ)
  sectionNamed : Text → Option SectionKey
  weakNames : Text → Bool

/-- Where a template label of the code stream lies. -/
inductive LabelLoc
  | text (off : ℕ)
  | deferred (region off : ℕ)
  deriving DecidableEq

section

-- The equations are made here, once for all the lemmas that unfold these.
attribute [local simp] poolWidth literalPoolLayout

end

end Badc.Asm
