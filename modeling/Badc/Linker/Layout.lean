import Badc.Linker.Pools
import Badc.Linker.Script

/-!
# The layout passes

`layout.rs` and the driver loop of `LdsLinker::run`.  A pass walks the statements of the script and
gives every output section an address, a size and a list of chunks, and every input section its
place.  It reads what the pass before it left behind: script symbols, places and sections it has not
visited yet, and the tables sized from it.  Passes repeat until two in a row have one fingerprint;
a last pass then reports errors.

The sizes of the sections the linker fills itself and of veneer areas come from functions of the
state (`Link.sizeDynamic`, `Link.sizeReserve`) that stand for `size_dynamic_sections`,
`size_eh_frame_hdr` and `a53_size_reserve`.
-/

namespace Badc.Layout

open Script Pools

/-! ## Sections and their pieces -/

def shfAlloc : ℕ := 0x2
def shfExecinstr : ℕ := 0x4
def shfInfoLink : ℕ := 0x40
def shfLinkOrder : ℕ := 0x80
def shfGroup : ℕ := 0x200
def shfTls : ℕ := 0x400
def shfExclude : ℕ := 0x80000000
def shtNote : ℕ := 7

/-- The widths of data statements. -/
inductive DataWidth
  | byte | short | long | quad
  deriving DecidableEq

/-- The bytes of a data statement. -/
def DataWidth.size : DataWidth → ℕ
  | .byte => 1
  | .short => 2
  | .long => 4
  | .quad => 8

/-- A content element of an output section, in statement order. -/
inductive Piece
  | inputs (v : List ℕ)
  | data (w : DataWidth) (e : Expr)
  | assign (a : Assignment)
  | assert (e : Expr) (msg : String)
  | fill (e : Expr)
  deriving DecidableEq

inductive OutputSectionType
  | noLoad
  | info
  deriving DecidableEq

/-- What the script says of an output section. -/
structure OutSec where
  name : String
  address : Option Expr
  stype : Option OutputSectionType
  «at» : Option Expr
  alignAttr : Option Expr
  pieces : List Piece
  fill : Option Expr
  orphan : Bool
  deriving DecidableEq

/-- The source of a chunk. -/
inductive ChunkSrc
  | input (i : ℕ)
  | bytes (b : List Byte)
  | pad (b : List Byte)
  | veneers
  deriving DecidableEq

/-- A chunk of an output section: `len` bytes from `off` on. -/
structure Chunk where
  off : ℕ
  len : ℕ
  src : ChunkSrc
  deriving DecidableEq

/-- What a pass computes of an output section. -/
structure OutVals where
  addr : ℕ
  lma : ℕ
  size : ℕ
  align : ℕ
  flags : ℕ
  shtype : ℕ
  entsize : ℕ
  alloc : Bool
  fileBytes : Bool
  chunks : List Chunk
  deriving DecidableEq

/-- A section with nothing laid yet. -/
def OutVals.empty : OutVals := ⟨0, 0, 0, 1, 0, shtProgbits, 0, false, false, []⟩

/-- The place of an input section in a pass. -/
structure Placement where
  out : ℕ
  off : ℕ
  placed : Bool
  deriving DecidableEq

/-- A symbol a script defines. -/
structure ScriptSym where
  val : Val
  hidden : Bool
  kind : ℕ
  /-- The section of the symbol table for a value taken from the location counter. -/
  finalOut : Option ℕ
  vis : Option ℕ
  deriving DecidableEq

inductive Stmt
  | assign (a : Assignment)
  | assert (e : Expr) (msg : String)
  | «open» (oi : ℕ)
  deriving DecidableEq

/-- The commands of a script a pass executes. -/
inductive Command
  | assign (a : Assignment)
  | assert (e : Expr) (msg : String)
  | sections
  | other
  deriving DecidableEq

/-- Where an object defines a symbol. -/
inductive SymDef
  | abs (v : Word)
  | undefined
  /-- An input section and an offset in it. -/
  | inSection (i : ℕ) (value : ℕ)
  deriving DecidableEq

/-- A symbol of the objects. -/
structure GlobalSym where
  kind : ℕ
  value : SymDef
  deriving DecidableEq

/-- The state of the passes. -/
structure Pass (δ : Type) where
  dot : ℕ
  scriptNow : String → Option ScriptSym
  scriptPrev : String → Option ScriptSym
  placements : ℕ → Placement
  outs : ℕ → OutVals
  referenced : String → Bool
  lmaDelta : ℕ
  curOut : Option ℕ
  dotSection : Option ℕ
  preferNext : Bool
  curStmt : ℕ
  foundEnd : Bool
  afterEnd : ℕ → Bool
  errors : List String
  undefined : List String
  veneerReserve : ℕ → Option ℕ
  /-- The number of program headers the layout leaves room for. -/
  phdrs : ℕ
  tables : δ

/-- What does not change between passes.  `δ` holds the dynamic tables. -/
structure Link (δ : Type) extends LdsLinker where
  pools : PoolTable
  /-- The size of an `.eh_frame` input that is rewritten, and where its bytes go. -/
  ehFrames : ℕ → Option (ℕ × (ℕ → Option ℕ))
  globals : String → Option GlobalSym
  scriptAssigned : String → Bool
  outSecs : List OutSec
  stmts : List Stmt
  commands : List Command
  machine : ℕ
  maxPageSize : Word
  commonPageSize : Word
  /-- The size of the file header and so many program headers. -/
  sizeofHeaders : ℕ → Word
  /-- The sections the linker fills itself. -/
  isSynth : ℕ → Bool
  synthSize : δ → ℕ → Option ℕ
  sizeDynamic : Pass δ → δ
  sizeReserve : Pass δ → ℕ → Option ℕ
  /-- The number of program headers a layout needs, where they can be built. -/
  countPhdrs : Pass δ → Option ℕ
  /-- The counts of the dynamic tables in a fingerprint. -/
  counts : δ → List ℕ
  /-- The names a script can define, in order. -/
  names : List String

variable {δ : Type}

/-- An input section. -/
def Link.insec (lk : Link δ) (i : ℕ) : RawSection :=
  lk.insecs.getD i ⟨0, 0, 0, 0, 0, [], [], by norm_num, fun _ => rfl⟩

/-- An output section of the script. -/
def Link.outSec (lk : Link δ) (oi : ℕ) : OutSec :=
  lk.outSecs.getD oi ⟨"", none, none, none, none, [], none, false⟩

/-- The pool of an input section. -/
def Link.poolOf (lk : Link δ) (i : ℕ) : Option MergePool :=
  (lk.pools.mergeOf i).bind fun pl => lk.pools.pools[pl]?

/-- The size an input section takes, 0 for a member of a pool that does not carry its bytes. -/
def Link.insecPlacedSize (lk : Link δ) (st : Pass δ) (i : ℕ) : ℕ :=
  match lk.poolOf i with
  | some pool => if pool.rep = i then pool.bytes.length else 0
  | none =>
    match lk.ehFrames i with
    | some eh => eh.1
    | none => (lk.synthSize st.tables i).getD (lk.insec i).size

/-- The offset in an input section after the transformations that move bytes within it. -/
def Link.placedOff (lk : Link δ) (i off : ℕ) : Option ℕ :=
  match lk.pools.mergeOf i with
  | some _ => lk.toLdsLinker.mergeRemap lk.pools i off
  | none =>
    match lk.ehFrames i with
    | some eh => eh.2 off
    | none => some off

/-! ## Symbols -/

/-- The value of a symbol of the objects, under the places of this pass and, for sections not yet
placed, of the pass before it. -/
def Link.objectSymVal (lk : Link δ) (st : Pass δ) : SymDef → Option Val
  | .abs v => some (.abs v)
  | .undefined => none
  | .inSection i value =>
    match lk.fates[i]? with
    | some (.placed out) => do
      let off ← lk.placedOff i value
      let base := match lk.poolOf i with
        | some pool => (st.placements pool.rep).off
        | none => (st.placements i).off
      return ⟨BitVec.ofNat 64 (st.outs out).addr + BitVec.ofNat 64 base + BitVec.ofNat 64 off,
        .out out⟩
    | _ => none

/-- The value of a name other than `.`. -/
def Link.symbolVal (lk : Link δ) (st : Pass δ) (name : String) : Option Val :=
  match st.scriptNow name with
  | some s => some s.val.asReference
  | none =>
    match (lk.globals name).bind fun g => lk.objectSymVal st g.value with
    | some v => some v
    | none => (st.scriptPrev name).map fun s => s.val.asReference

/-- What expressions read in a state, with the location counter at `dot`. -/
def Link.scope (lk : Link δ) (finalPass : Bool) (st : Pass δ) (dot : ℕ) : Scope where
  dot := BitVec.ofNat 64 dot
  curOut := st.curOut
  symbol := lk.symbolVal st
  maxPageSize := lk.maxPageSize
  commonPageSize := lk.commonPageSize
  findOut name := lk.outSecs.findIdx? fun o => o.name == name
  addr oi := BitVec.ofNat 64 (st.outs oi).addr
  lma oi := BitVec.ofNat 64 (st.outs oi).lma
  size oi := BitVec.ofNat 64 (st.outs oi).size
  align oi := BitVec.ofNat 64 (st.outs oi).align
  sizeofHeaders := lk.sizeofHeaders st.phdrs
  defined name := (st.scriptNow name).isSome || (st.scriptPrev name).isSome || (lk.globals name).isSome
  finalPass

/-- Add a report to the state. -/
def Pass.report (st : Pass δ) (d : Diag) : Pass δ :=
  { st with errors := st.errors ++ d.errors, undefined := st.undefined ++ d.undefined }

/-- Evaluate an expression with the location counter at `dot`. -/
def Link.evalWithDot (lk : Link δ) (finalPass : Bool) (st : Pass δ) (e : Expr) (dot : ℕ) :
    Val × Pass δ :=
  let (v, d) := evalInner (lk.scope finalPass st dot) e
  (v, st.report d)

/-- Evaluate an expression. -/
def Link.eval (lk : Link δ) (finalPass : Bool) (st : Pass δ) (e : Expr) : Val × Pass δ :=
  lk.evalWithDot finalPass st e st.dot

/-- The type of a symbol that takes it from its expression, where that names one symbol and nothing
else. -/
def Link.assignedSymType (lk : Link δ) (a : Assignment) : ℕ :=
  let names := if a.op = .set then collectSymbols a.value else a.symbol :: collectSymbols a.value
  match names.dedup with
  | [name] => ((lk.globals name).map GlobalSym.kind).getD 0
  | _ => 0

/-- The output sections in the order they are opened. -/
def opens (stmts : List Stmt) : List ℕ :=
  stmts.filterMap fun s => match s with
    | .open oi => some oi
    | _ => none

/-- The section of the symbol table for a value taken from the location counter outside any output
section. -/
def Link.sectionForDot (lk : Link δ) (st : Pass δ) : Option ℕ :=
  let stripped := fun oi => (st.outs oi).size == 0 || (lk.outSec oi).name == "/DISCARD/"
  let isAlloc := fun oi => (st.outs oi).alloc && !stripped oi && (st.outs oi).flags &&& shfTls == 0
  let ops := opens lk.stmts
  let backFrom := fun start => (ops.take (start + 1)).reverse.find? isAlloc
  let fromSection := do
    let s ← st.dotSection
    let pos ← ops.findIdx? fun x => x == s
    match backFrom pos with
    | some o => return o
    | none => ops.find? isAlloc
  if st.dotSection.isNone || st.preferNext then
    let os := (opens (lk.stmts.drop (st.curStmt + 1))).find? fun o => st.afterEnd o || !stripped o
    if st.dotSection.isNone || (os.all fun o => !st.afterEnd o) then
      match os with
      | some o => (ops.findIdx? fun x => x == o).bind backFrom
      | none => if ops.length = 0 then none else backFrom (ops.length - 1)
    else fromSection
  else fromSection

/-! ## Statements -/

/-- A name is `end` behind its underscores. -/
def isEnd (name : String) : Bool := name.toList.dropWhile (fun c => c == '_') == "end".toList

/-- Define a script symbol. -/
def Link.define (lk : Link δ) (finalPass : Bool) (st : Pass δ) (a : Assignment) : Pass δ :=
  let st := if isEnd a.symbol then { st with foundEnd := true } else st
  let cur := (lk.scope finalPass st st.dot).lookup a.symbol
  let (rhs, st) := lk.eval finalPass st a.value
  let value : Val := match a.op with
    | .set => rhs
    | op => ⟨applyAssignOp ((cur.map Val.v).getD 0) op rhs.v, rhs.att⟩
  let finalOut := if value.att = .dotAbs then lk.sectionForDot st else none
  let sym : ScriptSym := ⟨value, a.hidden, lk.assignedSymType a, finalOut, none⟩
  { st with scriptNow := Function.update st.scriptNow a.symbol (some sym) }

/-- Execute an assignment.  After `SECTIONS` the location counter does not move any more. -/
def Link.execAssignment (lk : Link δ) (finalPass : Bool) (st : Pass δ) (a : Assignment)
    (afterSections : Bool) : Pass δ :=
  if a.symbol = "." then
    let (v, st) := lk.eval finalPass st a.value
    let new := applyAssignOp (BitVec.ofNat 64 st.dot) a.op v.v
    if afterSections then st else { st with dot := new.toNat }
  else if a.provide then
    if (lk.globals a.symbol).isSome || !st.referenced a.symbol then st
    else
      let names := collectSymbols a.value
      lk.define finalPass { st with referenced := fun n => st.referenced n || names.contains n } a
  else lk.define finalPass st a

/-- Execute an assertion. -/
def Link.execAssert (lk : Link δ) (finalPass : Bool) (st : Pass δ) (e : Expr) (msg : String) :
    Pass δ :=
  let (v, st) := lk.eval finalPass st e
  if finalPass ∧ v.v = 0 then { st with errors := st.errors ++ ["assertion failed: " ++ msg] } else st

/-! ## The chunks of a section -/

/-- The big-endian bytes of a value without leading zeros. -/
def fillPattern (v : Word) : List Byte :=
  let be := (leBytes 8 v.toNat).reverse
  match be.dropWhile fun b => b == 0 with
  | [] => [0]
  | b => b

/-- The padding of an architecture: NOPs in code where it has them, zeros elsewhere. -/
def archFill (machine : ℕ) (code : Bool) (len : ℕ) : List Byte :=
  if !code then List.replicate len 0
  else if machine = 3 ∨ machine = 62 then
    (List.range len).map fun k => if k % 2 = 0 ∧ k < len - 1 then 0x66 else 0x90
  else if machine = 183 ∧ 4 ∣ len then
    (List.replicate (len / 4) [0x1f, 0x20, 0x03, 0xd5]).flatten
  else List.replicate len 0

/-- The padding of a gap. -/
def padBytes (fill : Option (List Byte)) (machine : ℕ) (code : Bool) (len : ℕ) : List Byte :=
  match fill with
  | some f => f
  | none => archFill machine code len

/-- The chunks of an output section as its pieces are walked: the cursor, the furthest byte laid,
the chunks so far and the fill in force. -/
structure ChunkLayout where
  off : ℕ
  «end» : ℕ
  chunks : List Chunk
  fill : Option (List Byte)
  fileBytes : Bool
  allNobits : Bool
  code : Bool
  machine : ℕ

/-- Move the cursor; `pad` fills the gap. -/
def ChunkLayout.moveTo (lay : ChunkLayout) (dst : ℕ) (pad : Bool) : ChunkLayout :=
  let len := dst - lay.off
  let chunks := if lay.off < dst ∧ pad ∧ !lay.allNobits then
      lay.chunks ++ [⟨lay.off, len, .pad (padBytes lay.fill lay.machine lay.code len)⟩]
    else lay.chunks
  { lay with chunks, off := dst }

/-- Note how far the section reaches. -/
def ChunkLayout.noteEnd (lay : ChunkLayout) : ChunkLayout := { lay with «end» := max lay.end lay.off }

/-- Lay a chunk at the cursor. -/
def ChunkLayout.push (lay : ChunkLayout) (len : ℕ) (src : ChunkSrc) (fileBytes : Bool) : ChunkLayout :=
  ChunkLayout.noteEnd { lay with
    chunks := lay.chunks ++ [⟨lay.off, len, src⟩]
    fileBytes := lay.fileBytes || fileBytes
    off := (lay.off + len) % 2 ^ 64 }

/-- The location counter follows the cursor of an allocated section. -/
def Pass.follow (st : Pass δ) (alloc : Bool) (start : ℕ) (lay : ChunkLayout) : Pass δ :=
  if alloc then { st with dot := (start + lay.off) % 2 ^ 64 } else st

/-- A member of a pool that does not carry its bytes. -/
def Link.mergedAway (lk : Link δ) (i : ℕ) : Bool :=
  match lk.poolOf i with
  | some pool => pool.rep != i
  | none => false

/-- The alignment an input section is placed at. -/
def Link.placeAlign (lk : Link δ) (i : ℕ) : ℕ :=
  match lk.poolOf i with
  | some pool => pool.align
  | none => max (lk.insec i).addralign 1

/-- Place an input section at its alignment. -/
def Link.placeInput (lk : Link δ) (oi start : ℕ) (alloc : Bool) (s : Pass δ × ChunkLayout) (i : ℕ) :
    Pass δ × ChunkLayout :=
  let (st, lay) := s
  if lk.mergedAway i then
    ({ st with placements := Function.update st.placements i ⟨oi, lay.off, true⟩ }, lay)
  else
    let sz := lk.insecPlacedSize st i
    let nobits := (lk.insec i).shtype == shtNobits
    let lay := lay.moveTo (alignUp lay.off (lk.placeAlign i)) !nobits
    let st := { st with placements := Function.update st.placements i ⟨oi, lay.off, true⟩ }
    let lay := lay.push sz (.input i) (!nobits && decide (0 < sz))
    (st.follow alloc start lay, lay)

/-- Place the input sections of one spec. -/
def Link.placeInputs (lk : Link δ) (oi start : ℕ) (alloc : Bool) (v : List ℕ)
    (s : Pass δ × ChunkLayout) : Pass δ × ChunkLayout :=
  v.foldl (lk.placeInput oi start alloc) s

/-- Reserve the veneer area. -/
def layVeneers (veneerLen start : ℕ) (alloc : Bool) (s : Pass δ × ChunkLayout) :
    Pass δ × ChunkLayout :=
  let lay := s.2.moveTo (alignUp s.2.off 4) true
  let lay := lay.push veneerLen .veneers true
  (s.1.follow alloc start lay, lay)

/-- Lay a piece; `veneers` says that the veneer area follows it. -/
def Link.layOutPiece (lk : Link δ) (finalPass : Bool) (oi start : ℕ) (alloc : Bool)
    (s : Pass δ × ChunkLayout) (piece : Piece) (veneers : Bool) : Pass δ × ChunkLayout :=
  let (st, lay) := s
  match piece with
  | .inputs v =>
    let s := lk.placeInputs oi start alloc v (st, lay)
    let veneerLen := (s.1.veneerReserve oi).getD 0
    if 0 < veneerLen ∧ veneers then layVeneers veneerLen start alloc s else s
  | .assign a =>
    let st := lk.execAssignment finalPass st a false
    if alloc then
      let newOff := (st.dot + (2 ^ 64 - start)) % 2 ^ 64
      if st.dot < start ∧ finalPass then
        ({ st with errors := st.errors ++
          ["cannot move location counter backwards in `" ++ (lk.outSec oi).name ++ "'"] }, lay)
      else (st, (lay.moveTo newOff true).noteEnd)
    else (st, lay)
  | .assert e msg => (lk.execAssert finalPass st e msg, lay)
  | .data w e =>
    let (v, st) := lk.eval finalPass st e
    let lay := lay.push w.size (.bytes (leBytes w.size v.v.toNat)) true
    (st.follow alloc start lay, lay)
  | .fill e =>
    let (v, st) := lk.eval finalPass st e
    (st, { lay with fill := some (fillPattern v.v) })

/-- A piece of input sections. -/
def Piece.isInputs : Piece → Bool
  | .inputs _ => true
  | _ => false

/-- Walk the pieces of an output section in statement order.  The veneer area sits after the last
piece of input sections. -/
def Link.layOutPieces (lk : Link δ) (finalPass : Bool) (oi start : ℕ) (alloc : Bool) :
    List Piece → Pass δ × ChunkLayout → Pass δ × ChunkLayout
  | [], s => s
  | p :: ps, s => lk.layOutPieces finalPass oi start alloc ps
      (lk.layOutPiece finalPass oi start alloc s p (!ps.any Piece.isInputs))

/-! ## An output section -/

/-- The input sections of a piece. -/
def Piece.claimed : Piece → List ℕ
  | .inputs v => v
  | _ => []

/-- The input sections of an output section. -/
def OutSec.inputs (o : OutSec) : List ℕ := o.pieces.flatMap Piece.claimed

/-- What the inputs of an output section say of it. -/
structure InputSummary where
  flags : ℕ
  align : ℕ
  any : Bool
  allNobits : Bool
  allNote : Bool
  entsizes : List ℕ
  flagSet : List ℕ

/-- Gather the inputs of an output section. -/
def Link.summarizeInputs (lk : Link δ) (oi : ℕ) : InputSummary :=
  (lk.outSec oi).inputs.foldl
    (fun s i =>
      let sec := lk.insec i
      { flags := s.flags ||| sec.flags
        align := max s.align sec.addralign
        any := true
        allNobits := s.allNobits && sec.shtype == shtNobits
        allNote := s.allNote && sec.shtype == shtNote
        entsizes := s.entsizes ++ [sec.entsize]
        flagSet := s.flagSet ++ [sec.flags] })
    ⟨0, 1, false, true, true, [], []⟩

/-- Every input carries the same flags and entry size. -/
def InputSummary.uniform (s : InputSummary) : Bool :=
  !s.flagSet.isEmpty && (s.flagSet.all fun f => f == s.flagSet.headD 0) &&
    s.entsizes.all fun e => e == s.entsizes.headD 0

/-- Clear flags. -/
def clearFlags (flags mask : ℕ) : ℕ := flags - (flags &&& mask)

/-- The type, flags and entry size of an output section. -/
def Link.classifyOutput (lk : Link δ) (oi : ℕ) (inputs : InputSummary) (size : ℕ) (fileBytes alloc : Bool) :
    ℕ × ℕ × ℕ :=
  let shtype := if 0 < size ∧ !fileBytes ∧ inputs.allNobits then shtNobits
    else if inputs.any ∧ inputs.allNote then shtNote
    else shtProgbits
  let flags := clearFlags inputs.flags (shfGroup ||| shfInfoLink ||| shfExclude ||| shfLinkOrder)
  let linkOrder := match (lk.outSec oi).inputs.head? with
    | some i => (lk.insec i).flags &&& shfLinkOrder != 0
    | none => false
  let flags := if linkOrder then flags ||| shfLinkOrder else flags
  let flags := if inputs.uniform then flags else clearFlags flags (shfMerge ||| shfStrings)
  let flags := if alloc ∧ (inputs.any ∨ fileBytes ∨ 0 < size) then flags ||| shfAlloc else flags
  let flags := if alloc then flags else clearFlags flags shfAlloc
  (shtype, flags, if inputs.uniform then inputs.entsizes.headD 0 else 0)

/-- The types a section the linker fills gives to its output section. -/
def synthTypes : List ℕ := [9, 4, 19, 3, 5, 6, 11, 0x6ffffff6, 0x6ffffffd, 0x6fffffff]

/-- The type the linker's own inputs give to an output section. -/
def Link.synthOutType (lk : Link δ) (oi : ℕ) : Option ℕ :=
  ((lk.outSec oi).inputs.filter fun i => lk.isSynth i && synthTypes.contains (lk.insec i).shtype).head?.map
    fun i => (lk.insec i).shtype

/-- A name that can be an identifier. -/
def isCIdentifier (name : String) : Bool :=
  !name.isEmpty && name.toList.all fun c => c.isAlphanum || c == '_'

/-- Bound an output section whose name is an identifier with two symbols, where they are referenced
and not defined otherwise. -/
def Link.defineStartStop (lk : Link δ) (st : Pass δ) (oi : ℕ) : Pass δ :=
  let o := st.outs oi
  let name := (lk.outSec oi).name
  if !o.alloc ∨ !isCIdentifier name then st
  else
    [("__start_", o.addr), ("__stop_", (o.addr + o.size) % 2 ^ 64)].foldl
      (fun st p =>
        let sym := p.1 ++ name
        let bound : ScriptSym := ⟨⟨BitVec.ofNat 64 p.2, .out oi⟩, false, 0, some oi, some 3⟩
        if (lk.globals sym).isSome || lk.scriptAssigned sym || !st.referenced sym then st
        else { st with scriptNow := Function.update st.scriptNow sym (some bound) }) st

/-- The alignment the script asks for. -/
def Link.attrAlign (lk : Link δ) (finalPass : Bool) (st : Pass δ) (oi : ℕ) : ℕ × Pass δ :=
  match (lk.outSec oi).alignAttr with
  | some e =>
    let (v, st) := lk.eval finalPass st e
    (max v.v.toNat 1, st)
  | none => (1, st)

/-- An output section is part of the image.  An explicit address of zero with inputs that are not
allocated keeps it out, and so do its type and, for an orphan, its inputs. -/
def Link.allocated (lk : Link δ) (oi : ℕ) : Bool :=
  let o := lk.outSec oi
  let inputs := lk.summarizeInputs oi
  let explicitZero := decide (o.address = some (.number 0))
  let nonAllocInputs := decide (inputs.flags &&& shfAlloc = 0)
  let infoType := decide (o.stype = some .info)
  let orphanNonAlloc := o.orphan && nonAllocInputs && inputs.any
  !infoType && !(explicitZero && nonAllocInputs) && !orphanNonAlloc

/-- Give an output section its address: the state, the address and the alignment. -/
def Link.placeSection (lk : Link δ) (finalPass : Bool) (st : Pass δ) (oi : ℕ) : Pass δ × ℕ × ℕ :=
  let (attrAlign, st) := lk.attrAlign finalPass st oi
  let secAlign := max (lk.summarizeInputs oi).align attrAlign
  match (lk.outSec oi).address with
  | some ae =>
    let (v, st) := lk.eval finalPass st ae
    let st := if lk.allocated oi then { st with dot := v.v.toNat } else st
    (st, v.v.toNat, secAlign)
  | none =>
    if lk.allocated oi then
      let dot := alignUp st.dot secAlign
      ({ st with dot }, dot, secAlign)
    else (st, 0, secAlign)

/-- Record what a pass computes of an output section. -/
def Pass.setOut (st : Pass δ) (oi : ℕ) (o : OutVals) : Pass δ :=
  { st with outs := Function.update st.outs oi o }

/-- Open an output section at its address. -/
def Pass.openAt (st : Pass δ) (oi start : ℕ) : Pass δ :=
  { st with curOut := some oi }.setOut oi { st.outs oi with addr := start }

/-- The chunks before the pieces are walked. -/
def Link.initLayout (lk : Link δ) (finalPass : Bool) (st : Pass δ) (oi : ℕ) : Pass δ × ChunkLayout :=
  let inputs := lk.summarizeInputs oi
  let (fill, st) := match (lk.outSec oi).fill with
    | some e =>
      let (v, st) := lk.eval finalPass st e
      (some (fillPattern v.v), st)
    | none => (none, st)
  (st, ⟨0, 0, [], fill, false, inputs.allNobits, inputs.flags &&& shfExecinstr != 0, lk.machine⟩)

/-- What a pass computes of an output section, but for the load address. -/
def Link.laid (lk : Link δ) (oi secAlign addr lma : ℕ) (lay : ChunkLayout) : OutVals :=
  let o := lk.outSec oi
  let (shtype, flags, entsize) :=
    lk.classifyOutput oi (lk.summarizeInputs oi) lay.end lay.fileBytes (lk.allocated oi)
  let shtype := if o.stype = some .noLoad then shtNobits else shtype
  { addr, lma
    size := lay.end
    align := secAlign
    flags
    shtype := (lk.synthOutType oi).getD shtype
    entsize
    alloc := lk.allocated oi
    fileBytes := lay.fileBytes
    chunks := lay.chunks }

/-- The load address of an allocated section. -/
def Link.loadAddress (lk : Link δ) (finalPass : Bool) (st : Pass δ) (oi start : ℕ) : ℕ × Pass δ :=
  match (lk.outSec oi).at with
  | some e =>
    let (v, st) := lk.evalWithDot finalPass st e start
    (v.v.toNat, { st with lmaDelta := (v.v - BitVec.ofNat 64 start).toNat })
  | none => ((start + st.lmaDelta) % 2 ^ 64, st)

/-- Record an output section after its pieces are walked, and move the location counter behind it. -/
def Link.recordSection (lk : Link δ) (finalPass : Bool) (oi start secAlign savedDot : ℕ)
    (s : Pass δ × ChunkLayout) : Pass δ :=
  let (st, lay) := s
  let old := st.outs oi
  let st := st.setOut oi (lk.laid oi secAlign old.addr old.lma lay)
  let st := if lk.allocated oi then
      let st := { st with dot := (start + lay.end) % 2 ^ 64 }
      let (lma, st) := lk.loadAddress finalPass st oi start
      st.setOut oi (lk.laid oi secAlign old.addr lma lay)
    else { st with dot := savedDot }.setOut oi (lk.laid oi secAlign old.addr old.addr lay)
  { lk.defineStartStop st oi with curOut := none }

/-- Lay out an output section. -/
def Link.layoutOutSection (lk : Link δ) (finalPass : Bool) (st : Pass δ) (oi : ℕ) : Pass δ :=
  let (st, start, secAlign) := lk.placeSection finalPass st oi
  let savedDot := st.dot
  let s := lk.layOutPieces finalPass oi start (lk.allocated oi) (lk.outSec oi).pieces
    (lk.initLayout finalPass (st.openAt oi start) oi)
  lk.recordSection finalPass oi start secAlign savedDot s

/-! ## The passes -/

/-- Come to an output section.  One known to be empty does not become the anchor of the location
counter. -/
def Link.enterSection (lk : Link δ) (st : Pass δ) (oi : ℕ) : Pass δ :=
  let st := { st with afterEnd := Function.update st.afterEnd oi st.foundEnd }
  if (st.outs oi).alloc ∧ 0 < (st.outs oi).size ∧ (lk.outSec oi).name ≠ "/DISCARD/" then
    { st with dotSection := some oi, preferNext := false }
  else st

/-- Execute a statement. -/
def Link.execStmt (lk : Link δ) (finalPass : Bool) (st : Pass δ) (p : Stmt × ℕ) : Pass δ :=
  let st := { st with curStmt := p.2 }
  match p.1 with
  | .assign a =>
    let st := if a.symbol = "." then { st with preferNext := true } else st
    lk.execAssignment finalPass st a false
  | .assert e msg => lk.execAssert finalPass st e msg
  | .open oi => lk.layoutOutSection finalPass (lk.enterSection st oi) oi

/-- Execute the statements of `SECTIONS`. -/
def Link.execSections (lk : Link δ) (finalPass : Bool) (st : Pass δ) : Pass δ :=
  lk.stmts.zipIdx.foldl (lk.execStmt finalPass) st

/-- Execute a command; the flag says whether `SECTIONS` is done. -/
def Link.execCommand (lk : Link δ) (finalPass : Bool) (s : Pass δ × Bool) (cmd : Command) :
    Pass δ × Bool :=
  match cmd with
  | .assign a => (lk.execAssignment finalPass s.1 a s.2, s.2)
  | .assert e msg => (lk.execAssert finalPass s.1 e msg, s.2)
  | .sections => (lk.execSections finalPass s.1, true)
  | .other => s

/-- What a pass starts from. -/
def Link.beginPass (lk : Link δ) (st : Pass δ) : Pass δ :=
  { st with
    tables := lk.sizeDynamic st
    scriptPrev := st.scriptNow
    scriptNow := fun _ => none
    placements := fun i => { st.placements i with placed := false }
    dot := 0
    curOut := none
    dotSection := none
    preferNext := false
    curStmt := 0
    foundEnd := false
    lmaDelta := 0
    errors := []
    undefined := [] }

/-- A layout pass. -/
def Link.layoutPass (lk : Link δ) (finalPass : Bool) (st : Pass δ) : Pass δ :=
  (lk.commands.foldl (lk.execCommand finalPass) (lk.beginPass st, false)).1

/-- What convergence compares: addresses, sizes and load addresses of output sections, the values of
script symbols in the order of their names, the counts of the dynamic tables, and the veneer areas. -/
def Link.fingerprint (lk : Link δ) (st : Pass δ) : List ℕ :=
  ((List.range lk.outSecs.length).flatMap fun oi =>
      [(st.outs oi).addr, (st.outs oi).size, (st.outs oi).lma]) ++
    (lk.names.filterMap fun n => (st.scriptNow n).map fun s => s.val.v.toNat) ++
    lk.counts st.tables ++
    (List.range lk.outSecs.length).flatMap fun oi =>
      match st.veneerReserve oi with
      | some v => [oi, v]
      | none => []

/-- A pass before the last one, and the veneer areas its addresses need. -/
def Link.round (lk : Link δ) (st : Pass δ) : Pass δ :=
  let st := lk.layoutPass false st
  { st with veneerReserve := lk.sizeReserve st }

/-- Repeat passes until two in a row have one fingerprint. -/
def Link.converge (lk : Link δ) : ℕ → Option (List ℕ) → Pass δ → Option (Pass δ)
  | 0, _, _ => none
  | fuel + 1, prev, st =>
    let st := lk.round st
    if prev = some (lk.fingerprint st) then some st
    else lk.converge fuel (some (lk.fingerprint st)) st

/-- Settle the layout for a number of program headers, and the number for the layout. -/
def Link.settle (lk : Link δ) : ℕ → Pass δ → Option (Pass δ)
  | 0, st => some st
  | fuel + 1, st => do
    let st ← lk.converge 48 none st
    let n ← lk.countPhdrs st
    if n = st.phdrs then return st else lk.settle fuel { st with phdrs := n }

/-- The layout of a link: the passes, and a last one that must not report errors. -/
def Link.run (lk : Link δ) (st : Pass δ) : Option (Pass δ) := do
  let st ← lk.settle 4 st
  let st := lk.layoutPass true st
  if st.errors = [] then return st else none

section

-- The equations are made here, once for all the lemmas that unfold these.
attribute [local simp] Link.layOutPiece Link.placeInput Link.placeSection Link.layoutOutSection
  Link.execStmt Link.execAssignment Link.define Link.defineStartStop

end

end Badc.Layout
