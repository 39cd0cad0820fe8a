import Badc.Preprocessor.Token

/-!
# Macro expansion

`subst` and `expand_tokens` of `src/c5/preprocessor/expand.rs`.  The pending tokens are a list with
the next token first; the source keeps them reversed on a stack.  The scan of an argument is the
same scan one level deeper, up to `maxMacroDepth`.

The scan runs on fuel: `none` says that it ran out.  `Exp.log` records what has been replaced; it
is there to state what holds of every replacement, and no function reads it.  Diagnostics and the
observers of macro names are left out.
-/

namespace Badc

namespace Preprocessor

/-- What a substituted line is. -/
inductive LineUse
  | text | operand | headerName | condition
  deriving DecidableEq, Repr

/-- How the rescan of a line ends. -/
inductive Tail
  | complete | fnName | openArgs
  deriving DecidableEq, Repr

/-- The line that is substituted. -/
structure Line where
  text : Spelling := []
  filename : Spelling := []
  lineNo : ℕ := 0
  what : LineUse := .text

/-- A name's state after the operators the scan executed: its definition, the saves they pushed,
and how many of the preprocessor's saves they popped. -/
structure Shadow where
  name : Spelling
  defn : SavedMacro
  pushed : List SavedMacro
  popped : ℕ
  deriving DecidableEq

/-- A replacement: the name token, the name, the hideset of the closing parenthesis of a
function-like invocation, the hideset of the invocation, the tokens that replace it with the
hidesets of their own, and those that rejoin the scan. -/
structure Replacement where
  tok : Tok
  name : Spelling
  close : Option ℕ
  inv : ℕ
  own : List Tok
  result : List Tok
  deriving DecidableEq

/-- Per-line expansion state. -/
structure Exp where
  arena : Arena
  tail : Tail := .complete
  srcPos : ℕ := 0
  counter : ℕ := 0
  shadows : List Shadow := []
  log : List Replacement := []
  deriving DecidableEq

/-- A computation on the expansion state that can run out of fuel. -/
abbrev M := StateT Exp Option

/-- Run an operation of the arena. -/
def onArena {α : Type} (f : Arena → Arena × α) : M α := fun ex =>
  some ((f ex.arena).2, { ex with arena := (f ex.arena).1 })

/-- The state of a substitution: the result so far, whether its last operand was a placemarker,
the expanded arguments kept, and the plain uses to come. -/
structure Sub where
  out : List Tok := []
  lastEmpty : Bool := false
  expArgs : List (Option (List Tok)) := []
  expVa : Option (List Tok) := none
  plainUses : List ℕ := []
  deriving DecidableEq

/-- Cap on the argument-expansion nesting depth. -/
def maxMacroDepth : ℕ := 200

variable (pp : Macros) (ln : Line)

section

variable (expand : List Tok → M (List Tok)) (fn : FnMacro) (rawArgs : List (List Tok))
  (sepSpace : List Bool) (rawVa : List Tok) (body : List Tok)

/-- The operand of a `#` at `i`: the unexpanded tokens of a parameter. -/
def hashOperand (i : ℕ) (t : Tok) : Option (List Tok) :=
  if isPunct pp t ['#'] then
    body[i + 1]?.bind fun next =>
      if next.kind = .ident then rawOf pp fn rawArgs rawVa next else none
  else none

/-- The right operand of a `##`: a placemarker leaves the left one, and gives way to the right. -/
def pasteRight (s : Sub) : List Tok → Sub
  | [] => s
  | right :: more =>
    if s.lastEmpty then { s with out := splice s.out (right :: more) false, lastEmpty := false }
    else
      match s.out.getLast? with
      | some left =>
        { s with out := s.out.dropLast ++ glue pp left right ++ more, lastEmpty := false }
      | none => { s with out := splice s.out (right :: more) false, lastEmpty := false }

/-- A `##` at `i`. -/
def pasteStep (i : ℕ) (s : Sub) : Sub :=
  match body[i + 1]? with
  | none => s
  | some next =>
    -- GNU `, ## __VA_ARGS__`: an omitted tail deletes the comma
    if isVa pp fn next && lastIsPunct pp s.out [','] then
      if rawVa = [] ∧ rawArgs.length ≤ max fn.params.length 1 then
        { s with out := s.out.dropLast }
      else { s with out := splice s.out rawVa true }
    else pasteRight pp s ((rawOf pp fn rawArgs rawVa next).getD [next])

/-- The variadic tail at `i`: expanded once in plain positions, unexpanded beside an operator. -/
def vaStep (i : ℕ) (t : Tok) (s : Sub) : M Sub :=
  if plainPosition pp body i then do
    let src ← match s.expVa with
      | some v => pure v
      | none => joinVa expand rawArgs sepSpace fn.params.length
    pure { s with
      out := splice s.out src t.space, lastEmpty := src.isEmpty, expVa := some src }
  else pure { s with out := splice s.out rawVa t.space, lastEmpty := rawVa.isEmpty }

/-- A parameter at `i`: its argument expanded once in plain positions and given away with the last
such use, unexpanded beside an operator. -/
def argStep (i : ℕ) (t : Tok) (idx : ℕ) (s : Sub) : M Sub :=
  if !plainPosition pp body i then
    pure { s with
      out := splice s.out (rawArgs.getD idx []) t.space
      lastEmpty := (rawArgs.getD idx []).isEmpty }
  else if idx < rawArgs.length then do
    let src ← match s.expArgs.getD idx none with
      | some e => pure e
      | none => expand (rawArgs.getD idx [])
    let uses := s.plainUses.getD idx 0 - 1
    pure { s with
      out := splice s.out src t.space
      lastEmpty := src.isEmpty
      expArgs := s.expArgs.set idx (if uses = 0 then none else some src)
      plainUses := s.plainUses.set idx uses }
  else pure { s with lastEmpty := true }

/-- Substitute at `i`; the index to go on from. -/
def substStep (i : ℕ) (t : Tok) (s : Sub) : M (ℕ × Sub) :=
  match hashOperand pp fn rawArgs rawVa body i t with
  | some raw =>
    pure (i + 2, { s with out := s.out ++ [stringize raw t.space], lastEmpty := false })
  | none =>
    if isPunct pp t ['#', '#'] then pure (i + 2, pasteStep pp fn rawArgs rawVa body i s)
    else if t.kind = .ident ∧ isVa pp fn t then do
      let s ← vaStep pp expand fn rawArgs sepSpace rawVa body i t s
      pure (i + 1, s)
    else
      match if t.kind = .ident then paramIndex pp fn t else none with
      | some idx => do
        let s ← argStep pp expand rawArgs body i t idx s
        pure (i + 1, s)
      | none => pure (i + 1, { s with out := s.out ++ [t], lastEmpty := false })

/-- Substitute from `i` on. -/
def substLoop : ℕ → ℕ → Sub → M Sub
  | 0, _, s => pure s
  | fuel + 1, i, s =>
    match body[i]? with
    | none => pure s
    | some t => do
      let (i, s) ← substStep pp expand fn rawArgs sepSpace rawVa body i t s
      substLoop fuel i s

/-- The replacement list with its parameters substituted, before the hideset of the invocation is
added. -/
def substBody : M (List Tok) := do
  let rawVa : List Tok := if fn.isVariadic then
    Id.run (joinVa pure rawArgs sepSpace fn.params.length) else []
  let body := fn.body.map Lexeme.tok
  let body := if fn.isVariadic then
    expandVaOptFrom pp fn rawArgs rawVa (body.length + 1) [] body else body
  let s ← substLoop pp expand fn rawArgs sepSpace rawVa body body.length 0
    { expArgs := rawArgs.map fun _ => none
      plainUses := plainUseCounts pp body fn rawArgs.length }
  pure s.out

end

/-- Add the hideset of the invocation to a replacement, and record it. -/
def carry (tok : Tok) (name : Spelling) (close : Option ℕ) (inv : ℕ) (own : List Tok) :
    M (List Tok) := do
  let result ← onArena fun a => hsAddAll a own inv
  modify fun ex => { ex with log := ex.log ++ [⟨tok, name, close, inv, own, result⟩] }
  pure result

/-- Replacement-list substitution of an invocation. -/
def subst (expand : List Tok → M (List Tok)) (tok : Tok) (name : Spelling) (fn : FnMacro)
    (rawArgs : List (List Tok)) (sepSpace : List Bool) (close inv : ℕ) : M (List Tok) := do
  let own ← substBody pp expand fn rawArgs sepSpace
  carry tok name (some close) inv own

/-! ## What the scan reads besides macros -/

/-- The line of the source token the expansion is at. -/
def srcLine (ex : Exp) : ℕ := ln.lineNo + (ln.text.take ex.srcPos).count '\n'

/-- A file name spelled as a string literal. -/
def quotedPath (path : Spelling) : Spelling := '"' :: pushStringBody path ++ ['"']

/-- The decimal spelling of a number. -/
def decimal (n : ℕ) : Spelling := Nat.toDigits 10 n

/-- The dynamic predefines: the token that replaces one. -/
def dynamicPredefine (tok : Tok) : M (Option Tok) := fun ex =>
  if tok.text = ['_', '_', 'L', 'I', 'N', 'E', '_', '_'] then
    some (some { text := decimal (srcLine ln ex), kind := .number, space := tok.space }, ex)
  else if tok.text = ['_', '_', 'F', 'I', 'L', 'E', '_', '_'] then
    some (some { text := quotedPath ln.filename, kind := .str, space := tok.space }, ex)
  else if tok.text = ['_', '_', 'B', 'A', 'S', 'E', '_', 'F', 'I', 'L', 'E', '_', '_'] then
    some (some { text := quotedPath pp.sourceLabel, kind := .str, space := tok.space }, ex)
  else if tok.text = ['_', '_', 'C', 'O', 'U', 'N', 'T', 'E', 'R', '_', '_'] then
    some (some { text := decimal ex.counter, kind := .number, space := tok.space },
      { ex with counter := ex.counter + 1 })
  else some (none, ex)

/-- The feature-test operators: the token that replaces one, and the tokens behind it. -/
def hasOperator (tok : Tok) (rest : List Tok) : Option (Tok × List Tok) :=
  let known : Option (Spelling → Bool) :=
    if tok.text = ['_', '_', 'h', 'a', 's', '_', 'b', 'u', 'i', 'l', 't', 'i', 'n'] then
      some pp.hasBuiltin
    else if tok.text = ['_', '_', 'h', 'a', 's', '_', 'a', 't', 't', 'r', 'i', 'b', 'u', 't',
        'e'] then some pp.hasAttribute
    else none
  match known, rest with
  | some known, opening :: arg :: closing :: rest =>
    if opening.text = ['('] ∧ arg.kind = .ident ∧ closing.text = [')'] then
      let verdict : Spelling := if known arg.text then ['1'] else ['0']
      some ({ text := verdict, kind := .number, space := tok.space }, rest)
    else none
  | _, _ => none

/-- How many of the next tokens form the operand of a `defined`. -/
def definedOperandLen (rest : List Tok) : ℕ :=
  match rest with
  | [] => 0
  | first :: more =>
    if isPunct pp first ['('] then
      match more with
      | name :: more =>
        if name.kind = .ident then
          if more.head?.any (isPunct pp · [')']) then 3 else 2
        else 0
      | [] => 0
    else if first.kind = .ident then 1 else 0

/-- The definition a name has after the operators the scan executed, when one changed it. -/
def shadowed (shadows : List Shadow) (name : Spelling) : Option SavedMacro :=
  (shadows.find? (·.name = name)).map Shadow.defn

/-- The definition the scan goes by: a function-like macro before an object-like one. -/
def liveMacro (shadows : List Shadow) (name : Spelling) : SavedMacro :=
  match shadowed shadows name with
  | some defn => defn
  | none =>
    match pp.fnMacros.lookup name with
    | some fn => .function fn
    | none =>
      match pp.macros.lookup name with
      | some body => .object body
      | none => .undefined

/-- `push_macro` or `pop_macro` on a shadow. -/
def Shadow.apply (push : Bool) (s : Shadow) : Shadow :=
  if push then { s with pushed := s.pushed ++ [s.defn] }
  else
    match s.pushed.getLast? with
    | some defn => { s with pushed := s.pushed.dropLast, defn := defn }
    | none =>
      match pp.pushedMacros.lookup s.name with
      | none => s
      | some saved =>
        if s.popped < saved.length then
          match saved[saved.length - (s.popped + 1)]? with
          | some defn => { s with defn := defn, popped := s.popped + 1 }
          | none => s
        else s

/-- `push_macro` or `pop_macro` of a name on the scan's shadows. -/
def shadowMacroStack (push : Bool) (name : Spelling) (shadows : List Shadow) : List Shadow :=
  let shadows := if shadows.any (·.name = name) then shadows
    else shadows ++ [{ name := name, defn := pp.savedMacro name, pushed := [], popped := 0 }]
  let place := shadows.findIdx (·.name = name)
  shadows.modify place (Shadow.apply pp push)

/-- The tokens of a pragma operator up to the `)` closing its `(`, and those behind. -/
def operatorExtent (rest : List Tok) : Option (List Tok × List Tok) :=
  match rest with
  | [] => none
  | first :: more =>
    if first.isOpen then (closeAt 1 more).map fun r => (first :: r.1 ++ [r.2.1], r.2.2) else none

/-- The text of a pragma operator. -/
def operatorText (tok : Tok) (toks : List Tok) : Spelling :=
  tok.text ++ toks.flatMap fun t => (if t.space then [' '] else []) ++ t.text

/-- A `push_macro` or `pop_macro` operator: it executes, and its tokens pass through. -/
def macroStateOperator (tok : Tok) (rest : List Tok) : M (Option (List Tok × List Tok)) := fun ex =>
  if tok.kind = .ident ∧ (tok.text = ['_', 'P', 'r', 'a', 'g', 'm', 'a'] ∨
      tok.text = ['_', '_', 'p', 'r', 'a', 'g', 'm', 'a']) then
    match operatorExtent rest with
    | none => some (none, ex)
    | some (toks, rest') =>
      match pp.macroStack (operatorText tok toks) with
      | none => some (none, ex)
      | some none => some (some (tok :: toks, rest'), ex)
      | some (some (push, name)) =>
        some (some (tok :: toks, rest'),
          { ex with shadows := shadowMacroStack pp push (pp.key name) ex.shadows })
  else some (none, ex)

/-! ## The scan -/

/-- The state of a scan: the pending tokens, the result so far, where the pending replacements end,
and the tokens of a `defined` operand still to pass through. -/
structure Scan where
  rest : List Tok
  out : List Tok := []
  replaced : Option ℕ := none
  operand : ℕ := 0
  deriving DecidableEq

/-- The smaller of a length and where the pending replacements end. -/
def lowered (replaced : Option ℕ) (len : ℕ) : Option ℕ :=
  match replaced with
  | none => some len
  | some r => some (min r len)

/-- How the rescan ends so far, at a function-like name that no argument list follows. -/
def noteTail (depth : ℕ) (rest : List Tok) : M Unit := fun ex =>
  if depth = 0 ∧ rest = [] then some ((), { ex with tail := .fnName })
  else if depth = 0 ∧ rest.head?.any (isPunct pp · ['(']) then
    some ((), { ex with tail := .openArgs })
  else some ((), ex)

/-- A macro name that may fire: its replacement rejoins the scan. -/
def replace (expand : List Tok → M (List Tok)) (depth : ℕ) (tok : Tok) (name : Spelling)
    (defn : SavedMacro) (sc : Scan) : M Scan :=
  match defn with
  | .undefined => pure { sc with out := sc.out ++ [tok] }
  | .function fn =>
    match if sc.rest.head?.any (isPunct pp · ['(']) then scanArgs sc.rest else none with
    | some (rawArgs, sepSpace, close, rest) => do
      let common ← onArena fun a => a.hsIntersect tok.hs close
      let inv ← onArena fun a => a.hsWithName common name
      let srcPos := (← get).srcPos
      let sub ← subst pp expand tok name fn rawArgs sepSpace close inv
      modify fun ex => { ex with srcPos := srcPos }
      pure { sc with
        rest := setFirstSpace tok.space sub ++ rest
        replaced := lowered sc.replaced rest.length }
    | none => do
      noteTail pp depth sc.rest
      pure { sc with out := sc.out ++ [tok] }
  | .object body => do
    let hs ← onArena fun a => a.hsWithName tok.hs name
    let sub ← carry tok name none hs (pasteRun pp [] (body.map Lexeme.tok))
    pure { sc with
      rest := setFirstSpace tok.space sub ++ sc.rest
      replaced := lowered sc.replaced sc.rest.length }

/-- An identifier the scan meets. -/
def scanIdent (expand : List Tok → M (List Tok)) (depth : ℕ) (tok : Tok) (sc : Scan) : M Scan := do
  if ln.what = .condition ∧ depth = 0 ∧ tok.text = ['d', 'e', 'f', 'i', 'n', 'e', 'd'] then
    pure { sc with out := sc.out ++ [tok], operand := definedOperandLen pp sc.rest }
  else
    match ← dynamicPredefine pp ln tok with
    | some t => pure { sc with out := sc.out ++ [t] }
    | none =>
      match hasOperator pp tok sc.rest with
      | some (t, rest) => pure { sc with out := sc.out ++ [t], rest := rest }
      | none =>
        let ex ← get
        let name := pp.key tok.text
        let defn := liveMacro pp ex.shadows name
        if ex.arena.hsContains tok.hs name then pure { sc with out := sc.out ++ [tok] }
        else replace pp expand depth tok name defn sc

/-- Note where the line is at a token that no pending replacement brought. -/
def notePos (tok : Tok) (sc : Scan) : M Scan := fun ex =>
  if sc.replaced.any fun r => decide (r ≤ sc.rest.length) then some (sc, ex)
  else some ({ sc with replaced := none }, { ex with srcPos := tok.linePos.getD ex.srcPos })

/-- One token of the scan. -/
def scanStep (expand : List Tok → M (List Tok)) (depth : ℕ) (tok : Tok) (sc : Scan) : M Scan := do
  let sc ← notePos tok sc
  let operator ← (if depth = 0 ∧ ln.what = .text then macroStateOperator pp tok sc.rest
    else pure none)
  match operator with
  | some (toks, rest) => pure { sc with out := sc.out ++ toks, rest := rest }
  | none =>
    if 0 < sc.operand then pure { sc with out := sc.out ++ [tok], operand := sc.operand - 1 }
    else if tok.kind ≠ .ident then pure { sc with out := sc.out ++ [tok] }
    else scanIdent pp ln expand depth tok sc

/-- The scan, with fuel. -/
def scan (expand : List Tok → M (List Tok)) (depth : ℕ) : ℕ → Scan → M (List Tok)
  | 0, _ => fun _ => none
  | fuel + 1, sc =>
    match sc.rest with
    | [] => pure sc.out
    | tok :: rest => do
      let sc ← scanStep pp ln expand depth tok { sc with rest := rest }
      scan expand depth fuel sc

/-- The scan with `levels` of nesting left; past the bound the tokens pass through unexpanded. -/
def expandAt (fuel : ℕ) : ℕ → List Tok → M (List Tok)
  | 0, toks => pure toks
  | levels + 1, toks =>
    scan pp ln (expandAt fuel levels) (maxMacroDepth - levels) fuel { rest := toks }

/-- Macro expansion of a token list at an argument depth. -/
def expandTokens (fuel depth : ℕ) (toks : List Tok) : M (List Tok) :=
  expandAt pp ln fuel (maxMacroDepth + 1 - depth) toks

end Preprocessor

end Badc
