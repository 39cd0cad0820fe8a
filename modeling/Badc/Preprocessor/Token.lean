import Badc.Preprocessor.Hideset

/-!
# Preprocessing tokens and macros

The tokens, macro tables and token-list operations of `src/c5/preprocessor/expand.rs` that do not
expand anything: pasting, stringizing, the arguments of an invocation, `__VA_OPT__`, and the
hideset of a replacement.

A token holds its spelling here, and a token of the line its offset there, instead of a span of an
arena buffer.  A macro body is the list of tokens it lexes to.  What the model leaves open is a
field of `Macros`: the lexer that pasted spellings go through, the name an identifier's spelling
stands for, the features `__has_builtin` and `__has_attribute` know, and the reading of a
`push_macro` or `pop_macro` operator.
-/

namespace Badc

namespace Preprocessor

/-- The kinds of preprocessing tokens. -/
inductive TokKind
  | ident | number | str | char | punct | other
  deriving DecidableEq, Repr

/-- A token as the lexer produces it. -/
structure Lexeme where
  text : Spelling
  kind : TokKind
  space : Bool
  deriving DecidableEq, Repr

/-- A preprocessing token: its spelling, its kind, whether white space preceded it, its hideset,
and for a token of the line its offset there. -/
structure Tok extends Lexeme where
  hs : ℕ := 0
  linePos : Option ℕ := none
  deriving DecidableEq, Repr

/-- A token of a macro body or of a paste. -/
def Lexeme.tok (l : Lexeme) : Tok := { l with }

/-- A function-like macro. -/
structure FnMacro where
  params : List Spelling
  body : List Lexeme
  isVariadic : Bool := false
  vaName : Option Spelling := none
  deriving DecidableEq

/-- What `push_macro` saves of a name: its definition, or that it had none. -/
inductive SavedMacro
  | undefined
  | object (body : List Lexeme)
  | function (fn : FnMacro)
  deriving DecidableEq

/-- The macro tables, and what the expansion asks of the rest of the preprocessor.  `macroStack`
reads the text of a `_Pragma` or `__pragma` operator: nothing where it is no `push_macro` or
`pop_macro`, else whether it pushes and the name, where the operand is well formed. -/
structure Macros where
  macros : List (Spelling × List Lexeme) := []
  fnMacros : List (Spelling × FnMacro) := []
  pushedMacros : List (Spelling × List SavedMacro) := []
  asmSource : Bool := false
  sourceLabel : Spelling := []
  lex : Spelling → List Lexeme
  key : Spelling → Spelling := id
  hasBuiltin : Spelling → Bool := fun _ => false
  hasAttribute : Spelling → Bool := fun _ => false
  macroStack : Spelling → Option (Option (Bool × Spelling)) := fun _ => none

/-- The spelling a punctuator behaves as. -/
def Macros.primarySpelling (pp : Macros) (p : Spelling) : Spelling :=
  if pp.asmSource then p
  else if p = ['<', ':'] then ['[']
  else if p = [':', '>'] then [']']
  else if p = ['<', '%'] then ['{']
  else if p = ['%', '>'] then ['}']
  else if p = ['%', ':'] then ['#']
  else if p = ['%', ':', '%', ':'] then ['#', '#']
  else p

/-- The definition a name has in the tables, as `push_macro` saves it. -/
def Macros.savedMacro (pp : Macros) (name : Spelling) : SavedMacro :=
  match pp.macros.lookup name, pp.fnMacros.lookup name with
  | some body, _ => .object body
  | none, some fn => .function fn
  | none, none => .undefined

/-- The token is the punctuator `(`. -/
def Tok.isOpen (t : Tok) : Bool := t.kind = .punct && t.text = ['(']

/-- The token is the punctuator `)`. -/
def Tok.isClose (t : Tok) : Bool := t.kind = .punct && t.text = [')']

/-- The token is the punctuator `,`. -/
def Tok.isComma (t : Tok) : Bool := t.kind = .punct && t.text = [',']

/-- The scan reads the hideset of the token: of an identifier and of a closing parenthesis. -/
def Tok.consulted (t : Tok) : Bool := t.kind = .ident || t.isClose

/-- The list with the first token's leading space set. -/
def setFirstSpace (space : Bool) : List Tok → List Tok
  | [] => []
  | t :: ts => { t with space := space } :: ts

/-- Splice tokens at a parameter position. -/
def splice (out src : List Tok) (space : Bool) : List Tok := out ++ setFirstSpace space src

/-- The characters of a string literal's body, `\` and `"` escaped. -/
def pushStringBody (s : Spelling) : Spelling :=
  s.flatMap fun ch => if ch = '\\' ∨ ch = '"' then ['\\', ch] else [ch]

/-- The spellings of the tokens, one space where the source had white space. -/
def stringizeFrom : Bool → List Tok → Spelling
  | _, [] => []
  | first, t :: ts =>
    (if !first && t.space then [' '] else []) ++
      (if t.kind = .str ∨ t.kind = .char then pushStringBody t.text else t.text) ++
      stringizeFrom false ts

/-- `#param`: the argument's spelling as a string literal. -/
def stringize (toks : List Tok) (space : Bool) : Tok :=
  { text := '"' :: stringizeFrom true toks ++ ['"'], kind := .str, space := space }

/-- The variadic tail: arguments joined with commas, each through `expand`. -/
def joinVaFrom {m : Type → Type} [Monad m] (expand : List Tok → m (List Tok))
    (sepSpace : List Bool) (nfixed : ℕ) : ℕ → List (List Tok) → m (List Tok)
  | _, [] => pure []
  | k, a :: as => do
    let comma : List Tok := if nfixed < k then
      [{ text := [','], kind := .punct, space := sepSpace.getD (k - 1) false }] else []
    let e ← expand a
    let lexed := match a with
      | [] => decide (nfixed < k)
      | t :: _ => t.space
    let more ← joinVaFrom expand sepSpace nfixed (k + 1) as
    pure (comma ++ setFirstSpace lexed e ++ more)

/-- The arguments past the named parameters. -/
def joinVa {m : Type → Type} [Monad m] (expand : List Tok → m (List Tok))
    (rawArgs : List (List Tok)) (sepSpace : List Bool) (nfixed : ℕ) : m (List Tok) :=
  joinVaFrom expand sepSpace nfixed nfixed (rawArgs.drop nfixed)

/-- The tokens up to the parenthesis that closes `depth` open ones, it, and the tokens behind. -/
def closeAt : ℕ → List Tok → Option (List Tok × Tok × List Tok)
  | _, [] => none
  | depth, t :: ts =>
    if t.isClose && depth = 1 then some ([], t, ts)
    else
      (closeAt (if t.isOpen then depth + 1 else if t.isClose then depth - 1 else depth) ts).map
        fun r => (t :: r.1, r.2)

/-- The arguments of a list, cut at the commas outside inner parentheses, and the leading space of
each of these commas. -/
def splitArgs : ℕ → List Tok → List Tok → List (List Tok) × List Bool
  | _, cur, [] => ([cur], [])
  | depth, cur, t :: ts =>
    if t.isComma && depth = 1 then
      let (args, seps) := splitArgs depth [] ts
      (cur :: args, t.space :: seps)
    else
      splitArgs (if t.isOpen then depth + 1 else if t.isClose then depth - 1 else depth)
        (cur ++ [t]) ts

/-- Parse an argument list from the pending tokens, which start with its `(`: the arguments, the
space of the commas, the hideset of the closing parenthesis and the tokens behind it; nothing where
the parentheses do not close. -/
def scanArgs (rest : List Tok) : Option (List (List Tok) × List Bool × ℕ × List Tok) :=
  (closeAt 1 (rest.drop 1)).map fun r =>
    let (args, seps) := splitArgs 1 [] r.1
    (args, seps, r.2.1.hs, r.2.2)

section

variable (pp : Macros)

/-- The token is a punctuator that behaves as `s`. -/
def isPunct (t : Tok) (s : Spelling) : Bool :=
  t.kind = .punct && pp.primarySpelling t.text = s

/-- The last token is a punctuator that behaves as `s`. -/
def lastIsPunct (out : List Tok) (s : Spelling) : Bool := out.getLast?.any (isPunct pp · s)

/-- Paste two tokens: the concatenation is lexed again. -/
def glue (left right : Tok) : List Tok :=
  setFirstSpace left.space ((pp.lex (left.text ++ right.text)).map Lexeme.tok)

/-- Pasting over a replacement list with no parameters, left to right; a `##` without two operands
is dropped. -/
def pasteRun : List Tok → List Tok → List Tok
  | out, [] => out
  | out, [t] => if isPunct pp t ['#', '#'] then out else out ++ [t]
  | out, t :: right :: ts =>
    if isPunct pp t ['#', '#'] then
      match out.getLast? with
      | some left => pasteRun (out.dropLast ++ glue pp left right) ts
      | none => pasteRun out (right :: ts)
    else pasteRun (out ++ [t]) (right :: ts)

/-- The body identifier names the variadic tail. -/
def isVa (fn : FnMacro) (t : Tok) : Bool :=
  fn.isVariadic &&
    (pp.key t.text = ['_', '_', 'V', 'A', '_', 'A', 'R', 'G', 'S', '_', '_'] ||
      fn.vaName = some (pp.key t.text))

/-- The parameter a token names. -/
def paramIndex (fn : FnMacro) (t : Tok) : Option ℕ := fn.params.idxOf? (pp.key t.text)

/-- The unexpanded tokens of a parameter or of the variadic tail. -/
def rawOf (fn : FnMacro) (rawArgs : List (List Tok)) (rawVa : List Tok) (t : Tok) :
    Option (List Tok) :=
  if isVa pp fn t then some rawVa else (paramIndex pp fn t).map (rawArgs.getD · [])

/-- The body token at `i` sits in a plain parameter position: neither operand of `##` nor the
operand of `#`. -/
def plainPosition (body : List Tok) (i : ℕ) : Bool :=
  !(body[i + 1]?.any (isPunct pp · ['#', '#'])) &&
    !(decide (0 < i) && body[i - 1]?.any fun p =>
      isPunct pp p ['#', '#'] || isPunct pp p ['#'])

/-- Count a token at a plain position as a use of the parameter it names. -/
def countPlainUse (body : List Tok) (fn : FnMacro) (uses : List ℕ) (p : Tok × ℕ) : List ℕ :=
  if p.1.kind = .ident ∧ plainPosition pp body p.2 then
    match paramIndex pp fn p.1 with
    | some idx => if idx < uses.length then uses.set idx (uses.getD idx 0 + 1) else uses
    | none => uses
  else uses

/-- How often each parameter is used in a plain position. -/
def plainUseCounts (body : List Tok) (fn : FnMacro) (nargs : ℕ) : List ℕ :=
  body.zipIdx.foldl (countPlainUse pp body fn) (List.replicate nargs 0)

/-- Resolve `__VA_OPT__` over a replacement list. -/
def expandVaOptFrom (fn : FnMacro) (rawArgs : List (List Tok)) (rawVa : List Tok) :
    ℕ → List Tok → List Tok → List Tok
  | 0, out, body => out ++ body
  | _ + 1, out, [] => out
  | fuel + 1, out, t :: rest =>
    if t.kind = .ident && t.text = ['_', '_', 'V', 'A', '_', 'O', 'P', 'T', '_', '_'] &&
        rest.head?.any (isPunct pp · ['(']) then
      match closeAt 1 rest.tail with
      | none => expandVaOptFrom fn rawArgs rawVa fuel (out ++ [t]) rest
      | some (content, _, after) =>
        if lastIsPunct pp out ['#'] then
          let raw := if rawVa = [] then []
            else content.flatMap fun c => (rawOf pp fn rawArgs rawVa c).getD [c]
          expandVaOptFrom fn rawArgs rawVa fuel (out.dropLast ++ [stringize raw t.space]) after
        else if rawVa ≠ [] then
          expandVaOptFrom fn rawArgs rawVa fuel (out ++ setFirstSpace t.space content) after
        else if lastIsPunct pp out ['#', '#'] then
          expandVaOptFrom fn rawArgs rawVa fuel out.dropLast after
        else if after.head?.any (isPunct pp · ['#', '#']) then
          expandVaOptFrom fn rawArgs rawVa fuel out after.tail
        else expandVaOptFrom fn rawArgs rawVa fuel out after
    else expandVaOptFrom fn rawArgs rawVa fuel (out ++ [t]) rest

section

-- The equations are made here, once for all the lemmas that unfold these.
attribute [local simp] expandVaOptFrom

end

end

/-! ## The hideset of a replacement -/

/-- Add a hideset to the tokens whose hideset the scan reads; `memo` holds the unions made so
far. -/
def hsAddAllFrom (hs : ℕ) : Arena → List (ℕ × ℕ) → List Tok → Arena × List Tok
  | a, _, [] => (a, [])
  | a, memo, t :: ts =>
    if !t.consulted then
      let (b, out) := hsAddAllFrom hs a memo ts
      (b, t :: out)
    else if t.hs = 0 ∨ t.hs = hs then
      let (b, out) := hsAddAllFrom hs a memo ts
      (b, { t with hs := hs } :: out)
    else
      match memo.lookup t.hs with
      | some u =>
        let (b, out) := hsAddAllFrom hs a memo ts
        (b, { t with hs := u } :: out)
      | none =>
        let (a', u) := a.hsUnion t.hs hs
        let (b, out) := hsAddAllFrom hs a' (memo ++ [(t.hs, u)]) ts
        (b, { t with hs := u } :: out)

/-- Union `hs` into every token whose hideset is ever consulted. -/
def hsAddAll (a : Arena) (toks : List Tok) (hs : ℕ) : Arena × List Tok :=
  if hs = 0 then (a, toks) else hsAddAllFrom hs a [] toks

end Preprocessor

end Badc
