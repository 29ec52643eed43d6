import Mathlib.Data.List.SplitOn
import Mathlib.Data.Nat.Notation
import Osodio.Syntax.Token

/-!
# The lexer

Blocks are written by indentation.  At the start of a line its margin is compared with those that
are open; inside brackets lines do not count.

## Main definitions

- `sinMargen` — a string of three quotes without its margin
- `Lexer` — the state of the lexer, without the position of its tokens
- `Lexer.step` — one turn of `tokenize`, or of the loop of `handle_line_start` it begins with
- `tokenize` — the tokens of a text, with the diagnostics
-/

namespace Osodio.Syntax

/-! ## Characters -/

/-- `is_ident_start`: what is not ASCII belongs to a word. -/
def isIdentStart (c : Char) : Bool := c.isAlpha || c == '_' || 0x80 ≤ c.toNat

def isIdentChar (c : Char) : Bool := isIdentStart c || c.isDigit

/-- `escape_de`: what a letter behind a bar stands for. -/
def escapeDe : Char → Option Char
  | 'n' => some '\n'
  | 't' => some '\t'
  | 'r' => some '\r'
  | '0' => some '\x00'
  | '"' => some '"'
  | '\\' => some '\\'
  | _ => none

/-! ## Strings -/

/-- The spaces in front of a line. -/
def sangria (linea : List Char) : ℕ := (linea.takeWhile (· == ' ')).length

/-- The line has something behind its spaces that is not a carriage return. -/
def conContenido (linea : List Char) : Bool :=
  match linea.drop (sangria linea) with
  | [] => false
  | c :: _ => c != '\r'

/-- The line break behind the opening quotes. -/
def sinApertura : List Char → List Char
  | '\r' :: '\n' :: s => s
  | '\n' :: s => s
  | s => s

/-- The last line, if there is another one before it and only space on it. -/
def sinCierre (lineas : List (List Char)) : List (List Char) :=
  if 1 < lineas.length ∧ ((lineas.getLastD []).all fun c => c == ' ' || c == '\t' || c == '\r') then
    lineas.dropLast
  else lineas

/-- The least margin of the lines that have something on them. -/
def margenDe (lineas : List (List Char)) : Option ℕ :=
  ((lineas.filter conContenido).map sangria).min?

/-- `sin_margen`. -/
def sinMargen (s : List Char) : List Char :=
  let lineas := sinCierre ((sinApertura s).splitOn '\n')
  match margenDe lineas with
  | none => ['\n'].intercalate lineas
  | some margen => ['\n'].intercalate (lineas.map (·.drop margen))

/-- The raw text of a string of three quotes, the rest, and whether it is closed.  A bar takes the
    next character with it. -/
def bruto : List Char → List Char × List Char × Bool
  | '"' :: '"' :: '"' :: s => ([], s, true)
  | '\\' :: c :: s => ('\\' :: c :: (bruto s).1, (bruto s).2)
  | c :: s => (c :: (bruto s).1, (bruto s).2)
  | [] => ([], [], false)

def escapeDesconocido (e : Char) : String := "escape desconocido: \\" ++ String.singleton e

/-- The raw text with its escapes resolved, and the diagnostics. -/
def resuelve : List Char → List Char × List String
  | '\\' :: e :: s =>
    match escapeDe e with
    | some d => (d :: (resuelve s).1, (resuelve s).2)
    | none => (e :: (resuelve s).1, escapeDesconocido e :: (resuelve s).2)
  | c :: s => (c :: (resuelve s).1, (resuelve s).2)
  | [] => ([], [])

/-- What a string on one line stands for, the rest, and the diagnostics. -/
def cadena : List Char → List Char × List Char × List String
  | '"' :: s => ([], s, [])
  | ['\\'] => ([], [], ["cadena sin cerrar"])
  | '\\' :: e :: s =>
    match escapeDe e with
    | some d => (d :: (cadena s).1, (cadena s).2)
    | none => (e :: (cadena s).1, (cadena s).2.1, escapeDesconocido e :: (cadena s).2.2)
  | '\n' :: s => ([], '\n' :: s, ["cadena sin cerrar"])
  | c :: s => (c :: (cadena s).1, (cadena s).2)
  | [] => ([], [], ["cadena sin cerrar"])

/-! ## The state -/

/-- The state of the lexer.  The innermost margin comes first. -/
structure Lexer where
  rest : List Char
  indents : List ℕ := [0]
  bracketDepth : ℕ := 0
  atLineStart : Bool := true
  out : List Token := []
  diags : List String := []
  deriving DecidableEq, Repr

namespace Lexer

def error (l : Lexer) (message : String) : Lexer := { l with diags := l.diags ++ [message] }

def push (l : Lexer) (kind : Tok) (text : List Char := []) : Lexer :=
  { l with out := l.out ++ [⟨kind, String.ofList text⟩] }

/-- The kind of the last token. -/
def last (l : Lexer) : Option Tok := l.out.getLast?.map (·.kind)

/-! ## The start of a line -/

/-- A line without content, up to its end. -/
def saltaLinea (s : List Char) : List Char :=
  let s := if s.head? = some '#' then s.dropWhile (· != '\n') else s
  let s := if s.head? = some '\r' then s.tail else s
  if s.head? = some '\n' then s.tail else s

/-- The line has this margin. -/
def indenta (l : Lexer) (width : ℕ) : Lexer :=
  if l.indents.headD 0 < width then { l with indents := width :: l.indents }.push .indent
  else
    let abiertos := l.indents.dropWhile (width < ·)
    let l' := { l with
      indents := abiertos
      out := l.out ++ List.replicate (l.indents.length - abiertos.length) ⟨.dedent, ""⟩ }
    if width = abiertos.headD 0 then l'
    else { l' with indents := width :: abiertos }.error
      "la indentacion no coincide con ningun nivel abierto"

/-- The line goes on with the one before it, whose end is taken back. -/
def continua (l : Lexer) : Lexer :=
  { l with out := if l.last = some .newline then l.out.dropLast else l.out }

def esMargen (c : Char) : Bool := c == ' ' || c == '\t'

/-- One turn of `handle_line_start`. -/
def lineStart (l : Lexer) : Lexer :=
  let width := (l.rest.takeWhile esMargen).length
  match l.rest.dropWhile esMargen with
  | [] => { l with rest := [] }
  | c :: s =>
    if c = '\n' ∨ c = '\r' ∨ c = '#' then { l with rest := saltaLinea (c :: s) }
    else
      let l' := if '\t' ∈ l.rest.takeWhile esMargen then
        l.error "indentacion con tabulador: usa espacios" else l
      -- a number may begin with the point
      let l' := if c = '.' ∧ (s.headD '\x00').isDigit = false then l'.continua else l'.indenta width
      { l' with rest := c :: s, atLineStart := false }

/-! ## Tokens -/

def lexNumber (l : Lexer) : Lexer :=
  let entera := l.rest.takeWhile Char.isDigit
  match l.rest.dropWhile Char.isDigit with
  | '.' :: d :: s =>
    if d.isDigit then
      { l with rest := (d :: s).dropWhile Char.isDigit }.push .float
        (entera ++ '.' :: (d :: s).takeWhile Char.isDigit)
    else { l with rest := '.' :: d :: s }.push .int entera
  | s => { l with rest := s }.push .int entera

/-- A string, behind its three quotes. -/
def lexStringMulti (l : Lexer) (s : List Char) : Lexer :=
  let (raw, rest, cerrada) := bruto s
  let (value, diags) := resuelve (sinMargen raw)
  let l' := if cerrada then l
    else l.error "cadena sin cerrar: faltan las tres comillas del final"
  { l' with rest := rest, diags := l'.diags ++ diags }.push .string value

/-- A string, at its first quote. -/
def lexString (l : Lexer) : Lexer :=
  match l.rest with
  | '"' :: '"' :: '"' :: s => l.lexStringMulti s
  | _ :: s => { l with rest := (cadena s).2.1, diags := l.diags ++ (cadena s).2.2 }.push .string
      (cadena s).1
  | [] => l

def lexIdent (l : Lexer) : Lexer :=
  let text := l.rest.takeWhile isIdentChar
  { l with rest := l.rest.dropWhile isIdentChar }.push (keywordOrIdent (String.ofList text)) text

/-- An operator that may have a second character. -/
def doble (l : Lexer) (s : List Char) (segundas : List (Char × Tok)) (simple : Tok) : Lexer :=
  match s with
  | [] => { l with rest := [] }.push simple
  | c :: r =>
    match segundas.lookup c with
    | some kind => { l with rest := r }.push kind
    | none => { l with rest := c :: r }.push simple

/-- What opens a bracket. -/
def abre : Char → Option Tok
  | '(' => some .lParen
  | '[' => some .lBracket
  | '\x7b' => some .lBrace
  | _ => none

/-- What closes one. -/
def cierra : Char → Option Tok
  | ')' => some .rParen
  | ']' => some .rBracket
  | '\x7d' => some .rBrace
  | _ => none

/-- A mark, with what may follow it, and what it is by itself. -/
def marca : Char → Option (List (Char × Tok) × Tok)
  | ',' => some ([], .comma)
  | ':' => some ([], .colon)
  | '.' => some ([], .dot)
  | '?' => some ([], .question)
  | '+' => some ([('+', .plusPlus), ('=', .plusEq)], .plus)
  | '*' => some ([('=', .starEq)], .star)
  | '/' => some ([('=', .slashEq)], .slash)
  | '%' => some ([('=', .percentEq)], .percent)
  | '-' => some ([('>', .arrow), ('-', .minusMinus), ('=', .minusEq)], .minus)
  | '=' => some ([('=', .eq)], .assign)
  | '<' => some ([('=', .ltEq)], .lt)
  -- two `>` are never one token
  | '>' => some ([('=', .gtEq)], .gt)
  | _ => none

/-- A character that stands for itself. -/
def lexSigno (l : Lexer) (c : Char) (s : List Char) : Lexer :=
  match abre c with
  | some kind => { l with rest := s, bracketDepth := l.bracketDepth + 1 }.push kind
  | none =>
    match cierra c with
    | some kind => { l with rest := s, bracketDepth := l.bracketDepth - 1 }.push kind
    | none =>
      match marca c with
      | some (segundas, simple) => l.doble s segundas simple
      | none =>
        if c = '!' then
          match s with
          | '=' :: r => { l with rest := r }.push .notEq
          | _ => { l with rest := s }.error "'!' suelto: la negacion se escribe 'not'"
        else { l with rest := s }.error ("caracter inesperado: '" ++ String.singleton c ++ "'")

/-- `lex_token`. -/
def lexToken (l : Lexer) (c : Char) (s : List Char) : Lexer :=
  if c.isDigit then l.lexNumber
  else if c = '"' then l.lexString
  else if isIdentStart c then l.lexIdent
  else l.lexSigno c s

/-! ## The loop -/

/-- The end of a line.  It is a token only if the line has produced one. -/
def lineEnd (l : Lexer) (s : List Char) : Lexer :=
  let l := { l with rest := s }
  if l.bracketDepth = 0 then
    let l := if l.out ≠ [] ∧ l.last ≠ some .newline ∧ l.last ≠ some .indent ∧
      l.last ≠ some .dedent then l.push .newline else l
    { l with atLineStart := true }
  else l

/-- One turn of `tokenize`, or of the loop of `handle_line_start` that it begins with; none at the
    end of the text. -/
def step (l : Lexer) : Option Lexer :=
  match l.rest with
  | [] => none
  | c :: s =>
    some <|
      if l.atLineStart ∧ l.bracketDepth = 0 then l.lineStart
      else if c = ' ' ∨ c = '\t' ∨ c = '\r' then { l with rest := s }
      else if c = '#' then { l with rest := s.dropWhile (· != '\n') }
      else if c = '\n' then l.lineEnd s
      else l.lexToken c s

def run : ℕ → Lexer → Lexer
  | 0, l => l
  | n + 1, l =>
    match l.step with
    | none => l
    | some l' => run n l'

/-- What is left to do at the end of the text. -/
def finish (l : Lexer) : Lexer :=
  let l := if l.out ≠ [] ∧ l.last ≠ some .newline then l.push .newline else l
  let l := { l with
    indents := l.indents.drop (l.indents.length - 1)
    out := l.out ++ List.replicate (l.indents.length - 1) ⟨.dedent, ""⟩ ++ [⟨.endOfFile, ""⟩] }
  if l.bracketDepth ≠ 0 then l.error "parentesis o corchete sin cerrar" else l

end Lexer

/-- `tokenize`.  A turn takes a character or leaves the start of a line. -/
def tokenize (text : List Char) : Lexer :=
  (Lexer.run (2 * text.length + 2) { rest := text }).finish

end Osodio.Syntax
