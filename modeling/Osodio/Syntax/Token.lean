/-!
# Tokens

## Main definitions

- `Tok`, `Token` — the kinds of token, and a token without its position
- `tokName` — the name of a kind in messages
- `keywordOrIdent` — the kind of a word
-/

namespace Osodio.Syntax

/-- The kinds of token. -/
inductive Tok where
  -- structure
  | endOfFile | newline | indent | dedent
  -- literals and identifiers
  | ident | int | float | string
  -- declarations
  | kwImport | kwClass | kwFn | kwApp | kwGroup | kwEndpoint | kwOn | kwError
  | kwOrigins | kwValidate | kwStatic | kwSpa
  -- methods of routes
  | kwGet | kwPost | kwPut | kwPatch | kwDelete | kwAny | kwSse | kwWs
  -- statements
  | kwIf | kwElse | kwElif | kwWhile | kwFor | kwIn | kwReturn | kwRequire
  | kwTry | kwCatch | kwBreak | kwContinue
  -- expressions and types
  | kwAnd | kwOr | kwNot | kwTrue | kwFalse | kwNull | kwThis | kwAwait | kwVoid
  -- punctuation
  | lParen | rParen | lBracket | rBracket | lBrace | rBrace
  | comma | colon | dot | question | arrow | assign
  | eq | notEq | lt | ltEq | gt | gtEq
  | plus | minus | star | slash | percent
  | plusPlus | minusMinus
  | plusEq | minusEq | starEq | slashEq | percentEq
  deriving DecidableEq, Repr

/-- A token.  The text of a string has its escapes resolved; punctuation has none. -/
structure Token where
  kind : Tok
  text : String := ""
  deriving DecidableEq, Repr

/-- The reserved words. -/
def keywords : List (String × Tok) := [
  ("import", .kwImport), ("class", .kwClass), ("fn", .kwFn),
  ("app", .kwApp), ("group", .kwGroup), ("endpoint", .kwEndpoint),
  ("on", .kwOn), ("error", .kwError), ("origins", .kwOrigins),
  ("validate", .kwValidate), ("static", .kwStatic), ("spa", .kwSpa),
  ("get", .kwGet), ("post", .kwPost), ("put", .kwPut),
  ("patch", .kwPatch), ("delete", .kwDelete), ("any", .kwAny),
  ("sse", .kwSse), ("ws", .kwWs),
  ("if", .kwIf), ("else", .kwElse), ("elif", .kwElif), ("while", .kwWhile),
  ("for", .kwFor), ("in", .kwIn), ("return", .kwReturn),
  ("require", .kwRequire), ("try", .kwTry), ("catch", .kwCatch),
  ("break", .kwBreak), ("continue", .kwContinue),
  ("and", .kwAnd), ("or", .kwOr), ("not", .kwNot),
  ("true", .kwTrue), ("false", .kwFalse), ("null", .kwNull),
  ("this", .kwThis), ("await", .kwAwait), ("void", .kwVoid)]

/-- `keyword_or_ident`. -/
def keywordOrIdent (s : String) : Tok := (keywords.lookup s).getD .ident

/-- `tok_name`. -/
def tokName : Tok → String
  | .endOfFile => "fin de fichero"
  | .newline => "fin de linea"
  | .indent => "indentacion"
  | .dedent => "des-indentacion"
  | .ident => "identificador"
  | .int => "entero"
  | .float => "decimal"
  | .string => "cadena"
  | .kwImport => "import"
  | .kwClass => "class"
  | .kwFn => "fn"
  | .kwApp => "app"
  | .kwGroup => "group"
  | .kwEndpoint => "endpoint"
  | .kwOn => "on"
  | .kwError => "error"
  | .kwOrigins => "origins"
  | .kwValidate => "validate"
  | .kwStatic => "static"
  | .kwSpa => "spa"
  | .kwGet => "get"
  | .kwPost => "post"
  | .kwPut => "put"
  | .kwPatch => "patch"
  | .kwDelete => "delete"
  | .kwAny => "any"
  | .kwSse => "sse"
  | .kwWs => "ws"
  | .kwIf => "if"
  | .kwElse => "else"
  | .kwElif => "elif"
  | .kwWhile => "while"
  | .kwFor => "for"
  | .kwIn => "in"
  | .kwReturn => "return"
  | .kwRequire => "require"
  | .kwTry => "try"
  | .kwCatch => "catch"
  | .kwBreak => "break"
  | .kwContinue => "continue"
  | .kwAnd => "and"
  | .kwOr => "or"
  | .kwNot => "not"
  | .kwTrue => "true"
  | .kwFalse => "false"
  | .kwNull => "null"
  | .kwThis => "this"
  | .kwAwait => "await"
  | .kwVoid => "void"
  | .lParen => "("
  | .rParen => ")"
  | .lBracket => "["
  | .rBracket => "]"
  | .lBrace => "\x7b"
  | .rBrace => "\x7d"
  | .comma => ","
  | .colon => ":"
  | .dot => "."
  | .question => "?"
  | .arrow => "->"
  | .assign => "="
  | .eq => "=="
  | .notEq => "!="
  | .lt => "<"
  | .ltEq => "<="
  | .gt => ">"
  | .gtEq => ">="
  | .plus => "+"
  | .minus => "-"
  | .star => "*"
  | .slash => "/"
  | .percent => "%"
  | .plusPlus => "++"
  | .minusMinus => "--"
  | .plusEq => "+="
  | .minusEq => "-="
  | .starEq => "*="
  | .slashEq => "/="
  | .percentEq => "%="

end Osodio.Syntax
