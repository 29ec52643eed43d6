import Osodio.Db.Registry
import Osodio.Syntax.Ast

/-!
# The parser: tokens, types and expressions

A parser by recursive descent.  An error does not stop it, so its loops have to go on by themselves.
The model stops where the parser could not go on: at a turn of a loop that takes no token, at a
token that is not there, and below as many calls of one rule in another as it is allowed.

## Main definitions

- `Parser`, `Parse` — the state of the parser, and what it does
- `mientras` — a loop over tokens
- `Recur` — the rules that rules above them call again
- `parseType`, `parseTernary` — types and expressions
-/

namespace Osodio.Syntax

open Osodio.Db (strtol)
open Osodio.Json (Double)

/-! ## The state -/

/-- The tokens behind, the last one first, and those ahead. -/
structure Parser where
  past : List Token := []
  rest : List Token
  diags : List String := []

/-- Why the model stops. -/
inductive Fault where
  | atascado
  | fuera
  | hondo
  deriving DecidableEq, Repr

def Parse (α : Type) := Parser → Except Fault (α × Parser)

instance : Monad Parse where
  pure a s := .ok (a, s)
  bind x f s :=
    match x s with
    | .ok (a, s') => f a s'
    | .error e => .error e

section Monad

variable {α β : Type} {x : Parse α} {f : α → Parse β} {s s' s'' : Parser} {a : α} {b : β}

theorem bind_ok (h : x s = .ok (a, s')) : (x >>= f) s = f a s' := by
  change (match x s with | .ok (a, s') => f a s' | .error e => .error e) = _
  rw [h]

theorem bind_inv (h : (x >>= f) s = .ok (b, s'')) :
    ∃ a s', x s = .ok (a, s') ∧ f a s' = .ok (b, s'') := by
  change (match x s with | .ok (a, s') => f a s' | .error e => .error e) = _ at h
  split at h
  · exact ⟨_, _, ‹_›, h⟩
  · cases h

end Monad

/-- What the parser takes from the C library and from the environment. -/
structure Entorno where
  strtod : String → Double
  getenv : String → Option String

/-! ## Tokens -/

/-- `peek(ahead)`: behind the last token there is the last token. -/
def Parser.mira (s : Parser) (ahead : ℕ) : Option Token := s.rest[ahead]? <|> s.rest.getLast?

def peekAt (ahead : ℕ) : Parse Token := fun s =>
  match s.mira ahead with
  | some t => .ok (t, s)
  | none => .error .fuera

def peek : Parse Token := fun s =>
  match s.rest with
  | t :: _ => .ok (t, s)
  | [] => .error .fuera

theorem peek_cons {s : Parser} {t : Token} {r : List Token} (h : s.rest = t :: r) :
    peek s = .ok (t, s) := by
  rw [peek, h]

theorem peek_inv {s s' : Parser} {t : Token} (h : peek s = .ok (t, s')) :
    s' = s ∧ ∃ r, s.rest = t :: r := by
  rw [peek] at h
  split at h
  · next hr =>
    cases h
    exact ⟨rfl, _, hr⟩
  · cases h

def prev : Parse Token := fun s =>
  match s.past with
  | t :: _ => .ok (t, s)
  | [] => peek s

def check (k : Tok) : Parse Bool := do
  return (← peek).kind = k

/-- `advance`: it stays on the last token, and gives the one before it. -/
def advance : Parse Token := fun s =>
  match s.rest with
  | t :: u :: r => .ok (t, { s with past := t :: s.past, rest := u :: r })
  | _ =>
    match s.past with
    | t :: _ => .ok (t, s)
    | [] => .error .fuera

def diag (message : String) : Parse Unit := fun s =>
  .ok ((), { s with diags := s.diags ++ [message] })

/-- The same error, so many times. -/
def diagVeces (n : ℕ) (message : String) : Parse Unit := fun s =>
  .ok ((), { s with diags := s.diags ++ List.replicate n message })

def diagSi (cond : Bool) (message : String) : Parse Unit :=
  if cond then diag message else return ()

/-- `error_here`. -/
def errorHere (message : String) : Parse Unit := do
  let _ ← peek
  diag message

/-- A token that is looked for is not the end of the text, which is found by computing. -/
theorem false_eq_false : false = false := rfl

theorem Tok.ne_endOfFile (k : Tok) (h : (k == .endOfFile) = false) : k ≠ .endOfFile :=
  ne_of_beq_false h

/-- `if (check(k)) x else y`.  What follows the end of the text is not asked for. -/
def cuando {α : Type} (k : Tok) (x y : Parse α)
    (_ : k ≠ .endOfFile := by exact Tok.ne_endOfFile _ false_eq_false) :
    Parse α := do
  if ← check k then x else y

/-- `if (match(k)) x else y`. -/
def toma {α : Type} (k : Tok) (x : Token → Parse α) (y : Parse α)
    (h : k ≠ .endOfFile := by exact Tok.ne_endOfFile _ false_eq_false) : Parse α :=
  cuando k (advance >>= x) y h

def expect (k : Tok) (context : String)
    (h : k ≠ .endOfFile := by exact Tok.ne_endOfFile _ false_eq_false) : Parse Bool :=
  toma k (fun _ => return true)
    (do
      errorHere ("se esperaba '" ++ tokName k ++ "' " ++ context ++ ", pero hay '" ++
        tokName (← peek).kind ++ "'")
      return false) h

/-! ## Loops -/

section Loops

variable {σ : Type}

/-- So many turns at most.  A turn goes on with a value or leaves the loop with one. -/
def vueltas (turno : σ → Parse (σ ⊕ σ)) : ℕ → σ → Parse σ
  | 0, _ => fun _ => .error .atascado
  | n + 1, a => fun s =>
    match turno a s with
    | .ok (.inl b, s') =>
      if s'.rest.length < s.rest.length then vueltas turno n b s' else .error .atascado
    | .ok (.inr b, s') => .ok (b, s')
    | .error e => .error e

theorem vueltas_inl {turno : σ → Parse (σ ⊕ σ)} {n : ℕ} {a b : σ} {s s' : Parser}
    (h : turno a s = .ok (.inl b, s')) (hlt : s'.rest.length < s.rest.length) :
    vueltas turno (n + 1) a s = vueltas turno n b s' := by
  dsimp only [vueltas]
  rw [h]
  exact if_pos hlt

theorem vueltas_inr {turno : σ → Parse (σ ⊕ σ)} {n : ℕ} {a b : σ} {s s' : Parser}
    (h : turno a s = .ok (.inr b, s')) : vueltas turno (n + 1) a s = .ok (b, s') := by
  dsimp only [vueltas]
  rw [h]

/-- What goes on with an expression. -/
def siguePostfijo : Tok → Bool
  | .plusPlus | .minusMinus | .dot | .lParen | .lBracket => true
  | _ => false

/-! The conditions of the loops of several productions, at the end of the text. -/

theorem fin_comma : decide (Tok.endOfFile = .comma) = false := rfl

theorem fin_rParen : decide (Tok.endOfFile ≠ .rParen ∧ Tok.endOfFile ≠ .endOfFile) = false := rfl

theorem fin_postfijo : siguePostfijo .endOfFile = false := rfl

theorem fin_endOfFile : decide (Tok.endOfFile ≠ .endOfFile) = false := rfl

/-- `while (p(peek().kind)) cuerpo`.  The turns are as many as the tokens, which each of them takes
    at least one of. -/
def mientras (p : Tok → Bool) (cuerpo : σ → Parse (σ ⊕ σ)) (a : σ)
    (_ : p .endOfFile = false := by
      first
        | with_reducible exact fin_comma
        | with_reducible exact fin_rParen
        | with_reducible exact fin_postfijo
        | with_reducible exact fin_endOfFile
        | decide) : Parse σ := fun s =>
  vueltas (fun a => do if p (← peek).kind then cuerpo a else return .inr a)
    (s.rest.length + 1) a s

end Loops

def skipNewlines : Parse Unit :=
  mientras (· = .newline) (fun _ => do let _ ← advance; return .inl ()) ()

/-- The kinds that a declaration begins with. -/
def empiezaDeclaracion : Tok → Bool
  | .kwGet | .kwPost | .kwPut | .kwPatch | .kwDelete | .kwAny | .kwSse | .kwWs | .kwApp
  | .kwClass | .kwFn | .kwGroup | .kwImport | .kwOn => true
  | _ => false

/-- `synchronize`: on to what a declaration may begin with. -/
def synchronize : Parse Unit := do
  let _ ← mientras (· ≠ .endOfFile) (fun depth => do
    let t ← peek
    if depth = 0 ∧ empiezaDeclaracion t.kind = true then return .inr depth
    else
      let _ ← advance
      return .inl (if t.kind = .indent then depth + 1
        else if t.kind = .dedent then depth - 1 else depth)) 0

/-! ## Rules that are called again -/

/-- The rules that are called from inside of what they are made of. -/
structure Recur where
  expr : Parse Expr
  not : Parse Expr
  unary : Parse Expr
  type : Parse TypeRef
  block : Parse Block
  ifStmt : Parse Stmt
  ifFromElif : Parse Stmt
  group : Program → String → List Guard → Parse Program

section Rules

variable (c : Entorno) (r : Recur)

/-! ## Types -/

/-- The place behind the brackets of a type, looked for from the place `j`. -/
def trasAngulos (depth j : ℕ) : List Token → Option ℕ
  | [] => none
  | t :: ts =>
    match t.kind with
    | .lt => trasAngulos (depth + 1) (j + 1) ts
    | .gt => if depth - 1 = 0 then some (j + 1) else trasAngulos (depth - 1) (j + 1) ts
    | .newline | .endOfFile => none
    | _ => trasAngulos depth (j + 1) ts

/-- `looks_like_type`: a name, with brackets or a mark, and a name behind. -/
def Parser.looksLikeType (s : Parser) : Bool :=
  let es (j : ℕ) (k : Tok) : Bool := (s.mira j).any (·.kind = k)
  if es 0 .ident = false ∧ es 0 .kwVoid = false then false
  else
    match (if es 1 .lt then trasAngulos 0 1 (s.rest.drop 1) else some 1) with
    | none => false
    | some j => es (if es j .question then j + 1 else j) .ident

def parseType : Parse TypeRef :=
  toma .kwVoid (fun _ => return { name := "void" }) <|
  toma .ident
    (fun t => do
      let args ← toma .lt
        (fun _ => do
          let first ← r.type
          let args ← mientras (· = .comma) (fun args => do
            let _ ← advance
            let arg ← r.type
            return .inl (args ++ [arg])) [first]
          let _ ← expect .gt "al cerrar los parametros del tipo"
          return args)
        (return [])
      let optional ← toma .question (fun _ => return true) (return false)
      return { name := t.text, args := args, optional := optional })
    (do
      errorHere "se esperaba un tipo"
      return {})

/-! ## Expressions -/

/-- Only a variable, a field or an element stand on the left of an assignment. -/
def assignable (e : Expr) : Bool := e.kind = .ident || e.kind = .member || e.kind = .index

/-- The elements between brackets, up to the one that closes. -/
def separados {α : Type} (cierre : Tok) (uno : Parse α) : Parse (List α) :=
  mientras (fun k => k ≠ cierre ∧ k ≠ .endOfFile) (fun xs => do
    let x ← uno
    toma .comma (fun _ => return .inl (xs ++ [x])) (return .inr (xs ++ [x]))) []
    (by simp)

def parsePrimary : Parse Expr := do
  match (← peek).kind with
  | .string =>
    let _ ← advance
    return { kind := .stringLit, text := (← prev).text }
  | .int =>
    let _ ← advance
    return { kind := .intLit, intValue := strtol (← prev).text }
  | .float =>
    let _ ← advance
    return { kind := .floatLit, floatValue := c.strtod (← prev).text }
  | .kwTrue | .kwFalse =>
    let _ ← advance
    return { kind := .boolLit, boolValue := (← prev).kind = .kwTrue }
  | .kwNull =>
    let _ ← advance
    return { kind := .nullLit }
  | .kwThis =>
    let _ ← advance
    return { kind := .this }
  | .kwAwait =>
    let _ ← advance
    let lhs ← r.unary
    return { kind := .await, lhs := lhs }
  -- words that are also objects of a handler
  | .kwSse | .kwWs | .kwError | .ident =>
    let _ ← advance
    return { kind := .ident, text := (← prev).text }
  | .lParen =>
    let _ ← advance
    let inner ← r.expr
    let _ ← expect .rParen "al cerrar el parentesis"
    return inner
  | .lBracket =>
    let _ ← advance
    let items ← separados .rBracket r.expr
    let _ ← expect .rBracket "al cerrar la lista"
    return { kind := .listLit, items := items }
  | .lBrace =>
    let _ ← advance
    let entries ← separados .rBrace (do
      let key ← r.expr
      let _ ← expect .colon "entre la clave y el valor del diccionario"
      let value ← r.expr
      return (key, value))
    let _ ← expect .rBrace "al cerrar el diccionario"
    return { kind := .dictLit, entries := entries }
  | k =>
    errorHere ("se esperaba una expresion, pero hay '" ++ tokName k ++ "'")
    let _ ← advance
    return { kind := .nullLit }

/-- The name of an argument, and whether there has been one. -/
def parseArgName (seenNamed : Bool) : Parse (String × Bool) := do
  let t ← peek
  let u ← peekAt 1
  if t.kind = .ident ∧ u.kind = .assign then
    let t ← advance
    let _ ← advance
    return (t.text, true)
  else if seenNamed then
    errorHere "los argumentos posicionales van antes que los nombrados"
    return ("", true)
  else return ("", false)

/-- The arguments of a call.  Those with a name come last. -/
def parseArgs : Parse (List (String × Expr)) := do
  let a ← mientras (fun k => k ≠ .rParen ∧ k ≠ .endOfFile)
    (fun (a : List (String × Expr) × Bool) => do
      let n ← parseArgName a.2
      let value ← r.expr
      toma .comma (fun _ => return .inl (a.1 ++ [(n.1, value)], n.2))
        (return .inr (a.1 ++ [(n.1, value)], n.2))) ([], false)
  return a.1

def masMenos (k : Tok) : String := if k = .plusPlus then "+" else "-"

def soloVariables : String := "'++' y '--' solo se aplican a una variable o a un campo"

/-- One more operator behind an expression. -/
def parseOperador (e : Expr) : Parse (Expr ⊕ Expr) := do
  let op ← advance
  match op.kind with
  | .plusPlus | .minusMinus =>
    diagSi (!assignable e) soloVariables
    return .inl { kind := .postStep, text := masMenos op.kind, lhs := e }
  | .dot =>
    -- a reserved word behind a point is a name
    let t ← peek
    if t.kind = .ident ∨ t.text ≠ "" then
      let t ← advance
      return .inl { kind := .member, text := t.text, object := e }
    else
      errorHere "se esperaba un nombre tras '.'"
      return .inl { kind := .member, object := e }
  | .lParen =>
    let args ← parseArgs r
    let _ ← expect .rParen "al cerrar la llamada"
    return .inl { kind := .call, object := e, args := args }
  | _ =>
    let lhs ← r.expr
    let _ ← expect .rBracket "al cerrar el indice"
    return .inl { kind := .index, object := e, lhs := lhs }

def parsePostfix : Parse Expr := do
  let e ← parsePrimary c r
  mientras siguePostfijo (parseOperador r) e

def parseUnary : Parse Expr := do
  match (← peek).kind with
  | .plusPlus | .minusMinus =>
    let op ← advance
    let lhs ← r.unary
    diagSi (!assignable lhs) soloVariables
    return { kind := .preStep, text := masMenos op.kind, lhs := lhs }
  | .minus =>
    let _ ← advance
    let lhs ← r.unary
    return { kind := .unary, text := "-", lhs := lhs }
  | _ => parsePostfix c r

def binario (op : Tok) (l r : Expr) : Expr :=
  { kind := .binary, text := tokName op, lhs := l, rhs := r }

/-- A level of binary operators, which associate to the left. -/
def izquierda (ops : Tok → Bool) (sub : Parse Expr) (h : ops .endOfFile = false := by decide) :
    Parse Expr := do
  let l ← sub
  mientras ops (fun l => do
    let op ← advance
    let r ← sub
    return .inl (binario op.kind l r)) l h

def esProducto : Tok → Bool
  | .star | .slash | .percent => true
  | _ => false

def esSuma : Tok → Bool
  | .plus | .minus => true
  | _ => false

def esComparacion : Tok → Bool
  | .lt | .ltEq | .gt | .gtEq => true
  | _ => false

def esIgualdad : Tok → Bool
  | .eq | .notEq => true
  | _ => false

def parseProduct : Parse Expr := izquierda esProducto (parseUnary c r)

def parseSum : Parse Expr := izquierda esSuma (parseProduct c r)

def parseComparison : Parse Expr := izquierda esComparacion (parseSum c r)

def parseEquality : Parse Expr := izquierda esIgualdad (parseComparison c r)

def parseNot : Parse Expr :=
  toma .kwNot
    (fun _ => do
      let lhs ← r.not
      return { kind := .unary, text := "not", lhs := lhs })
    (parseEquality c r)

def parseAnd : Parse Expr := izquierda (· = .kwAnd) (parseNot c r)

def parseOr : Parse Expr := izquierda (· = .kwOr) (parseAnd c r)

def parseTernary : Parse Expr := do
  let cond ← parseOr c r
  toma .question
    (fun _ => do
      let lhs ← r.expr
      let _ ← expect .colon "en el operador ternario"
      let rhs ← r.expr
      return { kind := .ternary, object := cond, lhs := lhs, rhs := rhs })
    (return cond)

def parseExpr : Parse Expr := parseTernary c r

end Rules

end Osodio.Syntax
