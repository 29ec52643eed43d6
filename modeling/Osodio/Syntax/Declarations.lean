import Osodio.Syntax.Parser

/-!
# The parser: statements and declarations

A declaration with an error is left where it stands, and the parser goes on with what looks like the
next one.

## Main definitions

- `parseBlock`, `parseStatement` — statements
- `parseDeclaration` — declarations
- `recur` — the rules that are called again, for so many calls of one in another
- `parseInto`, `parseSingleExpression` — a file, and an expression of a template
-/

namespace Osodio.Syntax

open Osodio.Db (strtol)

section Rules

variable (c : Entorno) (r : Recur)

/-! ## Statements -/

/-- `clone_target`: the receiver, and the index of an element. -/
def cloneTarget : Expr → Expr
  | ⟨kind, text, intValue, floatValue, boolValue, object, lhs, _, _, _, _⟩ =>
    { kind := kind
      text := text
      intValue := intValue
      floatValue := floatValue
      boolValue := boolValue
      object := match object with
        | some e => some (cloneTarget e)
        | none => none
      lhs := if kind = .index then
          match lhs with
          | some e => some (cloneTarget e)
          | none => none
        else none }

/-- The operator of a compound assignment. -/
def compuesta : Tok → Option Tok
  | .plusEq => some .plus
  | .minusEq => some .minus
  | .starEq => some .star
  | .slashEq => some .slash
  | .percentEq => some .percent
  | _ => none

/-- What a condition or a value is not looked for in front of. -/
def acabaLinea : Tok → Bool
  | .newline | .dedent | .endOfFile => true
  | _ => false

def nombreO (message : String) : Parse String :=
  toma .ident (fun t => return t.text) (do
    errorHere message
    return "")

def parseReturn : Parse Stmt := do
  let _ ← advance
  if acabaLinea (← peek).kind then return { kind := .returnStmt }
  else
    let value ← parseExpr c r
    return { kind := .returnStmt, value := value }

/-- An `if`, behind its first word, and what may follow it. -/
def parseIfDe (context : String) : Parse Stmt := do
  let _ ← advance
  let value ← parseExpr c r
  let _ ← expect .colon context
  let body ← r.block
  skipNewlines
  let orelse ← cuando .kwElif
    (do
      let s ← r.ifFromElif
      return [s])
    (toma .kwElse
      (fun _ => cuando .kwIf
        (do
          let s ← r.ifStmt
          return [s])
        (do
          let _ ← expect .colon "tras 'else'"
          r.block))
      (return []))
  return { kind := .ifStmt, value := value, body := body, orelse := orelse }

def parseIf : Parse Stmt := parseIfDe c r "tras la condicion del if"

def parseIfFromElif : Parse Stmt := parseIfDe c r "tras la condicion del elif"

def parseWhile : Parse Stmt := do
  let _ ← advance
  let value ← parseExpr c r
  let _ ← expect .colon "tras la condicion del while"
  let body ← r.block
  return { kind := .whileStmt, value := value, body := body }

def parseFor : Parse Stmt := do
  let _ ← advance
  let type ← parseType r
  let name ← nombreO "se esperaba el nombre de la variable del bucle"
  let _ ← expect .kwIn "en el bucle for"
  let target ← parseExpr c r
  let _ ← expect .colon "tras el iterable del for"
  let body ← r.block
  return { kind := .forStmt, type := type, name := name, target := target, body := body }

def parseRequire : Parse Stmt := do
  let _ ← advance
  let value ← parseExpr c r
  if ← expect .kwElse "en 'require ... else ...'" then
    let target ← parseExpr c r
    return { kind := .requireStmt, value := value, target := target }
  else return { kind := .requireStmt, value := value }

def parseTry : Parse Stmt := do
  let _ ← advance
  let _ ← expect .colon "tras 'try'"
  let body ← r.block
  skipNewlines
  if ← expect .kwCatch "tras el bloque try" then
    let name ← toma .ident (fun t => return t.text) (return "")
    let _ ← expect .colon "tras 'catch'"
    let orelse ← r.block
    return { kind := .tryStmt, body := body, name := name, orelse := orelse }
  else return { kind := .tryStmt, body := body }

def looksLikeType : Parse Bool := fun s => .ok (s.looksLikeType, s)

/-- The declaration of a variable. -/
def parseVarDecl : Parse Stmt := do
  let type ← parseType r
  let name ← nombreO "se esperaba el nombre de la variable"
  let value ← toma .assign
    (fun _ => do
      let e ← parseExpr c r
      return some e)
    (return none)
  return { kind := .varDecl, type := type, name := name, value := value }

/-- An assignment, or an expression by itself. -/
def parseSuelta : Parse (Option Stmt) := do
  let e ← parseExpr c r
  match compuesta (← peek).kind with
  | some op =>
    let _ ← advance
    if assignable e = false then
      diag "solo se puede asignar a una variable o a un campo"
      return none
    else
      let rhs ← parseExpr c r
      return some { kind := .assign, target := e, value := binario op (cloneTarget e) rhs }
  | none =>
    toma .assign
      (fun _ => do
        let value ← parseExpr c r
        return some { kind := .assign, target := e, value := value })
      (return some { kind := .exprStmt, value := e })

def parseStatement : Parse (Option Stmt) := do
  match (← peek).kind with
  | .kwReturn => return some (← parseReturn c r)
  | .kwIf => return some (← parseIf c r)
  | .kwWhile => return some (← parseWhile c r)
  | .kwFor => return some (← parseFor c r)
  | .kwRequire => return some (← parseRequire c r)
  | .kwTry => return some (← parseTry r)
  | .kwBreak =>
    let _ ← advance
    return some { kind := .breakStmt }
  | .kwContinue =>
    let _ ← advance
    return some { kind := .continueStmt }
  | _ =>
    if ← looksLikeType then return some (← parseVarDecl c r)
    else parseSuelta c r

/-! ## Blocks -/

section Blocks

variable {σ : Type}

def quedan : Parse ℕ := fun s => .ok (s.rest.length, s)

/-- Behind a turn that goes on, a token is taken if none has been since. -/
def red (before : ℕ) : σ ⊕ σ → Parse (σ ⊕ σ)
  | .inr a => return .inr a
  | .inl a => do
    skipNewlines
    if (← quedan) = before then
      let _ ← advance
      return .inl a
    else return .inl a

/-- A turn with this net. -/
def conRed (cuerpo : Parse (σ ⊕ σ)) : Parse (σ ⊕ σ) := do
  let before ← quedan
  let y ← cuerpo
  red before y

/-- The lines of a block, up to its end. -/
def lineas (cuerpo : σ → Parse (σ ⊕ σ)) (a : σ) : Parse σ :=
  mientras (fun k => k ≠ .dedent ∧ k ≠ .endOfFile) (fun a => do
    skipNewlines
    let t ← peek
    if t.kind = .dedent ∨ t.kind = .endOfFile then return .inr a
    else cuerpo a) a

/-- `match(Dedent)`. -/
def finBloque : Parse Unit := toma .dedent (fun _ => return ()) (return ())

end Blocks

def parseBlock : Parse Block := do
  skipNewlines
  if ← expect .indent "al abrir el bloque" then
    let body ← lineas (fun body => conRed do
      let s ← parseStatement c r
      return .inl (body ++ s.toList)) []
    finBloque
    return body
  else return []

/-! ## Functions and classes -/

/-- `if (!expect(k, context)) { synchronize(); return out; }`. -/
def exige {α : Type} (k : Tok) (context : String) (out : α) (sigue : Parse α)
    (h : k ≠ .endOfFile := by exact Tok.ne_endOfFile _ false_eq_false) : Parse α := do
  if ← expect k context h then sigue
  else
    synchronize
    return out

/-- `error_here(message); synchronize(); return out;`. -/
def abandona {α : Type} (message : String) (out : α) : Parse α := do
  errorHere message
  synchronize
  return out

def parseParam : Parse Param := do
  let type ← parseType r
  let name ← nombreO "se esperaba el nombre del parametro"
  let defaultValue ← toma .assign
    (fun _ => do
      let e ← parseExpr c r
      return some e)
    (return none)
  return { type := type, name := name, defaultValue := defaultValue }

def parseFn (out : Program) : Parse Program := do
  let _ ← advance
  let returnType ← parseType r
  toma .ident
    (fun t => do
      diagSi (out.functions.any (·.name = t.text))
        ("la funcion '" ++ t.text ++ "' ya esta declarada")
      exige .lParen "tras el nombre de la funcion" out do
        let params ← separados .rParen (parseParam c r)
        exige .rParen "al cerrar los parametros" out do
          exige .colon "al abrir el cuerpo de la funcion" out do
            let body ← r.block
            return { out with functions := out.functions ++
              [{ returnType := returnType, name := t.text, params := params, body := body }] })
    (abandona "se esperaba el nombre de la funcion" out)

/-- The rules of a `validate` block. -/
def parseValidate (cl : ClassDecl) : Parse ClassDecl := do
  let cl ← lineas (fun cl : ClassDecl => do
    let condition ← parseExpr c r
    let message ← toma .string (fun t => return t.text) (do
      errorHere "cada regla de validate lleva su mensaje entre comillas"
      return "")
    skipNewlines
    return .inl { cl with rules := cl.rules ++
      [{ condition := condition, message := message }] }) cl
  finBloque
  return cl

def parseMethod (cl : ClassDecl) : Parse (ClassDecl ⊕ ClassDecl) := do
  let _ ← advance
  let returnType ← parseType r
  toma .ident
    (fun t => do
      diagVeces (cl.methods.countP (·.name = t.text))
        ("el metodo '" ++ t.text ++ "' ya esta declarado en la clase '" ++ cl.name ++ "'")
      let _ ← expect .lParen "tras el nombre del metodo"
      let params ← separados .rParen (parseParam c r)
      let _ ← expect .rParen "al cerrar los parametros del metodo"
      let _ ← expect .colon "al abrir el cuerpo del metodo"
      let body ← r.block
      return .inl { cl with methods := cl.methods ++
        [{ returnType := returnType, name := t.text, params := params, body := body }] })
    (do
      errorHere "se esperaba el nombre del metodo"
      return .inr cl)

def parseCtor (cl : ClassDecl) : Parse ClassDecl := do
  let _ ← advance
  let _ ← advance
  let params ← separados .rParen (parseParam c r)
  let _ ← expect .rParen "al cerrar los parametros del constructor"
  diagVeces (cl.ctors.countP (·.params.length = params.length))
    ("ya hay un constructor de '" ++ cl.name ++ "' con " ++ toString params.length ++
      " parametro(s); se distinguen por su numero")
  toma .colon
    (fun _ => do
      let body ← r.block
      return { cl with ctors := cl.ctors ++ [{ params := params, hasBody := true, body := body }] })
    (return { cl with ctors := cl.ctors ++ [{ params := params }] })

def parseField (cl : ClassDecl) : Parse ClassDecl := do
  let type ← parseType r
  let name ← nombreO "se esperaba el nombre del campo"
  diagSi (cl.fields.any (·.name = name)) ("el campo '" ++ name ++ "' esta duplicado")
  return { cl with fields := cl.fields ++ [{ type := type, name := name }] }

/-- A line of a class. -/
def parseMiembro (cl : ClassDecl) : Parse (ClassDecl ⊕ ClassDecl) := do
  let t ← peek
  if t.kind = .kwValidate then
    let _ ← advance
    let _ ← expect .colon "tras 'validate'"
    skipNewlines
    if ← expect .indent "al abrir el bloque validate" then
      return .inl (← parseValidate c r cl)
    else return .inr cl
  else if t.kind = .kwFn then parseMethod c r cl
  else if t.kind = .ident ∧ t.text = cl.name ∧ (← peekAt 1).kind = .lParen then
    return .inl (← parseCtor c r cl)
  else return .inl (← parseField r cl)

def parseClass (out : Program) : Parse Program := do
  let _ ← advance
  toma .ident
    (fun t => exige .colon "tras el nombre de la clase" out do
      skipNewlines
      exige .indent "al abrir el cuerpo de la clase" out do
        let cl : ClassDecl ← lineas (fun cl => conRed (parseMiembro c r cl)) { name := t.text }
        finBloque
        diagSi cl.fields.isEmpty ("la clase '" ++ cl.name ++ "' no declara ningun campo")
        return { out with classes := out.classes ++ [cl] })
    (abandona "se esperaba el nombre de la clase" out)

/-! ## Routes and groups -/

def metodo : Tok → Option String
  | .kwGet => some "GET"
  | .kwPost => some "POST"
  | .kwPut => some "PUT"
  | .kwPatch => some "PATCH"
  | .kwDelete => some "DELETE"
  | .kwAny => some "*"
  | .kwSse => some "SSE"
  | .kwWs => some "WS"
  | _ => none

def sinBarra (p : String) : String :=
  if p.toList.getLast? = some '/' then String.ofList p.toList.dropLast else p

/-- The pattern of a route behind the prefix of its group. -/
def conPrefijo (pre pattern : String) : String :=
  if pre = "" then pattern
  else
    let p := sinBarra pre
    if pattern = "/" then if p = "" then "/" else p
    else if pattern.toList.head? ≠ some '/' then p ++ "/" ++ pattern
    else p ++ pattern

/-- The prefix of a group inside another. -/
def prefijoDe (pre own : String) : String :=
  let combined := sinBarra pre
  if own ≠ "" ∧ own ≠ "/" then
    sinBarra ((if own.toList.head? ≠ some '/' then combined ++ "/" else combined) ++ own)
  else combined

def parseOrigins : Parse (List String) :=
  toma .kwOrigins
    (fun _ => do
      let _ ← expect .lParen "tras 'origins'"
      let origins ← mientras (fun k => k ≠ .rParen ∧ k ≠ .endOfFile) (fun origins => do
        let origins ← toma .string (fun t => return origins ++ [t.text]) (do
          errorHere "origins() solo admite cadenas"
          let _ ← advance
          return origins)
        toma .comma (fun _ => return .inl origins) (return .inr origins)) []
      let _ ← expect .rParen "al cerrar origins()"
      return origins)
    (return [])

/-- `parse_route`, behind the token of the method. -/
def parseRoute (out : Program) (method : String) (pre : String) (guards : List Guard) :
    Parse Program :=
  exige .kwEndpoint "tras el metodo de la ruta" out <|
  exige .lParen "tras 'endpoint'" out <|
  toma .string
    (fun t => do
      let params ← mientras (· = .comma) (fun params => do
        let _ ← advance
        -- a comma may come last
        if ← check .rParen then return .inr params
        else
          let p ← parseParam c r
          return .inl (params ++ [p])) []
      exige .rParen "al cerrar endpoint()" out do
        let origins ← parseOrigins
        exige .colon "al abrir el cuerpo de la ruta" out do
          let body ← r.block
          return { out with routes := out.routes ++
            [{ method := method, pattern := conPrefijo pre t.text, params := params,
               origins := origins, guards := guards, body := body }] })
    (abandona "el primer argumento de endpoint() es el patron de ruta, entre comillas" out)

def hastaFinLinea : Parse Unit :=
  mientras (fun k => k ≠ .newline ∧ k ≠ .dedent ∧ k ≠ .endOfFile) (fun _ => do
    let _ ← advance
    return .inl ()) ()

/-- The program so far, the guards of the group, and whether it has had a route. -/
abbrev EnGrupo := Program × List Guard × Bool

/-- A line of a group. -/
def parseEnGrupo (combined : String) : EnGrupo → Parse (EnGrupo ⊕ EnGrupo)
  | (out, guards, seenRoute) => do
    match (← peek).kind with
    | .kwRequire =>
      let _ ← advance
      diagSi seenRoute "las guardas del grupo van antes que sus rutas"
      let condition ← parseExpr c r
      if ← expect .kwElse "en 'require ... else ...'" then
        let otherwise ← parseExpr c r
        return .inl (out, guards ++ [{ condition := condition, otherwise := otherwise }], seenRoute)
      else return .inl (out, guards ++ [{ condition := condition }], seenRoute)
    | .kwGroup =>
      let out ← r.group out combined guards
      return .inl (out, guards, true)
    | k =>
      match metodo k with
      | some method =>
        let _ ← advance
        let out ← parseRoute c r out method combined guards
        return .inl (out, guards, true)
      | none =>
        errorHere "dentro de un grupo solo caben 'require', rutas y otros grupos"
        hastaFinLinea
        return .inl (out, guards, seenRoute)

def parseGroup (out : Program) (pre : String) (outerGuards : List Guard) : Parse Program := do
  let _ ← advance
  exige .lParen "tras 'group'" out do
    let own ← toma .string (fun t => return t.text) (do
      errorHere "group() espera el prefijo de URL entre comillas"
      return "")
    exige .rParen "al cerrar group()" out do
      exige .colon "al abrir el cuerpo del grupo" out do
        skipNewlines
        exige .indent "al abrir el bloque del grupo" out do
          let a ← lineas (fun a => conRed (parseEnGrupo c r (prefijoDe pre own) a))
            (out, outerGuards, false)
          finBloque
          return a.1

/-! ## Handlers of errors -/

def parseError (out : Program) : Parse Program := do
  let _ ← advance
  exige .kwError "tras 'on'" out do
    let v ← toma .int (fun t => return some (strtol t.text)) (return none)
    if v.any (fun v => v < 400 ∨ 599 < v) then
      diag "'on error' solo cubre codigos 400-599; con un 2xx el handler ya ha escrito la respuesta"
      synchronize
      return out
    else
      diagSi (out.errors.any (·.code = v.getD 0))
        (if v.getD 0 ≠ 0 then "ya hay un manejador para el codigo " ++ toString (v.getD 0)
          else "ya hay un manejador global de error")
      exige .colon "al abrir el manejador de error" out do
        let body ← r.block
        return { out with errors := out.errors ++ [{ code := v.getD 0, body := body }] }

/-! ## The block `app:` -/

inductive Valor where
  | cadena (text : String)
  | numero (number : ℤ)
  | booleano (flag : Bool)
  deriving DecidableEq, Repr

/-- How the value of an option is kept. -/
def Valor.texto : Valor → String
  | cadena text => text
  | numero number => toString number
  | booleano flag => if flag then "true" else "false"

/-- `config_value`. -/
def configValue : Parse (Option Valor) := do
  let t ← peek
  match t.kind with
  | .string =>
    let t ← advance
    return some (.cadena t.text)
  | .int =>
    let t ← advance
    return some (.numero (strtol t.text))
  | .kwTrue | .kwFalse =>
    let t ← advance
    return some (.booleano (t.kind = .kwTrue))
  | .ident =>
    if t.text = "env" ∧ (← peekAt 1).kind = .lParen then
      let _ ← advance
      let _ ← advance
      toma .string
        (fun name => do
          let _ ← expect .rParen "al cerrar env()"
          return some (.cadena ((c.getenv name.text).getD "")))
        (do
          errorHere "env() espera el nombre entre comillas"
          return none)
    else return none
  | _ => return none

/-- The options of a block inside `app:`. -/
def parseOpciones {α : Type} (pon : String → Valor → α → Parse α) (a : α) : Parse α := do
  let a ← lineas (fun a =>
    toma .ident
      (fun key => do
        match ← configValue c with
        | some v =>
          let a ← pon key.text v a
          skipNewlines
          return .inl a
        | none =>
          errorHere "valor invalido: se esperaba una cadena, un numero, true/false o env(\"VAR\")"
          hastaFinLinea
          return .inl a)
      (do
        errorHere "se esperaba una clave"
        let _ ← advance
        return .inl a)) a
  finBloque
  return a

/-- `std::map::operator[]` and an assignment. -/
def ponEn {α : Type} (k : String) (v : α) (m : List (String × α)) : List (String × α) :=
  if m.any (·.1 = k) then m.map fun p => if p.1 = k then (k, v) else p else m ++ [(k, v)]

def ponSession (key : String) (v : Valor) (app : AppDecl) : Parse AppDecl :=
  match key, v with
  | "secret", .cadena text => return { app with sessionSecret := text }
  | "max_age", .numero number => return { app with sessionMaxAge := number.bmod (2 ^ 32) }
  | "secure", .booleano flag => return { app with sessionSecure := flag }
  | _, _ => do
    diag ("clave desconocida o de tipo equivocado en session: '" ++ key ++ "'")
    return app

def ponJwt (key : String) (v : Valor) (app : AppDecl) : Parse AppDecl :=
  match key, v with
  | "secret", .cadena text => return { app with jwtSecret := text }
  | "issuer", .cadena text => return { app with jwtIssuer := text }
  | _, _ => do
    diag ("clave desconocida o de tipo equivocado en jwt: '" ++ key ++ "'")
    return app

/-- A block inside `app:`, behind its name. -/
def parseSubBloque (context abrir : String) (app : AppDecl) (cuerpo : AppDecl → Parse AppDecl) :
    Parse (AppDecl ⊕ AppDecl) := do
  let _ ← expect .colon context
  skipNewlines
  if ← expect .indent abrir then return .inl (← cuerpo app) else return .inr app

def parseStatic (app : AppDecl) : Parse AppDecl := do
  let _ ← advance
  let urlPrefix ← toma .string (fun t => return t.text) (do
    errorHere "se esperaba el prefijo de URL entre comillas"
    return "")
  let _ ← expect .arrow "entre el prefijo y el directorio"
  let fsRoot ← toma .string (fun t => return t.text) (do
    errorHere "se esperaba el directorio entre comillas"
    return "")
  let spa ← toma .kwSpa (fun _ => return true) (return false)
  return { app with statics := app.statics ++
    [{ urlPrefix := urlPrefix, fsRoot := fsRoot, spa := spa }] }

/-- A key that has a string. -/
def parseCadena (pon : String → AppDecl) (app : AppDecl) : Parse AppDecl :=
  toma .string (fun t => return pon t.text) (do
    errorHere "se esperaba una cadena"
    return app)

def parsePort (app : AppDecl) : Parse AppDecl :=
  toma .int
    (fun t => do
      if strtol t.text < 1 ∨ 65535 < strtol t.text then
        diag "puerto fuera de rango (1-65535)"
        return app
      else return { app with port := strtol t.text })
    (do
      errorHere "se esperaba un numero de puerto"
      return app)

/-- A key of the block `app:`, behind its name. -/
def parseClave (imports : List String) (k : String) (app : AppDecl) :
    Parse (AppDecl ⊕ AppDecl) := do
  if k = "name" then return .inl (← parseCadena (fun v => { app with name := v }) app)
  else if k = "version" then return .inl (← parseCadena (fun v => { app with version := v }) app)
  else if k = "templates" then
    return .inl (← parseCadena (fun v => { app with templatesDir := v }) app)
  else if k = "port" then return .inl (← parsePort app)
  else if k = "docs" then return .inl { app with docs := true }
  else if k = "health" then return .inl { app with health := true }
  else if k = "metrics" then return .inl { app with metrics := true }
  else if k ∈ imports then
    parseSubBloque "tras el nombre del modulo" "al abrir la configuracion del modulo" app
      fun app => do
        let opts ← parseOpciones c (fun mk v opts => return ponEn mk v.texto opts)
          ((app.modules.lookup k).getD [])
        return { app with modules := ponEn k opts app.modules }
  else if k = "session" then
    parseSubBloque "tras la clave del sub-bloque" "al abrir el sub-bloque" app
      (parseOpciones c ponSession)
  else if k = "jwt" then
    parseSubBloque "tras la clave del sub-bloque" "al abrir el sub-bloque" app
      (parseOpciones c ponJwt)
  else
    diag ("clave desconocida en el bloque app: '" ++ k ++ "'")
    hastaFinLinea
    return .inl app

/-- A line of the block `app:`. -/
def parseEnApp (imports : List String) (app : AppDecl) : Parse (AppDecl ⊕ AppDecl) := do
  let key ← peek
  if key.kind = .kwStatic then return .inl (← parseStatic app)
  else if key.kind = .ident then
    let t ← advance
    parseClave c imports t.text app
  else
    errorHere "se esperaba una clave de configuracion"
    hastaFinLinea
    return .inl app

def parseLineaApp (imports : List String) (app : AppDecl) : Parse (AppDecl ⊕ AppDecl) := do
  match ← parseEnApp c imports app with
  | .inr app => return .inr app
  | .inl app =>
    skipNewlines
    return .inl app

/-- The block `app:`, behind its first word. -/
def enApp (out : Program) (app : AppDecl) : Parse Program :=
  exige .colon "tras 'app'" { out with app := app } do
    skipNewlines
    exige .indent "al abrir el bloque app" { out with app := app } do
      let app ← lineas (parseLineaApp c out.imports) app
      finBloque
      return { out with app := app }

def parseApp (out : Program) : Parse Program := do
  let _ ← advance
  diagSi out.app.present "el bloque 'app:' solo puede aparecer una vez en el proyecto"
  enApp c out { out.app with present := true }

/-! ## Files -/

def parseImport (out : Program) : Parse Program := do
  let _ ← advance
  toma .ident
    (fun t => do
      if t.text ∈ out.imports then
        diag ("'" ++ t.text ++ "' ya estaba importado")
        return out
      else return { out with imports := out.imports ++ [t.text] })
    (abandona "se esperaba el nombre del modulo tras 'import'" out)

def parseDeclaration (out : Program) : Parse Program := do
  match (← peek).kind with
  | .kwGroup => parseGroup c r out "" []
  | .kwApp => parseApp c out
  | .kwClass => parseClass c r out
  | .kwOn => parseError r out
  | .kwFn => parseFn c r out
  | .kwImport => parseImport out
  | k =>
    match metodo k with
    | some method =>
      let _ ← advance
      parseRoute c r out method "" []
    | none => abandona "se esperaba una declaracion (get/post/... endpoint, o app)" out

end Rules

/-! ## All together -/

/-- The rules that are called again, when so many calls may be open. -/
def recur (c : Entorno) : ℕ → Recur
  | 0 =>
    { expr := fun _ => .error .hondo
      not := fun _ => .error .hondo
      unary := fun _ => .error .hondo
      type := fun _ => .error .hondo
      block := fun _ => .error .hondo
      ifStmt := fun _ => .error .hondo
      ifFromElif := fun _ => .error .hondo
      group := fun _ _ _ _ => .error .hondo }
  | n + 1 =>
    { expr := parseExpr c (recur c n)
      not := parseNot c (recur c n)
      unary := parseUnary c (recur c n)
      type := parseType (recur c n)
      block := parseBlock c (recur c n)
      ifStmt := parseIf c (recur c n)
      ifFromElif := parseIfFromElif c (recur c n)
      group := parseGroup c (recur c n) }

/-- `parse_into`. -/
def parseInto (c : Entorno) (out : Program) : Parse Program := fun s =>
  let r := recur c s.rest.length
  (do
    skipNewlines
    mientras (· ≠ .endOfFile) (fun out => conRed do
      let out ← parseDeclaration c r out
      return .inl out) out : Parse Program) s

/-- `parse_single_expression`. -/
def parseSingleExpression (c : Entorno) : Parse (Option Expr) := fun s =>
  let r := recur c s.rest.length
  (do
    skipNewlines
    if ← check .endOfFile then
      errorHere "se esperaba una expresion"
      return none
    else
      let e ← parseExpr c r
      skipNewlines
      if ← check .endOfFile then return some e
      else
        errorHere "sobra algo detras de la expresion"
        return none : Parse (Option Expr)) s

end Osodio.Syntax
