import Osodio.Odio.Bytecode

/-!
# Binding the parameters of a route

Before a handler starts, its parameters are filled from the request.  A request that
does not fit is refused, with a response of its own; the messages of a body that is
not valid are also left behind for the handler of the error.

## Main definitions

- `ClassInfo`, `ParamBind` — what a route declares
- `Input` — what a request brings
- `Refusal` — why a request is refused
- `bindBody`, `prepareArgs` — the binding, with the messages left behind
-/

namespace Osodio.Odio

/-! ## Declarations -/

/-- A field of a class. -/
structure ClassField where
  name : String
  type : String
  optional : Bool := false
  deriving DecidableEq, Repr

/-- A rule of `validate:`, compiled against the fields of the class. -/
structure ClassRule where
  chunk : Chunk
  message : String

/-- A class that a body is bound to. -/
structure ClassInfo where
  name : String
  fields : List ClassField
  rules : List ClassRule

/-- What a parameter is bound to. -/
inductive BindKind where
  | path
  | query
  | body (cls : ClassInfo)
  | file
  | fileList

/-- A parameter of a route. -/
structure ParamBind where
  kind : BindKind
  name : String
  type : String
  /-- `none` when there is no default. -/
  defaultText : Option String := none

/-! ## Requests -/

/-- A part of a multipart body. -/
structure MultipartPart where
  name : String
  filename : String
  contentType : String
  body : String
  deriving DecidableEq, Repr

/-- What a request brings.  `parts` is `none` unless the body was read as multipart. -/
structure Input where
  params : List (String × String) := []
  query : List (String × String) := []
  body : String := ""
  parts : Option (List MultipartPart) := none
  deriving DecidableEq, Repr

/-- Why a request is refused. -/
inductive Refusal where
  | noMultipart
  | missingFile (name : String)
  | invalidJson
  | notObject
  /-- A rule of the class ended in an error. -/
  | ruleFailed (error : String)
  | invalid (messages : List String)
  | badParam (name type raw : String)
  deriving DecidableEq, Repr

namespace Refusal

/-- The status of the response. -/
def code : Refusal → ℕ
  | .noMultipart | .invalidJson | .badParam .. => 400
  | .missingFile _ | .notObject | .invalid _ => 422
  | .ruleFailed _ => 500

/-- The field `error` of the response. -/
def error : Refusal → String
  | .noMultipart => "se esperaba multipart/form-data"
  | .missingFile _ | .notObject | .invalid _ => "Validacion fallida"
  | .invalidJson => "JSON invalido"
  | .ruleFailed error => error
  | .badParam .. => "parametro invalido"

/-- The field `mensajes` of the response; only a failed validation has one. -/
def mensajes : Refusal → List String
  | .missingFile name => [name ++ ": falta el fichero"]
  | .notObject => ["el cuerpo tiene que ser un objeto JSON"]
  | .invalid messages => messages
  | _ => []

end Refusal

/-- What a slot of a parameter is filled with. -/
inductive Slot where
  | value (v : Value)
  | dict (fields : Dict)
  | list (files : List Dict)

/-- What the binding runs on: the parser of JSON, with the boxes of its result, the
    rules of a class, and the conversions of texts to numbers. -/
structure Primitives where
  parseJson : String → Option (Value × Heap)
  /-- Whether the rule holds, or the text of its error. -/
  runRule : Chunk → List Value → Except String Bool
  stoll : String → Option Int64
  stod : String → Option Float

variable (O : Primitives)

/-! ## Values -/

/-- `coerce`: the text of a parameter as its declared type. -/
def coerce (text type : String) : Option Value :=
  if type = "string" then some (.str text)
  else if type = "int" ∨ type = "long" then (O.stoll text).map .int
  else if type = "float" ∨ type = "double" then (O.stod text).map .float
  else if type = "bool" then
    if text = "true" ∨ text = "1" then some (.bool true)
    else if text = "false" ∨ text = "0" then some (.bool false)
    else none
  else none

/-- `valor_encaja`: a value of the body as the declared type of its field. -/
def valorEncaja (v : Value) (type : String) : Option Value :=
  match v with
  | .str _ => if type = "string" then some v else none
  | .bool _ => if type = "bool" then some v else none
  | .int _ =>
    if type = "int" ∨ type = "long" then some v
    else if type = "float" ∨ type = "double" then some (.float v.asFloat)
    else none
  | .float d => if type = "float" ∨ type = "double" then some (.float d) else none
  | _ => none

/-- What an absent parameter is. -/
def absent (type : String) : Value :=
  if type = "string" then .str ""
  else if type = "bool" then .bool false
  else if type = "float" ∨ type = "double" then .float 0
  else .int 0

/-! ## The body -/

/-- What the fields gave so far. -/
structure Fields where
  messages : List String := []
  fields : Dict := []
  ordered : List Value := []

/-- One field of the class.  A field that is wrong is null. -/
def bindField (body : Dict) (s : Fields) (f : ClassField) : Fields :=
  let put (s : Fields) (v : Value) : Fields :=
    { s with fields := setKey f.name v s.fields, ordered := s.ordered ++ [v] }
  match valueAt f.name body with
  | .null =>
    put (if f.optional then s
      else { s with messages := s.messages ++ [f.name ++ ": obligatorio"] }) .null
  | v =>
    match valorEncaja v f.type with
    | none =>
      put { s with messages := s.messages ++ [f.name ++ ": se esperaba " ++ f.type] } .null
    | some v => put s v

/-- The rules of the class, in order.  One that fails ends the binding. -/
def runRules (ordered : List Value) : List ClassRule → Except String (List String)
  | [] => .ok []
  | rule :: rules => do
    let holds ← O.runRule rule.chunk ordered
    let messages ← runRules ordered rules
    return if holds then messages else rule.message :: messages

/-- `bind_body`.  The second result is `last_validation_messages()` afterwards. -/
def bindBody (ci : ClassInfo) (body : String) (left : List String) :
    Except Refusal Slot × List String :=
  match O.parseJson body with
  | none => (.error .invalidJson, left)
  | some (.dict addr, heap) =>
    let s := ci.fields.foldl (bindField (dictAt heap addr)) {}
    -- the rules run only if the fields are right
    match if s.messages = [] then runRules O s.ordered ci.rules else .ok s.messages with
    | .error e => (.error (.ruleFailed e), left)
    | .ok [] => (.ok (.dict s.fields), left)
    | .ok messages => (.error (.invalid messages), messages)
  | some _ => (.error .notObject, left)

/-! ## All parameters -/

/-- `make_file_value`. -/
def makeFileValue (part : MultipartPart) (index : ℕ) : Dict :=
  [("name", .str part.name), ("filename", .str part.filename),
    ("content_type", .str part.contentType),
    ("size", .int (Int64.ofNat part.body.utf8ByteSize)), ("__idx", .int (Int64.ofNat index))]

/-- The files that were uploaded under a name. -/
def filesOf (name : String) (parts : List MultipartPart) : List Dict :=
  parts.zipIdx.filterMap fun p =>
    if p.1.name = name ∧ p.1.filename ≠ "" then some (makeFileValue p.1 p.2) else none

/-- The text of a parameter, if the request brings one. -/
def rawText (b : ParamBind) (input : Input) : Option String :=
  match b.kind with
  | .path => input.params.lookup b.name
  | _ =>
    (input.query.lookup b.name).or <|
      ((input.parts.getD []).find? fun p => p.name = b.name ∧ p.filename = "").map (·.body)
        |>.or b.defaultText

/-- One parameter. -/
def bindParam (b : ParamBind) (input : Input) (left : List String) :
    Except Refusal Slot × List String :=
  match b.kind with
  | .file =>
    match input.parts with
    | none => (.error .noMultipart, left)
    | some parts =>
      match filesOf b.name parts with
      | [] => (.error (.missingFile b.name), left)
      | f :: _ => (.ok (.dict f), left)
  | .fileList =>
    match input.parts with
    | none => (.error .noMultipart, left)
    | some parts => (.ok (.list (filesOf b.name parts)), left)
  | .body cls => bindBody O cls input.body left
  | .path | .query =>
    match rawText b input with
    | none => (.ok (.value (absent b.type)), left)
    | some raw =>
      match coerce O raw b.type with
      | none => (.error (.badParam b.name b.type raw), left)
      | some v => (.ok (.value v), left)

/-- The parameters in turn, up to the first one that is refused. -/
def bindParams (input : Input) : List ParamBind → List String →
    Except Refusal (List Slot) × List String
  | [], left => (.ok [], left)
  | b :: binds, left =>
    match bindParam O b input left with
    | (.error r, left) => (.error r, left)
    | (.ok slot, left) =>
      match bindParams input binds left with
      | (.error r, left) => (.error r, left)
      | (.ok slots, left) => (.ok (slot :: slots), left)

/-- `prepare_args`, which starts without messages. -/
def prepareArgs (binds : List ParamBind) (input : Input) :
    Except Refusal (List Slot) × List String :=
  bindParams O input binds []

end Osodio.Odio
