import Osodio.Odio.Bytecode

/-!
# The tables of natives

The emitter resolves the name of a native to its index in one table.  A second
table gives the members of the reserved objects, and a third one the methods of
each type that has a closed list of them.

## Main definitions

- `kNatives`, `nativeId`, `nativeAt` — the natives
- `kMembers`, `memberNativeId` — the members of `sse`, `session`, `sqlite`, …
- `metodosDe` — the methods that exist for a type
-/

namespace Osodio.Odio

/-- A native: its name, how many arguments it takes, and whether it suspends.  An
    asynchronous one has no function of its own: the driver of the handler
    answers it. -/
structure NativeDef where
  name : String
  minArgs : ℕ
  /-- `none` stands for no limit. -/
  maxArgs : Option ℕ
  isAsync : Bool := false
  deriving DecidableEq, Repr, Inhabited

/-- The natives, in the order of their indices. -/
def kNatives : List NativeDef := [
  ⟨"text", 1, some 1, false⟩,
  ⟨"html", 1, some 1, false⟩,
  ⟨"json", 1, some 1, false⟩,
  ⟨"render", 1, some 2, false⟩,
  ⟨"__render_tpl", 2, some 2, false⟩,
  ⟨"status", 1, some 1, false⟩,
  ⟨"redirect", 1, some 2, false⟩,
  ⟨"send_file", 1, some 1, false⟩,
  ⟨"len", 1, some 1, false⟩,
  ⟨"str", 1, some 1, false⟩,
  ⟨"int", 1, some 1, false⟩,
  ⟨"header", 1, some 2, false⟩,
  ⟨"query", 1, some 2, false⟩,
  ⟨"__sse_send", 1, some 3, false⟩,
  ⟨"__sse_ping", 0, some 1, false⟩,
  ⟨"__sse_open", 0, some 0, false⟩,
  ⟨"__ws_send", 1, some 1, false⟩,
  ⟨"__ws_open", 0, some 0, false⟩,
  ⟨"__ws_close", 0, some 0, false⟩,
  ⟨"__session_get", 1, some 1, false⟩,
  ⟨"__session_set", 2, some 2, false⟩,
  ⟨"__session_clear", 0, some 0, false⟩,
  ⟨"__jwt_valid", 0, some 0, false⟩,
  ⟨"__jwt_claims", 0, some 0, false⟩,
  ⟨"__error_code", 0, some 0, false⟩,
  ⟨"__error_message", 0, some 0, false⟩,
  ⟨"__error_messages", 0, some 0, false⟩,
  ⟨"__req_path", 0, some 0, false⟩,
  ⟨"__req_method", 0, some 0, false⟩,
  ⟨"__req_ip", 0, some 0, false⟩,
  ⟨"__state_incr", 1, some 2, false⟩,
  ⟨"__state_decr", 1, some 2, false⟩,
  ⟨"__state_get", 1, some 2, false⟩,
  ⟨"__state_set", 2, some 2, false⟩,
  ⟨"__state_remove", 1, some 1, false⟩,
  ⟨"__log_info", 1, some 1, false⟩,
  ⟨"__log_warn", 1, some 1, false⟩,
  ⟨"__log_error", 1, some 1, false⟩,
  ⟨"cookie", 1, some 2, false⟩,
  ⟨"form", 1, some 2, false⟩,
  ⟨"sleep", 1, some 1, true⟩,
  ⟨"__ws_recv", 0, some 0, true⟩,
  ⟨"__db_query", 2, none, true⟩,
  ⟨"__db_exec", 2, none, true⟩,
  ⟨"__db_begin", 1, some 1, true⟩,
  ⟨"__db_commit", 1, some 1, true⟩,
  ⟨"__db_rollback", 1, some 1, true⟩,
  ⟨"__db_last_id", 1, some 1, true⟩]

/-- The index of a native. -/
def nativeId (name : String) : Option ℕ := kNatives.findIdx? (·.name == name)

/-- The native at an index. -/
def nativeAt (id : ℕ) : NativeDef := kNatives.getD id default

theorem nativeId_lt {name : String} {id : ℕ} (h : nativeId name = some id) :
    id < kNatives.length := by
  obtain ⟨hid, -⟩ := List.findIdx?_eq_some_iff_getElem.1 h
  exact hid

theorem nativeAt_name {name : String} {id : ℕ} (h : nativeId name = some id) :
    (nativeAt id).name = name := by
  obtain ⟨hid, heq, -⟩ := List.findIdx?_eq_some_iff_getElem.1 h
  simpa [nativeAt, hid] using heq

/-- The natives that the emitter calls by itself. -/
def lenId : ℕ := 8
def renderTplId : ℕ := 4
def sessionGetId : ℕ := 19
def sessionSetId : ℕ := 20

theorem nativeId_len : nativeId "len" = some lenId := by decide

theorem nativeId_render_tpl : nativeId "__render_tpl" = some renderTplId := by decide

theorem nativeId_session_get : nativeId "__session_get" = some sessionGetId := by decide

theorem nativeId_session_set : nativeId "__session_set" = some sessionSetId := by decide

/-! ## Reserved objects -/

/-- `objeto.miembro` and the native that implements it. -/
def kMembers : List (String × String × String) := [
  ("sse", "send", "__sse_send"),
  ("sse", "ping", "__sse_ping"),
  ("sse", "open", "__sse_open"),
  ("ws", "send", "__ws_send"),
  ("ws", "open", "__ws_open"),
  ("ws", "close", "__ws_close"),
  ("ws", "recv", "__ws_recv"),
  ("session", "clear", "__session_clear"),
  ("jwt", "valid", "__jwt_valid"),
  ("jwt", "claims", "__jwt_claims"),
  ("error", "code", "__error_code"),
  ("error", "message", "__error_message"),
  ("error", "messages", "__error_messages"),
  ("sqlite", "query", "__db_query"),
  ("sqlite", "exec", "__db_exec"),
  ("postgres", "query", "__db_query"),
  ("postgres", "exec", "__db_exec"),
  ("mysql", "query", "__db_query"),
  ("mysql", "exec", "__db_exec"),
  ("sqlite", "begin", "__db_begin"),
  ("sqlite", "commit", "__db_commit"),
  ("sqlite", "rollback", "__db_rollback"),
  ("sqlite", "last_id", "__db_last_id"),
  ("postgres", "begin", "__db_begin"),
  ("postgres", "commit", "__db_commit"),
  ("postgres", "rollback", "__db_rollback"),
  ("postgres", "last_id", "__db_last_id"),
  ("mysql", "begin", "__db_begin"),
  ("mysql", "commit", "__db_commit"),
  ("mysql", "rollback", "__db_rollback"),
  ("mysql", "last_id", "__db_last_id"),
  ("request", "path", "__req_path"),
  ("request", "method", "__req_method"),
  ("request", "ip", "__req_ip"),
  ("state", "incr", "__state_incr"),
  ("state", "decr", "__state_decr"),
  ("state", "get", "__state_get"),
  ("state", "set", "__state_set"),
  ("state", "remove", "__state_remove"),
  ("log", "info", "__log_info"),
  ("log", "warn", "__log_warn"),
  ("log", "error", "__log_error")]

/-- The native behind a member of a reserved object. -/
def memberNativeId (object member : String) : Option ℕ :=
  match kMembers.find? fun m => object == m.1 && member == m.2.1 with
  | some m => nativeId m.2.2
  | none => none

def isReservedObject (name : String) : Bool := kMembers.any fun m => name == m.1

def isDbModule (name : String) : Bool :=
  name == "sqlite" || name == "postgres" || name == "mysql"

theorem memberNativeId_lt {object member : String} {id : ℕ}
    (h : memberNativeId object member = some id) : id < kNatives.length := by
  unfold memberNativeId at h
  split at h
  · exact nativeId_lt h
  · cases h

/-! ## Methods of the types with a closed list -/

/-- A method that exists for a type.  `devuelve` is the type of its result, or
    `none` when it gives its receiver back. -/
structure MetodoBuiltin where
  nombre : String
  minArgs : ℕ
  maxArgs : ℕ
  devuelve : Option String
  deriving DecidableEq, Repr

/-- The methods that every value has. -/
def kComunes : List MetodoBuiltin := [
  ⟨"status", 1, 1, none⟩, ⟨"header", 2, 2, none⟩, ⟨"cookie", 2, 3, none⟩]

/-- The methods of a type, if it has a closed list. -/
def metodosDe (tipo : String) : Option (List MetodoBuiltin) :=
  if tipo = "string" then
    some (kComunes ++ [
      ⟨"starts_with", 1, 1, some "bool"⟩, ⟨"ends_with", 1, 1, some "bool"⟩,
      ⟨"contains", 1, 1, some "bool"⟩, ⟨"upper", 0, 0, some "string"⟩,
      ⟨"lower", 0, 0, some "string"⟩, ⟨"trim", 0, 0, some "string"⟩])
  else if tipo = "List" then some (kComunes ++ [⟨"add", 1, 1, none⟩])
  else if tipo = "Dict" then
    some (kComunes ++ [
      ⟨"has", 1, 1, some "bool"⟩, ⟨"keys", 0, 0, some "List"⟩,
      ⟨"save", 1, 1, some "string"⟩])
  else if tipo = "int" ∨ tipo = "long" ∨ tipo = "float" ∨ tipo = "double" ∨
      tipo = "bool" then some kComunes
  else none

end Osodio.Odio
