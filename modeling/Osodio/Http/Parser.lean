import Osodio.Http.Connection

/-!
# The request parser behind a connection

`HttpParser` assembles one `ParsedRequest` per message out of the pieces that
llhttp reports through its callbacks.  A header is committed to the request when
the next field name begins or the head ends; what has been read of it until then
is kept in the context, which outlives the message.

## Main definitions

- `ParseContext` — the state the callbacks share
- `HttpParser.onCallback` — one llhttp callback
- `HttpParser.run` — a sequence of callbacks over any number of messages
-/

namespace Osodio.Http

structure ParsedRequest where
  method : Bytes := []
  path : Bytes := []
  query : Bytes := []
  version : Bytes := []
  /-- `std::unordered_map`: its keys are unique and their order means nothing. -/
  headers : List (Bytes × Bytes) := []
  body : Bytes := []
  deriving DecidableEq, Repr

def kMaxUrlSize : ℕ := 8 * 1024
def kMaxHeaderSize : ℕ := 8 * 1024
def kMaxHeaderCount : ℕ := 100
def kMaxBodySize : ℕ := 16 * 1024 * 1024

/-- The state of the parse, kept for the life of the connection. -/
structure ParseContext where
  current : ParsedRequest := {}
  lastField : Bytes := []
  lastValue : Bytes := []
  valuePending : Bool := false
  headerCount : ℕ := 0
  error : Bool := false
  bodyTooLarge : Bool := false
  deriving DecidableEq, Repr

/-- What a callback tells llhttp to do. -/
inductive Hpe where
  | ok
  | paused
  | user
  deriving DecidableEq, Repr

/-- `std::tolower` in the C locale. -/
def toLowerByte (b : UInt8) : UInt8 := if 65 ≤ b ∧ b ≤ 90 then b + 32 else b

def lower (s : Bytes) : Bytes := s.map toLowerByte

/-- Repeated headers are joined with a comma, `set-cookie` with a line break. -/
def separator (key : Bytes) : Bytes :=
  if key = ascii "set-cookie" then ascii "\n" else ascii ", "

/-- Append to the value of `key`, or insert it. -/
def joinHeader (key value : Bytes) : List (Bytes × Bytes) → List (Bytes × Bytes)
  | [] => [(key, value)]
  | (k, v) :: rest =>
    if k = key then (k, v ++ separator key ++ value) :: rest
    else (k, v) :: joinHeader key value rest

def fail (c : ParseContext) : ParseContext × Hpe := ({ c with error := true }, .user)

def cbOnUrl (c : ParseContext) (piece : Bytes) : ParseContext × Hpe :=
  if c.current.path.length + piece.length > kMaxUrlSize then fail c
  else ({ c with current := { c.current with path := c.current.path ++ piece } }, .ok)

def commitHeader (c : ParseContext) : ParseContext :=
  if !c.valuePending then c
  else
    { c with
      current := { c.current with
        headers := joinHeader (lower c.lastField) c.lastValue c.current.headers }
      lastField := []
      lastValue := []
      valuePending := false
      headerCount := c.headerCount + 1 }

def cbOnHeaderField (c : ParseContext) (piece : Bytes) : ParseContext × Hpe :=
  if c.valuePending ∧ c.headerCount ≥ kMaxHeaderCount then fail c
  else
    let c := commitHeader c
    if c.lastField.length + piece.length > kMaxHeaderSize then fail c
    else ({ c with lastField := c.lastField ++ piece }, .ok)

def cbOnHeaderValue (c : ParseContext) (piece : Bytes) : ParseContext × Hpe :=
  if c.lastValue.length + piece.length > kMaxHeaderSize then fail c
  else ({ c with lastValue := c.lastValue ++ piece, valuePending := true }, .ok)

def cbOnHeadersComplete (c : ParseContext) (major minor : ℕ) : ParseContext × Hpe :=
  if c.valuePending ∧ c.headerCount ≥ kMaxHeaderCount then fail c
  else
    let c := commitHeader c
    let version := if major = 1 ∧ minor = 0 then ascii "HTTP/1.0" else ascii "HTTP/1.1"
    ({ c with current := { c.current with version := version } }, .ok)

def cbOnBody (c : ParseContext) (piece : Bytes) : ParseContext × Hpe :=
  if c.current.body.length + piece.length > kMaxBodySize then
    fail { c with bodyTooLarge := true }
  else ({ c with current := { c.current with body := c.current.body ++ piece } }, .ok)

/-- Split the query off the path at the first question mark. -/
def splitQuery (r : ParsedRequest) : ParsedRequest :=
  if 63 ∈ r.path then
    { r with query := r.path.drop (r.path.idxOf 63 + 1), path := r.path.take (r.path.idxOf 63) }
  else r

/-- The request is handed over and the message state is reset. -/
def cbOnMessageComplete (c : ParseContext) (method : Bytes) :
    ParsedRequest × ParseContext × Hpe :=
  ({ splitQuery c.current with method := method },
    { c with current := {}, headerCount := 0 }, .paused)

/-- The callbacks of llhttp that the parser listens to. -/
inductive Callback where
  | url (piece : Bytes)
  | headerField (piece : Bytes)
  | headerValue (piece : Bytes)
  | headersComplete (major minor : ℕ)
  | body (piece : Bytes)
  | messageComplete (method : Bytes)
  deriving DecidableEq, Repr

/-- A parser and the requests it has handed over. -/
structure HttpParser where
  ctx : ParseContext := {}
  delivered : List ParsedRequest := []
  deriving DecidableEq, Repr

/-- One callback.  After an error the parser is never fed again; after a pause
    the connection resumes it. -/
def HttpParser.onCallback (p : HttpParser) (cb : Callback) : HttpParser :=
  if p.ctx.error then p
  else
    match cb with
    | .url piece => { p with ctx := (cbOnUrl p.ctx piece).1 }
    | .headerField piece => { p with ctx := (cbOnHeaderField p.ctx piece).1 }
    | .headerValue piece => { p with ctx := (cbOnHeaderValue p.ctx piece).1 }
    | .headersComplete major minor => { p with ctx := (cbOnHeadersComplete p.ctx major minor).1 }
    | .body piece => { p with ctx := (cbOnBody p.ctx piece).1 }
    | .messageComplete method =>
      let (request, ctx, _) := cbOnMessageComplete p.ctx method
      { ctx := ctx, delivered := p.delivered ++ [request] }

def HttpParser.run (p : HttpParser) (cbs : List Callback) : HttpParser :=
  cbs.foldl HttpParser.onCallback p

end Osodio.Http
