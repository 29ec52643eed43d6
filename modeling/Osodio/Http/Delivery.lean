import Osodio.Http.Framing

/-!
# A connection and the octets it writes

The connection of `Http.Connection` with its write path: responses go out in as many
pieces as the socket takes, behind them the octets of a file, and `EPOLLOUT` tells
when to go on.  Handlers answer when they like; the handlers of streams write to the
socket themselves, beside the write buffer.

## Main definitions

- `Plan` — how a handler answers
- `Site` — llhttp and the handlers
- `Conn` — the connection with its write buffer, its file and its handlers
- `delivery` — the connection as a transition system over the events of its loop

## Design notes

A step carries what the calls on the socket come to while it lasts.  As in
`Http.Connection`, a read may happen at any moment.
-/

namespace Osodio.Http

/-! ## The handlers -/

/-- What `finish_dispatch` does with the response of a handler. -/
inductive Plan where
  /-- The text of a response. -/
  | whole (data : Bytes)
  /-- A header section, and a file of which `size` octets were announced. -/
  | file (head content : Bytes) (size : ℕ)
  /-- The error for a file that cannot be opened. -/
  | unopened (data : Bytes)
  /-- Nothing more: the handler has written to the socket itself. -/
  | stream
  deriving DecidableEq, Repr

/-- The octets of an answer; those of a stream are what its handler writes. -/
def Plan.octets (raw : Bytes) : Plan → Bytes
  | .whole data => data
  | .file head content size => head ++ content.take size
  | .unopened data => data
  | .stream => raw

/-- The answer has all the octets that it announces. -/
def Plan.Whole : Plan → Prop
  | .file _ content size => size ≤ content.length
  | _ => True

/-- What surrounds the connection: the answers are those to the `n`-th request, with
    its message. -/
structure Site extends Server where
  walk : Walk
  plan : ℕ → Bytes → Plan
  /-- What the handler writes to the socket itself. -/
  raw : ℕ → Bytes → Bytes
  /-- `body_too_large`, for a message that llhttp refuses. -/
  bodyTooLarge : Bytes → Bool

/-- The text of `send_error`. -/
def Site.errorText (S : Site) (code : ℤ) (message : String) : Bytes :=
  (errorResponse code message).build (S.walk.order (errorResponse code message).headers)

/-! ## The connection -/

structure Conn extends HttpConnection where
  out : Output := {}
  /-- `EPOLLOUT` is armed, and not `EPOLLIN`. -/
  epollOut : Bool := false
  /-- `_ws_on_data` of the current request. -/
  wsOnData : Bool := false
  /-- The handlers that have not answered. -/
  running : List ℕ := []
  /-- How much the handlers have written to the socket themselves. -/
  streamed : ℕ → ℕ := fun _ => 0
  /-- What the next calls on the socket come to. -/
  socket : List Outcome := []

namespace Conn

/-- A part of the connection that does not write. -/
def lift (f : HttpConnection → HttpConnection) (c : Conn) : Conn :=
  { c with toHttpConnection := f c.toHttpConnection }

def close (c : Conn) : Conn :=
  if c.closed then c
  else { c.lift .close with out := { c.out with file := none }, wsOnData := false }

/-- `on_write_complete`. -/
def onWriteComplete (finish : Conn → Conn) (c : Conn) : Conn :=
  let c := c.lift fun h => { h.cancelTimeout with inFlight := false }
  if !c.keepAlive then c.close
  else if c.inParser then c.lift fun h => { h with cyclePending := true }
  else finish c

/-- What follows a write function. -/
def settle (finish : Conn → Conn) (c : Conn) (w : Written) : Conn :=
  let c := { c with out := w.2.1, socket := w.2.2 }
  match w.1 with
  | .blocked => { c with epollOut := true }
  | .finished => c.onWriteComplete finish
  | .failed => c.close

def keep (keepAlive : Bool) (c : Conn) : Conn :=
  c.lift fun h => { h with keepAlive := keepAlive }

/-- `send_response`. -/
def sendResponse (finish : Conn → Conn) (data : Bytes) (c : Conn) : Conn :=
  if c.closed then c
  else if kMaxResponseBytes < data.length then (c.keep false).close
  else c.settle finish (c.out.sendData data c.socket)

/-- `do_write`. -/
def doWrite (finish : Conn → Conn) (c : Conn) : Conn :=
  c.settle finish (c.out.write c.socket)

/-- `send_error`.  Without `keep_alive_` its completion closes the connection and
    never reaches `finish_cycle`. -/
def sendError (S : Site) (code : ℤ) (message : String) (c : Conn) : Conn :=
  (c.keep false).sendResponse id (S.errorText code message)

/-- `finish_dispatch`, for the `n`-th request. -/
def finishDispatch (S : Site) (finish : Conn → Conn) (n : ℕ) (message : Bytes) (c : Conn) :
    Conn :=
  match S.plan n message with
  | .stream => (c.keep false).close
  | .unopened data => (c.keep false).sendResponse finish data
  | .file head content size =>
    let c := c.keep (S.keepAlive message)
    { c with out := { c.out with file := some ⟨content, size⟩ } }.sendResponse finish head
  | .whole data => (c.keep (S.keepAlive message)).sendResponse finish data

def dispatch (S : Site) (finish : Conn → Conn) (message : Bytes) (c : Conn) : Conn :=
  let n := c.dispatched.length
  let c := c.lift fun h =>
    { h with inFlight := true, dispatched := h.dispatched ++ [message] }.cancelHeader.armTimeout
  let c := { c with wsOnData := false, streamed := Function.update c.streamed n 0 }
  if S.answersAtOnce n then c.finishDispatch S finish n message
  else { c with running := c.running ++ [n] }

/-- `parser_.feed`. -/
def feed (S : Site) (finish : Conn → Conn) (buf : Bytes) (c : Conn) : Bool × Conn :=
  if c.paused then (true, c.lift fun h => { h with unconsumed := 0 })
  else
    match S.execute c.partialMsg buf with
    | .ok partialMsg => (true, c.lift fun h => { h with partialMsg := partialMsg, unconsumed := 0 })
    | .error => (false, c)
    | .paused message rest =>
      let c := (c.lift fun h => { h with partialMsg := [] }).dispatch S finish message
      (true, c.lift fun h => { h with paused := true, unconsumed := rest.length })

/-- What follows a `feed` that fails. -/
def refuse (S : Site) (buf : Bytes) (c : Conn) : Conn :=
  if S.bodyTooLarge (c.partialMsg ++ buf) then (c.sendError S 413 "Content Too Large").close
  else (c.sendError S 400 "Bad Request").close

/-- What follows too many pipelined bytes. -/
def overflow (S : Site) (c : Conn) : Conn :=
  (c.sendError S 400 "Pipelined request too large").close

/-- The header timer and `EPOLLIN`, for the next request. -/
def rearm (c : Conn) : Conn := { c.lift .armHeader with epollOut := false }

/-- `finish_cycle`; the argument bounds how deep it may be nested in its own `feed`. -/
def finishCycle (S : Site) : ℕ → Conn → Conn
  | 0, c => c
  | depth + 1, c =>
    let c := c.lift .resume
    if c.pendingBuf = [] then c.rearm
    else
      let buf := c.pendingBuf
      let (ok, c) := feed S (finishCycle S depth) buf (c.lift fun h => { h with pendingBuf := [] })
      if !ok then c.refuse S buf
      else if c.paused && c.unconsumed > kMaxPendingBuf then c.overflow S
      else
        let c := if c.paused && c.unconsumed > 0
          then c.lift fun h => { h with pendingBuf := buf.drop (buf.length - h.unconsumed) } else c
        if c.inFlight then c else c.rearm

/-- One turn of the loop of `do_read`, with the bytes `read` returned. -/
def doRead (S : Site) (chunk : Bytes) (c : Conn) : Conn :=
  if c.wsOnData then c
  else if c.inFlight || c.paused then
    if c.pendingBuf.length + chunk.length > kMaxPendingBuf then c.overflow S
    else c.lift fun h => { h with pendingBuf := h.pendingBuf ++ chunk }
  else
    let (ok, c) := feed S (finishCycle S 2) chunk (c.lift fun h => { h with inParser := true })
    let c := c.lift fun h => { h with inParser := false }
    if !ok then c.refuse S chunk
    else if c.paused && c.unconsumed > kMaxPendingBuf then c.overflow S
    else
      let c := if c.paused && c.unconsumed > 0
        then c.lift fun h =>
          { h with pendingBuf := h.pendingBuf ++ chunk.drop (chunk.length - h.unconsumed) }
        else c
      if c.cyclePending then finishCycle S 2 (c.lift fun h => { h with cyclePending := false })
      else c

/-- The `n`-th handler answers. -/
def answer (S : Site) (n : ℕ) (c : Conn) : Conn :=
  { c with running := c.running.erase n }.finishDispatch S (finishCycle S 2) n
    (c.dispatched.getD n [])

/-- The `n`-th handler writes to the socket itself. -/
def writeRaw (S : Site) (n k : ℕ) (c : Conn) : Conn :=
  let raw := S.raw n (c.dispatched.getD n [])
  if c.closed then c
  else
    { c with
      out := { c.out with sent := c.out.sent ++ (raw.drop (c.streamed n)).take k }
      streamed := Function.update c.streamed n (c.streamed n + k) }

/-- The callback of an expired timer. -/
def expire (S : Site) (tfd : ℕ) (kind : TimerKind) (c : Conn) : Conn :=
  let c := c.lift fun h => { h with timers := h.timers.filter fun t => t.1 ≠ tfd }
  if c.closed then c
  else
    match kind with
    | .header =>
      ((c.lift fun h => { h with headerTfd := none }).sendError S 408
        "Request Header Timeout").close
    | .request =>
      ((c.lift fun h => { h with timeoutTfd := none }).sendError S 408 "Request Timeout").close

end Conn

/-! ## Its events -/

/-- What happens to a connection, and what the calls on the socket then come to. -/
inductive Happening where
  /-- `EPOLLIN`: so many bytes are read. -/
  | read (n : ℕ) (socket : List Outcome)
  /-- `EPOLLOUT`. -/
  | writable (socket : List Outcome)
  /-- `EPOLLERR`, `EPOLLHUP`, or the end of the input. -/
  | hangUp
  /-- A handler answers. -/
  | answered (n : ℕ) (socket : List Outcome)
  /-- A handler writes to the socket itself. -/
  | raw (n k : ℕ)
  /-- The handler of a WebSocket takes what is read from now on. -/
  | upgraded (n : ℕ)
  | expired (tfd : ℕ) (socket : List Outcome)
  deriving DecidableEq, Repr

/-- A connection, and the bytes that its client has still to deliver. -/
structure Line where
  conn : Conn
  unread : Bytes

/-- The size of the buffer of `do_read`. -/
def kReadSize : ℕ := 16384

def Conn.facing (c : Conn) (socket : List Outcome) : Conn := { c with socket := socket }

open Conn in
def Line.step (S : Site) (l : Line) : Happening → Option Line
  | .read n socket =>
    if l.conn.closed = false ∧ 0 < n ∧ n ≤ kReadSize ∧ n ≤ l.unread.length then
      some ⟨doRead S (l.unread.take n) (l.conn.facing socket), l.unread.drop n⟩
    else none
  | .writable socket =>
    if l.conn.closed = false ∧ l.conn.epollOut = true then
      some { l with conn := (l.conn.facing socket).doWrite (finishCycle S 2) }
    else none
  | .hangUp => some { l with conn := l.conn.close }
  | .answered n socket =>
    if n ∈ l.conn.running then some { l with conn := (l.conn.facing socket).answer S n } else none
  | .raw n k =>
    if n ∈ l.conn.running then some { l with conn := l.conn.writeRaw S n k } else none
  | .upgraded n =>
    if n ∈ l.conn.running ∧ n + 1 = l.conn.dispatched.length ∧ l.conn.closed = false then
      some { l with conn := { l.conn with wsOnData := true } }
    else none
  | .expired tfd socket =>
    match l.conn.timers.find? (·.1 = tfd) with
    | some (_, kind) => some { l with conn := (l.conn.facing socket).expire S tfd kind }
    | none => none

/-- A connection whose client delivers the bytes `input`. -/
def delivery (S : Site) (input : Bytes) : Lib.System Line Happening where
  init := ⟨Conn.lift .armHeader {}, input⟩
  step := Line.step S

end Osodio.Http
