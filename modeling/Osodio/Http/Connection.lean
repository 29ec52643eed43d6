import Osodio.Lib.Transition
import Mathlib.Data.List.Flatten

/-!
# An HTTP connection and its request cycle

`HttpConnection` as the event loop drives it: bytes are read, the parser stops
at the end of each message and dispatches it, the response is written, and the
cycle is closed by resuming the parser on the bytes that arrived meanwhile.
`doRead`, `dispatch`, `onWriteComplete` and `finishCycle` call each other as the
source does; a handler that answers inside `dispatch` re-enters the connection
while the parser callback is still on the stack.

## Main definitions

- `Server` — llhttp's verdict on the bytes of a message, and the handlers
- `HttpConnection` — the fields of the connection and the timers it has armed
- `doRead`, `onWriteComplete`, `finishCycle` — the request cycle
- `connection` — the connection as a transition system over event loop events

## Design notes

llhttp is represented by what the connection can see of it: whether the bytes
of the current message are still incomplete, are a whole message, or are
malformed.  It stops only when `on_message_complete` returns `HPE_PAUSED`, and
its error position is then the byte after the message.  A read may happen at
any moment, also while `EPOLLIN` is not armed: this only adds interleavings.
-/

namespace Osodio.Http

abbrev Bytes := List UInt8

/-- The bytes of an ASCII text. -/
def ascii (s : String) : Bytes := s.toList.map fun c => UInt8.ofNat c.toNat

/-- What llhttp makes of the bytes of one message, read from its first byte. -/
inductive Verdict where
  | incomplete
  | complete
  | malformed
  deriving DecidableEq, Repr

/-- What surrounds the connection: llhttp, and the handlers of the requests. -/
structure Server where
  verdict : Bytes → Verdict
  /-- `finish_dispatch` computes this from the version and `Connection` header. -/
  keepAlive : Bytes → Bool
  /-- The handler of the `n`-th dispatched request writes its whole response
      before `dispatch` returns. -/
  answersAtOnce : ℕ → Bool

/-- The outcome of one `llhttp_execute`. -/
inductive Execute where
  | ok (partialMsg : Bytes)
  | paused (message rest : Bytes)
  | error
  deriving DecidableEq, Repr

/-- `llhttp_execute` on a buffer, when `acc` has been read of the current message. -/
def Server.execute (S : Server) (acc : Bytes) : Bytes → Execute
  | [] => .ok acc
  | b :: bs =>
    match S.verdict (acc ++ [b]) with
    | .incomplete => S.execute (acc ++ [b]) bs
    | .complete => .paused (acc ++ [b]) bs
    | .malformed => .error

/-- The two timers a connection arms on the event loop. -/
inductive TimerKind where
  | header
  | request
  deriving DecidableEq, Repr

/-- 64 KB of pipelined bytes. -/
def kMaxPendingBuf : ℕ := 64 * 1024

structure HttpConnection where
  /-- Bytes of the unfinished message that the parser has consumed. -/
  partialMsg : Bytes := []
  /-- `parser_.is_paused()` -/
  paused : Bool := false
  /-- `parser_.unconsumed()` while paused -/
  unconsumed : ℕ := 0
  pendingBuf : Bytes := []
  inFlight : Bool := false
  inParser : Bool := false
  cyclePending : Bool := false
  keepAlive : Bool := false
  closed : Bool := false
  headerTfd : Option ℕ := none
  timeoutTfd : Option ℕ := none
  /-- The timers of this connection that are armed on the event loop. -/
  timers : List (ℕ × TimerKind) := []
  nextTfd : ℕ := 0
  /-- The requests handed to `dispatch`, in order. -/
  dispatched : List Bytes := []
  deriving DecidableEq, Repr

namespace HttpConnection

/-- `loop_.schedule_timer`, recorded in `header_tfd_`. -/
def armHeader (c : HttpConnection) : HttpConnection :=
  { c with
    headerTfd := some c.nextTfd
    timers := c.timers ++ [(c.nextTfd, .header)]
    nextTfd := c.nextTfd + 1 }

/-- `loop_.schedule_timer`, recorded in `timeout_tfd_`. -/
def armTimeout (c : HttpConnection) : HttpConnection :=
  { c with
    timeoutTfd := some c.nextTfd
    timers := c.timers ++ [(c.nextTfd, .request)]
    nextTfd := c.nextTfd + 1 }

/-- `loop_.cancel_timer`, which ignores the descriptor `-1`. -/
def cancelTimer (c : HttpConnection) (tfd : Option ℕ) : HttpConnection :=
  { c with timers := c.timers.filter fun t => some t.1 ≠ tfd }

def cancelHeader (c : HttpConnection) : HttpConnection :=
  { c.cancelTimer c.headerTfd with headerTfd := none }

def cancelTimeout (c : HttpConnection) : HttpConnection :=
  { c.cancelTimer c.timeoutTfd with timeoutTfd := none }

def close (c : HttpConnection) : HttpConnection :=
  if c.closed then c else { c.cancelHeader.cancelTimeout with closed := true }

/-- The response is out: the cycle ends now, or once the parser callback that
    the handler answered from has returned.  `finish` is `finish_cycle`. -/
def onWriteComplete (finish : HttpConnection → HttpConnection) (c : HttpConnection) :
    HttpConnection :=
  let c := { c.cancelTimeout with inFlight := false }
  if !c.keepAlive then c.close
  else if c.inParser then { c with cyclePending := true }
  else finish c

/-- An error response is written with `keep_alive_` off, so its completion
    closes the connection and never reaches `finish_cycle`. -/
def sendError (c : HttpConnection) : HttpConnection :=
  if c.closed then c else onWriteComplete id { c with keepAlive := false }

def dispatch (S : Server) (finish : HttpConnection → HttpConnection) (message : Bytes)
    (c : HttpConnection) : HttpConnection :=
  let n := c.dispatched.length
  let c := { c with inFlight := true, dispatched := c.dispatched ++ [message] }
  let c := c.cancelHeader.armTimeout
  if S.answersAtOnce n then onWriteComplete finish { c with keepAlive := S.keepAlive message }
  else c

/-- `parser_.feed`: the message callback runs before the pause it asks for. -/
def feed (S : Server) (finish : HttpConnection → HttpConnection) (buf : Bytes)
    (c : HttpConnection) : Bool × HttpConnection :=
  if c.paused then (true, { c with unconsumed := 0 })
  else
    match S.execute c.partialMsg buf with
    | .ok partialMsg => (true, { c with partialMsg := partialMsg, unconsumed := 0 })
    | .error => (false, c)
    | .paused message rest =>
      let c := dispatch S finish message { c with partialMsg := [] }
      (true, { c with paused := true, unconsumed := rest.length })

/-- `parser_.resume` -/
def resume (c : HttpConnection) : HttpConnection :=
  { c with paused := false, unconsumed := 0 }

/-- Close the response cycle.  The argument bounds how deep `finish_cycle` may
    be nested in its own `feed`; see `finishCycle_depth`. -/
def finishCycle (S : Server) : ℕ → HttpConnection → HttpConnection
  | 0, c => c
  | depth + 1, c =>
    let c := c.resume
    if c.pendingBuf = [] then c.armHeader
    else
      let buf := c.pendingBuf
      let (ok, c) := feed S (finishCycle S depth) buf { c with pendingBuf := [] }
      if !ok then c.sendError.close
      else if c.paused && c.unconsumed > kMaxPendingBuf then c.sendError.close
      else
        let c := if c.paused && c.unconsumed > 0
          then { c with pendingBuf := buf.drop (buf.length - c.unconsumed) } else c
        if c.inFlight then c else c.armHeader

/-- One turn of the loop of `do_read`, with the bytes `read` returned. -/
def doRead (S : Server) (chunk : Bytes) (c : HttpConnection) : HttpConnection :=
  if c.inFlight || c.paused then
    if c.pendingBuf.length + chunk.length > kMaxPendingBuf then c.sendError.close
    else { c with pendingBuf := c.pendingBuf ++ chunk }
  else
    let (ok, c) := feed S (finishCycle S 2) chunk { c with inParser := true }
    let c := { c with inParser := false }
    if !ok then c.sendError.close
    else if c.paused && c.unconsumed > kMaxPendingBuf then c.sendError.close
    else
      let c := if c.paused && c.unconsumed > 0
        then { c with pendingBuf := c.pendingBuf ++ chunk.drop (chunk.length - c.unconsumed) }
        else c
      if c.cyclePending then finishCycle S 2 { c with cyclePending := false } else c

/-- A handler that did not answer at once finishes its response. -/
def lateCompletion (S : Server) (c : HttpConnection) : HttpConnection :=
  onWriteComplete (finishCycle S 2)
    { c with keepAlive := S.keepAlive (c.dispatched.getLast?.getD []) }

/-- The callback of an expired timer. -/
def expire (tfd : ℕ) (kind : TimerKind) (c : HttpConnection) : HttpConnection :=
  let c := { c with timers := c.timers.filter fun t => t.1 ≠ tfd }
  if c.closed then c
  else
    match kind with
    | .header => ({ c with headerTfd := none } : HttpConnection).sendError.close
    | .request => ({ c with timeoutTfd := none } : HttpConnection).sendError.close

/-- `start` arms the first header timer. -/
def start : HttpConnection := ({} : HttpConnection).armHeader

end HttpConnection

/-- What the event loop can deliver to a connection. -/
inductive Event where
  | read (n : ℕ)
  | completed
  | expired (tfd : ℕ)
  deriving DecidableEq, Repr

/-- A connection, the bytes its client has still to deliver, and whether one of
    its timers has expired. -/
structure World where
  conn : HttpConnection
  unread : Bytes
  timedOut : Bool := false
  deriving DecidableEq, Repr

open HttpConnection in
/-- Deliver one event.  A read takes at least one byte. -/
def World.step (S : Server) (w : World) : Event → Option World
  | .read n =>
    if w.conn.closed = false ∧ 0 < n ∧ n ≤ w.unread.length then
      some { w with conn := doRead S (w.unread.take n) w.conn, unread := w.unread.drop n }
    else none
  | .completed =>
    if w.conn.closed = false ∧ w.conn.inFlight then
      some { w with conn := lateCompletion S w.conn }
    else none
  | .expired tfd =>
    match w.conn.timers.find? (·.1 = tfd) with
    | some (_, kind) => some { w with conn := expire tfd kind w.conn, timedOut := true }
    | none => none

/-- A connection whose client delivers the bytes `stream`. -/
def connection (S : Server) (stream : Bytes) : Lib.System World Event where
  init := { conn := HttpConnection.start, unread := stream }
  step := World.step S

end Osodio.Http
