import Osodio.Http.Delivery
import Osodio.Lib.Handles

/-!
# The descriptors of a connection

A connection opens a socket, timers and files, and keeps them in integers that are -1 when
there is nothing.  Here the connection of `Http.Delivery` has a log of what it does with
them, until it is destroyed.

## Main definitions

- `Fd` — the descriptors
- `Held` — the connection, and its log
- `lifetime` — the events of the loop, and the destruction of the connection

## Main results

- `forget_step` — without the log, it is the connection of `Http.Delivery`

## Design notes

Numbers of timers and files are never used twice, other than those of the system: what is
done with a number after it was closed is seen in the log, whoever has it then.  A file
that is pending counts as used by each write behind which it comes.
-/

namespace Osodio.Http

open Lib (Use)

inductive Fd where
  | socket
  | timer (tfd : ℕ)
  | file (k : ℕ)
  deriving DecidableEq, Repr

/-- The connection with `file_fd_`, whose contents are in `out`. -/
structure Held extends Conn where
  fileFd : Option ℕ := none
  nextFile : ℕ := 0
  log : List (Use Fd) := []

namespace Held

/-- What the connection does beside its descriptors. -/
def aside (f : Conn → Conn) (h : Held) : Held := { h with toConn := f h.toConn }

def lift (f : HttpConnection → HttpConnection) (h : Held) : Held := h.aside (Conn.lift f)

def note (u : Use Fd) (h : Held) : Held := { h with log := h.log ++ [u] }

def touchSocket (h : Held) : Held := h.note (.touch .socket)

/-! ### Timers and files -/

/-- `loop_.cancel_timer`, which ignores the descriptor `-1`. -/
def cancelTimer (tfd : Option ℕ) (h : Held) : Held :=
  match tfd with
  | some t => h.note (.release (.timer t))
  | none => h

def cancelHeader (h : Held) : Held := (h.cancelTimer h.headerTfd).lift .cancelHeader

def cancelTimeout (h : Held) : Held := (h.cancelTimer h.timeoutTfd).lift .cancelTimeout

def armHeader (h : Held) : Held := (h.note (.acquire (.timer h.nextTfd))).lift .armHeader

def armTimeout (h : Held) : Held := (h.note (.acquire (.timer h.nextTfd))).lift .armTimeout

def openFile (file : FileSend) (h : Held) : Held :=
  { (h.aside fun c => { c with out := { c.out with file := some file } }).note
      (.acquire (.file h.nextFile)) with
    fileFd := some h.nextFile
    nextFile := h.nextFile + 1 }

def touchFile (h : Held) : Held :=
  match h.fileFd with
  | some k => h.note (.touch (.file k))
  | none => h

def closeFile (h : Held) : Held :=
  match h.fileFd with
  | some k => { h.note (.release (.file k)) with fileFd := none }
  | none => h

/-! ### The request cycle -/

def close (h : Held) : Held :=
  if h.closed then h
  else
    let h := h.cancelHeader.cancelTimeout
    -- `loop_.remove(fd_)`, and then `::close(fd_)`
    let h := (h.touchSocket.note (.release .socket)).closeFile
    h.aside fun c => { c with closed := true, wsOnData := false, out := { c.out with file := none } }

/-- `on_write_complete`. -/
def onWriteComplete (finish : Held → Held) (h : Held) : Held :=
  let h := h.cancelTimeout.lift fun c => { c with inFlight := false }
  if !h.keepAlive then h.close
  else if h.inParser then h.lift fun c => { c with cyclePending := true }
  else finish h

/-- What follows a write function.  `do_sendfile` closes the file when it is out. -/
def settle (finish : Held → Held) (w : Written) (h : Held) : Held :=
  let h := h.touchSocket.touchFile.aside fun c => { c with out := w.2.1, socket := w.2.2 }
  let h := if w.2.1.file = none then h.closeFile else h
  match w.1 with
  | .blocked => h.touchSocket.aside fun c => { c with epollOut := true }
  | .finished => h.onWriteComplete finish
  | .failed => h.close

def keep (keepAlive : Bool) (h : Held) : Held := h.lift fun c => { c with keepAlive := keepAlive }

/-- `send_response`. -/
def sendResponse (finish : Held → Held) (data : Bytes) (h : Held) : Held :=
  if h.closed then h
  else if kMaxResponseBytes < data.length then (h.keep false).close
  else h.settle finish (h.out.sendData data h.socket)

/-- `do_write`. -/
def doWrite (finish : Held → Held) (h : Held) : Held := h.settle finish (h.out.write h.socket)

/-- `send_error`. -/
def sendError (S : Site) (code : ℤ) (message : String) (h : Held) : Held :=
  (h.keep false).sendResponse id (S.errorText code message)

/-- `finish_dispatch`, for the `n`-th request.  It does not look at `closed_` before it opens
    the file. -/
def finishDispatch (S : Site) (finish : Held → Held) (n : ℕ) (message : Bytes) (h : Held) : Held :=
  match S.plan n message with
  | .stream => (h.keep false).close
  | .unopened data => (h.keep false).sendResponse finish data
  | .file head content size =>
    ((h.keep (S.keepAlive message)).openFile ⟨content, size⟩).sendResponse finish head
  | .whole data => (h.keep (S.keepAlive message)).sendResponse finish data

/-- `dispatch`, with its call of `getpeername`. -/
def dispatch (S : Site) (finish : Held → Held) (message : Bytes) (h : Held) : Held :=
  let n := h.dispatched.length
  let h := h.lift fun c => { c with inFlight := true, dispatched := c.dispatched ++ [message] }
  let h := h.touchSocket.cancelHeader.armTimeout
  let h := h.aside fun c => { c with wsOnData := false, streamed := Function.update c.streamed n 0 }
  if S.answersAtOnce n then h.finishDispatch S finish n message
  else h.aside fun c => { c with running := c.running ++ [n] }

/-- `parser_.feed`. -/
def feed (S : Site) (finish : Held → Held) (buf : Bytes) (h : Held) : Bool × Held :=
  if h.paused then (true, h.lift fun c => { c with unconsumed := 0 })
  else
    match S.execute h.partialMsg buf with
    | .ok partialMsg => (true, h.lift fun c => { c with partialMsg := partialMsg, unconsumed := 0 })
    | .error => (false, h)
    | .paused message rest =>
      let h := (h.lift fun c => { c with partialMsg := [] }).dispatch S finish message
      (true, h.lift fun c => { c with paused := true, unconsumed := rest.length })

/-- What follows a `feed` that fails. -/
def refuse (S : Site) (buf : Bytes) (h : Held) : Held :=
  if S.bodyTooLarge (h.partialMsg ++ buf) then (h.sendError S 413 "Content Too Large").close
  else (h.sendError S 400 "Bad Request").close

/-- What follows too many pipelined bytes. -/
def overflow (S : Site) (h : Held) : Held :=
  (h.sendError S 400 "Pipelined request too large").close

/-- The header timer and `EPOLLIN`, for the next request. -/
def rearm (h : Held) : Held := h.armHeader.touchSocket.aside fun c => { c with epollOut := false }

/-- `finish_cycle`; the argument bounds how deep it may be nested in its own `feed`. -/
def finishCycle (S : Site) : ℕ → Held → Held
  | 0, h => h
  | depth + 1, h =>
    let h := h.lift .resume
    if h.pendingBuf = [] then h.rearm
    else
      let buf := h.pendingBuf
      let (ok, h) := feed S (finishCycle S depth) buf (h.lift fun c => { c with pendingBuf := [] })
      if !ok then h.refuse S buf
      else if h.paused && h.unconsumed > kMaxPendingBuf then h.overflow S
      else
        let h := if h.paused && h.unconsumed > 0
          then h.lift fun c => { c with pendingBuf := buf.drop (buf.length - c.unconsumed) } else h
        if h.inFlight then h else h.rearm

/-- One turn of the loop of `do_read`, with the bytes `read` returned. -/
def doRead (S : Site) (chunk : Bytes) (h : Held) : Held :=
  let h := h.touchSocket
  if h.wsOnData then h
  else if h.inFlight || h.paused then
    if h.pendingBuf.length + chunk.length > kMaxPendingBuf then h.overflow S
    else h.lift fun c => { c with pendingBuf := c.pendingBuf ++ chunk }
  else
    let (ok, h) := feed S (finishCycle S 2) chunk (h.lift fun c => { c with inParser := true })
    let h := h.lift fun c => { c with inParser := false }
    if !ok then h.refuse S chunk
    else if h.paused && h.unconsumed > kMaxPendingBuf then h.overflow S
    else
      let h := if h.paused && h.unconsumed > 0
        then h.lift fun c =>
          { c with pendingBuf := c.pendingBuf ++ chunk.drop (chunk.length - c.unconsumed) }
        else h
      if h.cyclePending then finishCycle S 2 (h.lift fun c => { c with cyclePending := false })
      else h

/-- The `n`-th handler answers. -/
def answer (S : Site) (n : ℕ) (h : Held) : Held :=
  (h.aside fun c => { c with running := c.running.erase n }).finishDispatch S (finishCycle S 2) n
    (h.dispatched.getD n [])

/-- The `n`-th handler writes to the socket itself. -/
def writeRaw (S : Site) (n k : ℕ) (h : Held) : Held :=
  if h.closed then h else h.touchSocket.aside (Conn.writeRaw S n k)

/-- The callback of an expired timer.  The loop has read it and closed it before. -/
def expire (S : Site) (tfd : ℕ) (kind : TimerKind) (h : Held) : Held :=
  let h := (h.note (.touch (.timer tfd))).note (.release (.timer tfd))
  let h := h.lift fun c => { c with timers := c.timers.filter fun t => t.1 ≠ tfd }
  if h.closed then h
  else
    match kind with
    | .header =>
      ((h.lift fun c => { c with headerTfd := none }).sendError S 408
        "Request Header Timeout").close
    | .request =>
      ((h.lift fun c => { c with timeoutTfd := none }).sendError S 408 "Request Timeout").close

/-- `~HttpConnection`, which closes everything or nothing. -/
def destroy (h : Held) : Held :=
  if h.closed then h
  else
    let h := (h.cancelTimer h.headerTfd).cancelTimer h.timeoutTfd
    h.closeFile.note (.release .socket)

/-- The constructor and `start`. -/
def start : Held := armHeader { log := [.acquire .socket] }

end Held

/-! ## The same without the log -/

namespace Held

section Forget

variable {S : Site} {finish : Held → Held} {finish' : Conn → Conn} {h : Held}

@[simp] theorem toConn_aside (f : Conn → Conn) (h : Held) : (h.aside f).toConn = f h.toConn := rfl

@[simp] theorem toConn_lift (f : HttpConnection → HttpConnection) (h : Held) :
    (h.lift f).toConn = h.toConn.lift f := rfl

@[simp] theorem toConn_note (u : Use Fd) (h : Held) : (h.note u).toConn = h.toConn := rfl

@[simp] theorem toConn_touchSocket (h : Held) : h.touchSocket.toConn = h.toConn := rfl

@[simp] theorem toConn_cancelTimer (tfd : Option ℕ) (h : Held) :
    (h.cancelTimer tfd).toConn = h.toConn := by
  cases tfd with
  | none => rfl
  | some t => rfl

@[simp] theorem toConn_cancelHeader (h : Held) :
    h.cancelHeader.toConn = h.toConn.lift .cancelHeader := by
  rw [cancelHeader, toConn_lift, toConn_cancelTimer]

@[simp] theorem toConn_cancelTimeout (h : Held) :
    h.cancelTimeout.toConn = h.toConn.lift .cancelTimeout := by
  rw [cancelTimeout, toConn_lift, toConn_cancelTimer]

@[simp] theorem toConn_armHeader (h : Held) : h.armHeader.toConn = h.toConn.lift .armHeader := rfl

@[simp] theorem toConn_armTimeout (h : Held) : h.armTimeout.toConn = h.toConn.lift .armTimeout := rfl

@[simp] theorem toConn_touchFile (h : Held) : h.touchFile.toConn = h.toConn := by
  unfold touchFile
  split
  · rfl
  · rfl

@[simp] theorem toConn_closeFile (h : Held) : h.closeFile.toConn = h.toConn := by
  unfold closeFile
  split
  · rfl
  · rfl

@[simp] theorem toConn_close (h : Held) : h.close.toConn = h.toConn.close := by
  unfold close Conn.close
  split
  · rfl
  · rename_i hc
    have hclose : h.toHttpConnection.close =
        { h.toHttpConnection.cancelHeader.cancelTimeout with closed := true } := if_neg hc
    dsimp only
    rw [toConn_aside, toConn_closeFile, toConn_note, toConn_touchSocket, toConn_cancelTimeout,
      toConn_cancelHeader, Conn.lift, Conn.lift, Conn.lift, hclose]

theorem toConn_onWriteComplete (hf : ∀ h, (finish h).toConn = finish' h.toConn) (h : Held) :
    (h.onWriteComplete finish).toConn = h.toConn.onWriteComplete finish' := by
  have hc : (h.cancelTimeout.lift fun c => { c with inFlight := false }).toConn =
      h.toConn.lift fun c => { c.cancelTimeout with inFlight := false } := by
    rw [toConn_lift, toConn_cancelTimeout]
    rfl
  unfold onWriteComplete Conn.onWriteComplete
  dsimp only
  generalize h.cancelTimeout.lift (fun c => { c with inFlight := false }) = h₁ at hc
  rw [← hc]
  split
  · exact toConn_close h₁
  · split
    · rfl
    · exact hf h₁

theorem toConn_settle (hf : ∀ h, (finish h).toConn = finish' h.toConn) (w : Written) (h : Held) :
    (h.settle finish w).toConn = h.toConn.settle finish' w := by
  have hif : ∀ (p : Prop) [Decidable p] (h : Held),
      (if p then h.closeFile else h).toConn = h.toConn := by
    intro p _ h
    split
    · exact toConn_closeFile h
    · rfl
  unfold settle Conn.settle
  obtain ⟨end_, out, socket⟩ := w
  cases end_ with
  | blocked => simp only [toConn_aside, toConn_touchSocket, hif, toConn_touchFile]
  | finished =>
    dsimp only
    rw [toConn_onWriteComplete hf, hif, toConn_aside, toConn_touchFile, toConn_touchSocket]
  | failed =>
    dsimp only
    rw [toConn_close, hif, toConn_aside, toConn_touchFile, toConn_touchSocket]

theorem toConn_sendResponse (hf : ∀ h, (finish h).toConn = finish' h.toConn) (data : Bytes) (h : Held) :
    (h.sendResponse finish data).toConn = h.toConn.sendResponse finish' data := by
  unfold sendResponse Conn.sendResponse
  split
  · rfl
  · split
    · exact toConn_close _
    · exact toConn_settle hf _ h

theorem toConn_doWrite (hf : ∀ h, (finish h).toConn = finish' h.toConn) (h : Held) :
    (h.doWrite finish).toConn = h.toConn.doWrite finish' := toConn_settle hf _ h

theorem toConn_sendError (S : Site) (code : ℤ) (message : String) (h : Held) :
    (h.sendError S code message).toConn = h.toConn.sendError S code message :=
  toConn_sendResponse (fun _ => rfl) _ _

theorem toConn_finishDispatch (hf : ∀ h, (finish h).toConn = finish' h.toConn) (n : ℕ)
    (message : Bytes) (h : Held) :
    (h.finishDispatch S finish n message).toConn = h.toConn.finishDispatch S finish' n message := by
  unfold finishDispatch Conn.finishDispatch
  cases S.plan n message with
  | stream => exact toConn_close _
  | unopened data => exact toConn_sendResponse hf _ _
  | file head content size => exact toConn_sendResponse hf _ _
  | whole data => exact toConn_sendResponse hf _ _

theorem toConn_dispatch (hf : ∀ h, (finish h).toConn = finish' h.toConn) (message : Bytes) (h : Held) :
    (h.dispatch S finish message).toConn = h.toConn.dispatch S finish' message := by
  unfold dispatch Conn.dispatch
  dsimp only
  split
  · rw [toConn_finishDispatch hf]
    simp only [toConn_aside, toConn_armTimeout, toConn_cancelHeader, toConn_touchSocket, toConn_lift]
    rfl
  · simp only [toConn_aside, toConn_armTimeout, toConn_cancelHeader, toConn_touchSocket, toConn_lift]
    rfl

theorem toConn_feed (hf : ∀ h, (finish h).toConn = finish' h.toConn) (buf : Bytes) (h : Held) :
    (h.feed S finish buf).1 = (h.toConn.feed S finish' buf).1 ∧
      (h.feed S finish buf).2.toConn = (h.toConn.feed S finish' buf).2 := by
  unfold feed Conn.feed
  split
  · exact ⟨rfl, rfl⟩
  · cases S.execute h.partialMsg buf with
    | ok partialMsg => exact ⟨rfl, rfl⟩
    | error => exact ⟨rfl, rfl⟩
    | paused message rest =>
      refine ⟨rfl, ?_⟩
      dsimp only
      rw [toConn_lift, toConn_dispatch hf, toConn_lift]

theorem toConn_refuse (S : Site) (buf : Bytes) (h : Held) :
    (h.refuse S buf).toConn = h.toConn.refuse S buf := by
  unfold refuse Conn.refuse
  split
  · rw [toConn_close, toConn_sendError]
  · rw [toConn_close, toConn_sendError]

theorem toConn_overflow (S : Site) (h : Held) : (h.overflow S).toConn = h.toConn.overflow S := by
  rw [overflow, Conn.overflow, toConn_close, toConn_sendError]

theorem toConn_rearm (h : Held) : h.rearm.toConn = h.toConn.rearm := rfl

theorem toConn_ite (p : Prop) [Decidable p] (h h' : Held) :
    (if p then h else h').toConn = if p then h.toConn else h'.toConn := by
  split
  · rfl
  · rfl

theorem toConn_finishCycle (S : Site) (depth : ℕ) :
    ∀ h : Held, (h.finishCycle S depth).toConn = h.toConn.finishCycle S depth := by
  induction depth with
  | zero => exact fun _ => rfl
  | succ depth ih =>
    intro h
    unfold finishCycle Conn.finishCycle
    dsimp only
    obtain ⟨hok, hconn⟩ := @toConn_feed S _ _ ih (h.toConn.lift .resume).pendingBuf
      ((h.lift .resume).lift fun c => { c with pendingBuf := [] })
    rw [toConn_lift, toConn_lift] at hok hconn
    rw [toConn_ite, toConn_ite, toConn_ite, toConn_ite, toConn_rearm, toConn_rearm, toConn_ite,
      toConn_refuse, toConn_overflow, toConn_lift, toConn_lift, hok, hconn]

theorem toConn_doRead (S : Site) (chunk : Bytes) (h : Held) :
    (h.doRead S chunk).toConn = h.toConn.doRead S chunk := by
  unfold doRead Conn.doRead
  dsimp only
  obtain ⟨hok, hconn⟩ := @toConn_feed S _ _ (toConn_finishCycle S 2) chunk
    (h.touchSocket.lift fun c => { c with inParser := true })
  rw [toConn_lift, toConn_touchSocket] at hok hconn
  rw [toConn_ite, toConn_ite, toConn_ite, toConn_ite, toConn_ite, toConn_ite, toConn_refuse,
    toConn_overflow, toConn_overflow, toConn_finishCycle, toConn_lift, toConn_lift, toConn_ite,
    toConn_lift, toConn_lift, toConn_touchSocket, hok, hconn, toConn_lift, toConn_ite,
    toConn_lift, toConn_lift, hconn]

theorem toConn_answer (S : Site) (n : ℕ) (h : Held) : (h.answer S n).toConn = h.toConn.answer S n :=
  toConn_finishDispatch (toConn_finishCycle S 2) n _ _

theorem toConn_writeRaw (S : Site) (n k : ℕ) (h : Held) :
    (h.writeRaw S n k).toConn = h.toConn.writeRaw S n k := by
  unfold writeRaw
  split
  · rename_i hc
    exact (if_pos hc).symm
  · rfl

theorem toConn_expire (S : Site) (tfd : ℕ) (kind : TimerKind) (h : Held) :
    (h.expire S tfd kind).toConn = h.toConn.expire S tfd kind := by
  unfold expire Conn.expire
  dsimp only
  rw [toConn_lift, toConn_note, toConn_note]
  split
  · rfl
  · cases kind with
    | header => rw [toConn_close, toConn_sendError, toConn_lift]; rfl
    | request => rw [toConn_close, toConn_sendError, toConn_lift]; rfl


end Forget

end Held

/-! ## Its events -/

/-- What happens to a connection, and at last its destruction. -/
inductive Occurrence where
  | happens (e : Happening)
  | destroyed
  deriving DecidableEq, Repr

/-- A connection, the bytes that its client has still to deliver, and whether it is gone. -/
structure Life where
  conn : Held
  unread : Bytes
  destroyed : Bool := false

def Held.facing (h : Held) (socket : List Outcome) : Held := h.aside (·.facing socket)

open Held in
/-- One event.  A connection whose handlers have not answered is not destroyed: they hold
    it. -/
def Life.step (S : Site) (l : Life) : Occurrence → Option Life
  | .destroyed =>
    if l.destroyed = false ∧ l.conn.running = [] then
      some { l with conn := l.conn.destroy, destroyed := true }
    else none
  | .happens e =>
    if l.destroyed then none
    else match e with
    | .read n socket =>
      if l.conn.closed = false ∧ 0 < n ∧ n ≤ kReadSize ∧ n ≤ l.unread.length then
        some { l with
          conn := doRead S (l.unread.take n) (l.conn.facing socket)
          unread := l.unread.drop n }
      else none
    | .writable socket =>
      if l.conn.closed = false ∧ l.conn.epollOut = true then
        some { l with conn := (l.conn.facing socket).doWrite (finishCycle S 2) }
      else none
    | .hangUp => some { l with conn := l.conn.close }
    | .answered n socket =>
      if n ∈ l.conn.running then some { l with conn := (l.conn.facing socket).answer S n } else none
    | .raw n k =>
      if n ∈ l.conn.running then some { l with conn := l.conn.writeRaw S n k } else none
    | .upgraded n =>
      if n ∈ l.conn.running ∧ n + 1 = l.conn.dispatched.length ∧ l.conn.closed = false then
        some { l with conn := l.conn.aside fun c => { c with wsOnData := true } }
      else none
    | .expired tfd socket =>
      match l.conn.timers.find? (·.1 = tfd) with
      | some (_, kind) => some { l with conn := (l.conn.facing socket).expire S tfd kind }
      | none => none

/-- The connection without its log. -/
def Life.forget (l : Life) : Line := ⟨l.conn.toConn, l.unread⟩

/-- **Without the log, it is the connection of `Http.Delivery`.** -/
theorem forget_step (S : Site) {l : Life} (hd : l.destroyed = false) (e : Happening) :
    (l.step S (.happens e)).map Life.forget = l.forget.step S e := by
  unfold Life.step
  dsimp only
  rw [hd, if_neg Bool.false_ne_true]
  cases e with
  | read n socket =>
    dsimp only [Line.step, Life.forget]
    split
    · exact congrArg (fun c => some (Line.mk c _)) (Held.toConn_doRead S _ _)
    · rfl
  | writable socket =>
    dsimp only [Line.step, Life.forget]
    split
    · exact congrArg (fun c => some (Line.mk c _))
        (Held.toConn_doWrite (Held.toConn_finishCycle S 2) _)
    · rfl
  | hangUp => exact congrArg (fun c => some (Line.mk c _)) (Held.toConn_close _)
  | answered n socket =>
    dsimp only [Line.step, Life.forget]
    split
    · exact congrArg (fun c => some (Line.mk c _)) (Held.toConn_answer S n _)
    · rfl
  | raw n k =>
    dsimp only [Line.step, Life.forget]
    split
    · exact congrArg (fun c => some (Line.mk c _)) (Held.toConn_writeRaw S n k _)
    · rfl
  | upgraded n =>
    dsimp only [Line.step, Life.forget]
    split
    · rfl
    · rfl
  | expired tfd socket =>
    dsimp only [Line.step, Life.forget]
    cases l.conn.timers.find? (·.1 = tfd) with
    | none => rfl
    | some t => exact congrArg (fun c => some (Line.mk c _)) (Held.toConn_expire S tfd t.2 _)

/-- A connection whose client delivers the bytes `input`. -/
def lifetime (S : Site) (input : Bytes) : Lib.System Life Occurrence where
  init := { conn := Held.start, unread := input }
  step := Life.step S

end Osodio.Http
