import Osodio.Http.Integrity
import Osodio.Http.Ownership

/-!
# The descriptors of a connection are closed once

Between two events, an open connection waits for a request with its header timer armed, or
serves one without.  An answer ends the cycle, and arms the header timer.  What goes wrong is
a cycle that is ended twice, and a file that is opened when the connection is closed.

## Main definitions

- `Good` — what is held, and where the request cycle stands
- `Conn.Calm` — the request that comes next does not end its cycle before `dispatch` returns
- `Careful` — the events that keep it good

## Main results

- `closed_once` — then nothing is used after it was closed, and all is closed in the end
- `late_file_is_kept` — a handler that answers with a file when the connection is closed
-/

namespace Osodio.Http

open Lib (Use Holding Proper)

/-! ## Writes that end -/

namespace Output

variable {f : FileSend} {o : Output} {data : Bytes} {socket : List Outcome}

theorem sendfile_file (hend : (o.sendfile f socket).1 = .finished) :
    (o.sendfile f socket).2.1.file = none := by
  fun_induction sendfile f o socket <;> simp_all

theorem flushed_file (hend : (o.flushed socket).1 = .finished) :
    (o.flushed socket).2.1.file = none := by
  unfold flushed at hend ⊢
  split at hend
  · exact sendfile_file hend
  · rename_i hf
    exact hf

theorem write_file (hend : (o.write socket).1 = .finished) : (o.write socket).2.1.file = none :=
  ((write_keeps rfl).idle hend).2

theorem sendData_file (hend : (o.sendData data socket).1 = .finished) :
    (o.sendData data socket).2.1.file = none := by
  cases socket with
  | nil => cases hend
  | cons call socket =>
    cases call with
    | sent n =>
      dsimp only [sendData] at hend ⊢
      split at hend
      · rename_i hk
        rw [if_pos hk]
        exact flushed_file hend
      · cases hend
    | again => cases hend
    | intr => cases hend
    | failed => cases hend

end Output

/-- What the answer of a handler writes at first, if the connection is not closed for it. -/
def Plan.written (out : Output) (socket : List Outcome) : Plan → Option Written
  | .stream => none
  | .unopened data | .whole data =>
    if kMaxResponseBytes < data.length then none else some (out.sendData data socket)
  | .file head content size =>
    if kMaxResponseBytes < head.length then none
    else some ({ out with file := some ⟨content, size⟩ }.sendData head socket)

/-- If the answer is out at once, then without its file. -/
theorem Plan.written_file {plan : Plan} {out : Output} {socket : List Outcome} {w : Written}
    (hw : w ∈ plan.written out socket) (hend : w.1 = .finished) : w.2.1.file = none := by
  unfold Plan.written at hw
  split at hw
  · cases hw
  all_goals
    obtain ⟨-, hw⟩ := Option.ite_none_left_eq_some.1 hw
    cases hw
    exact Output.sendData_file hend

/-! ## Where the request cycle stands -/

/-- The request that comes next, with `more` behind what is pending, does not end its cycle
    before `dispatch` returns. -/
def Conn.Calm (S : Site) (more : Bytes) (c : Conn) : Prop :=
  ∀ message rest, S.execute c.partialMsg (c.pendingBuf ++ more) = .paused message rest →
    S.answersAtOnce c.dispatched.length = true →
      ∀ w ∈ (S.plan c.dispatched.length message).written c.out c.socket, w.1 ≠ .finished

/-- If a write ends the cycle, then what follows is calm. -/
def Conn.CalmAfter (S : Site) (more : Bytes) (c : Conn) (w : Written) : Prop :=
  w.1 = .finished → Conn.Calm S more { c with out := w.2.1, socket := w.2.2 }

namespace Held

/-- An open connection between two requests.  `b`: the parser is calling back. -/
structure Free (b : Bool) (h : Held) : Prop where
  owned : Owned h
  inParser : h.inParser = b
  closed : h.closed = false
  cycle : h.cyclePending = false
  inFlight : h.inFlight = false
  timeoutTfd : h.timeoutTfd = none
  fileFd : h.fileFd = none

/-- A request is with its handler, or its answer is being written. -/
structure Serving (b : Bool) (h : Held) : Prop where
  owned : Owned h
  inParser : h.inParser = b
  closed : h.closed = false
  cycle : h.cyclePending = false
  inFlight : h.inFlight = true
  headerTfd : h.headerTfd = none

/-- The answer is out, and `finish_cycle` is next: at once, or when the parser has returned. -/
structure Ended (S : Site) (more : Bytes) (h : Held) : Prop where
  owned : Owned h
  closed : h.closed = false
  inFlight : h.inFlight = false
  headerTfd : h.headerTfd = none
  timeoutTfd : h.timeoutTfd = none
  fileFd : h.fileFd = none
  calm : Conn.Calm S more h.toConn

/-- The connection is closed. -/
structure Over (b : Bool) (h : Held) : Prop where
  owned : Owned h
  inParser : h.inParser = b
  closed : h.closed = true
  cycle : b = true → h.cyclePending = false

end Held

/-- Where the connection stands; `more` comes behind what is pending when the parser has
    returned. -/
inductive Good (S : Site) (more : Bytes) (b : Bool) (h : Held) : Prop where
  | waiting (hf : h.Free b) (hout : h.epollOut = false)
  | serving (hs : h.Serving b)
  | ended (hb : b = true) (hp : h.inParser = true) (hcycle : h.cyclePending = true)
      (he : h.Ended S more)
  | closed (ho : h.Over b)

section Cycle

variable {S : Site} {b : Bool} {more : Bytes} {h : Held} {f : Conn → Conn}
  {finish : Held → Held} {w : Written} {n : ℕ} {message : Bytes}

open Held

theorem Good.owned (hg : Good S more b h) : Owned h := by
  cases hg with
  | waiting hf => exact hf.owned
  | serving hs => exact hs.owned
  | ended _ _ _ he => exact he.owned
  | closed ho => exact ho.owned

/-- What the request cycle does not look at. -/
structure Unmoved (c c' : Conn) : Prop extends Untouched c c' where
  inParser : c'.inParser = c.inParser
  cycle : c'.cyclePending = c.cyclePending
  inFlight : c'.inFlight = c.inFlight
  epollOut : c'.epollOut = c.epollOut

theorem Held.Serving.aside (hs : h.Serving b) (hu : Unmoved h.toConn (f h.toConn)) :
    (h.aside f).Serving b where
  owned := hs.owned.aside hu.toUntouched
  inParser := hu.inParser.trans hs.inParser
  closed := hu.closed.trans hs.closed
  cycle := hu.cycle.trans hs.cycle
  inFlight := hu.inFlight.trans hs.inFlight
  headerTfd := hu.headerTfd.trans hs.headerTfd

theorem Held.Free.aside (hf : h.Free b) (hu : Unmoved h.toConn (f h.toConn)) :
    (h.aside f).Free b where
  owned := hf.owned.aside hu.toUntouched
  inParser := hu.inParser.trans hf.inParser
  closed := hu.closed.trans hf.closed
  cycle := hu.cycle.trans hf.cycle
  inFlight := hu.inFlight.trans hf.inFlight
  timeoutTfd := hu.timeoutTfd.trans hf.timeoutTfd
  fileFd := hf.fileFd

theorem Held.Over.aside (ho : h.Over b) (hu : Unmoved h.toConn (f h.toConn)) :
    (h.aside f).Over b where
  owned := ho.owned.aside hu.toUntouched
  inParser := hu.inParser.trans ho.inParser
  closed := hu.closed.trans ho.closed
  cycle hb := hu.cycle.trans (ho.cycle hb)

theorem Good.inParser (hg : Good S more b h) : h.inParser = b := by
  cases hg with
  | waiting hf => exact hf.inParser
  | serving hs => exact hs.inParser
  | ended hb hp => rw [hp, hb]
  | closed ho => exact ho.inParser

theorem Good.aside (hg : Good S more b h) (hu : Unmoved h.toConn (f h.toConn))
    (hcalm : b = true → Conn.Calm S more h.toConn → Conn.Calm S more (f h.toConn)) :
    Good S more b (h.aside f) := by
  cases hg with
  | waiting hf hout => exact .waiting (hf.aside hu) (hu.epollOut.trans hout)
  | serving hs => exact .serving (hs.aside hu)
  | ended hb hp hcycle he =>
    exact .ended hb (hu.inParser.trans hp) (hu.cycle.trans hcycle) ⟨he.owned.aside hu.toUntouched,
      hu.closed.trans he.closed, hu.inFlight.trans he.inFlight, hu.headerTfd.trans he.headerTfd,
      hu.timeoutTfd.trans he.timeoutTfd, he.fileFd, hcalm hb he.calm⟩
  | closed ho => exact .closed (ho.aside hu)

theorem Good.touchSocket (hg : Good S more b h) (hc : h.closed = false) :
    Good S more b h.touchSocket := by
  have ho := hg.owned.touchSocket hc
  cases hg with
  | waiting hf hout =>
    exact .waiting ⟨ho, hf.inParser, hf.closed, hf.cycle, hf.inFlight, hf.timeoutTfd, hf.fileFd⟩ hout
  | serving hs =>
    exact .serving ⟨ho, hs.inParser, hs.closed, hs.cycle, hs.inFlight, hs.headerTfd⟩
  | ended hb hp hcycle he =>
    exact .ended hb hp hcycle ⟨ho, he.closed, he.inFlight, he.headerTfd, he.timeoutTfd, he.fileFd,
      he.calm⟩
  | closed hover => exact nomatch hc.symm.trans hover.closed

/-! ### Closing -/

theorem close_inParser (c : Conn) : c.close.inParser = c.inParser := by
  unfold Conn.close
  split
  · rfl
  · next hc => simp [Conn.lift, HttpConnection.close, hc, HttpConnection.cancelTimeout,
      HttpConnection.cancelHeader, HttpConnection.cancelTimer]

theorem close_inFlight (c : Conn) : c.close.inFlight = c.inFlight := by
  unfold Conn.close
  split
  · rfl
  · next hc => simp [Conn.lift, HttpConnection.close, hc, HttpConnection.cancelTimeout,
      HttpConnection.cancelHeader, HttpConnection.cancelTimer]

theorem close_over_of (ho : Owned h) (hp : h.inParser = b)
    (hcycle : b = true → h.cyclePending = false) : h.close.Over b where
  owned := ho.close
  inParser := by rw [toConn_close, close_inParser, hp]
  closed := by rw [toConn_close, close_closed]
  cycle hb := by rw [toConn_close, close_cyclePending, hcycle hb]

theorem Held.Serving.close (hs : h.Serving b) : h.close.Over b :=
  close_over_of hs.owned hs.inParser fun _ => hs.cycle

/-! ### Writing -/

/-- The first part of `settle`: what is out, and the file is closed behind it. -/
def Held.wrote (w : Written) (h : Held) : Held :=
  let h := h.touchSocket.touchFile.aside fun c => { c with out := w.2.1, socket := w.2.2 }
  if w.2.1.file = none then h.closeFile else h

theorem settle_eq (finish : Held → Held) (w : Written) (h : Held) : h.settle finish w =
    match w.1 with
    | .blocked => (h.wrote w).touchSocket.aside fun c => { c with epollOut := true }
    | .finished => (h.wrote w).onWriteComplete finish
    | .failed => (h.wrote w).close := rfl

theorem toConn_wrote (w : Written) (h : Held) :
    (h.wrote w).toConn = { h.toConn with out := w.2.1, socket := w.2.2 } := by
  unfold Held.wrote
  dsimp only
  rw [toConn_ite, toConn_closeFile, toConn_aside, toConn_touchFile, ite_self]
  rfl

theorem Owned.wrote (ho : Owned h) (hc : h.closed = false) (w : Written) : Owned (h.wrote w) := by
  have hover : Owned (h.touchSocket.touchFile.aside fun c => { c with out := w.2.1, socket := w.2.2 }) :=
    (ho.touchSocket hc).touchFile.aside ⟨rfl, rfl, rfl, rfl, rfl⟩
  unfold Held.wrote
  dsimp only
  split
  · exact hover.closeFile
  · exact hover

theorem wrote_fileFd (hfile : w.2.1.file = none) : (h.wrote w).fileFd = none := by
  unfold Held.wrote
  rw [if_pos hfile, closeFile_eq]

theorem Held.Serving.wrote (hs : h.Serving b) (w : Written) : (h.wrote w).Serving b where
  owned := hs.owned.wrote hs.closed w
  inParser := by rw [toConn_wrote]; exact hs.inParser
  closed := by rw [toConn_wrote]; exact hs.closed
  cycle := by rw [toConn_wrote]; exact hs.cycle
  inFlight := by rw [toConn_wrote]; exact hs.inFlight
  headerTfd := by rw [toConn_wrote]; exact hs.headerTfd

/-- The cycle is not ended. -/
def Held.Busy (b : Bool) (h : Held) : Prop := h.Serving b ∨ h.Over b ∧ h.inFlight = true

theorem Held.Busy.good (hb : h.Busy b) : Good S more b h := by
  obtain hs | ⟨ho, -⟩ := hb
  · exact .serving hs
  · exact .closed ho

theorem Held.Busy.aside (hb : h.Busy b) (hu : Unmoved h.toConn (f h.toConn)) : (h.aside f).Busy b := by
  obtain hs | ⟨ho, hflight⟩ := hb
  · exact .inl (hs.aside hu)
  · exact .inr ⟨ho.aside hu, hu.inFlight.trans hflight⟩

theorem Held.Serving.close_busy (hs : h.Serving b) : h.close.Busy b :=
  .inr ⟨hs.close, by rw [toConn_close, close_inFlight, hs.inFlight]⟩

/-- A write that is not finished leaves the cycle as it is. -/
theorem settle_busy (hs : h.Serving b) (hw : w.1 ≠ .finished) : (h.settle finish w).Busy b := by
  rw [settle_eq]
  cases hend : w.1 with
  | blocked =>
    have hs := hs.wrote w
    exact .inl ⟨(hs.owned.touchSocket hs.closed).aside ⟨rfl, rfl, rfl, rfl, rfl⟩, hs.inParser,
      hs.closed, hs.cycle, hs.inFlight, hs.headerTfd⟩
  | finished => exact absurd hend hw
  | failed => exact (hs.wrote w).close_busy

theorem onWriteComplete_over (ho : Owned h) (hk : h.keepAlive = false) (hp : h.inParser = b)
    (hcycle : b = true → h.cyclePending = false) : (h.onWriteComplete finish).Over b := by
  have howned : Owned (h.cancelTimeout.lift fun c => { c with inFlight := false }) :=
    ho.cancelTimeout.aside ⟨rfl, rfl, rfl, rfl, rfl⟩
  have hconn : (h.cancelTimeout.lift fun c => { c with inFlight := false }).toConn =
      h.toConn.lift fun c => { c.cancelTimeout with inFlight := false } := by
    rw [toConn_lift, toConn_cancelTimeout]
    rfl
  unfold Held.onWriteComplete
  rw [if_pos (by rw [hconn]; show (!h.keepAlive) = true; rw [hk]; rfl)]
  refine close_over_of howned ?_ fun hb => ?_
  · rw [hconn]
    exact hp
  · rw [hconn]
    exact hcycle hb

/-- The call of `finish_cycle` is allowed. -/
def Finishes (S : Site) (finish : Held → Held) : Prop :=
  ∀ h : Held, h.Ended S [] → h.inParser = false → h.cyclePending = false →
    Good S [] false (finish h)

/-- **The end of a cycle.** -/
theorem onWriteComplete_good (hs : h.Serving b) (hfile : h.fileFd = none)
    (hcalm : h.keepAlive = true → Conn.Calm S more h.toConn) (hfinish : b = false → more = [] ∧ Finishes S finish) : Good S more b (h.onWriteComplete finish) := by
  have howned : Owned (h.cancelTimeout.lift fun c => { c with inFlight := false }) :=
    hs.owned.cancelTimeout.aside ⟨rfl, rfl, rfl, rfl, rfl⟩
  have hnone : (h.cancelTimeout.lift fun c => { c with inFlight := false }).fileFd = none := by
    unfold Held.cancelTimeout
    rw [cancelTimer_eq]
    exact hfile
  have hconn : (h.cancelTimeout.lift fun c => { c with inFlight := false }).toConn =
      h.toConn.lift fun c => { c.cancelTimeout with inFlight := false } := by
    rw [toConn_lift, toConn_cancelTimeout]
    rfl
  unfold Held.onWriteComplete
  dsimp only
  generalize h.cancelTimeout.lift (fun c => { c with inFlight := false }) = h₁ at howned hnone hconn
  have hp : h₁.inParser = b := by rw [hconn]; exact hs.inParser
  have hcycle : h₁.cyclePending = false := by rw [hconn]; exact hs.cycle
  have hended : h₁.keepAlive = true → h₁.Ended S more := fun hk => by
    refine ⟨howned, ?_, ?_, ?_, ?_, hnone, ?_⟩
    all_goals rw [hconn]
    · exact hs.closed
    · rfl
    · exact hs.headerTfd
    · rfl
    · exact hcalm (by rw [hconn] at hk; exact hk)
  cases hk : h₁.keepAlive with
  | false => exact .closed (close_over_of howned hp fun _ => hcycle)
  | true =>
    have he := hended hk
    cases b with
    | true =>
      rw [hp]
      exact .ended rfl hp rfl ⟨he.owned.aside ⟨rfl, rfl, rfl, rfl, rfl⟩, he.closed, he.inFlight,
        he.headerTfd, he.timeoutTfd, he.fileFd, he.calm⟩
    | false =>
      rw [hp]
      obtain ⟨rfl, hnext⟩ := hfinish rfl
      exact hnext h₁ he hp hcycle

theorem settle_good (hs : h.Serving b) (hfile : w.1 = .finished → w.2.1.file = none)
    (hcalm : h.keepAlive = true → Conn.CalmAfter S more h.toConn w) (hfinish : b = false → more = [] ∧ Finishes S finish) : Good S more b (h.settle finish w) := by
  by_cases hend : w.1 = .finished
  · rw [settle_eq, hend]
    refine onWriteComplete_good (hs.wrote w) (wrote_fileFd (hfile hend)) ?_ hfinish
    rw [toConn_wrote]
    exact fun hk => hcalm hk hend
  · exact (settle_busy hs hend).good

/-! ### Answers -/

/-- The connection when `send_response` is called for the answer of a handler. -/
def Held.prepared (S : Site) (n : ℕ) (message : Bytes) (h : Held) : Held :=
  match S.plan n message with
  | .stream | .unopened _ => h.keep false
  | .file _ content size => (h.keep (S.keepAlive message)).openFile ⟨content, size⟩
  | .whole _ => h.keep (S.keepAlive message)

theorem finishDispatch_written (hc : h.closed = false) : h.finishDispatch S finish n message =
    match (S.plan n message).written h.out h.socket with
    | none => ((h.prepared S n message).keep false).close
    | some w => (h.prepared S n message).settle finish w := by
  have hopen : ¬h.closed = true := by rw [hc]; nofun
  unfold Held.finishDispatch Held.prepared
  cases S.plan n message with
  | stream => rfl
  | unopened data =>
    dsimp only [Plan.written]
    rw [Held.sendResponse, if_neg (by exact hopen)]
    split
    · rfl
    · rfl
  | file head content size =>
    dsimp only [Plan.written]
    rw [Held.sendResponse, if_neg (by exact hopen)]
    split
    · rfl
    · rfl
  | whole data =>
    dsimp only [Plan.written]
    rw [Held.sendResponse, if_neg (by exact hopen)]
    split
    · rfl
    · rfl

/-- A file is only opened where none is pending. -/
theorem Held.Serving.prepared (hs : h.Serving b)
    (hfile : ∀ head content size, S.plan n message = .file head content size → h.fileFd = none) :
    (h.prepared S n message).Serving b := by
  have hkeep : ∀ k, (h.keep k).Serving b := fun k =>
    hs.aside ⟨⟨rfl, rfl, rfl, rfl, rfl⟩, rfl, rfl, rfl, rfl⟩
  unfold Held.prepared
  split
  · exact hkeep _
  · exact hkeep _
  · rename_i head content size hplan
    have hs := hkeep (S.keepAlive message)
    exact ⟨hs.owned.openFile hs.closed (hfile head content size hplan), hs.inParser, hs.closed,
      hs.cycle, hs.inFlight, hs.headerTfd⟩
  · exact hkeep _

/-- **A handler answers.** -/
theorem finishDispatch_good (hs : h.Serving b)
    (hfile : ∀ head content size, S.plan n message = .file head content size → h.fileFd = none)
    (hcalm : S.keepAlive message = true → ∀ w ∈ (S.plan n message).written h.out h.socket,
      Conn.CalmAfter S more h.toConn w) (hfinish : b = false → more = [] ∧ Finishes S finish) : Good S more b (h.finishDispatch S finish n message) := by
  have hp := hs.prepared hfile
  rw [finishDispatch_written hs.closed]
  cases hw : (S.plan n message).written h.out h.socket with
  | none =>
    exact .closed (hp.aside ⟨⟨rfl, rfl, rfl, rfl, rfl⟩, rfl, rfl, rfl, rfl⟩ : (Held.keep false _).Serving b).close
  | some w =>
    refine settle_good hp (Plan.written_file hw) (fun hk => ?_) hfinish
    unfold Held.prepared at hk ⊢
    cases hplan : S.plan n message with
    | stream => rw [hplan] at hk; cases hk
    | unopened data => rw [hplan] at hk; cases hk
    | file head content size => rw [hplan] at hk; exact hcalm hk w hw
    | whole data => rw [hplan] at hk; exact hcalm hk w hw

/-- An answer that is not out at once. -/
theorem finishDispatch_busy (hs : h.Serving b)
    (hfile : ∀ head content size, S.plan n message = .file head content size → h.fileFd = none)
    (hlate : ∀ w ∈ (S.plan n message).written h.out h.socket, w.1 ≠ .finished) :
    (h.finishDispatch S finish n message).Busy b := by
  have hp := hs.prepared hfile
  rw [finishDispatch_written hs.closed]
  cases hw : (S.plan n message).written h.out h.socket with
  | none =>
    exact (hp.aside ⟨⟨rfl, rfl, rfl, rfl, rfl⟩, rfl, rfl, rfl, rfl⟩ :
      (Held.keep false _).Serving b).close_busy
  | some w => exact settle_busy hp (hlate w hw)

/-! ### Requests -/

/-- What `dispatch` does before the handler is called. -/
def Held.begun (message : Bytes) (h : Held) : Held :=
  let n := h.dispatched.length
  let h := h.lift fun c => { c with inFlight := true, dispatched := c.dispatched ++ [message] }
  let h := h.touchSocket.cancelHeader.armTimeout
  h.aside fun c => { c with wsOnData := false, streamed := Function.update c.streamed n 0 }

theorem dispatch_begun : h.dispatch S finish message =
    if S.answersAtOnce h.dispatched.length then
      (h.begun message).finishDispatch S finish h.dispatched.length message
    else (h.begun message).aside fun c => { c with running := c.running ++ [h.dispatched.length] } :=
  rfl

theorem toConn_begun (message : Bytes) (h : Held) : (h.begun message).toConn =
    { h.toConn.lift fun c =>
        { c with inFlight := true, dispatched := c.dispatched ++ [message] }.cancelHeader.armTimeout with
      wsOnData := false
      streamed := Function.update h.streamed h.dispatched.length 0 } := by
  unfold Held.begun
  dsimp only
  rw [toConn_aside, toConn_armTimeout, toConn_cancelHeader, toConn_touchSocket]
  rfl

theorem Held.Free.begun (hf : h.Free b) (message : Bytes) : (h.begun message).Serving b := by
  have hlift : Owned (h.lift fun c =>
      { c with inFlight := true, dispatched := c.dispatched ++ [message] }) :=
    hf.owned.aside ⟨rfl, rfl, rfl, rfl, rfl⟩
  have hcancel := (hlift.touchSocket hf.closed).cancelHeader
  have harmed := hcancel.armTimeout (by rw [toConn_cancelHeader]; exact hf.closed)
    (by rw [toConn_cancelHeader]; exact hf.timeoutTfd)
  have howned : Owned (h.begun message) := harmed.transfer rfl rfl rfl rfl rfl rfl rfl
  refine ⟨howned, ?_, ?_, ?_, ?_, ?_⟩
  all_goals rw [toConn_begun]
  · exact hf.inParser
  · exact hf.closed
  · exact hf.cycle
  · rfl
  · rfl

theorem begun_fileFd (message : Bytes) (h : Held) : (h.begun message).fileFd = h.fileFd := by
  unfold Held.begun Held.cancelHeader
  dsimp only
  rw [cancelTimer_eq]
  rfl

/-- A request that is not answered and out at once. -/
theorem dispatch_busy (hf : h.Free b) (hlate : S.answersAtOnce h.dispatched.length = true →
    ∀ w ∈ (S.plan h.dispatched.length message).written h.out h.socket, w.1 ≠ .finished) :
    (h.dispatch S finish message).Busy b := by
  have hs := hf.begun message
  rw [dispatch_begun]
  split
  · rename_i hat
    refine finishDispatch_busy hs (fun _ _ _ _ => (begun_fileFd message h).trans hf.fileFd) ?_
    rw [toConn_begun]
    exact hlate hat
  · exact .inl (hs.aside ⟨⟨rfl, rfl, rfl, rfl, rfl⟩, rfl, rfl, rfl, rfl⟩)

/-- Whatever is answered while the parser calls back, `finish_cycle` waits for its return. -/
theorem dispatch_good (hf : h.Free true) (hcalm : S.answersAtOnce h.dispatched.length = true →
    S.keepAlive message = true →
    ∀ w ∈ (S.plan h.dispatched.length message).written h.out h.socket,
      Conn.CalmAfter S more { h.toConn with dispatched := h.dispatched ++ [message] } w) :
    Good S more true (h.dispatch S finish message) := by
  have hs := hf.begun message
  rw [dispatch_begun]
  split
  · rename_i hat
    refine finishDispatch_good hs (fun _ _ _ _ => (begun_fileFd message h).trans hf.fileFd) ?_ nofun
    rw [toConn_begun]
    exact hcalm hat
  · exact .serving (hs.aside ⟨⟨rfl, rfl, rfl, rfl, rfl⟩, rfl, rfl, rfl, rfl⟩)

/-! ### Errors -/

theorem Held.Over.close (ho : h.Over b) : h.close.Over b := close_over_of ho.owned ho.inParser ho.cycle

/-- **After an error, the connection is closed**, whatever became of its text. -/
theorem sendError_over_of {code : ℤ} {text : String} (ho : Owned h) (hc : h.closed = false)
    (hp : h.inParser = false) : (h.sendError S code text).close.Over false := by
  have hkeep : Owned (h.keep false) := ho.aside ⟨rfl, rfl, rfl, rfl, rfl⟩
  unfold Held.sendError Held.sendResponse
  rw [if_neg (by show ¬h.closed = true; rw [hc]; nofun)]
  split
  · have hkeep : Owned ((h.keep false).keep false) := hkeep.aside ⟨rfl, rfl, rfl, rfl, rfl⟩
    exact (close_over_of hkeep hp nofun).close
  · rw [settle_eq]
    generalize (h.keep false).out.sendData _ (h.keep false).socket = w
    have hwrote : Owned ((h.keep false).wrote w) := hkeep.wrote hc w
    have hconn := toConn_wrote w (h.keep false)
    generalize (h.keep false).wrote w = h₁ at hwrote hconn
    have hp₁ : h₁.inParser = false := by rw [hconn]; exact hp
    have hc₁ : h₁.closed = false := by rw [hconn]; exact hc
    have hk₁ : h₁.keepAlive = false := by rw [hconn]; rfl
    cases w.1 with
    | blocked =>
      have hmarked : Owned (h₁.touchSocket.aside fun c => { c with epollOut := true }) :=
        (hwrote.touchSocket hc₁).aside ⟨rfl, rfl, rfl, rfl, rfl⟩
      exact close_over_of hmarked hp₁ nofun
    | finished => exact (onWriteComplete_over hwrote hk₁ hp₁ nofun).close
    | failed => exact (close_over_of hwrote hp₁ nofun).close

theorem refuse_over_of {buf : Bytes} (ho : Owned h) (hc : h.closed = false)
    (hp : h.inParser = false) : (h.refuse S buf).Over false := by
  unfold Held.refuse
  split
  · exact sendError_over_of ho hc hp
  · exact sendError_over_of ho hc hp

theorem overflow_over_of (ho : Owned h) (hp : h.inParser = false) : (h.overflow S).Over false := by
  cases hc : h.closed with
  | false => exact sendError_over_of ho hc hp
  | true =>
    unfold Held.overflow Held.sendError Held.sendResponse
    rw [if_pos (by exact hc)]
    exact close_over_of (ho.aside ⟨rfl, rfl, rfl, rfl, rfl⟩) hp nofun

/-! ### The next cycle -/

theorem rearm_good (hf : h.Free false) (hnone : h.headerTfd = none) : Good S more false h.rearm := by
  have harmed := hf.owned.armHeader hf.closed hnone
  refine .waiting ⟨(harmed.touchSocket hf.closed).aside ⟨rfl, rfl, rfl, rfl, rfl⟩, hf.inParser,
    hf.closed, hf.cycle, hf.inFlight, hf.timeoutTfd, hf.fileFd⟩ rfl

theorem feed_eq {buf : Bytes} (hpaused : h.paused = false) : h.feed S finish buf =
    match S.execute h.partialMsg buf with
    | .ok partialMsg => (true, h.lift fun c => { c with partialMsg := partialMsg, unconsumed := 0 })
    | .error => (false, h)
    | .paused message rest =>
      (true, ((h.lift fun c => { c with partialMsg := [] }).dispatch S finish message).lift fun c =>
        { c with paused := true, unconsumed := rest.length }) :=
  if_neg (by rw [hpaused]; nofun)

/-- What `finish_cycle` does when `feed` has returned. -/
def Held.resumed (S : Site) (buf : Bytes) (r : Bool × Held) : Held :=
  if !r.1 then r.2.refuse S buf
  else if r.2.paused && r.2.unconsumed > kMaxPendingBuf then r.2.overflow S
  else
    let h := if r.2.paused && r.2.unconsumed > 0
      then r.2.lift fun c => { c with pendingBuf := buf.drop (buf.length - c.unconsumed) } else r.2
    if h.inFlight then h else h.rearm

theorem finishCycle_succ (S : Site) (depth : ℕ) (h : Held) : h.finishCycle S (depth + 1) =
    if h.pendingBuf = [] then (h.lift HttpConnection.resume).rearm
    else resumed S h.pendingBuf (feed S (finishCycle S depth) h.pendingBuf
      ((h.lift HttpConnection.resume).lift fun c => { c with pendingBuf := [] })) := rfl

theorem resumed_free {buf : Bytes} (hf : h.Free false) (hnone : h.headerTfd = none)
    (hpaused : h.paused = false) : Good S more false (resumed S buf (true, h)) := by
  unfold Held.resumed
  dsimp only
  rw [hpaused]
  simp only [Bool.not_true, Bool.false_eq_true, ↓reduceIte, Bool.false_and, hf.inFlight]
  exact rearm_good hf hnone

theorem resumed_busy {buf : Bytes} (hb : h.Busy false) : Good S more false (resumed S buf (true, h)) := by
  have hflight : h.inFlight = true := by
    obtain hs | ⟨-, hflight⟩ := hb
    · exact hs.inFlight
    · exact hflight
  have hgood : Good S more false h := hb.good
  unfold Held.resumed
  rw [if_neg (by exact Bool.false_ne_true)]
  dsimp only
  split
  · exact .closed (overflow_over_of hgood.owned hgood.inParser)
  · split
    · rw [if_pos (by exact hflight)]
      exact hgood.aside ⟨⟨rfl, rfl, rfl, rfl, rfl⟩, rfl, rfl, rfl, rfl⟩ nofun
    · exact hgood

/-- **`finish_cycle`**, if the request that it takes from `pending_buf_` does not call it. -/
theorem finishCycle_good (S : Site) (depth : ℕ) : Finishes S (finishCycle S (depth + 1)) := by
  intro h he hp hcycle
  have hfree : (h.lift HttpConnection.resume).Free false :=
    ⟨he.owned.aside ⟨rfl, rfl, rfl, rfl, rfl⟩, hp, he.closed, hcycle, he.inFlight, he.timeoutTfd,
      he.fileFd⟩
  rw [finishCycle_succ]
  split
  · exact rearm_good hfree he.headerTfd
  · have hempty : ((h.lift HttpConnection.resume).lift fun c => { c with pendingBuf := [] }).Free false :=
      hfree.aside ⟨⟨rfl, rfl, rfl, rfl, rfl⟩, rfl, rfl, rfl, rfl⟩
    have hcalm := he.calm
    rw [Conn.Calm, List.append_nil] at hcalm
    rw [feed_eq rfl]
    split
    · refine resumed_free ?_ he.headerTfd rfl
      exact hempty.aside ⟨⟨rfl, rfl, rfl, rfl, rfl⟩, rfl, rfl, rfl, rfl⟩
    · exact .closed (refuse_over_of hempty.owned hempty.closed hempty.inParser)
    · rename_i message rest hexec
      have hread := hempty.aside (f := Conn.lift fun c => { c with partialMsg := [] })
        ⟨⟨rfl, rfl, rfl, rfl, rfl⟩, rfl, rfl, rfl, rfl⟩
      have hbusy : (dispatch S (finishCycle S depth) message _).Busy false :=
        dispatch_busy hread (hcalm message rest hexec)
      exact resumed_busy (hbusy.aside ⟨⟨rfl, rfl, rfl, rfl, rfl⟩, rfl, rfl, rfl, rfl⟩)

/-! ### Reading -/

/-- What is left of a buffer comes behind the message. -/
theorem execute_suffix {V : Server} {acc buf message rest : Bytes}
    (hexec : V.execute acc buf = .paused message rest) : rest <:+ buf := by
  induction buf generalizing acc with
  | nil => cases hexec
  | cons b buf ih =>
    unfold Server.execute at hexec
    split at hexec
    · exact (ih hexec).trans (List.suffix_cons _ _)
    · cases hexec
      exact List.suffix_cons _ _
    · cases hexec

/-- What `do_read` does when `feed` has returned. -/
def Held.received (S : Site) (chunk : Bytes) (r : Bool × Held) : Held :=
  let h := r.2.lift fun c => { c with inParser := false }
  if !r.1 then h.refuse S chunk
  else if h.paused && h.unconsumed > kMaxPendingBuf then h.overflow S
  else
    let h := if h.paused && h.unconsumed > 0
      then h.lift fun c =>
        { c with pendingBuf := c.pendingBuf ++ chunk.drop (chunk.length - c.unconsumed) }
      else h
    if h.cyclePending then finishCycle S 2 (h.lift fun c => { c with cyclePending := false }) else h

theorem doRead_eq (S : Site) (chunk : Bytes) (h : Held) : h.doRead S chunk =
    if h.wsOnData then h.touchSocket
    else if h.inFlight || h.paused then
      if h.pendingBuf.length + chunk.length > kMaxPendingBuf then h.touchSocket.overflow S
      else h.touchSocket.lift fun c => { c with pendingBuf := c.pendingBuf ++ chunk }
    else received S chunk (feed S (finishCycle S 2) chunk
      (h.touchSocket.lift fun c => { c with inParser := true })) := rfl

/-- No request was complete. -/
theorem received_free {chunk : Bytes} (hf : h.Free true) (hout : h.epollOut = false)
    (hpaused : h.paused = false) : Good S [] false (received S chunk (true, h)) := by
  have hleft : (h.lift fun c => { c with inParser := false }).Free false :=
    ⟨hf.owned.aside ⟨rfl, rfl, rfl, rfl, rfl⟩, rfl, hf.closed, hf.cycle, hf.inFlight, hf.timeoutTfd,
      hf.fileFd⟩
  unfold Held.received
  rw [if_neg (by exact Bool.false_ne_true)]
  dsimp only
  have hp : (h.lift fun c => { c with inParser := false }).paused = false := hpaused
  rw [hp]
  simp only [Bool.false_and, Bool.false_eq_true, ↓reduceIte]
  rw [if_neg (by exact Bool.eq_false_iff.1 hf.cycle)]
  exact .waiting hleft hout

/-- The parser has returned, and a cycle that ended meanwhile is closed. -/
theorem leave_good {tail : Bytes} (hg : Good S more true h) (htail : tail = more) : Good S [] false
    (let h := h.lift fun c => { c with inParser := false, pendingBuf := c.pendingBuf ++ tail }
      if h.cyclePending then finishCycle S 2 (h.lift fun c => { c with cyclePending := false })
      else h) := by
  subst htail
  have howned : Owned (h.lift fun c =>
      { c with inParser := false, pendingBuf := c.pendingBuf ++ tail }) :=
    hg.owned.aside ⟨rfl, rfl, rfl, rfl, rfl⟩
  cases hg with
  | waiting hf hout =>
    rw [if_neg (by exact Bool.eq_false_iff.1 hf.cycle)]
    exact .waiting ⟨howned, rfl, hf.closed, hf.cycle, hf.inFlight, hf.timeoutTfd, hf.fileFd⟩ hout
  | serving hs =>
    rw [if_neg (by exact Bool.eq_false_iff.1 hs.cycle)]
    exact .serving ⟨howned, rfl, hs.closed, hs.cycle, hs.inFlight, hs.headerTfd⟩
  | ended hb hp hcycle he =>
    rw [if_pos (by exact hcycle)]
    refine finishCycle_good S 1 _ ⟨howned.aside ⟨rfl, rfl, rfl, rfl, rfl⟩, he.closed, he.inFlight,
      he.headerTfd, he.timeoutTfd, he.fileFd, ?_⟩ rfl rfl
    have hcalm := he.calm
    rw [Conn.Calm] at hcalm ⊢
    rw [List.append_nil]
    exact hcalm
  | closed ho =>
    rw [if_neg (by exact Bool.eq_false_iff.1 (ho.cycle rfl))]
    exact .closed ⟨howned, rfl, ho.closed, nofun⟩

/-- A request was handed to `dispatch`, and `rest` came behind it. -/
theorem received_good {chunk rest : Bytes} (hg : Good S rest true h) (hrest : rest <:+ chunk) :
    Good S [] false (received S chunk
      (true, h.lift fun c => { c with paused := true, unconsumed := rest.length })) := by
  have hdrop : chunk.drop (chunk.length - rest.length) = rest := (List.suffix_iff_eq_drop.1 hrest).symm
  have hpaused : Good S rest true
      (h.lift fun c => { c with paused := true, unconsumed := rest.length }) :=
    hg.aside ⟨⟨rfl, rfl, rfl, rfl, rfl⟩, rfl, rfl, rfl, rfl⟩ fun _ hcalm => hcalm
  unfold Held.received
  rw [if_neg (by exact Bool.false_ne_true)]
  dsimp only
  split
  · exact .closed (overflow_over_of (hpaused.owned.aside ⟨rfl, rfl, rfl, rfl, rfl⟩) rfl)
  · split
    · have hleave := leave_good hpaused hdrop
      exact hleave
    · rename_i hnone
      have hrest : rest = [] := by
        have hlen : ¬rest.length > 0 := fun hlt => hnone (decide_eq_true hlt)
        exact List.eq_nil_of_length_eq_zero (Nat.eq_zero_of_not_pos hlen)
      have hleave := leave_good hpaused hrest.symm
      simp only [List.append_nil] at hleave
      exact hleave

/-- `do_read`. -/
theorem doRead_good {chunk : Bytes} (hg : Good S [] false h) (hc : h.closed = false)
    (hcalm : h.wsOnData = false → h.inFlight = false → h.paused = false →
      ∀ message rest, S.execute h.partialMsg chunk = .paused message rest →
        S.answersAtOnce h.dispatched.length = true → S.keepAlive message = true →
          ∀ w ∈ (S.plan h.dispatched.length message).written h.out h.socket,
            Conn.CalmAfter S rest
              (h.toConn.lift fun c =>
                { c with partialMsg := [], dispatched := c.dispatched ++ [message] }) w) :
    Good S [] false (h.doRead S chunk) := by
  have htouch : Good S [] false h.touchSocket := hg.touchSocket hc
  rw [doRead_eq]
  split
  · exact htouch
  · split
    · split
      · exact .closed (overflow_over_of htouch.owned htouch.inParser)
      · exact htouch.aside ⟨⟨rfl, rfl, rfl, rfl, rfl⟩, rfl, rfl, rfl, rfl⟩ nofun
    · rename_i hws hidle
      obtain ⟨hflight, hpaused⟩ : h.inFlight = false ∧ h.paused = false := by simpa using hidle
      obtain ⟨hf, hout⟩ : h.touchSocket.Free false ∧ h.epollOut = false := by
        cases htouch with
        | waiting hf hout => exact ⟨hf, hout⟩
        | serving hs => exact nomatch hflight.symm.trans hs.inFlight
        | ended hb => cases hb
        | closed ho => exact nomatch hc.symm.trans ho.closed
      have hin : (h.touchSocket.lift fun c => { c with inParser := true }).Free true :=
        ⟨hf.owned.aside ⟨rfl, rfl, rfl, rfl, rfl⟩, rfl, hf.closed, hf.cycle, hf.inFlight,
          hf.timeoutTfd, hf.fileFd⟩
      rw [feed_eq (by exact hpaused)]
      split
      · exact received_free (hin.aside ⟨⟨rfl, rfl, rfl, rfl, rfl⟩, rfl, rfl, rfl, rfl⟩) hout hpaused
      · exact .closed (refuse_over_of (hin.owned.aside ⟨rfl, rfl, rfl, rfl, rfl⟩) hin.closed rfl)
      · rename_i message rest hexec
        have hread := hin.aside (f := Conn.lift fun c => { c with partialMsg := [] })
          ⟨⟨rfl, rfl, rfl, rfl, rfl⟩, rfl, rfl, rfl, rfl⟩
        refine received_good (dispatch_good hread ?_) (execute_suffix hexec)
        exact hcalm (Bool.eq_false_iff.2 hws) hflight hpaused message rest hexec

/-! ### The other events -/

theorem doWrite_good (hg : Good S [] false h) (hc : h.closed = false) (hout : h.epollOut = true)
    (hcalm : h.keepAlive = true → Conn.CalmAfter S [] h.toConn (h.out.write h.socket)) :
    Good S [] false (h.doWrite (finishCycle S 2)) := by
  cases hg with
  | waiting _ hnot => exact nomatch hout.symm.trans hnot
  | serving hs =>
    exact settle_good hs Output.write_file hcalm fun _ => ⟨rfl, finishCycle_good S 1⟩
  | ended hb => cases hb
  | closed ho => exact nomatch hc.symm.trans ho.closed

/-- A handler that answers a closed connection does nothing there, unless it opens a file. -/
theorem Held.Over.finishDispatch (ho : h.Over b)
    (hplan : ∀ head content size, S.plan n message ≠ .file head content size) :
    (h.finishDispatch S finish n message).Over b := by
  have hkeep : ∀ k, (h.keep k).Over b := fun k =>
    ho.aside ⟨⟨rfl, rfl, rfl, rfl, rfl⟩, rfl, rfl, rfl, rfl⟩
  have hsend : ∀ k data, ((h.keep k).sendResponse finish data).Over b := fun k data => by
    rw [Held.sendResponse, if_pos (by exact ho.closed)]
    exact hkeep k
  unfold Held.finishDispatch
  split
  · exact (hkeep false).close
  · exact hsend false _
  · rename_i head content size hfile
    exact absurd hfile (hplan head content size)
  · exact hsend _ _

theorem answer_good (hg : Good S [] false h)
    (hover : h.closed = true → ∀ head content size,
      S.plan n (h.dispatched.getD n []) ≠ .file head content size)
    (hflight : h.closed = false → h.inFlight = true)
    (hfile : h.closed = false → ∀ head content size,
      S.plan n (h.dispatched.getD n []) = .file head content size → h.fileFd = none)
    (hcalm : h.closed = false → S.keepAlive (h.dispatched.getD n []) = true →
      ∀ w ∈ (S.plan n (h.dispatched.getD n [])).written h.out h.socket,
        Conn.CalmAfter S [] h.toConn w) :
    Good S [] false (h.answer S n) := by
  have hrunning : Unmoved h.toConn { h.toConn with running := h.running.erase n } :=
    ⟨⟨rfl, rfl, rfl, rfl, rfl⟩, rfl, rfl, rfl, rfl⟩
  unfold Held.answer
  cases hg with
  | waiting hf => exact nomatch hf.inFlight.symm.trans (hflight hf.closed)
  | serving hs =>
    exact finishDispatch_good (hs.aside hrunning) (hfile hs.closed) (hcalm hs.closed)
      fun _ => ⟨rfl, finishCycle_good S 1⟩
  | ended hb => cases hb
  | closed ho => exact .closed ((ho.aside hrunning).finishDispatch (hover ho.closed))

theorem writeRaw_unmoved (n k : ℕ) (c : Conn) : Unmoved c (c.writeRaw S n k) := by
  unfold Conn.writeRaw
  dsimp only
  split
  · exact ⟨⟨rfl, rfl, rfl, rfl, rfl⟩, rfl, rfl, rfl, rfl⟩
  · exact ⟨⟨rfl, rfl, rfl, rfl, rfl⟩, rfl, rfl, rfl, rfl⟩

theorem writeRaw_good {k : ℕ} (hg : Good S [] false h) : Good S [] false (h.writeRaw S n k) := by
  unfold Held.writeRaw
  split
  · exact hg
  · rename_i hc
    exact (hg.touchSocket (Bool.eq_false_iff.2 hc)).aside (writeRaw_unmoved n k h.toConn) nofun

/-- **A timer expires.**  Its descriptor is closed by the loop, and then everything else. -/
theorem expire_over {tfd : ℕ} {kind : TimerKind} (hg : Good S [] false h)
    (ht : (tfd, kind) ∈ h.timers) : (h.expire S tfd kind).Over false := by
  have htfd : h.tfd kind = some tfd := (hg.owned.timers tfd kind).1 ht
  have htouch := hg.owned.touch (show h.Holds (.timer tfd) from ⟨kind, htfd⟩)
  have hopen : ¬h.closed = true := by
    intro hc
    rw [(hg.owned.closed_none hc).1 kind] at htfd
    cases htfd
  have hother : ∀ kind' t, kind' ≠ kind → (h.tfd kind' = some t ↔ h.tfd kind' = some t ∧ t ≠ tfd) := by
    intro kind' t hk
    refine ⟨fun hkind => ⟨hkind, ?_⟩, And.left⟩
    rintro rfl
    exact hk (hg.owned.distinct _ _ _ hkind htfd)
  unfold Held.expire
  dsimp only
  rw [if_neg (by exact hopen)]
  cases kind with
  | header =>
    refine sendError_over_of ?_ (Bool.eq_false_iff.2 hopen) hg.inParser
    refine htouch.release_timer ⟨.header, htfd⟩ rfl (fun kind' t => ?_) rfl rfl rfl rfl rfl
    cases kind' with
    | header =>
      refine iff_of_false nofun fun ⟨hheader, hne⟩ => hne ?_
      exact Option.some.inj (hheader.symm.trans htfd)
    | request => exact hother .request t nofun
  | request =>
    refine sendError_over_of ?_ (Bool.eq_false_iff.2 hopen) hg.inParser
    refine htouch.release_timer ⟨.request, htfd⟩ rfl (fun kind' t => ?_) rfl rfl rfl rfl rfl
    cases kind' with
    | header => exact hother .header t nofun
    | request =>
      refine iff_of_false nofun fun ⟨hrequest, hne⟩ => hne ?_
      exact Option.some.inj (hrequest.symm.trans htfd)

end Cycle

/-! ## Runs -/

/-- **The events that leave a connection good.**  A handler of a closed connection does not
    answer with a file; a handler of an open one answers while its request is in flight, and
    with a file if none is pending; and no request that comes from `pending_buf_` ends its
    cycle before `dispatch` returns. -/
def Careful (S : Site) (l : Life) : Occurrence → Prop
  | .happens (.read n socket) =>
    let h := l.conn
    h.wsOnData = false → h.inFlight = false → h.paused = false →
      ∀ message rest, S.execute h.partialMsg (l.unread.take n) = .paused message rest →
        S.answersAtOnce h.dispatched.length = true → S.keepAlive message = true →
          ∀ w ∈ (S.plan h.dispatched.length message).written h.out socket,
            Conn.CalmAfter S rest
              (h.toConn.lift fun c =>
                { c with partialMsg := [], dispatched := c.dispatched ++ [message] }) w
  | .happens (.writable socket) =>
    l.conn.keepAlive = true → Conn.CalmAfter S [] l.conn.toConn (l.conn.out.write socket)
  | .happens (.answered n socket) =>
    let h := l.conn
    let message := h.dispatched.getD n []
    let isFile := ∃ head content size, S.plan n message = .file head content size
    if h.closed then ¬isFile
    else h.inFlight = true ∧ (isFile → h.fileFd = none) ∧
      (S.keepAlive message = true → ∀ w ∈ (S.plan n message).written h.out socket,
        Conn.CalmAfter S [] h.toConn w)
  | _ => True

/-- Before the destruction, the connection is good; after it, nothing is held. -/
def Kempt (S : Site) (l : Life) : Prop :=
  if l.destroyed then Proper l.conn.log ∧ ∀ fd, ¬Holding l.conn.log fd
  else Good S [] false l.conn

section Runs

variable {S : Site} {l l' : Life}

theorem kempt_of_good (hd : l.destroyed = false) (hg : Good S [] false l.conn) : Kempt S l := by
  rw [Kempt, hd]
  exact hg

/-- **The step lemma.** -/
theorem step_kempt {e : Occurrence} (hk : Kempt S l) (hcareful : Careful S l e)
    (hs : l.step S e = some l') : Kempt S l' := by
  cases hd : l.destroyed with
  | true =>
    -- nothing happens any longer
    cases e with
    | destroyed =>
      obtain ⟨⟨hnot, -⟩, -⟩ := Option.ite_none_right_eq_some.1 hs
      exact nomatch hd.symm.trans hnot
    | happens e =>
      unfold Life.step at hs
      dsimp only at hs
      rw [if_pos hd] at hs
      cases hs
  | false =>
    rw [Kempt, hd] at hk
    replace hk : Good S [] false l.conn := hk
    have hfacing : ∀ socket, Good S [] false (l.conn.facing socket) := fun _ =>
      hk.aside ⟨⟨rfl, rfl, rfl, rfl, rfl⟩, rfl, rfl, rfl, rfl⟩ nofun
    cases e with
    | destroyed =>
      obtain ⟨-, hl⟩ := Option.ite_none_right_eq_some.1 hs
      cases hl
      exact hk.owned.destroy
    | happens e =>
      unfold Life.step at hs
      dsimp only at hs
      rw [if_neg (by rw [hd]; nofun)] at hs
      cases e with
      | read n socket =>
        obtain ⟨⟨hc, -⟩, hl⟩ := Option.ite_none_right_eq_some.1 hs
        cases hl
        exact kempt_of_good hd (doRead_good (hfacing socket) hc hcareful)
      | writable socket =>
        obtain ⟨⟨hc, hout⟩, hl⟩ := Option.ite_none_right_eq_some.1 hs
        cases hl
        exact kempt_of_good hd (doWrite_good (hfacing socket) hc hout hcareful)
      | hangUp =>
        cases hs
        exact kempt_of_good hd (.closed (close_over_of hk.owned hk.inParser nofun))
      | answered n socket =>
        obtain ⟨-, hl⟩ := Option.ite_none_right_eq_some.1 hs
        cases hl
        refine kempt_of_good hd ?_
        dsimp only [Careful] at hcareful
        split at hcareful
        · rename_i hc
          have hopen : l.conn.closed ≠ false := by rw [hc]; nofun
          exact answer_good (hfacing socket)
            (fun _ head content size hplan => hcareful ⟨head, content, size, hplan⟩)
            (fun hc => absurd hc hopen) (fun hc => absurd hc hopen) fun hc => absurd hc hopen
        · rename_i hc
          obtain ⟨hflight, hfile, hcalm⟩ := hcareful
          exact answer_good (hfacing socket) (fun hclosed => absurd hclosed hc) (fun _ => hflight)
            (fun _ head content size hplan => hfile ⟨head, content, size, hplan⟩) fun _ => hcalm
      | raw n k =>
        obtain ⟨-, hl⟩ := Option.ite_none_right_eq_some.1 hs
        cases hl
        exact kempt_of_good hd (writeRaw_good hk)
      | upgraded n =>
        obtain ⟨-, hl⟩ := Option.ite_none_right_eq_some.1 hs
        cases hl
        have hup : Good S [] false (l.conn.aside fun c => { c with wsOnData := true }) :=
          hk.aside ⟨⟨rfl, rfl, rfl, rfl, rfl⟩, rfl, rfl, rfl, rfl⟩ nofun
        exact kempt_of_good hd hup
      | expired tfd socket =>
        dsimp only at hs
        split at hs
        · rename_i tfd' kind hfind
          cases hs
          have hmem := List.mem_of_find?_eq_some hfind
          obtain rfl : tfd' = tfd := by simpa using List.find?_some hfind
          exact kempt_of_good hd (.closed (expire_over (hfacing socket) hmem))
        · cases hs

theorem start_kempt (S : Site) (input : Bytes) : Kempt S (lifetime S input).init := by
  have howned : Owned ({ log := [.acquire .socket] } : Held) := by
    refine ⟨Proper.nil.acquire List.not_mem_nil, fun fd => ?_, (by simp), (by simp), (by simp),
      fun t kind => ?_, fun t kind _ hk => ?_⟩
    · refine (Lib.holding_acquire .nil List.not_mem_nil).trans ?_
      cases fd with
      | socket => exact iff_of_true (.inr rfl) rfl
      | timer t =>
        refine iff_of_false (by simp [Holding]) ?_
        rintro ⟨kind, hk⟩
        cases kind with
        | header => cases hk
        | request => cases hk
      | file k => exact iff_of_false (by simp [Holding]) fun h => by cases h
    · cases kind with
      | header => exact iff_of_false List.not_mem_nil fun h => by cases h
      | request => exact iff_of_false List.not_mem_nil fun h => by cases h
    · cases kind with
      | header => cases hk
      | request => cases hk
  refine kempt_of_good rfl (.waiting ⟨?_, rfl, rfl, rfl, rfl, rfl, rfl⟩ rfl)
  exact howned.armHeader rfl rfl

/-- **Each descriptor is closed once**, and nothing is done with it afterwards. -/
theorem closed_once (S : Site) (input : Bytes) {es : List Occurrence}
    (hcareful : (lifetime S input).Meets (Careful S) es) (hrun : (lifetime S input).run es = some l) :
    (∀ pre fd post, l.conn.log = pre ++ .release fd :: post → ∀ u ∈ post, u.handle ≠ fd) ∧
      (l.destroyed = true → ∀ fd, .acquire fd ∈ l.conn.log → l.conn.log.count (.release fd) = 1) := by
  have hk : Kempt S l := Lib.System.guarded_induction _ (start_kempt S input)
    (fun _ _ _ hk hcareful hs => step_kempt hk hcareful hs) hcareful hrun
  constructor
  · intro pre fd post hlog
    refine Proper.after_release ?_ hlog
    rw [Kempt] at hk
    split at hk
    · exact hk.1
    · exact hk.owned.proper
  · intro hd fd hfd
    rw [Kempt, if_pos hd] at hk
    exact hk.1.count_release hfd (hk.2 fd)

end Runs

theorem calm_of_nothing {S : Site} {more : Bytes} {c : Conn} (hacc : c.partialMsg = [])
    (hmore : c.pendingBuf ++ more = []) : Conn.Calm S more c := by
  intro message rest hexec
  rw [hacc, hmore] at hexec
  cases hexec

/-- A request is answered, the client hangs up, and the connection is destroyed. -/
theorem closed_once_hello :
    ∃ l, (lifetime helloSite getRoot).run
        [.happens (.read 18 [.sent 1000]), .happens .hangUp, .destroyed] = some l ∧
      (∀ pre fd post, l.conn.log = pre ++ .release fd :: post → ∀ u ∈ post, u.handle ≠ fd) ∧
      (l.destroyed = true → ∀ fd, .acquire fd ∈ l.conn.log → l.conn.log.count (.release fd) = 1) := by
  obtain ⟨l, hl⟩ := Option.isSome_iff_exists.1 (show ((lifetime helloSite getRoot).run
    [.happens (.read 18 [.sent 1000]), .happens .hangUp, .destroyed]).isSome = true by
      decide +kernel)
  have hexec : helloSite.execute [] (getRoot.take 18) = .paused getRoot [] := by decide +kernel
  have hmeets : (lifetime helloSite getRoot).Meets (Careful helloSite)
      [.happens (.read 18 [.sent 1000]), .happens .hangUp, .destroyed] := by
    refine ⟨fun _ _ _ message rest hpaused _ _ w _ _ => ?_, fun _ _ => ⟨trivial, fun _ _ =>
      ⟨trivial, fun _ _ => trivial⟩⟩⟩
    cases hexec.symm.trans hpaused
    exact calm_of_nothing rfl rfl
  exact ⟨l, hl, closed_once helloSite getRoot hmeets hl⟩

/-- The handler takes its time, and answers with a file. -/
def lateFileSite : Site where
  toServer := bodyless fun _ => false
  walk := walkAsAdded
  plan _ _ := .file (ascii "HTTP/1.1 200 OK\r\n\r\n") (ascii "hello") 5
  raw _ _ := []
  bodyTooLarge _ := false

/-- The client hangs up while the handler runs.  The file that it answers with is opened when
    the connection is closed, and the destructor closes nothing. -/
theorem late_file_is_kept : ¬∀ (S : Site) (input : Bytes) (es : List Occurrence) (l : Life),
    (lifetime S input).run es = some l →
      (∀ pre fd post, l.conn.log = pre ++ .release fd :: post → ∀ u ∈ post, u.handle ≠ fd) ∧
      (l.destroyed = true → ∀ fd, .acquire fd ∈ l.conn.log →
        l.conn.log.count (.release fd) = 1) := by
  intro hclaim
  have hrun : ((lifetime lateFileSite getRoot).run [.happens (.read 18 []), .happens .hangUp,
      .happens (.answered 0 []), .destroyed]).map (fun l => (l.destroyed,
        decide (.acquire (.file 0) ∈ l.conn.log), l.conn.log.count (.release (.file 0)))) =
      some (true, true, 0) := by decide +kernel
  obtain ⟨l, hl, hlog⟩ := Option.map_eq_some_iff.1 hrun
  obtain ⟨hd, hacquire, hcount⟩ : l.destroyed = true ∧ _ ∧ _ := by simpa using hlog
  have hone := (hclaim _ _ _ l hl).2 hd (.file 0) hacquire
  omega

end Osodio.Http
