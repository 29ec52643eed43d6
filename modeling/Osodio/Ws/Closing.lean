import Osodio.Ws.State
import Osodio.Lib.Transition

/-!
# Closing a WebSocket

Either side may close: the parser answers a Close frame and fails on what it does not
accept, and the handler calls `close`.  One flag is to keep everything quiet afterwards;
`send`, `ping` and `close` look at it, and `feed` does not.

## Main definitions

- `Session` — the parser, and what its handler has taken from the queue
- `Disciplined` — nothing follows a Close frame, and no message is queued late
- `Attended` — the bytes of the client arrive while the connection is open
- `session` — the bytes of the client and the calls of the handler, in any order

## Main results

- `disciplined_of_attended` — every attended run is disciplined
- `close_answered_twice` — a connection that the handler has closed answers a Close frame
-/

namespace Osodio.Ws

open Http (Bytes)

structure Session where
  ws : WSState := {}
  /-- `cancelled` of the token: the connection underneath is closed. -/
  cancelled : Bool := false
  /-- The messages handed to the handler. -/
  taken : List WSMessage := []
  /-- The messages that were queued when the connection had been marked as closed. -/
  late : List WSMessage := []
  deriving DecidableEq, Repr

namespace Session

def isOpen (s : Session) : Bool := !s.ws.closed && !s.cancelled

def writeFrame (payload : Bytes) (opcode : UInt8) (s : Session) : Session :=
  if s.isOpen then { s with ws := s.ws.rawSend (buildFrame payload opcode true) } else s

/-- `WSConnection::close`. -/
def close (code : UInt16) (s : Session) : Session :=
  if s.ws.closed then s
  else { s with ws := { s.ws with closed := true }.rawSend (WSState.closeFrame code.toNat) }

def received (data : Bytes) (s : Session) : Session :=
  let ws := s.ws.feed data
  { s with
    ws := ws
    late := s.late ++ if s.ws.closed then ws.pending.drop s.ws.pending.length else [] }

/-- `await_resume`. -/
def take (s : Session) : Session :=
  match s.ws.pending with
  | m :: rest => { s with ws := { s.ws with pending := rest }, taken := s.taken ++ [m] }
  | [] => s

end Session

/-- What happens to a connection. -/
inductive Occurrence where
  | received (data : Bytes)
  | send (text : Bytes)
  | sendBinary (data : Bytes)
  | ping (payload : Bytes)
  | close (code : UInt16)
  | recv
  /-- The connection underneath closes; a `recv` that waits is woken up. -/
  | cancelled (waiting : Bool)
  deriving DecidableEq, Repr

def Session.step (s : Session) : Occurrence → Option Session
  | .received data => some (s.received data)
  | .send text => some (s.writeFrame text 0x1)
  | .sendBinary data => some (s.writeFrame data 0x2)
  | .ping payload => some (s.writeFrame payload 0x9)
  | .close code => some (s.close code)
  | .recv => some s.take
  | .cancelled waiting =>
    some { s with cancelled := true, ws := { s.ws with closed := s.ws.closed || waiting } }

def session : Lib.System Session Occurrence where
  init := {}
  step := Session.step

/-- The opcode of a frame is that of a Close frame. -/
def isClose (frame : Bytes) : Bool := frame.head?.any fun b => b &&& 0x0F == 0x8

/-- A Close frame is the last frame, and no message has been queued late. -/
def Disciplined (s : Session) : Prop :=
  (∀ frame ∈ s.ws.sent.dropLast, isClose frame = false) ∧ s.late = []

/-- The bytes of the client arrive while the connection is open. -/
def Attended (s : Session) : Occurrence → Prop
  | .received _ => s.ws.closed = false
  | _ => True

/-! ## What the parser sends -/

section Sent

variable {s : WSState} {f : Frame}

/-- No Close frame is out, unless it is the last frame and the connection is closed. -/
structure Quiet (s : WSState) : Prop where
  last : ∀ frame ∈ s.sent.dropLast, isClose frame = false
  opened : s.closed = false → ∀ frame ∈ s.sent, isClose frame = false

theorem Quiet.closing (h : Quiet s) (hopen : s.closed = false) {t : WSState} {frame : Bytes}
    (hclosed : t.closed = true) (hsent : t.sent = s.sent ++ [frame]) : Quiet t where
  last := by
    rw [hsent, List.dropLast_concat]
    exact h.opened hopen
  opened ht := Bool.noConfusion (ht.symm.trans hclosed)

theorem Quiet.sending (h : Quiet s) (hopen : s.closed = false) {t : WSState} {frame : Bytes}
    (hsent : t.sent = s.sent ++ [frame]) (hframe : isClose frame = false) : Quiet t := by
  have hall : ∀ g ∈ t.sent, isClose g = false := by
    intro g hg
    rw [hsent, List.mem_append, List.mem_singleton] at hg
    rcases hg with hg | rfl
    · exact h.opened hopen g hg
    · exact hframe
  exact ⟨fun g hg => hall g (List.dropLast_subset _ hg), fun _ => hall⟩

theorem Quiet.same (h : Quiet s) {t : WSState} (hsent : t.sent = s.sent)
    (hclosed : s.closed = true → t.closed = true) : Quiet t where
  last := by
    rw [hsent]
    exact h.last
  opened ht := by
    rw [hsent]
    apply h.opened
    cases hs : s.closed with
    | false => rfl
    | true => rw [hclosed hs] at ht; cases ht

theorem isClose_buildFrame (payload : Bytes) (opcode : UInt8) :
    isClose (buildFrame payload opcode true) = ((0x80 ||| opcode) &&& 0x0F == 0x8) := rfl

/-- A frame closes the connection with one frame at most, or leaves it as it is. -/
theorem handle_quiet (h : Quiet s) (hopen : s.closed = false) (f : Frame) :
    Quiet (s.handle f).2 ∧ ((s.handle f).1 = true → (s.handle f).2.closed = false) := by
  have hfail : ∀ code, Quiet (s.failClose code) := fun code => h.closing hopen rfl rfl
  have hsame : ∀ t : WSState, t.sent = s.sent → t.closed = s.closed → Quiet t :=
    fun t hs hc => h.same hs fun hclosed => hc.trans hclosed
  unfold WSState.handle
  split
  · exact ⟨h.closing hopen rfl rfl, nofun⟩
  split
  · exact ⟨h.sending hopen rfl (by rw [isClose_buildFrame]; decide), fun _ => hopen⟩
  split
  · exact ⟨hsame _ rfl rfl, fun _ => hopen⟩
  split
  · split
    · exact ⟨hfail _, nofun⟩
    split
    · exact ⟨hfail _, nofun⟩
    split
    · exact ⟨hsame _ rfl rfl, fun _ => hopen⟩
    · exact ⟨hsame _ rfl rfl, fun _ => hopen⟩
  split
  · exact ⟨hfail _, nofun⟩
  split
  · exact ⟨hsame _ rfl rfl, fun _ => hopen⟩
  · exact ⟨hsame _ rfl rfl, fun _ => hopen⟩

theorem tryParse_quiet (s : WSState) : Quiet s → s.closed = false → Quiet s.tryParse := by
  apply WSState.tryParse_induction (P := fun s t => Quiet s → s.closed = false → Quiet t)
  case wait => exact fun s _ h _ => h
  case fail => exact fun s code _ h hopen => h.closing hopen rfl rfl
  case tooLarge => exact fun s _ h _ => h.same rfl fun _ => rfl
  case full => exact fun s f size _ _ h _ => h.same rfl fun _ => rfl
  case stop =>
    intro s f size _ _ _ h hopen
    exact (handle_quiet h hopen f).1.same rfl id
  case go =>
    intro s f size t _ _ hgo ih h hopen
    have hquiet := handle_quiet h hopen f
    exact ih (hquiet.1.same rfl id) (hquiet.2 hgo)

end Sent

/-! ## Runs -/

section Runs

variable {s t : Session} {e : Occurrence}

/-- What holds of a session whose bytes were all attended. -/
structure Proper (s : Session) : Prop where
  quiet : Quiet s.ws
  late : s.late = []

theorem writeFrame_proper (h : Proper s) (payload : Bytes) {opcode : UInt8}
    (hop : ((0x80 ||| opcode) &&& 0x0F == 0x8) = false) : Proper (s.writeFrame payload opcode) := by
  unfold Session.writeFrame
  split
  · next hopen =>
    have hclosed : s.ws.closed = false := by
      simp only [Session.isOpen, Bool.and_eq_true, Bool.not_eq_true'] at hopen
      exact hopen.1
    exact ⟨h.quiet.sending hclosed rfl hop, h.late⟩
  · exact h

/-- **The step lemma.** -/
theorem step_proper (h : Proper s) (ha : Attended s e) (hs : s.step e = some t) : Proper t := by
  cases e with
  | received data =>
    cases hs
    have hopen : s.ws.closed = false := ha
    refine ⟨tryParse_quiet _ (h.quiet.same rfl id) hopen, ?_⟩
    show s.late ++ _ = []
    rw [h.late, if_neg (by rw [hopen]; simp)]
    rfl
  | send text => cases hs; exact writeFrame_proper h text (by decide)
  | sendBinary data => cases hs; exact writeFrame_proper h data (by decide)
  | ping payload => cases hs; exact writeFrame_proper h payload (by decide)
  | close code =>
    cases hs
    unfold Session.close
    split
    · exact h
    · next hopen => exact ⟨h.quiet.closing (by simpa using hopen) rfl rfl, h.late⟩
  | recv =>
    cases hs
    unfold Session.take
    split
    · exact ⟨h.quiet.same rfl id, h.late⟩
    · exact h
  | cancelled waiting =>
    cases hs
    exact ⟨h.quiet.same rfl fun hc => by rw [hc]; rfl, h.late⟩

theorem init_proper : Proper session.init := ⟨⟨nofun, fun _ => nofun⟩, rfl⟩

/-- **A session is disciplined** as long as no bytes arrive on a closed connection. -/
theorem disciplined_of_attended {es : List Occurrence} (ha : session.Meets Attended es)
    (hrun : session.run es = some s) : Disciplined s := by
  have h : Proper s :=
    session.guarded_induction init_proper (fun _ _ _ h hc hs => step_proper h hc hs) ha hrun
  exact ⟨h.quiet.last, h.late⟩

/-- A ping with the payload "a", under a mask, and then the handler closes. -/
theorem disciplined_of_attended_ping :
    ∃ s, session.run [.received [0x89, 0x81, 1, 2, 3, 4, 0x60], .close 1000] = some s ∧
      Disciplined s := by
  have ha : session.Meets Attended [.received [0x89, 0x81, 1, 2, 3, 4, 0x60], .close 1000] :=
    ⟨rfl, fun _ _ => ⟨trivial, fun _ _ => trivial⟩⟩
  exact ⟨_, rfl, disciplined_of_attended ha rfl⟩

/-- The client answers the Close frame of the handler, and is answered in turn. -/
theorem close_answered_twice :
    ∃ s, session.run [.close 1000, .received [0x88, 0x82, 0, 0, 0, 0, 0x03, 0xE8]] = some s ∧
      s.ws.sent = [[0x88, 2, 0x03, 0xE8], [0x88, 2, 0x03, 0xE8]] ∧ ¬ Disciplined s :=
  ⟨_, rfl, by decide, fun h => absurd (h.1 [0x88, 2, 0x03, 0xE8] (by decide)) (by decide)⟩

end Runs

end Osodio.Ws
