import Osodio.Http.Delivery
import Osodio.Http.Pipelining

/-!
# What a connection writes

The octets of the answers go out one after the other, and at most one error response
behind them, as long as nothing writes over an answer that is partly out: a timer that
expires, too many pipelined bytes, and an `EPOLLOUT` for which there is nothing to
write all do.  A handler that writes to the socket itself must have started a stream.

## Main definitions

- `responses` — the octets of the answers, request by request
- `Intact` — what is out is a prefix of the answers and of one error response
- `Partly`, `Waiting` — an answer is partly out; there is more to write
- `Orderly` — the steps that do not write over an answer
- `Phase` — what a connection is doing between two events of its loop

## Main results

- `step_phase` — an orderly step takes a phase to a phase
- `intact_of_orderly` — every run of orderly steps keeps the stream intact
- `timeout_inside_answer` — a timer that expires while an answer is partly out
-/

namespace Osodio.Http

open Output

/-- The octets of the answers to the requests `d`. -/
def responses (S : Site) (d : List Bytes) : List Bytes :=
  d.mapIdx fun k message => (S.plan k message).octets (S.raw k message)

/-- The text of some `send_error`. -/
def IsError (S : Site) (e : Bytes) : Prop := ∃ code message, e = S.errorText code message

/-- What is out is a prefix of the answers, in the order of their requests, and of one
    error response behind them; and what has octets behind it is a whole answer. -/
def Intact (S : Site) (c : Conn) : Prop :=
  ∃ d e, d <+: c.dispatched ∧ (e = [] ∨ IsError S e) ∧
    c.out.sent <+: (responses S d).flatten ++ e ∧
    ∀ k message, d[k]? = some message → k + 1 < d.length ∨ e ≠ [] → (S.plan k message).Whole

/-- An answer is partly out, or has a file that would follow whatever is written. -/
def Conn.Partly (c : Conn) : Prop :=
  0 < c.out.writeOffset ∨ c.out.file ≠ none ∨ ∃ n ∈ c.running, 0 < c.streamed n

/-- There is more to write. -/
def Conn.Waiting (c : Conn) : Prop := c.out.writeBuf ≠ [] ∨ c.out.file ≠ none

/-- The steps that do not write over an answer. -/
def Orderly (S : Site) (l : Line) : Happening → Prop
  | .read n _ =>
    l.conn.wsOnData = false → (l.conn.inFlight || l.conn.paused) = true →
      kMaxPendingBuf < l.conn.pendingBuf.length + n → ¬ l.conn.Partly
  | .writable _ => l.conn.Waiting
  | .expired _ _ => ¬ l.conn.Partly
  | .raw n _ => S.plan n (l.conn.dispatched.getD n []) = .stream
  | _ => True

/-! ## Answers -/

/-- Each of these requests keeps the connection open. -/
def Kept (S : Site) (d : List Bytes) : Prop := ∀ message ∈ d, S.keepAlive message = true

/-- `Intact`, with what is known of the requests in place of their answers. -/
def Streamed (S : Site) (dispatched : List Bytes) (sent : Bytes) : Prop :=
  ∃ d e, d <+: dispatched ∧ (e = [] ∨ IsError S e) ∧ sent <+: (responses S d).flatten ++ e ∧
    Kept S d.dropLast ∧ (e ≠ [] → Kept S d)

section Answers

variable {S : Site} {d : List Bytes} {message : Bytes}

theorem responses_concat (S : Site) (d : List Bytes) (message : Bytes) :
    (responses S (d ++ [message])).flatten =
      (responses S d).flatten ++ (S.plan d.length message).octets (S.raw d.length message) := by
  rw [responses, List.mapIdx_concat, List.flatten_append, List.flatten_singleton]
  rfl

theorem Kept.dropLast (h : Kept S d) : Kept S d.dropLast :=
  fun m hm => h m (List.dropLast_subset _ hm)

theorem Kept.concat (h : Kept S d) (hm : S.keepAlive message = true) : Kept S (d ++ [message]) := by
  intro m hmem
  rcases List.mem_append.1 hmem with hmem | hmem
  · exact h m hmem
  · rwa [List.mem_singleton.1 hmem]

/-- The answers so far, all of them out. -/
theorem Streamed.of_answers {dispatched : List Bytes} {sent : Bytes} (hd : d <+: dispatched)
    (hs : sent <+: (responses S d).flatten) (hk : Kept S d.dropLast) : Streamed S dispatched sent :=
  ⟨d, [], hd, .inl rfl, by rwa [List.append_nil], hk, fun h => absurd rfl h⟩

theorem Streamed.intact {c : Conn} (h : Streamed S c.dispatched c.out.sent)
    (hwhole : ∀ k message, c.dispatched[k]? = some message → S.keepAlive message = true →
      (S.plan k message).Whole) : Intact S c := by
  obtain ⟨d, e, hd, he, hsent, hkept, hall⟩ := h
  refine ⟨d, e, hd, he, hsent, fun k message hget hlast => ?_⟩
  have hdisp : c.dispatched[k]? = some message := by
    obtain ⟨rest, hrest⟩ := hd
    rw [← hrest, List.getElem?_append_left (List.getElem?_eq_some_iff.1 hget).1, hget]
  apply hwhole k message hdisp
  rcases hlast with hlast | hlast
  · have hget' : d.dropLast[k]? = some message := by
      rw [List.getElem?_dropLast, if_pos (by omega), hget]
    exact hkept message (List.mem_of_getElem? hget')
  · exact hall hlast message (List.mem_of_getElem? hget)

end Answers

/-! ## The phases of a connection -/

/-- The connection is open.  `b` tells whether the parser is calling back; with `p`, the
    parser stands still while a request is with its handler. -/
structure Open (b p : Bool) (c : HttpConnection) : Prop where
  closed : c.closed = false
  inParser : c.inParser = b
  cycle : c.cyclePending = true → b = true ∧ c.inFlight = false
  paused : p = true → c.inFlight = true → c.paused = true
  bounded : c.pendingBuf.length ≤ kMaxPendingBuf
  drained : c.paused = false → c.pendingBuf = []
  fresh : b = true → c.pendingBuf = []

/-- Every request has been answered. -/
structure Quiet (S : Site) (b : Bool) (c : Conn) : Prop where
  isOpen : Open b true c.toHttpConnection
  inFlight : c.inFlight = false
  running : c.running = []
  idle : c.out.Idle
  sent : c.out.sent = (responses S c.dispatched).flatten
  kept : Kept S c.dispatched

/-- The request `message` is with its handler, and nothing of its answer is out but what
    the handler has written to the socket itself. -/
structure Serving (S : Site) (b p : Bool) (d : List Bytes) (message : Bytes) (c : Conn) :
    Prop where
  isOpen : Open b p c.toHttpConnection
  inFlight : c.inFlight = true
  dispatched : c.dispatched = d ++ [message]
  idle : c.out.Idle
  streamed : S.plan d.length message ≠ .stream → c.streamed d.length = 0
  sent : c.out.sent =
    (responses S d).flatten ++ (S.raw d.length message).take (c.streamed d.length)
  kept : Kept S d

/-- The handler of `message` has answered. -/
structure Answering (S : Site) (b p : Bool) (d : List Bytes) (message : Bytes) (c : Conn) :
    Prop where
  isOpen : Open b p c.toHttpConnection
  inFlight : c.inFlight = true
  running : c.running = []
  dispatched : c.dispatched = d ++ [message]
  keepAlive : c.keepAlive = true → S.keepAlive message = true
  kept : Kept S d

/-- The connection is closed. -/
structure Over (S : Site) (c : Conn) : Prop where
  closed : c.closed = true
  cycle : c.cyclePending = false
  streamed : Streamed S c.dispatched c.out.sent

inductive Phase (S : Site) (b p : Bool) (c : Conn) : Prop where
  | quiet (h : Quiet S b c)
  | serving {d : List Bytes} {message : Bytes} (h : Serving S b p d message c)
      (hr : c.running = [d.length])
  | writing {d : List Bytes} {message : Bytes} (h : Answering S b p d message c)
      (hall : c.out.sent ++ c.out.pending = (responses S (d ++ [message])).flatten)
      (huntouched : c.out.writeOffset = 0 → c.out.file = none →
        c.out.sent = (responses S d).flatten)
  | ended (h : Over S c)

section Phase

variable {S : Site} {b b' p p' : Bool} {d : List Bytes} {message : Bytes} {c c' : Conn}

theorem Open.weaken {h : HttpConnection} (ho : Open b true h) : Open b p h :=
  { ho with paused := fun _ => ho.paused rfl }

theorem Open.keep {h : HttpConnection} (ho : Open b p h) (k : Bool) :
    Open b p { h with keepAlive := k } :=
  ⟨ho.closed, ho.inParser, ho.cycle, ho.paused, ho.bounded, ho.drained, ho.fresh⟩

theorem Open.cycle_of_inFlight {h : HttpConnection} (ho : Open b p h) (hf : h.inFlight = true) :
    h.cyclePending = false :=
  Bool.eq_false_iff.2 fun hc => Bool.noConfusion (hf.symm.trans (ho.cycle hc).2)

theorem Open.cycle_false {h : HttpConnection} (ho : Open false p h) : h.cyclePending = false :=
  Bool.eq_false_iff.2 fun hc => nomatch (ho.cycle hc).1

/-- What a phase tells of, apart from the parser. -/
structure Alike (c c' : Conn) : Prop where
  inFlight : c'.inFlight = c.inFlight
  dispatched : c'.dispatched = c.dispatched
  keepAlive : c'.keepAlive = c.keepAlive
  closed : c'.closed = c.closed
  cycle : c'.cyclePending = c.cyclePending
  out : c'.out = c.out
  running : c'.running = c.running
  streamed : c'.streamed = c.streamed

theorem Quiet.alike (h : Quiet S b c) (ha : Alike c c')
    (ho : Open b true c.toHttpConnection → Open b' true c'.toHttpConnection) : Quiet S b' c' where
  isOpen := ho h.isOpen
  inFlight := ha.inFlight.trans h.inFlight
  running := ha.running.trans h.running
  idle := by rw [ha.out]; exact h.idle
  sent := by rw [ha.out, ha.dispatched]; exact h.sent
  kept := by rw [ha.dispatched]; exact h.kept

theorem Over.alike (h : Over S c) (ha : Alike c c') : Over S c' where
  closed := ha.closed.trans h.closed
  cycle := ha.cycle.trans h.cycle
  streamed := by rw [ha.dispatched, ha.out]; exact h.streamed

theorem Phase.alike (h : Phase S b p c) (ha : Alike c c')
    (hq : Open b true c.toHttpConnection → Open b' true c'.toHttpConnection)
    (hp : Open b p c.toHttpConnection → Open b' p' c'.toHttpConnection) : Phase S b' p' c' := by
  cases h with
  | quiet h => exact .quiet (h.alike ha hq)
  | serving h hr =>
    refine .serving ⟨hp h.isOpen, ha.inFlight.trans h.inFlight, ha.dispatched.trans h.dispatched,
      ?_, ?_, ?_, h.kept⟩ (ha.running.trans hr)
    · rw [ha.out]; exact h.idle
    · rw [ha.streamed]; exact h.streamed
    · rw [ha.out, ha.streamed]; exact h.sent
  | writing h hall huntouched =>
    refine .writing ⟨hp h.isOpen, ha.inFlight.trans h.inFlight, ha.running.trans h.running,
      ha.dispatched.trans h.dispatched, ?_, h.kept⟩ ?_ ?_
    · rw [ha.keepAlive]; exact h.keepAlive
    · rw [ha.out]; exact hall
    · rw [ha.out]; exact huntouched
  | ended h => exact .ended (h.alike ha)

theorem Phase.weaken (h : Phase S b true c) : Phase S b p c :=
  h.alike ⟨rfl, rfl, rfl, rfl, rfl, rfl, rfl, rfl⟩ id Open.weaken

/-- In every phase, what is out is as it should be. -/
theorem Phase.streamed (h : Phase S b p c) : Streamed S c.dispatched c.out.sent := by
  cases h with
  | quiet h => exact .of_answers (List.prefix_refl _) (by rw [h.sent]) h.kept.dropLast
  | @serving d message h hr =>
    rw [h.dispatched, h.sent]
    by_cases hp : S.plan d.length message = .stream
    · refine .of_answers (List.prefix_refl _) ?_ (by rw [List.dropLast_concat]; exact h.kept)
      rw [responses_concat, hp]
      exact (List.prefix_append_right_inj _).2 (List.take_prefix _ _)
    · refine .of_answers (List.prefix_append _ _) ?_ h.kept.dropLast
      rw [h.streamed hp, List.take_zero, List.append_nil]
  | writing h hall huntouched =>
    rw [h.dispatched]
    exact .of_answers (List.prefix_refl _) ⟨_, hall⟩ (by rw [List.dropLast_concat]; exact h.kept)
  | ended h => exact h.streamed

theorem Phase.cycle_false (h : Phase S false p c) : c.cyclePending = false := by
  cases h with
  | quiet h => exact h.isOpen.cycle_false
  | serving h hr => exact h.isOpen.cycle_false
  | writing h hall huntouched => exact h.isOpen.cycle_false
  | ended h => exact h.cycle

end Phase

/-! ## Writing -/

section Writing

variable {S : Site} {b p : Bool} {d : List Bytes} {message : Bytes} {c : Conn}
  {finish : Conn → Conn}

@[simp] theorem close_closed (c : Conn) : c.close.closed = true := by
  unfold Conn.close
  split
  · next h => exact h
  · next h => simp [Conn.lift, HttpConnection.close, h]

@[simp] theorem close_dispatched (c : Conn) : c.close.dispatched = c.dispatched := by
  unfold Conn.close
  split
  · rfl
  · next h => simp [Conn.lift, HttpConnection.close, h, HttpConnection.cancelTimeout,
      HttpConnection.cancelHeader, HttpConnection.cancelTimer]

@[simp] theorem close_cyclePending (c : Conn) : c.close.cyclePending = c.cyclePending := by
  unfold Conn.close
  split
  · rfl
  · next h => simp [Conn.lift, HttpConnection.close, h, HttpConnection.cancelTimeout,
      HttpConnection.cancelHeader, HttpConnection.cancelTimer]

@[simp] theorem close_sent (c : Conn) : c.close.out.sent = c.out.sent := by
  unfold Conn.close
  split <;> rfl

theorem close_over (hc : c.cyclePending = false) (hs : Streamed S c.dispatched c.out.sent) :
    Over S c.close where
  closed := close_closed c
  cycle := (close_cyclePending c).trans hc
  streamed := by rwa [close_dispatched, close_sent]

theorem onWriteComplete_closing (hk : c.keepAlive = false) : c.onWriteComplete finish =
    (c.lift fun h => { h.cancelTimeout with inFlight := false }).close :=
  if_pos (by show (!c.keepAlive) = true; rw [hk]; rfl)

theorem onWriteComplete_phase (h : Answering S b p d message c) (hi : c.out.Idle)
    (hs : c.out.sent = (responses S (d ++ [message])).flatten)
    (hfinish : ∀ c, Quiet S false c → Phase S false true (finish c)) :
    Phase S b p (c.onWriteComplete finish) := by
  have hcycle : c.cyclePending = false := h.isOpen.cycle_of_inFlight h.inFlight
  cases hk : c.keepAlive with
  | false =>
    rw [onWriteComplete_closing hk]
    refine .ended (close_over hcycle ?_)
    show Streamed S c.dispatched c.out.sent
    rw [h.dispatched]
    exact .of_answers (List.prefix_refl _) (by rw [hs]) (by rw [List.dropLast_concat]; exact h.kept)
  | true =>
    have hkept : Kept S c.dispatched := by rw [h.dispatched]; exact h.kept.concat (h.keepAlive hk)
    have hsent : c.out.sent = (responses S c.dispatched).flatten := by rw [h.dispatched]; exact hs
    have hopen : ∀ cyclePending, (cyclePending = true → b = true) →
        Open b true { c.cancelTimeout with inFlight := false, cyclePending := cyclePending } :=
      fun _ hc => ⟨h.isOpen.closed, h.isOpen.inParser, fun h => ⟨hc h, rfl⟩, fun _ => nofun,
        h.isOpen.bounded, h.isOpen.drained, h.isOpen.fresh⟩
    unfold Conn.onWriteComplete
    rw [if_neg (by show ¬ (!c.keepAlive) = true; rw [hk]; nofun)]
    cases b with
    | true =>
      rw [if_pos (by exact h.isOpen.inParser)]
      exact .quiet ⟨hopen true fun _ => rfl, rfl, h.running, hi, hsent, hkept⟩
    | false =>
      rw [if_neg (by show ¬ c.inParser = true; rw [h.isOpen.inParser]; nofun)]
      have hquiet : Quiet S false (c.lift fun h => { h.cancelTimeout with inFlight := false }) :=
        ⟨hopen c.cyclePending (by rw [hcycle]; nofun), rfl, h.running, hi, hsent, hkept⟩
      exact (hfinish _ hquiet).weaken

theorem settle_phase (h : Answering S b p d message c) {w : Written}
    (hw : Keeps (responses S (d ++ [message])).flatten w)
    (hu : w.1 = .blocked → w.2.1.writeOffset = 0 → w.2.1.file = none →
      w.2.1.sent = (responses S d).flatten)
    (hfinish : ∀ c, Quiet S false c → Phase S false true (finish c)) :
    Phase S b p (c.settle finish w) := by
  have ha : ∀ (socket : List Outcome) (epollOut : Bool),
      Answering S b p d message { c with out := w.2.1, socket := socket, epollOut := epollOut } :=
    fun _ _ => ⟨h.isOpen, h.inFlight, h.running, h.dispatched, h.keepAlive, h.kept⟩
  unfold Conn.settle
  cases hend : w.1 with
  | blocked => exact .writing (ha _ _) (hw.conserved (by rw [hend]; nofun)) (hu hend)
  | finished => exact onWriteComplete_phase (ha _ _) (hw.idle hend) (hw.sent_eq hend) hfinish
  | failed =>
    refine .ended (close_over (h.isOpen.cycle_of_inFlight h.inFlight) ?_)
    show Streamed S c.dispatched w.2.1.sent
    rw [h.dispatched]
    exact .of_answers (List.prefix_refl _) hw.within (by rw [List.dropLast_concat]; exact h.kept)

theorem sendResponse_phase {data : Bytes} (h : Answering S b p d message c)
    (hbuf : c.out.writeBuf = []) (hs : c.out.sent = (responses S d).flatten)
    (hdata : data ++ c.out.filePending =
      (S.plan d.length message).octets (S.raw d.length message))
    (hfinish : ∀ c, Quiet S false c → Phase S false true (finish c)) :
    Phase S b p (c.sendResponse finish data) := by
  unfold Conn.sendResponse
  rw [if_neg (by rw [h.isOpen.closed]; nofun)]
  split
  · refine .ended (close_over (h.isOpen.cycle_of_inFlight h.inFlight) ?_)
    show Streamed S c.dispatched c.out.sent
    rw [h.dispatched, hs]
    exact .of_answers (List.prefix_append _ _) (List.prefix_refl _) h.kept.dropLast
  · refine settle_phase h (sendData_keeps hbuf ?_) (fun hb ho hf => ?_) hfinish
    · rw [hs, hdata, responses_concat]
    · rw [sendData_untouched hb ho hf, hs]

/-- **A handler answers.** -/
theorem finishDispatch_phase (h : Serving S b p d message c) (hr : c.running = [])
    (hfinish : ∀ c, Quiet S false c → Phase S false true (finish c)) :
    Phase S b p (c.finishDispatch S finish d.length message) := by
  have ha : ∀ k, (k = true → S.keepAlive message = true) →
      Answering S b p d message (c.keep k) :=
    fun k hk => ⟨h.isOpen.keep k, h.inFlight, hr, h.dispatched, hk, h.kept⟩
  have hsent : S.plan d.length message ≠ .stream → c.out.sent = (responses S d).flatten := by
    intro hp
    rw [h.sent, h.streamed hp, List.take_zero, List.append_nil]
  have hnone : c.out.filePending = [] := by rw [filePending, h.idle.2]
  unfold Conn.finishDispatch
  cases hp : S.plan d.length message with
  | stream =>
    refine .ended (close_over (h.isOpen.cycle_of_inFlight h.inFlight) ?_)
    show Streamed S c.dispatched c.out.sent
    rw [h.dispatched, h.sent]
    refine .of_answers (List.prefix_refl _) ?_ (by rw [List.dropLast_concat]; exact h.kept)
    rw [responses_concat, hp]
    exact (List.prefix_append_right_inj _).2 (List.take_prefix _ _)
  | unopened data =>
    refine sendResponse_phase (ha false (by simp)) h.idle.1 (hsent (by rw [hp]; simp)) ?_ hfinish
    show data ++ c.out.filePending = _
    rw [hnone, hp, List.append_nil]
    rfl
  | whole data =>
    refine sendResponse_phase (ha _ id) h.idle.1 (hsent (by rw [hp]; simp)) ?_ hfinish
    show data ++ c.out.filePending = _
    rw [hnone, hp, List.append_nil]
    rfl
  | file head content size =>
    have hk := ha _ id
    have hfile : ∀ out, Answering S b p d message { c.keep (S.keepAlive message) with out := out } :=
      fun _ => ⟨hk.isOpen, hk.inFlight, hk.running, hk.dispatched, hk.keepAlive, hk.kept⟩
    refine sendResponse_phase (hfile _) h.idle.1 (hsent (by rw [hp]; simp)) ?_ hfinish
    rw [hp]
    rfl

/-- An error response behind whole answers. -/
theorem sendError_over {code : ℤ} {text : String} (hc : c.closed = false)
    (hcycle : c.cyclePending = false) (hf : c.out.file = none) (hd : d <+: c.dispatched)
    (hk : Kept S d) (hs : c.out.sent = (responses S d).flatten) :
    Over S (c.sendError S code text).close := by
  have hplain : Streamed S c.dispatched c.out.sent :=
    .of_answers hd (by rw [hs]) hk.dropLast
  have herror : Streamed S c.dispatched
      (c.out.sendData (S.errorText code text) c.socket).2.1.sent :=
    ⟨d, _, hd, .inr ⟨code, text, rfl⟩, by rw [← hs]; exact sendData_within hf, hk.dropLast,
      fun _ => hk⟩
  unfold Conn.sendError Conn.sendResponse
  rw [if_neg (by show ¬ c.closed = true; rw [hc]; nofun)]
  split
  · refine close_over ?_ ?_
    · rw [close_cyclePending]
      exact hcycle
    · rw [close_dispatched, close_sent]
      exact hplain
  · unfold Conn.settle
    cases hend : ((c.keep false).out.sendData (S.errorText code text) (c.keep false).socket).1 with
    | blocked => exact close_over hcycle herror
    | finished =>
      refine close_over ?_ ?_
      · dsimp only
        rw [onWriteComplete_closing rfl, close_cyclePending]
        exact hcycle
      · dsimp only
        rw [onWriteComplete_closing rfl, close_dispatched, close_sent]
        exact herror
    | failed =>
      refine close_over ?_ ?_
      · rw [close_cyclePending]
        exact hcycle
      · rw [close_dispatched, close_sent]
        exact herror

/-- A connection of which no answer is partly out. -/
theorem Phase.sendError_over {code : ℤ} {text : String} (h : Phase S false p c)
    (hc : c.closed = false) (hp : ¬ c.Partly) : Over S (c.sendError S code text).close := by
  have hcycle := h.cycle_false
  cases h with
  | quiet h => exact Http.sendError_over hc hcycle h.idle.2 (List.prefix_refl _) h.kept h.sent
  | @serving d message h hr =>
    have hzero : c.streamed d.length = 0 := by
      by_contra hne
      exact hp (.inr (.inr ⟨d.length, by rw [hr]; exact List.mem_singleton_self _, by omega⟩))
    refine Http.sendError_over hc hcycle h.idle.2 ?_ h.kept ?_
    · rw [h.dispatched]
      exact List.prefix_append _ _
    · rw [h.sent, hzero, List.take_zero, List.append_nil]
  | writing h hall huntouched =>
    have hfile : c.out.file = none := by
      by_contra hne
      exact hp (.inr (.inl hne))
    have hoffset : c.out.writeOffset = 0 := by
      by_contra hne
      exact hp (.inl (by omega))
    refine Http.sendError_over hc hcycle hfile ?_ h.kept (huntouched hoffset hfile)
    rw [h.dispatched]
    exact List.prefix_append _ _
  | ended h => exact absurd h.closed (by rw [hc]; nofun)

end Writing

/-! ## The request cycle -/

section Cycle

variable {S : Site} {b p : Bool} {message buf : Bytes} {c : Conn} {finish : Conn → Conn}

theorem execute_rest_length {V : Server} {acc buf message rest : Bytes}
    (h : V.execute acc buf = .paused message rest) : rest.length ≤ buf.length := by
  induction buf generalizing acc with
  | nil => cases h
  | cons x xs ih =>
    rw [Server.execute] at h
    split at h
    · exact (ih h).trans (Nat.le_succ _)
    · cases h
      exact Nat.le_succ _
    · cases h

theorem dispatch_phase (h : Quiet S b c) (hcycle : c.cyclePending = false)
    (hfinish : ∀ c, Quiet S false c → Phase S false true (finish c)) :
    Phase S b false (c.dispatch S finish message) := by
  have hopen : Open b false
      { c.toHttpConnection with
        inFlight := true, dispatched := c.dispatched ++ [message] }.cancelHeader.armTimeout :=
    ⟨h.isOpen.closed, h.isOpen.inParser,
      fun hc => Bool.noConfusion (hcycle.symm.trans hc), nofun, h.isOpen.bounded, h.isOpen.drained,
      h.isOpen.fresh⟩
  have hzero : ∀ f : ℕ → ℕ, Function.update f c.dispatched.length 0 c.dispatched.length = 0 :=
    fun f => Function.update_self _ _ _
  have hsent : c.out.sent = (responses S c.dispatched).flatten ++
      (S.raw c.dispatched.length message).take
        (Function.update c.streamed c.dispatched.length 0 c.dispatched.length) := by
    rw [hzero, List.take_zero, List.append_nil]
    exact h.sent
  unfold Conn.dispatch
  dsimp only
  split
  · exact finishDispatch_phase
      ⟨hopen, rfl, rfl, h.idle, fun _ => hzero _, hsent, h.kept⟩ h.running hfinish
  · refine .serving ⟨hopen, rfl, rfl, h.idle, fun _ => hzero _, hsent, h.kept⟩ ?_
    show c.running ++ [c.dispatched.length] = [c.dispatched.length]
    rw [h.running]
    rfl

/-- The parser stands still once its callback has returned. -/
theorem Phase.pause (h : Phase S b p c) (n : ℕ) :
    Phase S b true (c.lift fun h => { h with paused := true, unconsumed := n }) :=
  h.alike ⟨rfl, rfl, rfl, rfl, rfl, rfl, rfl, rfl⟩
    (fun ho => ⟨ho.closed, ho.inParser, ho.cycle, fun _ _ => rfl, ho.bounded, nofun, ho.fresh⟩)
    (fun ho => ⟨ho.closed, ho.inParser, ho.cycle, fun _ _ => rfl, ho.bounded, nofun, ho.fresh⟩)

/-- Bytes wait for a parser that stands still. -/
theorem Phase.pend (h : Phase S false true c) (hp : c.paused = true)
    (hbuf : buf.length ≤ kMaxPendingBuf) :
    Phase S false true (c.lift fun h => { h with pendingBuf := buf }) := by
  have hopen : Open false true c.toHttpConnection →
      Open false true { c.toHttpConnection with pendingBuf := buf } :=
    fun ho => ⟨ho.closed, ho.inParser, ho.cycle, ho.paused, hbuf,
      fun hq => Bool.noConfusion (hp.symm.trans hq), nofun⟩
  exact h.alike ⟨rfl, rfl, rfl, rfl, rfl, rfl, rfl, rfl⟩ hopen hopen

theorem Phase.save {f : HttpConnection → Bytes} (h : Phase S false true c)
    (hbuf : (f c.toHttpConnection).length ≤ kMaxPendingBuf) :
    Phase S false true
      (if c.paused && c.unconsumed > 0 then c.lift fun h => { h with pendingBuf := f h } else c) := by
  split
  · next hp => exact h.pend (by simp_all) hbuf
  · exact h

/-- What one buffer leaves never overflows the other. -/
theorem not_overflowing (h : c.unconsumed ≤ kMaxPendingBuf) :
    ¬ (c.paused && c.unconsumed > kMaxPendingBuf) = true := by
  intro hover
  have hlong : c.paused = true ∧ kMaxPendingBuf < c.unconsumed := by simpa using hover
  omega

theorem feed_phase (buf : Bytes) (h : Quiet S b c) (hcycle : c.cyclePending = false)
    (hfinish : ∀ c, Quiet S false c → Phase S false true (finish c)) :
    ((c.feed S finish buf).1 = false → (c.feed S finish buf).2 = c) ∧
      ((c.feed S finish buf).1 = true → Phase S b true (c.feed S finish buf).2 ∧
        (c.feed S finish buf).2.unconsumed ≤ buf.length) := by
  have hquiet : ∀ partialMsg n, Quiet S b
      (c.lift fun h => { h with partialMsg := partialMsg, unconsumed := n }) := fun _ _ =>
    h.alike ⟨rfl, rfl, rfl, rfl, rfl, rfl, rfl, rfl⟩ fun ho =>
      ⟨ho.closed, ho.inParser, ho.cycle, ho.paused, ho.bounded, ho.drained, ho.fresh⟩
  unfold Conn.feed
  split
  · exact ⟨nofun, fun _ => ⟨.quiet (hquiet c.partialMsg 0), Nat.zero_le _⟩⟩
  · split
    · exact ⟨nofun, fun _ => ⟨.quiet (hquiet _ 0), Nat.zero_le _⟩⟩
    · exact ⟨fun _ => rfl, nofun⟩
    · next message rest hexec =>
      have hd : Phase S b false
          ((c.lift fun h => { h with partialMsg := [] }).dispatch S finish message) :=
        dispatch_phase (hquiet [] c.unconsumed) hcycle hfinish
      exact ⟨nofun, fun _ => ⟨hd.pause _, execute_rest_length hexec⟩⟩

theorem refuse_over (h : Quiet S false c) : Over S (c.refuse S buf) := by
  have herror : ∀ code text, Over S (c.sendError S code text).close := fun _ _ =>
    Http.sendError_over h.isOpen.closed h.isOpen.cycle_false h.idle.2 (List.prefix_refl _) h.kept
      h.sent
  unfold Conn.refuse
  split <;> exact herror _ _

theorem rearm_phase (h : Phase S false true c) : Phase S false true c.rearm :=
  h.alike ⟨rfl, rfl, rfl, rfl, rfl, rfl, rfl, rfl⟩
    (fun ho => ⟨ho.closed, ho.inParser, ho.cycle, ho.paused, ho.bounded, ho.drained, ho.fresh⟩)
    (fun ho => ⟨ho.closed, ho.inParser, ho.cycle, ho.paused, ho.bounded, ho.drained, ho.fresh⟩)

/-- The cycle ends here, unless the replayed request is still with its handler. -/
theorem Phase.awaited (h : Phase S false true c) :
    Phase S false true (if c.inFlight then c else c.rearm) := by
  split
  · exact h
  · exact rearm_phase h

/-- **The end of a cycle**, however deep `finish_cycle` is nested in its own `feed`. -/
theorem finishCycle_phase (S : Site) (depth : ℕ) :
    ∀ c, Quiet S false c → Phase S false true (Conn.finishCycle S depth c) := by
  induction depth with
  | zero => exact fun c h => .quiet h
  | succ depth ih =>
    intro c h
    have hbound : (c.lift .resume).pendingBuf.length ≤ kMaxPendingBuf := h.isOpen.bounded
    have hopen : ∀ {buf : Bytes}, buf = [] →
        Open false true { c.toHttpConnection.resume with pendingBuf := buf } := fun hb =>
      ⟨h.isOpen.closed, h.isOpen.inParser, h.isOpen.cycle,
        fun _ hf => Bool.noConfusion (h.inFlight.symm.trans hf), by rw [hb]; exact Nat.zero_le _,
        fun _ => hb, nofun⟩
    rw [Conn.finishCycle]
    dsimp only
    generalize hbuf : (c.lift .resume).pendingBuf = buf at hbound ⊢
    have hquiet : Quiet S false ((c.lift .resume).lift fun h => { h with pendingBuf := [] }) :=
      h.alike ⟨rfl, rfl, rfl, rfl, rfl, rfl, rfl, rfl⟩ fun _ => hopen rfl
    split
    · next hnil =>
      subst hnil
      exact rearm_phase (.quiet (h.alike ⟨rfl, rfl, rfl, rfl, rfl, rfl, rfl, rfl⟩
        fun _ => hopen hbuf))
    · obtain ⟨hfail, hok⟩ := feed_phase buf hquiet h.isOpen.cycle_false ih
      split
      · next hno =>
        rw [hfail (by simpa using hno)]
        exact .ended (refuse_over hquiet)
      · next hyes =>
        obtain ⟨hphase, hun⟩ := hok (by simpa using hyes)
        generalize (Conn.feed S _ buf _).2 = fed at hphase hun ⊢
        rw [if_neg (not_overflowing (hun.trans hbound))]
        exact (hphase.save (by rw [List.length_drop]; omega)).awaited

/-- The parser has returned to `do_read`, and a cycle that ended meanwhile is closed. -/
theorem Phase.leave {buf : Bytes} (h : Phase S true true c)
    (hbuf : c.pendingBuf = [] → buf.length ≤ kMaxPendingBuf)
    (hdrained : c.paused = false → c.pendingBuf = [] → buf = []) :
    let c' := c.lift fun h => { h with inParser := false, pendingBuf := buf }
    Phase S false true
      (if c'.cyclePending then
        Conn.finishCycle S 2 (c'.lift fun h => { h with cyclePending := false })
      else c') := by
  intro c'
  have hopen : ∀ cyclePending, cyclePending = false → Open true true c.toHttpConnection →
      Open false true { c'.toHttpConnection with cyclePending := cyclePending } :=
    fun _ hcyc ho => ⟨ho.closed, rfl, fun h => Bool.noConfusion (hcyc.symm.trans h), ho.paused,
      hbuf (ho.fresh rfl), fun hp => hdrained hp (ho.fresh rfl), nofun⟩
  split
  · next hcyc =>
    have hnone : c.cyclePending ≠ false := fun h => Bool.noConfusion (h.symm.trans hcyc)
    cases h with
    | quiet h =>
      exact finishCycle_phase S 2 _
        ⟨hopen false rfl h.isOpen, h.inFlight, h.running, h.idle, h.sent, h.kept⟩
    | serving h hr => exact absurd (h.isOpen.cycle_of_inFlight h.inFlight) hnone
    | writing h hall huntouched => exact absurd (h.isOpen.cycle_of_inFlight h.inFlight) hnone
    | ended h => exact absurd h.cycle hnone
  · next hcyc =>
    have hcyc : c.cyclePending = false := Bool.eq_false_iff.2 hcyc
    exact h.alike ⟨rfl, rfl, rfl, rfl, rfl, rfl, rfl, rfl⟩ (hopen _ hcyc) (hopen _ hcyc)

/-- `EPOLLIN`. -/
theorem doRead_phase {chunk : Bytes} (h : Phase S false true c) (hc : c.closed = false)
    (hsize : chunk.length ≤ kReadSize)
    (hover : c.wsOnData = false → (c.inFlight || c.paused) = true →
      kMaxPendingBuf < c.pendingBuf.length + chunk.length → ¬ c.Partly) :
    Phase S false true (c.doRead S chunk) := by
  unfold Conn.doRead
  split
  · exact h
  next hws =>
  split
  · next hbusy =>
    split
    · next hlong => exact .ended (h.sendError_over hc (hover (by simpa using hws) hbusy hlong))
    · next hlong =>
      refine h.pend ?_ (by rw [List.length_append]; omega)
      cases h with
      | quiet h => simpa [h.inFlight] using hbusy
      | serving h hr => exact h.isOpen.paused rfl h.inFlight
      | writing h hall huntouched => exact h.isOpen.paused rfl h.inFlight
      | ended h => exact absurd h.closed (by rw [hc]; nofun)
  · next hbusy =>
    have hfree : c.inFlight = false ∧ c.paused = false := by simpa using hbusy
    have hq : Quiet S false c := by
      cases h with
      | quiet h => exact h
      | serving h hr => exact absurd h.inFlight (by rw [hfree.1]; nofun)
      | writing h hall huntouched => exact absurd h.inFlight (by rw [hfree.1]; nofun)
      | ended h => exact absurd h.closed (by rw [hc]; nofun)
    have hcycle := hq.isOpen.cycle_false
    have hin : Quiet S true (c.lift fun h => { h with inParser := true }) :=
      hq.alike ⟨rfl, rfl, rfl, rfl, rfl, rfl, rfl, rfl⟩ fun ho =>
        ⟨ho.closed, rfl, fun hp => ⟨rfl, hfree.1⟩, ho.paused, ho.bounded, ho.drained,
          fun _ => ho.drained hfree.2⟩
    obtain ⟨hfail, hok⟩ := feed_phase chunk hin hcycle (finishCycle_phase S 2)
    dsimp only
    split
    · next hno =>
      rw [hfail (by simpa using hno)]
      refine .ended (refuse_over (hq.alike ⟨rfl, rfl, rfl, rfl, rfl, rfl, rfl, rfl⟩ fun ho =>
        ⟨ho.closed, rfl, ho.cycle, ho.paused, ho.bounded, ho.drained, nofun⟩))
    · next hyes =>
      obtain ⟨hphase, hun⟩ := hok (by simpa using hyes)
      have hlong : kReadSize ≤ kMaxPendingBuf := by decide
      generalize (Conn.feed S _ chunk _).2 = fed at hphase hun ⊢
      rw [if_neg (not_overflowing (c := fed.lift _) (by exact (hun.trans hsize).trans hlong))]
      split
      · next hp =>
        have hpaused : fed.paused = true := by simp_all [Conn.lift]
        refine hphase.leave (fun hnil => ?_) fun hq => Bool.noConfusion (hpaused.symm.trans hq)
        show (fed.pendingBuf ++ _).length ≤ _
        rw [hnil, List.nil_append, List.length_drop]
        omega
      · next hp => exact hphase.leave (fun hnil => by rw [hnil]; exact Nat.zero_le _) fun _ => id

end Cycle

/-! ## Runs -/

section Runs

variable {S : Site} {p : Bool} {c : Conn} {l l' : Line}

theorem doWrite_phase (h : Phase S false true c) (hc : c.closed = false) (hw : c.Waiting) :
    Phase S false true (c.doWrite (Conn.finishCycle S 2)) := by
  have hbusy : ¬ c.out.Idle := fun hi => hw.elim (absurd hi.1) (absurd hi.2)
  cases h with
  | quiet h => exact absurd h.idle hbusy
  | serving h hr => exact absurd h.idle hbusy
  | writing h hall huntouched =>
    refine settle_phase h (write_keeps hall) (fun hb ho hf => ?_) (finishCycle_phase S 2)
    obtain ⟨hoffset, hfile, hsent⟩ := write_untouched hb ho hf
    rw [hsent, huntouched hoffset hfile]
  | ended h => exact absurd h.closed (by rw [hc]; nofun)

theorem Over.finishDispatch (h : Over S c) (finish : Conn → Conn) (n : ℕ) (message : Bytes) :
    Over S (c.finishDispatch S finish n message) := by
  have hclose : ∀ c', Over S c' → Over S c'.close := fun c' h => by
    rwa [Conn.close, if_pos h.closed]
  have hsend : ∀ c' data, Over S c' → Over S (c'.sendResponse finish data) := fun c' _ h => by
    rwa [Conn.sendResponse, if_pos h.closed]
  unfold Conn.finishDispatch
  split
  · exact hclose _ ⟨h.closed, h.cycle, h.streamed⟩
  · exact hsend _ _ ⟨h.closed, h.cycle, h.streamed⟩
  · exact hsend _ _ ⟨h.closed, h.cycle, h.streamed⟩
  · exact hsend _ _ ⟨h.closed, h.cycle, h.streamed⟩

theorem answer_phase {n : ℕ} (h : Phase S false true c) (hn : n ∈ c.running) :
    Phase S false true (c.answer S n) := by
  unfold Conn.answer
  cases h with
  | quiet h => rw [h.running] at hn; cases hn
  | @serving d message h hr =>
    rw [hr, List.mem_singleton] at hn
    subst hn
    have hmessage : c.dispatched.getD d.length [] = message := by
      rw [h.dispatched, List.getD_eq_getElem?_getD, List.getElem?_concat_length]
      rfl
    rw [hmessage]
    refine finishDispatch_phase
      ⟨h.isOpen, h.inFlight, h.dispatched, h.idle, h.streamed, h.sent, h.kept⟩ ?_
      (finishCycle_phase S 2)
    show c.running.erase d.length = []
    rw [hr, List.erase_cons_head]
  | writing h hall huntouched => rw [h.running] at hn; cases hn
  | ended h =>
    have hrunning : Over S { c with running := c.running.erase n } :=
      ⟨h.closed, h.cycle, h.streamed⟩
    exact .ended (hrunning.finishDispatch _ _ _)

theorem writeRaw_phase {n k : ℕ} (h : Phase S false true c) (hn : n ∈ c.running)
    (hstream : S.plan n (c.dispatched.getD n []) = .stream) :
    Phase S false true (c.writeRaw S n k) := by
  unfold Conn.writeRaw
  dsimp only
  cases h with
  | quiet h => rw [h.running] at hn; cases hn
  | @serving d message h hr =>
    rw [hr, List.mem_singleton] at hn
    subst hn
    have hmessage : c.dispatched.getD d.length [] = message := by
      rw [h.dispatched, List.getD_eq_getElem?_getD, List.getElem?_concat_length]
      rfl
    rw [hmessage] at hstream ⊢
    rw [if_neg (by rw [h.isOpen.closed]; nofun)]
    refine .serving ⟨h.isOpen, h.inFlight, h.dispatched, h.idle, fun hp => absurd hstream hp, ?_,
      h.kept⟩ hr
    show c.out.sent ++ ((S.raw d.length message).drop (c.streamed d.length)).take k =
      (responses S d).flatten ++ (S.raw d.length message).take
        (Function.update c.streamed d.length (c.streamed d.length + k) d.length)
    rw [Function.update_self, h.sent, List.append_assoc, ← List.take_add]
  | writing h hall huntouched => rw [h.running] at hn; cases hn
  | ended h =>
    rw [if_pos h.closed]
    exact .ended h

theorem expire_phase {tfd : ℕ} {kind : TimerKind} (h : Phase S false true c) (hp : ¬ c.Partly) :
    Phase S false true (c.expire S tfd kind) := by
  have hphase : ∀ timers headerTfd timeoutTfd, Phase S false true
      (c.lift fun h => { h with
        timers := timers, headerTfd := headerTfd, timeoutTfd := timeoutTfd }) := fun _ _ _ =>
    h.alike ⟨rfl, rfl, rfl, rfl, rfl, rfl, rfl, rfl⟩
      (fun ho => ⟨ho.closed, ho.inParser, ho.cycle, ho.paused, ho.bounded, ho.drained, ho.fresh⟩)
      (fun ho => ⟨ho.closed, ho.inParser, ho.cycle, ho.paused, ho.bounded, ho.drained, ho.fresh⟩)
  unfold Conn.expire
  dsimp only
  split
  · exact hphase _ c.headerTfd c.timeoutTfd
  · next hc =>
    have hc : c.closed = false := by simpa [Conn.lift] using hc
    cases kind with
    | header => exact .ended (Phase.sendError_over (hphase _ none c.timeoutTfd) hc hp)
    | request => exact .ended (Phase.sendError_over (hphase _ c.headerTfd none) hc hp)

/-- **The step lemma.** -/
theorem step_phase {e : Happening} (h : Phase S false true l.conn) (ho : Orderly S l e)
    (hs : l.step S e = some l') : Phase S false true l'.conn := by
  have hfacing : ∀ socket wsOnData, Phase S false true
      { l.conn.facing socket with wsOnData := wsOnData } := fun _ _ =>
    h.alike ⟨rfl, rfl, rfl, rfl, rfl, rfl, rfl, rfl⟩ id id
  unfold Line.step at hs
  cases e with
  | read n socket =>
    obtain ⟨⟨hc, -, hn, hlen⟩, hl⟩ := Option.ite_none_right_eq_some.1 hs
    cases hl
    have htake : (l.unread.take n).length = n := by rw [List.length_take]; omega
    refine doRead_phase (hfacing socket l.conn.wsOnData) hc (by rw [htake]; exact hn) ?_
    rw [htake]
    exact ho
  | writable socket =>
    obtain ⟨⟨hc, -⟩, hl⟩ := Option.ite_none_right_eq_some.1 hs
    cases hl
    exact doWrite_phase (hfacing socket l.conn.wsOnData) hc ho
  | hangUp =>
    cases hs
    exact .ended (close_over h.cycle_false h.streamed)
  | answered n socket =>
    obtain ⟨hn, hl⟩ := Option.ite_none_right_eq_some.1 hs
    cases hl
    exact answer_phase (hfacing socket l.conn.wsOnData) hn
  | raw n k =>
    obtain ⟨hn, hl⟩ := Option.ite_none_right_eq_some.1 hs
    cases hl
    exact writeRaw_phase h hn ho
  | upgraded n =>
    obtain ⟨-, hl⟩ := Option.ite_none_right_eq_some.1 hs
    cases hl
    exact hfacing l.conn.socket true
  | expired tfd socket =>
    dsimp only at hs
    split at hs
    · cases hs
      exact expire_phase (hfacing socket l.conn.wsOnData) ho
    · cases hs

theorem init_phase (S : Site) (input : Bytes) : Phase S false true (delivery S input).init.conn :=
  .quiet ⟨⟨rfl, rfl, nofun, nofun, Nat.zero_le _, fun _ => rfl, nofun⟩, rfl, rfl, ⟨rfl, rfl⟩, rfl,
    nofun⟩

/-- **The stream of answers** stays intact along every run of orderly steps, where no file
    is shorter than announced behind which the connection stays open. -/
theorem intact_of_orderly (S : Site) (input : Bytes) {es : List Happening}
    (ho : (delivery S input).Meets (Orderly S) es) (hrun : (delivery S input).run es = some l)
    (hwhole : ∀ k message, l.conn.dispatched[k]? = some message → S.keepAlive message = true →
      (S.plan k message).Whole) : Intact S l.conn := by
  have hphase : Phase S false true l.conn :=
    @Lib.System.guarded_induction _ _ (delivery S input) (fun l => Phase S false true l.conn) _
      (init_phase S input) (fun _ _ _ h hc hs => step_phase h hc hs) _ _ ho hrun
  exact hphase.streamed.intact hwhole

end Runs

/-! ## An answer that the socket takes in two pieces -/

theorem build_starts (r : Response) (fields : List (Bytes × Bytes)) :
    ascii "HTTP/1.1 " <+: r.build fields := by
  rw [Response.build, Response.headLines, List.flatMap_cons]
  exact ⟨_, by simp only [List.append_assoc]; rfl⟩

def hello : Response :=
  (({} : Response).text (ascii "hello")).header (ascii "Connection") (ascii "keep-alive")

/-- Every request is answered at once, with the same text. -/
def helloSite : Site where
  toServer := bodyless fun _ => true
  walk := walkAsAdded
  plan _ _ := .whole (hello.build hello.headers)
  raw _ _ := []
  bodyTooLarge _ := false

theorem helloSite_intact :
    ∃ l, (delivery helloSite getRoot).run [.read 18 [.sent 4], .writable [.sent 1000]] = some l ∧
      Intact helloSite l.conn := by
  obtain ⟨l, hl⟩ := Option.isSome_iff_exists.1 (show ((delivery helloSite getRoot).run
    [.read 18 [.sent 4], .writable [.sent 1000]]).isSome = true by decide +kernel)
  have hbuf : ((delivery helloSite getRoot).step (delivery helloSite getRoot).init
      (.read 18 [.sent 4])).map (·.conn.out.writeBuf) = some (hello.build hello.headers) := by
    decide +kernel
  have hmeets : (delivery helloSite getRoot).Meets (Orderly helloSite)
      [.read 18 [.sent 4], .writable [.sent 1000]] := by
    refine ⟨fun _ hbusy => Bool.noConfusion hbusy, fun t ht => ?_⟩
    rw [ht] at hbuf
    refine ⟨.inl fun hnil => ?_, fun _ _ => trivial⟩
    exact absurd ((Option.some.inj hbuf).symm.trans hnil) (by decide +kernel)
  exact ⟨l, hl, intact_of_orderly helloSite getRoot hmeets hl fun _ _ _ _ => trivial⟩

/-- A timer expires when five octets of the answer are out: the text of the error follows
    them. -/
theorem timeout_inside_answer :
    ∃ l, (delivery helloSite getRoot).run [.read 18 [.sent 4], .expired 1 [.sent 1000]] = some l ∧
      ¬ Intact helloSite l.conn := by
  have hrun : ((delivery helloSite getRoot).run [.read 18 [.sent 4], .expired 1 [.sent 1000]]).map
      (fun l => (l.conn.dispatched, l.conn.out.sent)) =
        some ([getRoot], ascii "HTTP/" ++ helloSite.errorText 408 "Request Timeout") := by
    decide +kernel
  obtain ⟨l, hl, hconn⟩ := Option.map_eq_some_iff.1 hrun
  obtain ⟨hdispatched, hsent⟩ := Prod.mk.inj hconn
  refine ⟨l, hl, fun ⟨d, e, hd, he, hprefix, _⟩ => ?_⟩
  rw [hsent] at hprefix
  rw [hdispatched] at hd
  have hspliced : ascii "HTTP/H" <+: (responses helloSite d).flatten ++ e :=
    List.IsPrefix.trans (by decide +kernel) hprefix
  have hwrong : ∀ {text : Bytes}, ascii "HTTP/H" <+: text → ¬ ascii "HTTP/1.1 " <+: text :=
    fun h h' => absurd (List.prefix_of_prefix_length_le h h' (by decide)) (by decide)
  rcases List.prefix_concat_iff.1 (show d <+: [] ++ [getRoot] from hd) with rfl | hd
  · refine hwrong hspliced ((build_starts hello hello.headers).trans ?_)
    exact List.prefix_append _ _
  · obtain rfl := List.prefix_nil.1 hd
    rcases he with rfl | ⟨code, message, rfl⟩
    · exact absurd (List.prefix_nil.1 hspliced) (by decide)
    · exact hwrong hspliced (build_starts _ _)

end Osodio.Http
