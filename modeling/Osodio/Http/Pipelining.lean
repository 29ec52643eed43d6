import Osodio.Http.Connection

/-!
# Pipelined requests on one connection

Between two events a connection that keeps its cycle is in one of two shapes:
idle, with one header timer armed and nothing buffered, or busy with one
request.  `finish_cycle` replays the buffered bytes outside `in_parser_`, so a
request that is complete in the buffer and answered at once closes its cycle
under a pause that does not exist yet, and the connection stays paused.

## Main definitions

- `IsRequest` — one whole keep-alive request
- `Served` — what pipelining promises of a state between two events
- `ReplaysLate` — a step that replays no request whose handler answers at once

## Main results

- `finishCycle_late`, `finishCycle_stuck` — the two ends of a replay
- `served_iff_replaysLate` — a run keeps the promise in all its states if and
  only if all its steps replay late
-/

namespace Osodio.Http

open HttpConnection

/-- `r` is one whole keep-alive request: llhttp completes a message at its last
    byte and not before. -/
structure IsRequest (S : Server) (r : Bytes) : Prop where
  nonempty : r ≠ []
  complete : S.verdict r = .complete
  incomplete : ∀ p, p <+: r → p ≠ [] → p ≠ r → S.verdict p = .incomplete
  keepAlive : S.keepAlive r = true

/-- The header timers armed on the event loop. -/
def HttpConnection.headerTimers (c : HttpConnection) : List ℕ :=
  (c.timers.filter fun t => t.2 = .header).map Prod.fst

/-- What pipelining promises of a connection between two events, for a client
    that sends the requests `rs`. -/
structure Served (S : Server) (rs : List Bytes) (w : World) : Prop where
  inOrder : w.conn.dispatched <+: rs
  notPaused : w.conn.closed = false → w.conn.inFlight = false → w.conn.paused = false
  nothingPending : w.conn.closed = false → w.conn.inFlight = false →
    ∀ message rest, S.execute w.conn.partialMsg w.conn.pendingBuf ≠ .paused message rest
  oneTimer : w.conn.closed = false → w.conn.inFlight = false →
    w.conn.headerTimers.length ≤ 1 ∧ ∀ t ∈ w.conn.headerTimers, w.conn.headerTfd = some t
  allDispatched : w.conn.closed = false → w.conn.inFlight = false → w.unread = [] →
    w.conn.dispatched = rs
  staysOpen : w.conn.closed = true → w.timedOut = true

/-- A replay of `buf` ends a message whose handler, the `n`-th, answers at once. -/
def replaysAtOnce (S : Server) (buf : Bytes) (n : ℕ) : Bool :=
  match S.execute [] buf with
  | .paused _ _ => S.answersAtOnce n
  | _ => false

/-- No request that is already complete in `pending_buf_` when the cycle before
    it ends has a handler that answers at once. -/
def ReplaysLate (S : Server) (w : World) : Event → Prop
  | .read n => w.conn.inFlight = false →
    match S.execute w.conn.partialMsg (w.unread.take n) with
    | .paused _ rest => S.answersAtOnce w.conn.dispatched.length = true →
        replaysAtOnce S rest (w.conn.dispatched.length + 1) = false
    | _ => True
  | .completed => replaysAtOnce S w.conn.pendingBuf w.conn.dispatched.length = false
  | .expired _ => True

/-! ## llhttp on a stream of whole requests -/

section Execute

variable {S : Server}

/-- Short of the end of its request, llhttp wants more. -/
theorem execute_short {r acc bs : Bytes} (hr : IsRequest S r) (hp : acc ++ bs <+: r)
    (hlt : (acc ++ bs).length < r.length) : S.execute acc bs = .ok (acc ++ bs) := by
  induction bs generalizing acc with
  | nil => simp [Server.execute]
  | cons b bs ih =>
    have hsplit : acc ++ b :: bs = (acc ++ [b]) ++ bs := by simp
    rw [hsplit] at hp hlt ⊢
    have hb : S.verdict (acc ++ [b]) = .incomplete := by
      refine hr.incomplete _ ((List.prefix_append _ _).trans hp) (by simp) fun h => ?_
      rw [h, List.length_append] at hlt
      omega
    rw [Server.execute, hb]
    exact ih hp hlt

/-- At the end of its request, llhttp stops just after it. -/
theorem execute_whole {r acc bs rest : Bytes} (hr : IsRequest S r) (hne : bs ≠ [])
    (hp : acc ++ bs = r) : S.execute acc (bs ++ rest) = .paused r rest := by
  induction bs generalizing acc with
  | nil => exact absurd rfl hne
  | cons b bs ih =>
    have hsplit : (acc ++ [b]) ++ bs = r := by simpa using hp
    rw [List.cons_append, Server.execute]
    by_cases hbs : bs = []
    · have hlast : acc ++ [b] = r := by simpa [hbs] using hsplit
      rw [hlast, hr.complete, hbs]
      rfl
    · have hb : S.verdict (acc ++ [b]) = .incomplete := by
        refine hr.incomplete _ ⟨bs, hsplit⟩ (by simp) fun h => hbs ?_
        have := congrArg List.length hsplit
        rw [h, List.length_append] at this
        exact List.eq_nil_of_length_eq_zero (by omega)
      rw [hb]
      exact ih hbs hsplit

/-- The next `bs` of a stream of requests of which `acc` has been read either
    stay inside the request or run past its end. -/
theorem execute_stream {todo : List Bytes} {acc bs later : Bytes}
    (hreq : ∀ r ∈ todo, IsRequest S r) (hin : ∀ r rest, todo = r :: rest → acc.length < r.length)
    (hall : acc ++ bs ++ later = todo.flatten) :
    (S.execute acc bs = .ok (acc ++ bs) ∧
      ∀ r rest, todo = r :: rest → (acc ++ bs).length < r.length) ∨
    ∃ r rest tail, todo = r :: rest ∧ S.execute acc bs = .paused r tail ∧
      tail ++ later = rest.flatten ∧ tail.length ≤ bs.length ∧
      tail = bs.drop (bs.length - tail.length) := by
  cases todo with
  | nil =>
    obtain ⟨rfl, rfl, -⟩ : acc = [] ∧ bs = [] ∧ later = [] := by simpa using hall
    exact .inl ⟨rfl, fun r rest h => nomatch h⟩
  | cons r rest =>
    have hr : IsRequest S r := hreq r (by simp)
    have hacc : acc.length < r.length := hin r rest rfl
    rw [List.flatten_cons, List.append_assoc] at hall
    obtain ⟨q, hq⟩ : acc <+: r :=
      List.prefix_of_prefix_length_le ⟨bs ++ later, hall⟩ (List.prefix_append _ _) hacc.le
    have hbody : bs ++ later = q ++ rest.flatten := by
      rw [← hq, List.append_assoc] at hall
      exact List.append_cancel_left hall
    by_cases hlt : (acc ++ bs).length < r.length
    · refine .inl ⟨execute_short hr ?_ hlt, fun r' rest' h => by cases h; exact hlt⟩
      exact List.prefix_of_prefix_length_le ⟨later, by simpa using hall⟩
        (List.prefix_append _ _) hlt.le
    · have hlen : q.length ≤ bs.length := by
        have := congrArg List.length hq
        simp only [List.length_append] at this hlt
        omega
      obtain ⟨tail, rfl⟩ : q <+: bs :=
        List.prefix_of_prefix_length_le ⟨rest.flatten, hbody.symm⟩ (List.prefix_append _ _) hlen
      have hne : q ≠ [] := by
        rintro rfl
        rw [← hq] at hacc
        simp at hacc
      rw [List.append_assoc] at hbody
      exact .inr ⟨r, rest, tail, rfl, execute_whole hr hne hq, List.append_cancel_left hbody,
        by simp, by simp⟩

end Execute

/-! ## The shapes of a connection between two events -/

/-- Waiting for a request: one header timer, nothing buffered. -/
def idleConn (p : Bytes) (ka : Bool) (t m : ℕ) (d : List Bytes) : HttpConnection :=
  { partialMsg := p, keepAlive := ka, headerTfd := some t, timers := [(t, .header)],
    nextTfd := m, dispatched := d }

/-- A request is with its handler: the parser is paused behind it. -/
def busyConn (pend : Bytes) (u : ℕ) (ka : Bool) (t m : ℕ) (d : List Bytes) : HttpConnection :=
  { paused := true, unconsumed := u, pendingBuf := pend, inFlight := true, keepAlive := ka,
    timeoutTfd := some t, timers := [(t, .request)], nextTfd := m, dispatched := d }

/-- The response is out and no timer is armed: what `finish_cycle` starts from. -/
def settledConn (pend : Bytes) (u : ℕ) (m : ℕ) (d : List Bytes) : HttpConnection :=
  { paused := true, unconsumed := u, pendingBuf := pend, keepAlive := true, nextTfd := m,
    dispatched := d }

/-- A request was answered inside the replay: the cycle was closed twice, and
    the pause came after both. -/
def stuckConn (pend : Bytes) (u : ℕ) (m : ℕ) (d : List Bytes) : HttpConnection :=
  { paused := true, unconsumed := u, pendingBuf := pend, keepAlive := true,
    headerTfd := some (m + 1), timers := [(m, .header), (m + 1, .header)], nextTfd := m + 2,
    dispatched := d }

section Shapes

variable {S : Server}

/-- Nested deeper than once, `finish_cycle` never runs: the buffer is empty by then. -/
theorem finishCycle_depth (n : ℕ) (c : HttpConnection) :
    finishCycle S (n + 2) c = finishCycle S 2 c := by
  have hempty : ∀ c : HttpConnection, c.pendingBuf = [] →
      finishCycle S (n + 1) c = finishCycle S 1 c := by
    intro c hc
    simp [finishCycle, resume, hc]
  have hfeed : ∀ (buf : Bytes) (c : HttpConnection), c.pendingBuf = [] →
      feed S (finishCycle S (n + 1)) buf c = feed S (finishCycle S 1) buf c := by
    intro buf c hc
    unfold feed
    split
    · rfl
    · cases S.execute c.partialMsg buf with
      | ok p => rfl
      | error => rfl
      | paused message rest =>
        have hdisp : dispatch S (finishCycle S (n + 1)) message { c with partialMsg := [] } =
            dispatch S (finishCycle S 1) message { c with partialMsg := [] } := by
          simp only [dispatch, onWriteComplete]
          split_ifs
          · rfl
          · rfl
          · exact hempty _ (by simpa [cancelTimeout, cancelTimer, armTimeout, cancelHeader] using hc)
          · rfl
        simp only [hdisp]
  rw [finishCycle, finishCycle]
  split
  · rfl
  · simp only [hfeed c.resume.pendingBuf { c.resume with pendingBuf := [] } rfl]

/-- With nothing buffered, closing the cycle arms the header timer and waits. -/
theorem finishCycle_empty (u m : ℕ) (d : List Bytes) :
    finishCycle S 2 (settledConn [] u m d) = idleConn [] true m (m + 1) d := by
  rfl

/-- An unfinished request is replayed into the parser. -/
theorem finishCycle_cut {buf p : Bytes} (u m : ℕ) (d : List Bytes) (hbuf : buf ≠ [])
    (hx : S.execute [] buf = .ok p) :
    finishCycle S 2 (settledConn buf u m d) = idleConn p true m (m + 1) d := by
  simp [finishCycle, settledConn, resume, feed, hbuf, hx, armHeader, idleConn]

/-- A whole request is replayed to a handler that answers later. -/
theorem finishCycle_late {buf message rest : Bytes} (u m : ℕ) (d : List Bytes)
    (hbuf : buf ≠ []) (hx : S.execute [] buf = .paused message rest)
    (hlate : S.answersAtOnce d.length = false) (hsize : rest.length ≤ kMaxPendingBuf)
    (hrest : rest = buf.drop (buf.length - rest.length)) :
    finishCycle S 2 (settledConn buf u m d) =
      busyConn rest rest.length true m (m + 1) (d ++ [message]) := by
  have hempty : rest.length = 0 → rest = [] := List.eq_nil_of_length_eq_zero
  rcases Nat.eq_zero_or_pos rest.length with h0 | hpos
  · obtain rfl := hempty h0
    simp [finishCycle, settledConn, resume, feed, hbuf, hx, dispatch, hlate, cancelHeader,
      cancelTimer, armTimeout, busyConn]
  · simp [finishCycle, settledConn, resume, feed, hbuf, hx, dispatch, hlate, cancelHeader,
      cancelTimer, armTimeout, busyConn, hpos, Nat.not_lt.2 hsize, ← hrest]

/-- A whole request is replayed to a handler that answers at once: the cycle is
    closed inside the replay and again after it. -/
theorem finishCycle_stuck {buf message rest : Bytes} (u m : ℕ) (d : List Bytes)
    (hbuf : buf ≠ []) (hx : S.execute [] buf = .paused message rest)
    (hsync : S.answersAtOnce d.length = true) (hka : S.keepAlive message = true)
    (hsize : rest.length ≤ kMaxPendingBuf)
    (hrest : rest = buf.drop (buf.length - rest.length)) :
    finishCycle S 2 (settledConn buf u m d) =
      stuckConn rest rest.length (m + 1) (d ++ [message]) := by
  have hempty : rest.length = 0 → rest = [] := List.eq_nil_of_length_eq_zero
  rcases Nat.eq_zero_or_pos rest.length with h0 | hpos
  · obtain rfl := hempty h0
    simp [finishCycle, settledConn, resume, feed, hbuf, hx, dispatch, hsync, hka, cancelHeader,
      cancelTimeout, cancelTimer, armTimeout, armHeader, onWriteComplete, stuckConn]
  · simp [finishCycle, settledConn, resume, feed, hbuf, hx, dispatch, hsync, hka, cancelHeader,
      cancelTimeout, cancelTimer, armTimeout, armHeader, onWriteComplete, stuckConn, hpos,
      Nat.not_lt.2 hsize, ← hrest]

/-- A late completion settles the busy connection and closes the cycle. -/
theorem lateCompletion_busy {pend : Bytes} {u t m : ℕ} {ka : Bool} {d : List Bytes}
    (hka : S.keepAlive (d.getLast?.getD []) = true) :
    lateCompletion S (busyConn pend u ka t m d) = finishCycle S 2 (settledConn pend u m d) := by
  simp [lateCompletion, onWriteComplete, busyConn, settledConn, hka, cancelTimeout, cancelTimer]

/-- Bytes that arrive while a request is in flight are only buffered. -/
theorem doRead_busy {chunk pend : Bytes} {u t m : ℕ} {ka : Bool} {d : List Bytes}
    (hsize : pend.length + chunk.length ≤ kMaxPendingBuf) :
    doRead S chunk (busyConn pend u ka t m d) = busyConn (pend ++ chunk) u ka t m d := by
  simp [doRead, busyConn, Nat.not_lt.2 hsize]

/-- Bytes that do not finish the request stay in the parser. -/
theorem doRead_cut {chunk p q : Bytes} {t m : ℕ} {ka : Bool} {d : List Bytes}
    (hx : S.execute p chunk = .ok q) :
    doRead S chunk (idleConn p ka t m d) = idleConn q ka t m d := by
  simp [doRead, idleConn, feed, hx]

/-- Bytes that finish a request whose handler answers later. -/
theorem doRead_late {chunk p message rest : Bytes} {t m : ℕ} {ka : Bool} {d : List Bytes}
    (hx : S.execute p chunk = .paused message rest) (hlate : S.answersAtOnce d.length = false)
    (hsize : rest.length ≤ kMaxPendingBuf)
    (hrest : rest = chunk.drop (chunk.length - rest.length)) :
    doRead S chunk (idleConn p ka t m d) =
      busyConn rest rest.length ka m (m + 1) (d ++ [message]) := by
  have hempty : rest.length = 0 → rest = [] := List.eq_nil_of_length_eq_zero
  rcases Nat.eq_zero_or_pos rest.length with h0 | hpos
  · obtain rfl := hempty h0
    simp [doRead, idleConn, feed, hx, dispatch, hlate, cancelHeader, cancelTimer, armTimeout,
      busyConn]
  · simp [doRead, idleConn, feed, hx, dispatch, hlate, cancelHeader, cancelTimer, armTimeout,
      busyConn, hpos, Nat.not_lt.2 hsize, ← hrest]

/-- Bytes that finish a request answered at once: the cycle is closed after the
    parser callback has returned. -/
theorem doRead_atOnce {chunk p message rest : Bytes} {t m : ℕ} {ka : Bool} {d : List Bytes}
    (hx : S.execute p chunk = .paused message rest) (hsync : S.answersAtOnce d.length = true)
    (hka : S.keepAlive message = true) (hsize : rest.length ≤ kMaxPendingBuf)
    (hrest : rest = chunk.drop (chunk.length - rest.length)) :
    doRead S chunk (idleConn p ka t m d) =
      finishCycle S 2 (settledConn rest rest.length (m + 1) (d ++ [message])) := by
  have hempty : rest.length = 0 → rest = [] := List.eq_nil_of_length_eq_zero
  rcases Nat.eq_zero_or_pos rest.length with h0 | hpos
  · obtain rfl := hempty h0
    simp [doRead, idleConn, feed, hx, dispatch, hsync, hka, cancelHeader, cancelTimeout,
      cancelTimer, armTimeout, onWriteComplete, settledConn]
  · simp [doRead, idleConn, feed, hx, dispatch, hsync, hka, cancelHeader, cancelTimeout,
      cancelTimer, armTimeout, onWriteComplete, settledConn, hpos, Nat.not_lt.2 hsize, ← hrest]

end Shapes

/-! ## The invariant of the runs that replay late -/

/-- `d` requests are dispatched, `todo` are still to be delivered, and the bytes
    of `todo` are where the connection will find them. -/
structure Progress (S : Server) (rs : List Bytes) (p pend unread : Bytes) (d todo : List Bytes) :
    Prop where
  split : rs = d ++ todo
  bytes : p ++ pend ++ unread = todo.flatten
  inside : ∀ r rest, todo = r :: rest → p.length < r.length

/-- The states of a run that replays late: idle, busy, or closed by a timer. -/
inductive InCycle (S : Server) (rs : List Bytes) : World → Prop
  | idle {p unread ka t m d todo timedOut} (h : Progress S rs p [] unread d todo) :
      InCycle S rs ⟨idleConn p ka t m d, unread, timedOut⟩
  | busy {pend unread u ka t m d todo timedOut} (h : Progress S rs [] pend unread d todo)
      (hd : d ≠ []) : InCycle S rs ⟨busyConn pend u ka t m d, unread, timedOut⟩
  | closed {c unread} (hc : c.closed = true) (hd : c.dispatched <+: rs) :
      InCycle S rs ⟨c, unread, true⟩

section Invariant

variable {S : Server} {rs : List Bytes}

theorem Progress.pend_le {p pend unread : Bytes} {d todo : List Bytes}
    (h : Progress S rs p pend unread d todo) (hsize : rs.flatten.length ≤ kMaxPendingBuf) :
    p.length + pend.length + unread.length ≤ kMaxPendingBuf := by
  have hb := congrArg List.length h.bytes
  have hs := congrArg (fun l => (List.flatten l).length) h.split
  simp only [List.length_append, List.flatten_append] at hb hs
  omega

/-- Closing the cycle after `d` requests, with `pend` buffered, either settles in
    the cycle again or, if the replay answers a request at once, breaks it. -/
theorem finishCycle_inCycle (timedOut : Bool) {pend unread : Bytes} {u m : ℕ}
    {d todo : List Bytes} (hreq : ∀ r ∈ rs, IsRequest S r)
    (hsize : rs.flatten.length ≤ kMaxPendingBuf) (h : Progress S rs [] pend unread d todo) :
    (replaysAtOnce S pend d.length = false →
      InCycle S rs ⟨finishCycle S 2 (settledConn pend u m d), unread, timedOut⟩) ∧
    (replaysAtOnce S pend d.length = true →
      ∃ v n q e, finishCycle S 2 (settledConn pend u m d) = stuckConn q v n e) := by
  have htodo : ∀ r ∈ todo, IsRequest S r := fun r hr =>
    hreq r (h.split ▸ List.mem_append_right _ hr)
  rcases execute_stream htodo h.inside (by simpa using h.bytes) with
    ⟨hx, hin⟩ | ⟨r, rest, tail, rfl, hx, hbytes, hlen, htail⟩
  · refine ⟨fun _ => ?_, fun hbad => by simp [replaysAtOnce, hx] at hbad⟩
    have hnext : Progress S rs pend [] unread d todo :=
      ⟨h.split, by simpa using h.bytes, by simpa using hin⟩
    by_cases hp : pend = []
    · subst hp
      rw [finishCycle_empty]
      exact .idle hnext
    · rw [finishCycle_cut u m d hp hx]
      exact .idle hnext
  · have hp : pend ≠ [] := by
      rintro rfl
      simp [Server.execute] at hx
    have hle := h.pend_le hsize
    simp only [List.length_nil] at hle
    have hsplit : rs = d ++ [r] ++ rest := by simpa using h.split
    have hrest : Progress S rs [] tail unread (d ++ [r]) rest :=
      ⟨hsplit, by simpa using hbytes, fun r' rest' hr' => by
        have := (hreq r' (by rw [hsplit, hr']; simp)).nonempty
        simpa using List.length_pos_iff.2 this⟩
    simp only [replaysAtOnce, hx]
    refine ⟨fun hlate => ?_, fun hsync => ?_⟩
    · rw [finishCycle_late u m d hp hx hlate (by omega) htail]
      exact .busy hrest (by simp)
    · exact ⟨_, _, _, _, finishCycle_stuck u m d hp hx hsync (htodo r (by simp)).keepAlive
        (by omega) htail⟩

/-- A connection left paused between two events does not keep the promise. -/
theorem not_served_stuck {unread q : Bytes} {timedOut : Bool} {v n : ℕ} {e : List Bytes} :
    ¬ Served S rs ⟨stuckConn q v n e, unread, timedOut⟩ := by
  intro h
  have := h.notPaused rfl rfl
  simp [stuckConn] at this

/-- A state in the cycle keeps the promise. -/
theorem InCycle.served {w : World} (h : InCycle S rs w) : Served S rs w := by
  cases h with
  | @idle p unread ka t m d todo timedOut h =>
    refine ⟨⟨todo, h.split.symm⟩, fun _ _ => rfl, fun _ _ message rest => ?_, fun _ _ => ?_,
      fun _ _ hu => ?_, fun hc => by simp [idleConn] at hc⟩
    · simp [idleConn, Server.execute]
    · simp [idleConn, headerTimers]
    · obtain rfl : unread = [] := hu
      have hb : p = todo.flatten := by simpa using h.bytes
      cases todo with
      | nil => simpa [idleConn] using h.split.symm
      | cons r rest =>
        have hlt := h.inside r rest rfl
        rw [hb, List.flatten_cons, List.length_append] at hlt
        omega
  | busy h hd =>
    exact ⟨⟨_, h.split.symm⟩, by simp [busyConn], by simp [busyConn], by simp [busyConn],
      by simp [busyConn], by simp [busyConn]⟩
  | closed hc hd =>
    exact ⟨hd, by simp [hc], by simp [hc], by simp [hc], by simp [hc], fun _ => rfl⟩

/-- What a read does to an idle connection. -/
theorem doRead_inCycle (ka timedOut : Bool) {p chunk later : Bytes} {t m : ℕ}
    {d todo : List Bytes} (hreq : ∀ r ∈ rs, IsRequest S r)
    (hsize : rs.flatten.length ≤ kMaxPendingBuf)
    (h : Progress S rs p [] (chunk ++ later) d todo) :
    let late := match S.execute p chunk with
      | .paused _ rest => S.answersAtOnce d.length = true →
          replaysAtOnce S rest (d.length + 1) = false
      | _ => True
    (late → InCycle S rs ⟨doRead S chunk (idleConn p ka t m d), later, timedOut⟩) ∧
    (¬ late → ∃ v n q e, doRead S chunk (idleConn p ka t m d) = stuckConn q v n e) := by
  have htodo : ∀ r ∈ todo, IsRequest S r := fun r hr =>
    hreq r (h.split ▸ List.mem_append_right _ hr)
  have hle := h.pend_le hsize
  rcases execute_stream htodo h.inside (by simpa using h.bytes) with
    ⟨hx, hin⟩ | ⟨r, rest, tail, rfl, hx, hbytes, hlen, htail⟩
  · simp only [hx]
    refine ⟨fun _ => ?_, fun hn => absurd trivial hn⟩
    rw [doRead_cut hx]
    exact .idle ⟨h.split, by simpa using h.bytes, hin⟩
  · have hr := htodo r (by simp)
    have hsplit : rs = d ++ [r] ++ rest := by simpa using h.split
    have htail_le : tail.length ≤ kMaxPendingBuf := by
      simp only [List.length_append] at hle
      omega
    have hrest : Progress S rs [] tail later (d ++ [r]) rest :=
      ⟨hsplit, by simpa using hbytes, fun r' rest' hr' => by
        have := (hreq r' (by rw [hsplit, hr']; simp)).nonempty
        simpa using List.length_pos_iff.2 this⟩
    simp only [hx]
    cases hs : S.answersAtOnce d.length with
    | false =>
      refine ⟨fun _ => ?_, fun hn => absurd (fun hf => by simp at hf) hn⟩
      rw [doRead_late hx hs htail_le htail]
      exact .busy hrest (by simp)
    | true =>
      rw [doRead_atOnce hx hs hr.keepAlive htail_le htail]
      have hcyc := finishCycle_inCycle (u := tail.length) (m := m + 1) timedOut
        hreq hsize hrest
      rw [List.length_append, List.length_singleton] at hcyc
      exact ⟨fun hl => hcyc.1 (hl rfl), fun hn => hcyc.2 (by simpa using hn)⟩

/-- One event: a replay that is late keeps the cycle, one that is not breaks it. -/
theorem step_inCycle {w w' : World} {e : Event} (hreq : ∀ r ∈ rs, IsRequest S r)
    (hsize : rs.flatten.length ≤ kMaxPendingBuf) (h : InCycle S rs w)
    (hstep : w.step S e = some w') :
    (ReplaysLate S w e → InCycle S rs w') ∧ (¬ ReplaysLate S w e → ¬ Served S rs w') := by
  cases e with
  | read n =>
    simp only [World.step, Option.ite_none_right_eq_some, Option.some.injEq] at hstep
    obtain ⟨⟨hopen, hn, hlen⟩, rfl⟩ := hstep
    cases h with
    | closed hc _ => simp [hc] at hopen
    | @idle p unread ka t m d todo timedOut h =>
      have hcut : Progress S rs p [] (unread.take n ++ unread.drop n) d todo := by
        rwa [List.take_append_drop]
      obtain ⟨hk, hb⟩ := doRead_inCycle ka timedOut (t := t) (m := m) hreq hsize hcut
      refine ⟨fun hl => hk (hl rfl), fun hl => ?_⟩
      obtain ⟨v, n', q, e, he⟩ := hb fun hl' => hl fun _ => hl'
      simp only [he]
      exact not_served_stuck
    | @busy pend unread u ka t m d todo timedOut h hd =>
      refine ⟨fun _ => ?_, fun hl => absurd (fun hf => by simp [busyConn] at hf) hl⟩
      have hle := h.pend_le hsize
      rw [doRead_busy (by simp only [List.length_nil, List.length_take] at hle ⊢; omega)]
      refine .busy ⟨h.split, ?_, h.inside⟩ hd
      simpa using h.bytes
  | completed =>
    simp only [World.step, Option.ite_none_right_eq_some, Option.some.injEq] at hstep
    obtain ⟨⟨hopen, hfly⟩, rfl⟩ := hstep
    cases h with
    | closed hc _ => simp [hc] at hopen
    | idle h => simp [idleConn] at hfly
    | @busy pend unread u ka t m d todo timedOut h hd =>
      have hka : S.keepAlive (d.getLast?.getD []) = true := by
        rw [List.getLast?_eq_some_getLast hd]
        exact (hreq _ (h.split ▸ List.mem_append_left _ (List.getLast_mem hd))).keepAlive
      obtain ⟨hk, hb⟩ := finishCycle_inCycle timedOut (u := u) (m := m) hreq hsize h
      simp only [lateCompletion_busy hka]
      refine ⟨hk, fun hl => ?_⟩
      obtain ⟨v, n', q, e, he⟩ := hb (by simpa [ReplaysLate, busyConn] using hl)
      simp only [he]
      exact not_served_stuck
  | expired tfd =>
    refine ⟨fun _ => ?_, fun hl => absurd trivial hl⟩
    simp only [World.step] at hstep
    split at hstep
    · next kind hfind =>
      cases hstep
      cases h with
      | closed hc hd => exact .closed (by simp [expire, hc]) (by simpa [expire, hc] using hd)
      | @idle p unread ka t m d todo timedOut h =>
        have hd : d <+: rs := ⟨todo, h.split.symm⟩
        cases kind <;> exact .closed rfl hd
      | @busy pend unread u ka t m d todo timedOut h hd =>
        have hd : d <+: rs := ⟨todo, h.split.symm⟩
        cases kind <;> exact .closed rfl hd
    · simp at hstep

/-- A connection starts in its cycle. -/
theorem init_inCycle (hreq : ∀ r ∈ rs, IsRequest S r) :
    InCycle S rs (connection S rs.flatten).init := by
  have hstart : Progress S rs [] [] rs.flatten [] rs :=
    ⟨rfl, rfl, fun r rest h => by
      simpa using List.length_pos_iff.2 (hreq r (by simp [h])).nonempty⟩
  show InCycle S rs ⟨idleConn [] false 0 1 [], rs.flatten, false⟩
  exact .idle hstart

end Invariant

/-- For every sequence of whole keep-alive requests within the buffer limit,
    every way of reading their bytes, every mix of handlers and every expiry of a
    timer: all states of the run keep the promise of pipelining if and only if no
    step replays a complete request to a handler that answers at once. -/
theorem served_iff_replaysLate (S : Server) (rs : List Bytes) (hreq : ∀ r ∈ rs, IsRequest S r)
    (hsize : rs.flatten.length ≤ kMaxPendingBuf) (events : List Event) (w : World)
    (hrun : (connection S rs.flatten).run events = some w) :
    (∀ pre w, pre <+: events → (connection S rs.flatten).run pre = some w → Served S rs w) ↔
      (connection S rs.flatten).Meets (ReplaysLate S) events :=
  (connection S rs.flatten).forall_prefix_iff_meets (init_inCycle hreq)
    (fun _ h => h.served)
    (fun _ _ _ h hl hstep => (step_inCycle hreq hsize h hstep).1 hl)
    (fun _ _ _ h hl hstep => (step_inCycle hreq hsize h hstep).2 hl) hrun

/-! ## Two requests without a body -/

/-- llhttp on requests without a body: a message ends with its first empty line. -/
def bodyless (answersAtOnce : ℕ → Bool) : Server where
  verdict b := if (ascii "\r\n\r\n").isSuffixOf b then .complete else .incomplete
  keepAlive _ := true
  answersAtOnce := answersAtOnce

def getRoot : Bytes := ascii "GET / HTTP/1.1\r\n\r\n"

theorem getRoot_isRequest (answersAtOnce : ℕ → Bool) :
    IsRequest (bodyless answersAtOnce) getRoot where
  nonempty := by decide
  complete := rfl
  incomplete p hp hne hr := by
    have hall : ∀ q ∈ getRoot.inits, q ≠ [] → q ≠ getRoot →
        (if (ascii "\r\n\r\n").isSuffixOf q then Verdict.complete else .incomplete) =
          .incomplete := by decide
    exact hall p ((List.mem_inits _ _).2 hp) hne hr
  keepAlive := rfl

/-- Two requests in one read, the second to a handler that answers later. -/
theorem served_iff_replaysLate_getRoot :
    let S := bodyless (· = 0)
    let M := connection S [getRoot, getRoot].flatten
    (∀ pre w, pre <+: [.read 36, .completed] → M.run pre = some w →
      Served S [getRoot, getRoot] w) ↔ M.Meets (ReplaysLate S) [.read 36, .completed] :=
  served_iff_replaysLate _ _ (by simpa using getRoot_isRequest _) (by decide) _ _ rfl

/-- Two requests in one read, both answered at once: the connection is left
    idle and paused, with two header timers armed. -/
theorem pipelining_not_served :
    let S := bodyless fun _ => true
    (∀ r ∈ [getRoot, getRoot], IsRequest S r) ∧
      [getRoot, getRoot].flatten.length ≤ kMaxPendingBuf ∧
      ∃ w, (connection S [getRoot, getRoot].flatten).run [.read 36] = some w ∧
        w.conn.inFlight = false ∧ w.conn.paused = true ∧ w.conn.headerTimers = [3, 4] ∧
        ¬ Served S [getRoot, getRoot] w := by
  refine ⟨by simpa using getRoot_isRequest _, by decide, _, rfl, by decide, by decide, by decide, ?_⟩
  intro h
  exact absurd (h.notPaused (by decide) (by decide)) (by decide)

end Osodio.Http
