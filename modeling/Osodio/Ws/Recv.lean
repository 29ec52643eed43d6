import Osodio.Ws.Validation

/-!
# What a handler reads

A `ws` route awaits `ws.recv()`, `sleep` and database operations.  Between two awaits the
frames of the client are parsed and queued; a `recv` that waits is woken up by the parser,
or by the token when the connection underneath closes.

## Main definitions

- `Driver` — the handler of a route, its parser and its token
- `driver` — bytes, awaits, their ends and the end of the connection, in any order
- `Yields` — each `recv` has the next text, or null once the connection is closed
- `Orderly` — bytes arrive while the connection is open, find room in the queue and contain
  no Pong frame, and no other sleep registers with the token of a `recv`

## Main results

- `yields_of_orderly` — what `recv` yields in every orderly run
- `pong_is_yielded` — a Pong frame is handed to the handler
-/

namespace Osodio.Ws

open Http (Bytes)
open WSState (Ends)

/-! ## The driver -/

/-- What the handler is at. -/
inductive Await where
  | running
  | receiving
  | sleeping
  | querying
  | finished
  deriving DecidableEq, Repr

/-- Whose wake function the token holds. -/
inductive Wake where
  | recv
  | sleep
  /-- A sleep of another handler. -/
  | other
  deriving DecidableEq, Repr

structure Driver where
  ws : WSState := {}
  cancelled : Bool := false
  wake : Option Wake := none
  await : Await := .running
  /-- The messages popped off the queue. -/
  taken : List WSMessage := []
  /-- What each `await ws.recv()` has produced so far, `none` for null. -/
  values : List (Option Bytes) := []
  deriving DecidableEq, Repr

/-- What the driver makes of a message. -/
def WSMessage.produced (m : WSMessage) : Option Bytes :=
  if m.opcode = .close then none else some m.data

namespace Driver

/-- `await_resume`, and the VM goes on with the value. -/
def resume (d : Driver) : Driver :=
  match d.ws.pending with
  | m :: rest =>
    { d with
      ws := { d.ws with pending := rest }
      await := .running
      taken := d.taken ++ [m]
      values := d.values ++ [m.produced] }
  | [] => { d with await := .running, values := d.values ++ [none] }

/-- `co_await conn.recv()`.  A token that is cancelled calls the wake function at once. -/
def recv (d : Driver) : Driver :=
  if d.ws.pending ≠ [] ∨ d.ws.closed then d.resume
  else if d.cancelled then { d with ws := { d.ws with closed := true } }.resume
  else { d with await := .receiving, wake := some .recv }

/-- `feed`, with `resume_waiter_if_ready`. -/
def received (data : Bytes) (d : Driver) : Driver :=
  let ws := d.ws.feed data
  if d.await = .receiving ∧ (ws.pending ≠ [] ∨ ws.closed) then
    { d with ws := ws, wake := none }.resume
  else { d with ws := ws }

/-- `CancellationToken::cancel`. -/
def cancel (d : Driver) : Driver :=
  if d.cancelled then d
  else
    match d.wake with
    | some .recv =>
      { d with
        cancelled := true
        wake := none
        ws := { d.ws with closed := true } }.resume
    -- the driver looks at the token behind a sleep, and ends
    | some .sleep => { d with cancelled := true, wake := none, await := .finished }
    | _ => { d with cancelled := true, wake := none }

/-- `co_await lohin::sleep(ms)`. -/
def sleep (d : Driver) : Driver :=
  if d.cancelled then { d with await := .finished }
  else { d with await := .sleeping, wake := some .sleep }

/-- The timer of a sleep expires. -/
def slept (d : Driver) : Driver :=
  { d with wake := none, await := if d.cancelled then .finished else .running }

def send (payload : Bytes) (d : Driver) : Driver :=
  if d.ws.closed || d.cancelled then d
  else { d with ws := d.ws.rawSend (buildFrame payload 0x1 true) }

def close (code : UInt16) (d : Driver) : Driver :=
  if d.ws.closed then d
  else { d with ws := { d.ws with closed := true }.rawSend (WSState.closeFrame code.toNat) }

end Driver

/-- What happens to a driver. -/
inductive Turn where
  | received (data : Bytes)
  | cancelled
  /-- The handler goes on to one of its awaits, sends, closes or ends. -/
  | recv
  | sleep
  | query
  | send (payload : Bytes)
  | close (code : UInt16)
  | ends
  /-- Its sleep or its query is over. -/
  | slept
  | answered
  /-- Another handler's sleep registers with the token, or its timer expires. -/
  | other (registers : Bool)
  deriving DecidableEq, Repr

open Driver in
def Driver.step (d : Driver) : Turn → Option Driver
  | .received data =>
    if d.cancelled || d.await = .running || d.await = .finished then none
    else some (d.received data)
  | .cancelled => some d.cancel
  | .recv => if d.await = .running then some d.recv else none
  | .sleep => if d.await = .running then some d.sleep else none
  | .query => if d.await = .running then some { d with await := .querying } else none
  | .send payload => if d.await = .running then some (d.send payload) else none
  | .close code => if d.await = .running then some (d.close code) else none
  | .ends => if d.await = .running then some { d with await := .finished } else none
  | .slept => if d.await = .sleeping then some d.slept else none
  | .answered => if d.await = .querying then some { d with await := .running } else none
  | .other registers =>
    -- a cancelled token keeps nothing
    some { d with wake := if registers && !d.cancelled then some .other else none }

def driver : Lib.System Driver Turn where
  init := {}
  step := Driver.step

def Turn.bytes : Turn → Bytes
  | .received data => data
  | _ => []

/-! ## What is to be read -/

/-- The payloads of the text and binary messages that these frames complete. -/
def texts (fs : List Frame) : List Bytes :=
  ((progress fs).messages.filter fun m => m.opcode = .text ∨ m.opcode = .binary).map (·.data)

/-- Each `recv` of the run has produced the next of the texts received, or null if there is
    none and the connection is closed; the last one may be waiting, if there is none and the
    connection is open. -/
def Yields (es : List Turn) (d : Driver) : Prop :=
  ∃ fs rest, Accepted (es.flatMap Turn.bytes) fs rest ∧
    (∀ f more, ¬ Accepted (es.flatMap Turn.bytes) (fs ++ [f]) more) ∧
    ∃ n nulls, d.values = ((texts fs).take n).map some ++ List.replicate nulls none ∧
      (0 < nulls → (d.ws.closed = true ∨ d.cancelled = true) ∧ (texts fs).length ≤ n) ∧
      (d.await = .receiving →
        d.ws.closed = false ∧ d.cancelled = false ∧ (texts fs).length ≤ n) ∧
      d.values.length + (if d.await = .receiving then 1 else 0) = es.count .recv

/-- Bytes arrive while the connection is open; each frame among them finds room in the queue,
    and none is a pong.  Nobody else uses the token while a `recv` waits. -/
def Orderly (d : Driver) : Turn → Prop
  | .received data =>
    let ws := { d.ws with readBuf := d.ws.readBuf ++ data }
    ws.closed = false ∧ ∀ fs f rest, Reads ws.readBuf (fs ++ [f]) rest → ws.goesOn fs = true →
      f.opcode ≠ 0xA ∧ (ws.handleAll fs).pending.length < kMaxPendingFrames
  | .other _ => d.await ≠ .receiving
  | _ => True

/-! ## The messages of a stream -/

section Messages

variable {b mid rest : Bytes} {fs gs : List Frame} {f : Frame} {u : WSState} {p : Progress}

theorem Reads.split (h : Reads b (fs ++ gs) rest) : ∃ mid, Reads b fs mid ∧ Reads mid gs rest := by
  induction fs generalizing b with
  | nil => exact ⟨b, .nil, h⟩
  | cons f fs ih =>
    cases h with
    | cons hread ht =>
      obtain ⟨mid, hfs, hgs⟩ := ih ht
      exact ⟨mid, .cons hread hfs, hgs⟩

/-- Without pongs, only texts and binary messages come of frames. -/
theorem Tracks.step_data (h : Tracks u p) (hdef : defined f.opcode = true)
    (hplace : ¬ Misplaced p.unfinished f) (hclose : f.opcode ≠ 0x8) (hpong : f.opcode ≠ 0xA)
    (hp : ∀ m ∈ p.messages, m.opcode = .text ∨ m.opcode = .binary) :
    ∀ m ∈ (p.step f).messages, m.opcode = .text ∨ m.opcode = .binary := by
  rw [Progress.step]
  by_cases hping : f.opcode = 0x9
  · rw [if_pos hping]
    exact hp
  rw [if_neg hping, if_neg hpong]
  dsimp only
  split
  · have hop : (p.unfinished.map (·.1)).getD f.opcode = 0x1 ∨
        (p.unfinished.map (·.1)).getD f.opcode = 0x2 := by
      cases hq : p.unfinished with
      | some q => exact h.data q hq
      | none =>
        rw [hq] at hplace
        exact defined_data hdef hclose hping hpong hplace
    intro m hm
    rcases List.mem_append.1 hm with hm | hm
    · exact hp m hm
    · rw [List.mem_singleton.1 hm]
      rcases hop with hop | hop <;> rw [hop]
      · exact .inl rfl
      · exact .inr rfl
  · exact hp

theorem Accepted.data (h : Accepted b fs rest) (hpong : ∀ f ∈ fs, f.opcode ≠ 0xA) :
    ∀ m ∈ (progress fs).messages, m.opcode = .text ∨ m.opcode = .binary := by
  induction h with
  | nil => exact nofun
  | @concat fs f mid rest h hheader hframe hplace hclose ih =>
    obtain ⟨size, -, -, hdef⟩ := readFrame_of_wireFrame hheader hframe
    rw [progress_concat]
    exact h.handled.2.2.step_data hdef hplace hclose
      (hpong f (List.mem_append_right _ (List.mem_singleton_self f)))
      (ih fun g hg => hpong g (List.mem_append_left _ hg))

/-- Without pongs, the texts are the whole queue. -/
theorem Accepted.texts (h : Accepted b fs rest) (hpong : ∀ f ∈ fs, f.opcode ≠ 0xA) :
    texts fs = (({} : WSState).handleAll fs).pending.map (·.data) ∧
      ∀ m ∈ (({} : WSState).handleAll fs).pending, m.produced = some m.data := by
  have hdata := h.data hpong
  rw [h.handled.2.2.messages]
  constructor
  · rw [Ws.texts, List.filter_eq_self.2 (fun m hm => decide_eq_true (hdata m hm))]
  · intro m hm
    rw [WSMessage.produced, if_neg]
    rcases hdata m hm with hop | hop <;> rw [hop] <;> nofun

/-- Nothing is accepted where the loop has ended. -/
theorem Accepted.last (h : Accepted b fs rest) (hfinal : Final (({} : WSState).handleAll fs) rest)
    (f : Frame) (more : Bytes) : ¬ Accepted b (fs ++ [f]) more := by
  intro h'
  obtain ⟨hreads, hgo, -⟩ := h.handled
  obtain ⟨hreads', hgo', -⟩ := h'.handled
  obtain ⟨mid, hfs, hf⟩ := hreads'.split
  have hmid : rest = mid := by
    rcases hreads.prefixes hfs with ⟨more, hnil, hmore⟩ | ⟨more, hnil, hmore⟩ <;>
      obtain rfl := List.self_eq_append_right.1 hnil <;> cases hmore <;> rfl
  cases hf with
  | cons hread ht =>
    rw [WSState.goesOn_append, Bool.and_eq_true, WSState.goesOn,
      hfinal _ _ (hmid ▸ hread)] at hgo'
    exact absurd hgo'.2 (by simp)

end Messages

/-! ## What the parser has heard -/

/-- The frames `fs` of the bytes `b` have been handled; an open connection waits for the
    rest of the next one. -/
structure Heard (b : Bytes) (fs : List Frame) (rest : Bytes) (d : Driver) : Prop where
  reads : Reads b fs rest
  goes : ({} : WSState).goesOn fs = true
  final : Final (({} : WSState).handleAll fs) rest
  noPong : ∀ f ∈ fs, f.opcode ≠ 0xA
  queued : ∃ tail, d.taken ++ d.ws.pending = (({} : WSState).handleAll fs).pending ++ tail ∧
    (tail = [] ∨ d.ws.closed = true ∧ ∃ data, tail = [⟨.close, data⟩])
  opened : d.ws.closed = false → d.ws.readBuf = rest ∧ readFrame rest = .wait ∧
    (d.ws.upon d.taken []).silent = ((({} : WSState).handleAll fs).upon [] []).silent

section Heard

variable {b data rest : Bytes} {fs gs : List Frame} {f : Frame} {s u : WSState}
  {q : List WSMessage} {d : Driver}

/-- Two parsers handle the same frames alike, whatever they have sent and queued before. -/
theorem same_handleAll (h : (s.upon q []).silent = (u.upon [] []).silent) (fs : List Frame) :
    s.goesOn fs = u.goesOn fs ∧
      ((s.handleAll fs).upon q []).silent = ((u.handleAll fs).upon [] []).silent := by
  constructor
  · rw [← WSState.goesOn_over q [] fs s, ← (WSState.handleAll_silent fs (s.upon q [])).1, h,
      (WSState.handleAll_silent fs _).1, WSState.goesOn_over]
  · rw [← WSState.handleAll_over q [] fs s, ← (WSState.handleAll_silent fs (s.upon q [])).2, h,
      (WSState.handleAll_silent fs _).2, WSState.handleAll_over]

/-- A frame that ends the loop queues its Close message, or nothing. -/
theorem handle_queue (f : Frame) (s : WSState) : (s.handle f).1 = false →
    ∃ tail, (s.handle f).2.pending = s.pending ++ tail ∧
      (tail = [] ∨ ∃ data, tail = [⟨.close, data⟩]) := by
  have hnone : ∃ tail, s.pending = s.pending ++ tail ∧
      (tail = [] ∨ ∃ data, tail = [(⟨.close, data⟩ : WSMessage)]) :=
    ⟨[], (List.append_nil _).symm, .inl rfl⟩
  apply WSState.handle_cases f s (P := fun r => r.1 = false →
    ∃ tail, r.2.pending = s.pending ++ tail ∧ (tail = [] ∨ ∃ data, tail = [⟨.close, data⟩]))
  case close => exact fun _ _ => ⟨_, rfl, .inr ⟨_, rfl⟩⟩
  case stray => exact fun _ _ _ => hnone
  case tooBig => exact fun _ _ _ _ => hnone
  case inside => exact fun _ _ _ _ _ _ => hnone
  all_goals intros; contradiction

/-- **A `feed`** on an open connection. -/
theorem Heard.feed (h : Heard b fs rest d) (ho : Orderly d (.received data)) :
    ∃ gs more, Heard (b ++ data) (fs ++ gs) more { d with ws := d.ws.feed data } := by
  obtain ⟨hopen, hroom⟩ := ho
  obtain ⟨hbuf, -, hsame⟩ := h.opened hopen
  rw [hbuf] at hroom
  obtain ⟨gs, more, hreads, hgoes, hends⟩ :=
    WSState.tryParse_room { d.ws with readBuf := rest ++ data } fun l f r hl hg => (hroom l f r hl hg).2
  have hfeed : d.ws.feed data = ({ d.ws with readBuf := rest ++ data } : WSState).tryParse := by
    rw [WSState.feed, hbuf]
  -- the parser of the whole stream does the same
  obtain ⟨hgo, hall⟩ := same_handleAll
    (s := { d.ws with readBuf := rest ++ data }) (q := d.taken) hsame gs
  rw [← WSState.handleAll_append] at hall
  rw [← hfeed] at hends
  have hfinal : Final (({} : WSState).handleAll (fs ++ gs)) more := by
    intro f size hf
    have hstop := final_of_ends hends f size hf
    have hone := (same_handleAll hall [f]).1
    rw [WSState.goesOn, WSState.goesOn, WSState.goesOn, WSState.goesOn, Bool.and_true,
      Bool.and_true] at hone
    exact hone.symm.trans hstop
  have hpong : ∀ f ∈ fs ++ gs, f.opcode ≠ 0xA := by
    intro f hf
    rcases List.mem_append.1 hf with hf | hf
    · exact h.noPong f hf
    · obtain ⟨l, r, rfl⟩ := List.append_of_mem hf
      rw [List.append_cons] at hreads
      obtain ⟨mid, hl, -⟩ := hreads.split
      rw [WSState.goesOn_append, Bool.and_eq_true] at hgoes
      exact (hroom l f mid hl hgoes.1).1
  have hbase := (h.reads.append data).trans hreads
  have hgo' : ({} : WSState).goesOn (fs ++ gs) = true := by
    rw [WSState.goesOn_append, h.goes, Bool.true_and, ← hgo]
    exact hgoes
  have hpending : d.taken ++ (({ d.ws with readBuf := rest ++ data } : WSState).handleAll gs).pending =
      (({} : WSState).handleAll (fs ++ gs)).pending := congrArg WSState.pending hall
  refine ⟨gs, more, hbase, hgo', hfinal, hpong, ?_, ?_⟩
  · show ∃ tail, d.taken ++ (d.ws.feed data).pending = _ ∧ (tail = [] ∨
      (d.ws.feed data).closed = true ∧ _)
    generalize d.ws.feed data = t at hends
    cases hends with
    | wait hf => exact ⟨[], by rw [List.append_nil]; exact hpending, .inl rfl⟩
    | fail hf => exact ⟨[], by rw [List.append_nil]; exact hpending, .inl rfl⟩
    | tooLarge hf => exact ⟨[], by rw [List.append_nil]; exact hpending, .inl rfl⟩
    | stop hf hstop =>
      obtain ⟨tail, htail, hcases⟩ := handle_queue _ _ hstop
      refine ⟨tail, ?_, hcases.imp_right fun hdata => ⟨WSState.handle_stop hstop, hdata⟩⟩
      dsimp only
      rw [htail, ← List.append_assoc, hpending]
  · show (d.ws.feed data).closed = false → (d.ws.feed data).readBuf = more ∧ _ ∧
      ((d.ws.feed data).upon d.taken []).silent = _
    intro hclosed
    generalize d.ws.feed data = t at hends hclosed
    cases hends with
    | wait hf => exact ⟨rfl, hf, hall⟩
    | fail hf => cases hclosed
    | tooLarge hf => cases hclosed
    | stop hf hstop => exact absurd (hclosed.symm.trans (WSState.handle_stop hstop)) (by simp)

theorem Heard.same {d' : Driver} (h : Heard b fs rest d) (hws : d'.ws = d.ws)
    (htaken : d'.taken = d.taken) : Heard b fs rest d' := by
  refine ⟨h.reads, h.goes, h.final, h.noPong, ?_, ?_⟩
  · rw [hws, htaken]
    exact h.queued
  · rw [hws, htaken]
    exact h.opened

theorem Heard.closing {d' : Driver} (h : Heard b fs rest d) (hclosed : d'.ws.closed = true)
    (hpending : d'.ws.pending = d.ws.pending) (htaken : d'.taken = d.taken) :
    Heard b fs rest d' := by
  refine ⟨h.reads, h.goes, h.final, h.noPong, ?_, fun hopen => ?_⟩
  · rw [hpending, htaken]
    obtain ⟨tail, hq, hcases⟩ := h.queued
    exact ⟨tail, hq, hcases.imp_right fun hdata => ⟨hclosed, hdata.2⟩⟩
  · exact absurd (hopen.symm.trans hclosed) (by simp)

theorem Heard.sending (h : Heard b fs rest d) (frame : Bytes) :
    Heard b fs rest { d with ws := d.ws.rawSend frame } :=
  ⟨h.reads, h.goes, h.final, h.noPong, h.queued, h.opened⟩

theorem Heard.resume (h : Heard b fs rest d) : Heard b fs rest d.resume := by
  unfold Driver.resume
  split
  · next m more hm =>
    have hpopped : (d.taken ++ [m]) ++ more = d.taken ++ d.ws.pending := by
      rw [hm, List.append_assoc]
      rfl
    have hover : WSState.upon (d.taken ++ [m]) [] { d.ws with pending := more } =
        d.ws.upon d.taken [] := by
      rw [WSState.upon, WSState.upon, hpopped]
    refine ⟨h.reads, h.goes, h.final, h.noPong, ?_, ?_⟩
    · dsimp only
      rw [hpopped]
      exact h.queued
    · dsimp only
      rw [hover]
      exact h.opened
  · exact h.same rfl rfl

end Heard

/-! ## Runs -/

section Runs

variable {b : Bytes} {d t : Driver} {e : Turn} {es : List Turn}

/-- What the `recv` calls have produced. -/
structure Told (d : Driver) (nulls : ℕ) : Prop where
  values : d.values = d.taken.map WSMessage.produced ++ List.replicate nulls none
  closed : 0 < nulls → d.ws.closed = true ∧ d.ws.pending = []

structure Inv (b : Bytes) (d : Driver) : Prop where
  heard : ∃ fs rest, Heard b fs rest d
  told : ∃ nulls, Told d nulls
  waiting : d.await = .receiving →
    d.ws.closed = false ∧ d.cancelled = false ∧ d.ws.pending = [] ∧ d.wake = some .recv
  woken : d.wake = some .recv → d.await = .receiving

/-- The `recv` calls so far. -/
def asked (d : Driver) : ℕ := d.values.length + if d.await = .receiving then 1 else 0

theorem Told.resume {nulls : ℕ} (h : Told d nulls) (hready : d.ws.pending ≠ [] ∨ d.ws.closed = true) :
    ∃ more, Told d.resume more := by
  unfold Driver.resume
  split
  · next m rest hm =>
    have hzero : nulls = 0 := by
      by_contra hpos
      rw [(h.closed (Nat.pos_of_ne_zero hpos)).2] at hm
      cases hm
    refine ⟨0, ?_, fun hpos => absurd hpos (Nat.lt_irrefl 0)⟩
    dsimp only
    rw [h.values, hzero, List.map_append]
    simp
  · next hnil =>
    refine ⟨nulls + 1, ?_, fun _ => ⟨?_, hnil⟩⟩
    · dsimp only
      rw [h.values, List.append_assoc, List.replicate_succ']
    · rcases hready with hne | hclosed
      · exact absurd hnil hne
      · exact hclosed

theorem resume_await (d : Driver) : d.resume.await = .running ∧ d.resume.wake = d.wake ∧
    d.resume.values.length = d.values.length + 1 := by
  unfold Driver.resume
  split <;> exact ⟨rfl, rfl, List.length_append⟩

/-- **A value is produced.** -/
theorem Inv.resume (hheard : ∃ fs rest, Heard b fs rest d) (htold : ∃ nulls, Told d nulls)
    (hready : d.ws.pending ≠ [] ∨ d.ws.closed = true) (hwake : d.wake ≠ some .recv) :
    Inv b d.resume ∧ asked d.resume = d.values.length + 1 := by
  obtain ⟨fs, rest, hheard⟩ := hheard
  obtain ⟨nulls, htold⟩ := htold
  obtain ⟨hawait, hwake', hlen⟩ := resume_await d
  refine ⟨⟨⟨fs, rest, hheard.resume⟩, htold.resume hready, ?_, ?_⟩, ?_⟩
  · intro h
    rw [hawait] at h
    cases h
  · intro h
    exact absurd (hwake'.symm.trans h) hwake
  · rw [asked, hawait, hlen]
    rfl

/-- Nothing is produced, and no `recv` waits. -/
theorem Inv.quiet (hheard : ∃ fs rest, Heard b fs rest t) (htold : ∃ nulls, Told t nulls)
    (hawait : t.await ≠ .receiving) (hwake : t.wake ≠ some .recv) :
    Inv b t ∧ asked t = t.values.length := by
  refine ⟨⟨hheard, htold, fun h => absurd h hawait, fun h => absurd h hwake⟩, ?_⟩
  rw [asked, if_neg hawait]
  rfl

theorem Inv.idle (h : Inv b d) (hawait : d.await ≠ .receiving) :
    d.wake ≠ some .recv ∧ asked d = d.values.length := by
  refine ⟨fun hw => hawait (h.woken hw), ?_⟩
  rw [asked, if_neg hawait]
  rfl

theorem Told.closing {nulls : ℕ} (h : Told d nulls) (hvalues : t.values = d.values)
    (htaken : t.taken = d.taken) (hclosed : d.ws.closed = true → t.ws.closed = true)
    (hpending : t.ws.pending = d.ws.pending) : Told t nulls where
  values := by rw [hvalues, htaken, h.values]
  closed hpos := ⟨hclosed (h.closed hpos).1, hpending.trans (h.closed hpos).2⟩

theorem recv_inv (h : Inv b d) (hrun : d.await = .running) :
    Inv b d.recv ∧ asked d.recv = asked d + 1 := by
  obtain ⟨hwake, hasked⟩ := h.idle (by rw [hrun]; nofun)
  rw [hasked]
  unfold Driver.recv
  split
  · next hready => exact Inv.resume h.heard h.told hready hwake
  next hready =>
  rw [not_or, not_not, Bool.not_eq_true] at hready
  split
  · next hcancelled =>
    obtain ⟨fs, rest, hheard⟩ := h.heard
    obtain ⟨nulls, htold⟩ := h.told
    exact Inv.resume ⟨fs, rest, hheard.closing rfl rfl rfl⟩
      ⟨nulls, htold.closing rfl rfl (fun _ => rfl) rfl⟩ (.inr rfl) hwake
  · next hcancelled =>
    obtain ⟨fs, rest, hheard⟩ := h.heard
    refine ⟨⟨⟨fs, rest, hheard.same rfl rfl⟩, ?_, fun _ => ?_, fun _ => rfl⟩, rfl⟩
    · obtain ⟨nulls, htold⟩ := h.told
      exact ⟨nulls, htold.values, htold.closed⟩
    · exact ⟨hready.2, Bool.eq_false_iff.2 hcancelled, hready.1, rfl⟩

theorem received_inv {data : Bytes} (h : Inv b d) (ho : Orderly d (.received data)) :
    Inv (b ++ data) (d.received data) ∧ asked (d.received data) = asked d := by
  obtain ⟨fs, rest, hheard⟩ := h.heard
  obtain ⟨gs, more, hnext⟩ := hheard.feed ho
  have htold : ∃ nulls, Told { d with ws := d.ws.feed data } nulls := by
    obtain ⟨nulls, htold⟩ := h.told
    -- an open connection has produced no null
    have hzero : nulls = 0 := by
      by_contra hpos
      have hclosed := (htold.closed (Nat.pos_of_ne_zero hpos)).1
      exact absurd (ho.1.symm.trans hclosed) (by simp)
    subst hzero
    exact ⟨0, htold.values, fun hpos => absurd hpos (Nat.lt_irrefl 0)⟩
  unfold Driver.received
  dsimp only
  split
  · next hwait =>
    obtain ⟨hawait, hready⟩ := hwait
    have hres := Inv.resume (d := { d with ws := d.ws.feed data, wake := none })
      ⟨_, _, hnext.same rfl rfl⟩ ⟨_, htold.choose_spec.closing rfl rfl id rfl⟩ hready (by simp)
    refine ⟨hres.1, ?_⟩
    rw [hres.2, asked, hawait]
    rfl
  · next hstill =>
    refine ⟨⟨⟨_, _, hnext⟩, htold, fun hawait => ?_, h.woken⟩, rfl⟩
    obtain ⟨-, hcancelled, -, hwake⟩ := h.waiting hawait
    have hno : (d.ws.feed data).pending = [] ∧ (d.ws.feed data).closed = false := by
      constructor
      · by_contra hne
        exact hstill ⟨hawait, .inl hne⟩
      · by_contra hne
        exact hstill ⟨hawait, .inr (Bool.not_eq_false _ ▸ hne)⟩
    exact ⟨hno.2, hcancelled, hno.1, hwake⟩

theorem cancel_inv (h : Inv b d) : Inv b d.cancel ∧ asked d.cancel = asked d := by
  obtain ⟨fs, rest, hheard⟩ := h.heard
  obtain ⟨nulls, htold⟩ := h.told
  unfold Driver.cancel
  split
  · exact ⟨h, rfl⟩
  split
  · next hwake =>
    have hawait := h.woken hwake
    have hres := Inv.resume (b := b)
      (d := { d with cancelled := true, wake := none, ws := { d.ws with closed := true } })
      ⟨fs, rest, hheard.closing rfl rfl rfl⟩ ⟨nulls, htold.closing rfl rfl (fun _ => rfl) rfl⟩
      (.inr rfl) nofun
    refine ⟨hres.1, ?_⟩
    rw [hres.2, asked, hawait]
    rfl
  · next hwake =>
    have hawait : d.await ≠ .receiving := by
      intro hrec
      rw [(h.waiting hrec).2.2.2] at hwake
      cases hwake
    rw [(h.idle hawait).2]
    exact Inv.quiet ⟨fs, rest, hheard.same rfl rfl⟩ ⟨nulls, htold.values, htold.closed⟩ nofun nofun
  · next hrecv _ =>
    have hawait : d.await ≠ .receiving := fun hrec => hrecv (h.waiting hrec).2.2.2
    rw [(h.idle hawait).2]
    exact Inv.quiet ⟨fs, rest, hheard.same rfl rfl⟩ ⟨nulls, htold.values, htold.closed⟩ hawait nofun

/-- **The step lemma.** -/
theorem step_inv (h : Inv b d) (ho : Orderly d e) (hs : d.step e = some t) :
    Inv (b ++ e.bytes) t ∧ asked t = asked d + if e = .recv then 1 else 0 := by
  obtain ⟨fs, rest, hheard⟩ := h.heard
  obtain ⟨nulls, htold⟩ := h.told
  have hsame : ∀ {u : Driver}, d.await ≠ .receiving → u.ws = d.ws → u.taken = d.taken →
      u.values = d.values → u.await ≠ .receiving → u.wake ≠ some .recv →
        Inv (b ++ []) u ∧ asked u = asked d + 0 := by
    intro u hawait hws htaken hvalues hawait' hwake
    rw [List.append_nil, Nat.add_zero, (h.idle hawait).2, ← hvalues]
    exact Inv.quiet ⟨fs, rest, hheard.same hws htaken⟩
      ⟨nulls, htold.closing hvalues htaken (by rw [hws]; exact id) (by rw [hws])⟩ hawait' hwake
  cases e with
  | received data =>
    obtain ⟨-, ht⟩ := Option.ite_none_left_eq_some.1 hs
    cases ht
    exact received_inv h ho
  | cancelled =>
    cases hs
    rw [show b ++ Turn.cancelled.bytes = b from List.append_nil b]
    exact cancel_inv h
  | recv =>
    obtain ⟨hrun, ht⟩ := Option.ite_none_right_eq_some.1 hs
    cases ht
    rw [show b ++ Turn.recv.bytes = b from List.append_nil b]
    exact recv_inv h hrun
  | sleep =>
    obtain ⟨hrun, ht⟩ := Option.ite_none_right_eq_some.1 hs
    cases ht
    have hawait : d.await ≠ .receiving := by rw [hrun]; nofun
    unfold Driver.sleep
    split
    · exact hsame hawait rfl rfl rfl nofun (h.idle hawait).1
    · exact hsame hawait rfl rfl rfl nofun nofun
  | query =>
    obtain ⟨hrun, ht⟩ := Option.ite_none_right_eq_some.1 hs
    cases ht
    have hawait : d.await ≠ .receiving := by rw [hrun]; nofun
    exact hsame hawait rfl rfl rfl nofun (h.idle hawait).1
  | ends =>
    obtain ⟨hrun, ht⟩ := Option.ite_none_right_eq_some.1 hs
    cases ht
    have hawait : d.await ≠ .receiving := by rw [hrun]; nofun
    exact hsame hawait rfl rfl rfl nofun (h.idle hawait).1
  | slept =>
    obtain ⟨hsleeping, ht⟩ := Option.ite_none_right_eq_some.1 hs
    cases ht
    have hawait : d.await ≠ .receiving := by rw [hsleeping]; nofun
    refine hsame hawait rfl rfl rfl ?_ nofun
    show (if d.cancelled then Await.finished else .running) ≠ .receiving
    split <;> nofun
  | answered =>
    obtain ⟨hquery, ht⟩ := Option.ite_none_right_eq_some.1 hs
    cases ht
    have hawait : d.await ≠ .receiving := by rw [hquery]; nofun
    exact hsame hawait rfl rfl rfl nofun (h.idle hawait).1
  | other registers =>
    cases hs
    refine hsame ho rfl rfl rfl ho ?_
    dsimp only
    split <;> nofun
  | send payload =>
    obtain ⟨hrun, ht⟩ := Option.ite_none_right_eq_some.1 hs
    cases ht
    have hawait : d.await ≠ .receiving := by rw [hrun]; nofun
    unfold Driver.send
    split
    · exact hsame hawait rfl rfl rfl hawait (h.idle hawait).1
    · rw [show b ++ (Turn.send payload).bytes = b from List.append_nil b, (h.idle hawait).2]
      exact Inv.quiet ⟨fs, rest, hheard.sending _⟩ ⟨nulls, htold.values, htold.closed⟩ hawait
        (h.idle hawait).1
  | close code =>
    obtain ⟨hrun, ht⟩ := Option.ite_none_right_eq_some.1 hs
    cases ht
    have hawait : d.await ≠ .receiving := by rw [hrun]; nofun
    unfold Driver.close
    split
    · exact hsame hawait rfl rfl rfl hawait (h.idle hawait).1
    · rw [show b ++ (Turn.close code).bytes = b from List.append_nil b, (h.idle hawait).2]
      exact Inv.quiet ⟨fs, rest, hheard.closing rfl rfl rfl⟩
        ⟨nulls, htold.closing rfl rfl (fun _ => rfl) rfl⟩ hawait (h.idle hawait).1

theorem init_inv : Inv [] driver.init := by
  refine ⟨⟨[], [], .nil, rfl, nofun, nofun, ⟨[], rfl, .inl rfl⟩, fun _ => ⟨rfl, rfl, rfl⟩⟩,
    ⟨0, rfl, fun hpos => absurd hpos (Nat.lt_irrefl 0)⟩, nofun, nofun⟩

theorem run_inv (ho : driver.Meets Orderly es) (hrun : driver.run es = some t) :
    Inv (es.flatMap Turn.bytes) t ∧ asked t = es.count .recv := by
  induction es using List.reverseRecOn generalizing t with
  | nil =>
    cases hrun
    exact ⟨init_inv, rfl⟩
  | append_singleton es e ih =>
    obtain ⟨d, hd, hde⟩ := driver.runFrom_concat.1 hrun
    obtain ⟨ho, hlast⟩ := driver.meetsFrom_concat.1 ho
    obtain ⟨hinv, hasked⟩ := ih ho hd
    obtain ⟨hnext, hmore⟩ := step_inv hinv (hlast d hd) hde
    rw [List.flatMap_append, List.flatMap_singleton, List.count_append, List.count_singleton]
    refine ⟨hnext, ?_⟩
    rw [hmore, hasked]
    simp only [beq_iff_eq]

/-- The texts, and the nulls behind them. -/
theorem Inv.yields {es : List Turn} (h : Inv (es.flatMap Turn.bytes) t)
    (hasked : asked t = es.count .recv) : Yields es t := by
  obtain ⟨fs, rest, hheard⟩ := h.heard
  obtain ⟨nulls, htold⟩ := h.told
  have haccepted := accepted_of_reads hheard.reads hheard.goes
  obtain ⟨htexts, hproduced⟩ := haccepted.texts hheard.noPong
  refine ⟨fs, rest, haccepted, haccepted.last hheard.final, ?_⟩
  obtain ⟨tail, hqueue, hcases⟩ := hheard.queued
  rw [htexts]
  generalize (({} : WSState).handleAll fs).pending = all at hproduced hqueue
  have hwaiting := fun hawait => h.waiting hawait
  have hmap : ∀ ms ⊆ all, ms.map WSMessage.produced = (ms.map (·.data)).map some := by
    intro ms hms
    rw [List.map_map]
    exact List.map_congr_left fun m hm => hproduced m (hms hm)
  rcases List.append_eq_append_iff.1 hqueue with ⟨more, rfl, hpending⟩ | ⟨more, htaken, rfl⟩
  · -- texts are left, or none
    have hnone : t.ws.pending = [] → more = [] := by
      intro hnil
      rw [hnil] at hpending
      exact (List.append_eq_nil_iff.1 hpending.symm).1
    refine ⟨t.taken.length, nulls, ?_, fun hpos => ?_, fun hawait => ?_, ?_⟩
    · rw [htold.values, hmap _ (List.subset_append_left _ _), List.map_append,
        List.take_left' (List.length_map _)]
    · obtain ⟨hclosed, hnil⟩ := htold.closed hpos
      rw [hnone hnil, List.append_nil, List.length_map]
      exact ⟨.inl hclosed, le_refl _⟩
    · obtain ⟨hopen, hcancelled, hnil, -⟩ := hwaiting hawait
      rw [hnone hnil, List.append_nil, List.length_map]
      exact ⟨hopen, hcancelled, le_refl _⟩
    · rw [← hasked]
      rfl
  · -- the Close message has been taken, if any
    have hnulls : ∃ n, more.map WSMessage.produced = List.replicate n none ∧
        (0 < n → t.ws.closed = true) := by
      rcases hcases with hnil | ⟨hclosed, data, hdata⟩
      · rw [(List.append_eq_nil_iff.1 hnil).1]
        exact ⟨0, rfl, fun hpos => absurd hpos (Nat.lt_irrefl 0)⟩
      · cases more with
        | nil => exact ⟨0, rfl, fun hpos => absurd hpos (Nat.lt_irrefl 0)⟩
        | cons m more =>
          obtain ⟨rfl, hnil⟩ := List.cons.inj hdata
          rw [(List.append_eq_nil_iff.1 hnil).1]
          exact ⟨1, rfl, fun _ => hclosed⟩
    obtain ⟨n, hn, hclosed⟩ := hnulls
    refine ⟨all.length, n + nulls, ?_, fun hpos => ⟨.inl ?_, ?_⟩, fun hawait => ?_, ?_⟩
    · rw [htold.values, htaken, List.map_append, hmap all (List.Subset.refl all), hn,
        List.append_assoc, List.replicate_append_replicate,
        List.take_of_length_le (Nat.le_of_eq (List.length_map _))]
    · rcases Nat.eq_zero_or_pos n with hzero | hpos'
      · exact (htold.closed (by omega)).1
      · exact hclosed hpos'
    · exact Nat.le_of_eq (List.length_map _)
    · obtain ⟨hopen, hcancelled, -, -⟩ := hwaiting hawait
      exact ⟨hopen, hcancelled, Nat.le_of_eq (List.length_map _)⟩
    · rw [← hasked]
      rfl

/-- **What `recv` yields**: in every orderly run, the texts received, one by one, and null
    once the connection is closed. -/
theorem yields_of_orderly (ho : driver.Meets Orderly es) (hrun : driver.run es = some t) :
    Yields es t := by
  obtain ⟨hinv, hasked⟩ := run_inv ho hrun
  exact hinv.yields hasked

/-- All that can be read of a buffer with a single frame. -/
theorem Reads.single {buf : Bytes} {f : Frame} {fs : List Frame} {rest : Bytes}
    (h : Reads buf fs rest) (hread : readFrame buf = .frame f buf.length) : fs = [] ∨ fs = [f] := by
  cases h with
  | nil => exact .inl rfl
  | cons hread' ht =>
    obtain ⟨rfl, rfl⟩ := Reading.frame.inj (hread.symm.trans hread')
    rw [List.drop_length] at ht
    rw [(ht.stuck nofun).1]
    exact .inr rfl

/-- The handler waits, a text arrives, the handler waits again and the connection closes. -/
theorem yields_hello : ∃ d, driver.run
    [.recv, .received [0x81, 0x81, 0, 0, 0, 0, 0x61], .recv, .cancelled] = some d ∧
      d.values = [some [0x61], none] ∧
      Yields [.recv, .received [0x81, 0x81, 0, 0, 0, 0, 0x61], .recv, .cancelled] d := by
  have hread : readFrame [0x81, 0x81, 0, 0, 0, 0, 0x61] = .frame ⟨true, 0x1, [0x61]⟩ 7 := by
    decide +kernel
  have ho : driver.Meets Orderly
      [.recv, .received [0x81, 0x81, 0, 0, 0, 0, 0x61], .recv, .cancelled] := by
    refine ⟨trivial, fun d hd => ⟨?_, fun _ _ => ⟨trivial, fun _ _ => ⟨trivial, fun _ _ => trivial⟩⟩⟩⟩
    cases hd
    refine ⟨rfl, fun fs f rest hreads _ => ?_⟩
    rcases hreads.single hread with hnil | hone
    · exact absurd hnil (by simp)
    · obtain ⟨rfl, hf⟩ := List.append_eq_singleton_iff.1 hone |>.resolve_right (by simp)
      rw [(List.singleton_inj.1 hf)]
      exact ⟨by decide, by decide⟩
  obtain ⟨d, hd⟩ := Option.isSome_iff_exists.1 (show (driver.run
    [.recv, .received [0x81, 0x81, 0, 0, 0, 0, 0x61], .recv, .cancelled]).isSome = true by
      decide +kernel)
  have hy := yields_of_orderly ho hd
  refine ⟨d, hd, ?_, hy⟩
  cases hd
  decide +kernel

/-- A pong is handed to the handler as if it were a text. -/
theorem pong_is_yielded :
    ∃ d, driver.run [.recv, .received [0x8A, 0x81, 0, 0, 0, 0, 0x61]] = some d ∧
      d.values = [some [0x61]] ∧ ¬ Yields [.recv, .received [0x8A, 0x81, 0, 0, 0, 0, 0x61]] d := by
  have hread : readFrame [0x8A, 0x81, 0, 0, 0, 0, 0x61] = .frame ⟨true, 0xA, [0x61]⟩ 7 := by
    decide +kernel
  obtain ⟨d, hd⟩ := Option.isSome_iff_exists.1 (show (driver.run
    [.recv, .received [0x8A, 0x81, 0, 0, 0, 0, 0x61]]).isSome = true by decide +kernel)
  have hvalues : d.values = [some [0x61]] := by
    cases hd
    decide +kernel
  refine ⟨d, hd, hvalues, ?_⟩
  rintro ⟨fs, rest, haccepted, -, n, nulls, htaken, -⟩
  have htexts : texts fs = [] := by
    rcases haccepted.handled.1.single hread with rfl | rfl <;> rfl
  rw [hvalues, htexts, List.take_nil, List.map_nil, List.nil_append] at htaken
  cases nulls with
  | zero => cases htaken
  | succ k => exact absurd (List.cons.inj htaken).1 nofun

end Runs

end Osodio.Ws
