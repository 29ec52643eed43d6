import Osodio.Ws.Reception

/-!
# Streams of valid frames

What a client sends that keeps to RFC 6455: messages, whole or in fragments, control
frames between them and between their fragments, and a Close frame at the end.  However
its bytes are cut, the parser queues the same messages and sends the same answers.

## Main definitions

- `Masked`, `Control`, `Message`, `Stream` — what a client sends
- `Stream.messages`, `Stream.replies` — what is to come of it

## Main results

- `Stream.handled` — the frames of a stream, handled one after the other
- `received_stream` — the same messages and the same answers, however the bytes are cut
-/

namespace Osodio.Ws

open Http (Bytes)

/-- A payload within the limit of a frame, and the key of its mask. -/
structure Masked where
  key : Bytes
  payload : Bytes
  key_length : key.length = 4
  bounded : payload.length ≤ kMaxFramePayload

/-- A ping or a pong. -/
structure Control extends Masked where
  pong : Bool
  short : payload.length ≤ 125

/-- A message in fragments, with control frames in front of all but the first. -/
structure Message where
  binary : Bool
  first : Masked
  more : List (List Control × Masked)
  within : (first.payload ++ more.flatMap fun p => p.2.payload).length ≤ kMaxMessageSize

/-- A Close frame. -/
structure Closing extends Masked where
  short : payload.length ≤ 125

/-- All that a client sends.  A message may be unfinished, with control frames behind it. -/
structure Stream where
  items : List (Control ⊕ Message)
  unfinished : Option (Message × List Control)
  closing : Option Closing

/-! ## Its frames -/

def Masked.frame (m : Masked) (fin : Bool) (opcode : UInt8)
    (h : opcode ∈ ([0x0, 0x1, 0x2] : List UInt8)) : ClientFrame where
  fin := fin
  opcode := opcode
  key := m.key
  payload := m.payload
  defined := List.mem_of_mem_take (i := 3) h
  key_length := m.key_length
  control hc := by
    have hdata : opcode = 0x0 ∨ opcode = 0x1 ∨ opcode = 0x2 := by simpa using h
    obtain rfl | rfl | rfl := hdata
    · cases hc
    · cases hc
    · cases hc
  bounded := m.bounded

def Control.frame (c : Control) : ClientFrame where
  fin := true
  opcode := if c.pong then 0xA else 0x9
  key := c.key
  payload := c.payload
  defined := by cases c.pong <;> decide
  key_length := c.key_length
  control _ := ⟨rfl, c.short⟩
  bounded := c.bounded

def Closing.frame (c : Closing) : ClientFrame where
  fin := true
  opcode := 0x8
  key := c.key
  payload := c.payload
  defined := by decide
  key_length := c.key_length
  control _ := ⟨rfl, c.short⟩
  bounded := c.bounded

/-- The fragments of a message behind the first.  The last one is final, if any is. -/
def continuations (fin : Bool) : List (List Control × Masked) → List ClientFrame
  | [] => []
  | (controls, m) :: more =>
    controls.map Control.frame ++
      m.frame (fin && more.isEmpty) 0x0 (by decide) :: continuations fin more

namespace Message

def opcode (m : Message) : UInt8 := if m.binary then 0x2 else 0x1

def frames (m : Message) (fin : Bool) : List ClientFrame :=
  m.first.frame (fin && m.more.isEmpty) m.opcode (by unfold opcode; cases m.binary <;> decide) ::
    continuations fin m.more

/-- The payload of a message. -/
def payload (m : Message) : Bytes := m.first.payload ++ m.more.flatMap fun p => p.2.payload

/-- The control frames among its fragments. -/
def controls (m : Message) : List Control := m.more.flatMap fun p => p.1

end Message

namespace Stream

def itemFrames : Control ⊕ Message → List ClientFrame
  | .inl c => [c.frame]
  | .inr m => m.frames true

/-- The frames in front of the Close frame. -/
def openFrames (st : Stream) : List ClientFrame :=
  st.items.flatMap itemFrames ++
    match st.unfinished with
    | some (m, controls) => m.frames false ++ controls.map Control.frame
    | none => []

def frames (st : Stream) : List ClientFrame :=
  st.openFrames ++ (st.closing.map Closing.frame).toList

def bytes (st : Stream) : Bytes := st.frames.flatMap ClientFrame.bytes

end Stream

/-! ## What is to come of it -/

/-- A pong is queued. -/
def Control.messages (c : Control) : List WSMessage :=
  if c.pong then [⟨.pong, c.payload⟩] else []

/-- A ping is answered by a pong with its payload. -/
def Control.replies (c : Control) : List Bytes :=
  if c.pong then [] else [buildFrame c.payload 0xA true]

/-- A message is queued once, behind the control frames among its fragments. -/
def Message.messages (m : Message) : List WSMessage :=
  m.controls.flatMap Control.messages ++ [⟨if m.binary then .binary else .text, m.payload⟩]

namespace Stream

def itemMessages : Control ⊕ Message → List WSMessage
  | .inl c => c.messages
  | .inr m => m.messages

def itemControls : Control ⊕ Message → List Control
  | .inl c => [c]
  | .inr m => m.controls

/-- The control frames of a stream, but for the Close frame. -/
def controls (st : Stream) : List Control :=
  st.items.flatMap itemControls ++
    match st.unfinished with
    | some (m, controls) => m.controls ++ controls
    | none => []

/-- The messages of a stream; of an unfinished one, only the control frames count. -/
def messages (st : Stream) : List WSMessage :=
  st.items.flatMap itemMessages ++
    (match st.unfinished with
    | some (m, controls) => (m.controls ++ controls).flatMap Control.messages
    | none => []) ++
    (st.closing.map fun c => (⟨.close, c.payload⟩ : WSMessage)).toList

def replies (st : Stream) : List Bytes :=
  st.controls.flatMap Control.replies ++ (st.closing.map fun c => WSState.echo c.payload).toList

end Stream

/-! ## Handling the frames of a stream -/

/-- The same parser with more messages queued and more frames sent. -/
def WSState.out (ms : List WSMessage) (rs : List Bytes) (s : WSState) : WSState :=
  { s with pending := s.pending ++ ms, sent := s.sent ++ rs }

/-- Handling these frames leads from `s` to `t`, and the loop goes on behind each. -/
structure Handles (cs : List ClientFrame) (s t : WSState) : Prop where
  goes : s.goesOn (cs.map ClientFrame.toFrame) = true
  all : s.handleAll (cs.map ClientFrame.toFrame) = t

section Handles

variable {s t u : WSState} {cs ds : List ClientFrame}

theorem Handles.nil : Handles [] s s := ⟨rfl, rfl⟩

theorem Handles.append (h : Handles cs s t) (h' : Handles ds t u) : Handles (cs ++ ds) s u where
  goes := by
    rw [List.map_append, WSState.goesOn_append, h.goes, h.all, h'.goes]
    rfl
  all := by rw [List.map_append, WSState.handleAll_append, h.all, h'.all]

theorem Handles.one {c : ClientFrame} (h : s.handle c.toFrame = (true, t)) : Handles [c] s t where
  goes := by rw [List.map_singleton, WSState.goesOn, h]; rfl
  all := by rw [List.map_singleton, WSState.handleAll_cons, h]; rfl

theorem out_out (ms ns : List WSMessage) (rs qs : List Bytes) (s : WSState) :
    (s.out ms rs).out ns qs = s.out (ms ++ ns) (rs ++ qs) := by
  simp only [WSState.out, List.append_assoc]

theorem out_nil (s : WSState) : s.out [] [] = s := by
  simp only [WSState.out, List.append_nil]

theorem handles_control (c : Control) (s : WSState) :
    Handles [c.frame] s (s.out c.messages c.replies) := by
  apply Handles.one
  unfold Control.messages Control.replies WSState.handle
  cases hp : c.pong with
  | false =>
    simp only [ClientFrame.toFrame, Control.frame, hp]
    simp [WSState.rawSend, WSState.out]
  | true =>
    simp only [ClientFrame.toFrame, Control.frame, hp]
    simp [WSState.push, WSState.out]

theorem handles_controls (cs : List Control) (s : WSState) : Handles (cs.map Control.frame) s
    (s.out (cs.flatMap Control.messages) (cs.flatMap Control.replies)) := by
  induction cs generalizing s with
  | nil =>
    rw [List.flatMap_nil, List.flatMap_nil, out_nil]
    exact .nil
  | cons c cs ih =>
    have h := (handles_control c s).append (ih _)
    rw [out_out] at h
    exact h

theorem fragmenting_of_opcode (h : s.fragOpcode ≠ 0) : s.fragmenting = true := by
  simp [WSState.fragmenting, h]

/-- A further fragment. -/
theorem handle_next (m : Masked) (hop : s.fragOpcode ≠ 0)
    (hsize : s.fragBuf.length + m.payload.length ≤ kMaxMessageSize) :
    Handles [m.frame false 0x0 (by decide)] s { s with fragBuf := s.fragBuf ++ m.payload } := by
  apply Handles.one
  simp [WSState.handle, ClientFrame.toFrame, Masked.frame, fragmenting_of_opcode hop,
    Nat.not_lt.2 hsize]

/-- The last fragment. -/
theorem handle_last (m : Masked) (hop : s.fragOpcode ≠ 0)
    (hsize : s.fragBuf.length + m.payload.length ≤ kMaxMessageSize) :
    Handles [m.frame true 0x0 (by decide)] s
      { s.push (.ofByte s.fragOpcode) (s.fragBuf ++ m.payload) with
        fragBuf := [], fragOpcode := 0 } := by
  apply Handles.one
  simp [WSState.handle, ClientFrame.toFrame, Masked.frame, fragmenting_of_opcode hop,
    Nat.not_lt.2 hsize]

/-- Fragments of a message that goes on. -/
theorem handles_unfinished (more : List (List Control × Masked)) (hop : s.fragOpcode ≠ 0)
    (hsize : (s.fragBuf ++ more.flatMap fun p => p.2.payload).length ≤ kMaxMessageSize) :
    Handles (continuations false more) s
      { s.out ((more.flatMap fun p => p.1).flatMap Control.messages)
          ((more.flatMap fun p => p.1).flatMap Control.replies) with
        fragBuf := s.fragBuf ++ more.flatMap fun p => p.2.payload } := by
  induction more generalizing s with
  | nil =>
    simp only [List.flatMap_nil, out_nil, List.append_nil]
    exact .nil
  | cons p more ih =>
    obtain ⟨controls, m⟩ := p
    simp only [List.flatMap_cons, List.length_append] at hsize
    have hcontrols := handles_controls controls s
    have hnext := @handle_next (s.out (controls.flatMap Control.messages)
      (controls.flatMap Control.replies)) m hop (by show s.fragBuf.length + _ ≤ _; omega)
    have hrest := @ih { s.out (controls.flatMap Control.messages)
      (controls.flatMap Control.replies) with fragBuf := s.fragBuf ++ m.payload } hop
        (by simp only [List.length_append]; omega)
    have h := hcontrols.append (hnext.append hrest)
    simp only [WSState.out, List.append_assoc] at h
    simp only [WSState.out, List.flatMap_cons, List.flatMap_append]
    exact h

/-- The fragments of a message, up to the last. -/
theorem handles_continuations (more : List (List Control × Masked)) (hne : more ≠ [])
    (hop : s.fragOpcode ≠ 0)
    (hsize : (s.fragBuf ++ more.flatMap fun p => p.2.payload).length ≤ kMaxMessageSize) :
    Handles (continuations true more) s
      { s.out ((more.flatMap fun p => p.1).flatMap Control.messages ++
            [⟨.ofByte s.fragOpcode, s.fragBuf ++ more.flatMap fun p => p.2.payload⟩])
          ((more.flatMap fun p => p.1).flatMap Control.replies) with
        fragBuf := [], fragOpcode := 0 } := by
  induction more generalizing s with
  | nil => exact absurd rfl hne
  | cons p more ih =>
    obtain ⟨controls, m⟩ := p
    simp only [List.flatMap_cons, List.length_append] at hsize
    have hcontrols := handles_controls controls s
    cases more with
    | nil =>
      have hlast := @handle_last (s.out (controls.flatMap Control.messages)
        (controls.flatMap Control.replies)) m hop (by show s.fragBuf.length + _ ≤ _; omega)
      have h := hcontrols.append hlast
      simp only [WSState.out, WSState.push, List.append_assoc] at h
      simp only [WSState.out, List.flatMap_cons, List.flatMap_nil, List.append_nil]
      exact h
    | cons q more =>
      have hnext := @handle_next (s.out (controls.flatMap Control.messages)
        (controls.flatMap Control.replies)) m hop (by show s.fragBuf.length + _ ≤ _; omega)
      have hrest := @ih { s.out (controls.flatMap Control.messages)
        (controls.flatMap Control.replies) with fragBuf := s.fragBuf ++ m.payload } (by simp) hop
          (by simp only [List.length_append]; omega)
      have h := hcontrols.append (hnext.append hrest)
      simp only [WSState.out, List.flatMap_cons, List.flatMap_append, List.append_assoc] at h ⊢
      exact h

theorem Message.opcode_data (m : Message) : m.opcode ≠ 0x8 ∧ m.opcode ≠ 0x9 ∧ m.opcode ≠ 0xA ∧
    m.opcode ≠ 0x0 ∧ Opcode.ofByte m.opcode = if m.binary then .binary else .text := by
  unfold Message.opcode
  cases m.binary <;> decide

/-- A fragment that opens a message. -/
theorem handle_first (m : Message) (hfrag : s.fragmenting = false) :
    Handles [m.first.frame false m.opcode (by unfold Message.opcode; cases m.binary <;> decide)] s
      { s with fragOpcode := m.opcode, fragBuf := m.first.payload } := by
  obtain ⟨h8, h9, hA, h0, -⟩ := m.opcode_data
  apply Handles.one
  simp [WSState.handle, ClientFrame.toFrame, Masked.frame, h8, h9, hA, h0, hfrag]

/-- **A whole message** is queued behind the control frames among its fragments. -/
theorem handles_message (m : Message) (hbuf : s.fragBuf = []) (hop : s.fragOpcode = 0) :
    Handles (m.frames true) s (s.out m.messages (m.controls.flatMap Control.replies)) := by
  obtain ⟨h8, h9, hA, h0, htype⟩ := m.opcode_data
  have hfrag : s.fragmenting = false := by simp [WSState.fragmenting, hbuf, hop]
  unfold Message.frames Message.messages Message.controls Message.payload
  have hwithin := m.within
  cases hmore : m.more with
  | nil =>
    have hone : Handles [m.first.frame true m.opcode
        (by unfold Message.opcode; cases m.binary <;> decide)] s
          (s.push (.ofByte m.opcode) m.first.payload) := by
      apply Handles.one
      simp [WSState.handle, ClientFrame.toFrame, Masked.frame, h8, h9, hA, h0, hfrag]
    simp only [WSState.push, htype] at hone
    simp only [WSState.out, List.flatMap_nil, List.append_nil, List.nil_append]
    exact hone
  | cons p more =>
    rw [hmore] at hwithin
    have hrest := @handles_continuations
      { s with fragOpcode := m.opcode, fragBuf := m.first.payload } (p :: more) (by simp) h0 hwithin
    have h := (handle_first m hfrag).append hrest
    rw [htype] at h
    -- the message leaves nothing behind
    have hsame : ∀ ms rs, ({ s.out ms rs with fragBuf := [], fragOpcode := 0 } : WSState) =
        s.out ms rs := by
      intro ms rs
      show WSState.mk _ _ [] 0 _ _ = WSState.mk _ _ s.fragBuf s.fragOpcode _ _
      rw [hbuf, hop]
      rfl
    rw [← hsame]
    exact h

/-- A message that is not finished, and the control frames behind it. -/
theorem handles_open (m : Message) (controls : List Control) (hbuf : s.fragBuf = [])
    (hop : s.fragOpcode = 0) :
    ∃ t : WSState, Handles (m.frames false ++ controls.map Control.frame) s t ∧
      t.pending = s.pending ++ (m.controls ++ controls).flatMap Control.messages ∧
      t.sent = s.sent ++ (m.controls ++ controls).flatMap Control.replies := by
  have hfrag : s.fragmenting = false := by simp [WSState.fragmenting, hbuf, hop]
  have hrest := @handles_unfinished
    { s with fragOpcode := m.opcode, fragBuf := m.first.payload } m.more m.opcode_data.2.2.2.1
    m.within
  refine ⟨_, ((handle_first m hfrag).append hrest).append (handles_controls controls _), ?_, ?_⟩
  · show s.pending ++ _ ++ _ = _
    rw [List.append_assoc, ← List.flatMap_append]
    rfl
  · show s.sent ++ _ ++ _ = _
    rw [List.append_assoc, ← List.flatMap_append]
    rfl

theorem handles_items (items : List (Control ⊕ Message)) (hbuf : s.fragBuf = [])
    (hop : s.fragOpcode = 0) :
    Handles (items.flatMap Stream.itemFrames) s
      (s.out (items.flatMap Stream.itemMessages)
        ((items.flatMap Stream.itemControls).flatMap Control.replies)) := by
  induction items generalizing s with
  | nil =>
    rw [List.flatMap_nil, List.flatMap_nil, List.flatMap_nil, List.flatMap_nil, out_nil]
    exact .nil
  | cons item items ih =>
    have hone : Handles (Stream.itemFrames item) s
        (s.out (Stream.itemMessages item) ((Stream.itemControls item).flatMap Control.replies)) := by
      cases item with
      | inl c =>
        have h := handles_controls [c] s
        simp only [List.flatMap_cons, List.flatMap_nil, List.append_nil] at h
        simp only [Stream.itemMessages, Stream.itemControls, List.flatMap_cons, List.flatMap_nil,
          List.append_nil]
        exact h
      | inr m => exact handles_message m hbuf hop
    have h := hone.append (ih (s := s.out (Stream.itemMessages item)
      ((Stream.itemControls item).flatMap Control.replies)) hbuf hop)
    rw [out_out] at h
    rw [List.flatMap_cons, List.flatMap_cons, List.flatMap_cons, List.flatMap_append]
    exact h

/-- **The frames of a stream**, handled one after the other. -/
theorem Stream.handled (st : Stream) :
    ({} : WSState).goesOn (st.frames.map ClientFrame.toFrame).dropLast = true ∧
      (({} : WSState).handleAll (st.frames.map ClientFrame.toFrame)).pending = st.messages ∧
      (({} : WSState).handleAll (st.frames.map ClientFrame.toFrame)).sent = st.replies := by
  have hitems := @handles_items {} st.items rfl rfl
  obtain ⟨t, ht, hpending, hsent⟩ : ∃ t, Handles st.openFrames {} t ∧
      t.pending = st.items.flatMap itemMessages ++
        (match st.unfinished with
        | some (m, controls) => (m.controls ++ controls).flatMap Control.messages
        | none => []) ∧
      t.sent = st.controls.flatMap Control.replies := by
    unfold Stream.openFrames Stream.controls
    cases st.unfinished with
    | none =>
      refine ⟨_, hitems.append .nil, ?_, ?_⟩
      · rw [List.append_nil]
        rfl
      · rw [List.append_nil]
        rfl
    | some p =>
      obtain ⟨m, controls⟩ := p
      obtain ⟨t, ht, hpending, hsent⟩ := @handles_open _ m controls (show (WSState.out _ _
        ({} : WSState)).fragBuf = [] from rfl) rfl
      refine ⟨t, hitems.append ht, hpending, ?_⟩
      rw [hsent]
      exact List.flatMap_append.symm
  have hdrop : ∀ {fs : List Frame} {u : WSState}, u.goesOn fs = true → u.goesOn fs.dropLast = true := by
    intro fs u h
    rcases List.eq_nil_or_concat fs with rfl | ⟨gs, f, rfl⟩
    · rfl
    · rw [List.concat_eq_append, WSState.goesOn_append, Bool.and_eq_true] at h
      rw [List.concat_eq_append, List.dropLast_concat]
      exact h.1
  unfold Stream.frames Stream.messages Stream.replies
  cases st.closing with
  | none =>
    simp only [Option.map_none, Option.toList_none, List.append_nil]
    refine ⟨hdrop ht.goes, ?_, ?_⟩
    · rw [ht.all, hpending]
    · rw [ht.all, hsent]
  | some c =>
    simp only [Option.map_some, Option.toList_some, List.map_append, List.map_singleton,
      List.dropLast_concat]
    refine ⟨ht.goes, ?_, ?_⟩
    · rw [WSState.handleAll_append, ht.all]
      show t.pending ++ [_] = _
      rw [hpending]
      rfl
    · rw [WSState.handleAll_append, ht.all]
      show t.sent ++ [_] = _
      rw [hsent]
      rfl

end Handles

/-! ## Receiving a stream -/

theorem reads_bytes (cs : List ClientFrame) (rest : Bytes) :
    Reads (cs.flatMap ClientFrame.bytes ++ rest) (cs.map ClientFrame.toFrame) rest := by
  induction cs with
  | nil => exact .nil
  | cons c cs ih =>
    rw [List.flatMap_cons, List.append_assoc]
    refine .cons (readFrame_encode c _) ?_
    rw [List.drop_left]
    exact ih

/-- What a session has queued and sent, behind a whole stream. -/
theorem stream_of_run (st : Stream) {es : List Occurrence} {s : Session} (hes : Receives es)
    (hroom : Roomy es) (hbytes : es.flatMap Occurrence.bytes = st.bytes)
    (hrun : session.run es = some s) :
    s.taken ++ s.ws.pending = st.messages ∧ s.ws.sent = st.replies := by
  have hreads : Reads st.bytes (st.frames.map ClientFrame.toFrame) [] := by
    have h := reads_bytes st.frames []
    rwa [List.append_nil] at h
  obtain ⟨hgo, hpending, hsent⟩ := st.handled
  have hfin : Finished (st.frames.map ClientFrame.toFrame) s := by
    rcases finished_of_run hreads hgo hes hroom (by rw [hbytes]) hrun with hfollows | ⟨-, hfin⟩
    · rw [hbytes] at hfollows
      exact hfollows.finished hreads
    · exact hfin
  have hq := congrArg WSState.pending hfin
  have hs := congrArg WSState.sent hfin
  exact ⟨hq.trans hpending, hs.trans hsent⟩

/-- **However a stream of valid frames is cut**, and whenever its messages are taken: as
    long as the queue has room, the messages queued and the frames sent back are the same
    as for all its bytes at once, and they are those of the stream. -/
theorem received_stream (st : Stream) {es : List Occurrence} {s : Session} (hes : Receives es)
    (hroom : Roomy es) (hbytes : es.flatMap Occurrence.bytes = st.bytes)
    (hrun : session.run es = some s) :
    (s.taken ++ s.ws.pending = st.messages ∧ s.ws.sent = st.replies) ∧
      (Roomy [.received st.bytes] → ∀ w, session.run [.received st.bytes] = some w →
        s.taken ++ s.ws.pending = w.taken ++ w.ws.pending ∧ s.ws.sent = w.ws.sent) := by
  have hs := stream_of_run st hes hroom hbytes hrun
  refine ⟨hs, fun hroom' w hw => ?_⟩
  have honce : Receives [.received st.bytes] := fun e he =>
    .inr ⟨st.bytes, List.mem_singleton.1 he⟩
  have hw := stream_of_run st honce hroom' (List.append_nil _) hw
  rw [hs.1, hs.2, hw.1, hw.2]
  exact ⟨rfl, rfl⟩

/-- A text in two fragments with a ping between them, cut in the middle of the ping. -/
def helloStream : Stream where
  items := [.inr
    { binary := false
      first := ⟨[1, 2, 3, 4], [0x68, 0x65], rfl, by decide⟩
      more := [([⟨⟨[0, 0, 0, 0], [0x21], rfl, by decide⟩, false, by decide⟩],
        ⟨[5, 6, 7, 8], [0x79], rfl, by decide⟩)]
      within := by decide }]
  unfinished := none
  closing := none

theorem received_helloStream :
    let es := [.received (helloStream.bytes.take 9), .recv, .received (helloStream.bytes.drop 9)]
    ∃ s, session.run es = some s ∧ s.taken ++ s.ws.pending = helloStream.messages ∧
      helloStream.messages = [⟨.text, [0x68, 0x65, 0x79]⟩] ∧
      s.ws.sent = [[0x8A, 1, 0x21]] := by
  intro es
  have hes : Receives es := by
    intro e he
    simp only [es, List.mem_cons, List.not_mem_nil, or_false] at he
    rcases he with rfl | rfl | rfl
    · exact .inr ⟨_, rfl⟩
    · exact .inl rfl
    · exact .inr ⟨_, rfl⟩
  have hroom : Roomy es := roomy_of_inits (by decide +kernel)
  obtain ⟨s, hs⟩ := Option.isSome_iff_exists.1
    (show (session.run es).isSome = true by decide +kernel)
  obtain ⟨⟨hm, hr⟩, -⟩ := received_stream helloStream hes hroom (by decide +kernel) hs
  exact ⟨s, hs, hm, by decide, by rw [hr]; decide⟩

end Osodio.Ws
