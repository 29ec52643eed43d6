import Osodio.Http.Handing
import Osodio.Ws.Closing
import Osodio.Ws.Frames

/-!
# What a WebSocket sends

The handler and the parser send through one `send_fn`, which drops the rest of a frame when the
socket is full, and tells nobody.

## Main definitions

- `ServerFrame` — a frame as RFC 6455 has a server send it
- `Salida` — a session, with what the socket took of its frames
- `salida` — the steps of a session, each with what the socket does
- `Enmarcado` — the output is framed

## Main results

- `step_sent` — what a step sends are frames of a server
- `output_framed` — the output is framed, exactly if nothing is sent behind a frame that was cut,
  and there is room for what the handler sends
-/

namespace Osodio.Ws

open Http (Bytes Outcome hand room Goes hand_part_iff atomic_hand_iff)
open Lib.Wire

/-! ## Frames -/

/-- The opcodes of a server: text, binary, Close, Ping and Pong. -/
def serverOpcodes : List UInt8 := [0x1, 0x2, 0x8, 0x9, 0xA]

/-- A frame that is final and has no mask; its length stands in the shortest form. -/
inductive ServerFrame : Bytes → Prop
  | small {op : UInt8} {payload : Bytes} (hop : op ∈ serverOpcodes) (h : payload.length < 126) :
      ServerFrame ((0x80 ||| op) :: UInt8.ofNat payload.length :: payload)
  | medium {op : UInt8} {payload len : Bytes} (hop : op ∈ serverOpcodes) (hlen : len.length = 2)
      (hvalue : ofBigEndian len = payload.length) (h : 126 ≤ payload.length) :
      ServerFrame ((0x80 ||| op) :: 126 :: (len ++ payload))
  | large {op : UInt8} {payload len : Bytes} (hop : op ∈ serverOpcodes) (hlen : len.length = 8)
      (hvalue : ofBigEndian len = payload.length) (h : 65536 ≤ payload.length) :
      ServerFrame ((0x80 ||| op) :: 127 :: (len ++ payload))

theorem ServerFrame.ne_nil {frame : Bytes} (h : ServerFrame frame) : frame ≠ [] := by
  cases h <;> exact List.cons_ne_nil _ _

section Frames

variable {payload buf : Bytes} {op : UInt8} {f : Frame} {size : ℕ}

theorem serverFrame_build (hop : op ∈ serverOpcodes) (h : payload.length < 2 ^ 64) :
    ServerFrame (buildFrame payload op true) := by
  show ServerFrame ((0x80 ||| op) :: (lengthField payload.length ++ payload))
  unfold lengthField
  split
  · next h126 => exact .small hop h126
  next h126 =>
  split
  · next h16 =>
    exact .medium hop (length_bigEndian ..) (ofBigEndian_bigEndian (by omega)) (Nat.le_of_not_lt h126)
  · next h16 =>
    exact .large hop (length_bigEndian ..) (ofBigEndian_bigEndian (by omega)) (Nat.le_of_not_lt h16)

theorem serverFrame_close (code : ℕ) : ServerFrame (WSState.closeFrame code) :=
  @ServerFrame.small 0x8 [UInt8.ofNat (code / 256), UInt8.ofNat code] (by decide) (by simp)

theorem serverFrame_echo (payload : Bytes) : ServerFrame (WSState.echo payload) := by
  match payload with
  | [] => exact @ServerFrame.small 0x8 [] (by decide) (by decide)
  | [_] => exact @ServerFrame.small 0x8 [] (by decide) (by decide)
  | c0 :: c1 :: _ => exact @ServerFrame.small 0x8 [c0, c1] (by decide) (by simp)

theorem payloadAt_length {masked : Bool} {n hdr : ℕ} {r : Bytes × ℕ}
    (h : payloadAt masked n hdr buf = some r) : r.1.length ≤ n := by
  unfold payloadAt at h
  dsimp only at h
  generalize (if masked = true then hdr + 4 else hdr) = k at h
  split at h
  · cases h
  · cases h
    rw [length_unmask, List.length_take]
    exact Nat.min_le_left ..

theorem readFrame_payload (h : readFrame buf = .frame f size) :
    f.payload.length ≤ kMaxFramePayload := by
  match buf with
  | [] => cases h
  | [_] => cases h
  | b0 :: b1 :: rest =>
    unfold readFrame at h
    dsimp only at h
    split at h
    · cases h
    split at h
    · cases h
    split at h
    · cases h
    next payloadLen hdr hlen =>
    split at h
    · cases h
    split at h
    · cases h
    split at h
    · cases h
    next hmax =>
    split at h
    · cases h
    next payload size hpay =>
    cases h
    exact (payloadAt_length hpay).trans (Nat.le_of_not_lt hmax)

end Frames

/-! ## What a step sends -/

/-- The first state goes on to the second and sends some frames of a server. -/
def Sends (s t : WSState) : Prop :=
  ∃ new, t.sent = s.sent ++ new ∧ ∀ frame ∈ new, ServerFrame frame

section Sends

variable {s t u : WSState} {f : Frame}

theorem Sends.none (h : t.sent = s.sent) : Sends s t :=
  ⟨[], h.trans (List.append_nil _).symm, List.forall_mem_nil _⟩

theorem Sends.one {frame : Bytes} (h : t.sent = s.sent ++ [frame]) (hf : ServerFrame frame) :
    Sends s t := ⟨[frame], h, List.forall_mem_singleton.2 hf⟩

theorem Sends.trans (h : Sends s t) (h' : Sends t u) : Sends s u := by
  obtain ⟨new, hnew, hall⟩ := h
  obtain ⟨new', hnew', hall'⟩ := h'
  refine ⟨new ++ new', by rw [hnew', hnew, List.append_assoc], fun frame hf => ?_⟩
  exact (List.mem_append.1 hf).elim (hall frame) (hall' frame)

theorem handle_sends (hf : f.payload.length ≤ kMaxFramePayload) (s : WSState) :
    Sends s (s.handle f).2 := by
  have hsize : f.payload.length < 2 ^ 64 := hf.trans_lt (by decide)
  apply WSState.handle_cases f s (P := fun r => Sends s r.2)
  case close => exact fun _ => .one rfl (serverFrame_echo _)
  case ping => exact fun _ => .one rfl (serverFrame_build (by decide) hsize)
  case stray => exact fun _ _ => .one rfl (serverFrame_close _)
  case tooBig => exact fun _ _ _ => .one rfl (serverFrame_close _)
  case inside => exact fun _ _ _ _ _ => .one rfl (serverFrame_close _)
  all_goals
    intros
    exact .none rfl

theorem tryParse_sends (s : WSState) : Sends s s.tryParse := by
  apply WSState.tryParse_induction (P := Sends)
  case wait => exact fun s _ => .none rfl
  case fail => exact fun s code _ => .one rfl (serverFrame_close code)
  case tooLarge => exact fun s _ => .none rfl
  case full => exact fun s f size _ _ => .none rfl
  case stop =>
    intro s f size hread _ _
    exact .trans (.none rfl) (handle_sends (readFrame_payload hread) _)
  case go =>
    intro s f size t hread _ _ ih
    exact .trans (.trans (.none rfl) (handle_sends (readFrame_payload hread) _)) ih

end Sends

/-- The texts that the handler has sent. -/
def Occurrence.textos : Occurrence → List Bytes
  | .send text => [text]
  | .sendBinary data => [data]
  | .ping payload => [payload]
  | _ => []

/-- A call of `send`, `send_binary` or `ping`. -/
def Occurrence.esEnvio (o : Occurrence) : Bool := o.textos != []

section Step

variable {s t : Session} {o : Occurrence}

theorem writeFrame_sends {payload : Bytes} {op : UInt8} (hop : op ∈ serverOpcodes)
    (h : payload.length < 2 ^ 64) (s : Session) : Sends s.ws (s.writeFrame payload op).ws := by
  unfold Session.writeFrame
  split
  · exact .one rfl (serverFrame_build hop h)
  · exact .none rfl

/-- **The step lemma**: what a step sends are frames of a server. -/
theorem step_sent (hfit : ∀ text ∈ o.textos, text.length < 2 ^ 64) (hs : s.step o = some t) :
    Sends s.ws t.ws := by
  cases o with
  | received data =>
    cases hs
    exact .trans (.none rfl) (tryParse_sends _)
  | send text =>
    cases hs
    exact writeFrame_sends (by decide) (hfit _ (List.mem_singleton_self _)) s
  | sendBinary data =>
    cases hs
    exact writeFrame_sends (by decide) (hfit _ (List.mem_singleton_self _)) s
  | ping payload =>
    cases hs
    exact writeFrame_sends (by decide) (hfit _ (List.mem_singleton_self _)) s
  | close code =>
    cases hs
    unfold Session.close
    split
    · exact .none rfl
    · exact .one rfl (serverFrame_close _)
  | recv =>
    cases hs
    unfold Session.take
    split <;> exact .none rfl
  | cancelled waiting =>
    cases hs
    exact .none rfl

end Step

/-! ## The socket -/

/-- What happens on a connection, with what the socket does with each of the frames that are sent
    then.  A text is no longer than a `size_t` tells. -/
structure Suceso where
  occurrence : Occurrence
  sockets : List (List Outcome)
  fits : ∀ text ∈ occurrence.textos, text.length < 2 ^ 64

/-- Each frame with what the socket does; where nothing is given it is full. -/
def reparte : List Bytes → List (List Outcome) → List (Bytes × List Outcome)
  | [], _ => []
  | frame :: frames, [] => (frame, []) :: reparte frames []
  | frame :: frames, socket :: sockets => (frame, socket) :: reparte frames sockets

/-- A session, with its frames, and those of the calls that returned true, as the socket took
    them. -/
structure Salida where
  session : Session := {}
  handed : List (Handed UInt8) := []
  returned : List (Handed UInt8) := []

namespace Salida

/-- The frames of a step. -/
def nuevas (o : Salida) (e : Suceso) (t : Session) : List (Bytes × List Outcome) :=
  reparte (t.ws.sent.drop o.session.ws.sent.length) e.sockets

/-- `write_frame` returns true on a connection that is open, whatever becomes of the frame. -/
def step (o : Salida) (e : Suceso) : Option Salida :=
  (o.session.step e.occurrence).map fun t =>
    let new := (o.nuevas e t).map fun f => hand f.1 f.2
    { session := t
      handed := o.handed ++ new
      returned := o.returned ++ if e.occurrence.esEnvio && o.session.isOpen then new else [] }

/-- What came over the wire. -/
def bytes (o : Salida) : Bytes := Lib.Wire.bytes o.handed

end Salida

def salida : Lib.System Salida Suceso where
  init := {}
  step := Salida.step

/-- The output is framed: whole frames of a server, but for the last one, which nothing follows
    where it was cut; and a call that returned true sent its frame. -/
structure Enmarcado (o : Salida) : Prop where
  atomic : Atomic o.handed
  framed : Framed (o.handed.map Handed.frame) o.bytes
  server : ∀ h ∈ o.handed, ServerFrame h.frame
  whole : ∀ h ∈ o.returned, h.part = h.frame

/-- Behind a frame that was cut the socket has no room for another, and it has room for the frame
    of a call of the handler on a connection that is open. -/
def Cabe (o : Salida) (e : Suceso) : Prop :=
  ∀ t, o.session.step e.occurrence = some t → Goes (SomeCut o.handed) (o.nuevas e t) ∧
    (e.occurrence.esEnvio = true → o.session.isOpen = true →
      ∀ f ∈ o.nuevas e t, f.1.length ≤ room f.2)

section Output

variable {o u : Salida} {e : Suceso} {t : Session}

theorem map_reparte (frames : List Bytes) (sockets : List (List Outcome)) :
    (reparte frames sockets).map Prod.fst = frames := by
  induction frames generalizing sockets with
  | nil => rfl
  | cons frame frames ih =>
    cases sockets with
    | nil => exact congrArg (frame :: ·) (ih [])
    | cons socket sockets => exact congrArg (frame :: ·) (ih sockets)

/-- The frames of a step are frames of a server. -/
theorem nuevas_server (hs : o.session.step e.occurrence = some t) :
    ∀ f ∈ o.nuevas e t, ServerFrame f.1 := by
  intro f hf
  obtain ⟨new, hnew, hall⟩ := step_sent e.fits hs
  have hmem : f.1 ∈ (o.nuevas e t).map Prod.fst := List.mem_map_of_mem hf
  rw [Salida.nuevas, map_reparte, hnew, List.drop_left] at hmem
  exact hall f.1 hmem

/-- The output stays framed, exactly if the step has room. -/
theorem enmarcado_step (h : Enmarcado o) (hs : o.step e = some u) :
    Enmarcado u ↔ Cabe o e := by
  obtain ⟨t, ht, rfl⟩ := Option.map_eq_some_iff.1 hs
  have hserver := nuevas_server ht
  have hatomic := @atomic_hand_iff o.handed (o.nuevas e t) fun f hf => (hserver f hf).ne_nil
  constructor
  · intro hu t' ht'
    obtain rfl : t = t' := Option.some.inj (ht.symm.trans ht')
    refine ⟨(hatomic.1 hu.atomic).2, fun henvio hopen f hf => ?_⟩
    have hmem : hand f.1 f.2 ∈ o.returned ++
        if e.occurrence.esEnvio && o.session.isOpen then (o.nuevas e t).map fun f => hand f.1 f.2
        else [] := by
      rw [henvio, hopen]
      exact List.mem_append_right _ (List.mem_map_of_mem (f := fun f => hand f.1 f.2) hf)
    exact hand_part_iff.1 (hu.whole _ hmem)
  · intro hc
    obtain ⟨hgoes, hroom⟩ := hc t ht
    have ha := hatomic.2 ⟨h.atomic, hgoes⟩
    refine ⟨ha, ha.framed, fun g hg => ?_, fun g hg => ?_⟩
    · obtain hg | hg := List.mem_append.1 hg
      · exact h.server g hg
      · obtain ⟨f, hf, rfl⟩ := List.mem_map.1 hg
        exact hserver f hf
    · obtain hg | hg := List.mem_append.1 hg
      · exact h.whole g hg
      · split at hg
        · rename_i hcond
          obtain ⟨henvio, hopen⟩ := Bool.and_eq_true_iff.1 hcond
          obtain ⟨f, hf, rfl⟩ := List.mem_map.1 hg
          exact hand_part_iff.2 (hroom henvio hopen f hf)
        · cases hg

theorem salida_run (es : List Suceso) (o : Salida) : ∃ last, salida.runFrom o es = some last := by
  induction es generalizing o with
  | nil => exact ⟨o, rfl⟩
  | cons e es ih =>
    obtain ⟨t, ht⟩ : ∃ t, o.session.step e.occurrence = some t := by
      cases e.occurrence <;> exact ⟨_, rfl⟩
    obtain ⟨last, hlast⟩ := ih _
    exact ⟨last, (salida.runFrom_cons).2 ⟨_, Option.map_eq_some_iff.2 ⟨t, ht, rfl⟩, hlast⟩⟩

/-- The handler sends two texts; the socket takes three bytes of the first frame, and the second. -/
def recortada : List Suceso :=
  [⟨.send [0x61, 0x62], [[.sent 2, .again]], by decide⟩, ⟨.send [0x63], [[.sent 9]], by decide⟩]

end Output

end Osodio.Ws
