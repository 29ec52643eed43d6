import Osodio.Ws.Closing
import Osodio.Ws.Frames

/-!
# What a session has received

However the bytes of the client are cut, and whenever its messages are taken, a session
that is open has handled the frames in front of what it has received.

## Main definitions

- `Session.history` — the parser, with every message that it has ever queued
- `Receives` — a run in which bytes arrive and messages are taken
- `Follows` — the session has handled the frames in front of the bytes

## Main results

- `received_ends` — what a `feed` makes of a session that follows
- `finished_of_run` — a stream of frames is handled as if it had come at once
-/

namespace Osodio.Ws

open Http (Bytes)
open WSState (Ends)

/-- The parser, with the messages that the handler has taken still in its queue. -/
def Session.history (s : Session) : WSState := s.ws.upon s.taken s.ws.readBuf

/-- Bytes arrive and messages are taken. -/
def Receives (es : List Occurrence) : Prop := ∀ e ∈ es, e = .recv ∨ ∃ data, e = .received data

/-- The bytes that arrive. -/
def Occurrence.bytes : Occurrence → Bytes
  | .received data => data
  | _ => []

/-- Fewer than so many messages are waiting, at any time. -/
def Roomy (es : List Occurrence) : Prop :=
  ∀ before s, before <+: es → session.run before = some s → s.ws.pending.length < kMaxPendingFrames

/-- The session is open and has handled the frames in front of the bytes `b`. -/
def Follows (b : Bytes) (s : Session) : Prop :=
  ∃ fs, Reads b fs s.ws.readBuf ∧ ({} : WSState).goesOn fs = true ∧
    readFrame s.ws.readBuf = .wait ∧
    s.history = (({} : WSState).handleAll fs).upon [] s.ws.readBuf

section Reception

variable {b data rest : Bytes} {s t : Session} {es : List Occurrence} {fs : List Frame}

theorem roomy_of_inits (h : ∀ before ∈ es.inits, (session.run before).all
    (fun s => decide (s.ws.pending.length < kMaxPendingFrames)) = true) : Roomy es := by
  intro before s hb hs
  have hs' := h before ((List.mem_inits _ _).2 hb)
  rw [hs] at hs'
  exact of_decide_eq_true hs'

theorem goesOn_closed {u : WSState} (h : u.goesOn fs = true) : (u.handleAll fs).closed = u.closed := by
  induction fs generalizing u with
  | nil => rfl
  | cons f fs ih =>
    rw [WSState.goesOn, Bool.and_eq_true] at h
    rw [WSState.handleAll_cons, ih h.2]
    have hone : (u.handle f).1 = true → (u.handle f).2.closed = u.closed := by
      apply WSState.handle_cases f u (P := fun r => r.1 = true → r.2.closed = u.closed) <;>
        intros <;> first | rfl | contradiction
    exact hone h.1

theorem Follows.opened (h : Follows b s) : s.ws.closed = false := by
  obtain ⟨fs, -, hgo, -, hhist⟩ := h
  have hclosed : s.history.closed = false := by
    rw [hhist]
    exact goesOn_closed hgo
  exact hclosed

/-- **What a `feed` makes of the bytes so far.** -/
theorem received_ends (h : Follows b s)
    (hroom : (s.received data).ws.pending.length < kMaxPendingFrames) :
    ∃ fs rest, Reads (b ++ data) fs rest ∧ ({} : WSState).goesOn fs = true ∧
      Ends (({} : WSState).handleAll fs) rest (s.received data).history := by
  obtain ⟨fs, hreads, hgo, -, hhist⟩ := h
  obtain ⟨gs, rest, hreads', hgo', hends⟩ :=
    WSState.tryParse_reads { s.ws with readBuf := s.ws.readBuf ++ data } hroom
  -- the messages that were taken stand in front of the queue again
  have hstart : (({ s.ws with readBuf := s.ws.readBuf ++ data } : WSState).upon s.taken
      (({} : WSState).handleAll fs).readBuf) = ({} : WSState).handleAll fs :=
    congrArg (WSState.upon [] (({} : WSState).handleAll fs).readBuf) hhist
  refine ⟨fs ++ gs, rest, (hreads.append data).trans hreads', ?_, ?_⟩
  · rw [WSState.goesOn_append, hgo, Bool.true_and, ← hstart, WSState.goesOn_over]
    exact hgo'
  · have hover := hends.upon s.taken (({} : WSState).handleAll fs).readBuf
    rw [← WSState.handleAll_over, hstart, ← WSState.handleAll_append] at hover
    exact hover

theorem take_history (s : Session) : s.take.history = s.history ∧
    s.take.ws.readBuf = s.ws.readBuf := by
  unfold Session.take
  split
  · next m rest h =>
    refine ⟨?_, rfl⟩
    show WSState.upon (s.taken ++ [m]) s.ws.readBuf { s.ws with pending := rest } = s.history
    rw [Session.history, WSState.upon, WSState.upon, h, List.append_assoc]
    rfl
  · exact ⟨rfl, rfl⟩

/-- Nothing comes of a `feed` without bytes, in front of an empty buffer. -/
theorem received_nil (h : s.ws.readBuf = []) : (s.received []).history = s.history := by
  have hws : s.ws.feed [] = s.ws := by
    rw [WSState.feed, h, WSState.tryParse_wait rfl]
    show ({ s.ws with readBuf := [] } : WSState) = s.ws
    rw [← h]
  show WSState.upon s.taken (s.ws.feed []).readBuf (s.ws.feed []) = _
  rw [hws]
  rfl

/-- Where every frame of a stream has been handled. -/
def Finished (all : List Frame) (s : Session) : Prop :=
  s.history = (({} : WSState).handleAll all).upon [] []

theorem Follows.finished {all : List Frame} (hb : Reads b all []) (h : Follows b s) :
    Finished all s := by
  obtain ⟨fs, hreads, -, hwait, hhist⟩ := h
  have hno : ∀ f size, readFrame s.ws.readBuf ≠ .frame f size := by
    intro f size hf
    rw [hwait] at hf
    cases hf
  rcases hreads.prefixes hb with ⟨more, rfl, hmore⟩ | ⟨more, rfl, hmore⟩
  · obtain ⟨rfl, hnil⟩ := hmore.stuck hno
    rw [Finished, hhist, List.append_nil, hnil]
  · obtain ⟨rfl, hnil⟩ := hmore.stuck nofun
    rw [Finished, hhist, List.append_nil, hnil]

/-- One more piece of a stream of frames. -/
theorem received_finished {all : List Frame} {stream : Bytes} (hstream : Reads stream all [])
    (hgo : ({} : WSState).goesOn all.dropLast = true) (hbytes : b ++ data <+: stream)
    (h : Follows b s) (hroom : (s.received data).ws.pending.length < kMaxPendingFrames) :
    Follows (b ++ data) (s.received data) ∨
      b ++ data = stream ∧ Finished all (s.received data) := by
  obtain ⟨fs, rest, hreads, hgoes, hends⟩ := received_ends h hroom
  obtain ⟨later, rfl⟩ := hbytes
  -- the frames read so far are the first ones of the stream
  obtain ⟨more, hmore, hrest⟩ : ∃ more, all = fs ++ more ∧ Reads (rest ++ later) more [] := by
    rcases (hreads.append later).prefixes hstream with h | ⟨more, rfl, hmore⟩
    · exact h
    · obtain ⟨rfl, hnil⟩ := hmore.stuck nofun
      exact ⟨[], by simp, by rw [hnil]; exact .nil⟩
  -- where no frame stands in front of the rest, and none ever will, the stream is over
  have hdead : ∀ r, readFrame rest = r → r ≠ .wait → (∀ f size, r ≠ .frame f size) → False := by
    intro r hr hw hf
    have happ : readFrame (rest ++ later) = r := by
      rw [readFrame_append later (by rw [hr]; exact hw), hr]
    obtain ⟨-, hnil⟩ := hrest.stuck fun f size hc => hf f size (happ.symm.trans hc)
    have hempty : rest = [] := (List.append_eq_nil_iff.1 hnil.symm).1
    rw [hempty] at hr
    exact hw hr.symm
  generalize hu : (({} : WSState).handleAll fs) = u at hends
  generalize ht : (s.received data).history = t at hends
  cases hends with
  | wait h =>
    have hbuf : (s.received data).ws.readBuf = rest := congrArg WSState.readBuf ht
    refine .inl ⟨fs, ?_, hgoes, ?_, ?_⟩
    · rwa [hbuf]
    · rwa [hbuf]
    · rw [ht, hu, hbuf]
      rfl
  | fail h => exact (hdead _ h nofun nofun).elim
  | tooLarge h => exact (hdead _ h nofun nofun).elim
  | @stop f size h hstop =>
    have happ : readFrame (rest ++ later) = .frame f size := by
      rw [readFrame_append later (by rw [h]; nofun), h]
    have hsize := readFrame_size h
    have hdrop : (rest ++ later).drop size = rest.drop size ++ later :=
      List.drop_append_of_le_length hsize.2
    generalize rest ++ later = r at hrest happ hdrop
    cases hrest with
    | nil => cases happ
    | @cons _ _ _ _ more hf ht' =>
      obtain ⟨rfl, rfl⟩ := Reading.frame.inj (happ.symm.trans hf)
      cases more with
      | cons g more =>
        rw [hmore, List.dropLast_append_of_ne_nil (by nofun), WSState.goesOn_append, hu] at hgo
        simp [WSState.goesOn, hstop] at hgo
      | nil =>
        generalize hr : r.drop size = r' at ht' hdrop
        cases ht'
        obtain ⟨hrest, rfl⟩ := List.append_eq_nil_iff.1 hdrop.symm
        refine .inr ⟨(List.append_nil _).symm, ?_⟩
        rw [Finished, ht, hrest, hmore, WSState.handleAll_append, hu]
        rfl

/-- **However a stream is cut**: a session that receives frames of which all but the last
    let it go on handles them as if they had come at once. -/
theorem finished_of_run {all : List Frame} {stream : Bytes} (hstream : Reads stream all [])
    (hgo : ({} : WSState).goesOn all.dropLast = true) (hes : Receives es) (hroom : Roomy es)
    (hbytes : es.flatMap Occurrence.bytes <+: stream) (hrun : session.run es = some s) :
    Follows (es.flatMap Occurrence.bytes) s ∨
      es.flatMap Occurrence.bytes = stream ∧ Finished all s := by
  induction es using List.reverseRecOn generalizing s with
  | nil =>
    cases hrun
    exact .inl ⟨[], .nil, rfl, rfl, rfl⟩
  | append_singleton es e ih =>
    obtain ⟨u, hu, hue⟩ := session.runFrom_concat.1 hrun
    rw [List.flatMap_append] at hbytes ⊢
    have hprefix : es <+: es ++ [e] := List.prefix_append _ _
    have ih := ih (fun e he => hes e (List.mem_append_left _ he))
      (fun before t hb => hroom before t (hb.trans hprefix))
      ((List.prefix_append _ _).trans hbytes) hu
    rcases hes e (List.mem_append_right _ (List.mem_singleton_self e)) with rfl | ⟨data, rfl⟩
    · cases hue
      obtain ⟨hhist, hbuf⟩ := take_history u
      have hnone : es.flatMap Occurrence.bytes ++ [Occurrence.recv].flatMap Occurrence.bytes =
          es.flatMap Occurrence.bytes := List.append_nil _
      rw [hnone]
      rcases ih with ⟨fs, hreads, hgoes, hwait, hfs⟩ | ⟨hall, hfin⟩
      · refine .inl ⟨fs, ?_, hgoes, ?_, ?_⟩
        · rwa [hbuf]
        · rwa [hbuf]
        · rw [hhist, hbuf]
          exact hfs
      · exact .inr ⟨hall, hhist.trans hfin⟩
    · cases hue
      have hdata : [Occurrence.received data].flatMap Occurrence.bytes = data :=
        List.append_nil _
      rw [hdata] at hbytes ⊢
      rcases ih with hfollows | ⟨hall, hfin⟩
      · exact received_finished hstream hgo hbytes hfollows (hroom _ _ (List.prefix_refl _) hrun)
      · -- behind the whole stream no bytes are left
        obtain ⟨later, hlater⟩ := hbytes
        have hnil : data = [] := by
          have hlen := congrArg List.length hlater
          rw [List.length_append, List.length_append, hall] at hlen
          exact List.eq_nil_of_length_eq_zero (by omega)
        have hempty : u.ws.readBuf = [] := congrArg WSState.readBuf hfin
        subst hnil
        rw [List.append_nil]
        exact .inr ⟨hall, (received_nil hempty).trans hfin⟩

end Reception

end Osodio.Ws
