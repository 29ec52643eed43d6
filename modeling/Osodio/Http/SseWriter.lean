import Osodio.Http.Handing
import Osodio.Http.Sse
import Osodio.Lib.Transition

/-!
# Events on the wire

The writer of a connection hands the frames to the socket, one after the other.  Nobody closes the
connection when a frame is cut: that is left to the handler, which may go on.

## Main definitions

- `rawWrite`, `SSEWriter` — the writer, with what the socket took
- `conexion` — a connection, from the first event on
- `Integro` — the frames are whole, but for the last one

## Main results

- `parse_back` — where the writes succeed the reader gets what was sent
- `frames_atomic` — frames stay whole, exactly if nothing is sent behind one that was cut
-/

namespace Osodio.Http.Sse

open Lib.EventStream Lib.Wire

/-! ## The writer -/

/-- A call: its frame, with what the socket took of it, and what it returned. -/
structure Entrega where
  handed : Handed UInt8
  ok : Bool

/-- The writer, which is open as long as the token of the connection is not cancelled. -/
structure SSEWriter where
  isOpen : Bool := true
  entregas : List Entrega := []

/-- What happens on a connection: a call, with what the calls of `write` come to; or the end of the
    connection, which cancels the token. -/
inductive Paso where
  | envia (call : Envio) (socket : List Outcome)
  | cancela
  deriving DecidableEq, Repr

/-- `raw_write`, which takes a frame that is dropped as a whole for no failure. -/
def rawWrite (isOpen : Bool) (frame : Bytes) (socket : List Outcome) : Entrega :=
  if isOpen then
    ⟨hand frame socket,
      match handEnd frame socket with
      | .whole => true
      | .full => (hand frame socket).taken = 0
      | .broken => false⟩
  else ⟨⟨frame, 0, Nat.zero_le _⟩, false⟩

namespace SSEWriter

def paso (w : SSEWriter) : Paso → SSEWriter
  | .envia call socket =>
    { w with entregas := w.entregas ++ [rawWrite w.isOpen call.frame socket] }
  | .cancela => { w with isOpen := false }

/-- The frames, with what the socket took of them. -/
def handed (w : SSEWriter) : List (Handed UInt8) := w.entregas.map Entrega.handed

/-- What came over the wire. -/
def bytes (w : SSEWriter) : Bytes := Lib.Wire.bytes w.handed

end SSEWriter

/-- A connection from the first event on. -/
def conexion : Lib.System SSEWriter Paso where
  init := {}
  step w p := some (w.paso p)

/-! ## What the reader gets -/

section Reader

variable {w : SSEWriter} {calls : List (Envio × List Outcome)}

theorem frame_ne (c : Envio) : c.frame ≠ [] := by
  obtain ⟨y, hy⟩ := frame_eq c
  rw [hy]
  exact List.append_ne_nil_of_right_ne_nil _ (List.cons_ne_nil _ _)

/-- No frame begins with a byte order mark. -/
theorem frame_head (c : Envio) : c.frame.head? ≠ some 0xEF := by
  have hframe : ∀ event data id, (writeFrame event data id).head? ≠ some 0xEF := by
    intro event data id
    rw [writeFrame_eq]
    by_cases hid : id = []
    · by_cases hev : event = []
      · simp [hid, hev, camposData, nombreData]
      · simp [hid, hev, camposEvent, nombreEvent]
    · simp [hid, camposId, nombreId]
  cases c with
  | send data => exact hframe _ _ _
  | sendEvent event data id => exact hframe _ _ _
  | ping comment =>
    show some (0x3A : UInt8) ≠ some 0xEF
    decide

theorem sinBom_eq {s : Bytes} (h : s.head? ≠ some 0xEF) : sinBom s = s := by
  unfold sinBom
  split
  · exact absurd rfl h
  · rfl

theorem parse_frames (cs : List Envio) : parse (cs.flatMap Envio.frame) =
    eventos {} (lineas false [] (cs.flatMap Envio.frame)) := by
  have hhead : (cs.flatMap Envio.frame).head? ≠ some 0xEF := by
    cases cs with
    | nil => nofun
    | cons c cs =>
      rw [List.flatMap_cons, List.head?_append_of_ne_nil _ (frame_ne c)]
      exact frame_head c
  rw [parse, sinBom_eq hhead]

/-- Where the writes succeed the frames are on the wire. -/
theorem run_bytes (h : ∀ p ∈ calls, p.1.frame.length ≤ room p.2) (w : SSEWriter)
    (ho : w.isOpen = true) : ∃ w', conexion.runFrom w (calls.map fun p => .envia p.1 p.2) = some w' ∧
      w'.bytes = w.bytes ++ calls.flatMap fun p => p.1.frame := by
  induction calls generalizing w with
  | nil => exact ⟨w, rfl, (List.append_nil _).symm⟩
  | cons p calls ih =>
    obtain ⟨hp, h⟩ := List.forall_mem_cons.1 h
    obtain ⟨w', hrun, hbytes⟩ := ih h (w.paso (.envia p.1 p.2)) ho
    refine ⟨w', hrun, ?_⟩
    have hpart : (rawWrite w.isOpen p.1.frame p.2).handed.part = p.1.frame := by
      rw [ho]
      exact hand_part hp
    have hone : (w.paso (.envia p.1 p.2)).bytes = w.bytes ++ p.1.frame := by
      show Lib.Wire.bytes ((w.entregas ++ [_]).map Entrega.handed) = _
      rw [List.map_append, List.map_singleton, bytes_concat, hpart]
      rfl
    rw [hbytes, hone, List.flatMap_cons, List.append_assoc]

end Reader

/-! ## Whole frames -/

/-- Nothing follows a frame that was cut, so that the wire holds whole frames but for the last one;
    and a call that returned true sent its frame as a whole, or nothing of it. -/
structure Integro (w : SSEWriter) : Prop where
  atomic : Atomic w.handed
  framed : Framed (w.handed.map Handed.frame) w.bytes
  honest : ∀ e ∈ w.entregas, e.ok = true → e.handed.part = e.handed.frame ∨ e.handed.taken = 0

/-- After a frame was cut, none is handed to a socket that has room. -/
def Sigue (w : SSEWriter) : Paso → Prop
  | .envia _ socket => w.isOpen = true → SomeCut w.handed → room socket = 0
  | .cancela => True

section Frames

variable {w w' : SSEWriter} {p : Paso}

theorem rawWrite_honest (isOpen : Bool) (frame : Bytes) (socket : List Outcome)
    (h : (rawWrite isOpen frame socket).ok = true) :
    (rawWrite isOpen frame socket).handed.part = (rawWrite isOpen frame socket).handed.frame ∨
      (rawWrite isOpen frame socket).handed.taken = 0 := by
  cases isOpen with
  | false => cases h
  | true =>
    show (hand frame socket).part = frame ∨ (hand frame socket).taken = 0
    cases hend : handEnd frame socket with
    | whole => exact .inl (hand_part (hand_whole_iff.1 hend))
    | full =>
      have hok : decide ((hand frame socket).taken = 0) = true := by simpa [rawWrite, hend] using h
      exact .inr (of_decide_eq_true hok)
    | broken => simp [rawWrite, hend] at h

theorem handed_envia (w : SSEWriter) (call : Envio) (socket : List Outcome) :
    (w.paso (.envia call socket)).handed =
      w.handed ++ [(rawWrite w.isOpen call.frame socket).handed] := List.map_append

/-- The step is as it should be exactly if nothing of the frame is sent behind one that was cut. -/
theorem atomic_envia (w : SSEWriter) (call : Envio) (socket : List Outcome) :
    Atomic (w.paso (.envia call socket)).handed ↔
      Atomic w.handed ∧ Sigue w (.envia call socket) := by
  rw [handed_envia, atomic_concat_iff, Sigue]
  refine and_congr_right fun _ => ?_
  cases ho : w.isOpen with
  | false => exact iff_of_true (fun _ => rfl) nofun
  | true =>
    rw [forall_prop_of_true rfl]
    exact imp_congr_right fun _ => hand_taken_eq_zero (frame_ne call)

theorem integro_paso (h : Integro w) (hs : Sigue w p) : Integro (w.paso p) := by
  cases p with
  | cancela => exact ⟨h.atomic, h.framed, h.honest⟩
  | envia call socket =>
    have ha := (atomic_envia w call socket).2 ⟨h.atomic, hs⟩
    refine ⟨ha, ha.framed, fun e he hok => ?_⟩
    obtain he | he := List.mem_append.1 he
    · exact h.honest e he hok
    · obtain rfl := List.mem_singleton.1 he
      exact rawWrite_honest _ _ _ hok

theorem run_isSome (ps : List Paso) (w : SSEWriter) : ∃ last, conexion.runFrom w ps = some last := by
  induction ps generalizing w with
  | nil => exact ⟨w, rfl⟩
  | cons p ps ih => exact ih (w.paso p)

/-- **Frames stay whole** in every state of a run, exactly if no frame is handed to a socket that
    has room after one was cut. -/
theorem frames_atomic (ps : List Paso) :
    (∀ pre w, pre <+: ps → conexion.run pre = some w → Integro w) ↔ conexion.Meets Sigue ps := by
  obtain ⟨last, hlast⟩ := run_isSome ps conexion.init
  have hinit : Integro conexion.init := ⟨atomic_nil, atomic_nil.framed, List.forall_mem_nil _⟩
  refine conexion.forall_prefix_iff_meets hinit (fun _ h => h) ?_ ?_ hlast
  · intro w p w' h hs hstep
    cases hstep
    exact integro_paso h hs
  · intro w p w' h hs hstep hgood
    cases hstep
    cases p with
    | cancela => exact hs trivial
    | envia call socket => exact hs ((atomic_envia w call socket).1 hgood.atomic).2

/-- The socket takes five bytes of a frame, and then the next frame. -/
def cortada : List Paso :=
  [.envia (.send [0x61]) [.sent 4, .again], .envia (.send [0x62]) [.sent 20]]

/-- A frame that follows one that was cut. -/
theorem cortada_not_integro : ∃ w, conexion.run cortada = some w ∧ ¬ Integro w ∧
    w.bytes = nombreData ++ [0x3A] ++ Envio.frame (.send [0x62]) ∧
    w.entregas.map Entrega.ok = [false, true] := by
  refine ⟨_, rfl, fun h => ?_, by decide +kernel, by decide +kernel⟩
  have hzero := h.atomic [] _ [_] rfl (by decide +kernel) _ (List.mem_singleton_self _)
  revert hzero
  decide +kernel

end Frames

end Osodio.Http.Sse
