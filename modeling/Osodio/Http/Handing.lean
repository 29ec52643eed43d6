import Osodio.Http.Output
import Osodio.Lib.Wire

/-!
# Handing a frame to a socket

`SSEWriter::raw_write` and the `send_fn` of a WebSocket have the same loop.  It goes on after
`EINTR`, and leaves the rest of the frame where it is when the socket takes no more.

## Main definitions

- `handLoop`, `hand` — the loop, and the frame with what the socket took of it
- `room` — how much the socket takes until a call fails
- `Goes` — nothing is handed on behind a frame that was cut

## Main results

- `hand_taken` — the socket takes as much of a frame as there is room for
- `hand_whole_iff` — the loop says whether the frame is whole
- `atomic_hand_iff` — some frames, handed on one after the other
-/

namespace Osodio.Http

open Lib.Wire

/-- Why the loop ends. -/
inductive LoopEnd where
  | whole
  /-- `EAGAIN`. -/
  | full
  /-- Another error. -/
  | broken
  deriving DecidableEq, Repr

/-- The loop, from an offset on.  Behind the outcomes that are given the socket is full. -/
def handLoop (frame : Bytes) (written : ℕ) : List Outcome → LoopEnd × ℕ
  | [] => if written < frame.length then (.full, written) else (.whole, written)
  | call :: socket =>
    if written < frame.length then
      match call with
      | .again => (.full, written)
      | .intr => handLoop frame written socket
      | .failed => (.broken, written)
      | .sent n => handLoop frame (written + min (n + 1) (frame.length - written)) socket
    else (.whole, written)

/-- How much the socket takes until a call fails. -/
def room : List Outcome → ℕ
  | [] => 0
  | .again :: _ => 0
  | .intr :: socket => room socket
  | .failed :: _ => 0
  | .sent n :: socket => n + 1 + room socket

section Loop

variable {frame : Bytes} {written : ℕ} {socket : List Outcome}

/-- **The loop**: it ends behind the frame, or where the room ends. -/
theorem handLoop_spec (h : written ≤ frame.length) :
    (handLoop frame written socket).2 = min frame.length (written + room socket) ∧
      ((handLoop frame written socket).1 = .whole ↔ frame.length ≤ written + room socket) := by
  induction socket generalizing written with
  | nil =>
    rw [handLoop, room]
    split
    · exact ⟨by omega, iff_of_false nofun (by omega)⟩
    · exact ⟨by omega, iff_of_true rfl (by omega)⟩
  | cons call socket ih =>
    unfold handLoop
    split
    · cases call with
      | again =>
        show written = min frame.length (written + 0) ∧ _
        exact ⟨by omega, iff_of_false nofun (by rw [room]; omega)⟩
      | failed =>
        show written = min frame.length (written + 0) ∧ _
        exact ⟨by omega, iff_of_false nofun (by rw [room]; omega)⟩
      | intr => exact ih h
      | sent n =>
        have hle : written + min (n + 1) (frame.length - written) ≤ frame.length := by omega
        obtain ⟨htaken, hend⟩ := ih hle
        rw [room]
        exact ⟨htaken.trans (by omega), hend.trans (by omega)⟩
    · exact ⟨by omega, iff_of_true rfl (by omega)⟩

theorem handLoop_le : (handLoop frame 0 socket).2 ≤ frame.length := by
  rw [(handLoop_spec (Nat.zero_le _)).1]
  exact Nat.min_le_left ..

/-- A frame in the hands of the loop. -/
def hand (frame : Bytes) (socket : List Outcome) : Handed UInt8 where
  frame := frame
  taken := (handLoop frame 0 socket).2
  taken_le := handLoop_le

def handEnd (frame : Bytes) (socket : List Outcome) : LoopEnd := (handLoop frame 0 socket).1

theorem hand_taken (frame : Bytes) (socket : List Outcome) :
    (hand frame socket).taken = min frame.length (room socket) := by
  rw [← Nat.zero_add (room socket)]
  exact (handLoop_spec (Nat.zero_le _)).1

theorem hand_whole_iff : handEnd frame socket = .whole ↔ frame.length ≤ room socket := by
  rw [← Nat.zero_add (room socket)]
  exact (handLoop_spec (Nat.zero_le _)).2

/-- The whole frame is sent where there is room for it. -/
theorem hand_part_iff : (hand frame socket).part = frame ↔ frame.length ≤ room socket := by
  have htaken := hand_taken frame socket
  constructor
  · intro h
    have hlen := congrArg List.length h
    rw [Handed.part, List.length_take, htaken] at hlen
    have hframe : (hand frame socket).frame.length = frame.length := rfl
    omega
  · intro h
    rw [Nat.min_eq_left h] at htaken
    exact List.take_of_length_le htaken.ge

theorem hand_part (h : frame.length ≤ room socket) : (hand frame socket).part = frame :=
  hand_part_iff.2 h

theorem hand_taken_eq_zero (hne : frame ≠ []) :
    (hand frame socket).taken = 0 ↔ room socket = 0 := by
  have hlt : 0 < frame.length := List.length_pos_iff.2 hne
  rw [hand_taken]
  omega

theorem hand_cut : (hand frame socket).Cut ↔ 0 < room socket ∧ room socket < frame.length := by
  show 0 < (hand frame socket).taken ∧ (hand frame socket).taken < frame.length ↔ _
  rw [hand_taken]
  omega

end Loop

/-! ## Some frames -/

/-- Behind a frame that was cut there is no room for another one. -/
def Goes (cut : Prop) : List (Bytes × List Outcome) → Prop
  | [] => True
  | (frame, socket) :: more =>
    (cut → room socket = 0) ∧ Goes (cut ∨ 0 < room socket ∧ room socket < frame.length) more

theorem goes_congr {c d : Prop} (h : c ↔ d) (fs : List (Bytes × List Outcome)) :
    Goes c fs ↔ Goes d fs := by
  rw [propext h]

/-- **Some frames**, handed on one after the other. -/
theorem atomic_hand_iff {hs : List (Handed UInt8)} (fs : List (Bytes × List Outcome))
    (hne : ∀ f ∈ fs, f.1 ≠ []) : Atomic (hs ++ fs.map fun f => hand f.1 f.2) ↔
      Atomic hs ∧ Goes (SomeCut hs) fs := by
  induction fs generalizing hs with
  | nil => rw [List.map_nil, List.append_nil, Goes, and_true]
  | cons f fs ih =>
    obtain ⟨hf, hne⟩ := List.forall_mem_cons.1 hne
    rw [List.map_cons, List.append_cons, ih hne, atomic_concat_iff, and_assoc, hand_taken_eq_zero hf,
      Goes, goes_congr (someCut_concat.trans (or_congr_right hand_cut))]

end Osodio.Http
