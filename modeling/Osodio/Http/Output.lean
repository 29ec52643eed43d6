import Osodio.Http.Connection

/-!
# Writing to a socket

What `HttpConnection` has still to write: the rest of a buffer, and behind it the
rest of a file.  The three write functions share it; each of them stops when the
socket takes no more, and then `EPOLLOUT` is armed.

## Main definitions

- `Outcome` — what a call of `write` or `sendfile` comes to
- `Output` — the write buffer, the file behind it, and what the socket has taken
- `Output.sendData`, `Output.write`, `Output.sendfile` — the writing parts of
  `send_response`, `do_write` and `do_sendfile`

## Main results

- `write_keeps`, `sendData_keeps` — nothing is lost, repeated or reordered, and all is
  out when there is nothing to wait for
- `write_untouched`, `sendData_untouched` — how to see that nothing of a response is out
- `sendData_drained` — a socket may take everything at once
-/

namespace Osodio.Http

/-- What a call of `write` or `sendfile` comes to: it takes so many octets and one
    more, at most, or fails with `EAGAIN`, with `EINTR` or for good. -/
inductive Outcome where
  | sent (n : ℕ)
  | again
  | intr
  | failed
  deriving DecidableEq, Repr

/-- An open file: what it holds from `file_offset_` on, and `file_remaining_`. -/
structure FileSend where
  rest : Bytes
  remaining : ℕ
  deriving DecidableEq, Repr

structure Output where
  writeBuf : Bytes := []
  writeOffset : ℕ := 0
  file : Option FileSend := none
  /-- What the socket has taken. -/
  sent : Bytes := []
  deriving DecidableEq, Repr

/-- How a write function ends. -/
inductive WriteEnd where
  /-- The socket is full: `EPOLLOUT` is armed. -/
  | blocked
  /-- Everything is out: `on_write_complete` is next. -/
  | finished
  /-- The connection is closed. -/
  | failed
  deriving DecidableEq, Repr

/-- What a write function leaves: the outcomes of the calls that are still to come
    included. -/
abbrev Written := WriteEnd × Output × List Outcome

namespace Output

/-- `do_sendfile`. -/
def sendfile (f : FileSend) (o : Output) : List Outcome → Written
  | [] =>
    if f.remaining = 0 then (.finished, { o with file := none }, [])
    else (.blocked, { o with file := some f }, [])
  | call :: socket =>
    if f.remaining = 0 then (.finished, { o with file := none }, call :: socket)
    else
      match call with
      | .again => (.blocked, { o with file := some f }, socket)
      | .intr => sendfile f o socket
      | .failed => (.failed, { o with file := some f }, socket)
      | .sent n =>
        let k := min (n + 1) (min (min f.remaining (256 * 1024)) f.rest.length)
        -- the end of the file, also where more was announced
        if k = 0 then (.finished, { o with file := none }, socket)
        else
          sendfile ⟨f.rest.drop k, f.remaining - k⟩ { o with sent := o.sent ++ f.rest.take k } socket

/-- Behind the buffer comes the file. -/
def flushed (o : Output) (socket : List Outcome) : Written :=
  match o.file with
  | some f => sendfile f o socket
  | none => (.finished, o, socket)

/-- `do_write`. -/
def write (o : Output) : List Outcome → Written
  | [] =>
    if o.writeOffset < o.writeBuf.length then (.blocked, o, [])
    else { o with writeBuf := [], writeOffset := 0 }.flushed []
  | call :: socket =>
    if o.writeOffset < o.writeBuf.length then
      match call with
      | .again => (.blocked, o, socket)
      | .intr => write o socket
      | .failed => (.failed, o, socket)
      | .sent n =>
        let k := min (n + 1) (o.writeBuf.length - o.writeOffset)
        write
          { o with
            writeOffset := o.writeOffset + k
            sent := o.sent ++ (o.writeBuf.drop o.writeOffset).take k } socket
    else { o with writeBuf := [], writeOffset := 0 }.flushed (call :: socket)

/-- The first `write` of `send_response`; the rest is left to `do_write`. -/
def sendData (data : Bytes) (o : Output) : List Outcome → Written
  | .sent n :: socket =>
    let k := min (n + 1) data.length
    let o := { o with sent := o.sent ++ data.take k }
    if k = data.length then o.flushed socket
    else (.blocked, { o with writeBuf := data, writeOffset := k }, socket)
  | .failed :: socket => (.failed, o, socket)
  | .again :: socket | .intr :: socket =>
    (.blocked, { o with writeBuf := data, writeOffset := 0 }, socket)
  | [] => (.blocked, { o with writeBuf := data, writeOffset := 0 }, [])

/-! ## What is still to come -/

/-- The octets of the file that are still to come. -/
def filePending (o : Output) : Bytes :=
  match o.file with
  | some f => f.rest.take f.remaining
  | none => []

/-- The octets that are still to come. -/
def pending (o : Output) : Bytes := o.writeBuf.drop o.writeOffset ++ o.filePending

/-- Nothing is to be written. -/
def Idle (o : Output) : Prop := o.writeBuf = [] ∧ o.file = none

/-- What a write function keeps that has `all` to write, counted from the first octet
    of the connection. -/
structure Keeps (all : Bytes) (w : Written) : Prop where
  within : w.2.1.sent <+: all
  conserved : w.1 ≠ .failed → w.2.1.sent ++ w.2.1.pending = all
  idle : w.1 = .finished → w.2.1.Idle

section Keeps

variable {o : Output} {socket : List Outcome} {all : Bytes}

theorem Keeps.of_conserved {w : Written} (h : w.2.1.sent ++ w.2.1.pending = all)
    (hidle : w.1 = .finished → w.2.1.Idle) : Keeps all w :=
  ⟨⟨_, h⟩, fun _ => h, hidle⟩

theorem Idle.pending (h : o.Idle) : o.pending = [] := by
  rw [Output.pending, filePending, h.1, h.2, List.drop_nil, List.append_nil]

theorem Keeps.sent_eq {w : Written} (h : Keeps all w) (hf : w.1 = .finished) :
    w.2.1.sent = all := by
  have hall := h.conserved (by rw [hf]; nofun)
  rwa [(h.idle hf).pending, List.append_nil] at hall

/-- `do_sendfile` on a connection with an empty buffer. -/
theorem sendfile_keeps {f : FileSend} (hbuf : o.writeBuf = [])
    (hall : o.sent ++ f.rest.take f.remaining = all) : Keeps all (sendfile f o socket) := by
  have hwait : ∀ {g : FileSend} {p : Output} {how : WriteEnd} {rest : List Outcome},
      how ≠ .finished → p.writeBuf = [] → p.sent ++ g.rest.take g.remaining = all →
      Keeps all (how, { p with file := some g }, rest) := by
    intro g p how rest hhow hp hsent
    refine .of_conserved ?_ fun h => absurd h hhow
    simpa [Output.pending, filePending, hp] using hsent
  have hend : ∀ {g : FileSend} {p : Output} {rest : List Outcome}, p.writeBuf = [] →
      p.sent ++ g.rest.take g.remaining = all → g.rest.take g.remaining = [] →
      Keeps all (.finished, { p with file := none }, rest) := by
    intro g p rest hp hsent hnil
    rw [hnil] at hsent
    exact .of_conserved (by simpa [Output.pending, filePending, hp] using hsent) fun _ => ⟨hp, rfl⟩
  induction socket generalizing f o with
  | nil =>
    unfold sendfile
    split
    · next h => exact hend hbuf hall (by rw [h, List.take_zero])
    · exact hwait nofun hbuf hall
  | cons call socket ih =>
    unfold sendfile
    split
    · next h => exact hend hbuf hall (by rw [h, List.take_zero])
    · next h =>
      cases call with
      | again => exact hwait nofun hbuf hall
      | intr => exact ih hbuf hall
      | failed => exact hwait nofun hbuf hall
      | sent n =>
        dsimp only
        split
        · next hk =>
          refine hend hbuf hall ?_
          have hrest : f.rest.length = 0 := by omega
          rw [List.eq_nil_of_length_eq_zero hrest, List.take_nil]
        · generalize hk : min (n + 1) (min (min f.remaining (256 * 1024)) f.rest.length) = k
          have hle : k ≤ f.remaining := by omega
          refine @ih { o with sent := o.sent ++ f.rest.take k }
            ⟨f.rest.drop k, f.remaining - k⟩ hbuf ?_
          show o.sent ++ f.rest.take k ++ (f.rest.drop k).take (f.remaining - k) = all
          rw [← hall, List.append_assoc, ← List.take_add, Nat.add_sub_cancel' hle]

theorem flushed_keeps (hbuf : o.writeBuf = []) (hall : o.sent ++ o.filePending = all) :
    Keeps all (o.flushed socket) := by
  unfold flushed
  split
  · next f hf =>
    rw [filePending, hf] at hall
    exact sendfile_keeps hbuf hall
  · next hf =>
    exact .of_conserved (by simpa [Output.pending, hbuf] using hall) fun _ => ⟨hbuf, hf⟩

/-- **`do_write` loses, repeats and reorders nothing.** -/
theorem write_keeps (hall : o.sent ++ o.pending = all) : Keeps all (o.write socket) := by
  have hflush : ∀ {p : Output} {rest : List Outcome}, ¬ p.writeOffset < p.writeBuf.length →
      p.sent ++ p.pending = all →
      Keeps all (({ p with writeBuf := [], writeOffset := 0 } : Output).flushed rest) := by
    intro p rest hlt hsent
    refine flushed_keeps rfl ?_
    rwa [Output.pending, List.drop_eq_nil_of_le (Nat.le_of_not_lt hlt), List.nil_append] at hsent
  induction socket generalizing o with
  | nil =>
    unfold write
    split
    · exact .of_conserved hall nofun
    · next h => exact hflush h hall
  | cons call socket ih =>
    unfold write
    split
    · next h =>
      cases call with
      | again => exact .of_conserved hall nofun
      | intr => exact ih hall
      | failed => exact .of_conserved hall nofun
      | sent n =>
        dsimp only
        generalize min (n + 1) (o.writeBuf.length - o.writeOffset) = k
        refine @ih { o with
          writeOffset := o.writeOffset + k
          sent := o.sent ++ (o.writeBuf.drop o.writeOffset).take k } ?_
        show o.sent ++ (o.writeBuf.drop o.writeOffset).take k ++
          (o.writeBuf.drop (o.writeOffset + k) ++ o.filePending) = all
        rw [← hall, Output.pending, List.append_assoc, ← List.append_assoc (List.take _ _),
          ← List.drop_drop, List.take_append_drop]
    · next h => exact hflush h hall

/-- **`send_response` starts with its data.** -/
theorem sendData_keeps {data : Bytes} (hbuf : o.writeBuf = [])
    (hall : o.sent ++ (data ++ o.filePending) = all) : Keeps all (o.sendData data socket) := by
  have hwait : ∀ {k : ℕ} {rest : List Outcome}, Keeps all
      (.blocked, ⟨data, k, o.file, o.sent ++ data.take k⟩, rest) := by
    intro k rest
    refine .of_conserved ?_ nofun
    show o.sent ++ data.take k ++ (data.drop k ++ o.filePending) = all
    rw [← hall, List.append_assoc, ← List.append_assoc (List.take _ _), List.take_append_drop]
  have hstart : ∀ {rest : List Outcome},
      Keeps all (.blocked, { o with writeBuf := data, writeOffset := 0 }, rest) := by
    intro rest
    simpa using @hwait 0 rest
  cases socket with
  | nil => exact hstart
  | cons call socket =>
    cases call with
    | sent n =>
      rw [sendData]
      dsimp only
      split
      · next hk =>
        refine flushed_keeps hbuf ?_
        show o.sent ++ data.take _ ++ o.filePending = all
        rw [hk, List.take_length, ← hall, List.append_assoc]
      · exact hwait
    | again => exact hstart
    | intr => exact hstart
    | failed => exact ⟨⟨_, hall⟩, fun h => absurd rfl h, nofun⟩

theorem flushed_blocked (hb : (o.flushed socket).1 = .blocked) :
    o.file ≠ none ∧ (o.flushed socket).2.1.file ≠ none := by
  have hsend : ∀ {p : Output} {g : FileSend} {calls : List Outcome},
      (sendfile g p calls).1 = .blocked → (sendfile g p calls).2.1.file ≠ none := by
    intro p g calls
    fun_induction sendfile g p calls <;> simp_all
  unfold flushed at hb ⊢
  split at hb
  · next f hf => exact ⟨by rw [hf]; nofun, hsend hb⟩
  · cases hb

/-- While nothing of the buffer is out and no file waits behind it, `do_write` has not
    written. -/
theorem write_untouched (hb : (o.write socket).1 = .blocked)
    (ho : (o.write socket).2.1.writeOffset = 0) (hf : (o.write socket).2.1.file = none) :
    o.writeOffset = 0 ∧ o.file = none ∧ (o.write socket).2.1.sent = o.sent := by
  induction socket generalizing o with
  | nil =>
    unfold write at hb ho hf ⊢
    split at hb
    · next h => simp_all
    · next h => simp_all [(flushed_blocked hb).2]
  | cons call socket ih =>
    unfold write at hb ho hf ⊢
    split at hb
    · next h =>
      rw [if_pos h] at ho hf ⊢
      cases call with
      | again => exact ⟨ho, hf, rfl⟩
      | intr => exact ih hb ho hf
      | failed => cases hb
      | sent n =>
        have hzero := (ih hb ho hf).1
        dsimp only at hzero
        omega
    · next h =>
      rw [if_neg h] at hf
      exact absurd hf (flushed_blocked hb).2

/-- The same for the first `write` of a response. -/
theorem sendData_untouched {data : Bytes} (hb : (o.sendData data socket).1 = .blocked)
    (ho : (o.sendData data socket).2.1.writeOffset = 0)
    (hf : (o.sendData data socket).2.1.file = none) :
    (o.sendData data socket).2.1.sent = o.sent := by
  cases socket with
  | nil => rfl
  | cons call socket =>
    cases call with
    | again => rfl
    | intr => rfl
    | failed => cases hb
    | sent n =>
      rw [sendData] at hb ho hf ⊢
      dsimp only at hb ho hf ⊢
      split at hb
      · next hk =>
        rw [if_pos hk] at hf
        exact absurd hf (flushed_blocked hb).2
      · next hk =>
        rw [if_neg hk] at ho
        -- the call took an octet, unless there was none to take
        have hzero : min (n + 1) data.length = 0 := ho
        omega

/-- Whatever is left in the buffer, a response without a file starts behind what is
    out. -/
theorem sendData_within {data : Bytes} (hf : o.file = none) :
    (o.sendData data socket).2.1.sent <+: o.sent ++ data := by
  cases socket with
  | nil => exact List.prefix_append _ _
  | cons call socket =>
    cases call with
    | again => exact List.prefix_append _ _
    | intr => exact List.prefix_append _ _
    | failed => exact List.prefix_append _ _
    | sent n =>
      have hsent : ((o.sendData data (.sent n :: socket))).2.1.sent =
          o.sent ++ data.take (min (n + 1) data.length) := by
        rw [sendData]
        dsimp only
        split
        · simp only [flushed, hf]
        · rfl
      rw [hsent]
      exact (List.prefix_append_right_inj _).2 (List.take_prefix _ _)

end Keeps

/-! ## A socket that takes everything -/

section Drained

theorem sendfile_drained (o : Output) {f : FileSend} {n : ℕ} (hn : f.remaining = n) :
    (sendfile f o (List.replicate n (.sent 0))).1 = .finished := by
  induction n generalizing f o with
  | zero =>
    rw [List.replicate_zero]
    unfold sendfile
    rw [if_pos hn]
  | succ n ih =>
    rw [List.replicate_succ]
    unfold sendfile
    rw [if_neg (by omega)]
    dsimp only
    split
    · rfl
    · refine ih _ ?_
      show f.remaining - min (0 + 1) _ = n
      omega

/-- Some outcomes of the calls let a response out at once. -/
theorem sendData_drained (o : Output) (data : Bytes) :
    ∃ socket, (o.sendData data socket).1 = .finished := by
  have hall : min (data.length + 1) data.length = data.length := by omega
  cases hf : o.file with
  | none =>
    refine ⟨[.sent data.length], ?_⟩
    rw [sendData]
    simp only [hall, if_pos, flushed, hf]
  | some f =>
    refine ⟨.sent data.length :: List.replicate f.remaining (.sent 0), ?_⟩
    rw [sendData]
    simp only [hall, if_pos, flushed, hf]
    exact sendfile_drained _ rfl

end Drained

end Output

end Osodio.Http
