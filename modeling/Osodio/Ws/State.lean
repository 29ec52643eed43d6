import Osodio.Http.Connection
import Mathlib.Data.List.Indexes
import Mathlib.Tactic.Linarith

/-!
# The frame parser of a WebSocket

`WSState` collects the bytes of the client, takes complete frames off them, answers
control frames and puts messages together.  A message waits in a queue until the
handler asks for it.

## Main definitions

- `Frame` — a complete frame, its payload unmasked
- `readFrame` — what `try_parse` makes of the bytes in its buffer
- `WSState.handle` — what a complete frame does
- `WSState.tryParse`, `WSState.feed` — the parser

## Main results

- `readFrame_append` — what has been read of a buffer does not depend on what follows it
- `tryParse_frame` — one turn of the loop
- `tryParse_induction` — the loop by its turns
-/

namespace Osodio.Ws

open Http (Bytes)

inductive Opcode where
  | continuation
  | text
  | binary
  | close
  | ping
  | pong
  deriving DecidableEq, Repr

def Opcode.ofByte : UInt8 → Opcode
  | 0x0 => .continuation
  | 0x1 => .text
  | 0x2 => .binary
  | 0x8 => .close
  | 0x9 => .ping
  | _ => .pong

structure WSMessage where
  opcode : Opcode
  data : Bytes
  deriving DecidableEq, Repr

/-! ## Frames -/

/-- `i` in so many octets, the first octet first. -/
def bigEndian : ℕ → ℕ → Bytes
  | 0, _ => []
  | n + 1, i => bigEndian n (i / 256) ++ [UInt8.ofNat i]

def ofBigEndian (bs : Bytes) : ℕ := bs.foldl (fun n b => n * 256 + b.toNat) 0

/-- The rest of the header of a frame that has no mask. -/
def lengthField (n : ℕ) : Bytes :=
  if n < 126 then [UInt8.ofNat n]
  else if n < 65536 then 126 :: bigEndian 2 n
  else 127 :: bigEndian 8 n

def buildFrame (payload : Bytes) (opcode : UInt8) (fin : Bool) : Bytes :=
  ((if fin then 0x80 else 0x00) ||| opcode) :: lengthField payload.length ++ payload

/-- A frame with all its octets, its payload unmasked. -/
structure Frame where
  fin : Bool
  opcode : UInt8
  payload : Bytes
  deriving DecidableEq, Repr

def unmask (key payload : Bytes) : Bytes :=
  payload.mapIdx fun i b => b ^^^ key.getD (i % 4) 0

def kMaxFramePayload : ℕ := 16 * 1024 * 1024
def kMaxMessageSize : ℕ := 16 * 1024 * 1024
def kMaxPendingFrames : ℕ := 256

/-- What `try_parse` makes of its buffer. -/
inductive Reading where
  /-- Octets are missing. -/
  | wait
  /-- `fail_close`. -/
  | fail (code : ℕ)
  /-- The connection is marked as closed. -/
  | tooLarge
  /-- A frame, and how many octets it takes. -/
  | frame (f : Frame) (size : ℕ)
  deriving DecidableEq, Repr

/-- The length of a payload, and of the header up to its end. -/
def payloadLength (len7 : UInt8) (buf : Bytes) : Option (ℕ × ℕ) :=
  if len7 = 126 then
    if buf.length < 4 then none else some (ofBigEndian ((buf.drop 2).take 2), 4)
  else if len7 = 127 then
    if buf.length < 10 then none else some (ofBigEndian ((buf.drop 2).take 8), 10)
  else some (len7.toNat, 2)

/-- The payload behind a header that is `hdr` octets long up to the length, and the size
    of the frame. -/
def payloadAt (masked : Bool) (payloadLen hdr : ℕ) (buf : Bytes) : Option (Bytes × ℕ) :=
  let hdr := if masked then hdr + 4 else hdr
  if buf.length < hdr + payloadLen then none
  else
    let key := if masked then (buf.drop (hdr - 4)).take 4 else []
    some (unmask key ((buf.drop hdr).take payloadLen), hdr + payloadLen)

def readFrame (buf : Bytes) : Reading :=
  match buf with
  | b0 :: b1 :: _ =>
    let fin := b0 &&& 0x80 != 0
    let opcode := b0 &&& 0x0F
    let masked := b1 &&& 0x80 != 0
    let len7 := b1 &&& 0x7F
    let isControl := opcode &&& 0x08 != 0
    if b0 &&& 0x70 != 0 then .fail 1002
    else if !isControl && opcode > 0x2 || isControl && opcode > 0xA then .fail 1002
    else
      match payloadLength len7 buf with
      | none => .wait
      | some (payloadLen, hdr) =>
        -- only a length of 64 bits reaches its top bit
        if len7 = 127 ∧ 2 ^ 63 ≤ payloadLen then .fail 1002
        else if isControl && (!fin || payloadLen > 125) then .fail 1002
        else if kMaxFramePayload < payloadLen then .tooLarge
        else
          match payloadAt masked payloadLen hdr buf with
          | none => .wait
          | some (payload, size) => .frame ⟨fin, opcode, payload⟩ size
  | _ => .wait

/-! ## The parser -/

structure WSState where
  readBuf : Bytes := []
  pending : List WSMessage := []
  fragBuf : Bytes := []
  fragOpcode : UInt8 := 0
  closed : Bool := false
  /-- The frames given to `send_fn`. -/
  sent : List Bytes := []
  deriving DecidableEq, Repr

namespace WSState

def rawSend (frame : Bytes) (s : WSState) : WSState := { s with sent := s.sent ++ [frame] }

def closeFrame (code : ℕ) : Bytes := [0x88, 2, UInt8.ofNat (code / 256), UInt8.ofNat code]

def failClose (code : ℕ) (s : WSState) : WSState :=
  { s.rawSend (closeFrame code) with closed := true }

def push (opcode : Opcode) (data : Bytes) (s : WSState) : WSState :=
  { s with pending := s.pending ++ [⟨opcode, data⟩] }

/-- The answer to a Close frame, with the code of the peer where there is one. -/
def echo : Bytes → Bytes
  | c0 :: c1 :: _ => [0x88, 2, c0, c1]
  | _ => [0x88, 0]

def fragmenting (s : WSState) : Bool := s.fragBuf != [] || s.fragOpcode != 0

/-- What a complete frame does, and whether the loop goes on. -/
def handle (f : Frame) (s : WSState) : Bool × WSState :=
  if f.opcode = 0x8 then
    (false, (({ s with closed := true }).rawSend (echo f.payload)).push .close f.payload)
  else if f.opcode = 0x9 then (true, s.rawSend (buildFrame f.payload 0xA true))
  else if f.opcode = 0xA then (true, s.push .pong f.payload)
  else if f.opcode = 0x0 then
    if !s.fragmenting then (false, s.failClose 1002)
    else if kMaxMessageSize < s.fragBuf.length + f.payload.length then (false, s.failClose 1009)
    else if f.fin then
      (true, { s.push (.ofByte s.fragOpcode) (s.fragBuf ++ f.payload) with
        fragBuf := [], fragOpcode := 0 })
    else (true, { s with fragBuf := s.fragBuf ++ f.payload })
  else if s.fragmenting then (false, s.failClose 1002)
  else if f.fin then (true, s.push (.ofByte f.opcode) f.payload)
  else (true, { s with fragOpcode := f.opcode, fragBuf := f.payload })

/-- The loop of `try_parse`.  Every turn takes at least two octets off the buffer, so the
    first argument need not exceed its length. -/
def parse : ℕ → WSState → WSState
  | 0, s => s
  | n + 1, s =>
    match readFrame s.readBuf with
    | .wait => s
    | .fail code => s.failClose code
    | .tooLarge => { s with closed := true }
    | .frame f size =>
      if kMaxPendingFrames ≤ s.pending.length then { s with closed := true }
      else
        let (more, s) := ({ s with readBuf := s.readBuf.drop size }).handle f
        if more then parse n s else s

def tryParse (s : WSState) : WSState := s.parse (s.readBuf.length + 1)

/-- `feed`, up to the wake-up of the handler. -/
def feed (data : Bytes) (s : WSState) : WSState :=
  ({ s with readBuf := s.readBuf ++ data }).tryParse

end WSState

/-! ## Reading on -/

section Reading

variable {buf more : Bytes} {len7 : UInt8} {n hdr size : ℕ} {f : Frame} {s : WSState}

theorem payloadLength_le (h : payloadLength len7 buf = some (n, hdr)) (hbuf : 2 ≤ buf.length) :
    2 ≤ hdr ∧ hdr ≤ buf.length := by
  unfold payloadLength at h
  split at h
  · split at h
    · cases h
    · cases h
      omega
  · split at h
    · split at h
      · cases h
      · cases h
        omega
    · cases h
      omega

theorem drop_take_append {i k : ℕ} (more : Bytes) (h : i + k ≤ buf.length) :
    ((buf ++ more).drop i).take k = (buf.drop i).take k := by
  rw [List.drop_append_of_le_length (by omega), List.take_append_of_le_length]
  rw [List.length_drop]
  omega

theorem payloadLength_append {r : ℕ × ℕ} (more : Bytes) (h : payloadLength len7 buf = some r) :
    payloadLength len7 (buf ++ more) = some r := by
  unfold payloadLength at h ⊢
  rw [List.length_append]
  split at h
  · next h126 =>
    rw [if_pos h126]
    split at h
    · cases h
    · next hlen => rw [if_neg (by omega), drop_take_append more (by omega), h]
  · next h126 =>
    rw [if_neg h126]
    split at h
    · next h127 =>
      rw [if_pos h127]
      split at h
      · cases h
      · next hlen => rw [if_neg (by omega), drop_take_append more (by omega), h]
    · next h127 => rw [if_neg h127, h]

theorem payloadAt_append {masked : Bool} {r : Bytes × ℕ} (more : Bytes) (h4 : 2 ≤ hdr)
    (h : payloadAt masked n hdr buf = some r) : payloadAt masked n hdr (buf ++ more) = some r := by
  unfold payloadAt at h ⊢
  dsimp only at h ⊢
  rw [List.length_append]
  generalize hk : (if masked = true then hdr + 4 else hdr) = k at h ⊢
  have hle : hdr ≤ k := by rw [← hk]; split <;> omega
  split at h
  · cases h
  · next hlen =>
    have hpay : ((buf ++ more).drop k).take n = (buf.drop k).take n :=
      drop_take_append more (by omega)
    rw [if_neg (by omega), hpay, ← h]
    cases masked with
    | false => rfl
    | true =>
      have hk4 : hdr + 4 = k := hk
      have hkey : ((buf ++ more).drop (k - 4)).take 4 = (buf.drop (k - 4)).take 4 :=
        drop_take_append more (by omega)
      simp only [if_true, hkey]

/-- **What has been read does not depend on what follows.** -/
theorem readFrame_append (more : Bytes) (h : readFrame buf ≠ .wait) :
    readFrame (buf ++ more) = readFrame buf := by
  match buf with
  | [] => exact absurd rfl h
  | [_] => exact absurd rfl h
  | b0 :: b1 :: rest =>
    rw [List.cons_append, List.cons_append]
    unfold readFrame at h ⊢
    dsimp only at h ⊢
    split
    · rfl
    next h1 =>
    rw [if_neg h1] at h
    split
    · rfl
    next h2 =>
    rw [if_neg h2] at h
    cases hlen : payloadLength (b1 &&& 0x7F) (b0 :: b1 :: rest) with
    | none => exact absurd (by rw [hlen]) h
    | some r =>
      obtain ⟨payloadLen, hdr⟩ := r
      have hhdr := (payloadLength_le hlen (by simp)).1
      have hlen' := payloadLength_append more hlen
      rw [List.cons_append, List.cons_append] at hlen'
      rw [hlen']
      rw [hlen] at h
      dsimp only at h ⊢
      split
      · rfl
      next h3 =>
      rw [if_neg h3] at h
      split
      · rfl
      next h4 =>
      rw [if_neg h4] at h
      split
      · rfl
      next h5 =>
      rw [if_neg h5] at h
      cases hpay : payloadAt (b1 &&& 0x80 != 0) payloadLen hdr (b0 :: b1 :: rest) with
      | none => exact absurd (by rw [hpay]) h
      | some r =>
        have hpay' := payloadAt_append more hhdr hpay
        rw [List.cons_append, List.cons_append] at hpay'
        rw [hpay']

theorem readFrame_size (h : readFrame buf = .frame f size) : 2 ≤ size ∧ size ≤ buf.length := by
  match buf with
  | [] => cases h
  | [_] => cases h
  | b0 :: b1 :: rest =>
    unfold readFrame at h
    dsimp only at h
    split at h
    · cases h
    split at h
    · cases h
    split at h
    · cases h
    next payloadLen hdr hlen =>
    split at h
    · cases h
    split at h
    · cases h
    split at h
    · cases h
    split at h
    · cases h
    next payload size hpay =>
    cases h
    have hhdr := (payloadLength_le hlen (by simp)).1
    unfold payloadAt at hpay
    dsimp only at hpay
    generalize hk : (if (b1 &&& 0x80 != 0) = true then hdr + 4 else hdr) = k at hpay
    have hle : hdr ≤ k := by rw [← hk]; split <;> omega
    split at hpay
    · cases hpay
    · cases hpay
      omega

end Reading

/-! ## The loop -/

namespace WSState

variable {f : Frame} {s : WSState}

/-- The frames that a state knows how to handle, one after the other. -/
theorem handle_cases (f : Frame) (s : WSState) {P : Bool × WSState → Prop}
    (close : f.opcode = 0x8 → P (false,
      (({ s with closed := true }).rawSend (echo f.payload)).push .close f.payload))
    (ping : f.opcode = 0x9 → P (true, s.rawSend (buildFrame f.payload 0xA true)))
    (pong : f.opcode = 0xA → P (true, s.push .pong f.payload))
    (stray : f.opcode = 0x0 → s.fragmenting = false → P (false, s.failClose 1002))
    (tooBig : f.opcode = 0x0 → s.fragmenting = true →
      kMaxMessageSize < s.fragBuf.length + f.payload.length → P (false, s.failClose 1009))
    (last : f.opcode = 0x0 → s.fragmenting = true →
      s.fragBuf.length + f.payload.length ≤ kMaxMessageSize → f.fin = true → P (true,
        { s.push (.ofByte s.fragOpcode) (s.fragBuf ++ f.payload) with
          fragBuf := [], fragOpcode := 0 }))
    (next : f.opcode = 0x0 → s.fragmenting = true →
      s.fragBuf.length + f.payload.length ≤ kMaxMessageSize → f.fin = false →
      P (true, { s with fragBuf := s.fragBuf ++ f.payload }))
    (inside : f.opcode ≠ 0x8 → f.opcode ≠ 0x9 → f.opcode ≠ 0xA → f.opcode ≠ 0x0 →
      s.fragmenting = true → P (false, s.failClose 1002))
    (whole : f.opcode ≠ 0x8 → f.opcode ≠ 0x9 → f.opcode ≠ 0xA → f.opcode ≠ 0x0 →
      s.fragmenting = false → f.fin = true → P (true, s.push (.ofByte f.opcode) f.payload))
    (first : f.opcode ≠ 0x8 → f.opcode ≠ 0x9 → f.opcode ≠ 0xA → f.opcode ≠ 0x0 →
      s.fragmenting = false → f.fin = false →
      P (true, { s with fragOpcode := f.opcode, fragBuf := f.payload })) :
    P (s.handle f) := by
  unfold handle
  split
  · next h => exact close h
  next h8 =>
  split
  · next h => exact ping h
  next h9 =>
  split
  · next h => exact pong h
  next h10 =>
  cases hfrag : s.fragmenting with
  | true =>
    split
    · next h0 =>
      rw [if_neg (by decide)]
      split
      · next hbig => exact tooBig h0 hfrag hbig
      next hbig =>
      split
      · next hfin => exact last h0 hfrag (Nat.le_of_not_lt hbig) hfin
      · next hfin => exact next h0 hfrag (Nat.le_of_not_lt hbig) (Bool.eq_false_iff.2 hfin)
    · next h0 => exact inside h8 h9 h10 h0 hfrag
  | false =>
    split
    · next h0 => exact stray h0 hfrag
    next h0 =>
    rw [if_neg (by decide)]
    split
    · next hfin => exact whole h8 h9 h10 h0 hfrag hfin
    · next hfin => exact first h8 h9 h10 h0 hfrag (Bool.eq_false_iff.2 hfin)

/-- The same parser with messages in front of its queue, and other bytes in its buffer. -/
def upon (q : List WSMessage) (buf : Bytes) (s : WSState) : WSState :=
  { s with readBuf := buf, pending := q ++ s.pending }

/-- A frame has nothing to do with the bytes behind it, nor with the messages in the queue. -/
theorem handle_over (q : List WSMessage) (buf : Bytes) (f : Frame) (s : WSState) :
    (s.upon q buf).handle f = ((s.handle f).1, (s.handle f).2.upon q buf) := by
  have hmap : ∀ (c : Prop) [Decidable c] (x y : Bool × WSState),
      (((if c then x else y).1, (if c then x else y).2.upon q buf) : Bool × WSState) =
        if c then (x.1, x.2.upon q buf) else (y.1, y.2.upon q buf) := by
    intro c _ x y
    split <;> rfl
  simp only [handle, hmap]
  simp only [upon, push, rawSend, failClose, List.append_assoc]
  rfl

theorem handle_readBuf (f : Frame) (s : WSState) (buf : Bytes) :
    ({ s with readBuf := buf }).handle f =
      ((s.handle f).1, { (s.handle f).2 with readBuf := buf }) := handle_over [] buf f s

/-- The loop stops at a frame that closes the connection. -/
theorem handle_stop (h : (s.handle f).1 = false) : (s.handle f).2.closed = true := by
  revert h
  apply handle_cases f s (P := fun r => r.1 = false → r.2.closed = true) <;> intros <;>
    first | rfl | contradiction

theorem parse_fuel (n m : ℕ) (hn : s.readBuf.length < n) (hm : s.readBuf.length < m) :
    s.parse n = s.parse m := by
  induction n generalizing m s with
  | zero => omega
  | succ n ih =>
    obtain ⟨m, rfl⟩ : ∃ k, m = k + 1 := ⟨m - 1, by omega⟩
    rw [parse, parse]
    split
    · rfl
    · rfl
    · rfl
    next f size hread =>
    split
    · rfl
    have hsize := readFrame_size hread
    have hlen : (({ s with readBuf := s.readBuf.drop size } : WSState).handle f).2.readBuf.length =
        s.readBuf.length - size := by
      rw [handle_readBuf, List.length_drop]
    dsimp only
    split
    · exact ih _ (by rw [hlen]; omega) (by rw [hlen]; omega)
    · rfl

/-- The state behind a complete frame. -/
def taking (f : Frame) (size : ℕ) (s : WSState) : WSState :=
  { (s.handle f).2 with readBuf := s.readBuf.drop size }

theorem tryParse_wait (h : readFrame s.readBuf = .wait) : s.tryParse = s := by
  rw [tryParse, parse, h]

theorem tryParse_fail {code : ℕ} (h : readFrame s.readBuf = .fail code) :
    s.tryParse = s.failClose code := by
  rw [tryParse, parse, h]

theorem tryParse_tooLarge (h : readFrame s.readBuf = .tooLarge) :
    s.tryParse = { s with closed := true } := by
  rw [tryParse, parse, h]

theorem tryParse_full {size : ℕ} (h : readFrame s.readBuf = .frame f size)
    (hfull : kMaxPendingFrames ≤ s.pending.length) : s.tryParse = { s with closed := true } := by
  rw [tryParse, parse, h]
  exact if_pos hfull

/-- **One turn of the loop.** -/
theorem tryParse_frame {size : ℕ} (h : readFrame s.readBuf = .frame f size)
    (hroom : s.pending.length < kMaxPendingFrames) :
    s.tryParse = if (s.handle f).1 then (s.taking f size).tryParse else s.taking f size := by
  have hsize := readFrame_size h
  rw [tryParse, parse, h]
  dsimp only
  rw [if_neg (by omega), handle_readBuf]
  split
  · refine parse_fuel _ _ ?_ (Nat.lt_succ_self _)
    show (s.readBuf.drop size).length < s.readBuf.length
    rw [List.length_drop]
    omega
  · rfl

/-- **The loop by its turns**: what holds of a turn that ends it, and is taken over by a turn
    behind which it goes on, holds of the whole loop. -/
theorem tryParse_induction {P : WSState → WSState → Prop}
    (wait : ∀ s, readFrame s.readBuf = .wait → P s s)
    (fail : ∀ s code, readFrame s.readBuf = .fail code → P s (s.failClose code))
    (tooLarge : ∀ s, readFrame s.readBuf = .tooLarge → P s { s with closed := true })
    (full : ∀ s f size, readFrame s.readBuf = .frame f size →
      kMaxPendingFrames ≤ s.pending.length → P s { s with closed := true })
    (stop : ∀ s f size, readFrame s.readBuf = .frame f size →
      s.pending.length < kMaxPendingFrames → (s.handle f).1 = false → P s (s.taking f size))
    (go : ∀ s f size t, readFrame s.readBuf = .frame f size →
      s.pending.length < kMaxPendingFrames → (s.handle f).1 = true → P (s.taking f size) t →
      P s t)
    (s : WSState) : P s s.tryParse := by
  induction hn : s.readBuf.length using Nat.strong_induction_on generalizing s with
  | _ n ih =>
    cases hread : readFrame s.readBuf with
    | wait =>
      rw [tryParse_wait hread]
      exact wait s hread
    | fail code =>
      rw [tryParse_fail hread]
      exact fail s code hread
    | tooLarge =>
      rw [tryParse_tooLarge hread]
      exact tooLarge s hread
    | frame f size =>
      have hsize := readFrame_size hread
      by_cases hfull : kMaxPendingFrames ≤ s.pending.length
      · rw [tryParse_full hread hfull]
        exact full s f size hread hfull
      have hroom := Nat.lt_of_not_le hfull
      rw [tryParse_frame hread hroom]
      split
      · next hgo =>
        refine go s f size _ hread hroom hgo (ih _ ?_ _ rfl)
        show (s.readBuf.drop size).length < n
        rw [List.length_drop]
        omega
      · next hstop => exact stop s f size hread hroom (Bool.eq_false_iff.2 hstop)

end WSState

end Osodio.Ws
