import Osodio.Ws.State

/-!
# Frames off a buffer

The loop of `try_parse` as the list of the frames that it takes off its buffer, and the
frames that a client sends.

## Main definitions

- `Reads` — these frames stand in front of a buffer
- `handleAll`, `goesOn` — what a list of frames does
- `Ends` — how the loop ends behind them
- `ClientFrame` — a frame as a client sends it

## Main results

- `tryParse_turns` — the loop handles the frames in front of the buffer, and ends
- `Reads.prefixes` — of two readings, one goes on where the other stops
- `readFrame_encode` — the frame of a client is read back
-/

namespace Osodio.Ws

open Http (Bytes)

/-! ## The frames in front of a buffer -/

/-- The frames `fs` stand in front of a buffer, and `rest` behind them. -/
inductive Reads : Bytes → List Frame → Bytes → Prop where
  | nil {buf : Bytes} : Reads buf [] buf
  | cons {buf rest : Bytes} {f : Frame} {size : ℕ} {fs : List Frame}
      (h : readFrame buf = .frame f size) (ht : Reads (buf.drop size) fs rest) :
      Reads buf (f :: fs) rest

section Reads

variable {buf rest rest' mid : Bytes} {fs gs : List Frame} {f : Frame} {size : ℕ}

theorem Reads.trans (h : Reads buf fs mid) (h' : Reads mid gs rest) : Reads buf (fs ++ gs) rest := by
  induction h with
  | nil => exact h'
  | cons hread _ ih => exact .cons hread (ih h')

theorem Reads.append (h : Reads buf fs rest) (more : Bytes) :
    Reads (buf ++ more) fs (rest ++ more) := by
  induction h with
  | nil => exact .nil
  | cons hread _ ih =>
    have hread' := hread
    rw [← readFrame_append more (by rw [hread]; nofun)] at hread'
    refine .cons hread' ?_
    rwa [List.drop_append_of_le_length (readFrame_size hread).2]

/-- **Of two readings, one goes on where the other stops.** -/
theorem Reads.prefixes (h : Reads buf fs rest) (h' : Reads buf gs rest') :
    (∃ more, gs = fs ++ more ∧ Reads rest more rest') ∨
      ∃ more, fs = gs ++ more ∧ Reads rest' more rest := by
  induction h generalizing gs with
  | nil => exact .inl ⟨gs, rfl, h'⟩
  | @cons buf rest f size fs hread ht ih =>
    cases h' with
    | nil => exact .inr ⟨f :: fs, rfl, .cons hread ht⟩
    | cons hread' ht' =>
      obtain ⟨rfl, rfl⟩ := Reading.frame.inj (hread.symm.trans hread')
      rcases ih ht' with ⟨more, rfl, hmore⟩ | ⟨more, rfl, hmore⟩
      · exact .inl ⟨more, rfl, hmore⟩
      · exact .inr ⟨more, rfl, hmore⟩

/-- No frame is read where none stands. -/
theorem Reads.stuck (h : Reads buf fs rest) (hno : ∀ f size, readFrame buf ≠ .frame f size) :
    fs = [] ∧ rest = buf := by
  cases h with
  | nil => exact ⟨rfl, rfl⟩
  | cons hread ht => exact absurd hread (hno _ _)

end Reads

/-! ## Handling them -/

namespace WSState

def handleAll (fs : List Frame) (s : WSState) : WSState := fs.foldl (fun s f => (s.handle f).2) s

/-- The loop goes on behind each of these frames. -/
def goesOn : List Frame → WSState → Bool
  | [], _ => true
  | f :: fs, s => (s.handle f).1 && goesOn fs (s.handle f).2

/-- How the loop ends in the state `u`, with `rest` in the buffer, if not at a full queue. -/
inductive Ends (u : WSState) (rest : Bytes) : WSState → Prop where
  | wait (h : readFrame rest = .wait) : Ends u rest { u with readBuf := rest }
  | fail {code : ℕ} (h : readFrame rest = .fail code) :
      Ends u rest ({ u with readBuf := rest }.failClose code)
  | tooLarge (h : readFrame rest = .tooLarge) :
      Ends u rest { u with readBuf := rest, closed := true }
  | stop {f : Frame} {size : ℕ} (h : readFrame rest = .frame f size)
      (hstop : (u.handle f).1 = false) :
      Ends u rest { (u.handle f).2 with readBuf := rest.drop size }

variable {s : WSState} {fs gs : List Frame} {f : Frame}

@[simp] theorem handleAll_nil (s : WSState) : s.handleAll [] = s := rfl

@[simp] theorem handleAll_cons (f : Frame) (fs : List Frame) (s : WSState) :
    s.handleAll (f :: fs) = (s.handle f).2.handleAll fs := rfl

theorem handleAll_append (fs gs : List Frame) (s : WSState) :
    s.handleAll (fs ++ gs) = (s.handleAll fs).handleAll gs := List.foldl_append ..

theorem goesOn_append (fs gs : List Frame) (s : WSState) :
    s.goesOn (fs ++ gs) = (s.goesOn fs && (s.handleAll fs).goesOn gs) := by
  induction fs generalizing s with
  | nil => rfl
  | cons f fs ih => rw [List.cons_append, goesOn, ih, goesOn, handleAll_cons, Bool.and_assoc]

theorem handleAll_over (q : List WSMessage) (buf : Bytes) (fs : List Frame) (s : WSState) :
    (s.upon q buf).handleAll fs = (s.handleAll fs).upon q buf := by
  induction fs generalizing s with
  | nil => rfl
  | cons f fs ih => rw [handleAll_cons, handle_over, ih, handleAll_cons]

theorem goesOn_over (q : List WSMessage) (buf : Bytes) (fs : List Frame) (s : WSState) :
    (s.upon q buf).goesOn fs = s.goesOn fs := by
  induction fs generalizing s with
  | nil => rfl
  | cons f fs ih => rw [goesOn, handle_over, ih, goesOn]

/-- The loop ends in the same way behind other messages. -/
theorem Ends.upon {u t : WSState} {rest : Bytes} (h : Ends u rest t) (q : List WSMessage)
    (buf : Bytes) :
    Ends (u.upon q buf) rest (t.upon q t.readBuf) := by
  cases h with
  | wait h => exact .wait h
  | fail h => exact .fail h
  | tooLarge h => exact .tooLarge h
  | @stop f size h hstop =>
    have hover := handle_over q buf f u
    have hstop' : ((u.upon q buf).handle f).1 = false := by rw [hover]; exact hstop
    have hends := Ends.stop h hstop'
    rw [hover] at hends
    exact hends

/-- **The loop handles the frames in front of its buffer**, up to where it ends or finds a
    full queue. -/
theorem tryParse_turns (s : WSState) : ∃ fs rest, Reads s.readBuf fs rest ∧ s.goesOn fs = true ∧
    (Ends (s.handleAll fs) rest s.tryParse ∨
      ∃ f size, readFrame rest = .frame f size ∧
        kMaxPendingFrames ≤ (s.handleAll fs).pending.length ∧
        s.tryParse = { s.handleAll fs with readBuf := rest, closed := true }) := by
  apply tryParse_induction (P := fun s t => ∃ fs rest, Reads s.readBuf fs rest ∧
    s.goesOn fs = true ∧ (Ends (s.handleAll fs) rest t ∨ ∃ f size, readFrame rest = .frame f size ∧
      kMaxPendingFrames ≤ (s.handleAll fs).pending.length ∧
      t = { s.handleAll fs with readBuf := rest, closed := true }))
  case wait => exact fun s h => ⟨[], _, .nil, rfl, .inl (.wait h)⟩
  case fail => exact fun s code h => ⟨[], _, .nil, rfl, .inl (.fail h)⟩
  case tooLarge => exact fun s h => ⟨[], _, .nil, rfl, .inl (.tooLarge h)⟩
  case full => exact fun s f size h hfull => ⟨[], _, .nil, rfl, .inr ⟨f, size, h, hfull, rfl⟩⟩
  case stop => exact fun s f size h _ hstop => ⟨[], _, .nil, rfl, .inl (.stop h hstop)⟩
  case go =>
    intro s f size t h _ hgo ⟨fs, rest, hreads, hgoes, hends⟩
    have htaking : (s.taking f size).handleAll fs =
        { (s.handle f).2.handleAll fs with readBuf := s.readBuf.drop size } :=
      handleAll_over [] _ fs _
    refine ⟨f :: fs, rest, .cons h hreads, ?_, ?_⟩
    · rw [goesOn, hgo, Bool.true_and, ← goesOn_over [] (s.readBuf.drop size)]
      exact hgoes
    · rw [htaking] at hends
      rw [handleAll_cons]
      generalize (s.handle f).2.handleAll fs = u at hends
      rcases hends with hends | hfull
      · left
        cases hends with
        | wait h => exact .wait h
        | fail h => exact .fail h
        | tooLarge h => exact .tooLarge h
        | stop h hstop =>
          rw [handle_readBuf] at hstop ⊢
          exact .stop h hstop
      · exact .inr hfull

/-- The loop ends, unless the queue is full. -/
theorem tryParse_reads (s : WSState) (hroom : s.tryParse.pending.length < kMaxPendingFrames) :
    ∃ fs rest, Reads s.readBuf fs rest ∧ s.goesOn fs = true ∧
      Ends (s.handleAll fs) rest s.tryParse := by
  obtain ⟨fs, rest, hreads, hgoes, hends | ⟨f, size, -, hfull, ht⟩⟩ := tryParse_turns s
  · exact ⟨fs, rest, hreads, hgoes, hends⟩
  · rw [ht] at hroom
    exact absurd hroom (Nat.not_lt.2 hfull)

/-- The loop ends, if each frame that it comes to finds room in the queue. -/
theorem tryParse_room (s : WSState) (hroom : ∀ fs f rest, Reads s.readBuf (fs ++ [f]) rest →
      s.goesOn fs = true → (s.handleAll fs).pending.length < kMaxPendingFrames) :
    ∃ fs rest, Reads s.readBuf fs rest ∧ s.goesOn fs = true ∧
      Ends (s.handleAll fs) rest s.tryParse := by
  obtain ⟨fs, rest, hreads, hgoes, hends | ⟨f, size, hread, hfull, -⟩⟩ := tryParse_turns s
  · exact ⟨fs, rest, hreads, hgoes, hends⟩
  · exact absurd (hroom fs f _ (hreads.trans (.cons hread .nil)) hgoes) (Nat.not_lt.2 hfull)

/-! ### What has been sent -/

/-- The parser without what it has sent, which it never reads. -/
def silent (s : WSState) : WSState := { s with sent := [] }

theorem handle_silent (f : Frame) (s : WSState) :
    (s.silent.handle f).1 = (s.handle f).1 ∧ (s.silent.handle f).2.silent = (s.handle f).2.silent := by
  have hmap : ∀ (c : Prop) [Decidable c] (x y : Bool × WSState),
      (((if c then x else y).1, (if c then x else y).2.silent) : Bool × WSState) =
        if c then (x.1, x.2.silent) else (y.1, y.2.silent) := by
    intro c _ x y
    split <;> rfl
  rw [← Prod.mk.injEq]
  simp only [handle, hmap]
  simp only [silent, push, rawSend, failClose]
  rfl

theorem handleAll_silent (fs : List Frame) (s : WSState) :
    s.silent.goesOn fs = s.goesOn fs ∧ (s.silent.handleAll fs).silent = (s.handleAll fs).silent := by
  induction fs generalizing s with
  | nil => exact ⟨rfl, rfl⟩
  | cons f fs ih =>
    obtain ⟨hgo, hstate⟩ := handle_silent f s
    have hnext := ih (s.silent.handle f).2
    rw [hstate, (ih (s.handle f).2).1, (ih (s.handle f).2).2] at hnext
    exact ⟨by rw [goesOn, goesOn, hgo, ← hnext.1], by rw [handleAll_cons, handleAll_cons, ← hnext.2]⟩

end WSState

/-! ## The frames of a client -/

/-- The second octet of a frame, without its mask bit. -/
def firstLength (n : ℕ) : UInt8 :=
  if n < 126 then UInt8.ofNat n else if n < 65536 then 126 else 127

def extendedLength (n : ℕ) : Bytes :=
  if n < 126 then [] else if n < 65536 then bigEndian 2 n else bigEndian 8 n

/-- A frame that a client may send. -/
structure ClientFrame where
  fin : Bool
  opcode : UInt8
  key : Bytes
  payload : Bytes
  defined : opcode ∈ ([0x0, 0x1, 0x2, 0x8, 0x9, 0xA] : List UInt8)
  key_length : key.length = 4
  control : (opcode &&& 0x08 != 0) = true → fin = true ∧ payload.length ≤ 125
  bounded : payload.length ≤ kMaxFramePayload

namespace ClientFrame

/-- The octets of a frame. -/
def bytes (c : ClientFrame) : Bytes :=
  ((if c.fin then 0x80 else 0x00) ||| c.opcode) :: (0x80 ||| firstLength c.payload.length) ::
    (extendedLength c.payload.length ++ (c.key ++ unmask c.key c.payload))

def toFrame (c : ClientFrame) : Frame := ⟨c.fin, c.opcode, c.payload⟩

end ClientFrame

section Encoding

theorem length_unmask (key payload : Bytes) : (unmask key payload).length = payload.length :=
  List.length_mapIdx

/-- Whoever has the key takes the mask off again. -/
theorem unmask_unmask (key payload : Bytes) : unmask key (unmask key payload) = payload := by
  rw [unmask, unmask, List.mapIdx_mapIdx]
  have hid : ∀ (i : ℕ) (b : UInt8), b ^^^ key.getD (i % 4) 0 ^^^ key.getD (i % 4) 0 = b := by
    intro i b
    rw [UInt8.xor_assoc, UInt8.xor_self, UInt8.xor_zero]
  apply List.ext_getElem?
  intro i
  rw [List.getElem?_mapIdx]
  cases payload[i]? with
  | none => rfl
  | some b => exact congrArg some (hid i b)

theorem length_bigEndian (k n : ℕ) : (bigEndian k n).length = k := by
  induction k generalizing n with
  | zero => rfl
  | succ k ih => rw [bigEndian, List.length_append, ih, List.length_singleton]

theorem ofBigEndian_bigEndian {k n : ℕ} (h : n < 256 ^ k) : ofBigEndian (bigEndian k n) = n := by
  induction k generalizing n with
  | zero =>
    rw [pow_zero, Nat.lt_one_iff] at h
    rw [h]
    rfl
  | succ k ih =>
    have hdiv : n / 256 < 256 ^ k := by
      rw [Nat.div_lt_iff_lt_mul (by decide), ← pow_succ]
      exact h
    rw [bigEndian, ofBigEndian, List.foldl_append, ← ofBigEndian, ih hdiv]
    show n / 256 * 256 + (UInt8.ofNat n).toNat = n
    rw [UInt8.toNat_ofNat']
    omega

theorem firstLength_lt (n : ℕ) : (firstLength n).toNat < 128 := by
  unfold firstLength
  split
  · rw [UInt8.toNat_ofNat']
    omega
  split <;> decide

theorem masked_bits (l : UInt8) (h : l.toNat < 128) :
    ((0x80 ||| l) &&& 0x80 != 0) = true ∧ (0x80 ||| l) &&& 0x7F = l := by
  have hall : ∀ n : Fin 128, ((0x80 ||| UInt8.ofNat n) &&& 0x80 != 0) = true ∧
      (0x80 ||| UInt8.ofNat n) &&& 0x7F = UInt8.ofNat n := by decide +kernel
  have hl := hall ⟨l.toNat, h⟩
  rwa [UInt8.ofNat_toNat] at hl

theorem payloadLength_client {n : ℕ} (h : n ≤ kMaxFramePayload) (b0 b1 : UInt8) (more : Bytes) :
    payloadLength (firstLength n) (b0 :: b1 :: (extendedLength n ++ more)) =
      some (n, 2 + (extendedLength n).length) := by
  have hbig : n < 2 ^ 63 := lt_of_le_of_lt h (by decide)
  have hfield : ∀ k, n < 256 ^ k →
      ofBigEndian (((b0 :: b1 :: (bigEndian k n ++ more)).drop 2).take k) = n := by
    intro k hk
    show ofBigEndian ((bigEndian k n ++ more).take k) = n
    rw [List.take_append_of_le_length (by rw [length_bigEndian]),
      List.take_of_length_le (by rw [length_bigEndian]), ofBigEndian_bigEndian hk]
  unfold payloadLength firstLength extendedLength
  split
  · next hn =>
    have h126 : UInt8.ofNat n ≠ 126 ∧ UInt8.ofNat n ≠ 127 := by
      constructor <;> intro hc <;>
        · have hval := congrArg UInt8.toNat hc
          rw [UInt8.toNat_ofNat'] at hval
          change n % 2 ^ 8 = _ at hval
          simp only [UInt8.toNat_ofNat] at hval
          omega
    rw [if_neg h126.1, if_neg h126.2, UInt8.toNat_ofNat']
    simp only [List.length_nil, Option.some.injEq, Prod.mk.injEq, and_true]
    omega
  split
  · rw [if_pos rfl, if_neg (by simp [length_bigEndian]), hfield 2 (by omega), length_bigEndian]
  · rw [if_neg (by decide), if_pos rfl, if_neg (by simp [length_bigEndian]), hfield 8 (by omega),
      length_bigEndian]

theorem payloadAt_client (key payload head more : Bytes) (hkey : key.length = 4) :
    payloadAt true payload.length head.length (head ++ (key ++ unmask key payload) ++ more) =
      some (payload, (head ++ (key ++ unmask key payload)).length) := by
  have hlen : (head ++ (key ++ unmask key payload)).length = head.length + 4 + payload.length := by
    rw [List.length_append, List.length_append, length_unmask, hkey]
    omega
  have htake : ((head ++ (key ++ unmask key payload) ++ more).drop (head.length + 4 - 4)).take 4 =
      key := by
    rw [Nat.add_sub_cancel, List.append_assoc, List.drop_left, List.append_assoc,
      List.take_append_of_le_length (by omega), List.take_of_length_le (by omega)]
  have hdrop : ((head ++ (key ++ unmask key payload) ++ more).drop (head.length + 4)).take
      payload.length = unmask key payload := by
    rw [← hkey, ← List.length_append, List.append_assoc, List.append_assoc, ← List.append_assoc head,
      List.drop_left, List.take_append_of_le_length (by rw [length_unmask]),
      List.take_of_length_le (by rw [length_unmask])]
  unfold payloadAt
  dsimp only
  rw [if_pos rfl, if_neg (by rw [List.length_append, hlen]; omega), if_pos rfl, htake, hdrop,
    unmask_unmask, hlen]

/-- The first octet of a frame. -/
theorem first_bits {opcode : UInt8} (h : opcode ∈ ([0x0, 0x1, 0x2, 0x8, 0x9, 0xA] : List UInt8))
    (fin : Bool) :
    let b0 := (if fin then 0x80 else 0x00) ||| opcode
    (b0 &&& 0x80 != 0) = fin ∧ (b0 &&& 0x70 != 0) = false ∧ b0 &&& 0x0F = opcode ∧
      (!(opcode &&& 0x08 != 0) && opcode > 0x2 || opcode &&& 0x08 != 0 && opcode > 0xA) = false := by
  have hall : ∀ op ∈ ([0x0, 0x1, 0x2, 0x8, 0x9, 0xA] : List UInt8), ∀ fin : Bool,
      let b0 := (if fin then 0x80 else 0x00) ||| op
      (b0 &&& 0x80 != 0) = fin ∧ (b0 &&& 0x70 != 0) = false ∧ b0 &&& 0x0F = op ∧
        (!(op &&& 0x08 != 0) && op > 0x2 || op &&& 0x08 != 0 && op > 0xA) = false := by
    decide +kernel
  exact hall opcode h fin

/-- **A frame of a client is read back**, whatever follows. -/
theorem readFrame_encode (c : ClientFrame) (more : Bytes) :
    readFrame (c.bytes ++ more) = .frame c.toFrame c.bytes.length := by
  obtain ⟨hfin, hrsv, hop, hdefined⟩ := first_bits c.defined c.fin
  obtain ⟨hmask, hlen7⟩ := masked_bits _ (firstLength_lt c.payload.length)
  have hhead : ∀ b0 b1 : UInt8, ∀ t : Bytes, (b0 :: b1 :: (extendedLength c.payload.length ++ t)) =
      (b0 :: b1 :: extendedLength c.payload.length) ++ t := fun _ _ _ => rfl
  have hcontrol : (c.opcode &&& 0x08 != 0 && (!c.fin || c.payload.length > 125)) = false := by
    cases hc : (c.opcode &&& 0x08 != 0) with
    | false => rfl
    | true => simp [(c.control hc).1, (c.control hc).2]
  have hsmall : ¬ (firstLength c.payload.length = 127 ∧ 2 ^ 63 ≤ c.payload.length) := by
    intro hbig
    exact absurd (hbig.2.trans c.bounded) (by decide)
  unfold ClientFrame.bytes
  rw [List.cons_append, List.cons_append, List.append_assoc]
  unfold readFrame
  dsimp only
  rw [hrsv, if_neg (by decide), hop, hdefined, if_neg (by decide), hlen7,
    payloadLength_client c.bounded]
  dsimp only
  rw [if_neg hsmall, hfin, hcontrol, if_neg (by decide), if_neg (by exact Nat.not_lt.2 c.bounded),
    hmask, hhead]
  generalize hhd : (((if c.fin then 0x80 else 0x00) ||| c.opcode) ::
    (0x80 ||| firstLength c.payload.length) :: extendedLength c.payload.length) = head
  have hlen : 2 + (extendedLength c.payload.length).length = head.length := by
    rw [← hhd, List.length_cons, List.length_cons]
    omega
  have hpay := payloadAt_client c.key c.payload head more c.key_length
  rw [List.append_assoc] at hpay
  rw [hlen, hpay, hhead, hhd]
  rfl

end Encoding

end Osodio.Ws
