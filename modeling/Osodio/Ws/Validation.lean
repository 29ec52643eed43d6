import Osodio.Ws.Reception

/-!
# Which frames a session accepts

The rules of RFC 6455 for the frames of a client, said of the bytes on the wire: rules
for a header, which can be broken before the frame is complete, and rules for the place
of a data frame among the others.  A session fails at the first frame that breaks one,
unless it is the rule of the mask.

## Main definitions

- `offence` — the rule that a header breaks, as far as it has arrived
- `wireFrame` — the complete frame in front of some bytes, whatever it contains
- `Misplaced` — a data frame that cannot stand where it does
- `Progress` — the messages and answers of the frames so far
- `Sound`, `Violates` — frames that break no rule, and what breaks one behind them

## Main results

- `readFrame_rules` — what the parser reads, by the rules
- `fails_at_violation` — a session fails where a frame breaks a rule, with a Close frame
  and without a further message
- `begun_frame_fails` — a header fails before its frame is complete
-/

namespace Osodio.Ws

open Http (Bytes)
open WSState (Ends)

/-! ## The rules -/

inductive Offence where
  | protocol
  | size
  | mask
  deriving DecidableEq, Repr

/-- The opcodes that RFC 6455 defines. -/
def defined (opcode : UInt8) : Bool := [0x0, 0x1, 0x2, 0x8, 0x9, 0xA].contains opcode

/-- The rule that the header in front of these bytes breaks, as far as it has arrived; that
    of the mask only where it breaks no other. -/
def offence : Bytes → Option Offence
  | b0 :: b1 :: more =>
    let control := b0 &&& 0x08 != 0
    let unmasked := if b1 &&& 0x80 == 0 then some .mask else none
    -- RSV bits, or an undefined opcode
    if b0 &&& 0x70 != 0 || !defined (b0 &&& 0x0F) then some .protocol
    else
      match payloadLength (b1 &&& 0x7F) (b0 :: b1 :: more) with
      | none => unmasked
      | some (n, _) =>
        if 2 ^ 63 ≤ n then some .protocol
        else if control && (b0 &&& 0x80 == 0 || n > 125) then some .protocol
        else if kMaxFramePayload < n then some .size
        else unmasked
  | _ => none

/-- The complete frame in front of these bytes, and what follows it. -/
def wireFrame : Bytes → Option (Frame × Bytes)
  | b0 :: b1 :: more =>
    match payloadLength (b1 &&& 0x7F) (b0 :: b1 :: more) with
    | none => none
    | some (n, hdr) =>
      (payloadAt (b1 &&& 0x80 != 0) n hdr (b0 :: b1 :: more)).map fun (payload, size) =>
        (⟨b0 &&& 0x80 != 0, b0 &&& 0x0F, payload⟩, (b0 :: b1 :: more).drop size)
  | _ => none

/-- What has come of some frames: the unfinished message with its opcode, and the messages
    and the answers. -/
structure Progress where
  unfinished : Option (UInt8 × Bytes) := none
  messages : List WSMessage := []
  replies : List Bytes := []

/-- A continuation of nothing or beyond the limit, or a new message inside another. -/
def Misplaced (unfinished : Option (UInt8 × Bytes)) (f : Frame) : Prop :=
  match unfinished with
  | none => f.opcode = 0x0
  | some (_, sofar) =>
    f.opcode = 0x1 ∨ f.opcode = 0x2 ∨
      f.opcode = 0x0 ∧ kMaxMessageSize < sofar.length + f.payload.length

/-- What comes of a frame that is not a Close frame. -/
def Progress.step (p : Progress) (f : Frame) : Progress :=
  if f.opcode = 0x9 then { p with replies := p.replies ++ [buildFrame f.payload 0xA true] }
  else if f.opcode = 0xA then { p with messages := p.messages ++ [⟨.pong, f.payload⟩] }
  else
    let opcode := (p.unfinished.map (·.1)).getD f.opcode
    let sofar := (p.unfinished.map (·.2)).getD [] ++ f.payload
    if f.fin then
      { p with unfinished := none, messages := p.messages ++ [⟨.ofByte opcode, sofar⟩] }
    else { p with unfinished := some (opcode, sofar) }

def progress (fs : List Frame) : Progress := fs.foldl Progress.step {}

/-- In front of `bytes` stand the frames `fs`, and behind them `rest`; none of them breaks
    a rule, and none is a Close frame. -/
inductive Sound (bytes : Bytes) : List Frame → Bytes → Prop where
  | nil : Sound bytes [] bytes
  | concat {fs : List Frame} {f : Frame} {mid rest : Bytes} (h : Sound bytes fs mid)
      (hheader : offence mid = none) (hframe : wireFrame mid = some (f, rest))
      (hplace : ¬ Misplaced (progress fs).unfinished f) (hclose : f.opcode ≠ 0x8) :
      Sound bytes (fs ++ [f]) rest

/-- No rule is broken, but for that of the mask. -/
def Tolerated (o : Option Offence) : Prop := o = none ∨ o = some .mask

/-- The same as `Sound`, with or without masks. -/
inductive Accepted (bytes : Bytes) : List Frame → Bytes → Prop where
  | nil : Accepted bytes [] bytes
  | concat {fs : List Frame} {f : Frame} {mid rest : Bytes} (h : Accepted bytes fs mid)
      (hheader : Tolerated (offence mid)) (hframe : wireFrame mid = some (f, rest))
      (hplace : ¬ Misplaced (progress fs).unfinished f) (hclose : f.opcode ≠ 0x8) :
      Accepted bytes (fs ++ [f]) rest

/-- Behind the frames `fs`, the frame in front of `rest` breaks a rule. -/
def Violates (fs : List Frame) (rest : Bytes) : Prop :=
  offence rest ≠ none ∨
    ∃ f more, wireFrame rest = some (f, more) ∧ Misplaced (progress fs).unfinished f

/-- The connection is closed, and not by a Close frame of the client. -/
def Failed (s : Session) : Prop :=
  s.ws.closed = true ∧ ∀ m ∈ s.taken ++ s.ws.pending, m.opcode ≠ .close

/-! ## Reading and the rules -/

section Reading

variable {b : Bytes}

theorem defined_iff (b0 : UInt8) :
    (!(b0 &&& 0x0F &&& 0x08 != 0) && b0 &&& 0x0F > 0x2 ||
      b0 &&& 0x0F &&& 0x08 != 0 && b0 &&& 0x0F > 0xA) = !defined (b0 &&& 0x0F) := by
  have hall : ∀ n : Fin 256,
      (!(UInt8.ofNat n &&& 0x0F &&& 0x08 != 0) && UInt8.ofNat n &&& 0x0F > 0x2 ||
        UInt8.ofNat n &&& 0x0F &&& 0x08 != 0 && UInt8.ofNat n &&& 0x0F > 0xA) =
          !defined (UInt8.ofNat n &&& 0x0F) := by decide +kernel
  have h := hall ⟨b0.toNat, b0.toNat_lt⟩
  rwa [UInt8.ofNat_toNat] at h

theorem control_bit (b0 : UInt8) : (b0 &&& 0x0F &&& 0x08 != 0) = (b0 &&& 0x08 != 0) := by
  rw [UInt8.and_assoc]
  rfl

theorem ofBigEndian_lt (bs : Bytes) : ofBigEndian bs < 256 ^ bs.length := by
  induction bs using List.reverseRecOn with
  | nil => decide
  | append_singleton bs b ih =>
    have hb := b.toNat_lt
    have hstep : ofBigEndian (bs ++ [b]) = ofBigEndian bs * 256 + b.toNat := by
      rw [ofBigEndian, List.foldl_append]
      rfl
    rw [hstep, List.length_append, List.length_singleton, pow_succ]
    omega

/-- Only a length of 64 bits is that long. -/
theorem payloadLength_small {len7 : UInt8} {n hdr : ℕ} (h : payloadLength len7 b = some (n, hdr))
    (h7 : len7 ≠ 127) : n < 2 ^ 63 := by
  unfold payloadLength at h
  split at h
  · split at h
    · cases h
    · cases h
      have hlt := ofBigEndian_lt ((b.drop 2).take 2)
      have hlen : 256 ^ ((b.drop 2).take 2).length ≤ 256 ^ 2 :=
        Nat.pow_le_pow_right (by decide) (List.length_take_le _ _)
      omega
  · cases h
    have hlt := len7.toNat_lt
    omega

/-- **What the parser reads, by the rules.** -/
theorem readFrame_rules (b : Bytes) :
    match readFrame b with
    | .wait => wireFrame b = none ∧ Tolerated (offence b)
    | .fail code => offence b = some .protocol ∧ code = 1002
    | .tooLarge => offence b = some .size
    | .frame f size =>
      wireFrame b = some (f, b.drop size) ∧ Tolerated (offence b) ∧ defined f.opcode = true := by
  match b with
  | [] => exact ⟨rfl, .inl rfl⟩
  | [_] => exact ⟨rfl, .inl rfl⟩
  | b0 :: b1 :: more =>
    have hmask : Tolerated (if b1 &&& 0x80 == 0 then some .mask else none) := by
      split
      · exact .inr rfl
      · exact .inl rfl
    unfold readFrame offence wireFrame
    dsimp only
    rw [defined_iff, control_bit]
    cases hrsv : (b0 &&& 0x70 != 0) with
    | true => exact ⟨rfl, rfl⟩
    | false =>
    cases hop : defined (b0 &&& 0x0F) with
    | false => exact ⟨rfl, rfl⟩
    | true =>
    simp only [Bool.not_true, Bool.or_false, Bool.false_eq_true, if_false]
    cases hlen : payloadLength (b1 &&& 0x7F) (b0 :: b1 :: more) with
    | none => exact ⟨rfl, hmask⟩
    | some r =>
      obtain ⟨n, hdr⟩ := r
      dsimp only
      by_cases hbig : 2 ^ 63 ≤ n
      · have h127 : b1 &&& 0x7F = 127 := by
          by_contra h7
          exact absurd hbig (Nat.not_le.2 (payloadLength_small hlen h7))
        rw [if_pos ⟨h127, hbig⟩, if_pos hbig]
        exact ⟨rfl, rfl⟩
      rw [if_neg (fun h => hbig h.2), if_neg hbig]
      have hfin : (!(b0 &&& 0x80 != 0)) = (b0 &&& 0x80 == 0) := Bool.not_not _
      rw [hfin]
      cases hcontrol : (b0 &&& 0x08 != 0 && (b0 &&& 0x80 == 0 || decide (n > 125))) with
      | true => exact ⟨rfl, rfl⟩
      | false =>
      simp only [Bool.false_eq_true, if_false]
      by_cases hsize : kMaxFramePayload < n
      · rw [if_pos hsize, if_pos hsize]
      rw [if_neg hsize, if_neg hsize]
      cases payloadAt (b1 &&& 0x80 != 0) n hdr (b0 :: b1 :: more) with
      | none => exact ⟨rfl, hmask⟩
      | some r => exact ⟨rfl, hmask, hop⟩

end Reading

/-! ## Handling and the rules -/

/-- The parser after frames with this progress, every message still in its queue. -/
structure Tracks (u : WSState) (p : Progress) : Prop where
  messages : u.pending = p.messages
  replies : u.sent = p.replies
  opened : u.closed = false
  opcode : u.fragOpcode = (p.unfinished.map (·.1)).getD 0
  sofar : u.fragBuf = (p.unfinished.map (·.2)).getD []
  data : ∀ q ∈ p.unfinished, q.1 = 0x1 ∨ q.1 = 0x2
  quiet : ∀ m ∈ p.messages, m.opcode ≠ .close

section Tracks

variable {u : WSState} {p : Progress} {f : Frame} {b rest : Bytes} {fs gs : List Frame}

theorem Tracks.fragmenting (h : Tracks u p) : u.fragmenting = p.unfinished.isSome := by
  rw [WSState.fragmenting, h.opcode, h.sofar]
  cases hp : p.unfinished with
  | none => rfl
  | some q =>
    rcases h.data q hp with hq | hq <;> simp [hq]

theorem tracks_nil : Tracks {} {} := ⟨rfl, rfl, rfl, rfl, rfl, nofun, nofun⟩

theorem defined_data (hdef : defined f.opcode = true) (h8 : f.opcode ≠ 0x8) (h9 : f.opcode ≠ 0x9)
    (hA : f.opcode ≠ 0xA) (h0 : f.opcode ≠ 0x0) : f.opcode = 0x1 ∨ f.opcode = 0x2 := by
  simp only [defined, List.contains_eq_mem, List.mem_cons, List.not_mem_nil, or_false,
    decide_eq_true_eq] at hdef
  tauto

theorem ofByte_data {op : UInt8} (h : op = 0x1 ∨ op = 0x2) : Opcode.ofByte op ≠ .close := by
  rcases h with rfl | rfl <;> decide

/-- **A frame in its place** lets the loop go on. -/
theorem Tracks.step (h : Tracks u p) (hdef : defined f.opcode = true)
    (hplace : ¬ Misplaced p.unfinished f) (hclose : f.opcode ≠ 0x8) :
    (u.handle f).1 = true ∧ Tracks (u.handle f).2 (p.step f) := by
  have hfrag := h.fragmenting
  apply WSState.handle_cases f u (P := fun r => r.1 = true ∧ Tracks r.2 (p.step f))
  case close => exact fun h8 => absurd h8 hclose
  case ping =>
    intro h9
    rw [Progress.step, if_pos h9]
    exact ⟨rfl, h.messages, congrArg (· ++ _) h.replies, h.opened, h.opcode, h.sofar, h.data,
      h.quiet⟩
  case pong =>
    intro hA
    rw [Progress.step, if_neg (by rw [hA]; decide), if_pos hA]
    refine ⟨rfl, congrArg (· ++ _) h.messages, h.replies, h.opened, h.opcode, h.sofar, h.data, ?_⟩
    intro m hm
    rcases List.mem_append.1 hm with hm | hm
    · exact h.quiet m hm
    · rw [List.mem_singleton.1 hm]
      nofun
  case stray =>
    intro h0 hno
    rw [hfrag, Option.isSome_eq_false_iff, Option.isNone_iff_eq_none] at hno
    rw [hno] at hplace
    exact absurd h0 hplace
  case tooBig =>
    intro h0 hyes hbig
    obtain ⟨q, hq⟩ := Option.isSome_iff_exists.1 (hfrag.symm.trans hyes)
    rw [h.sofar, hq] at hbig
    rw [hq] at hplace
    exact absurd (.inr (.inr ⟨h0, hbig⟩)) hplace
  case inside =>
    intro h8 h9 hA h0 hyes
    obtain ⟨q, hq⟩ := Option.isSome_iff_exists.1 (hfrag.symm.trans hyes)
    rw [hq] at hplace
    rcases defined_data hdef h8 h9 hA h0 with h1 | h2
    · exact absurd (.inl h1) hplace
    · exact absurd (.inr (.inl h2)) hplace
  case last =>
    intro h0 hyes _ hfin
    obtain ⟨q, hq⟩ := Option.isSome_iff_exists.1 (hfrag.symm.trans hyes)
    rw [Progress.step, if_neg (by rw [h0]; decide), if_neg (by rw [h0]; decide), if_pos hfin]
    refine ⟨rfl, ?_, h.replies, h.opened, rfl, rfl, nofun, ?_⟩
    · show u.pending ++ [_] = _
      rw [h.messages, h.opcode, h.sofar, hq]
      rfl
    · intro m hm
      rcases List.mem_append.1 hm with hm | hm
      · exact h.quiet m hm
      · rw [List.mem_singleton.1 hm, hq]
        exact ofByte_data (h.data q hq)
  case next =>
    intro h0 hyes _ hfin
    obtain ⟨q, hq⟩ := Option.isSome_iff_exists.1 (hfrag.symm.trans hyes)
    rw [Progress.step, if_neg (by rw [h0]; decide), if_neg (by rw [h0]; decide),
      if_neg (by rw [hfin]; decide)]
    refine ⟨rfl, h.messages, h.replies, h.opened, ?_, ?_, ?_, h.quiet⟩
    · show u.fragOpcode = _
      rw [h.opcode, hq]
      rfl
    · show u.fragBuf ++ _ = _
      rw [h.sofar]
      rfl
    · intro r hr
      cases hr
      rw [hq]
      exact h.data q hq
  case whole =>
    intro h8 h9 hA h0 hno hfin
    rw [hfrag, Option.isSome_eq_false_iff, Option.isNone_iff_eq_none] at hno
    rw [Progress.step, if_neg h9, if_neg hA, if_pos hfin, hno]
    refine ⟨rfl, congrArg (· ++ _) h.messages, h.replies, h.opened, ?_, ?_, nofun, ?_⟩
    · show u.fragOpcode = _
      rw [h.opcode, hno]
    · show u.fragBuf = _
      rw [h.sofar, hno]
    · intro m hm
      rcases List.mem_append.1 hm with hm | hm
      · exact h.quiet m hm
      · rw [List.mem_singleton.1 hm]
        exact ofByte_data (defined_data hdef h8 h9 hA h0)
  case first =>
    intro h8 h9 hA h0 hno hfin
    rw [hfrag, Option.isSome_eq_false_iff, Option.isNone_iff_eq_none] at hno
    rw [Progress.step, if_neg h9, if_neg hA, if_neg (by rw [hfin]; decide), hno]
    refine ⟨rfl, h.messages, h.replies, h.opened, rfl, rfl, ?_, h.quiet⟩
    intro r hr
    cases hr
    exact defined_data hdef h8 h9 hA h0

/-- **A frame out of its place** ends the loop with a Close frame. -/
theorem Tracks.misplaced (h : Tracks u p) (hplace : Misplaced p.unfinished f) :
    ∃ code, (code = 1002 ∨ code = 1009) ∧ u.handle f = (false, u.failClose code) := by
  have hfrag := h.fragmenting
  have hdata : f.opcode = 0x0 ∨ f.opcode = 0x1 ∨ f.opcode = 0x2 := by
    revert hplace
    unfold Misplaced
    split
    · exact .inl
    · tauto
  have hcontrol : ∀ op : UInt8, op = 0x8 ∨ op = 0x9 ∨ op = 0xA → f.opcode ≠ op := by
    rintro op (rfl | rfl | rfl) hop <;> rw [hop] at hdata <;> exact absurd hdata (by decide)
  have hnone : u.fragmenting = false → f.opcode = 0x0 := by
    intro hno
    rw [hfrag, Option.isSome_eq_false_iff, Option.isNone_iff_eq_none] at hno
    rw [hno] at hplace
    exact hplace
  have hbig : u.fragmenting = true → f.opcode = 0x0 →
      kMaxMessageSize < u.fragBuf.length + f.payload.length := by
    intro hyes h0
    obtain ⟨q, hq⟩ := Option.isSome_iff_exists.1 (hfrag.symm.trans hyes)
    rw [hq] at hplace
    rw [h.sofar, hq]
    rcases hplace with h1 | h2 | ⟨-, hbig⟩
    · exact absurd (h0.symm.trans h1) (by decide)
    · exact absurd (h0.symm.trans h2) (by decide)
    · exact hbig
  apply WSState.handle_cases f u
    (P := fun r => ∃ code, (code = 1002 ∨ code = 1009) ∧ r = (false, u.failClose code))
  case stray => exact fun _ _ => ⟨1002, .inl rfl, rfl⟩
  case tooBig => exact fun _ _ _ => ⟨1009, .inr rfl, rfl⟩
  case inside => exact fun _ _ _ _ _ => ⟨1002, .inl rfl, rfl⟩
  case close => exact fun h8 => absurd h8 (hcontrol _ (.inl rfl))
  case ping => exact fun h9 => absurd h9 (hcontrol _ (.inr (.inl rfl)))
  case pong => exact fun hA => absurd hA (hcontrol _ (.inr (.inr rfl)))
  case last => exact fun h0 hyes hsize _ => absurd (hbig hyes h0) (Nat.not_lt.2 hsize)
  case next => exact fun h0 hyes hsize _ => absurd (hbig hyes h0) (Nat.not_lt.2 hsize)
  case whole => exact fun _ _ _ h0 hno _ => absurd (hnone hno) h0
  case first => exact fun _ _ _ h0 hno _ => absurd (hnone hno) h0

end Tracks

/-! ## Where a session fails -/

section Failing

variable {b rest mid : Bytes} {fs gs : List Frame} {f : Frame} {size : ℕ} {u t : WSState}
  {p : Progress} {s : Session} {es : List Occurrence}

theorem Reads.concat (h : Reads b fs mid) (hread : readFrame mid = .frame f size) :
    Reads b (fs ++ [f]) (mid.drop size) := h.trans (.cons hread .nil)

theorem Reads.of_concat (h : Reads b (fs ++ [f]) rest) :
    ∃ mid size, Reads b fs mid ∧ readFrame mid = .frame f size ∧ rest = mid.drop size := by
  generalize hall : fs ++ [f] = all at h
  induction h generalizing fs with
  | nil => exact absurd hall (by simp)
  | @cons buf rest g size gs hread ht ih =>
    cases fs with
    | nil =>
      obtain ⟨rfl, rfl⟩ := List.cons.inj hall
      cases ht
      exact ⟨buf, size, .nil, hread, rfl⟩
    | cons a fs =>
      obtain ⟨rfl, hgs⟩ := List.cons.inj hall
      obtain ⟨mid, n, hreads, hf, hrest⟩ := ih hgs
      exact ⟨mid, n, .cons hread hreads, hf, hrest⟩

theorem progress_concat (fs : List Frame) (f : Frame) :
    progress (fs ++ [f]) = (progress fs).step f := List.foldl_append ..

/-- A frame that breaks no rule is read. -/
theorem readFrame_of_wireFrame (hheader : Tolerated (offence mid))
    (hframe : wireFrame mid = some (f, rest)) :
    ∃ size, readFrame mid = .frame f size ∧ rest = mid.drop size ∧ defined f.opcode = true := by
  have hrules := readFrame_rules mid
  cases hread : readFrame mid with
  | wait =>
    rw [hread] at hrules
    exact absurd (hrules.1.symm.trans hframe) nofun
  | fail code =>
    rw [hread] at hrules
    rw [hrules.1] at hheader
    exact absurd hheader (by rintro (h | h) <;> cases h)
  | tooLarge =>
    rw [hread] at hrules
    rw [hrules] at hheader
    exact absurd hheader (by rintro (h | h) <;> cases h)
  | frame g size =>
    rw [hread] at hrules
    obtain ⟨hg, -, hdef⟩ := hrules
    obtain ⟨rfl, rfl⟩ := Prod.mk.inj (Option.some.inj (hg.symm.trans hframe))
    exact ⟨size, rfl, rfl, hdef⟩

/-- What a list of frames without a fault leads to. -/
theorem Accepted.handled (h : Accepted b fs rest) :
    Reads b fs rest ∧ ({} : WSState).goesOn fs = true ∧
      Tracks (({} : WSState).handleAll fs) (progress fs) := by
  induction h with
  | nil => exact ⟨.nil, rfl, tracks_nil⟩
  | concat _ hheader hframe hplace hclose ih =>
    obtain ⟨hreads, hgoes, htracks⟩ := ih
    obtain ⟨size, hread, rfl, hdef⟩ := readFrame_of_wireFrame hheader hframe
    obtain ⟨hgo, hnext⟩ := htracks.step hdef hplace hclose
    refine ⟨hreads.concat hread, ?_, ?_⟩
    · rw [WSState.goesOn_append, hgoes, Bool.true_and, WSState.goesOn, hgo]
      rfl
    · rw [WSState.handleAll_append, progress_concat]
      exact hnext

theorem Sound.accepted (h : Sound b fs rest) : Accepted b fs rest := by
  induction h with
  | nil => exact .nil
  | concat _ hheader hframe hplace hclose ih => exact .concat ih (.inl hheader) hframe hplace hclose

theorem handle_close (h : f.opcode = 0x8) (u : WSState) : u.handle f = (false,
    (({ u with closed := true }).rawSend (WSState.echo f.payload)).push .close f.payload) :=
  if_pos h

/-- A frame behind which the loop goes on is in its place, and no Close frame. -/
theorem Tracks.of_goes (h : Tracks u p) (hgo : (u.handle f).1 = true) :
    ¬ Misplaced p.unfinished f ∧ f.opcode ≠ 0x8 := by
  constructor
  · intro hplace
    obtain ⟨code, -, hcode⟩ := h.misplaced hplace
    rw [hcode] at hgo
    cases hgo
  · intro hclose
    rw [handle_close hclose] at hgo
    cases hgo

/-- What the loop has read breaks no rule, masks apart. -/
theorem accepted_of_reads (h : Reads b fs rest) (hgo : ({} : WSState).goesOn fs = true) :
    Accepted b fs rest := by
  induction fs using List.reverseRecOn generalizing rest with
  | nil =>
    cases h
    exact .nil
  | append_singleton fs f ih =>
    obtain ⟨mid, size, hreads, hread, rfl⟩ := h.of_concat
    rw [WSState.goesOn_append, Bool.and_eq_true, WSState.goesOn, WSState.goesOn,
      Bool.and_true] at hgo
    have haccepted := ih hreads hgo.1
    have hrules := readFrame_rules mid
    rw [hread] at hrules
    obtain ⟨hplace, hclose⟩ := haccepted.handled.2.2.of_goes hgo.2
    exact .concat haccepted hrules.2.1 hrules.1 hplace hclose

/-- Frames break no rule, up to the first without a mask. -/
theorem Accepted.sound (h : Accepted b fs rest) :
    Sound b fs rest ∨ ∃ gs mid, Sound b gs mid ∧ offence mid = some .mask := by
  induction h with
  | nil => exact .inl .nil
  | @concat fs f mid rest _ hheader hframe hplace hclose ih =>
    rcases ih with hsound | hmask
    · rcases hheader with hnone | hmask
      · exact .inl (.concat hsound hnone hframe hplace hclose)
      · exact .inr ⟨fs, mid, hsound, hmask⟩
    · exact .inr hmask

/-- No frame in front of `rest` lets the loop go on. -/
def Final (u : WSState) (rest : Bytes) : Prop :=
  ∀ f size, readFrame rest = .frame f size → (u.handle f).1 = false

/-- The loop ends in one place only. -/
theorem reads_unique {rest' : Bytes} (h : Reads b fs rest) (hgo : ({} : WSState).goesOn fs = true)
    (hfinal : Final (({} : WSState).handleAll fs) rest) (h' : Reads b gs rest')
    (hgo' : ({} : WSState).goesOn gs = true) (hfinal' : Final (({} : WSState).handleAll gs) rest') :
    fs = gs ∧ rest = rest' := by
  have hend : ∀ {fs more : List Frame} {rest rest' : Bytes}, Reads rest more rest' →
      ({} : WSState).goesOn (fs ++ more) = true → Final (({} : WSState).handleAll fs) rest →
        more = [] ∧ rest = rest' := by
    intro fs more rest rest' hmore hgo hfinal
    cases hmore with
    | nil => exact ⟨rfl, rfl⟩
    | cons hread _ =>
      rw [WSState.goesOn_append, Bool.and_eq_true, WSState.goesOn, hfinal _ _ hread] at hgo
      exact absurd hgo.2 (by simp)
  rcases h.prefixes h' with ⟨more, rfl, hmore⟩ | ⟨more, rfl, hmore⟩
  · obtain ⟨rfl, rfl⟩ := hend hmore hgo' hfinal
    exact ⟨(List.append_nil _).symm, rfl⟩
  · obtain ⟨rfl, rfl⟩ := hend hmore hgo hfinal'
    exact ⟨List.append_nil _, rfl⟩

theorem final_of_ends (h : Ends u rest t) : Final u rest := by
  intro f size hread
  cases h with
  | wait h => exact absurd (h.symm.trans hread) nofun
  | fail h => exact absurd (h.symm.trans hread) nofun
  | tooLarge h => exact absurd (h.symm.trans hread) nofun
  | stop h hstop =>
    obtain ⟨rfl, rfl⟩ := Reading.frame.inj (h.symm.trans hread)
    exact hstop

/-- A frame that can be read breaks no rule but those of its place and of the mask. -/
theorem misplaced_of_violates (hv : Violates fs rest) (hmask : offence rest ≠ some .mask)
    (hread : readFrame rest = .frame f size) : Misplaced (progress fs).unfinished f := by
  have hrules := readFrame_rules rest
  rw [hread] at hrules
  obtain ⟨hframe, htol, -⟩ := hrules
  rcases hv with hheader | ⟨g, more, hg, hplace⟩
  · rcases htol with hnone | hm
    · exact absurd hnone hheader
    · exact absurd hm hmask
  · obtain ⟨rfl, -⟩ := Prod.mk.inj (Option.some.inj (hg.symm.trans hframe))
    exact hplace

theorem final_of_violates (htracks : Tracks u (progress fs)) (hv : Violates fs rest)
    (hmask : offence rest ≠ some .mask) : Final u rest := by
  intro f size hread
  obtain ⟨code, -, hcode⟩ := htracks.misplaced (misplaced_of_violates hv hmask hread)
  rw [hcode]

/-- The loop has read the bytes `b` up to its end. -/
def Reached (b : Bytes) (t : WSState) : Prop :=
  ∃ fs rest, Reads b fs rest ∧ ({} : WSState).goesOn fs = true ∧
    Ends (({} : WSState).handleAll fs) rest t

theorem Reached.follows (h : Reached b s.history) (hopen : s.ws.closed = false) : Follows b s := by
  obtain ⟨fs, rest, hreads, hgo, hends⟩ := h
  generalize hu : (({} : WSState).handleAll fs) = u at hends
  generalize ht : s.history = t at hends
  have hclosed : t.closed = false := by rw [← ht]; exact hopen
  cases hends with
  | wait h =>
    have hbuf : s.ws.readBuf = rest := congrArg WSState.readBuf ht
    refine ⟨fs, ?_, hgo, ?_, ?_⟩
    · rwa [hbuf]
    · rwa [hbuf]
    · rw [ht, hu, hbuf]
      rfl
  | fail h => cases hclosed
  | tooLarge h => cases hclosed
  | stop h hstop => exact absurd (hclosed.symm.trans (WSState.handle_stop hstop)) (by simp)

/-- **The run lemma**: bytes that arrive on an open connection are read as if at once. -/
theorem reached_of_run (hes : Receives es) (ha : session.Meets Attended es) (hroom : Roomy es)
    (hrun : session.run es = some s) : Reached (es.flatMap Occurrence.bytes) s.history := by
  induction es using List.reverseRecOn generalizing s with
  | nil =>
    cases hrun
    exact ⟨[], [], .nil, rfl, .wait rfl⟩
  | append_singleton es e ih =>
    obtain ⟨v, hv, hve⟩ := session.runFrom_concat.1 hrun
    obtain ⟨ha, hlast⟩ := session.meetsFrom_concat.1 ha
    have ih := ih (fun e he => hes e (List.mem_append_left _ he)) ha
      (fun before t hb => hroom before t (hb.trans (List.prefix_append _ _))) hv
    rw [List.flatMap_append]
    rcases hes e (List.mem_append_right _ (List.mem_singleton_self e)) with rfl | ⟨data, rfl⟩
    · cases hve
      have hnone : [Occurrence.recv].flatMap Occurrence.bytes = [] := rfl
      rw [(take_history v).1, hnone, List.append_nil]
      exact ih
    · cases hve
      have hdata : [Occurrence.received data].flatMap Occurrence.bytes = data :=
        List.append_nil _
      rw [hdata]
      exact received_ends (ih.follows (hlast v hv)) (hroom _ _ (List.prefix_refl _) hrun)

/-- A session that has failed had a frame that breaks a rule. -/
theorem violates_of_failed (h : Reached b s.history) (hfail : Failed s) :
    ∃ fs rest, Sound b fs rest ∧ Violates fs rest := by
  obtain ⟨fs, rest, hreads, hgo, hends⟩ := h
  rcases (accepted_of_reads hreads hgo).sound with hsound | ⟨gs, mid, hsound, hmask⟩
  · refine ⟨fs, rest, hsound, ?_⟩
    have htracks := hsound.accepted.handled.2.2
    have hrules := readFrame_rules rest
    obtain ⟨hclosed, hquiet⟩ : s.history.closed = true ∧ ∀ m ∈ s.history.pending, m.opcode ≠ .close :=
      hfail
    generalize (({} : WSState).handleAll fs) = u at hends htracks
    generalize s.history = t at hends hclosed hquiet
    cases hends with
    | wait h => exact absurd (hclosed.symm.trans htracks.opened) nofun
    | fail h =>
      rw [h] at hrules
      exact .inl (by rw [hrules.1]; nofun)
    | tooLarge h =>
      rw [h] at hrules
      exact .inl (by rw [hrules]; nofun)
    | @stop f size h hstop =>
      rw [h] at hrules
      obtain ⟨hframe, -, hdef⟩ := hrules
      by_contra hno
      have hplace : ¬ Misplaced (progress fs).unfinished f := fun hp => hno (.inr ⟨f, _, hframe, hp⟩)
      have hclose : f.opcode ≠ 0x8 := by
        intro h8
        rw [handle_close h8] at hquiet
        exact hquiet _ (List.mem_append_right _ (List.mem_singleton_self _)) rfl
      rw [(htracks.step hdef hplace hclose).1] at hstop
      cases hstop
  · exact ⟨gs, mid, hsound, .inl (by rw [hmask]; nofun)⟩

/-- Behind the first frame that breaks a rule, the session has failed. -/
theorem failed_of_violates (h : Reached b s.history) (hsound : Sound b fs rest)
    (hv : Violates fs rest) (hmask : offence rest ≠ some .mask) :
    Failed s ∧ s.taken ++ s.ws.pending = (progress fs).messages ∧
      (offence rest ≠ some .size → ∃ code, (code = 1002 ∨ code = 1009) ∧
        s.ws.sent = (progress fs).replies ++ [WSState.closeFrame code]) := by
  obtain ⟨gs, mid, hreads, hgo, hends⟩ := h
  obtain ⟨hreads', hgo', htracks⟩ := hsound.accepted.handled
  obtain ⟨rfl, rfl⟩ := reads_unique hreads hgo (final_of_ends hends) hreads' hgo'
    (final_of_violates htracks hv hmask)
  have hrules := readFrame_rules mid
  suffices hmain : s.history.closed = true ∧ s.history.pending = (progress gs).messages ∧
      (offence mid ≠ some .size → ∃ code, (code = 1002 ∨ code = 1009) ∧
        s.history.sent = (progress gs).replies ++ [WSState.closeFrame code]) by
    refine ⟨⟨hmain.1, fun m hm => htracks.quiet m ?_⟩, hmain.2⟩
    rw [← hmain.2.1]
    exact hm
  generalize (({} : WSState).handleAll gs) = u at hends htracks
  generalize s.history = t at hends
  cases hends with
  | wait h =>
    rw [h] at hrules
    rcases hv with hheader | ⟨f, more, hframe, -⟩
    · exact absurd (hrules.2.resolve_right hmask) hheader
    · exact absurd (hrules.1.symm.trans hframe) nofun
  | @fail code h =>
    rw [h] at hrules
    refine ⟨rfl, htracks.messages, fun _ => ⟨code, .inl hrules.2, ?_⟩⟩
    exact congrArg (· ++ _) htracks.replies
  | tooLarge h =>
    rw [h] at hrules
    exact ⟨rfl, htracks.messages, fun hsize => absurd hrules hsize⟩
  | stop h hstop =>
    obtain ⟨code, hcode, hhandle⟩ := htracks.misplaced (misplaced_of_violates hv hmask h)
    rw [hhandle]
    exact ⟨rfl, htracks.messages, fun _ => ⟨code, hcode, congrArg (· ++ _) htracks.replies⟩⟩

/-- **Where a session fails.**  It fails only where a frame breaks a rule, and it does so at
    the first one, unless only the mask is missing: no message of that frame or a later one
    is queued, and a Close frame is sent, unless the frame is too large. -/
theorem fails_at_violation (hes : Receives es) (ha : session.Meets Attended es) (hroom : Roomy es)
    (hrun : session.run es = some s) :
    (Failed s → ∃ fs rest, Sound (es.flatMap Occurrence.bytes) fs rest ∧ Violates fs rest) ∧
      ∀ fs rest, Sound (es.flatMap Occurrence.bytes) fs rest → Violates fs rest →
        offence rest ≠ some .mask →
          Failed s ∧ s.taken ++ s.ws.pending = (progress fs).messages ∧
            (offence rest ≠ some .size → ∃ code, (code = 1002 ∨ code = 1009) ∧
              s.ws.sent = (progress fs).replies ++ [WSState.closeFrame code]) := by
  have h := reached_of_run hes ha hroom hrun
  exact ⟨violates_of_failed h, fun fs rest => failed_of_violates h⟩

/-- A ping, and then a continuation of nothing. -/
def strayStream : Bytes := [0x89, 0x81, 0, 0, 0, 0, 0x61, 0x80, 0x80, 0, 0, 0, 0]

theorem fails_at_stray : ∃ s, session.run [.received strayStream] = some s ∧ Failed s ∧
    s.ws.sent = [[0x8A, 1, 0x61], WSState.closeFrame 1002] := by
  have hes : Receives [.received strayStream] := fun e he => .inr ⟨_, List.mem_singleton.1 he⟩
  have ha : session.Meets Attended [.received strayStream] := ⟨rfl, fun _ _ => trivial⟩
  have hroom : Roomy [.received strayStream] := roomy_of_inits (by decide +kernel)
  have hplace : ¬ Misplaced (progress []).unfinished ⟨true, 0x9, [0x61]⟩ := fun h =>
    absurd (show (0x9 : UInt8) = 0x0 from h) (by decide)
  have hping : Sound strayStream ([] ++ [⟨true, 0x9, [0x61]⟩]) [0x80, 0x80, 0, 0, 0, 0] :=
    .concat .nil (by decide +kernel) (by decide +kernel) hplace (by decide)
  have hstray : Violates ([] ++ [⟨true, 0x9, [0x61]⟩]) [0x80, 0x80, 0, 0, 0, 0] :=
    .inr ⟨⟨true, 0x0, []⟩, [], by decide +kernel, rfl⟩
  obtain ⟨s, hs⟩ := Option.isSome_iff_exists.1
    (show (session.run [.received strayStream]).isSome = true by decide +kernel)
  have hfail := (fails_at_violation hes ha hroom hs).2 _ _
    (by rw [List.flatMap_singleton]; exact hping) hstray (by decide +kernel)
  refine ⟨s, hs, hfail.1, ?_⟩
  cases hs
  decide +kernel

/-- The header of a frame with a reserved bit fails before its frame is complete. -/
theorem begun_frame_fails : ∃ s, session.run [.received [0xC1, 0x80]] = some s ∧ Failed s ∧
    wireFrame [0xC1, 0x80] = none :=
  ⟨_, rfl, ⟨by decide +kernel, by decide +kernel⟩, by decide +kernel⟩

end Failing

end Osodio.Ws
