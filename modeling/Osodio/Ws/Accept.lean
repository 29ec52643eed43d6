import Osodio.Auth.Digests
import Osodio.Auth.Encodings

/-!
# The handshake

The key of a client is answered with the hash of it, in base 64.

## Main definitions

- `sha1` — the hash, over a message that is completed byte by byte
- `base64` — the encoder of the handshake
- `wsAccept` — the answer

## Main results

- `bitsOf_sha1` — the hash of any message is SHA-1
- `base64_eq` — the encoder writes what `base64Encode` writes
- `hashes_standard`, `codecs_agree` — this hash and this encoder beside those of sessions
-/

namespace Osodio.Ws

open Json (Bytes ascii)
open Auth (wordAt wordBytes lengthBytes)
open Lib (absorb bitsOf bitsOfNat wordsOf Vars5)

/-! ## SHA-1 -/

/-- The words `a` to `e`. -/
structure Hash1 where
  a : UInt32
  b : UInt32
  c : UInt32
  d : UInt32
  e : UInt32
  deriving DecidableEq, Repr

/-- The words `w` of a block, of which all but the first 16 come from earlier ones. -/
def schedule1 (blk : Bytes) : List UInt32 :=
  (List.range 64).foldl (fun w k =>
    let i := k + 16
    let t := w.getD (i - 3) 0 ^^^ w.getD (i - 8) 0 ^^^ w.getD (i - 14) 0 ^^^ w.getD (i - 16) 0
    w ++ [(t <<< 1) ||| (t >>> 31)])
    ((List.range 16).map (wordAt blk))

/-- The function and the constant of a round. -/
def roundOf (i : ℕ) (s : Hash1) : UInt32 × UInt32 :=
  if i < 20 then ((s.b &&& s.c) ||| (~~~ s.b &&& s.d), 0x5A827999)
  else if i < 40 then (s.b ^^^ s.c ^^^ s.d, 0x6ED9EBA1)
  else if i < 60 then ((s.b &&& s.c) ||| (s.b &&& s.d) ||| (s.c &&& s.d), 0x8F1BBCDC)
  else (s.b ^^^ s.c ^^^ s.d, 0xCA62C1D6)

def Hash1.round (s : Hash1) (i : ℕ) (w : UInt32) : Hash1 :=
  let (f, k) := roundOf i s
  let tmp := ((s.a <<< 5) ||| (s.a >>> 27)) + f + s.e + k + w
  ⟨tmp, s.a, (s.b <<< 30) ||| (s.b >>> 2), s.c, s.d⟩

/-- `sha1_compress`. -/
def sha1Compress (s : Hash1) (blk : Bytes) : Hash1 :=
  let w := schedule1 blk
  let r := (List.range 80).foldl (fun r i => r.round i (w.getD i 0)) s
  ⟨s.a + r.a, s.b + r.b, s.c + r.c, s.d + r.d, s.e + r.e⟩

def initialHash1 : Hash1 := ⟨0x67452301, 0xEFCDAB89, 0x98BADCFE, 0x10325476, 0xC3D2E1F0⟩

/-- Zeros, one at a time, until eight bytes are missing in the block. -/
def hasta56 (p : Bytes) : Bytes :=
  if p.length % 64 = 56 then p else hasta56 (p ++ [0])
termination_by (120 - p.length % 64) % 64
decreasing_by
  rw [List.length_append, List.length_singleton]
  omega

/-- `sha1`. -/
def sha1 (msg : Bytes) : Bytes :=
  let p := hasta56 (msg ++ [0x80]) ++ lengthBytes msg.length
  let s := (List.range ((p.length + 63) / 64)).foldl
    (fun s i => sha1Compress s ((p.drop (i * 64)).take 64)) initialHash1
  [s.a, s.b, s.c, s.d, s.e].flatMap wordBytes

/-! ### The standard -/

section Standard

variable {blk : Bytes}

def Hash1.vars (s : Hash1) : Vars5 := ⟨s.a, s.b, s.c, s.d, s.e⟩

theorem schedule1_eq (blk : Bytes) :
    schedule1 blk = (List.range 80).map (Lib.Sha1.w (wordAt blk)) := by
  have hfirst : (List.range 16).map (wordAt blk) =
      (List.range 16).map (Lib.Sha1.w (wordAt blk)) := by
    refine List.map_congr_left fun i hi => ?_
    rw [Lib.Sha1.w, if_pos (List.mem_range.1 hi)]
  rw [schedule1, hfirst]
  refine Lib.foldl_schedule (f := fun w k => Lib.rotl 1 (w.getD (k + 16 - 3) 0 ^^^
    w.getD (k + 16 - 8) 0 ^^^ w.getD (k + 16 - 14) 0 ^^^ w.getD (k + 16 - 16) 0)) (fun k => ?_) 64
  rw [Lib.getD_range_map _ (by omega), Lib.getD_range_map _ (by omega),
    Lib.getD_range_map _ (by omega), Lib.getD_range_map _ (by omega), Nat.add_comm 16 k,
    Lib.Sha1.w.eq_def _ (k + 16), if_neg (by omega)]

/-- Of the two summands of a bit at most one is set. -/
theorem or_eq_ch (b c d : UInt32) : (b &&& c) ||| (~~~ b &&& d) = Lib.ch b c d := by
  apply UInt32.toBitVec_inj.1
  apply BitVec.eq_of_getElem_eq
  intro i hi
  simp [Lib.ch]
  cases b.toBitVec[i] <;> simp

/-- An odd number of the three is set only if one or all of them are. -/
theorem or_eq_maj (b c d : UInt32) : (b &&& c) ||| (b &&& d) ||| (c &&& d) = Lib.maj b c d := by
  apply UInt32.toBitVec_inj.1
  apply BitVec.eq_of_getElem_eq
  intro i hi
  simp [Lib.maj]
  cases b.toBitVec[i] <;> cases c.toBitVec[i] <;> simp

theorem round_vars (s : Hash1) (i : ℕ) (w : UInt32) :
    (s.round i w).vars = Lib.Sha1.step s.vars i w := by
  have hround : roundOf i s = (Lib.Sha1.f i s.b s.c s.d, Lib.Sha1.k i) := by
    unfold roundOf Lib.Sha1.f Lib.Sha1.k
    rw [or_eq_ch, or_eq_maj]
    split_ifs <;> rfl
  rw [Hash1.round, hround]
  rfl

theorem sha1Compress_vars (s : Hash1) (hlen : blk.length = 64) :
    (sha1Compress s blk).vars = Lib.Sha1.compress s.vars (wordsOf (bitsOf blk)) := by
  have hrounds : ∀ (l : List ℕ), (∀ i ∈ l, i < 80) → ∀ s : Hash1,
      (l.foldl (fun r i => r.round i ((schedule1 blk).getD i 0)) s).vars =
        l.foldl (fun v i => Lib.Sha1.step v i (Lib.Sha1.w (wordAt blk) i)) s.vars := by
    intro l
    induction l with
    | nil => exact fun _ _ => rfl
    | cons i l ih =>
      intro hl s
      rw [List.foldl_cons, List.foldl_cons, ih (fun j hj => hl j (.tail _ hj)), round_vars,
        schedule1_eq, Lib.getD_range_map _ (hl i (.head _))]
  rw [Lib.Sha1.compress, ← Auth.wordAt_eq hlen, ← hrounds _ fun _ => List.mem_range.1]
  simp only [sha1Compress, Hash1.vars, UInt32.add_comm]

theorem hasta56_eq (p : Bytes) :
    hasta56 p = p ++ List.replicate ((120 - p.length % 64) % 64) 0 := by
  induction p using hasta56.induct with
  | case1 p h =>
    rw [hasta56, if_pos h, h]
    exact (List.append_nil p).symm
  | case2 p h ih =>
    have hone : (120 - p.length % 64) % 64 = (120 - (p ++ [(0 : UInt8)]).length % 64) % 64 + 1 := by
      rw [List.length_append, List.length_singleton]
      omega
    rw [hasta56, if_neg h, ih, hone, List.replicate_succ, List.append_assoc, List.singleton_append]

/-- The message with its length behind it is the padded message. -/
theorem hasta56_padded (msg : Bytes) :
    hasta56 (msg ++ [0x80]) ++ lengthBytes msg.length = Auth.padded msg := by
  have hzeros : (120 - (msg ++ [(0x80 : UInt8)]).length % 64) % 64 =
      (119 - msg.length % 64) % 64 := by
    rw [List.length_append, List.length_singleton]
    omega
  rw [hasta56_eq, hzeros, List.append_assoc msg, List.singleton_append]
  rfl

/-- **The hash is SHA-1**, of every message. -/
theorem bitsOf_sha1 (msg : Bytes) : bitsOf (sha1 msg) = Lib.sha1 (bitsOf msg) := by
  have hcount : ((Auth.padded msg).length + 63) / 64 = (Auth.padded msg).length / 64 := by
    have hdvd : 64 ∣ (Auth.padded msg).length := Auth.length_padded msg
    omega
  have hblocks : (List.range ((Auth.padded msg).length / 64)).foldl
      (fun s i => sha1Compress s (((Auth.padded msg).drop (i * 64)).take 64)) initialHash1 =
      absorb sha1Compress 64 initialHash1 (Auth.padded msg) := by
    rw [absorb, Lib.blocks, List.foldl_map]
  have habsorb : (absorb sha1Compress 64 initialHash1 (Auth.padded msg)).vars =
      absorb (fun h block => Lib.Sha1.compress h (wordsOf block)) 512 Lib.Sha1.init
        (Lib.padBits (bitsOf msg)) := by
    rw [Lib.padBits_bitsOf (Auth.bitsOf_lengthBytes _)]
    exact Lib.absorb_bitsOf (fun h b hb => sha1Compress_vars h hb) _ _
  rw [sha1, hasta56_padded, hcount, hblocks, Auth.bitsOf_flatMap_wordBytes, Lib.sha1, Lib.hashBits,
    ← habsorb]
  generalize absorb sha1Compress 64 initialHash1 (Auth.padded msg) = s
  rfl

example : (sha1 [0x61, 0x62, 0x63]).take 4 = [0xa9, 0x99, 0x3e, 0x36] := by decide +kernel

end Standard

/-- **Hashes and signatures** are those of the standards, for every message and every key. -/
theorem hashes_standard (data key message : Bytes) :
    bitsOf (Auth.sha256 data) = Lib.sha256 (bitsOf data) ∧
      Auth.hmacSha256 key message = Lib.hmac Auth.sha256 64 key message ∧
      bitsOf (sha1 data) = Lib.sha1 (bitsOf data) :=
  ⟨Auth.bitsOf_sha256 data, Auth.hmacSha256_eq key message, bitsOf_sha1 data⟩

/-! ## Base 64 -/

/-- The four characters of the three bytes at `i`, or of the one or two that are left. -/
def quantum (d : Bytes) (i : ℕ) : Bytes :=
  let b : UInt32 := ((d.getD i 0).toUInt32 <<< 16) |||
    (if i + 1 < d.length then (d.getD (i + 1) 0).toUInt32 <<< 8 else 0) |||
    (if i + 2 < d.length then (d.getD (i + 2) 0).toUInt32 else 0)
  let t (j : UInt32) : UInt8 := Auth.kStd.getD (j &&& 63).toNat 0
  [t (b >>> 18), t (b >>> 12), if i + 1 < d.length then t (b >>> 6) else 0x3D,
    if i + 2 < d.length then t b else 0x3D]

/-- `base64`. -/
def base64 (d : Bytes) : Bytes :=
  (List.range ((d.length + 2) / 3)).flatMap fun k => quantum d (3 * k)

/-- `ws_accept`. -/
def wsAccept (clientKey : Bytes) : Bytes :=
  base64 (sha1 (clientKey ++ ascii "258EAFA5-E914-47DA-95CA-C5AB0DC85B11"))

section Base64

variable {a b c : UInt8} {rest : Bytes}

/-- A group of six bits, taken out of a word. -/
theorem sextet_word (v : UInt32) {j : UInt32} (hj : j.toNat < 32) :
    Auth.kStd.getD ((v >>> j) &&& 63).toNat 0 = Auth.stdSextet v.toNat j.toNat := by
  rw [Auth.stdSextet, UInt32.toNat_and, UInt32.toNat_shiftRight, Nat.mod_eq_of_lt hj,
    Nat.shiftRight_eq_div_pow]
  congr 1
  exact Nat.and_two_pow_sub_one_eq_mod _ 6

/-- The word of three bytes. -/
theorem word_three (a b c : UInt8) :
    (a.toUInt32 <<< 16 ||| b.toUInt32 <<< 8 ||| c.toUInt32 : UInt32).toNat =
      a.toNat * 2 ^ 16 + b.toNat * 2 ^ 8 + c.toNat := by
  have h := Auth.or_bytes 0 a b c
  simpa using h

/-- The characters of a word, where bytes that are missing count as zero. -/
theorem quantum_zero (d : Bytes) : quantum d 0 =
    let v := (d.getD 0 0).toNat * 2 ^ 16 + (d.getD 1 0).toNat * 2 ^ 8 + (d.getD 2 0).toNat
    [Auth.stdSextet v 18, Auth.stdSextet v 12,
      if 1 < d.length then Auth.stdSextet v 6 else 0x3D,
      if 2 < d.length then Auth.stdSextet v 0 else 0x3D] := by
  have hmiss : ∀ i (w : UInt8 → UInt32), w 0 = 0 →
      (if i < d.length then w (d.getD i 0) else 0) = w (d.getD i 0) := by
    intro i w hw
    by_cases h : i < d.length
    · rw [if_pos h]
    · rw [if_neg h, List.getD_eq_default _ _ (Nat.le_of_not_lt h), hw]
  have hword := word_three (d.getD 0 0) (d.getD 1 0) (d.getD 2 0)
  dsimp only [quantum]
  rw [hmiss 1 (fun x => x.toUInt32 <<< 8) rfl, hmiss 2 UInt8.toUInt32 rfl, ← hword]
  generalize (d.getD 0 0).toUInt32 <<< 16 ||| (d.getD 1 0).toUInt32 <<< 8 |||
    (d.getD 2 0).toUInt32 = v
  have hlast : Auth.kStd.getD (v &&& 63).toNat 0 = Auth.stdSextet v.toNat 0 := by
    simpa using sextet_word v (j := 0) (by decide)
  rw [sextet_word v (by decide), sextet_word v (by decide), sextet_word v (by decide), hlast]
  rfl

theorem base64_cons :
    base64 (a :: b :: c :: rest) = quantum (a :: b :: c :: rest) 0 ++ base64 rest := by
  have hlen : ((a :: b :: c :: rest).length + 2) / 3 = (rest.length + 2) / 3 + 1 := by
    simp only [List.length_cons]
    omega
  have hshift : ∀ i, quantum (a :: b :: c :: rest) (i + 3) = quantum rest i := by
    intro i
    simp only [quantum, List.length_cons, List.getD_cons_succ, Nat.add_lt_add_iff_right,
      show i + 3 + 1 = i + 1 + 3 by omega, show i + 3 + 2 = i + 2 + 3 by omega]
  have htail : ((List.range ((rest.length + 2) / 3)).flatMap fun k =>
      quantum (a :: b :: c :: rest) (3 * (k + 1))) = base64 rest :=
    List.flatMap_congr fun k _ => hshift (3 * k)
  rw [base64, hlen, List.range_succ_eq_map, List.flatMap_cons, List.flatMap_map, ← htail,
    Nat.mul_zero]

/-- The encoder of the handshake is the other one. -/
theorem base64_eq (raw : Bytes) : base64 raw = Auth.base64Encode raw := by
  induction raw using Auth.base64Encode.induct with
  | case1 a b c rest ih =>
    rw [base64_cons, ih, quantum_zero, Auth.base64Encode]
    rfl
  | case2 a =>
    rw [base64, show ([a].length + 2) / 3 = 1 by simp, List.range_one, List.flatMap_singleton,
      quantum_zero, Auth.base64Encode]
    simp
    rfl
  | case3 a b =>
    rw [base64, show ([a, b].length + 2) / 3 = 1 by simp, List.range_one, List.flatMap_singleton,
      quantum_zero, Auth.base64Encode]
    simp
    rfl
  | case4 => rfl

end Base64

/-- **The codecs agree**: a text of base 64 for URLs is decoded to what it was made of, and the
    three encoders write the digits of RFC 4648, each with its two characters and its padding. -/
theorem codecs_agree (raw : Bytes) :
    Auth.base64urlDecode (Auth.base64urlEncode raw) = some raw ∧
      (∀ c ∈ Auth.base64urlEncode raw, c ∈ Auth.kAlphabet) ∧
      Auth.base64urlEncode raw = (Lib.sextets raw).map (Lib.letter 0x2D 0x5F) ∧
      Auth.base64Encode raw = Lib.fill 4 0x3D ((Lib.sextets raw).map (Lib.letter 0x2B 0x2F)) ∧
      base64 raw = Lib.fill 4 0x3D ((Lib.sextets raw).map (Lib.letter 0x2B 0x2F)) :=
  ⟨Auth.base64urlDecode_encode raw, fun _ => Auth.alphabet_of_encode,
    Auth.base64urlEncode_eq raw, Auth.base64Encode_eq raw,
    (base64_eq raw).trans (Auth.base64Encode_eq raw)⟩

end Osodio.Ws
