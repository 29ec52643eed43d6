import Osodio.Json.Writer
import Osodio.Lib.Blocks
import Mathlib.Data.List.Forall2

/-!
# Signatures

What sessions and tokens are signed and written with: SHA-256, HMAC, the variant of
base 64 for URLs, and a comparison that looks at every byte.

## Main definitions

- `compress`, `sha256`, `hmacSha256` — the hash and the signature
- `padded`, `sha256Of` — the hash of FIPS 180-4, over a message that is padded as a whole
- `base64urlEncode`, `base64urlDecode` — the texts of URLs
- `constantTimeEqual` — the comparison

## Main results

- `sha256_eq` — the hash, block by block, is that of the padded message
- `base64urlDecode_encode` — a text is decoded to what it was made of
- `constantTimeEqual_iff` — the comparison is equality
-/

namespace Osodio.Auth

open Json (Bytes ascii)
open Lib (absorb)

/-! ## SHA-256 -/

/-- The eight words `a` to `hh`. -/
structure Hash where
  a : UInt32
  b : UInt32
  c : UInt32
  d : UInt32
  e : UInt32
  f : UInt32
  g : UInt32
  hh : UInt32
  deriving DecidableEq, Repr

def kK : List UInt32 := [
  0x428a2f98, 0x71374491, 0xb5c0fbcf, 0xe9b5dba5, 0x3956c25b, 0x59f111f1,
  0x923f82a4, 0xab1c5ed5, 0xd807aa98, 0x12835b01, 0x243185be, 0x550c7dc3,
  0x72be5d74, 0x80deb1fe, 0x9bdc06a7, 0xc19bf174, 0xe49b69c1, 0xefbe4786,
  0x0fc19dc6, 0x240ca1cc, 0x2de92c6f, 0x4a7484aa, 0x5cb0a9dc, 0x76f988da,
  0x983e5152, 0xa831c66d, 0xb00327c8, 0xbf597fc7, 0xc6e00bf3, 0xd5a79147,
  0x06ca6351, 0x14292967, 0x27b70a85, 0x2e1b2138, 0x4d2c6dfc, 0x53380d13,
  0x650a7354, 0x766a0abb, 0x81c2c92e, 0x92722c85, 0xa2bfe8a1, 0xa81a664b,
  0xc24b8b70, 0xc76c51a3, 0xd192e819, 0xd6990624, 0xf40e3585, 0x106aa070,
  0x19a4c116, 0x1e376c08, 0x2748774c, 0x34b0bcb5, 0x391c0cb3, 0x4ed8aa4a,
  0x5b9cca4f, 0x682e6ff3, 0x748f82ee, 0x78a5636f, 0x84c87814, 0x8cc70208,
  0x90befffa, 0xa4506ceb, 0xbef9a3f7, 0xc67178f2]

def rotr (x n : UInt32) : UInt32 := (x >>> n) ||| (x <<< (32 - n))

/-- The word at an offset, its highest byte first. -/
def wordAt (block : Bytes) (i : ℕ) : UInt32 :=
  let byte (k : ℕ) : UInt32 := (block.getD (i * 4 + k) 0).toUInt32
  (byte 0 <<< 24) ||| (byte 1 <<< 16) ||| (byte 2 <<< 8) ||| byte 3

/-- The words `w` of a block, of which all but the first 16 come from earlier ones. -/
def schedule (block : Bytes) : List UInt32 :=
  (List.range 48).foldl (fun w k =>
    let i := k + 16
    let w15 := w.getD (i - 15) 0
    let w2 := w.getD (i - 2) 0
    let s0 := rotr w15 7 ^^^ rotr w15 18 ^^^ (w15 >>> 3)
    let s1 := rotr w2 17 ^^^ rotr w2 19 ^^^ (w2 >>> 10)
    w ++ [w.getD (i - 16) 0 + s0 + w.getD (i - 7) 0 + s1])
    ((List.range 16).map (wordAt block))

def Hash.round (h : Hash) (k w : UInt32) : Hash :=
  let S1 := rotr h.e 6 ^^^ rotr h.e 11 ^^^ rotr h.e 25
  let ch := (h.e &&& h.f) ^^^ (~~~ h.e &&& h.g)
  let temp1 := h.hh + S1 + ch + k + w
  let S0 := rotr h.a 2 ^^^ rotr h.a 13 ^^^ rotr h.a 22
  let maj := (h.a &&& h.b) ^^^ (h.a &&& h.c) ^^^ (h.b &&& h.c)
  let temp2 := S0 + maj
  ⟨temp1 + temp2, h.a, h.b, h.c, h.d + temp1, h.e, h.f, h.g⟩

def Hash.add (h r : Hash) : Hash :=
  ⟨h.a + r.a, h.b + r.b, h.c + r.c, h.d + r.d, h.e + r.e, h.f + r.f, h.g + r.g, h.hh + r.hh⟩

def compress (h : Hash) (block : Bytes) : Hash :=
  h.add ((kK.zip (schedule block)).foldl (fun r kw => r.round kw.1 kw.2) h)

def kBlock : ℕ := 64

def initialHash : Hash :=
  ⟨0x6a09e667, 0xbb67ae85, 0x3c6ef372, 0xa54ff53a, 0x510e527f, 0x9b05688c, 0x1f83d9ab, 0x5be0cd19⟩

/-- The bytes of a word, the highest first. -/
def wordBytes (w : UInt32) : Bytes :=
  [(w >>> 24).toUInt8, (w >>> 16).toUInt8, (w >>> 8).toUInt8, w.toUInt8]

def Hash.bytes (h : Hash) : Bytes :=
  [h.a, h.b, h.c, h.d, h.e, h.f, h.g, h.hh].flatMap wordBytes

/-- The length in bits, as 64 bits with the highest byte first. -/
def lengthBytes (len : ℕ) : Bytes :=
  (List.range 8).map fun i => UInt8.ofNat (len * 8 / 2 ^ (8 * (7 - i)))

/-- The last one or two blocks: what is left of the data, and the padding. -/
def tailOf (len : ℕ) (rest : Bytes) : Bytes :=
  let tailLen := if rest.length + 1 + 8 ≤ kBlock then kBlock else 2 * kBlock
  rest ++ 0x80 :: List.replicate (tailLen - rest.length - 9) 0 ++ lengthBytes len

/-- `sha256`: the whole blocks of the data, and then the tail. -/
def sha256 (data : Bytes) : Bytes :=
  let full := data.length / kBlock
  let h := (List.range full).foldl
    (fun h i => compress h ((data.drop (i * kBlock)).take kBlock)) initialHash
  let tail := tailOf data.length (data.drop (full * kBlock))
  ((List.range (tail.length / kBlock)).foldl
    (fun h i => compress h ((tail.drop (i * kBlock)).take kBlock)) h).bytes

/-- `hmac_sha256`. -/
def hmacSha256 (key message : Bytes) : Bytes :=
  let k := if kBlock < key.length then sha256 key else key
  let k := k ++ List.replicate (kBlock - k.length) 0
  let inner := k.map (· ^^^ 0x36)
  let outer := k.map (· ^^^ 0x5c)
  sha256 (outer ++ sha256 (inner ++ message))

/-! ### The padded message -/

/-- The message with a one bit, zeros up to the end of a block, and its length. -/
def padded (data : Bytes) : Bytes :=
  data ++ 0x80 :: List.replicate ((119 - data.length % kBlock) % kBlock) 0 ++ lengthBytes data.length

/-- The hash of the padded message. -/
def sha256Of (data : Bytes) : Bytes := (absorb compress kBlock initialHash (padded data)).bytes

section Padding

variable {data : Bytes}

theorem foldl_range_blocks (h : Hash) (l : Bytes) :
    (List.range (l.length / kBlock)).foldl
      (fun h i => compress h ((l.drop (i * kBlock)).take kBlock)) h =
      absorb compress kBlock h l := by
  rw [absorb, Lib.blocks, List.foldl_map]

theorem length_lengthBytes (len : ℕ) : (lengthBytes len).length = 8 := by
  rw [lengthBytes, List.length_map, List.length_range]

/-- The padding is a whole number of blocks. -/
theorem length_padded (data : Bytes) : kBlock ∣ (padded data).length := by
  unfold padded
  rw [List.length_append, List.length_append, List.length_cons, List.length_replicate,
    length_lengthBytes, Nat.dvd_iff_mod_eq_zero]
  unfold kBlock
  omega

theorem padded_eq (data : Bytes) :
    padded data = data.take (data.length / kBlock * kBlock) ++
      tailOf data.length (data.drop (data.length / kBlock * kBlock)) := by
  have hrest : (data.drop (data.length / kBlock * kBlock)).length = data.length % kBlock := by
    rw [List.length_drop, Nat.mod_eq_sub_div_mul]
  have hzeros : (119 - data.length % kBlock) % kBlock =
      (if data.length % kBlock + 1 + 8 ≤ kBlock then kBlock else 2 * kBlock) -
        data.length % kBlock - 9 := by
    have hlt := Nat.mod_lt data.length (show 0 < kBlock by decide)
    unfold kBlock at hlt ⊢
    split <;> omega
  unfold padded tailOf
  dsimp only
  rw [hrest, hzeros, ← List.append_assoc, ← List.append_assoc, List.take_append_drop]

/-- **The hash is that of the padded message.** -/
theorem sha256_eq (data : Bytes) : sha256 data = sha256Of data := by
  have hlen : (data.take (data.length / kBlock * kBlock)).length = data.length / kBlock * kBlock :=
    List.length_take_of_le (Nat.div_mul_le_self _ _)
  unfold sha256 sha256Of
  dsimp only
  rw [foldl_range_blocks, foldl_range_blocks, padded_eq, Lib.absorb_append (by decide) hlen,
    Lib.absorb_take (by decide)]

theorem length_sha256 (data : Bytes) : (sha256 data).length = 32 := rfl

example : (sha256 (ascii "abc")).take 4 = [0xba, 0x78, 0x16, 0xbf] := by decide +kernel

end Padding

/-! ## Base 64 for URLs -/

def kAlphabet : Bytes :=
  ascii "ABCDEFGHIJKLMNOPQRSTUVWXYZabcdefghijklmnopqrstuvwxyz0123456789-_"

def decodeChar (c : UInt8) : Option ℕ :=
  if 0x41 ≤ c ∧ c ≤ 0x5A then some (c.toNat - 0x41)
  else if 0x61 ≤ c ∧ c ≤ 0x7A then some (c.toNat - 0x61 + 26)
  else if 0x30 ≤ c ∧ c ≤ 0x39 then some (c.toNat - 0x30 + 52)
  else if c = 0x2D then some 62
  else if c = 0x5F then some 63
  else none

/-- The character of the six bits of `v` that start at bit `i`. -/
def sextet (v i : ℕ) : UInt8 := kAlphabet.getD (v / 2 ^ i % 64) 0

/-- `base64url_encode`: three bytes make four characters. -/
def base64urlEncode : Bytes → Bytes
  | a :: b :: c :: rest =>
    let v := a.toNat * 2 ^ 16 + b.toNat * 2 ^ 8 + c.toNat
    sextet v 18 :: sextet v 12 :: sextet v 6 :: sextet v 0 :: base64urlEncode rest
  | [a] =>
    let v := a.toNat * 2 ^ 16
    [sextet v 18, sextet v 12]
  | [a, b] =>
    let v := a.toNat * 2 ^ 16 + b.toNat * 2 ^ 8
    [sextet v 18, sextet v 12, sextet v 6]
  | [] => []

/-- The loop of `base64url_decode`, with `acc` and `bits`.  Padding is put up with, and
    ends the text. -/
def decodeFrom (acc bits : ℕ) : Bytes → Option Bytes
  | [] => some []
  | c :: text =>
    if c = 0x3D then some []
    else match decodeChar c with
      | none => none
      | some d =>
        let acc := (acc * 64 + d) % 2 ^ 32
        if 8 ≤ bits + 6 then
          (decodeFrom acc (bits + 6 - 8) text).map (UInt8.ofNat (acc / 2 ^ (bits + 6 - 8)) :: ·)
        else decodeFrom acc (bits + 6) text

/-- `base64url_decode`. -/
def base64urlDecode (text : Bytes) : Option Bytes := decodeFrom 0 0 text

section Base64

variable {acc bits d : ℕ} {c : UInt8} {raw text : Bytes}

theorem decodeChar_alphabet : ∀ i < 64,
    decodeChar (kAlphabet.getD i 0) = some i ∧ kAlphabet.getD i 0 ≠ 0x3D := by
  decide +kernel

theorem decodeFrom_cons (hc : c ≠ 0x3D) (hd : decodeChar c = some d) :
    decodeFrom acc bits (c :: text) =
      if 8 ≤ bits + 6 then
        (decodeFrom ((acc * 64 + d) % 2 ^ 32) (bits + 6 - 8) text).map
          (UInt8.ofNat ((acc * 64 + d) % 2 ^ 32 / 2 ^ (bits + 6 - 8)) :: ·)
      else decodeFrom ((acc * 64 + d) % 2 ^ 32) (bits + 6) text := by
  rw [decodeFrom, if_neg hc, hd]

theorem decodeFrom_sextet (v i : ℕ) :
    decodeFrom acc bits (sextet v i :: text) =
      if 8 ≤ bits + 6 then
        (decodeFrom ((acc * 64 + v / 2 ^ i % 64) % 2 ^ 32) (bits + 6 - 8) text).map
          (UInt8.ofNat ((acc * 64 + v / 2 ^ i % 64) % 2 ^ 32 / 2 ^ (bits + 6 - 8)) :: ·)
      else decodeFrom ((acc * 64 + v / 2 ^ i % 64) % 2 ^ 32) (bits + 6) text := by
  obtain ⟨hd, hc⟩ := decodeChar_alphabet (v / 2 ^ i % 64) (Nat.mod_lt _ (by decide))
  exact decodeFrom_cons hc hd

/-- A byte is what its place in a number holds. -/
theorem ofNat_eq {n : ℕ} (h : n % 256 = c.toNat) : UInt8.ofNat n = c := by
  apply UInt8.toNat.inj
  rw [UInt8.toNat_ofNat', h]

theorem decodeFrom_nil (acc bits : ℕ) : decodeFrom acc bits [] = some [] := rfl

/-- Whatever the accumulator held before, four characters give the three bytes they were
    made of. -/
theorem decodeFrom_encode (raw : Bytes) : ∀ acc, decodeFrom acc 0 (base64urlEncode raw) = some raw := by
  induction raw using base64urlEncode.induct with
  | case1 a b c rest ih =>
    intro acc
    have ha := a.toNat_lt
    have hb := b.toNat_lt
    have hc := c.toNat_lt
    simp only [base64urlEncode, decodeFrom_sextet, Nat.reduceAdd, Nat.reduceLeDiff, Nat.reduceSub,
      if_true, if_false, ih, Option.map_some, Option.some.injEq, List.cons.injEq, and_true]
    refine ⟨ofNat_eq ?_, ofNat_eq ?_, ofNat_eq ?_⟩
    · omega
    · omega
    · omega
  | case2 a =>
    intro acc
    have ha := a.toNat_lt
    simp only [base64urlEncode, decodeFrom_sextet, Nat.reduceAdd, Nat.reduceLeDiff, Nat.reduceSub,
      if_true, if_false, decodeFrom_nil, Option.map_some, Option.some.injEq, List.cons.injEq,
      and_true]
    apply ofNat_eq
    omega
  | case3 a b =>
    intro acc
    have ha := a.toNat_lt
    have hb := b.toNat_lt
    simp only [base64urlEncode, decodeFrom_sextet, Nat.reduceAdd, Nat.reduceLeDiff, Nat.reduceSub,
      if_true, if_false, decodeFrom_nil, Option.map_some, Option.some.injEq, List.cons.injEq,
      and_true]
    refine ⟨ofNat_eq ?_, ofNat_eq ?_⟩
    · omega
    · omega
  | case4 => exact fun acc => decodeFrom_nil acc 0

/-- **A text is decoded to the bytes it was made of.** -/
theorem base64urlDecode_encode (raw : Bytes) : base64urlDecode (base64urlEncode raw) = some raw :=
  decodeFrom_encode raw 0

example : base64urlEncode (ascii "hola") = ascii "aG9sYQ" := by decide +kernel

/-- The characters a text of base 64 is made of. -/
theorem alphabet_of_encode (h : c ∈ base64urlEncode raw) : c ∈ kAlphabet := by
  have hsextet : ∀ v i, sextet v i ∈ kAlphabet := by
    intro v i
    have hlt : v / 2 ^ i % 64 < kAlphabet.length := Nat.mod_lt _ (by decide)
    rw [sextet, List.getD_eq_getElem _ _ hlt]
    exact List.getElem_mem hlt
  induction raw using base64urlEncode.induct with
  | case1 a b c' rest ih =>
    simp only [base64urlEncode, List.mem_cons] at h
    obtain rfl | rfl | rfl | rfl | h := h
    · exact hsextet _ _
    · exact hsextet _ _
    · exact hsextet _ _
    · exact hsextet _ _
    · exact ih h
  | case2 a =>
    simp only [base64urlEncode, List.mem_cons, List.not_mem_nil, or_false] at h
    obtain rfl | rfl := h
    · exact hsextet _ _
    · exact hsextet _ _
  | case3 a b =>
    simp only [base64urlEncode, List.mem_cons, List.not_mem_nil, or_false] at h
    obtain rfl | rfl | rfl := h
    · exact hsextet _ _
    · exact hsextet _ _
    · exact hsextet _ _
  | case4 => exact absurd h List.not_mem_nil

end Base64

/-! ## Comparison -/

/-- The loop of `constant_time_equal`. -/
def diffOf (a b : Bytes) : UInt8 := (a.zip b).foldl (fun diff ab => diff ||| (ab.1 ^^^ ab.2)) 0

/-- `constant_time_equal`. -/
def constantTimeEqual (a b : Bytes) : Bool := a.length = b.length ∧ diffOf a b = 0

section Comparison

variable {a b : Bytes} {diff : UInt8}

theorem foldl_diff_eq_zero (pairs : List (UInt8 × UInt8)) :
    pairs.foldl (fun diff ab => diff ||| (ab.1 ^^^ ab.2)) diff = 0 ↔
      diff = 0 ∧ ∀ ab ∈ pairs, ab.1 = ab.2 := by
  induction pairs generalizing diff with
  | nil => simp
  | cons ab pairs ih =>
    rw [List.foldl_cons, ih, UInt8.or_eq_zero_iff, UInt8.xor_eq_zero_iff, List.forall_mem_cons,
      and_assoc]

/-- **The comparison is equality.** -/
theorem constantTimeEqual_iff : constantTimeEqual a b = true ↔ a = b := by
  rw [constantTimeEqual, decide_eq_true_iff, diffOf, foldl_diff_eq_zero]
  constructor
  · rintro ⟨hlen, -, hpairs⟩
    rw [← List.forall₂_eq_eq_eq, List.forall₂_iff_zip]
    exact ⟨hlen, fun hab => hpairs _ hab⟩
  · rintro rfl
    have hall : List.Forall₂ (· = ·) a a := List.forall₂_refl a
    exact ⟨rfl, rfl, fun ab hab => (List.forall₂_iff_zip.1 hall).2 hab⟩

end Comparison

end Osodio.Auth
