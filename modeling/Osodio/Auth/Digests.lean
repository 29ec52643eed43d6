import Osodio.Auth.Crypto
import Osodio.Lib.Digest

/-!
# The hash and the standard

`compress` reads a block of bytes into words and turns the eight variables as FIPS 180-4 has it, so
that the hash of the padded message is SHA-256 and the signature HMAC.

## Main definitions

- `Hash.vars` — the words `a` to `hh` as the variables of the standard

## Main results

- `compress_vars` — one block
- `bitsOf_sha256` — the hash of any message is SHA-256
- `hmacSha256_eq` — the signature under any key is HMAC
-/

namespace Osodio.Auth

open Json (Bytes)
open Lib (absorb bitsOf bitsOfNat wordsOf Vars8)

/-! ## Bytes and words -/

section Bytes

/-- Bytes that are shifted to their places and put together. -/
theorem or_bytes (x y z w : UInt8) :
    (x.toUInt32 <<< 24 ||| y.toUInt32 <<< 16 ||| z.toUInt32 <<< 8 ||| w.toUInt32 : UInt32).toNat =
      x.toNat * 2 ^ 24 + y.toNat * 2 ^ 16 + z.toNat * 2 ^ 8 + w.toNat := by
  have hx := x.toNat_lt
  have hy := y.toNat_lt
  have hz := z.toNat_lt
  have hw := w.toNat_lt
  have hshift : ∀ v : UInt8, ∀ n : UInt32, n.toNat ≤ 24 →
      (v.toUInt32 <<< n).toNat = v.toNat <<< n.toNat := by
    intro v n hn
    have hv := v.toNat_lt
    rw [UInt32.toNat_shiftLeft, UInt8.toNat_toUInt32, Nat.mod_eq_of_lt (by omega : n.toNat < 32),
      Nat.shiftLeft_eq, Nat.mod_eq_of_lt]
    calc v.toNat * 2 ^ n.toNat < 2 ^ 8 * 2 ^ n.toNat := by gcongr
      _ = 2 ^ (8 + n.toNat) := (pow_add 2 8 _).symm
      _ ≤ 2 ^ 32 := Nat.pow_le_pow_right (by decide) (by omega)
  rw [UInt32.toNat_or, UInt32.toNat_or, UInt32.toNat_or, hshift _ _ (by decide),
    hshift _ _ (by decide), hshift _ _ (by decide), UInt8.toNat_toUInt32, Nat.or_assoc, Nat.or_assoc]
  show x.toNat <<< 24 ||| (y.toNat <<< 16 ||| (z.toNat <<< 8 ||| w.toNat)) = _
  rw [← Nat.shiftLeft_add_eq_or_of_lt (i := 8) hw,
    ← Nat.shiftLeft_add_eq_or_of_lt (i := 16) (by rw [Nat.shiftLeft_eq]; omega),
    ← Nat.shiftLeft_add_eq_or_of_lt (i := 24) (by rw [Nat.shiftLeft_eq, Nat.shiftLeft_eq]; omega)]
  simp only [Nat.shiftLeft_eq]
  ring

/-- The words of a block are those of its bits. -/
theorem wordAt_eq {block : Bytes} (h : block.length = kBlock) :
    wordAt block = wordsOf (bitsOf block) := by
  funext t
  rw [Lib.wordsOf_bitsOf h, ← or_bytes, UInt32.ofNat_toNat]
  rfl

theorem bitsOf_wordBytes (w : UInt32) : bitsOf (wordBytes w) = bitsOfNat 32 w.toNat := by
  have hbyte : ∀ n : UInt32, n.toNat < 32 →
      (w >>> n).toUInt8 = UInt8.ofNat (w.toNat / 2 ^ n.toNat) := by
    intro n hn
    apply UInt8.toNat.inj
    rw [UInt32.toNat_toUInt8, UInt32.toNat_shiftRight, Nat.mod_eq_of_lt hn,
      Nat.shiftRight_eq_div_pow, UInt8.toNat_ofNat']
  rw [show 32 = 8 * 4 from rfl, Lib.bitsOfNat_bytes, wordBytes, hbyte 24 (by decide),
    hbyte 16 (by decide), hbyte 8 (by decide)]
  show _ = bitsOf [_, _, _, UInt8.ofNat (w.toNat / 2 ^ 0)]
  rw [pow_zero, Nat.div_one]
  rfl

theorem bitsOf_flatMap_wordBytes (ws : List UInt32) :
    bitsOf (ws.flatMap wordBytes) = ws.flatMap fun w => bitsOfNat 32 w.toNat := by
  unfold bitsOf
  rw [List.flatMap_assoc]
  exact List.flatMap_congr fun w _ => bitsOf_wordBytes w

theorem bitsOf_lengthBytes (len : ℕ) : bitsOf (lengthBytes len) = bitsOfNat 64 (8 * len) := by
  rw [show 64 = 8 * 8 from rfl, Lib.bitsOfNat_bytes, Nat.mul_comm]
  rfl

end Bytes

/-! ## SHA-256 -/

def Hash.vars (h : Hash) : Vars8 := ⟨h.a, h.b, h.c, h.d, h.e, h.f, h.g, h.hh⟩

theorem kK_eq : kK = Lib.Sha256.k := by
  rw [Lib.Sha256.k, Lib.Sha256.primes_eq]
  decide +kernel

theorem initialHash_vars : initialHash.vars = Lib.Sha256.init := by
  unfold Lib.Sha256.init
  rw [Lib.Sha256.primes_eq]
  decide +kernel

section Rounds

variable {block : Bytes}

theorem schedule_eq (block : Bytes) :
    schedule block = (List.range 64).map (Lib.Sha256.w (wordAt block)) := by
  have hfirst : (List.range 16).map (wordAt block) =
      (List.range 16).map (Lib.Sha256.w (wordAt block)) := by
    refine List.map_congr_left fun i hi => ?_
    rw [Lib.Sha256.w, if_pos (List.mem_range.1 hi)]
  rw [schedule, hfirst]
  refine Lib.foldl_schedule (f := fun w k =>
    w.getD (k + 16 - 16) 0 +
      (rotr (w.getD (k + 16 - 15) 0) 7 ^^^ rotr (w.getD (k + 16 - 15) 0) 18 ^^^
        (w.getD (k + 16 - 15) 0 >>> 3)) +
      w.getD (k + 16 - 7) 0 +
      (rotr (w.getD (k + 16 - 2) 0) 17 ^^^ rotr (w.getD (k + 16 - 2) 0) 19 ^^^
        (w.getD (k + 16 - 2) 0 >>> 10))) (fun k => ?_) 48
  rw [Lib.getD_range_map _ (by omega), Lib.getD_range_map _ (by omega),
    Lib.getD_range_map _ (by omega), Lib.getD_range_map _ (by omega), Nat.add_comm 16 k,
    Lib.Sha256.w.eq_def _ (k + 16), if_neg (by omega)]
  generalize Lib.Sha256.w (wordAt block) = w
  show w _ + Lib.Sha256.sigma0 (w _) + w _ + Lib.Sha256.sigma1 (w _) = _
  ac_rfl

theorem round_vars (h : Hash) (k w : UInt32) : (h.round k w).vars = Lib.Sha256.step h.vars k w := by
  rfl

/-- The rounds of a block, whatever the constants and the words. -/
theorem rounds_vars (kws : List (UInt32 × UInt32)) (h : Hash) :
    (kws.foldl (fun r kw => r.round kw.1 kw.2) h).vars =
      kws.foldl (fun v kw => Lib.Sha256.step v kw.1 kw.2) h.vars := by
  induction kws generalizing h with
  | nil => rfl
  | cons kw kws ih => exact ih (h.round kw.1 kw.2)

theorem add_vars (h r : Hash) : (h.add r).vars = ⟨r.vars.a + h.vars.a, r.vars.b + h.vars.b,
    r.vars.c + h.vars.c, r.vars.d + h.vars.d, r.vars.e + h.vars.e, r.vars.f + h.vars.f,
    r.vars.g + h.vars.g, r.vars.h + h.vars.h⟩ := by
  simp only [Hash.add, Hash.vars, UInt32.add_comm]

theorem compress_vars (h : Hash) (hlen : block.length = kBlock) :
    (compress h block).vars = Lib.Sha256.compress h.vars (wordsOf (bitsOf block)) := by
  rw [compress, kK_eq, schedule_eq, wordAt_eq hlen, add_vars, rounds_vars]
  rfl

end Rounds

/-- **The hash is SHA-256**, of every message. -/
theorem bitsOf_sha256 (data : Bytes) : bitsOf (sha256 data) = Lib.sha256 (bitsOf data) := by
  rw [sha256_eq, sha256Of, Hash.bytes, bitsOf_flatMap_wordBytes, Lib.sha256, Lib.hashBits]
  have habsorb : (absorb compress kBlock initialHash (padded data)).vars =
      absorb (fun h block => Lib.Sha256.compress h (wordsOf block)) 512 Lib.Sha256.init
        (Lib.padBits (bitsOf data)) := by
    rw [Lib.padBits_bitsOf (bitsOf_lengthBytes _), ← initialHash_vars]
    exact Lib.absorb_bitsOf (fun h b hb => compress_vars h hb) _ _
  rw [← habsorb]
  generalize absorb compress kBlock initialHash (padded data) = h
  rfl

/-! ## HMAC -/

theorem zipWith_replicate {α β γ : Type*} (f : α → β → γ) (b : β) (l : List α) :
    List.zipWith f l (List.replicate l.length b) = l.map (f · b) := by
  induction l with
  | nil => rfl
  | cons a l ih =>
    rw [List.length_cons, List.replicate_succ, List.zipWith_cons_cons, ih, List.map_cons]

/-- **The signature is HMAC**, under every key. -/
theorem hmacSha256_eq (key message : Bytes) :
    hmacSha256 key message = Lib.hmac sha256 kBlock key message := by
  have hlen : (Lib.hmacKey sha256 kBlock key).length = kBlock := by
    rw [Lib.hmacKey, List.length_append, List.length_replicate]
    split
    · rw [length_sha256]
      rfl
    · omega
  have hxor : ∀ b : UInt8, List.zipWith (· ^^^ ·) (Lib.hmacKey sha256 kBlock key)
      (List.replicate kBlock b) = (Lib.hmacKey sha256 kBlock key).map (· ^^^ b) := by
    intro b
    rw [← zipWith_replicate, hlen]
  rw [Lib.hmac, hxor, hxor]
  rfl

end Osodio.Auth
