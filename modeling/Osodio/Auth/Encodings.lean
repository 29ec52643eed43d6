import Osodio.Auth.Crypto
import Osodio.Lib.Radix

/-!
# Base 64

The encoders write the same digits, with one alphabet or with the other, and complete the text or
not.

## Main definitions

- `base64Encode` — the text of base 64, completed to whole quanta

## Main results

- `base64urlEncode_eq`, `base64Encode_eq` — what the encoders write is the text of RFC 4648
-/

namespace Osodio.Auth

open Json (Bytes ascii)
open Lib (sextets letter fill)

/-- The other alphabet. -/
def kStd : Bytes := ascii "ABCDEFGHIJKLMNOPQRSTUVWXYZabcdefghijklmnopqrstuvwxyz0123456789+/"

/-- The letter of the six bits of `v` that start at bit `i`. -/
def stdSextet (v i : ℕ) : UInt8 := kStd.getD (v / 2 ^ i % 64) 0

/-- `base64_encode`. -/
def base64Encode : Bytes → Bytes
  | a :: b :: c :: rest =>
    let v := a.toNat * 2 ^ 16 + b.toNat * 2 ^ 8 + c.toNat
    stdSextet v 18 :: stdSextet v 12 :: stdSextet v 6 :: stdSextet v 0 :: base64Encode rest
  | [a] =>
    let v := a.toNat * 2 ^ 16
    [stdSextet v 18, stdSextet v 12] ++ ascii "=="
  | [a, b] =>
    let v := a.toNat * 2 ^ 16 + b.toNat * 2 ^ 8
    [stdSextet v 18, stdSextet v 12, stdSextet v 6] ++ ascii "="
  | [] => []

section Letters

/-- The letters of the alphabets are those of the standard. -/
theorem kAlphabet_getD : ∀ i < 64, kAlphabet.getD i 0 = letter 0x2D 0x5F i := by decide +kernel

theorem kStd_getD : ∀ i < 64, kStd.getD i 0 = letter 0x2B 0x2F i := by decide +kernel

theorem sextet_eq (v i : ℕ) : sextet v i = letter 0x2D 0x5F (v / 2 ^ i % 64) :=
  kAlphabet_getD _ (Nat.mod_lt _ (by decide))

theorem stdSextet_eq (v i : ℕ) : stdSextet v i = letter 0x2B 0x2F (v / 2 ^ i % 64) :=
  kStd_getD _ (Nat.mod_lt _ (by decide))

end Letters

section Encoders

variable (raw : Bytes)

/-- Base 64 for URLs, which is not completed. -/
theorem base64urlEncode_eq : base64urlEncode raw = (sextets raw).map (letter 0x2D 0x5F) := by
  induction raw using base64urlEncode.induct with
  | case1 a b c rest ih =>
    rw [base64urlEncode, Lib.sextets_cons, ih]
    simp only [sextet_eq, List.map_cons]
  | case2 a =>
    rw [base64urlEncode, Lib.sextets_one]
    simp only [sextet_eq, List.map_cons, List.map_nil]
  | case3 a b =>
    rw [base64urlEncode, Lib.sextets_two]
    simp only [sextet_eq, List.map_cons, List.map_nil]
  | case4 => rfl

/-- Base 64, completed with `=`. -/
theorem base64Encode_eq :
    base64Encode raw = fill 4 0x3D ((sextets raw).map (letter 0x2B 0x2F)) := by
  induction raw using base64Encode.induct with
  | case1 a b c rest ih =>
    rw [base64Encode, Lib.sextets_cons, ih]
    simp only [stdSextet_eq, List.map_cons]
    exact (Lib.fill_append (q := 1) (l := [_, _, _, _]) rfl).symm
  | case2 a =>
    rw [base64Encode, Lib.sextets_one]
    simp only [stdSextet_eq, List.map_cons, List.map_nil]
    rfl
  | case3 a b =>
    rw [base64Encode, Lib.sextets_two]
    simp only [stdSextet_eq, List.map_cons, List.map_nil]
    rfl
  | case4 => rfl

end Encoders

end Osodio.Auth
