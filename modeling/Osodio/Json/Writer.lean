import Osodio.Json.Utf8
import Mathlib.Data.Nat.Digits.Defs
import Mathlib.Data.List.TakeWhile

/-!
# Writing JSON

A value is written with all that is behind its boxes, as a tree, in one pass over
it.  Text that needs no escape is copied as it is, in blocks of eight bytes as
long as that goes.

## Main definitions

- `Value` — a value as a tree
- `escapar` — a text between quotes
- `escribirDouble`, `decimal` — the numbers
- `Value.writeJson` — `write_json`

## Main results

- `escaparValido_eq` — the blocks of eight bytes change nothing
-/

namespace Osodio.Json

open Osodio.Lib

/-! ## Values -/

/-- A `double`, by its bits. -/
structure Double where
  bits : UInt64
  deriving DecidableEq, Repr

/-- `std::isfinite`: the exponent is not the largest one. -/
def Double.isFinite (d : Double) : Bool := (d.bits >>> 52) &&& 0x7FF != 0x7FF

/-- A value with what is behind its boxes. -/
inductive Value where
  | null
  | bool (b : Bool)
  | int (i : Int64)
  | float (d : Double)
  | str (s : Bytes)
  | list (items : List Value)
  | dict (entries : List (Bytes × Value))

/-- The conversions between texts and doubles: `to_chars` into so many bytes, and
    `from_chars` when it reads a whole text. -/
structure Charconv where
  toChars : ℕ → Double → Option Bytes
  fromChars : Bytes → Option Double

/-- A text of ASCII characters. -/
def ascii (s : String) : Bytes := s.toList.map fun c => UInt8.ofNat c.toNat

/-! ## Texts -/

/-- The byte needs an escape. -/
def sucio (c : UInt8) : Bool := c < 0x20 || c == 0x22 || c == 0x5C

/-- `bloque_sucio`. -/
def bloqueSucio (w : UInt64) : Bool :=
  (borrows w (repeated 0x20) ||| borrows (w ^^^ repeated 0x22) ones |||
    borrows (w ^^^ repeated 0x5C) ones) != 0

/-- A hexadecimal digit, as `%x` writes it. -/
def hexDigit (n : ℕ) : UInt8 := if n < 10 then UInt8.ofNat (0x30 + n) else UInt8.ofNat (0x57 + n)

/-- `%04x`. -/
def hex04 (n : ℕ) : Bytes :=
  [hexDigit (n / 4096 % 16), hexDigit (n / 256 % 16), hexDigit (n / 16 % 16), hexDigit (n % 16)]

/-- What stands for a byte that needs an escape. -/
def escape (c : UInt8) : Bytes :=
  if c = 0x22 then [0x5C, 0x22]
  else if c = 0x5C then [0x5C, 0x5C]
  else if c = 0x08 then [0x5C, 0x62]
  else if c = 0x0C then [0x5C, 0x66]
  else if c = 0x0A then [0x5C, 0x6E]
  else if c = 0x0D then [0x5C, 0x72]
  else if c = 0x09 then [0x5C, 0x74]
  else [0x5C, 0x75] ++ hex04 c.toNat

/-- The loop of `escapar_valido`: clean blocks, clean bytes, and a byte that needs an
    escape. -/
def escaparDesde (bs : Bytes) : Bytes :=
  let tramo := bloques (fun w => !bloqueSucio w) bs
  let limpio := tramo.1 ++ tramo.2.takeWhile fun c => !sucio c
  match _h : tramo.2.dropWhile fun c => !sucio c with
  | [] => limpio
  | c :: resto => limpio ++ escape c ++ escaparDesde resto
termination_by bs.length
decreasing_by
  have hlen := @bloques_length (fun w => !bloqueSucio w) bs
  have hdrop := (List.dropWhile_sublist (fun c => !sucio c) (l := tramo.2)).length_le
  rw [_h] at hdrop
  exact Nat.lt_of_lt_of_le hdrop hlen

/-- `escapar_valido`. -/
def escaparValido (bs : Bytes) : Bytes := [0x22] ++ escaparDesde bs ++ [0x22]

/-- `escapar`: what is not UTF-8 is repaired first. -/
def escapar (bs : Bytes) : Bytes :=
  if utf8Valido bs then escaparValido bs else escaparValido (sanearUtf8 bs)

/-- A block is clean only if all of its bytes are. -/
theorem limpio_of_bloque {bs : Bytes} (hlen : bs.length = 8)
    (h : (!bloqueSucio (wordOf bs)) = true) : ∀ b ∈ bs, sucio b = false := by
  have hzero : ∀ {x y : UInt64}, x ||| y = 0 → x = 0 ∧ y = 0 := fun h => UInt64.or_eq_zero_iff.1 h
  simp only [bloqueSucio, Bool.not_eq_true', bne_eq_false_iff_eq] at h
  obtain ⟨h, hbarra⟩ := hzero h
  obtain ⟨hcontrol, hcomilla⟩ := hzero h
  intro b hb
  have h1 := le_of_borrows_eq_zero hlen (by decide) hcontrol b hb
  have h2 := ne_of_borrows_xor hlen hcomilla b hb
  have h3 := ne_of_borrows_xor hlen hbarra b hb
  simp [sucio, h1, h2, h3]

/-- Byte by byte, without the blocks. -/
def escapeByte (c : UInt8) : Bytes := if sucio c then escape c else [c]

theorem flatMap_escapeByte {bs : Bytes} (h : ∀ b ∈ bs, sucio b = false) :
    bs.flatMap escapeByte = bs := by
  induction bs with
  | nil => rfl
  | cons b bs ih =>
    have hb : escapeByte b = [b] := by simp [escapeByte, h b (List.mem_cons_self ..)]
    rw [List.flatMap_cons, hb, ih fun b' hb' => h b' (List.mem_cons_of_mem _ hb')]
    rfl

/-- The blocks of eight bytes change nothing. -/
theorem escaparDesde_eq (bs : Bytes) : escaparDesde bs = bs.flatMap escapeByte := by
  have hlen := @bloques_length (fun w => !bloqueSucio w) bs
  have hsalto := @bloques_forall (fun w => !bloqueSucio w) _ (fun _ => limpio_of_bloque) bs
  have hlimpio : ∀ b ∈ (bloques (fun w => !bloqueSucio w) bs).2.takeWhile (fun c => !sucio c),
      sucio b = false := fun b hb => by simpa using List.mem_takeWhile_imp hb
  rw [escaparDesde]
  conv_rhs => rw [← @bloques_append (fun w => !bloqueSucio w) bs]
  generalize bloques (fun w => !bloqueSucio w) bs = tramo at *
  obtain ⟨salto, resto⟩ := tramo
  dsimp only at hlen hsalto hlimpio ⊢
  have hsplit := List.takeWhile_append_dropWhile (p := fun c => !sucio c) (l := resto)
  rw [List.flatMap_append, flatMap_escapeByte hsalto]
  split
  · next hdrop =>
    rw [hdrop, List.append_nil] at hsplit
    rw [hsplit] at hlimpio ⊢
    rw [flatMap_escapeByte hlimpio]
  · next c resto' hdrop =>
    have hc : sucio c = true := by
      have := List.head_dropWhile_not (fun c => !sucio c) (l := resto) (by rw [hdrop]; simp)
      simpa [hdrop] using this
    have hlt : resto'.length < bs.length := by
      have hsub := (List.dropWhile_sublist (fun c => !sucio c) (l := resto)).length_le
      rw [hdrop] at hsub
      exact Nat.lt_of_lt_of_le hsub hlen
    rw [escaparDesde_eq resto']
    conv_rhs => rw [← hsplit, hdrop]
    rw [List.flatMap_append, flatMap_escapeByte hlimpio, List.flatMap_cons, escapeByte, if_pos hc]
    simp only [List.append_assoc]
termination_by bs.length

/-! ## Numbers -/

/-- The decimal digits of a number. -/
def digitos (n : ℕ) : Bytes :=
  if n = 0 then [0x30] else (Nat.digits 10 n).reverse.map fun d => UInt8.ofNat (0x30 + d)

/-- `std::to_string`. -/
def decimal (i : Int64) : Bytes :=
  if i < 0 then [0x2D] ++ digitos i.toInt.natAbs else digitos i.toInt.natAbs

/-- A `.` or an exponent, which an integer has not. -/
def marcaReal (t : Bytes) : Bool := t.any fun c => c == 0x2E || c == 0x65 || c == 0x45

/-- `escribir_double`: what is not finite has no JSON, and what has no fraction gets
    one. -/
def escribirDouble (C : Charconv) (d : Double) : Bytes :=
  if !d.isFinite then ascii "null"
  else
    match C.toChars 32 d with
    | none => ascii "0"
    | some t => if marcaReal t then t else t ++ ascii ".0"

/-! ## Trees -/

/-- Keys that begin so are internal, and are not written. -/
def interna (k : Bytes) : Bool := (ascii "__").isPrefixOf k

mutual

/-- `write_json`. -/
def Value.writeJson (C : Charconv) : Value → Bytes
  | .null => ascii "null"
  | .bool b => if b then ascii "true" else ascii "false"
  | .int i => decimal i
  | .float d => escribirDouble C d
  | .str s => escapar s
  | .list items => [0x5B] ++ writeItems C true items ++ [0x5D]
  | .dict entries => [0x7B] ++ writeEntries C true entries ++ [0x7D]

/-- The values of a list; a comma stands before each one but the first. -/
def writeItems (C : Charconv) (primero : Bool) : List Value → Bytes
  | [] => []
  | v :: vs =>
    (if primero then [] else [0x2C]) ++ v.writeJson C ++ writeItems C false vs

/-- The pairs of a dictionary, without the internal ones. -/
def writeEntries (C : Charconv) (primero : Bool) : List (Bytes × Value) → Bytes
  | [] => []
  | (k, v) :: es =>
    if interna k then writeEntries C primero es
    else
      (if primero then [] else [0x2C]) ++ escapar k ++ [0x3A] ++ v.writeJson C ++
        writeEntries C false es

end

/-- `to_json_text`. -/
def Value.toJsonText (C : Charconv) (v : Value) : Bytes := v.writeJson C

end Osodio.Json
