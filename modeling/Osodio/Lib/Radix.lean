import Osodio.Lib.Blocks

/-!
# Bits in groups

Bytes are a sequence of bits, the highest of each byte first.  Cut into groups of six, they are the
digits of base 64; bits with the value zero complete the last group, and a text may be completed in
turn to a whole number of quanta.

## Main definitions

- `bitsOf`, `ofBits` — the bits of bytes, and the number that bits are
- `fill` — a list completed to whole blocks
- `sextets` — the digits of base 64
- `letter` — the alphabets of RFC 4648

## Main results

- `sextets_cons` — three bytes are four digits
-/

namespace Osodio.Lib

/-! ## Bits -/

def bitsOf (bytes : List UInt8) : List Bool :=
  bytes.flatMap fun b => (List.range 8).map fun i => b.toNat.testBit (7 - i)

/-- The number whose bits these are, the highest one first. -/
def ofBits (bits : List Bool) : ℕ := bits.foldl (fun n b => 2 * n + b.toNat) 0

section Fill

variable {α : Type*} {n q : ℕ} {x : α} {l l' : List α}

/-- As many elements behind as are missing to whole blocks. -/
def fill (n : ℕ) (x : α) (l : List α) : List α := l ++ List.replicate ((n - l.length % n) % n) x

theorem fill_append (h : l.length = q * n) : fill n x (l ++ l') = l ++ fill n x l' := by
  unfold fill
  rw [List.length_append, h, Nat.add_comm, Nat.add_mul_mod_self_right, List.append_assoc]

/-- The first block. -/
theorem blocks_cons (hn : 0 < n) (h : l.length = n) : blocks n (l ++ l') = l :: blocks n l' := by
  have hone : blocks n l = [l] := by
    rw [blocks, h, Nat.div_self hn, List.range_one, List.map_singleton, Nat.zero_mul,
      List.drop_zero, List.take_of_length_le h.le]
  rw [blocks_append (q := 1) hn (by rw [h, Nat.one_mul]), hone, List.singleton_append]

end Fill

/-! ## Base 64 -/

/-- The groups of six bits. -/
def sextets (bytes : List UInt8) : List ℕ := (blocks 6 (fill 6 false (bitsOf bytes))).map ofBits

/-- The letter of a digit: `A` to `Z`, `a` to `z`, `0` to `9`, and two more. -/
def letter (c62 c63 : UInt8) (i : ℕ) : UInt8 :=
  if i < 26 then 0x41 + UInt8.ofNat i
  else if i < 52 then 0x61 + UInt8.ofNat (i - 26)
  else if i < 62 then 0x30 + UInt8.ofNat (i - 52)
  else if i = 62 then c62
  else c63

section Sextets

variable {a b c : UInt8} {rest : List UInt8}

theorem bitsOf_append (l l' : List UInt8) : bitsOf (l ++ l') = bitsOf l ++ bitsOf l' :=
  List.flatMap_append

/-- A digit from six bits in a row. -/
theorem ofBits_six (b₁ b₂ b₃ b₄ b₅ b₆ : Bool) : ofBits [b₁, b₂, b₃, b₄, b₅, b₆] =
    32 * b₁.toNat + 16 * b₂.toNat + 8 * b₃.toNat + 4 * b₄.toNat + 2 * b₅.toNat + b₆.toNat := by
  simp only [ofBits, List.foldl_cons, List.foldl_nil]
  omega

theorem sextets_nil : sextets [] = [] := rfl

/-- The bits of a byte, one by one. -/
theorem bitsOf_cons (a : UInt8) (l : List UInt8) : bitsOf (a :: l) =
    a.toNat.testBit 7 :: a.toNat.testBit 6 :: a.toNat.testBit 5 :: a.toNat.testBit 4 ::
      a.toNat.testBit 3 :: a.toNat.testBit 2 :: a.toNat.testBit 1 :: a.toNat.testBit 0 ::
      bitsOf l := rfl

theorem blocks_six (b₁ b₂ b₃ b₄ b₅ b₆ : Bool) (l : List Bool) :
    blocks 6 (b₁ :: b₂ :: b₃ :: b₄ :: b₅ :: b₆ :: l) = [b₁, b₂, b₃, b₄, b₅, b₆] :: blocks 6 l :=
  blocks_cons (n := 6) (l := [b₁, b₂, b₃, b₄, b₅, b₆]) (by decide) rfl

theorem fill_six (b₁ b₂ b₃ b₄ b₅ b₆ : Bool) (l : List Bool) :
    fill 6 false (b₁ :: b₂ :: b₃ :: b₄ :: b₅ :: b₆ :: l) =
      b₁ :: b₂ :: b₃ :: b₄ :: b₅ :: b₆ :: fill 6 false l :=
  fill_append (q := 1) (l := [b₁, b₂, b₃, b₄, b₅, b₆]) rfl

/-- The number of some bits of a byte, from its upper end or from the lower one. -/
theorem octet : ∀ n < 256,
    (32 * (n.testBit 7).toNat + 16 * (n.testBit 6).toNat + 8 * (n.testBit 5).toNat +
      4 * (n.testBit 4).toNat + 2 * (n.testBit 3).toNat + (n.testBit 2).toNat = n / 4 ∧
      2 * (n.testBit 1).toNat + (n.testBit 0).toNat = n % 4) ∧
    (8 * (n.testBit 7).toNat + 4 * (n.testBit 6).toNat + 2 * (n.testBit 5).toNat +
      (n.testBit 4).toNat = n / 16 ∧
      8 * (n.testBit 3).toNat + 4 * (n.testBit 2).toNat + 2 * (n.testBit 1).toNat +
        (n.testBit 0).toNat = n % 16) ∧
    2 * (n.testBit 7).toNat + (n.testBit 6).toNat = n / 64 ∧
      32 * (n.testBit 5).toNat + 16 * (n.testBit 4).toNat + 8 * (n.testBit 3).toNat +
        4 * (n.testBit 2).toNat + 2 * (n.testBit 1).toNat + (n.testBit 0).toNat = n % 64 := by
  decide +kernel

theorem sextets_one (a : UInt8) :
    sextets [a] = [a.toNat * 2 ^ 16 / 2 ^ 18 % 64, a.toNat * 2 ^ 16 / 2 ^ 12 % 64] := by
  have ha := a.toNat_lt
  have hbits := octet a.toNat ha
  have hlast : blocks 6 (fill 6 false [a.toNat.testBit 1, a.toNat.testBit 0]) =
      [[a.toNat.testBit 1, a.toNat.testBit 0, false, false, false, false]] :=
    blocks_six _ _ false false false false []
  rw [sextets, bitsOf_cons, fill_six, blocks_six, bitsOf, List.flatMap_nil, hlast]
  simp only [List.map_cons, List.map_nil, ofBits_six, Bool.toNat_false,
    List.cons.injEq, and_true]
  constructor
  · omega
  · omega

theorem sextets_two (a b : UInt8) :
    sextets [a, b] = [(a.toNat * 2 ^ 16 + b.toNat * 2 ^ 8) / 2 ^ 18 % 64,
      (a.toNat * 2 ^ 16 + b.toNat * 2 ^ 8) / 2 ^ 12 % 64,
      (a.toNat * 2 ^ 16 + b.toNat * 2 ^ 8) / 2 ^ 6 % 64] := by
  have ha := a.toNat_lt
  have hb := b.toNat_lt
  have hbits := octet a.toNat ha
  have hbits' := octet b.toNat hb
  have hlast : blocks 6 (fill 6 false [b.toNat.testBit 3, b.toNat.testBit 2, b.toNat.testBit 1,
      b.toNat.testBit 0]) = [[b.toNat.testBit 3, b.toNat.testBit 2, b.toNat.testBit 1,
        b.toNat.testBit 0, false, false]] :=
    blocks_six _ _ _ _ false false []
  rw [sextets, bitsOf_cons, bitsOf_cons, fill_six, fill_six, blocks_six, blocks_six, bitsOf,
    List.flatMap_nil, hlast]
  simp only [List.map_cons, List.map_nil, ofBits_six, Bool.toNat_false,
    List.cons.injEq, and_true]
  refine ⟨?_, ?_, ?_⟩
  · omega
  · omega
  · omega

/-- Three bytes are four digits. -/
theorem sextets_cons (a b c : UInt8) (rest : List UInt8) :
    sextets (a :: b :: c :: rest) =
      (a.toNat * 2 ^ 16 + b.toNat * 2 ^ 8 + c.toNat) / 2 ^ 18 % 64 ::
      (a.toNat * 2 ^ 16 + b.toNat * 2 ^ 8 + c.toNat) / 2 ^ 12 % 64 ::
      (a.toNat * 2 ^ 16 + b.toNat * 2 ^ 8 + c.toNat) / 2 ^ 6 % 64 ::
      (a.toNat * 2 ^ 16 + b.toNat * 2 ^ 8 + c.toNat) / 2 ^ 0 % 64 :: sextets rest := by
  have ha := a.toNat_lt
  have hb := b.toNat_lt
  have hc := c.toNat_lt
  have hbits := octet a.toNat ha
  have hbits' := octet b.toNat hb
  have hbits'' := octet c.toNat hc
  rw [sextets, bitsOf_cons, bitsOf_cons, bitsOf_cons, fill_six, fill_six, fill_six, fill_six,
    blocks_six, blocks_six, blocks_six, blocks_six, sextets]
  simp only [List.map_cons, ofBits_six, List.cons.injEq, and_true]
  refine ⟨?_, ?_, ?_, ?_⟩
  · omega
  · omega
  · omega
  · omega

end Sextets

end Osodio.Lib
