import Mathlib.Data.List.GetD
import Mathlib.Data.Nat.NthRoot.Defs
import Mathlib.Data.Nat.Prime.Basic
import Osodio.Lib.Radix

/-!
# The secure hash standard

SHA-1 and SHA-256 as FIPS 180-4 defines them, on strings of bits: the message is padded to whole
blocks, and each block of sixteen words is worked into the hash value by the compression function.
HMAC is that of RFC 2104, over any hash of bytes.

## Main definitions

- `padBits` — the padded message
- `sha1`, `sha256` — the hashes
- `hmac` — the authentication code

## Main results

- `absorb_bitsOf` — a hash that works on blocks of bytes works on their bits
- `padBits_bitsOf` — the padding of a message of bytes
-/

namespace Osodio.Lib

/-! ## Bits of numbers -/

section Bits

/-- The number in so many bits, the highest one first. -/
def bitsOfNat (n x : ℕ) : List Bool := (List.range n).map fun i => x.testBit (n - 1 - i)

theorem length_bitsOfNat (n x : ℕ) : (bitsOfNat n x).length = n := by
  rw [bitsOfNat, List.length_map, List.length_range]

theorem bitsOfNat_add (m n x : ℕ) :
    bitsOfNat (m + n) x = bitsOfNat m (x / 2 ^ n) ++ bitsOfNat n x := by
  unfold bitsOfNat
  rw [List.range_add, List.map_append, List.map_map]
  congr 1
  · refine List.map_congr_left fun i hi => ?_
    have hi := List.mem_range.1 hi
    rw [← Nat.shiftRight_eq_div_pow, Nat.testBit_shiftRight]
    congr 1
    omega
  · refine List.map_congr_left fun i hi => ?_
    have hi := List.mem_range.1 hi
    show x.testBit (m + n - 1 - (m + i)) = _
    congr 1
    omega

theorem bitsOfNat_mod (n x : ℕ) : bitsOfNat n (x % 2 ^ n) = bitsOfNat n x := by
  refine List.map_congr_left fun i hi => ?_
  have hi := List.mem_range.1 hi
  rw [Nat.testBit_mod_two_pow, decide_eq_true (by omega), Bool.true_and]

theorem bitsOfNat_zero (n : ℕ) : bitsOfNat n 0 = List.replicate n false := by
  refine List.eq_replicate_iff.mpr ⟨length_bitsOfNat n 0, fun b hb => ?_⟩
  obtain ⟨i, -, rfl⟩ := List.mem_map.1 hb
  exact Nat.zero_testBit _

theorem bitsOf_singleton (b : UInt8) : bitsOf [b] = bitsOfNat 8 b.toNat := rfl

theorem length_bitsOf (l : List UInt8) : (bitsOf l).length = 8 * l.length := by
  induction l with
  | nil => rfl
  | cons b l ih =>
    rw [bitsOf_cons]
    simp only [List.length_cons, ih]
    omega

theorem bitsOf_replicate (n : ℕ) : bitsOf (List.replicate n 0) = List.replicate (8 * n) false := by
  induction n with
  | zero => rfl
  | succ n ih =>
    rw [List.replicate_succ, ← List.singleton_append, bitsOf_append, ih, bitsOf_singleton,
      show (0 : UInt8).toNat = 0 from rfl, bitsOfNat_zero, ← List.replicate_add, Nat.mul_succ,
      Nat.add_comm]

theorem ofBits_append (l l' : List Bool) :
    ofBits (l ++ l') = ofBits l * 2 ^ l'.length + ofBits l' := by
  have hfold : ∀ n, l'.foldl (fun n b => 2 * n + b.toNat) n = n * 2 ^ l'.length + ofBits l' := by
    unfold ofBits
    induction l' with
    | nil => simp
    | cons b l' ih =>
      intro n
      rw [List.foldl_cons, List.foldl_cons, ih, ih (2 * 0 + b.toNat), List.length_cons, pow_succ]
      ring
  rw [ofBits, List.foldl_append, hfold]
  rfl

theorem ofBits_bitsOfNat (n x : ℕ) : ofBits (bitsOfNat n x) = x % 2 ^ n := by
  induction n with
  | zero => rw [pow_zero, Nat.mod_one]; rfl
  | succ n ih =>
    rw [Nat.add_comm, bitsOfNat_add, ofBits_append, ih, length_bitsOfNat, Nat.add_comm 1,
      Nat.mod_pow_succ]
    have hone : ofBits (bitsOfNat 1 (x / 2 ^ n)) = x / 2 ^ n % 2 := by
      show 2 * 0 + ((x / 2 ^ n).testBit 0).toNat = _
      rw [Nat.toNat_testBit, pow_zero, Nat.div_one, Nat.mul_zero, Nat.zero_add]
    rw [hone, Nat.mul_comm, Nat.add_comm]

end Bits

/-! ## Messages -/

/-- The message, a one, zeros, and the length in 64 bits, up to the end of a block. -/
def padBits (m : List Bool) : List Bool :=
  m ++ true :: (List.replicate ((959 - m.length % 512) % 512) false ++ bitsOfNat 64 m.length)

/-- The words of a block. -/
def wordsOf (block : List Bool) (t : ℕ) : UInt32 :=
  UInt32.ofNat (ofBits ((block.drop (32 * t)).take 32))

/-- The hash of a message: the hash value behind its last block, as bits. -/
def hashBits {σ : Type*} (compress : σ → (ℕ → UInt32) → σ) (init : σ) (out : σ → List UInt32)
    (m : List Bool) : List Bool :=
  (out (absorb (fun h block => compress h (wordsOf block)) 512 init (padBits m))).flatMap
    fun w => bitsOfNat 32 w.toNat

section Bytes

variable {σ τ : Type*} {n : ℕ} {l : List UInt8}

theorem drop_bitsOf (n : ℕ) (l : List UInt8) : (bitsOf l).drop (8 * n) = bitsOf (l.drop n) := by
  induction n generalizing l with
  | zero => rfl
  | succ n ih =>
    cases l with
    | nil => simp [bitsOf]
    | cons b l =>
      rw [List.drop_succ_cons, ← ih, bitsOf_cons, Nat.mul_succ]
      rfl

theorem take_bitsOf (n : ℕ) (l : List UInt8) : (bitsOf l).take (8 * n) = bitsOf (l.take n) := by
  induction n generalizing l with
  | zero => rfl
  | succ n ih =>
    cases l with
    | nil => simp [bitsOf]
    | cons b l =>
      rw [List.take_succ_cons, bitsOf_cons, bitsOf_cons, ← ih, Nat.mul_succ]
      rfl

/-- Blocks of bytes are blocks of bits. -/
theorem blocks_bitsOf (n : ℕ) (l : List UInt8) :
    blocks (8 * n) (bitsOf l) = (blocks n l).map bitsOf := by
  unfold blocks
  rw [length_bitsOf, Nat.mul_div_mul_left _ _ (by decide), List.map_map]
  refine List.map_congr_left fun i _ => ?_
  show ((bitsOf l).drop (i * (8 * n))).take (8 * n) = bitsOf ((l.drop (i * n)).take n)
  rw [← take_bitsOf, ← drop_bitsOf, Nat.mul_left_comm]

theorem length_of_mem_blocks {α : Type*} {l b : List α} (h : b ∈ blocks n l) : b.length = n := by
  obtain ⟨i, hi, rfl⟩ := List.mem_map.1 h
  have hle : (i + 1) * n ≤ l.length :=
    (Nat.mul_le_mul_right n (List.mem_range.1 hi)).trans (Nat.div_mul_le_self _ _)
  rw [Nat.add_mul, Nat.one_mul] at hle
  rw [List.length_take, List.length_drop]
  omega

/-- A hash that works on blocks of bytes works on their bits. -/
theorem absorb_bitsOf {f : σ → τ} {step : σ → List UInt8 → σ} {step' : τ → List Bool → τ}
    (h : ∀ s b, b.length = n → f (step s b) = step' (f s) (bitsOf b)) (s : σ) (l : List UInt8) :
    f (absorb step n s l) = absorb step' (8 * n) (f s) (bitsOf l) := by
  have hfold : ∀ bs : List (List UInt8), (∀ b ∈ bs, b.length = n) → ∀ s,
      f (bs.foldl step s) = (bs.map bitsOf).foldl step' (f s) := by
    intro bs
    induction bs with
    | nil => exact fun _ _ => rfl
    | cons b bs ih =>
      intro hbs s
      rw [List.foldl_cons, List.map_cons, List.foldl_cons, ih (fun b' hb' => hbs b' (.tail _ hb')),
        h s b (hbs b (.head _))]
  rw [absorb, absorb, blocks_bitsOf, hfold _ fun _ => length_of_mem_blocks]

/-- The number of four bytes. -/
theorem ofBits_four (a b c d : UInt8) : ofBits (bitsOf [a, b, c, d]) =
    a.toNat * 2 ^ 24 + b.toNat * 2 ^ 16 + c.toNat * 2 ^ 8 + d.toNat := by
  have hbyte : ∀ x : UInt8, ofBits (bitsOf [x]) = x.toNat := fun x => by
    rw [bitsOf_singleton, ofBits_bitsOfNat, Nat.mod_eq_of_lt x.toNat_lt]
  have hsplit : bitsOf [a, b, c, d] = bitsOf [a] ++ (bitsOf [b] ++ (bitsOf [c] ++ bitsOf [d])) := by
    simp only [← bitsOf_append]
    rfl
  rw [hsplit, ofBits_append, ofBits_append, ofBits_append, hbyte, hbyte, hbyte, hbyte]
  simp only [List.length_append, length_bitsOf, List.length_singleton]
  ring

/-- The words of a block of bytes. -/
theorem wordsOf_bitsOf (h : l.length = 64) (t : ℕ) : wordsOf (bitsOf l) t =
    UInt32.ofNat ((l.getD (t * 4) 0).toNat * 2 ^ 24 + (l.getD (t * 4 + 1) 0).toNat * 2 ^ 16 +
      (l.getD (t * 4 + 2) 0).toNat * 2 ^ 8 + (l.getD (t * 4 + 3) 0).toNat) := by
  have hword : wordsOf (bitsOf l) t = UInt32.ofNat (ofBits (bitsOf ((l.drop (t * 4)).take 4))) := by
    rw [wordsOf, ← take_bitsOf, ← drop_bitsOf, show 8 * (t * 4) = 32 * t by ring]
  rw [hword]
  by_cases ht : t < 16
  · rw [List.getD_eq_getElem _ _ (by omega), List.getD_eq_getElem _ _ (by omega),
      List.getD_eq_getElem _ _ (by omega), List.getD_eq_getElem _ _ (by omega), ← ofBits_four]
    congr 3
    apply List.ext_getElem
    · rw [List.length_take, List.length_drop]
      simp only [List.length_cons, List.length_nil]
      omega
    · intro i hi _
      rw [List.length_take] at hi
      obtain rfl | rfl | rfl | rfl : i = 0 ∨ i = 1 ∨ i = 2 ∨ i = 3 := by omega
      all_goals simp
  · rw [List.drop_eq_nil_of_le (by omega)]
    simp only [List.getD_eq_default (l := l) (d := (0 : UInt8)) (by omega : l.length ≤ t * 4),
      List.getD_eq_default (l := l) (d := (0 : UInt8)) (by omega : l.length ≤ t * 4 + 1),
      List.getD_eq_default (l := l) (d := (0 : UInt8)) (by omega : l.length ≤ t * 4 + 2),
      List.getD_eq_default (l := l) (d := (0 : UInt8)) (by omega : l.length ≤ t * 4 + 3)]
    rfl

/-- The padding of a message of bytes: a byte with the one, zeros, and the length. -/
theorem padBits_bitsOf {len : List UInt8} (hlen : bitsOf len = bitsOfNat 64 (8 * l.length)) :
    padBits (bitsOf l) =
      bitsOf (l ++ 0x80 :: List.replicate ((119 - l.length % 64) % 64) 0 ++ len) := by
  have hone : bitsOf [0x80] = true :: List.replicate 7 false := rfl
  have hzeros : (959 - 8 * l.length % 512) % 512 = 7 + 8 * ((119 - l.length % 64) % 64) := by omega
  rw [padBits, length_bitsOf, hzeros, bitsOf_append, bitsOf_append, hlen,
    ← List.singleton_append (l := List.replicate _ (0 : UInt8)), bitsOf_append, hone,
    bitsOf_replicate, List.replicate_add]
  simp only [List.append_assoc, List.cons_append]

/-- The bits of a number, byte by byte. -/
theorem bitsOfNat_bytes (n x : ℕ) : bitsOfNat (8 * n) x =
    bitsOf ((List.range n).map fun i => UInt8.ofNat (x / 2 ^ (8 * (n - 1 - i)))) := by
  induction n with
  | zero => rfl
  | succ n ih =>
    have hbyte : ∀ y, bitsOf [UInt8.ofNat y] = bitsOfNat 8 y := fun y => by
      rw [bitsOf_singleton, UInt8.toNat_ofNat', bitsOfNat_mod]
    rw [Nat.mul_succ, Nat.add_comm, bitsOfNat_add, ih, ← hbyte, ← bitsOf_append,
      List.range_succ_eq_map, List.map_cons, List.map_map, List.singleton_append]
    congr 2
    refine List.map_congr_left fun i _ => ?_
    show _ = UInt8.ofNat (x / 2 ^ (8 * (n + 1 - 1 - (i + 1))))
    rw [show n + 1 - 1 - (i + 1) = n - 1 - i by omega]

end Bytes

/-! ## Message schedules -/

section Schedule

variable {α : Type*} {n : ℕ} {w : ℕ → α} {f : List α → ℕ → α}

theorem getD_range_map (x : α) {i : ℕ} (h : i < n) : ((List.range n).map w).getD i x = w i := by
  rw [List.getD_eq_getElem _ _ (by rwa [List.length_map, List.length_range]), List.getElem_map,
    List.getElem_range]

/-- A schedule that is filled word by word. -/
theorem foldl_schedule (h : ∀ k, f ((List.range (n + k)).map w) k = w (n + k)) (m : ℕ) :
    (List.range m).foldl (fun l k => l ++ [f l k]) ((List.range n).map w) =
      (List.range (n + m)).map w := by
  induction m with
  | zero => rfl
  | succ m ih =>
    rw [List.range_succ, List.foldl_append, ih, List.foldl_cons, List.foldl_nil, h,
      ← Nat.add_assoc, List.range_succ, List.map_append, List.map_singleton]

end Schedule

/-! ## Functions on words -/

section Words

variable (x y z : UInt32)

def rotl (n : UInt32) (x : UInt32) : UInt32 := (x <<< n) ||| (x >>> (32 - n))

def rotr (n : UInt32) (x : UInt32) : UInt32 := (x >>> n) ||| (x <<< (32 - n))

def ch : UInt32 := (x &&& y) ^^^ (~~~ x &&& z)

def parity : UInt32 := x ^^^ y ^^^ z

def maj : UInt32 := (x &&& y) ^^^ (x &&& z) ^^^ (y &&& z)

end Words

/-! ## SHA-1 -/

/-- The five working variables. -/
structure Vars5 where
  a : UInt32
  b : UInt32
  c : UInt32
  d : UInt32
  e : UInt32
  deriving DecidableEq

namespace Sha1

def f (t : ℕ) : UInt32 → UInt32 → UInt32 → UInt32 :=
  if t < 20 then ch else if t < 40 then parity else if t < 60 then maj else parity

def k (t : ℕ) : UInt32 :=
  if t < 20 then 0x5a827999 else if t < 40 then 0x6ed9eba1 else if t < 60 then 0x8f1bbcdc
  else 0xca62c1d6

/-- The message schedule. -/
def w (m : ℕ → UInt32) (t : ℕ) : UInt32 :=
  if t < 16 then m t
  else rotl 1 (w m (t - 3) ^^^ w m (t - 8) ^^^ w m (t - 14) ^^^ w m (t - 16))

def step (v : Vars5) (t : ℕ) (w : UInt32) : Vars5 :=
  ⟨rotl 5 v.a + f t v.b v.c v.d + v.e + k t + w, v.a, rotl 30 v.b, v.c, v.d⟩

def compress (h : Vars5) (m : ℕ → UInt32) : Vars5 :=
  let v := (List.range 80).foldl (fun v t => step v t (w m t)) h
  ⟨v.a + h.a, v.b + h.b, v.c + h.c, v.d + h.d, v.e + h.e⟩

def init : Vars5 := ⟨0x67452301, 0xefcdab89, 0x98badcfe, 0x10325476, 0xc3d2e1f0⟩

end Sha1

def sha1 : List Bool → List Bool :=
  hashBits Sha1.compress Sha1.init fun h => [h.a, h.b, h.c, h.d, h.e]

/-! ## SHA-256 -/

/-- The eight working variables. -/
structure Vars8 where
  a : UInt32
  b : UInt32
  c : UInt32
  d : UInt32
  e : UInt32
  f : UInt32
  g : UInt32
  h : UInt32
  deriving DecidableEq

namespace Sha256

/-- The first 64 primes. -/
def primes : List ℕ := (List.range 312).filter fun p => p.Prime

/-- A divisor is found among the numbers up to the root. -/
theorem primes_eq : primes =
    (List.range 312).filter fun p => 2 ≤ p ∧ ∀ m < 18, 2 ≤ m → m * m ≤ p → ¬ m ∣ p := by
  refine List.filter_congr fun p hp => decide_eq_decide.2 ?_
  have hp := List.mem_range.1 hp
  rw [Nat.prime_def_le_sqrt]
  refine and_congr_right fun _ => ⟨fun h m _ hm hle => h m hm (Nat.le_sqrt.2 hle), ?_⟩
  intro h m hm hle
  have hle := Nat.le_sqrt.1 hle
  refine h m ?_ hm hle
  by_contra hlt
  have := Nat.mul_le_mul (Nat.le_of_not_lt hlt) (Nat.le_of_not_lt hlt)
  omega

/-- The first 32 bits of the fractional part of an `n`th root. -/
def rootBits (n p : ℕ) : UInt32 := UInt32.ofNat (Nat.nthRoot n (p * 2 ^ (32 * n)))

/-- The constants: cube roots. -/
def k : List UInt32 := primes.map (rootBits 3)

def bigSigma0 (x : UInt32) : UInt32 := rotr 2 x ^^^ rotr 13 x ^^^ rotr 22 x

def bigSigma1 (x : UInt32) : UInt32 := rotr 6 x ^^^ rotr 11 x ^^^ rotr 25 x

def sigma0 (x : UInt32) : UInt32 := rotr 7 x ^^^ rotr 18 x ^^^ (x >>> 3)

def sigma1 (x : UInt32) : UInt32 := rotr 17 x ^^^ rotr 19 x ^^^ (x >>> 10)

/-- The message schedule. -/
def w (m : ℕ → UInt32) (t : ℕ) : UInt32 :=
  if t < 16 then m t
  else sigma1 (w m (t - 2)) + w m (t - 7) + sigma0 (w m (t - 15)) + w m (t - 16)

def step (v : Vars8) (k w : UInt32) : Vars8 :=
  let t1 := v.h + bigSigma1 v.e + ch v.e v.f v.g + k + w
  let t2 := bigSigma0 v.a + maj v.a v.b v.c
  ⟨t1 + t2, v.a, v.b, v.c, v.d + t1, v.e, v.f, v.g⟩

def compress (h : Vars8) (m : ℕ → UInt32) : Vars8 :=
  let v := (k.zip ((List.range 64).map (w m))).foldl (fun v kw => step v kw.1 kw.2) h
  ⟨v.a + h.a, v.b + h.b, v.c + h.c, v.d + h.d, v.e + h.e, v.f + h.f, v.g + h.g, v.h + h.h⟩

/-- The initial hash value: square roots of the first eight primes. -/
def init : Vars8 :=
  let r (i : ℕ) := rootBits 2 (primes.getD i 0)
  ⟨r 0, r 1, r 2, r 3, r 4, r 5, r 6, r 7⟩

end Sha256

def sha256 : List Bool → List Bool :=
  hashBits Sha256.compress Sha256.init fun h => [h.a, h.b, h.c, h.d, h.e, h.f, h.g, h.h]

/-! ## HMAC -/

/-- The key of an authentication code: of the length of a block, completed with zeros, or hashed
    first if it is longer. -/
def hmacKey (hash : List UInt8 → List UInt8) (n : ℕ) (key : List UInt8) : List UInt8 :=
  let k := if n < key.length then hash key else key
  k ++ List.replicate (n - k.length) 0

/-- HMAC with the hash, whose blocks have `n` bytes. -/
def hmac (hash : List UInt8 → List UInt8) (n : ℕ) (key text : List UInt8) : List UInt8 :=
  let ipad := List.replicate n 0x36
  let opad := List.replicate n 0x5c
  hash (List.zipWith (· ^^^ ·) (hmacKey hash n key) opad ++
    hash (List.zipWith (· ^^^ ·) (hmacKey hash n key) ipad ++ text))

end Osodio.Lib
