import Osodio.Json.RoundTrip

/-!
# The grammar of JSON

RFC 8259 on the bytes of a text, and what a text denotes.  Strings are read byte by byte here:
that a document is UTF-8 is said of the whole text.

## Main definitions

- `Chars` — what stands between quotes, and the string that it denotes
- `NumberDenotes` — an integer, or a number that is a double
- `Items`, `Entries`, `Denotes` — values, with a bound on the nesting
- `Document` — a value between blanks

## Main results

- `utf8_eq` — the code points of the parser are encoded as characters are
- `lookup_dictOf` — of equal keys, the last wins
- `Level.begins` — what a value begins with
-/

namespace Osodio.Json

/-! ## Strings -/

/-- The character behind a backslash, and what it stands for. -/
def simpleEscapes : List (UInt8 × UInt8) :=
  [(0x22, 0x22), (0x5C, 0x5C), (0x2F, 0x2F), (0x62, 0x08), (0x66, 0x0C), (0x6E, 0x0A),
    (0x72, 0x0D), (0x74, 0x09)]

/-- Four hexadecimal digits. -/
inductive Hex4 : Bytes → ℕ → Prop
  | mk {a b c d : UInt8} {w x y z : ℕ} (ha : hexValue a = some w) (hb : hexValue b = some x)
      (hc : hexValue c = some y) (hd : hexValue d = some z) :
      Hex4 [a, b, c, d] (4096 * w + 256 * x + 16 * y + z)

/-- What stands between the quotes of a string, and the bytes that it denotes.  A surrogate
    does not stand alone. -/
inductive Chars : Bytes → Bytes → Prop
  | nil : Chars [] []
  | byte {c : UInt8} {t s : Bytes} (hc : sucio c = false) (h : Chars t s) : Chars (c :: t) (c :: s)
  | simple {e v : UInt8} {t s : Bytes} (he : (e, v) ∈ simpleEscapes) (h : Chars t s) :
      Chars (0x5C :: e :: t) (v :: s)
  | unicode {x t s : Bytes} {c : Char} (hx : Hex4 x c.toNat) (h : Chars t s) :
      Chars (0x5C :: 0x75 :: (x ++ t)) (String.utf8EncodeChar c ++ s)
  | pair {x y t s : Bytes} {high low : ℕ} {c : Char} (hx : Hex4 x high) (hy : Hex4 y low)
      (hhigh : 0xD800 ≤ high ∧ high ≤ 0xDBFF) (hlow : 0xDC00 ≤ low ∧ low ≤ 0xDFFF)
      (hc : c.toNat = 0x10000 + (high - 0xD800) * 0x400 + (low - 0xDC00)) (h : Chars t s) :
      Chars (0x5C :: 0x75 :: (x ++ 0x5C :: 0x75 :: (y ++ t))) (String.utf8EncodeChar c ++ s)

/-! ## Numbers -/

/-- What digits stand for. -/
def natOf (ds : Bytes) : ℕ := Nat.ofDigits 10 (ds.reverse.map fun d => d.toNat - 0x30)

/-- An integer with its sign. -/
def integerOf (signo entera : Bytes) : ℤ := if signo = [] then natOf entera else -natOf entera

/-- A number: an integer that fits is one, and any other is the double that `real` has for
    its text. -/
inductive NumberDenotes (real : Bytes → Double → Prop) : Bytes → Value → Prop
  | int {signo entera : Bytes} (h : NumberParts signo entera [] [])
      (hfits : -2 ^ 63 ≤ integerOf signo entera ∧ integerOf signo entera < 2 ^ 63) :
      NumberDenotes real (signo ++ entera) (.int (Int64.ofInt (integerOf signo entera)))
  | float {signo entera fraccion exponente : Bytes} {d : Double}
      (h : NumberParts signo entera fraccion exponente)
      (hreal : fraccion = [] → exponente = [] →
        ¬(-2 ^ 63 ≤ integerOf signo entera ∧ integerOf signo entera < 2 ^ 63))
      (hd : real (signo ++ entera ++ fraccion ++ exponente) d) :
      NumberDenotes real (signo ++ entera ++ fraccion ++ exponente) (.float d)

/-! ## Values -/

/-- Blanks between two tokens. -/
def Ws (t : Bytes) : Prop := ∀ c ∈ t, espacio c = true

/-- The dictionary of the pairs of an object, in their order. -/
def dictOf (es : List (Bytes × Value)) : List (Bytes × Value) :=
  es.foldl (fun d e => setKey e.1 e.2 d) []

section Containers

variable (value : Bytes → Value → Prop)

/-- Values with commas between them. -/
inductive Items : Bytes → List Value → Prop
  | one {a t b : Bytes} {v : Value} (ha : Ws a) (h : value t v) (hb : Ws b) :
      Items (a ++ t ++ b) [v]
  | cons {a t b ts : Bytes} {v : Value} {vs : List Value} (ha : Ws a) (h : value t v) (hb : Ws b)
      (hs : Items ts vs) : Items (a ++ t ++ b ++ 0x2C :: ts) (v :: vs)

/-- A name and a value. -/
inductive Pair : Bytes → Bytes × Value → Prop
  | mk {a t b c u d k : Bytes} {v : Value} (ha : Ws a) (hk : Chars t k) (hb : Ws b) (hc : Ws c)
      (h : value u v) (hd : Ws d) :
      Pair (a ++ 0x22 :: (t ++ 0x22 :: (b ++ 0x3A :: (c ++ u ++ d)))) (k, v)

/-- Pairs with commas between them. -/
inductive Entries : Bytes → List (Bytes × Value) → Prop
  | one {t : Bytes} {e : Bytes × Value} (h : Pair value t e) : Entries t [e]
  | cons {t ts : Bytes} {e : Bytes × Value} {es : List (Bytes × Value)} (h : Pair value t e)
      (hs : Entries ts es) : Entries (t ++ 0x2C :: ts) (e :: es)

/-- A value whose parts are `value`s. -/
inductive Level (real : Bytes → Double → Prop) : Bytes → Value → Prop
  | null : Level real (ascii "null") .null
  | true : Level real (ascii "true") (.bool true)
  | false : Level real (ascii "false") (.bool false)
  | number {t : Bytes} {v : Value} (h : NumberDenotes real t v) : Level real t v
  | str {t s : Bytes} (h : Chars t s) : Level real (0x22 :: (t ++ [0x22])) (.str s)
  | nil {a : Bytes} (ha : Ws a) : Level real (0x5B :: (a ++ [0x5D])) (.list [])
  | list {t : Bytes} {vs : List Value} (h : Items value t vs) :
      Level real (0x5B :: (t ++ [0x5D])) (.list vs)
  | empty {a : Bytes} (ha : Ws a) : Level real (0x7B :: (a ++ [0x7D])) (.dict [])
  | dict {t : Bytes} {es : List (Bytes × Value)} (h : Entries value t es) :
      Level real (0x7B :: (t ++ [0x7D])) (.dict (dictOf es))

end Containers

/-- A value with no more than `n` containers around the innermost one. -/
def Denotes (real : Bytes → Double → Prop) : ℕ → Bytes → Value → Prop
  | 0 => Level (fun _ _ => False) real
  | n + 1 => Level (Denotes real n) real

/-- A value between blanks. -/
inductive Document (real : Bytes → Double → Prop) (n : ℕ) : Bytes → Value → Prop
  | mk {a t b : Bytes} {v : Value} (ha : Ws a) (h : Denotes real n t v) (hb : Ws b) :
      Document real n (a ++ t ++ b) v

/-! ## Code points -/

section CodePoints

theorem or_eq_add {m : ℕ} (i k : ℕ) (hm : m < 2 ^ i) : 2 ^ i * k ||| m = m + 2 ^ i * k := by
  rw [← Nat.two_pow_add_eq_or_of_lt hm, Nat.add_comm]

/-- The parser encodes a code point as the character. -/
theorem utf8_eq (c : Char) : utf8 c.toNat = String.utf8EncodeChar c := by
  have hvalid : c.toNat < 0xD800 ∨ 0xDFFF < c.toNat ∧ c.toNat < 0x110000 := c.valid
  have hand (m : ℕ) : m &&& 0x3F = m % 0x40 := Nat.and_two_pow_sub_one_eq_mod m 6
  have htail (m : ℕ) : 0x80 ||| m % 0x40 = m % 0x40 + 0x80 :=
    or_eq_add 6 2 (Nat.mod_lt _ (by decide))
  rw [utf8, String.utf8EncodeChar]
  show _ = if c.toNat ≤ 0x7F then [UInt8.ofNat c.toNat] else
    if c.toNat ≤ 0x7FF then _ else if c.toNat ≤ 0xFFFF then _ else _
  change _ = if c.toNat ≤ 0x7F then _ else if c.toNat ≤ 0x7FF then
    [UInt8.ofNat (c.toNat / 64 % 0x20 + 0xC0), UInt8.ofNat (c.toNat % 0x40 + 0x80)] else
    if c.toNat ≤ 0xFFFF then [UInt8.ofNat (c.toNat / 4096 % 0x10 + 0xE0),
      UInt8.ofNat (c.toNat / 64 % 0x40 + 0x80), UInt8.ofNat (c.toNat % 0x40 + 0x80)]
    else [UInt8.ofNat (c.toNat / 262144 % 0x08 + 0xF0), UInt8.ofNat (c.toNat / 4096 % 0x40 + 0x80),
      UInt8.ofNat (c.toNat / 64 % 0x40 + 0x80), UInt8.ofNat (c.toNat % 0x40 + 0x80)]
  generalize c.toNat = v at hvalid
  simp only [Nat.shiftRight_eq_div_pow, hand, htail]
  norm_num only [Nat.reducePow]
  by_cases h1 : v < 0x80
  · rw [if_pos h1, if_pos (Nat.le_of_lt_succ h1)]
  rw [if_neg h1, if_neg (show ¬v ≤ 127 by omega)]
  by_cases h2 : v < 0x800
  · have hlead : 0xC0 ||| v / 64 = v / 64 % 0x20 + 0xC0 := by
      rw [Nat.mod_eq_of_lt (by omega)]
      exact or_eq_add 6 3 (by omega)
    rw [if_pos h2, if_pos (Nat.le_of_lt_succ h2), hlead]
  rw [if_neg h2, if_neg (show ¬v ≤ 2047 by omega)]
  by_cases h3 : v < 0x10000
  · have hlead : 0xE0 ||| v / 4096 = v / 4096 % 0x10 + 0xE0 := by
      rw [Nat.mod_eq_of_lt (by omega)]
      exact or_eq_add 5 7 (by omega)
    rw [if_pos h3, if_pos (Nat.le_of_lt_succ h3), hlead]
  · have hlead : 0xF0 ||| v / 262144 = v / 262144 % 0x08 + 0xF0 := by
      rw [Nat.mod_eq_of_lt (by omega)]
      exact or_eq_add 4 15 (by omega)
    rw [if_neg h3, if_neg (show ¬v ≤ 65535 by omega), hlead]

end CodePoints

/-! ## Dictionaries -/

theorem lookup_cons_eq (k k' : Bytes) (v : Value) (d : List (Bytes × Value)) :
    ((k', v) :: d).lookup k = if k = k' then some v else d.lookup k := by
  rw [List.lookup_cons]
  by_cases h : k = k'
  · rw [if_pos h, beq_iff_eq.2 h]
  · rw [if_neg h, beq_false_of_ne h]

theorem lookup_setKey (k k' : Bytes) (v : Value) (d : List (Bytes × Value)) :
    (setKey k' v d).lookup k = if k = k' then some v else d.lookup k := by
  induction d with
  | nil => exact lookup_cons_eq k k' v []
  | cons e d ih =>
    obtain ⟨l, w⟩ := e
    rw [setKey]
    split
    case isTrue h =>
      subst h
      rw [lookup_cons_eq, lookup_cons_eq]
      by_cases hk : k = l
      · rw [if_pos hk, if_pos hk]
      · rw [if_neg hk, if_neg hk, if_neg hk]
    case isFalse h =>
      rw [lookup_cons_eq, lookup_cons_eq, ih]
      by_cases hk : k = l
      · rw [if_pos hk, if_neg fun e => h (hk.symm.trans e), if_pos hk]
      · rw [if_neg hk, if_neg hk]

/-- Of equal keys, the last wins. -/
theorem lookup_dictOf (es : List (Bytes × Value)) (k : Bytes) :
    (dictOf es).lookup k = es.reverse.lookup k := by
  induction es using List.reverseRecOn with
  | nil => rfl
  | append_singleton es e ih =>
    obtain ⟨l, w⟩ := e
    rw [dictOf, List.foldl_append, List.foldl_cons, List.foldl_nil, lookup_setKey,
      List.reverse_append, List.reverse_singleton, List.singleton_append, lookup_cons_eq, ← ih]
    rfl

/-! ## Values -/

section Values

variable {real : Bytes → Double → Prop} {n : ℕ} {t s rest : Bytes} {v : Value}

theorem NumberDenotes.text (h : NumberDenotes real t v) : NumberText t := by
  cases h with
  | int h => exact ⟨_, _, [], [], h, by simp⟩
  | float h => exact ⟨_, _, _, _, h, rfl⟩

theorem Level.begins {R : Bytes → Value → Prop} (h : Level R real t v) : Begins t := by
  cases h with
  | number h => exact h.text.begins
  | null | true | false => exact ⟨_, _, rfl, by decide⟩
  | str | nil | list | empty | dict => exact ⟨_, _, rfl, by decide⟩

/-- More levels do no harm. -/
theorem Level.mono {R R' : Bytes → Value → Prop} (hR : ∀ t v, R t v → R' t v)
    (h : Level R real t v) : Level R' real t v := by
  have hitems {t vs} (h : Items R t vs) : Items R' t vs := by
    induction h with
    | one ha h hb => exact .one ha (hR _ _ h) hb
    | cons ha h hb _ ih => exact .cons ha (hR _ _ h) hb ih
  have hpair {t e} (h : Pair R t e) : Pair R' t e := by
    obtain ⟨ha, hk, hb, hc, h, hd⟩ := h
    exact .mk ha hk hb hc (hR _ _ h) hd
  have hentries {t es} (h : Entries R t es) : Entries R' t es := by
    induction h with
    | one h => exact .one (hpair h)
    | cons h _ ih => exact .cons (hpair h) ih
  cases h with
  | null => exact .null
  | true => exact .true
  | false => exact .false
  | number h => exact .number h
  | str h => exact .str h
  | nil ha => exact .nil ha
  | list h => exact .list (hitems h)
  | empty ha => exact .empty ha
  | dict h => exact .dict (hentries h)

theorem Denotes.succ (h : Denotes real n t v) : Denotes real (n + 1) t v := by
  induction n generalizing t v with
  | zero => exact Level.mono (fun _ _ => False.elim) h
  | succ n ih => exact Level.mono (fun _ _ => ih) h

theorem Denotes.mono {m : ℕ} (hle : m ≤ n) (h : Denotes real m t v) : Denotes real n t v := by
  induction hle with
  | refl => exact h
  | step _ ih => exact ih.succ

end Values

end Osodio.Json
