import Osodio.Lib.Words

/-!
# UTF-8 in the writer of JSON

A text is checked before it is written, and repaired where it is not UTF-8.  Both
loops skip blocks of eight bytes that are ASCII.

## Main definitions

- `bloques` — the blocks of eight bytes that a loop skips
- `largoUtf8`, `utf8Valido`, `sanearUtf8` — the check and the repair
- `ValidUtf8` — a text that encodes characters
- `Repair` — what is kept and what is replaced

## Main results

- `largoUtf8_encode`, `encode_of_largoUtf8` — the check finds the characters
- `utf8Valido_iff` — what passes it encodes characters
- `repair_sanearUtf8`, `Repair.eq_of_valid` — the repair changes nothing else
-/

namespace Osodio.Json

open Osodio.Lib

/-- `std::string`. -/
abbrev Bytes := List UInt8

/-! ## Blocks of eight bytes -/

/-- The blocks of eight bytes at the front that a loop lets through, and the rest. -/
def bloques (pasa : UInt64 → Bool) : Bytes → Bytes × Bytes
  | b₀ :: b₁ :: b₂ :: b₃ :: b₄ :: b₅ :: b₆ :: b₇ :: resto =>
    if pasa (wordOf [b₀, b₁, b₂, b₃, b₄, b₅, b₆, b₇]) then
      let (salto, resto) := bloques pasa resto
      ([b₀, b₁, b₂, b₃, b₄, b₅, b₆, b₇] ++ salto, resto)
    else ([], b₀ :: b₁ :: b₂ :: b₃ :: b₄ :: b₅ :: b₆ :: b₇ :: resto)
  | bs => ([], bs)

section Bloques

variable {pasa : UInt64 → Bool}

/-- A loop over blocks skips bytes, and loses none. -/
theorem bloques_append (bs : Bytes) : (bloques pasa bs).1 ++ (bloques pasa bs).2 = bs := by
  fun_induction bloques pasa bs with
  | case1 b₀ b₁ b₂ b₃ b₄ b₅ b₆ b₇ resto hp salto resto' heq ih =>
    rw [heq] at ih
    simpa using ih
  | case2 => rfl
  | case3 => rfl

/-- What a word says of its bytes holds of all bytes that are skipped. -/
theorem bloques_forall {P : UInt8 → Prop}
    (hp : ∀ bs : Bytes, bs.length = 8 → pasa (wordOf bs) = true → ∀ b ∈ bs, P b) (bs : Bytes) :
    ∀ b ∈ (bloques pasa bs).1, P b := by
  fun_induction bloques pasa bs with
  | case1 b₀ b₁ b₂ b₃ b₄ b₅ b₆ b₇ resto hpasa salto resto' heq ih =>
    rw [heq] at ih
    intro b hb
    obtain hb | hb := List.mem_append.1 hb
    · exact hp _ rfl hpasa b hb
    · exact ih b hb
  | case2 => exact nofun
  | case3 => exact nofun

theorem bloques_length (bs : Bytes) : (bloques pasa bs).2.length ≤ bs.length := by
  conv_rhs => rw [← @bloques_append pasa bs]
  simp

end Bloques

/-! ## The check -/

/-- `cont(k)`: the byte at `k` continues a sequence. -/
def cont (bs : Bytes) (k : ℕ) : Bool := bs[k]?.any fun b => b &&& 0xC0 == 0x80

/-- The length of the sequence at the front, or 0 where there is none. -/
def largoUtf8 : Bytes → ℕ
  | [] => 0
  | c :: resto =>
    let segundo := (resto.head?).getD 0
    if c < 0x80 then 1
    else if c < 0xC2 then 0
    else if c < 0xE0 then if cont (c :: resto) 1 then 2 else 0
    else if c < 0xF0 then
      if !cont (c :: resto) 1 || !cont (c :: resto) 2 then 0
      else if c == 0xE0 && segundo < 0xA0 then 0
      else if c == 0xED && 0xA0 ≤ segundo then 0
      else 3
    else if c < 0xF5 then
      if !cont (c :: resto) 1 || !cont (c :: resto) 2 || !cont (c :: resto) 3 then 0
      else if c == 0xF0 && segundo < 0x90 then 0
      else if c == 0xF4 && 0x90 ≤ segundo then 0
      else 4
    else 0

/-- `utf8_valido`. -/
def utf8Valido (bs : Bytes) : Bool :=
  match _h : (bloques (fun w => w &&& tops == 0) bs).2 with
  | [] => true
  | b :: resto =>
    if b < 0x80 then utf8Valido resto
    else
      match largoUtf8 (b :: resto) with
      | 0 => false
      | l + 1 => utf8Valido (resto.drop l)
termination_by bs.length
decreasing_by
  all_goals
    have hle := @bloques_length (fun w => w &&& tops == 0) bs
    rw [_h, List.length_cons] at hle
  · omega
  · rw [List.length_drop]
    omega

/-- `sanear_utf8`: a byte that breaks the encoding becomes U+FFFD. -/
def sanearUtf8 : Bytes → Bytes
  | [] => []
  | c :: resto =>
    match largoUtf8 (c :: resto) with
    | 0 => [0xEF, 0xBF, 0xBD] ++ sanearUtf8 resto
    | l + 1 => c :: resto.take l ++ sanearUtf8 (resto.drop l)
termination_by bs => bs.length
decreasing_by
  · exact Nat.lt_succ_self _
  · rw [List.length_drop, List.length_cons]
    omega

/-! ## Texts that encode characters -/

/-- The text is the encoding of characters. -/
def ValidUtf8 (bs : Bytes) : Prop := ∃ cs : List Char, bs = cs.flatMap String.utf8EncodeChar

/-- A byte that continues a sequence. -/
def Tail (b : UInt8) : Prop := 0x80 ≤ b.toNat ∧ b.toNat < 0xC0

theorem cont_of_tail {bs : Bytes} {k : ℕ} {b : UInt8} (h : bs[k]? = some b) (hb : Tail b) :
    cont bs k = true := by
  have hand : ∀ n < 0x40, (UInt8.ofNat (n + 0x80) &&& 0xC0 == 0x80) = true := by decide
  obtain ⟨hlo, hhi⟩ := hb
  have hof : UInt8.ofNat (b.toNat - 0x80 + 0x80) = b := by
    rw [Nat.sub_add_cancel hlo, UInt8.ofNat_toNat]
  have hbit := hand (b.toNat - 0x80) (by omega)
  rw [hof] at hbit
  rwa [cont, h]

theorem not_lt_of_toNat {a n : UInt8} (h : n.toNat ≤ a.toNat) : ¬a < n := fun hlt =>
  absurd (UInt8.lt_iff_toNat_lt.1 hlt) (Nat.not_lt.2 h)

section Lead

variable {a b c d : UInt8} {resto : Bytes}

theorem largoUtf8_one (ha : a.toNat < 0x80) : largoUtf8 (a :: resto) = 1 :=
  if_pos (UInt8.lt_iff_toNat_lt.2 ha)

theorem largoUtf8_two (ha : 0xC2 ≤ a.toNat) (ha' : a.toNat < 0xE0) (hb : Tail b) :
    largoUtf8 (a :: b :: resto) = 2 := by
  have h1 : ¬a < 0x80 := not_lt_of_toNat (Nat.le_trans (by decide) ha)
  have h2 : ¬a < 0xC2 := not_lt_of_toNat (Nat.le_trans (by decide) ha)
  rw [largoUtf8, if_neg h1, if_neg h2, if_pos (UInt8.lt_iff_toNat_lt.2 ha'),
    if_pos (cont_of_tail rfl hb)]

theorem largoUtf8_three (ha : 0xE0 ≤ a.toNat) (ha' : a.toNat < 0xF0) (hb : Tail b) (hc : Tail c)
    (hlow : a.toNat = 0xE0 → 0xA0 ≤ b.toNat) (hsur : a.toNat = 0xED → b.toNat < 0xA0) :
    largoUtf8 (a :: b :: c :: resto) = 3 := by
  have h1 : ¬a < 0x80 := not_lt_of_toNat (Nat.le_trans (by decide) ha)
  have h2 : ¬a < 0xC2 := not_lt_of_toNat (Nat.le_trans (by decide) ha)
  have h3 : ¬a < 0xE0 := not_lt_of_toNat (Nat.le_trans (by decide) ha)
  rw [largoUtf8, if_neg h1, if_neg h2, if_neg h3, if_pos (UInt8.lt_iff_toNat_lt.2 ha'),
    cont_of_tail (k := 1) rfl hb, cont_of_tail (k := 2) rfl hc, if_neg (by decide),
    if_neg, if_neg]
  · simp only [List.head?_cons, Option.getD_some, Bool.and_eq_true, beq_iff_eq, not_and]
    rintro rfl hle
    exact absurd (of_decide_eq_true hle) (UInt8.not_le.2 (UInt8.lt_iff_toNat_lt.2 (hsur rfl)))
  · simp only [List.head?_cons, Option.getD_some, Bool.and_eq_true, beq_iff_eq, not_and]
    rintro rfl hlt
    exact Nat.not_lt.2 (hlow rfl) (UInt8.lt_iff_toNat_lt.1 (of_decide_eq_true hlt))

theorem largoUtf8_four (ha : 0xF0 ≤ a.toNat) (ha' : a.toNat < 0xF5) (hb : Tail b) (hc : Tail c)
    (hd : Tail d) (hlow : a.toNat = 0xF0 → 0x90 ≤ b.toNat)
    (hhigh : a.toNat = 0xF4 → b.toNat < 0x90) :
    largoUtf8 (a :: b :: c :: d :: resto) = 4 := by
  have h1 : ¬a < 0x80 := not_lt_of_toNat (Nat.le_trans (by decide) ha)
  have h2 : ¬a < 0xC2 := not_lt_of_toNat (Nat.le_trans (by decide) ha)
  have h3 : ¬a < 0xE0 := not_lt_of_toNat (Nat.le_trans (by decide) ha)
  have h4 : ¬a < 0xF0 := not_lt_of_toNat (Nat.le_trans (by decide) ha)
  rw [largoUtf8, if_neg h1, if_neg h2, if_neg h3, if_neg h4,
    if_pos (UInt8.lt_iff_toNat_lt.2 ha'), cont_of_tail (k := 1) rfl hb,
    cont_of_tail (k := 2) rfl hc, cont_of_tail (k := 3) rfl hd, if_neg (by decide), if_neg, if_neg]
  · simp only [List.head?_cons, Option.getD_some, Bool.and_eq_true, beq_iff_eq, not_and]
    rintro rfl hle
    exact absurd (of_decide_eq_true hle) (UInt8.not_le.2 (UInt8.lt_iff_toNat_lt.2 (hhigh rfl)))
  · simp only [List.head?_cons, Option.getD_some, Bool.and_eq_true, beq_iff_eq, not_and]
    rintro rfl hlt
    exact Nat.not_lt.2 (hlow rfl) (UInt8.lt_iff_toNat_lt.1 (of_decide_eq_true hlt))

end Lead

theorem toNat_ofNat_add {n m k : ℕ} (hn : n < m) (hk : m + k ≤ 256) :
    (UInt8.ofNat (n + k)).toNat = n + k :=
  UInt8.toNat_ofNat_of_lt' (show n + k < 256 by omega)

theorem tail_ofNat (n : ℕ) : Tail (UInt8.ofNat (n % 0x40 + 0x80)) := by
  have hn := Nat.mod_lt n (show 0 < 0x40 by decide)
  rw [Tail, toNat_ofNat_add hn (by decide)]
  omega

/-- The length that the check finds is that of the character at the front. -/
theorem largoUtf8_encode (c : Char) (resto : Bytes) :
    largoUtf8 (String.utf8EncodeChar c ++ resto) = (String.utf8EncodeChar c).length := by
  have hvalid : c.val.toNat < 0xD800 ∨ 0xDFFF < c.val.toNat ∧ c.val.toNat < 0x110000 := c.valid
  generalize hv : c.val.toNat = v at hvalid
  unfold String.utf8EncodeChar
  simp only [hv]
  have h6 := Nat.mod_lt (v / 64) (show 0 < 0x40 by decide)
  have h12 := Nat.mod_lt (v / 4096) (show 0 < 0x40 by decide)
  split
  · next h1 =>
    exact largoUtf8_one (by rw [UInt8.toNat_ofNat_of_lt' (show v < 256 by omega)]; omega)
  split
  · next h1 h2 =>
    have ha := toNat_ofNat_add (Nat.mod_lt (v / 64) (show 0 < 0x20 by decide))
      (show 0x20 + 0xC0 ≤ 256 by decide)
    exact largoUtf8_two (by omega) (by omega) (tail_ofNat v)
  split
  · next h1 h2 h3 =>
    have ha := toNat_ofNat_add (Nat.mod_lt (v / 4096) (show 0 < 0x10 by decide))
      (show 0x10 + 0xE0 ≤ 256 by decide)
    have hb := toNat_ofNat_add h6 (show 0x40 + 0x80 ≤ 256 by decide)
    exact largoUtf8_three (by omega) (by omega) (tail_ofNat _) (tail_ofNat v) (by omega) (by omega)
  · next h1 h2 h3 =>
    have ha := toNat_ofNat_add (Nat.mod_lt (v / 262144) (show 0 < 0x08 by decide))
      (show 0x08 + 0xF0 ≤ 256 by decide)
    have hb := toNat_ofNat_add h12 (show 0x40 + 0x80 ≤ 256 by decide)
    exact largoUtf8_four (by omega) (by omega) (tail_ofNat _) (tail_ofNat _) (tail_ofNat v)
      (by omega) (by omega)

/-! ### Removing characters from the front -/

/-- The first character of a text. -/
theorem ValidUtf8.cases {b : UInt8} {bs : Bytes} (h : ValidUtf8 (b :: bs)) :
    ∃ c resto, ValidUtf8 resto ∧ b :: bs = String.utf8EncodeChar c ++ resto := by
  obtain ⟨cs, hcs⟩ := h
  cases cs with
  | nil => cases hcs
  | cons c cs => exact ⟨c, _, ⟨cs, rfl⟩, by rw [hcs, List.flatMap_cons]⟩

/-- What is behind the first character. -/
theorem ValidUtf8.drop {b : UInt8} {bs : Bytes} (h : ValidUtf8 (b :: bs)) :
    ∃ l, largoUtf8 (b :: bs) = l + 1 ∧ ValidUtf8 (bs.drop l) := by
  obtain ⟨c, resto, hr, heq⟩ := h.cases
  have hlargo := largoUtf8_encode c resto
  obtain ⟨b', t, henc⟩ := List.exists_cons_of_ne_nil (String.utf8EncodeChar_ne_nil (c := c))
  rw [henc, List.cons_append, List.cons.injEq] at heq
  obtain ⟨rfl, rfl⟩ := heq
  refine ⟨t.length, ?_, by rwa [List.drop_left]⟩
  rwa [henc] at hlargo

/-- A byte that is ASCII is a character. -/
theorem ValidUtf8.tail {b : UInt8} {bs : Bytes} (h : ValidUtf8 (b :: bs)) (hb : b < 0x80) :
    ValidUtf8 bs := by
  obtain ⟨l, hl, hdrop⟩ := h.drop
  have h1 : largoUtf8 (b :: bs) = 1 := if_pos hb
  obtain rfl : l = 0 := by omega
  exact hdrop

theorem ValidUtf8.drop_ascii {bs resto : Bytes} (h : ValidUtf8 (bs ++ resto))
    (hbs : ∀ b ∈ bs, b < 0x80) : ValidUtf8 resto := by
  induction bs with
  | nil => exact h
  | cons b bs ih =>
    exact ih (h.tail (hbs b (List.mem_cons_self ..))) fun b' hb' =>
      hbs b' (List.mem_cons_of_mem _ hb')

/-- A text that encodes characters is written as it is. -/
theorem utf8Valido_of_valid {bs : Bytes} (h : ValidUtf8 bs) : utf8Valido bs = true := by
  have hascii : ∀ b ∈ (bloques (fun w => w &&& tops == 0) bs).1, b < 0x80 :=
    bloques_forall (fun bs hlen hw => lt_of_tops_eq_zero hlen (eq_of_beq hw)) bs
  have hrest : ValidUtf8 (bloques (fun w => w &&& tops == 0) bs).2 := by
    rw [← @bloques_append (fun w => w &&& tops == 0) bs] at h
    exact h.drop_ascii hascii
  have hlen := @bloques_length (fun w => w &&& tops == 0) bs
  rw [utf8Valido]
  split
  · rfl
  · next b resto heq =>
    rw [heq] at hrest hlen
    have hlen : resto.length < bs.length := hlen
    split
    · next hb => exact utf8Valido_of_valid (hrest.tail hb)
    · next hb =>
      obtain ⟨l, hl, hdrop⟩ := hrest.drop
      rw [hl]
      have hlt : (resto.drop l).length < bs.length := by
        rw [List.length_drop]
        omega
      exact utf8Valido_of_valid hdrop
termination_by bs.length

/-! ## Characters at the front -/

theorem tail_of_and : ∀ b : UInt8, (b &&& 0xC0 == 0x80) = true → Tail b := by
  have h : ∀ n < 256, (UInt8.ofNat n &&& 0xC0 == 0x80) = true → 0x80 ≤ n ∧ n < 0xC0 := by
    set_option maxRecDepth 4000 in decide
  intro b hb
  refine h b.toNat b.toNat_lt ?_
  rwa [UInt8.ofNat_toNat]

/-- What continues a sequence is there. -/
theorem tail_of_cont {bs : Bytes} {k : ℕ} (h : cont bs k = true) :
    ∃ b, bs[k]? = some b ∧ Tail b := by
  rw [cont, Option.any_eq_true] at h
  obtain ⟨b, hb, hand⟩ := h
  exact ⟨b, hb, tail_of_and b hand⟩

theorem exists_char {v : ℕ} (h : v < 0xD800 ∨ 0xDFFF < v ∧ v < 0x110000) :
    ∃ c : Char, c.val.toNat = v := ⟨Char.ofNatAux v h, rfl⟩

section Decode

variable {a b c d : UInt8}

theorem ofNat_eq {n : ℕ} (h : n = a.toNat) : UInt8.ofNat n = a := by rw [h, UInt8.ofNat_toNat]

theorem encode_one (ha : a.toNat < 0x80) : ∃ ch : Char, String.utf8EncodeChar ch = [a] := by
  obtain ⟨ch, hch⟩ := exists_char (v := a.toNat) (by omega)
  refine ⟨ch, ?_⟩
  unfold String.utf8EncodeChar
  simp only [hch]
  rw [if_pos (Nat.le_of_lt_succ ha), UInt8.ofNat_toNat]

theorem encode_two (ha : 0xC2 ≤ a.toNat) (ha' : a.toNat < 0xE0) (hb : Tail b) :
    ∃ ch : Char, String.utf8EncodeChar ch = [a, b] := by
  obtain ⟨hlo, hhi⟩ := hb
  obtain ⟨ch, hch⟩ := exists_char (v := (a.toNat - 0xC0) * 64 + (b.toNat - 0x80)) (by omega)
  refine ⟨ch, ?_⟩
  unfold String.utf8EncodeChar
  simp only [hch]
  rw [if_neg (by omega), if_pos (by omega), ofNat_eq (a := a) (by omega),
    ofNat_eq (a := b) (by omega)]

theorem encode_three (ha : 0xE0 ≤ a.toNat) (ha' : a.toNat < 0xF0) (hb : Tail b) (hc : Tail c)
    (hlow : a.toNat = 0xE0 → 0xA0 ≤ b.toNat) (hsur : a.toNat = 0xED → b.toNat < 0xA0) :
    ∃ ch : Char, String.utf8EncodeChar ch = [a, b, c] := by
  obtain ⟨hlob, hhib⟩ := hb
  obtain ⟨hloc, hhic⟩ := hc
  obtain ⟨ch, hch⟩ := exists_char
    (v := (a.toNat - 0xE0) * 4096 + (b.toNat - 0x80) * 64 + (c.toNat - 0x80)) (by omega)
  refine ⟨ch, ?_⟩
  unfold String.utf8EncodeChar
  simp only [hch]
  rw [if_neg (by omega), if_neg (by omega), if_pos (by omega), ofNat_eq (a := a) (by omega),
    ofNat_eq (a := b) (by omega), ofNat_eq (a := c) (by omega)]

theorem encode_four (ha : 0xF0 ≤ a.toNat) (ha' : a.toNat < 0xF5) (hb : Tail b) (hc : Tail c)
    (hd : Tail d) (hlow : a.toNat = 0xF0 → 0x90 ≤ b.toNat)
    (hhigh : a.toNat = 0xF4 → b.toNat < 0x90) :
    ∃ ch : Char, String.utf8EncodeChar ch = [a, b, c, d] := by
  obtain ⟨hlob, hhib⟩ := hb
  obtain ⟨hloc, hhic⟩ := hc
  obtain ⟨hlod, hhid⟩ := hd
  obtain ⟨ch, hch⟩ := exists_char (v := (a.toNat - 0xF0) * 262144 + (b.toNat - 0x80) * 4096 +
    (c.toNat - 0x80) * 64 + (d.toNat - 0x80)) (by omega)
  refine ⟨ch, ?_⟩
  unfold String.utf8EncodeChar
  simp only [hch]
  rw [if_neg (by omega), if_neg (by omega), if_neg (by omega), ofNat_eq (a := a) (by omega),
    ofNat_eq (a := b) (by omega), ofNat_eq (a := c) (by omega), ofNat_eq (a := d) (by omega)]

end Decode

/-- The bytes that continue a sequence are there. -/
theorem cons_of_cont {a : UInt8} {bs : Bytes} (h : cont (a :: bs) 1 = true) :
    ∃ b resto, bs = b :: resto ∧ Tail b := by
  obtain ⟨b, hb, ht⟩ := tail_of_cont h
  cases bs with
  | nil => cases hb
  | cons b' resto =>
    cases hb
    exact ⟨b, resto, rfl, ht⟩

theorem cont_cons {a b : UInt8} {bs : Bytes} {k : ℕ} :
    cont (a :: b :: bs) (k + 1 + 1) = cont (b :: bs) (k + 1) := rfl

/-- What the check finds at the front is a character. -/
theorem encode_of_largoUtf8 {bs : Bytes} {l : ℕ} (h : largoUtf8 bs = l + 1) :
    ∃ (ch : Char) (resto : Bytes), bs = String.utf8EncodeChar ch ++ resto ∧
      (String.utf8EncodeChar ch).length = l + 1 := by
  cases bs with
  | nil => cases h
  | cons a bs =>
    have hge {x y : UInt8} (hx : ¬x < y) : y.toNat ≤ x.toNat :=
      UInt8.le_iff_toNat_le.1 (UInt8.not_lt.1 hx)
    have hlt {x y : UInt8} (hx : x < y) : x.toNat < y.toNat := UInt8.lt_iff_toNat_lt.1 hx
    have heq {x y : UInt8} (hx : x.toNat = y.toNat) : (x == y) = true :=
      beq_iff_eq.2 (UInt8.toNat_inj.1 hx)
    rw [largoUtf8] at h
    by_cases h1 : a < 0x80
    · rw [if_pos h1] at h
      obtain ⟨ch, hch⟩ := encode_one (hlt h1)
      exact ⟨ch, bs, by rw [hch]; rfl, by rw [hch, ← h]; rfl⟩
    rw [if_neg h1] at h
    by_cases h2 : a < 0xC2
    · rw [if_pos h2] at h
      cases h
    rw [if_neg h2] at h
    by_cases h3 : a < 0xE0
    · rw [if_pos h3] at h
      split at h
      case isFalse => cases h
      case isTrue hc1 =>
      obtain ⟨b, bs, rfl, hb⟩ := cons_of_cont hc1
      obtain ⟨ch, hch⟩ := encode_two (hge h2) (hlt h3) hb
      exact ⟨ch, bs, by rw [hch]; rfl, by rw [hch, ← h]; rfl⟩
    rw [if_neg h3] at h
    by_cases h4 : a < 0xF0
    · rw [if_pos h4] at h
      split at h
      case isTrue => cases h
      case isFalse hcont =>
      simp only [Bool.or_eq_true, Bool.not_eq_true', not_or, Bool.not_eq_false] at hcont
      obtain ⟨b, bs, rfl, hb⟩ := cons_of_cont hcont.1
      obtain ⟨c, bs, rfl, hc⟩ := cons_of_cont (cont_cons.symm.trans hcont.2)
      -- neither overlong nor a surrogate
      split at h
      case isTrue => cases h
      case isFalse hlow =>
      split at h
      case isTrue => cases h
      case isFalse hsur =>
      simp only [List.head?_cons, Option.getD_some, Bool.and_eq_true, not_and] at hlow hsur
      obtain ⟨ch, hch⟩ := encode_three (hge h3) (hlt h4) hb hc
        (fun e => hge (y := 0xA0) fun hlt => hlow (heq e) (decide_eq_true hlt))
        (fun e => hlt (y := 0xA0) (UInt8.not_le.1 fun hle => hsur (heq e) (decide_eq_true hle)))
      exact ⟨ch, bs, by rw [hch]; rfl, by rw [hch, ← h]; rfl⟩
    rw [if_neg h4] at h
    split at h
    case isFalse => cases h
    case isTrue h5 =>
    split at h
    case isTrue => cases h
    case isFalse hcont =>
    simp only [Bool.or_eq_true, Bool.not_eq_true', not_or, Bool.not_eq_false] at hcont
    obtain ⟨b, bs, rfl, hb⟩ := cons_of_cont hcont.1.1
    obtain ⟨c, bs, rfl, hc⟩ := cons_of_cont (cont_cons.symm.trans hcont.1.2)
    obtain ⟨d, bs, rfl, hd⟩ := cons_of_cont (cont_cons.symm.trans (cont_cons.symm.trans hcont.2))
    -- neither overlong nor beyond the last character
    split at h
    case isTrue => cases h
    case isFalse hlow =>
    split at h
    case isTrue => cases h
    case isFalse hhigh =>
    simp only [List.head?_cons, Option.getD_some, Bool.and_eq_true, not_and] at hlow hhigh
    obtain ⟨ch, hch⟩ := encode_four (hge h4) (hlt h5) hb hc hd
      (fun e => hge (y := 0x90) fun hlt => hlow (heq e) (decide_eq_true hlt))
      (fun e => hlt (y := 0x90) (UInt8.not_le.1 fun hle => hhigh (heq e) (decide_eq_true hle)))
    exact ⟨ch, bs, by rw [hch]; rfl, by rw [hch, ← h]; rfl⟩

/-- No character is at the front of what the check refuses. -/
theorem largoUtf8_eq_zero {bs : Bytes} : largoUtf8 bs = 0 ↔
    ¬∃ (ch : Char) (resto : Bytes), bs = String.utf8EncodeChar ch ++ resto := by
  constructor
  · rintro h ⟨ch, resto, rfl⟩
    rw [largoUtf8_encode, List.length_eq_zero_iff] at h
    exact String.utf8EncodeChar_ne_nil h
  · intro h
    cases hl : largoUtf8 bs with
    | zero => rfl
    | succ l =>
      obtain ⟨ch, resto, rfl, -⟩ := encode_of_largoUtf8 hl
      exact absurd ⟨ch, resto, rfl⟩ h

theorem ValidUtf8.append {s t : Bytes} (hs : ValidUtf8 s) (ht : ValidUtf8 t) :
    ValidUtf8 (s ++ t) := by
  obtain ⟨cs, rfl⟩ := hs
  obtain ⟨ds, rfl⟩ := ht
  exact ⟨cs ++ ds, List.flatMap_append.symm⟩

theorem ValidUtf8.encode (c : Char) : ValidUtf8 (String.utf8EncodeChar c) :=
  ⟨[c], by rw [List.flatMap_cons, List.flatMap_nil, List.append_nil]⟩

theorem ValidUtf8.nil : ValidUtf8 [] := ⟨[], rfl⟩

/-- ASCII is UTF-8. -/
theorem ValidUtf8.ascii {bs : Bytes} (h : ∀ b ∈ bs, b < 0x80) : ValidUtf8 bs := by
  induction bs with
  | nil => exact .nil
  | cons b bs ih =>
    obtain ⟨c, hc⟩ := encode_one (UInt8.lt_iff_toNat_lt.1 (h b (List.mem_cons_self ..)))
    have htail := ih fun b' hb' => h b' (List.mem_cons_of_mem _ hb')
    have hhead := ValidUtf8.encode c
    rw [hc] at hhead
    exact hhead.append htail

/-- What passes the check encodes characters. -/
theorem valid_of_utf8Valido {bs : Bytes} (h : utf8Valido bs = true) : ValidUtf8 bs := by
  have hascii : ∀ b ∈ (bloques (fun w => w &&& tops == 0) bs).1, b < 0x80 :=
    bloques_forall (fun bs hlen hw => lt_of_tops_eq_zero hlen (eq_of_beq hw)) bs
  have hlen := @bloques_length (fun w => w &&& tops == 0) bs
  rw [← @bloques_append (fun w => w &&& tops == 0) bs]
  apply (ValidUtf8.ascii hascii).append
  rw [utf8Valido] at h
  split at h
  · next heq =>
    rw [heq]
    exact .nil
  · next b resto heq =>
    rw [heq] at hlen
    have hlen : resto.length < bs.length := hlen
    rw [heq]
    split at h
    · next hb =>
      have hb : ∀ b' ∈ [b], b' < 0x80 := by
        rintro b' (_ | ⟨_, ⟨⟩⟩)
        exact hb
      exact (ValidUtf8.ascii hb).append (valid_of_utf8Valido h)
    · split at h
      · cases h
      · next l hl =>
        obtain ⟨ch, resto', hbs, hch⟩ := encode_of_largoUtf8 hl
        have hdrop : resto.drop l = resto' := by
          have := congrArg (List.drop (l + 1)) hbs
          rwa [List.drop_succ_cons, ← hch, List.drop_left] at this
        have hlt : resto'.length < bs.length := by
          rw [← hdrop, List.length_drop]
          omega
        rw [hdrop] at h
        rw [hbs]
        exact (ValidUtf8.encode ch).append (valid_of_utf8Valido h)
termination_by bs.length

theorem utf8Valido_iff {bs : Bytes} : utf8Valido bs = true ↔ ValidUtf8 bs :=
  ⟨valid_of_utf8Valido, utf8Valido_of_valid⟩

/-! ## The repair -/

/-- What encodes a character is kept, and any other byte becomes U+FFFD. -/
inductive Repair : Bytes → Bytes → Prop
  | nil : Repair [] []
  | keep (c : Char) {s t : Bytes} (h : Repair s t) :
      Repair (String.utf8EncodeChar c ++ s) (String.utf8EncodeChar c ++ t)
  | replace (b : UInt8) {s t : Bytes}
      (hb : ¬∃ (c : Char) (resto : Bytes), b :: s = String.utf8EncodeChar c ++ resto)
      (h : Repair s t) : Repair (b :: s) ([0xEF, 0xBF, 0xBD] ++ t)

theorem repair_sanearUtf8 (bs : Bytes) : Repair bs (sanearUtf8 bs) := by
  fun_induction sanearUtf8 bs with
  | case1 => exact .nil
  | case2 c resto hl ih => exact .replace c (largoUtf8_eq_zero.1 hl) ih
  | case3 c resto l hl ih =>
    obtain ⟨ch, resto', hbs, hch⟩ := encode_of_largoUtf8 hl
    have htake := congrArg (List.take (l + 1)) hbs
    have hdrop := congrArg (List.drop (l + 1)) hbs
    rw [List.take_left' hch, List.take_succ_cons] at htake
    rw [List.drop_left' hch, List.drop_succ_cons] at hdrop
    rw [hbs, htake]
    rw [hdrop] at ih ⊢
    exact .keep ch ih

theorem ValidUtf8.of_encode {c : Char} {s : Bytes} (h : ValidUtf8 (String.utf8EncodeChar c ++ s)) :
    ValidUtf8 s := by
  have hlargo := largoUtf8_encode c s
  obtain ⟨b, t, henc⟩ := List.exists_cons_of_ne_nil (String.utf8EncodeChar_ne_nil (c := c))
  rw [henc, List.cons_append] at h hlargo
  obtain ⟨l, hl, hdrop⟩ := h.drop
  have hlen : t.length = l := Nat.succ.inj (hlargo.symm.trans hl)
  rwa [List.drop_left' hlen] at hdrop

/-- UTF-8 is kept as it is. -/
theorem Repair.eq_of_valid {s t : Bytes} (h : Repair s t) (hs : ValidUtf8 s) : t = s := by
  induction h with
  | nil => rfl
  | keep c h ih => rw [ih hs.of_encode]
  | replace b hb h ih =>
    obtain ⟨c, resto, -, heq⟩ := hs.cases
    exact absurd ⟨c, resto, heq⟩ hb

theorem Repair.refl {s : Bytes} (hs : ValidUtf8 s) : Repair s s := by
  obtain ⟨cs, rfl⟩ := hs
  induction cs with
  | nil => exact .nil
  | cons c cs ih =>
    rw [List.flatMap_cons]
    exact .keep c ih

theorem Repair.valid {s t : Bytes} (h : Repair s t) : ValidUtf8 t := by
  induction h with
  | nil => exact .nil
  | keep c _ ih => exact (ValidUtf8.encode c).append ih
  | replace b _ _ ih => exact (ValidUtf8.encode (Char.ofNat 0xFFFD)).append ih

end Osodio.Json
