import Osodio.Json.WellFormed

/-!
# What is read is JSON

The parser accepts a text exactly if the grammar derives it, and gives the value that it denotes.
One function of the parser after the other: what it reads off the front is derived, and what is
derived it reads, whatever comes after.

## Main results

- `cadena_iff`, `numero_sound`, `numero_complete` — the scalars
- `valor_sound`, `valor_complete` — values
- `parseJson_eq_some` — the whole
-/

namespace Osodio.Json

/-! ## Blanks -/

section Blanks

variable {a s : Bytes}

theorem espacios_append (ha : Ws a) (s : Bytes) : espacios (a ++ s) = espacios s :=
  List.dropWhile_append_of_pos ha

theorem exists_ws (s : Bytes) : ∃ a, Ws a ∧ s = a ++ espacios s :=
  ⟨s.takeWhile espacio, fun _ hc => List.mem_takeWhile_imp hc,
    (List.takeWhile_append_dropWhile (p := espacio)).symm⟩

theorem espacios_ws (ha : Ws a) : espacios a = [] := List.dropWhile_eq_nil_iff.2 ha

theorem ws_of_espacios (h : espacios s = []) : Ws s := List.dropWhile_eq_nil_iff.1 h

theorem espacios_espacios (s : Bytes) : espacios (espacios s) = espacios s := by
  obtain ⟨a, ha, hs⟩ := exists_ws s
  conv_rhs => rw [hs, espacios_append ha]

/-- A blank ends a number. -/
theorem Ends.ws (ha : Ws a) (h : Ends s) : Ends (a ++ s) := by
  cases a with
  | nil => exact h
  | cons c a =>
    rintro c' ⟨⟩
    have hc := ha c (List.mem_cons_self ..)
    simp only [espacio, Bool.or_eq_true, beq_iff_eq] at hc
    obtain ((rfl | rfl) | rfl) | rfl := hc <;> decide

end Blanks

/-! ## Strings -/

section Strings

variable {s t rest u : Bytes} {n m : ℕ}

theorem hex4_iff : hex4 u = some (n, rest) ↔ ∃ x, Hex4 x n ∧ u = x ++ rest := by
  constructor
  · intro h
    match u, h with
    | a :: b :: c :: d :: s, h =>
      simp only [hex4, Option.bind_eq_bind, Option.bind_eq_some_iff, Option.pure_def,
        Option.some.injEq, Prod.mk.injEq] at h
      obtain ⟨w, ha, x, hb, y, hc, z, hd, rfl, rfl⟩ := h
      exact ⟨[a, b, c, d], .mk ha hb hc hd, rfl⟩
  · rintro ⟨_, ⟨ha, hb, hc, hd⟩, rfl⟩
    simp [hex4, ha, hb, hc, hd]

/-- A code point that is no surrogate is a character. -/
theorem exists_char_of_not_surrogate (hn : n < 0x110000) (h : ¬(0xD800 ≤ n ∧ n ≤ 0xDFFF)) :
    ∃ c : Char, c.toNat = n := by
  apply exists_char
  omega

theorem Hex4.lt (h : Hex4 t n) : n < 0x10000 := by
  have hdigit {c : UInt8} {v : ℕ} (hv : hexValue c = some v) : v < 16 := by
    simp only [hexValue, Bool.and_eq_true, decide_eq_true_eq, UInt8.le_iff_toNat_le] at hv
    split_ifs at hv with h1 h2 h3
    · have h39 : (0x39 : UInt8).toNat = 0x39 := rfl
      cases hv
      omega
    · have h66 : (0x66 : UInt8).toNat = 0x66 := rfl
      cases hv
      omega
    · have h46 : (0x46 : UInt8).toNat = 0x46 := rfl
      cases hv
      omega
  obtain ⟨ha, hb, hc, hd⟩ := h
  have := hdigit ha
  have := hdigit hb
  have := hdigit hc
  have := hdigit hd
  omega

theorem escapeUnicode_sound {e : Bytes} (h : escapeUnicode u = some (e, rest)) :
    ∃ x, u = x ++ rest ∧ ∀ t s, Chars t s → Chars (0x5C :: 0x75 :: (x ++ t)) (e ++ s) := by
  rw [escapeUnicode, Option.bind_eq_bind, Option.bind_eq_some_iff] at h
  obtain ⟨⟨cp, s'⟩, hread, h⟩ := h
  obtain ⟨x, hx, rfl⟩ := hex4_iff.1 hread
  dsimp only at h
  split at h
  case isTrue hhigh =>
    split at h
    · next s'' heq =>
      rw [Option.bind_eq_some_iff] at h
      obtain ⟨⟨bajo, r⟩, hread', h⟩ := h
      obtain ⟨y, hy, rfl⟩ := hex4_iff.1 hread'
      dsimp only at h
      split at h
      · cases h
      · next hlow =>
        obtain ⟨c, hc⟩ := exists_char_of_not_surrogate
          (n := 0x10000 + (cp - 0xD800) * 1024 + (bajo - 0xDC00)) (by omega) (by omega)
        rw [← hc, utf8_eq] at h
        cases h
        refine ⟨x ++ 0x5C :: 0x75 :: y, by simp, fun t s ht => ?_⟩
        have hpair := Chars.pair hx hy hhigh (by omega) hc ht
        simpa using hpair
    · cases h
  case isFalse hhigh =>
    split at h
    · cases h
    · next hlow =>
      have hlt := hx.lt
      obtain ⟨c, hc⟩ := exists_char_of_not_surrogate (n := cp) (by omega) (by omega)
      rw [← hc, utf8_eq] at h
      cases h
      exact ⟨x, rfl, fun t s ht => .unicode (by rwa [hc]) ht⟩

/-- What an escape reads denotes what it gives. -/
theorem escapado_sound {e : Bytes} (h : escapado u = some (e, rest)) :
    ∃ x, u = x ++ rest ∧ ∀ t s, Chars t s → Chars (0x5C :: (x ++ t)) (e ++ s) := by
  cases u with
  | nil => cases h
  | cons c u =>
    have hsimple {v : UInt8} (hc : (c, v) ∈ simpleEscapes) (h : some ([v], u) = some (e, rest)) :
        ∃ x, c :: u = x ++ rest ∧ ∀ t s, Chars t s → Chars (0x5C :: (x ++ t)) (e ++ s) := by
      cases h
      exact ⟨[c], rfl, fun t s ht => .simple hc ht⟩
    rw [escapado] at h
    split_ifs at h with h1 h2 h3 h4 h5 h6 h7 h8 h9
    · exact hsimple (by rw [h1]; decide) h
    · exact hsimple (by rw [h2]; decide) h
    · exact hsimple (by rw [h3]; decide) h
    · exact hsimple (by rw [h4]; decide) h
    · exact hsimple (by rw [h5]; decide) h
    · exact hsimple (by rw [h6]; decide) h
    · exact hsimple (by rw [h7]; decide) h
    · exact hsimple (by rw [h8]; decide) h
    · obtain ⟨x, rfl, hx⟩ := escapeUnicode_sound h
      exact ⟨c :: x, rfl, fun t s ht => by rw [h9]; exact hx t s ht⟩

/-- Escapes are read. -/
theorem escapado_simple {e v : UInt8} (he : (e, v) ∈ simpleEscapes) (rest : Bytes) :
    escapado (e :: rest) = some ([v], rest) := by
  simp only [simpleEscapes, List.mem_cons, Prod.mk.injEq, List.not_mem_nil, or_false] at he
  obtain ⟨rfl, rfl⟩ | ⟨rfl, rfl⟩ | ⟨rfl, rfl⟩ | ⟨rfl, rfl⟩ | ⟨rfl, rfl⟩ | ⟨rfl, rfl⟩ | ⟨rfl, rfl⟩ |
    ⟨rfl, rfl⟩ := he <;> rfl

theorem escapado_unicode {x : Bytes} {c : Char} (hx : Hex4 x c.toNat) (rest : Bytes) :
    escapado (0x75 :: (x ++ rest)) = some (String.utf8EncodeChar c, rest) := by
  have hvalid : c.toNat < 0xD800 ∨ 0xDFFF < c.toNat ∧ c.toNat < 0x110000 := c.valid
  show escapeUnicode (x ++ rest) = _
  rw [escapeUnicode, hex4_iff.2 ⟨x, hx, rfl⟩, Option.bind_eq_bind, Option.bind_some]
  dsimp only
  rw [if_neg (by omega), if_neg (by omega), utf8_eq]
  rfl

theorem escapado_pair {x y : Bytes} {high low : ℕ} {c : Char} (hx : Hex4 x high) (hy : Hex4 y low)
    (hhigh : 0xD800 ≤ high ∧ high ≤ 0xDBFF) (hlow : 0xDC00 ≤ low ∧ low ≤ 0xDFFF)
    (hc : c.toNat = 0x10000 + (high - 0xD800) * 0x400 + (low - 0xDC00)) (rest : Bytes) :
    escapado (0x75 :: (x ++ 0x5C :: 0x75 :: (y ++ rest))) =
      some (String.utf8EncodeChar c, rest) := by
  show escapeUnicode (x ++ 0x5C :: 0x75 :: (y ++ rest)) = _
  rw [escapeUnicode, hex4_iff.2 ⟨x, hx, rfl⟩, Option.bind_eq_bind, Option.bind_some]
  dsimp only
  rw [if_pos hhigh]
  show Option.bind (hex4 (y ++ rest)) _ = _
  rw [hex4_iff.2 ⟨y, hy, rfl⟩, Option.bind_some]
  dsimp only
  rw [if_neg (by omega), ← hc, utf8_eq]
  rfl

/-- The loop reads what is derived. -/
theorem cadenaDesde_complete (h : Chars t s) (rest : Bytes) (hn : t.length < n) :
    cadenaDesde n (t ++ 0x22 :: rest) = some (s, rest) := by
  induction h generalizing n with
  | nil =>
    obtain ⟨n, rfl⟩ : ∃ m, n = m + 1 := ⟨n - 1, by omega⟩
    rw [List.nil_append, cadenaDesde, if_pos rfl]
  | @byte c t s hc h ih =>
    obtain ⟨n, rfl⟩ : ∃ m, n = m + 1 := ⟨n - 1, by omega⟩
    simp only [sucio, Bool.or_eq_false_iff, decide_eq_false_iff_not, beq_eq_false_iff_ne] at hc
    have hread := ih (n := n) (by rw [List.length_cons] at hn; omega)
    rw [List.cons_append, cadenaDesde, if_neg hc.1.2, if_neg hc.1.1, if_pos hc.2, hread]
    rfl
  | @simple e v t s he h ih =>
    obtain ⟨n, rfl⟩ : ∃ m, n = m + 1 := ⟨n - 1, by omega⟩
    have hread := ih (n := n) (by simp only [List.length_cons] at hn; omega)
    rw [List.cons_append, cadenaDesde, if_neg (by decide), if_neg (by decide),
      if_neg (by decide), List.cons_append, escapado_simple he]
    simp [hread]
  | @unicode x t s c hx h ih =>
    obtain ⟨n, rfl⟩ : ∃ m, n = m + 1 := ⟨n - 1, by omega⟩
    have hread := ih (n := n) (by
      simp only [List.length_cons, List.length_append] at hn
      omega)
    rw [List.cons_append, cadenaDesde, if_neg (by decide), if_neg (by decide),
      if_neg (by decide), List.cons_append, List.append_assoc, escapado_unicode hx]
    simp [hread]
  | @pair x y t s high low c hx hy hhigh hlow hc h ih =>
    obtain ⟨n, rfl⟩ : ∃ m, n = m + 1 := ⟨n - 1, by omega⟩
    have hread := ih (n := n) (by
      simp only [List.length_cons, List.length_append] at hn
      omega)
    have hpair := escapado_pair hx hy hhigh hlow hc (t ++ 0x22 :: rest)
    have hassoc : 0x75 :: (x ++ 0x5C :: 0x75 :: (y ++ t)) ++ 0x22 :: rest =
        0x75 :: (x ++ 0x5C :: 0x75 :: (y ++ (t ++ 0x22 :: rest))) := by simp
    rw [List.cons_append, cadenaDesde, if_neg (by decide), if_neg (by decide),
      if_neg (by decide), hassoc, hpair]
    simp [hread]

theorem cadenaDesde_sound (h : cadenaDesde n u = some (s, rest)) :
    ∃ t, u = t ++ 0x22 :: rest ∧ Chars t s := by
  induction n generalizing u s with
  | zero => cases h
  | succ n ih =>
    cases u with
    | nil => cases h
    | cons c u =>
      rw [cadenaDesde] at h
      split_ifs at h with h1 h2 h3
      · cases h
        exact ⟨[], by rw [h1]; rfl, .nil⟩
      · -- a byte as it is
        simp only [Option.bind_eq_bind, Option.bind_eq_some_iff, Option.pure_def,
          Option.some.injEq, Prod.mk.injEq] at h
        obtain ⟨⟨s', r⟩, hread, rfl, rfl⟩ := h
        obtain ⟨t, rfl, ht⟩ := ih hread
        have hc : sucio c = false := by simp [sucio, h1, h2, h3]
        exact ⟨c :: t, rfl, .byte hc ht⟩
      · simp only [Option.bind_eq_bind, Option.bind_eq_some_iff, Option.pure_def,
          Option.some.injEq, Prod.mk.injEq] at h
        obtain ⟨⟨e, r⟩, hesc, ⟨s', r'⟩, hread, rfl, rfl⟩ := h
        obtain ⟨x, rfl, hx⟩ := escapado_sound hesc
        obtain ⟨t, rfl, ht⟩ := ih hread
        have hc : c = 0x5C := not_not.1 h3
        exact ⟨c :: (x ++ t), by simp, by rw [hc]; exact hx t s' ht⟩

/-- Clean bytes denote themselves. -/
theorem Chars.append_clean {a : Bytes} (ha : ∀ b ∈ a, sucio b = false) (h : Chars t s) :
    Chars (a ++ t) (a ++ s) := by
  induction a with
  | nil => exact h
  | cons c a ih =>
    exact .byte (ha c (List.mem_cons_self ..)) (ih fun b hb => ha b (List.mem_cons_of_mem _ hb))

/-- The clean bytes at the front, and then the first escape. -/
theorem Chars.split (h : Chars t s) : ∃ a t' s', t = a ++ t' ∧ s = a ++ s' ∧
    (∀ b ∈ a, sucio b = false) ∧ Chars t' s' ∧ (t' = [] ∨ t'.head? = some 0x5C) := by
  induction h with
  | nil => exact ⟨[], [], [], rfl, rfl, nofun, .nil, .inl rfl⟩
  | @byte c t s hc h ih =>
    obtain ⟨a, t', s', rfl, rfl, ha, h', hhead⟩ := ih
    refine ⟨c :: a, t', s', rfl, rfl, ?_, h', hhead⟩
    rintro b (_ | ⟨_, hb⟩)
    · exact hc
    · exact ha b hb
  | simple he h => exact ⟨[], _, _, rfl, rfl, nofun, .simple he h, .inr rfl⟩
  | unicode hx h => exact ⟨[], _, _, rfl, rfl, nofun, .unicode hx h, .inr rfl⟩
  | pair hx hy hhigh hlow hc h =>
    exact ⟨[], _, _, rfl, rfl, nofun, .pair hx hy hhigh hlow hc h, .inr rfl⟩

/-- A string is read exactly if it is derived. -/
theorem cadena_iff : cadena u = some (s, rest) ↔ ∃ t, u = t ++ 0x22 :: rest ∧ Chars t s := by
  constructor
  · intro h
    have hclean : ∀ b ∈ u.takeWhile (fun c => !sucio c), sucio b = false := fun b hb => by
      simpa using List.mem_takeWhile_imp hb
    have hsplit := List.takeWhile_append_dropWhile (p := fun c => !sucio c) (l := u)
    rw [cadena] at h
    dsimp only at h
    generalize u.takeWhile (fun c => !sucio c) = a at *
    generalize u.dropWhile (fun c => !sucio c) = d at *
    subst hsplit
    split at h
    · cases h
    · next c d =>
      split_ifs at h with h1 h2
      · cases h
        exact ⟨s, by rw [h1], by simpa using Chars.nil.append_clean hclean⟩
      · simp only [Option.bind_eq_bind, Option.bind_eq_some_iff, Option.pure_def,
          Option.some.injEq, Prod.mk.injEq] at h
        obtain ⟨⟨s', r⟩, hread, rfl, rfl⟩ := h
        obtain ⟨t, ht, hchars⟩ := cadenaDesde_sound hread
        exact ⟨a ++ t, by rw [ht, List.append_assoc], hchars.append_clean hclean⟩
  · rintro ⟨t, rfl, h⟩
    obtain ⟨a, t', s', rfl, rfl, ha, h', hhead⟩ := h.split
    have hpos : ∀ b ∈ a, (!sucio b) = true := fun b hb => by rw [ha b hb]; rfl
    rw [cadena, List.append_assoc, List.takeWhile_append_of_pos hpos,
      List.dropWhile_append_of_pos hpos]
    obtain rfl | hhead := hhead
    · cases h'
      rw [List.nil_append, List.takeWhile_cons_of_neg (by decide),
        List.dropWhile_cons_of_neg (by decide)]
      rfl
    · obtain ⟨t', rfl⟩ : ∃ t'', t' = 0x5C :: t'' := by
        cases t' with
        | nil => cases hhead
        | cons c t' => exact ⟨t', by rw [Option.some.inj hhead]⟩
      have hread := cadenaDesde_complete h' rest
        (n := (t' ++ 0x22 :: rest).length + 2) (by
          simp only [List.length_cons, List.length_append]
          omega)
      rw [List.cons_append] at hread ⊢
      rw [List.takeWhile_cons_of_neg (by decide), List.dropWhile_cons_of_neg (by decide)]
      dsimp only
      rw [if_neg (by decide), if_pos rfl, hread, List.append_nil]
      rfl

end Strings

/-! ## Numbers -/

section Numbers

variable {s ds rest entera fraccion exponente : Bytes} {C : Charconv}
  {real : Bytes → Double → Prop} {v : Value}

theorem digitosDe_sound (h : digitosDe s = some (ds, rest)) : Digitos ds ∧ s = ds ++ rest := by
  rw [digitosDe] at h
  split at h
  · cases h
  · next hne =>
    cases h
    refine ⟨⟨fun e => hne (by rw [e]; rfl), fun d hd => List.mem_takeWhile_imp hd⟩, ?_⟩
    exact (List.takeWhile_append_dropWhile (p := digito)).symm

theorem signoDe_sound (s : Bytes) : ((signoDe s).1 = [] ∨ (signoDe s).1 = [0x2D]) ∧
    s = (signoDe s).1 ++ (signoDe s).2 := by
  rw [signoDe.eq_def]
  split
  · exact ⟨.inr rfl, rfl⟩
  · exact ⟨.inl rfl, rfl⟩

theorem enteraDe_sound (h : enteraDe s = some (entera, rest)) :
    (entera = [0x30] ∨ Digitos entera ∧ entera.head? ≠ some 0x30) ∧ s = entera ++ rest := by
  cases s with
  | nil => cases h
  | cons c s =>
    rw [enteraDe] at h
    split_ifs at h with h0 h1
    · cases h
      exact ⟨.inl rfl, by rw [h0]; rfl⟩
    · obtain ⟨hd, hs⟩ := digitosDe_sound h
      refine ⟨.inr ⟨hd, ?_⟩, hs⟩
      obtain ⟨d, ds, rfl, -⟩ := hd.head
      intro e
      exact h0 ((List.cons.inj hs).1.trans (Option.some.inj e))

theorem fraccionDe_sound (h : fraccionDe s = some (fraccion, rest)) :
    (fraccion = [] ∨ ∃ ds, Digitos ds ∧ fraccion = 0x2E :: ds) ∧ s = fraccion ++ rest := by
  rw [fraccionDe.eq_def] at h
  split at h
  · simp only [Option.bind_eq_bind, Option.bind_eq_some_iff, Option.pure_def,
      Option.some.injEq, Prod.mk.injEq] at h
    obtain ⟨⟨ds, r⟩, hread, rfl, rfl⟩ := h
    obtain ⟨hd, rfl⟩ := digitosDe_sound hread
    exact ⟨.inr ⟨ds, hd, rfl⟩, rfl⟩
  · cases h
    exact ⟨.inl rfl, rfl⟩

theorem signoExponente_sound (s : Bytes) :
    ((signoExponente s).1 = [] ∨ (signoExponente s).1 = [0x2B] ∨
      (signoExponente s).1 = [0x2D]) ∧ s = (signoExponente s).1 ++ (signoExponente s).2 := by
  rw [signoExponente.eq_def]
  split
  · split
    · next h => exact ⟨.inr (h.imp (by rintro rfl; rfl) (by rintro rfl; rfl)), rfl⟩
    · exact ⟨.inl rfl, rfl⟩
  · exact ⟨.inl rfl, rfl⟩

theorem exponenteDe_sound (h : exponenteDe s = some (exponente, rest)) :
    (exponente = [] ∨ ∃ e sgn ds, (e = 0x65 ∨ e = 0x45) ∧
      (sgn = [] ∨ sgn = [0x2B] ∨ sgn = [0x2D]) ∧ Digitos ds ∧ exponente = e :: (sgn ++ ds)) ∧
        s = exponente ++ rest := by
  cases s with
  | nil =>
    cases h
    exact ⟨.inl rfl, rfl⟩
  | cons c s =>
    rw [exponenteDe] at h
    split at h
    case isTrue hc =>
      simp only [Option.bind_eq_bind, Option.bind_eq_some_iff, Option.pure_def,
        Option.some.injEq, Prod.mk.injEq] at h
      obtain ⟨⟨ds, r⟩, hread, rfl, rfl⟩ := h
      obtain ⟨hd, hs⟩ := digitosDe_sound hread
      obtain ⟨hsign, hsplit⟩ := signoExponente_sound s
      refine ⟨.inr ⟨c, _, ds, hc, hsign, hd, rfl⟩, ?_⟩
      conv_lhs => rw [hsplit, hs]
      simp
    case isFalse =>
      cases h
      exact ⟨.inl rfl, rfl⟩

/-- What is taken for a number is one. -/
theorem textoDe_sound {t : Bytes} {b : Bool} (h : textoDe s = some ((t, b), rest)) :
    ∃ signo entera fraccion exponente, NumberParts signo entera fraccion exponente ∧
      t = signo ++ entera ++ fraccion ++ exponente ∧
        b = (!fraccion.isEmpty || !exponente.isEmpty) ∧ s = t ++ rest := by
  simp only [textoDe, Option.bind_eq_bind, Option.bind_eq_some_iff, Option.pure_def,
    Option.some.injEq, Prod.mk.injEq] at h
  obtain ⟨⟨entera, s1⟩, hentera, ⟨fraccion, s2⟩, hfraccion, ⟨exponente, s3⟩, hexponente,
    ⟨rfl, rfl⟩, rfl⟩ := h
  obtain ⟨hsigno, hs⟩ := signoDe_sound s
  obtain ⟨hentera, hs1⟩ := enteraDe_sound hentera
  obtain ⟨hfraccion, hs2⟩ := fraccionDe_sound hfraccion
  obtain ⟨hexponente, hs3⟩ := exponenteDe_sound hexponente
  refine ⟨_, _, _, _, ⟨hsigno, hentera, hfraccion, hexponente⟩, rfl, rfl, ?_⟩
  dsimp only at hs1 hs2 hs3
  conv_lhs => rw [hs, hs1, hs2, hs3]
  simp

theorem NumberParts.digitos {signo : Bytes} (h : NumberParts signo entera fraccion exponente) :
    Digitos entera := by
  obtain rfl | ⟨hd, -⟩ := h.entera
  · exact .single (by decide)
  · exact hd

/-- An integer is read exactly if it fits. -/
theorem fromCharsInt_parts {signo : Bytes} (h : NumberParts signo entera [] []) :
    fromCharsInt (signo ++ entera) =
      if -2 ^ 63 ≤ integerOf signo entera ∧ integerOf signo entera < 2 ^ 63 then
        some (Int64.ofInt (integerOf signo entera))
      else none := by
  have hall : entera.all digito = true := List.all_eq_true.2 h.digitos.2
  have hsign : ∀ c ∈ entera.head?, c ≠ 0x2D := by
    obtain ⟨d, ds, rfl, hdig⟩ := h.digitos.head
    rintro c ⟨⟩ rfl
    exact absurd hdig (by decide)
  rw [fromCharsInt, signoDe_append h.signo hsign]
  dsimp only
  rw [hall, List.isEmpty_eq_false_iff.2 h.digitos.1, if_neg (by decide)]
  obtain rfl | rfl := h.signo <;> rfl

/-- What is read off as a number denotes its value. -/
theorem numeroDe_denotes (hC : ∀ t, NumberText t → ∀ d, C.fromChars t = some d ↔ real t d)
    {signo : Bytes} (h : NumberParts signo entera fraccion exponente) :
    numeroDe C (signo ++ entera ++ fraccion ++ exponente)
      (!fraccion.isEmpty || !exponente.isEmpty) = some v ↔
        NumberDenotes real (signo ++ entera ++ fraccion ++ exponente) v := by
  have hreal := hC _ ⟨_, _, _, _, h, rfl⟩
  constructor
  · intro hv
    rw [numeroDe] at hv
    split at hv
    · next n hn =>
      cases hv
      split at hn
      · cases hn
      next hmark =>
      simp only [Bool.or_eq_true, Bool.not_eq_true', not_or, Bool.not_eq_false,
        List.isEmpty_iff] at hmark
      obtain ⟨rfl, rfl⟩ := hmark
      rw [List.append_nil, List.append_nil, fromCharsInt_parts h] at hn
      rw [List.append_nil, List.append_nil]
      split at hn
      · next hfits =>
        cases hn
        exact .int h hfits
      · cases hn
    · next hn =>
      obtain ⟨d, hd, rfl⟩ := Option.map_eq_some_iff.1 hv
      refine .float h ?_ ((hreal d).1 hd)
      rintro rfl rfl hfits
      rw [if_neg (by decide), List.append_nil, List.append_nil, fromCharsInt_parts h,
        if_pos hfits] at hn
      cases hn
  · intro hv
    generalize ht : signo ++ entera ++ fraccion ++ exponente = t at hv hreal
    cases hv with
    | @int signo' entera' h' hfits =>
      have h0 : signo' ++ entera' = signo' ++ entera' ++ [] ++ [] := by simp
      obtain ⟨rfl, rfl, rfl, rfl⟩ := h.inj h' (ht.trans h0)
      rw [numeroDe, if_neg (by decide), fromCharsInt_parts h, if_pos hfits]
    | @float signo' entera' fraccion' exponente' d h' hreal' hd =>
      obtain ⟨rfl, rfl, rfl, rfl⟩ := h.inj h' ht
      rw [numeroDe, (hreal d).2 hd]
      split
      · next n hn =>
        split at hn
        · cases hn
        next hmark =>
        simp only [Bool.or_eq_true, Bool.not_eq_true', not_or, Bool.not_eq_false,
          List.isEmpty_iff] at hmark
        obtain ⟨rfl, rfl⟩ := hmark
        rw [List.append_nil, List.append_nil, fromCharsInt_parts h,
          if_neg (hreal' rfl rfl)] at hn
        cases hn
      · rfl

theorem numero_sound (hC : ∀ t, NumberText t → ∀ d, C.fromChars t = some d ↔ real t d)
    (h : numero C s = some (v, rest)) : ∃ t, s = t ++ rest ∧ NumberDenotes real t v := by
  rw [numero] at h
  simp only [Option.bind_eq_bind, Option.bind_eq_some_iff, Option.pure_def,
    Option.some.injEq, Prod.mk.injEq] at h
  obtain ⟨⟨⟨t, b⟩, r⟩, htext, v', hv, rfl, rfl⟩ := h
  obtain ⟨signo, entera, fraccion, exponente, hparts, rfl, rfl, rfl⟩ := textoDe_sound htext
  exact ⟨_, rfl, (numeroDe_denotes hC hparts).1 hv⟩

theorem numero_complete (hC : ∀ t, NumberText t → ∀ d, C.fromChars t = some d ↔ real t d)
    {t : Bytes} (h : NumberDenotes real t v) (hr : Ends rest) :
    numero C (t ++ rest) = some (v, rest) := by
  have hparts {signo entera fraccion exponente : Bytes}
      (hp : NumberParts signo entera fraccion exponente)
      (h : NumberDenotes real (signo ++ entera ++ fraccion ++ exponente) v) :
      numero C (signo ++ entera ++ fraccion ++ exponente ++ rest) = some (v, rest) := by
    rw [numero, textoDe_append hp hr, Option.bind_eq_bind, Option.bind_some]
    dsimp only
    rw [(numeroDe_denotes hC hp).2 h]
    rfl
  have hcopy := h
  cases h with
  | int hp hfits =>
    have := hparts hp (by simpa using hcopy)
    simpa using this
  | float hp hreal hd => exact hparts hp hcopy

end Numbers

/-! ## Containers -/

/-- The reader reads what the relation derives, and nothing else. -/
structure Derives (valor : Reader Value) (value : Bytes → Value → Prop) : Prop where
  sound : ∀ {s v rest}, valor s = some (v, rest) → ∃ t, s = t ++ rest ∧ value t v
  complete : ∀ {t v rest}, value t v → Ends rest → valor (t ++ rest) = some (v, rest)
  begins : ∀ {t v}, value t v → Begins t

section Containers

variable {valor : Reader Value} {value : Bytes → Value → Prop} {s t a rest : Bytes} {n : ℕ}
  {v : Value} {vs : List Value} {e : Bytes × Value} {d d' es : List (Bytes × Value)}

theorem Ws.append {b : Bytes} (ha : Ws a) (hb : Ws b) : Ws (a ++ b) := fun c hc =>
  (List.mem_append.1 hc).elim (ha c) (hb c)

theorem ends_cons {c : UInt8} (h : digito c = false ∧ c ≠ 0x2E ∧ c ≠ 0x65 ∧ c ≠ 0x45)
    (rest : Bytes) : Ends (c :: rest) := by
  rintro c' ⟨⟩
  exact h

/-! ### Lists -/

theorem Items.ws (ha : Ws a) (h : Items value t vs) : Items value (a ++ t) vs := by
  cases h with
  | one ha' h hb =>
    rw [← List.append_assoc, ← List.append_assoc]
    exact .one (ha.append ha') h hb
  | cons ha' h hb hs =>
    rw [← List.append_assoc, ← List.append_assoc, ← List.append_assoc]
    exact .cons (ha.append ha') h hb hs

/-- Behind the blanks, a list begins as its first value does. -/
theorem Items.trim (hd : Derives valor value) (h : Items value t vs) :
    ∃ a t', Ws a ∧ t = a ++ t' ∧ Begins t' ∧ Items value t' vs := by
  cases h with
  | @one a u b v ha h hb =>
    refine ⟨a, u ++ b, ha, List.append_assoc _ _ _, (hd.begins h).append _, ?_⟩
    exact Items.one ws_nil h hb
  | @cons a u b ts v vs ha h hb hs =>
    refine ⟨a, u ++ b ++ 0x2C :: ts, ha, by simp, ?_, ?_⟩
    · rw [List.append_assoc]
      exact (hd.begins h).append _
    · exact Items.cons ws_nil h hb hs

theorem Items.length_le (hd : Derives valor value) (h : Items value t vs) :
    vs.length ≤ t.length := by
  induction h with
  | one ha h hb =>
    obtain ⟨c, u, rfl, -⟩ := hd.begins h
    simp only [List.length_append, List.length_cons, List.length_nil]
    omega
  | cons ha h hb hs ih =>
    simp only [List.length_append, List.length_cons]
    omega

theorem elementos_sound (hd : Derives valor value) (h : elementos valor n s = some (vs, rest)) :
    ∃ t, s = t ++ 0x5D :: rest ∧ Items value t vs := by
  induction n generalizing s vs with
  | zero => cases h
  | succ n ih =>
    rw [elementos, Option.bind_eq_bind, Option.bind_eq_some_iff] at h
    obtain ⟨⟨v, s1⟩, hread, h⟩ := h
    obtain ⟨a, ha, hs⟩ := exists_ws s
    obtain ⟨b, hb, hs1⟩ := exists_ws s1
    obtain ⟨u, hu, hv⟩ := hd.sound hread
    rw [hu] at hs
    dsimp only at h
    split at h
    · next s2 heq =>
      simp only [Option.bind_eq_bind, Option.bind_eq_some_iff, Option.pure_def,
        Option.some.injEq, Prod.mk.injEq] at h
      obtain ⟨⟨ws, r⟩, hrest, rfl, rfl⟩ := h
      obtain ⟨ts, rfl, hitems⟩ := ih hrest
      rw [heq] at hs1
      exact ⟨a ++ u ++ b ++ 0x2C :: ts, by rw [hs, hs1]; simp, .cons ha hv hb hitems⟩
    · next s2 heq =>
      cases h
      rw [heq] at hs1
      exact ⟨a ++ u ++ b, by rw [hs, hs1]; simp, .one ha hv hb⟩
    · cases h

theorem elementos_complete (hd : Derives valor value) (h : Items value t vs)
    (hn : vs.length ≤ n) (rest : Bytes) :
    elementos valor n (t ++ 0x5D :: rest) = some (vs, rest) := by
  -- one value, whatever closes or continues the list
  have hread {a u b s : Bytes} {c : UInt8} {v : Value} (ha : Ws a) (h : value u v) (hb : Ws b)
      (hc : espacio c = false ∧ digito c = false ∧ c ≠ 0x2E ∧ c ≠ 0x65 ∧ c ≠ 0x45) :
      valor (espacios (a ++ u ++ b ++ c :: s)) = some (v, b ++ c :: s) ∧
        espacios (b ++ c :: s) = c :: s := by
    refine ⟨?_, ?_⟩
    · rw [List.append_assoc, List.append_assoc, espacios_append ha,
        ((hd.begins h).append _).espacios]
      exact hd.complete h (.ws hb (ends_cons hc.2 s))
    · rw [espacios_append hb, espacios_cons hc.1]
  induction h generalizing n with
  | one ha h hb =>
    obtain ⟨n, rfl⟩ : ∃ m, n = m + 1 := ⟨n - 1, by rw [List.length_singleton] at hn; omega⟩
    obtain ⟨hvalue, hblank⟩ := hread (c := 0x5D) (s := rest) ha h hb (by decide)
    rw [elementos, hvalue, Option.bind_eq_bind, Option.bind_some]
    dsimp only
    rw [hblank]
    rfl
  | @cons a u b ts v vs ha h hb hs ih =>
    obtain ⟨n, rfl⟩ : ∃ m, n = m + 1 := ⟨n - 1, by rw [List.length_cons] at hn; omega⟩
    obtain ⟨hvalue, hblank⟩ :=
      hread (c := 0x2C) (s := ts ++ 0x5D :: rest) ha h hb (by decide)
    have hrest := ih (n := n) (Nat.le_of_succ_le_succ hn)
    rw [List.append_assoc, List.cons_append, elementos, hvalue, Option.bind_eq_bind,
      Option.bind_some]
    dsimp only
    rw [hblank]
    show Option.bind (elementos valor n (ts ++ 0x5D :: rest)) _ = _
    rw [hrest]
    rfl

/-- A list is derived behind its bracket. -/
theorem lista_sound {real : Bytes → Double → Prop} (hd : Derives valor value)
    (h : lista valor s = some (v, rest)) :
    ∃ t, s = t ++ rest ∧ Level value real (0x5B :: t) v := by
  obtain ⟨a, ha, hs⟩ := exists_ws s
  rw [lista] at h
  split at h
  · next s1 heq =>
    cases h
    rw [heq] at hs
    exact ⟨a ++ [0x5D], by rw [hs]; simp, .nil ha⟩
  · simp only [Option.bind_eq_bind, Option.bind_eq_some_iff, Option.pure_def,
      Option.some.injEq, Prod.mk.injEq] at h
    obtain ⟨⟨vs, r⟩, hread, rfl, rfl⟩ := h
    obtain ⟨t, ht, hitems⟩ := elementos_sound hd hread
    rw [ht] at hs
    refine ⟨a ++ t ++ [0x5D], by rw [hs]; simp, .list (hitems.ws ha)⟩

theorem lista_nil (ha : Ws a) (rest : Bytes) :
    lista valor (a ++ [0x5D] ++ rest) = some (.list [], rest) := by
  rw [List.append_assoc, lista, espacios_append ha]
  rfl

theorem lista_complete (hd : Derives valor value) (h : Items value t vs) (rest : Bytes) :
    lista valor (t ++ [0x5D] ++ rest) = some (.list vs, rest) := by
  obtain ⟨a, t, ha, rfl, hbegins, hitems⟩ := h.trim hd
  have hread := elementos_complete hd hitems
    (n := (t ++ 0x5D :: rest).length + 1) (by
      have := hitems.length_le hd
      rw [List.length_append]
      omega) rest
  rw [List.append_assoc, List.append_assoc, List.singleton_append, lista, espacios_append ha,
    (hbegins.append _).espacios]
  obtain ⟨c, t, rfl, -, hc, -⟩ := hbegins
  rw [List.cons_append] at hread ⊢
  split
  · next heq => exact absurd (List.cons.inj heq).1 hc
  · rw [hread]
    rfl

/-! ### Dictionaries -/

theorem Pair.ws_right (h : Pair value t e) (ha : Ws a) : Pair value (t ++ a) e := by
  cases h with
  | @mk a' t' b c u d k v ha' hk hb hc h hd =>
    have hpair := Pair.mk ha' hk hb hc h (hd.append ha)
    simpa using hpair

theorem Pair.trim (h : Pair value t e) :
    ∃ a t', Ws a ∧ t = a ++ 0x22 :: t' ∧ Pair value (0x22 :: t') e := by
  cases h with
  | @mk a t b c u d k v ha hk hb hc h hd =>
    exact ⟨a, _, ha, rfl, Pair.mk ws_nil hk hb hc h hd⟩

theorem Pair.ws_left (h : Pair value t e) (ha : Ws a) : Pair value (a ++ t) e := by
  cases h with
  | @mk a' t' b c u d k v ha' hk hb hc h hd =>
    rw [← List.append_assoc]
    exact .mk (ha.append ha') hk hb hc h hd

/-- Behind the blanks, an object begins with a quote. -/
theorem Entries.trim (h : Entries value t es) :
    ∃ a t', Ws a ∧ t = a ++ 0x22 :: t' ∧ Entries value (0x22 :: t') es := by
  cases h with
  | one h =>
    obtain ⟨a, t', ha, rfl, hpair⟩ := h.trim
    exact ⟨a, t', ha, rfl, .one hpair⟩
  | cons h hs =>
    obtain ⟨a, t', ha, rfl, hpair⟩ := h.trim
    refine ⟨a, t' ++ _, ha, ?_, .cons hpair hs⟩
    rw [List.append_assoc, List.cons_append]

theorem par_sound (hd : Derives valor value) (h : par valor s = some (e, rest)) :
    ∃ t, s = t ++ rest ∧ Pair value t e := by
  obtain ⟨a, ha, hs⟩ := exists_ws s
  rw [par] at h
  split at h
  · next s1 heq =>
    rw [Option.bind_eq_bind, Option.bind_eq_some_iff] at h
    obtain ⟨⟨k, s2⟩, hkey, h⟩ := h
    obtain ⟨t, rfl, hchars⟩ := cadena_iff.1 hkey
    obtain ⟨b, hb, hs2⟩ := exists_ws s2
    dsimp only at h
    split at h
    · next s3 heq' =>
      simp only [Option.bind_eq_bind, Option.bind_eq_some_iff, Option.pure_def,
        Option.some.injEq, Prod.mk.injEq] at h
      obtain ⟨⟨v, r⟩, hread, rfl, rfl⟩ := h
      obtain ⟨c, hc, hs3⟩ := exists_ws s3
      obtain ⟨u, hu, hv⟩ := hd.sound hread
      refine ⟨_, ?_, .mk ha hchars hb hc hv ws_nil⟩
      rw [hs, heq, hs2, heq', hs3, hu]
      simp
    · cases h
  · cases h

theorem par_complete (hd : Derives valor value) (h : Pair value t e) (hr : Ends rest) :
    ∃ a, Ws a ∧ par valor (t ++ rest) = some (e, a ++ rest) := by
  cases h with
  | @mk a t b c u d k v ha hk hb hc h hd' =>
    refine ⟨d, hd', ?_⟩
    have hkey : cadena (t ++ 0x22 :: (b ++ 0x3A :: (c ++ u ++ d) ++ rest)) = some (k, _) :=
      cadena_iff.2 ⟨t, rfl, hk⟩
    have hvalue : valor (espacios (c ++ u ++ d ++ rest)) = some (v, d ++ rest) := by
      rw [List.append_assoc, List.append_assoc, espacios_append hc,
        ((hd.begins h).append _).espacios]
      exact hd.complete h (.ws hd' hr)
    rw [List.append_assoc, List.cons_append, List.append_assoc, List.cons_append, par,
      espacios_append ha, espacios_cons (by decide)]
    show Option.bind (cadena (t ++ 0x22 :: (b ++ 0x3A :: (c ++ u ++ d) ++ rest))) _ = _
    rw [hkey, Option.bind_some, List.append_assoc, List.cons_append]
    dsimp only
    rw [espacios_append hb, espacios_cons (by decide)]
    show Option.bind (valor (espacios (c ++ u ++ d ++ rest))) _ = _
    rw [hvalue]
    rfl

theorem pares_sound (hd : Derives valor value) (h : pares valor n d s = some (d', rest)) :
    ∃ t es, s = t ++ 0x7D :: rest ∧ Entries value t es ∧
      d' = es.foldl (fun d e => setKey e.1 e.2 d) d := by
  induction n generalizing s d with
  | zero => cases h
  | succ n ih =>
    rw [pares, Option.bind_eq_bind, Option.bind_eq_some_iff] at h
    obtain ⟨⟨e, s1⟩, hread, h⟩ := h
    obtain ⟨t, rfl, hpair⟩ := par_sound hd hread
    obtain ⟨b, hb, hs1⟩ := exists_ws s1
    dsimp only at h
    split at h
    · next s2 heq =>
      obtain ⟨ts, es, rfl, hentries, rfl⟩ := ih h
      rw [heq] at hs1
      exact ⟨t ++ b ++ 0x2C :: ts, e :: es, by rw [hs1]; simp,
        .cons (hpair.ws_right hb) hentries, rfl⟩
    · next s2 heq =>
      cases h
      rw [heq] at hs1
      exact ⟨t ++ b, [e], by rw [hs1]; simp, .one (hpair.ws_right hb), rfl⟩
    · cases h

theorem Entries.length_le (h : Entries value t es) : es.length ≤ t.length := by
  induction h with
  | one h =>
    obtain ⟨a, t, -, rfl, -⟩ := h.trim
    simp only [List.length_append, List.length_cons, List.length_nil]
    omega
  | cons h hs ih =>
    simp only [List.length_append, List.length_cons]
    omega

theorem pares_complete (hd : Derives valor value) (h : Entries value t es)
    (hn : es.length ≤ n) (rest : Bytes) :
    pares valor n d (t ++ 0x7D :: rest) =
      some (es.foldl (fun d e => setKey e.1 e.2 d) d, rest) := by
  induction h generalizing n d with
  | @one t e h =>
    obtain ⟨n, rfl⟩ : ∃ m, n = m + 1 := ⟨n - 1, by rw [List.length_singleton] at hn; omega⟩
    obtain ⟨a, ha, hread⟩ := par_complete hd h (ends_cons (c := 0x7D) (by decide) rest)
    rw [pares, hread, Option.bind_eq_bind, Option.bind_some]
    dsimp only
    rw [espacios_append ha, espacios_cons (by decide)]
    rfl
  | @cons t ts e es h hs ih =>
    obtain ⟨n, rfl⟩ : ∃ m, n = m + 1 := ⟨n - 1, by rw [List.length_cons] at hn; omega⟩
    obtain ⟨a, ha, hread⟩ :=
      par_complete hd h (ends_cons (c := 0x2C) (by decide) (ts ++ 0x7D :: rest))
    rw [List.append_assoc, List.cons_append, pares, hread, Option.bind_eq_bind,
      Option.bind_some]
    dsimp only
    rw [espacios_append ha, espacios_cons (by decide)]
    exact ih (Nat.le_of_succ_le_succ hn)

/-- A dictionary is derived behind its brace. -/
theorem objeto_sound {real : Bytes → Double → Prop} (hd : Derives valor value)
    (h : objeto valor s = some (v, rest)) :
    ∃ t, s = t ++ rest ∧ Level value real (0x7B :: t) v := by
  obtain ⟨a, ha, hs⟩ := exists_ws s
  rw [objeto] at h
  split at h
  · next s1 heq =>
    cases h
    rw [heq] at hs
    exact ⟨a ++ [0x7D], by rw [hs]; simp, .empty ha⟩
  · simp only [Option.bind_eq_bind, Option.bind_eq_some_iff, Option.pure_def,
      Option.some.injEq, Prod.mk.injEq] at h
    obtain ⟨⟨d, r⟩, hread, rfl, rfl⟩ := h
    obtain ⟨t, es, ht, hentries, rfl⟩ := pares_sound hd hread
    rw [ht] at hs
    refine ⟨a ++ t ++ [0x7D], by rw [hs]; simp, .dict ?_⟩
    cases hentries with
    | one h => exact .one (h.ws_left ha)
    | cons h htail =>
      rw [← List.append_assoc]
      exact .cons (h.ws_left ha) htail

theorem objeto_nil (ha : Ws a) (rest : Bytes) :
    objeto valor (a ++ [0x7D] ++ rest) = some (.dict [], rest) := by
  rw [List.append_assoc, objeto, espacios_append ha]
  rfl

theorem objeto_complete (hd : Derives valor value) (h : Entries value t es) (rest : Bytes) :
    objeto valor (t ++ [0x7D] ++ rest) = some (.dict (dictOf es), rest) := by
  obtain ⟨a, t, ha, rfl, hentries⟩ := h.trim
  have hread := pares_complete (d := []) hd hentries
    (n := (0x22 :: t ++ 0x7D :: rest).length + 1) (by
      have := hentries.length_le
      rw [List.length_append]
      omega) rest
  rw [List.append_assoc, List.append_assoc, List.singleton_append, objeto, espacios_append ha,
    List.cons_append, espacios_cons (by decide)]
  show Option.bind (pares valor _ [] (0x22 :: (t ++ 0x7D :: rest))) _ = _
  rw [List.cons_append] at hread
  rw [hread]
  rfl

end Containers

/-! ## Values -/

section Values

variable {C : Charconv} {real : Bytes → Double → Prop} {value : Bytes → Value → Prop}
  {s t rest : Bytes} {n : ℕ} {v w : Value}

theorem literal_sound {lit : String} (h : literal lit v s = some (w, rest)) :
    w = v ∧ s = ascii lit ++ rest := by
  rw [literal] at h
  split at h
  · next hpre =>
    cases h
    obtain ⟨r, rfl⟩ := List.isPrefixOf_iff_prefix.1 hpre
    rw [List.drop_left]
    exact ⟨rfl, rfl⟩
  · cases h

/-- What a value reads is derived, if what its parts read is. -/
theorem valor_sound (hC : ∀ t, NumberText t → ∀ d, C.fromChars t = some d ↔ real t d)
    (hd : Derives (valor C n) value) (h : valor C (n + 1) s = some (v, rest)) :
    ∃ t, s = t ++ rest ∧ Level value real t v := by
  cases s with
  | nil => cases h
  | cons c s =>
    rw [valor] at h
    split_ifs at h with h1 h2 h3 h4 h5 h6
    · obtain ⟨rfl, hs⟩ := literal_sound h
      exact ⟨_, hs, .null⟩
    · obtain ⟨rfl, hs⟩ := literal_sound h
      exact ⟨_, hs, .true⟩
    · obtain ⟨rfl, hs⟩ := literal_sound h
      exact ⟨_, hs, .false⟩
    · simp only [Option.bind_eq_bind, Option.bind_eq_some_iff, Option.pure_def,
        Option.some.injEq, Prod.mk.injEq] at h
      obtain ⟨⟨u, r⟩, hread, rfl, rfl⟩ := h
      obtain ⟨t, rfl, hchars⟩ := cadena_iff.1 hread
      exact ⟨0x22 :: (t ++ [0x22]), by rw [h4]; simp, .str hchars⟩
    · obtain ⟨t, rfl, hlevel⟩ := lista_sound hd h
      exact ⟨c :: t, rfl, by rw [h5]; exact hlevel⟩
    · obtain ⟨t, rfl, hlevel⟩ := objeto_sound hd h
      exact ⟨c :: t, rfl, by rw [h6]; exact hlevel⟩
    · obtain ⟨t, hs, hnumber⟩ := numero_sound hC h
      exact ⟨t, hs, .number hnumber⟩

/-- What is derived is read, if its parts are. -/
theorem valor_complete (hC : ∀ t, NumberText t → ∀ d, C.fromChars t = some d ↔ real t d)
    (hd : Derives (valor C n) value) (h : Level value real t v) (hr : Ends rest) :
    valor C (n + 1) (t ++ rest) = some (v, rest) := by
  cases h with
  | null => exact literal_append "null" _ rest
  | true => exact literal_append "true" _ rest
  | false => exact literal_append "false" _ rest
  | number h => exact (valor_number h.text rest).trans (numero_complete hC h hr)
  | @str t s h =>
    have hread : cadena (t ++ [0x22] ++ rest) = some (s, rest) :=
      cadena_iff.2 ⟨t, by simp, h⟩
    show Option.bind (cadena (t ++ [0x22] ++ rest)) _ = _
    rw [hread]
    rfl
  | nil ha => exact lista_nil ha rest
  | list h => exact lista_complete hd h rest
  | empty ha => exact objeto_nil ha rest
  | dict h => exact objeto_complete hd h rest

/-- The parser and the grammar agree at every depth. -/
theorem valor_derives (hC : ∀ t, NumberText t → ∀ d, C.fromChars t = some d ↔ real t d)
    (n : ℕ) : Derives (valor C (n + 1)) (Denotes real n) := by
  induction n with
  | zero =>
    -- below the last level nothing is read
    have hnone : Derives (valor C 0) fun _ _ => False :=
      ⟨fun h => (Option.some_ne_none _ h.symm).elim, False.elim, False.elim⟩
    exact ⟨valor_sound hC hnone, valor_complete hC hnone, Level.begins⟩
  | succ n ih => exact ⟨valor_sound hC ih, valor_complete hC ih, Level.begins⟩

end Values

/-! ## Documents -/

/-- The whole text is a document, nested as deep as the parser goes. -/
theorem parseJson_eq_some {C : Charconv} {real : Bytes → Double → Prop}
    (hC : ∀ t, NumberText t → ∀ d, C.fromChars t = some d ↔ real t d) (texto : Bytes)
    (v : Value) : parseJson C texto = some v ↔ Document real kMaxProfundidad texto v := by
  have hd := valor_derives hC kMaxProfundidad
  constructor
  · intro h
    rw [parseJson] at h
    split at h
    · next w s hread =>
      split at h
      · next hend =>
        cases h
        obtain ⟨t, ht, hden⟩ := hd.sound hread
        obtain ⟨a, ha, htexto⟩ := exists_ws texto
        rw [htexto, ht, ← List.append_assoc]
        exact .mk ha hden (ws_of_espacios (List.isEmpty_iff.1 hend))
      · cases h
    · cases h
  · rintro ⟨ha, h, hb⟩
    have hends := Ends.ws hb (s := []) (by rintro c ⟨⟩)
    rw [List.append_nil] at hends
    rw [List.append_assoc, parseJson, espacios_append ha, ((hd.begins h).append _).espacios,
      hd.complete h hends]
    dsimp only
    rw [espacios_ws hb]
    rfl

end Osodio.Json
