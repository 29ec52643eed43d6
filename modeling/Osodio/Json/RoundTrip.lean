import Osodio.Json.Parser
import Mathlib.Tactic.SplitIfs
import Mathlib.Data.Nat.Digits.Lemmas

/-!
# What is written can be read

Every value that JSON can carry is read back from its text as it was: the same
tree, with the same types and the keys in the same order.

## Main definitions

- `NumberText` — the numbers of JSON
- `Charconv.Inverse` — what is known of `to_chars` and `from_chars`
- `Value.Writable`, `Value.nesting` — the values that JSON can carry

## Main results

- `cadena_escapar`, `numero_decimal`, `numero_escribirDouble` — the scalars
- `parseJson_toJsonText` — the whole
-/

namespace Osodio.Json

/-! ## Texts -/

section Texts

variable {s t rest : Bytes}

theorem hexValue_hexDigit : ∀ n < 16, hexValue (hexDigit n) = some n := by decide

theorem hex4_hex04 {n : ℕ} (hn : n < 65536) (rest : Bytes) :
    hex4 (hex04 n ++ rest) = some (n, rest) := by
  have hm (k : ℕ) : hexValue (hexDigit (k % 16)) = some (k % 16) :=
    hexValue_hexDigit _ (Nat.mod_lt _ (by decide))
  simp only [hex04, List.cons_append, List.nil_append, hex4, hm, Option.bind_eq_bind,
    Option.bind_some, Option.pure_def, Option.some.injEq, Prod.mk.injEq, and_true]
  omega

/-- An escape stands for its byte. -/
theorem escapado_escape {c : UInt8} (hc : sucio c = true) (rest : Bytes) :
    ∃ e, escape c = 0x5C :: e ∧ escapado (e ++ rest) = some ([c], rest) := by
  unfold escape
  split_ifs with h1 h2 h3 h4 h5 h6 h7
  · exact ⟨_, rfl, by rw [h1]; rfl⟩
  · exact ⟨_, rfl, by rw [h2]; rfl⟩
  · exact ⟨_, rfl, by rw [h3]; rfl⟩
  · exact ⟨_, rfl, by rw [h4]; rfl⟩
  · exact ⟨_, rfl, by rw [h5]; rfl⟩
  · exact ⟨_, rfl, by rw [h6]; rfl⟩
  · exact ⟨_, rfl, by rw [h7]; rfl⟩
  -- only the control characters are left
  have hlt : c.toNat < 0x20 := by
    simp only [sucio, h1, h2, Bool.or_eq_true, beq_iff_eq, decide_eq_true_eq, or_false] at hc
    exact UInt8.lt_iff_toNat_lt.1 hc
  refine ⟨0x75 :: hex04 c.toNat, rfl, ?_⟩
  show escapeUnicode (hex04 c.toNat ++ rest) = _
  have hutf8 : utf8 c.toNat = [c] := by
    rw [utf8, if_pos (by omega), UInt8.ofNat_toNat]
  simp only [escapeUnicode, hex4_hex04 (show c.toNat < 65536 by omega), Option.bind_eq_bind,
    Option.bind_some]
  rw [if_neg (by omega), if_neg (by omega), hutf8]
  rfl

/-- The byte after byte loop reads what was escaped. -/
theorem cadenaDesde_escape (s rest : Bytes) {n : ℕ} (hn : s.length < n) :
    cadenaDesde n (s.flatMap escapeByte ++ 0x22 :: rest) = some (s, rest) := by
  induction s generalizing n with
  | nil =>
    obtain ⟨n, rfl⟩ := Nat.exists_eq_add_of_lt hn
    simp [cadenaDesde]
  | cons c s ih =>
    obtain ⟨n, rfl⟩ : ∃ m, n = m + 1 := ⟨n - 1, by rw [List.length_cons] at hn; omega⟩
    have ih := ih (n := n) (Nat.lt_of_succ_lt_succ hn)
    rw [List.flatMap_cons, List.append_assoc, escapeByte]
    split
    · next hc =>
      obtain ⟨e, he, hread⟩ := escapado_escape hc (s.flatMap escapeByte ++ 0x22 :: rest)
      rw [he, List.cons_append, cadenaDesde, if_neg (by decide), if_neg (by decide),
        if_neg (by decide), hread]
      simp [ih]
    · next hc =>
      simp only [sucio, Bool.or_eq_true, beq_iff_eq, decide_eq_true_eq, not_or] at hc
      rw [List.singleton_append, cadenaDesde, if_neg hc.1.2, if_neg hc.1.1, if_pos hc.2]
      simp [ih]

theorem length_le_flatMap_escapeByte (s : Bytes) : s.length ≤ (s.flatMap escapeByte).length := by
  induction s with
  | nil => exact Nat.le_refl _
  | cons c s ih =>
    have hc : 1 ≤ (escapeByte c).length := by
      unfold escapeByte
      split
      · next hc =>
        obtain ⟨e, he, -⟩ := escapado_escape hc []
        rw [he]
        exact Nat.succ_pos _
      · exact Nat.le_refl _
    rw [List.flatMap_cons, List.length_append, List.length_cons]
    omega

/-- What is written between quotes is read back. -/
theorem cadena_escapar (s rest : Bytes) :
    cadena (escaparDesde s ++ 0x22 :: rest) = some (s, rest) := by
  have hsplit := List.takeWhile_append_dropWhile (p := fun c => !sucio c) (l := s)
  have hlimpio : ∀ b ∈ s.takeWhile (fun c => !sucio c), sucio b = false := fun b hb => by
    simpa using List.mem_takeWhile_imp hb
  have hpos : ∀ b ∈ s.takeWhile (fun c => !sucio c), (!sucio b) = true := fun b hb => by
    rw [hlimpio b hb]
    rfl
  rw [escaparDesde_eq, cadena]
  generalize hp : s.takeWhile (fun c => !sucio c) = limpio at *
  generalize hd : s.dropWhile (fun c => !sucio c) = resto at *
  subst hsplit
  rw [List.flatMap_append, flatMap_escapeByte hlimpio, List.append_assoc,
    List.takeWhile_append_of_pos hpos, List.dropWhile_append_of_pos hpos]
  cases resto with
  | nil => simp [sucio]
  | cons c resto =>
    have hc : sucio c = true := by
      have := List.head_dropWhile_not (fun c => !sucio c) (l := limpio ++ c :: resto)
        (by rw [hd]; simp)
      simpa [hd] using this
    obtain ⟨e, he, -⟩ := escapado_escape hc []
    have hbyte : escapeByte c = 0x5C :: e := by rw [escapeByte, if_pos hc, he]
    have hlen := length_le_flatMap_escapeByte resto
    have hread := cadenaDesde_escape (c :: resto) rest
      (n := (e ++ (resto.flatMap escapeByte ++ 0x22 :: rest)).length + 2) (by
        simp only [List.length_append, List.length_cons]
        omega)
    rw [List.flatMap_cons, hbyte, List.append_assoc, List.cons_append] at hread
    rw [List.flatMap_cons, hbyte, List.append_assoc, List.cons_append,
      List.takeWhile_cons_of_neg (by decide), List.dropWhile_cons_of_neg (by decide),
      List.append_nil]
    dsimp only
    rw [if_neg (by decide), if_pos rfl, hread]
    rfl

end Texts

/-! ## Numbers -/

/-- One digit or more. -/
def Digitos (ds : Bytes) : Prop := ds ≠ [] ∧ ∀ d ∈ ds, digito d = true

/-- The parts of a number in JSON. -/
structure NumberParts (signo entera fraccion exponente : Bytes) : Prop where
  signo : signo = [] ∨ signo = [0x2D]
  entera : entera = [0x30] ∨ Digitos entera ∧ entera.head? ≠ some 0x30
  fraccion : fraccion = [] ∨ ∃ ds, Digitos ds ∧ fraccion = 0x2E :: ds
  exponente : exponente = [] ∨ ∃ e sgn ds, (e = 0x65 ∨ e = 0x45) ∧
    (sgn = [] ∨ sgn = [0x2B] ∨ sgn = [0x2D]) ∧ Digitos ds ∧ exponente = e :: (sgn ++ ds)

/-- A number in JSON. -/
def NumberText (t : Bytes) : Prop := ∃ signo entera fraccion exponente,
  NumberParts signo entera fraccion exponente ∧ t = signo ++ entera ++ fraccion ++ exponente

/-- What follows a value in the text of another one. -/
def Follow (rest : Bytes) : Prop := ∀ c ∈ rest.head?, c = 0x2C ∨ c = 0x5D ∨ c = 0x7D

/-- No number goes on here. -/
def Ends (rest : Bytes) : Prop :=
  ∀ c ∈ rest.head?, digito c = false ∧ c ≠ 0x2E ∧ c ≠ 0x65 ∧ c ≠ 0x45

section Numbers

variable {ds rest signo entera fraccion exponente : Bytes}

theorem Digitos.head (h : Digitos ds) : ∃ d ds', ds = d :: ds' ∧ digito d = true := by
  obtain ⟨hne, hall⟩ := h
  obtain ⟨d, ds', rfl⟩ := List.exists_cons_of_ne_nil hne
  exact ⟨d, ds', rfl, hall d (List.mem_cons_self ..)⟩

/-- The digits end where there is no digit. -/
theorem digitosDe_append (h : Digitos ds) (hr : ∀ c ∈ rest.head?, digito c = false) :
    digitosDe (ds ++ rest) = some (ds, rest) := by
  have htake : (ds ++ rest).takeWhile digito = ds := by
    rw [List.takeWhile_append_of_pos h.2]
    cases rest with
    | nil => simp
    | cons c rest => simp [hr c rfl]
  have hdrop : (ds ++ rest).dropWhile digito = rest := by
    rw [List.dropWhile_append_of_pos h.2]
    cases rest with
    | nil => rfl
    | cons c rest => simp [hr c rfl]
  rw [digitosDe, htake, hdrop, if_neg]
  simpa using h.1

theorem signoDe_append (h : signo = [] ∨ signo = [0x2D])
    (hr : ∀ c ∈ rest.head?, c ≠ 0x2D) : signoDe (signo ++ rest) = (signo, rest) := by
  obtain rfl | rfl := h
  · rw [List.nil_append, signoDe.eq_def]
    split
    · exact absurd rfl (hr _ rfl)
    · rfl
  · rfl

theorem enteraDe_append (h : entera = [0x30] ∨ Digitos entera ∧ entera.head? ≠ some 0x30)
    (hr : ∀ c ∈ rest.head?, digito c = false) : enteraDe (entera ++ rest) = some (entera, rest) := by
  obtain rfl | ⟨hd, hne⟩ := h
  · rfl
  · obtain ⟨d, ds', rfl, hdig⟩ := hd.head
    have hd0 : d ≠ 0x30 := fun e => hne (by rw [e]; rfl)
    have hd1 : (0x31 ≤ d && d ≤ 0x39) = true := by
      simp only [digito, Bool.and_eq_true, decide_eq_true_eq] at hdig ⊢
      refine ⟨?_, hdig.2⟩
      have h30 := UInt8.le_iff_toNat_le.1 hdig.1
      have hne' : d.toNat ≠ 0x30 := fun e => hd0 (UInt8.toNat_inj.1 e)
      exact UInt8.le_iff_toNat_le.2 (Nat.lt_of_le_of_ne h30 (Ne.symm hne'))
    rw [List.cons_append, enteraDe, if_neg hd0, if_pos hd1]
    exact digitosDe_append hd hr

theorem fraccionDe_append (h : fraccion = [] ∨ ∃ ds, Digitos ds ∧ fraccion = 0x2E :: ds)
    (hr : ∀ c ∈ rest.head?, digito c = false ∧ c ≠ 0x2E) :
    fraccionDe (fraccion ++ rest) = some (fraccion, rest) := by
  obtain rfl | ⟨ds, hds, rfl⟩ := h
  · rw [List.nil_append, fraccionDe.eq_def]
    split
    · exact absurd rfl (hr _ rfl).2
    · rfl
  · rw [List.cons_append, fraccionDe, digitosDe_append hds fun c hc => (hr c hc).1]
    rfl

theorem exponenteDe_append (h : exponente = [] ∨ ∃ e sgn ds, (e = 0x65 ∨ e = 0x45) ∧
      (sgn = [] ∨ sgn = [0x2B] ∨ sgn = [0x2D]) ∧ Digitos ds ∧ exponente = e :: (sgn ++ ds))
    (hr : ∀ c ∈ rest.head?, digito c = false ∧ c ≠ 0x65 ∧ c ≠ 0x45) :
    exponenteDe (exponente ++ rest) = some (exponente, rest) := by
  obtain rfl | ⟨e, sgn, ds, he, hsgn, hds, rfl⟩ := h
  · cases rest with
    | nil => rfl
    | cons c rest =>
      obtain ⟨-, h65, h45⟩ := hr c rfl
      rw [List.nil_append, exponenteDe, if_neg (not_or.2 ⟨h65, h45⟩)]
  · have hsign : signoExponente (sgn ++ (ds ++ rest)) = (sgn, ds ++ rest) := by
      obtain rfl | rfl | rfl := hsgn
      · obtain ⟨d, ds', rfl, hdig⟩ := hds.head
        rw [List.nil_append, List.cons_append, signoExponente, if_neg]
        rintro (rfl | rfl) <;> exact absurd hdig (by decide)
      · rfl
      · rfl
    rw [List.cons_append, exponenteDe, if_pos he, List.append_assoc, hsign,
      digitosDe_append hds fun c hc => (hr c hc).1]
    rfl

theorem Follow.ends (h : Follow rest) : Ends rest := by
  intro c hc
  obtain rfl | rfl | rfl := h c hc <;> decide

/-- No part of a number goes on in the next one. -/
theorem NumberParts.heads (h : NumberParts signo entera fraccion exponente) (hrest : Ends rest) :
    (∀ c ∈ (entera ++ (fraccion ++ (exponente ++ rest))).head?, c ≠ 0x2D) ∧
      (∀ c ∈ (fraccion ++ (exponente ++ rest)).head?, digito c = false) ∧
        ∀ c ∈ (exponente ++ rest).head?, digito c = false ∧ c ≠ 0x2E := by
  have hexp : ∀ c ∈ (exponente ++ rest).head?, digito c = false ∧ c ≠ 0x2E := by
    obtain rfl | ⟨e, sgn, ds, he, -, -, rfl⟩ := h.exponente
    · exact fun c hc => ⟨(hrest c hc).1, (hrest c hc).2.1⟩
    · rintro c ⟨⟩
      obtain rfl | rfl := he <;> decide
  have hfrac : ∀ c ∈ (fraccion ++ (exponente ++ rest)).head?, digito c = false := by
    obtain rfl | ⟨ds, -, rfl⟩ := h.fraccion
    · exact fun c hc => (hexp c hc).1
    · rintro c ⟨⟩
      decide
  have hent : ∀ c ∈ (entera ++ (fraccion ++ (exponente ++ rest))).head?, c ≠ 0x2D := by
    obtain rfl | ⟨hd, -⟩ := h.entera
    · rintro c ⟨⟩
      decide
    · obtain ⟨d, ds', rfl, hdig⟩ := hd.head
      rintro c ⟨⟩ rfl
      exact absurd hdig (by decide)
  exact ⟨hent, hfrac, hexp⟩

/-- A number ends where another part of the text begins. -/
theorem textoDe_append (h : NumberParts signo entera fraccion exponente) (hrest : Ends rest) :
    textoDe (signo ++ entera ++ fraccion ++ exponente ++ rest) =
      some ((signo ++ entera ++ fraccion ++ exponente,
        !fraccion.isEmpty || !exponente.isEmpty), rest) := by
  obtain ⟨hent, hfrac, hexp⟩ := h.heads hrest
  rw [List.append_assoc, List.append_assoc, List.append_assoc, textoDe,
    signoDe_append h.signo hent]
  dsimp only
  rw [enteraDe_append h.entera hfrac, Option.bind_eq_bind, Option.bind_some]
  dsimp only
  rw [fraccionDe_append h.fraccion hexp, Option.bind_some]
  dsimp only
  rw [exponenteDe_append h.exponente fun c hc => ⟨(hrest c hc).1, (hrest c hc).2.2⟩]
  simp [List.append_assoc]

/-- A number has one sign, one fraction and one exponent. -/
theorem NumberParts.inj {signo' entera' fraccion' exponente' : Bytes}
    (h : NumberParts signo entera fraccion exponente)
    (h' : NumberParts signo' entera' fraccion' exponente')
    (heq : signo ++ entera ++ fraccion ++ exponente =
      signo' ++ entera' ++ fraccion' ++ exponente') :
    signo = signo' ∧ entera = entera' ∧ fraccion = fraccion' ∧ exponente = exponente' := by
  have hnil : Ends [] := nofun
  obtain ⟨hent, hfrac, hexp⟩ := h.heads hnil
  obtain ⟨hent', hfrac', hexp'⟩ := h'.heads hnil
  rw [List.append_nil] at hent hfrac hexp hent' hfrac' hexp'
  rw [List.append_assoc, List.append_assoc, List.append_assoc, List.append_assoc] at heq
  have hsigno := (signoDe_append h.signo hent).symm.trans
    ((congrArg signoDe heq).trans (signoDe_append h'.signo hent'))
  obtain ⟨rfl, heq1⟩ := Prod.mk.inj hsigno
  have hentera := (enteraDe_append h.entera hfrac).symm.trans
    ((congrArg enteraDe heq1).trans (enteraDe_append h'.entera hfrac'))
  obtain ⟨rfl, heq2⟩ := Prod.mk.inj (Option.some.inj hentera)
  have hfraccion := (fraccionDe_append h.fraccion hexp).symm.trans
    ((congrArg fraccionDe heq2).trans (fraccionDe_append h'.fraccion hexp'))
  obtain ⟨rfl, heq3⟩ := Prod.mk.inj (Option.some.inj hfraccion)
  exact ⟨rfl, rfl, rfl, heq3⟩

end Numbers

/-! ### Integers -/

theorem toNat_digit {d : ℕ} (hd : d < 10) : (UInt8.ofNat (0x30 + d)).toNat = 0x30 + d :=
  UInt8.toNat_ofNat_of_lt' (show 0x30 + d < 256 by omega)

theorem digito_digit : ∀ d < 10, digito (UInt8.ofNat (0x30 + d)) = true := by decide

/-- One digit stands alone. -/
theorem Digitos.single {d : UInt8} (h : digito d = true) : Digitos [d] :=
  ⟨List.cons_ne_nil _ _, fun _ hd => List.mem_singleton.1 hd ▸ h⟩

theorem digitos_spec (n : ℕ) : Digitos (digitos n) := by
  unfold digitos
  split
  · exact .single (by decide)
  · next hn =>
    refine ⟨fun h => hn ?_, fun d hd => ?_⟩
    · exact Nat.digits_eq_nil_iff_eq_zero.1 (List.reverse_eq_nil_iff.1 (List.map_eq_nil_iff.1 h))
    obtain ⟨k, hk, rfl⟩ := List.mem_map.1 hd
    exact digito_digit k (Nat.digits_lt_base (by decide) (List.mem_reverse.1 hk))

/-- The digits of a number do not begin with a zero that is not needed. -/
theorem digitos_entera (n : ℕ) :
    digitos n = [0x30] ∨ Digitos (digitos n) ∧ (digitos n).head? ≠ some 0x30 := by
  by_cases hn : n = 0
  · exact .inl (if_pos hn)
  · refine .inr ⟨digitos_spec n, ?_⟩
    have hne : Nat.digits 10 n ≠ [] := Nat.digits_ne_nil_iff_ne_zero.2 hn
    rw [digitos, if_neg hn, List.head?_map, List.head?_reverse, List.getLast?_eq_some_getLast hne,
      Option.map_some]
    intro h
    have hlt : (Nat.digits 10 n).getLast hne < 10 :=
      Nat.digits_lt_base (by decide) (List.getLast_mem hne)
    have hzero := congrArg UInt8.toNat (Option.some.inj h)
    rw [toNat_digit hlt] at hzero
    have hlast : (Nat.digits 10 n).getLast hne ≠ 0 := Nat.getLast_digit_ne_zero 10 hn
    have h30 : (0x30 : UInt8).toNat = 0x30 := rfl
    omega

/-- The digits of a number stand for it. -/
theorem ofDigits_digitos (n : ℕ) :
    Nat.ofDigits 10 ((digitos n).reverse.map fun d => d.toNat - 0x30) = n := by
  unfold digitos
  split
  · next hn =>
    rw [hn]
    rfl
  · rw [List.map_reverse, List.map_map, ← List.map_reverse, List.reverse_reverse]
    have hid : (Nat.digits 10 n).map
        ((fun d : UInt8 => d.toNat - 0x30) ∘ fun d => UInt8.ofNat (0x30 + d)) =
          Nat.digits 10 n := by
      conv_rhs => rw [← List.map_id (Nat.digits 10 n)]
      apply List.map_congr_left
      intro d hd
      have hd : d < 10 := Nat.digits_lt_base (by decide) hd
      rw [Function.comp_apply, toNat_digit hd, Nat.add_sub_cancel_left]
      rfl
    rw [hid, Nat.ofDigits_digits]

theorem decimal_parts (i : Int64) : ∃ signo, decimal i = signo ++ digitos i.toInt.natAbs ∧
    NumberParts signo (digitos i.toInt.natAbs) [] [] ∧ fromCharsInt (decimal i) = some i := by
  have hlt := Int64.toInt_lt i
  have hle := Int64.le_toInt i
  obtain ⟨d, ds, hds, hdig⟩ := (digitos_spec i.toInt.natAbs).head
  have hall : (digitos i.toInt.natAbs).all digito = true :=
    List.all_eq_true.2 (digitos_spec i.toInt.natAbs).2
  have hne : digitos i.toInt.natAbs ≠ [] := (digitos_spec i.toInt.natAbs).1
  have hvalue := ofDigits_digitos i.toInt.natAbs
  have hparts (signo : Bytes) (h : signo = [] ∨ signo = [0x2D]) :
      NumberParts signo (digitos i.toInt.natAbs) [] [] :=
    ⟨h, digitos_entera _, .inl rfl, .inl rfl⟩
  have hsign : ∀ c ∈ (digitos i.toInt.natAbs).head?, c ≠ 0x2D := by
    rw [hds]
    rintro c ⟨⟩ rfl
    exact absurd hdig (by decide)
  have hread (signo : Bytes) (h : signo = [] ∨ signo = [0x2D]) :
      fromCharsInt (signo ++ digitos i.toInt.natAbs) =
        let m : ℕ := i.toInt.natAbs
        let n : ℤ := if signo.isEmpty then m else -m
        if -2 ^ 63 ≤ n ∧ n < 2 ^ 63 then some (Int64.ofInt n) else none := by
    rw [fromCharsInt, signoDe_append h hsign]
    dsimp only
    rw [hvalue, hall, List.isEmpty_eq_false_iff.2 hne, if_neg (by decide)]
  unfold decimal
  split
  · next hneg =>
    have hneg : i.toInt < 0 := Int64.lt_iff_toInt_lt.1 hneg
    refine ⟨[0x2D], rfl, hparts _ (.inr rfl), ?_⟩
    have hn : -(i.toInt.natAbs : ℤ) = i.toInt := by omega
    rw [hread _ (.inr rfl)]
    dsimp only
    rw [if_neg (show ¬[(0x2D : UInt8)].isEmpty = true by decide), hn, if_pos ⟨hle, hlt⟩,
      Int64.ofInt_toInt]
  · next hneg =>
    have hneg : ¬i.toInt < 0 := fun h => hneg (Int64.lt_iff_toInt_lt.2 h)
    refine ⟨[], rfl, hparts _ (.inl rfl), ?_⟩
    have hn : (i.toInt.natAbs : ℤ) = i.toInt := by omega
    have hpos := hread [] (.inl rfl)
    rw [List.nil_append] at hpos
    rw [hpos]
    dsimp only
    rw [if_pos List.isEmpty_nil, hn, if_pos ⟨hle, hlt⟩, Int64.ofInt_toInt]

/-- An integer is read back. -/
theorem numero_decimal (C : Charconv) (i : Int64) {rest : Bytes} (hr : Follow rest) :
    numero C (decimal i ++ rest) = some (.int i, rest) := by
  obtain ⟨signo, heq, hparts, hread⟩ := decimal_parts i
  have htext := textoDe_append hparts hr.ends
  rw [List.append_nil, List.append_nil, ← heq] at htext
  rw [numero, htext]
  simp [numeroDe, hread]

/-! ### Doubles -/

/-- What is known of `to_chars` and `from_chars`: a finite double has a text in
    decimal, which is read as that double, and `.0` after an integer is nothing. -/
structure Charconv.Inverse (C : Charconv) : Prop where
  inverse : ∀ d : Double, d.isFinite = true →
    ∃ t, C.toChars 32 d = some t ∧ NumberText t ∧ C.fromChars t = some d
  point : ∀ t, NumberText t → marcaReal t = false → C.fromChars (t ++ ascii ".0") = C.fromChars t

section Doubles

variable {signo entera fraccion exponente rest : Bytes}

theorem marcaReal_digitos {ds : Bytes} (h : ∀ d ∈ ds, digito d = true) : marcaReal ds = false := by
  refine List.any_eq_false.2 fun d hd => ?_
  have hdig := h d hd
  simp only [Bool.or_eq_true, beq_iff_eq, not_or]
  refine ⟨⟨?_, ?_⟩, ?_⟩ <;> rintro rfl <;> exact absurd hdig (by decide)

/-- A number has a mark where it has a fraction or an exponent. -/
theorem NumberParts.marcaReal (h : NumberParts signo entera fraccion exponente) :
    marcaReal (signo ++ entera ++ fraccion ++ exponente) =
      (!fraccion.isEmpty || !exponente.isEmpty) := by
  have happ (s t : Bytes) : Json.marcaReal (s ++ t) = (Json.marcaReal s || Json.marcaReal t) :=
    List.any_append
  have hsigno : Json.marcaReal signo = false := by obtain rfl | rfl := h.signo <;> rfl
  have hentera : Json.marcaReal entera = false := by
    obtain rfl | ⟨hd, -⟩ := h.entera
    · rfl
    · exact marcaReal_digitos hd.2
  have hfraccion : Json.marcaReal fraccion = !fraccion.isEmpty := by
    obtain rfl | ⟨ds, -, rfl⟩ := h.fraccion <;> rfl
  have hexponente : Json.marcaReal exponente = !exponente.isEmpty := by
    obtain rfl | ⟨e, sgn, ds, he, -, -, rfl⟩ := h.exponente
    · rfl
    · obtain rfl | rfl := he <;> rfl
  rw [happ, happ, happ, hsigno, hentera, hfraccion, hexponente, Bool.false_or, Bool.false_or]

/-- An integer gets a fraction. -/
theorem NumberText.point {t : Bytes} (ht : NumberText t) (hm : Json.marcaReal t = false) :
    NumberText (t ++ ascii ".0") := by
  obtain ⟨signo, entera, fraccion, exponente, hparts, rfl⟩ := ht
  rw [hparts.marcaReal, Bool.or_eq_false_iff, Bool.not_eq_false', Bool.not_eq_false',
    List.isEmpty_iff, List.isEmpty_iff] at hm
  obtain ⟨rfl, rfl⟩ := hm
  refine ⟨signo, entera, ascii ".0", [], ⟨hparts.signo, hparts.entera, ?_, .inl rfl⟩, by simp⟩
  exact .inr ⟨[0x30], .single (by decide), rfl⟩

theorem numero_real {C : Charconv} {d : Double} {t : Bytes} (ht : NumberText t)
    (hm : marcaReal t = true) (hd : C.fromChars t = some d) (hr : Follow rest) :
    numero C (t ++ rest) = some (.float d, rest) := by
  obtain ⟨signo, entera, fraccion, exponente, hparts, rfl⟩ := ht
  rw [hparts.marcaReal] at hm
  rw [numero, textoDe_append hparts hr.ends, hm, Option.bind_eq_bind, Option.bind_some]
  dsimp only
  rw [numeroDe, if_pos rfl, hd]
  rfl

/-- A finite double is read back, and as a double. -/
theorem numero_escribirDouble {C : Charconv} (hC : C.Inverse) {d : Double}
    (hd : d.isFinite = true) (hr : Follow rest) :
    numero C (escribirDouble C d ++ rest) = some (.float d, rest) := by
  obtain ⟨t, ht, htext, hread⟩ := hC.inverse d hd
  simp only [escribirDouble, hd, ht]
  rw [if_neg (by decide)]
  split
  · next hm => exact numero_real htext hm hread hr
  · next hm =>
    have hm : marcaReal t = false := Bool.eq_false_iff.2 hm
    refine numero_real (htext.point hm) ?_ ((hC.point t htext hm).trans hread) hr
    · rw [marcaReal, List.any_append, Bool.or_eq_true]
      exact .inr (by decide)

end Doubles

/-! ## Values -/

mutual

/-- How many containers there are around the innermost value. -/
def Value.nesting : Value → ℕ
  | .list items => nestingItems items
  | .dict entries => nestingEntries entries
  | _ => 0

def nestingItems : List Value → ℕ
  | [] => 0
  | v :: vs => max (v.nesting + 1) (nestingItems vs)

def nestingEntries : List (Bytes × Value) → ℕ
  | [] => 0
  | (_, v) :: es => max (v.nesting + 1) (nestingEntries es)

end

/-- The value has valid texts and finite numbers only, and its dictionaries have
    distinct keys, none of them internal. -/
inductive Value.Writable : Value → Prop where
  | null : Writable .null
  | bool (b : Bool) : Writable (.bool b)
  | int (i : Int64) : Writable (.int i)
  | float {d : Double} (hd : d.isFinite = true) : Writable (.float d)
  | str {s : Bytes} (hs : ValidUtf8 s) : Writable (.str s)
  | list {items : List Value} (h : ∀ v ∈ items, Writable v) : Writable (.list items)
  | dict {entries : List (Bytes × Value)} (hkeys : ∀ e ∈ entries, ValidUtf8 e.1 ∧ interna e.1 = false)
      (hnodup : (entries.map Prod.fst).Nodup) (h : ∀ e ∈ entries, Writable e.2) :
      Writable (.dict entries)

theorem nesting_of_mem {items : List Value} {v : Value} (h : v ∈ items) :
    v.nesting + 1 ≤ nestingItems items := by
  induction items with
  | nil => cases h
  | cons w ws ih =>
    rw [nestingItems]
    obtain rfl | h := List.mem_cons.1 h
    · exact le_max_left _ _
    · exact (ih h).trans (le_max_right _ _)

theorem nesting_of_mem_entries {entries : List (Bytes × Value)} {e : Bytes × Value}
    (h : e ∈ entries) : e.2.nesting + 1 ≤ nestingEntries entries := by
  induction entries with
  | nil => cases h
  | cons f fs ih =>
    obtain ⟨k, w⟩ := f
    rw [nestingEntries]
    obtain rfl | h := List.mem_cons.1 h
    · exact le_max_left _ _
    · exact (ih h).trans (le_max_right _ _)

/-- The text of a value begins with no space and closes nothing. -/
def Begins (t : Bytes) : Prop := ∃ c t', t = c :: t' ∧ espacio c = false ∧ c ≠ 0x5D ∧ c ≠ 0x7D

section Trees

variable {C : Charconv} {rest : Bytes}

theorem Begins.append {t : Bytes} (h : Begins t) (rest : Bytes) : Begins (t ++ rest) := by
  obtain ⟨c, t', rfl, h⟩ := h
  exact ⟨c, t' ++ rest, rfl, h⟩

theorem Begins.espacios {t : Bytes} (h : Begins t) : espacios t = t := by
  obtain ⟨c, t', rfl, hc, -⟩ := h
  rw [Json.espacios, List.dropWhile_cons_of_neg (by simp [hc])]

/-- A number begins with a digit or with its sign. -/
theorem NumberText.first {t : Bytes} (h : NumberText t) :
    ∃ c t', t = c :: t' ∧ (digito c = true ∨ c = 0x2D) := by
  obtain ⟨signo, entera, fraccion, exponente, hparts, rfl⟩ := h
  rw [List.append_assoc, List.append_assoc]
  obtain rfl | rfl := hparts.signo
  · obtain rfl | ⟨hd, -⟩ := hparts.entera
    · exact ⟨0x30, _, rfl, .inl rfl⟩
    · obtain ⟨d, ds, rfl, hdig⟩ := hd.head
      exact ⟨d, _, rfl, .inl hdig⟩
  · exact ⟨0x2D, _, rfl, .inr rfl⟩

/-- A digit or a sign is no other byte. -/
theorem ne_of_first {c k : UInt8} (h : digito c = true ∨ c = 0x2D)
    (hk : digito k = false) (hk' : k ≠ 0x2D) : c ≠ k := by
  rintro rfl
  obtain h | h := h
  · exact Bool.false_ne_true (hk.symm.trans h)
  · exact hk' h

theorem NumberText.begins {t : Bytes} (h : NumberText t) : Begins t := by
  obtain ⟨c, t', rfl, hc⟩ := h.first
  have hne {k : UInt8} (hk : digito k = false) (hk' : k ≠ 0x2D) : c ≠ k := ne_of_first hc hk hk'
  refine ⟨c, t', rfl, ?_, hne (by decide) (by decide), hne (by decide) (by decide)⟩
  simp only [espacio, Bool.or_eq_false_iff, beq_eq_false_iff_ne]
  exact ⟨⟨⟨hne (by decide) (by decide), hne (by decide) (by decide)⟩,
    hne (by decide) (by decide)⟩, hne (by decide) (by decide)⟩

theorem decimal_text (i : Int64) : NumberText (decimal i) := by
  obtain ⟨signo, heq, hparts, -⟩ := decimal_parts i
  exact ⟨_, _, _, _, hparts, by simpa using heq⟩

/-- The text of a finite double is a number. -/
theorem escribirDouble_text (hC : C.Inverse) {d : Double} (hd : d.isFinite = true) :
    NumberText (escribirDouble C d) := by
  obtain ⟨t, ht, htext, -⟩ := hC.inverse d hd
  rw [escribirDouble, hd, ht, if_neg (by decide)]
  dsimp only
  split
  · exact htext
  · next hm => exact htext.point (Bool.eq_false_iff.2 hm)

theorem escapar_begins (s : Bytes) : ∃ t, escapar s = 0x22 :: t := by
  unfold escapar
  split <;> exact ⟨_, rfl⟩

theorem writeJson_begins (hC : C.Inverse) {v : Value} (hv : v.Writable) :
    Begins (v.writeJson C) := by
  cases hv with
  | null => exact ⟨_, _, rfl, by decide⟩
  | bool b => cases b <;> exact ⟨_, _, rfl, by decide⟩
  | int i =>
    rw [Value.writeJson]
    exact (decimal_text i).begins
  | float hd =>
    rw [Value.writeJson]
    exact (escribirDouble_text hC hd).begins
  | @str s hs =>
    obtain ⟨t, ht⟩ := escapar_begins s
    rw [Value.writeJson, ht]
    exact ⟨_, _, rfl, by decide⟩
  | list => exact ⟨_, _, by rw [Value.writeJson]; rfl, by decide⟩
  | dict => exact ⟨_, _, by rw [Value.writeJson]; rfl, by decide⟩

/-- A text between quotes is read back. -/
theorem cadena_valid {s : Bytes} (hs : ValidUtf8 s) :
    ∃ t, escapar s = 0x22 :: t ∧ cadena (t ++ rest) = some (s, rest) := by
  refine ⟨escaparDesde s ++ [0x22], ?_, ?_⟩
  · rw [escapar, if_pos (utf8Valido_of_valid hs)]
    rfl
  · rw [List.append_assoc]
    exact cadena_escapar s rest

/-! ### Lists -/

/-- The reader gives the value for its text. -/
def Reads (C : Charconv) (valor : Reader Value) (v : Value) : Prop :=
  Begins (v.writeJson C) ∧ ∀ rest, Follow rest → valor (v.writeJson C ++ rest) = some (v, rest)

theorem writeItems_false (v : Value) (vs : List Value) :
    writeItems C false (v :: vs) = 0x2C :: writeItems C true (v :: vs) := by
  simp [writeItems]

theorem espacios_cons {c : UInt8} (hc : espacio c = false) (s : Bytes) :
    espacios (c :: s) = c :: s := by
  rw [espacios, List.dropWhile_cons_of_neg (by simp [hc])]

theorem elementos_write {valor : Reader Value} {v : Value} {vs : List Value}
    (h : ∀ w ∈ v :: vs, Reads C valor w) {n : ℕ} (hn : vs.length < n) :
    elementos valor n (writeItems C true (v :: vs) ++ 0x5D :: rest) = some (v :: vs, rest) := by
  induction vs generalizing v n with
  | nil =>
    obtain ⟨n, rfl⟩ : ∃ m, n = m + 1 := ⟨n - 1, by omega⟩
    obtain ⟨hb, hread⟩ := h v (List.mem_cons_self ..)
    rw [writeItems, writeItems, if_pos rfl, List.nil_append, List.append_nil, elementos,
      (hb.append _).espacios, hread _ (by rintro c ⟨⟩; exact .inr (.inl rfl)), Option.bind_eq_bind,
      Option.bind_some]
    dsimp only
    rw [espacios_cons (by decide)]
    rfl
  | cons w ws ih =>
    obtain ⟨n, rfl⟩ : ∃ m, n = m + 1 := ⟨n - 1, by omega⟩
    obtain ⟨hb, hread⟩ := h v (List.mem_cons_self ..)
    have hrest := ih (v := w) (fun u hu => h u (List.mem_cons_of_mem _ hu)) (n := n)
      (Nat.lt_of_succ_lt_succ hn)
    rw [writeItems, writeItems_false, if_pos rfl, List.nil_append, List.append_assoc,
      List.cons_append, elementos, (hb.append _).espacios,
      hread _ (by rintro c ⟨⟩; exact .inl rfl), Option.bind_eq_bind, Option.bind_some]
    dsimp only
    rw [espacios_cons (by decide)]
    show Option.bind (elementos valor n (writeItems C true (w :: ws) ++ 0x5D :: rest)) _ = _
    rw [hrest]
    rfl

theorem length_le_writeItems {valor : Reader Value} {items : List Value} {primero : Bool}
    (h : ∀ w ∈ items, Reads C valor w) : items.length ≤ (writeItems C primero items).length := by
  induction items generalizing primero with
  | nil => exact Nat.zero_le _
  | cons v vs ih =>
    obtain ⟨⟨c, t, ht, -⟩, -⟩ := h v (List.mem_cons_self ..)
    have ih := @ih false fun w hw => h w (List.mem_cons_of_mem _ hw)
    rw [writeItems, ht]
    simp only [List.length_append, List.length_cons]
    omega

/-- A list is read back. -/
theorem lista_write {valor : Reader Value} {items : List Value}
    (h : ∀ w ∈ items, Reads C valor w) :
    lista valor (writeItems C true items ++ 0x5D :: rest) = some (.list items, rest) := by
  cases items with
  | nil => rfl
  | cons v vs =>
    obtain ⟨hb, -⟩ := h v (List.mem_cons_self ..)
    have hbegins : Begins (writeItems C true (v :: vs) ++ 0x5D :: rest) := by
      rw [writeItems, if_pos rfl, List.nil_append, List.append_assoc]
      exact hb.append _
    have hlen := @length_le_writeItems C valor (v :: vs) true h
    have hread := @elementos_write C rest valor v vs h
      ((writeItems C true (v :: vs) ++ 0x5D :: rest).length + 1) (by
        rw [List.length_append]
        rw [List.length_cons] at hlen
        omega)
    rw [lista, hbegins.espacios]
    obtain ⟨c, t, ht, -, hc, -⟩ := hbegins
    rw [ht] at hread ⊢
    split
    · next heq => exact absurd (List.cons.inj heq).1 hc
    · rw [hread]
      rfl

/-! ### Dictionaries -/

theorem setKey_fresh {k : Bytes} {v : Value} {d : List (Bytes × Value)}
    (h : k ∉ d.map Prod.fst) : setKey k v d = d ++ [(k, v)] := by
  induction d with
  | nil => rfl
  | cons e es ih =>
    obtain ⟨k', v'⟩ := e
    rw [List.map_cons, List.mem_cons, not_or] at h
    rw [setKey, if_neg (Ne.symm h.1), ih h.2, List.cons_append]

/-- The reader gives the pair for its text. -/
def ReadsPair (C : Charconv) (valor : Reader Value) (e : Bytes × Value) : Prop :=
  ValidUtf8 e.1 ∧ interna e.1 = false ∧ Reads C valor e.2

/-- The text of a pair. -/
def pairText (C : Charconv) (e : Bytes × Value) : Bytes :=
  escapar e.1 ++ 0x3A :: e.2.writeJson C

theorem pairText_begins (e : Bytes × Value) : Begins (pairText C e) := by
  obtain ⟨t, ht⟩ := escapar_begins e.1
  rw [pairText, ht]
  exact ⟨_, _, rfl, by decide⟩

theorem writeEntries_cons {e : Bytes × Value} (he : interna e.1 = false) (primero : Bool)
    (es : List (Bytes × Value)) :
    writeEntries C primero (e :: es) =
      (if primero then [] else [0x2C]) ++ pairText C e ++ writeEntries C false es := by
  obtain ⟨k, v⟩ := e
  simp only at he
  simp [writeEntries, he, pairText]

theorem par_write {valor : Reader Value} {e : Bytes × Value} (h : ReadsPair C valor e)
    (hr : Follow rest) : par valor (pairText C e ++ rest) = some (e, rest) := by
  obtain ⟨k, v⟩ := e
  obtain ⟨hk, -, hb, hread⟩ := h
  obtain ⟨t, ht, hcad⟩ := @cadena_valid (0x3A :: (v.writeJson C ++ rest)) k hk
  have htext : pairText C (k, v) ++ rest = 0x22 :: (t ++ 0x3A :: (v.writeJson C ++ rest)) := by
    rw [pairText, ht]
    simp
  rw [htext, par, espacios_cons (by decide)]
  show Option.bind (cadena (t ++ 0x3A :: (v.writeJson C ++ rest))) _ = _
  rw [hcad, Option.bind_some]
  dsimp only
  rw [espacios_cons (by decide)]
  show Option.bind (valor (espacios (v.writeJson C ++ rest))) _ = _
  rw [(hb.append _).espacios, hread _ hr]
  rfl

theorem pares_write {valor : Reader Value} {e : Bytes × Value} {es d : List (Bytes × Value)}
    (h : ∀ f ∈ e :: es, ReadsPair C valor f) (hnodup : ((d ++ e :: es).map Prod.fst).Nodup) {n : ℕ}
    (hn : es.length < n) :
    pares valor n d (writeEntries C true (e :: es) ++ 0x7D :: rest) = some (d ++ e :: es, rest) := by
  have hfresh : e.1 ∉ d.map Prod.fst := by
    rw [List.map_append, List.map_cons] at hnodup
    exact fun hmem => (List.nodup_append.1 hnodup).2.2 _ hmem _ (List.mem_cons_self ..) rfl
  have he := h e (List.mem_cons_self ..)
  induction es generalizing e d n with
  | nil =>
    obtain ⟨n, rfl⟩ : ∃ m, n = m + 1 := ⟨n - 1, by omega⟩
    rw [writeEntries_cons he.2.1, if_pos rfl, List.nil_append, List.append_assoc, writeEntries,
      List.nil_append, pares, par_write he (by rintro c ⟨⟩; exact .inr (.inr rfl)),
      Option.bind_eq_bind, Option.bind_some]
    dsimp only
    rw [espacios_cons (by decide), setKey_fresh hfresh]
    rfl
  | cons f fs ih =>
    obtain ⟨n, rfl⟩ : ∃ m, n = m + 1 := ⟨n - 1, by omega⟩
    have hf := h f (List.mem_cons_of_mem _ (List.mem_cons_self ..))
    have hnodup' : ((d ++ [e] ++ f :: fs).map Prod.fst).Nodup := by
      rwa [List.append_assoc, List.singleton_append]
    have hrest := ih (e := f) (d := d ++ [e]) (fun g hg => h g (List.mem_cons_of_mem _ hg)) hnodup'
      (n := n) (Nat.lt_of_succ_lt_succ hn) (by
        rw [List.map_append, List.map_cons] at hnodup'
        exact fun hmem => (List.nodup_append.1 hnodup').2.2 _ hmem _ (List.mem_cons_self ..) rfl) hf
    have hcomma : writeEntries C false (f :: fs) = 0x2C :: writeEntries C true (f :: fs) := by
      rw [writeEntries_cons hf.2.1, writeEntries_cons hf.2.1]
      rfl
    rw [writeEntries_cons he.2.1, if_pos rfl, List.nil_append, hcomma, List.append_assoc,
      List.cons_append, pares, par_write he (by rintro c ⟨⟩; exact .inl rfl), Option.bind_eq_bind,
      Option.bind_some]
    dsimp only
    rw [espacios_cons (by decide), setKey_fresh hfresh]
    show pares valor n (d ++ [e]) (writeEntries C true (f :: fs) ++ 0x7D :: rest) = _
    rw [hrest, List.append_assoc, List.singleton_append]

theorem length_le_writeEntries {es : List (Bytes × Value)} {primero : Bool}
    (h : ∀ e ∈ es, interna e.1 = false) : es.length ≤ (writeEntries C primero es).length := by
  induction es generalizing primero with
  | nil => exact Nat.zero_le _
  | cons e es ih =>
    obtain ⟨c, t, ht, -⟩ := pairText_begins (C := C) e
    have ih := @ih false fun f hf => h f (List.mem_cons_of_mem _ hf)
    rw [writeEntries_cons (h e (List.mem_cons_self ..)), ht]
    simp only [List.length_append, List.length_cons]
    omega

/-- A dictionary is read back, with its keys in their order. -/
theorem objeto_write {valor : Reader Value} {entries : List (Bytes × Value)}
    (h : ∀ e ∈ entries, ReadsPair C valor e) (hnodup : (entries.map Prod.fst).Nodup) :
    objeto valor (writeEntries C true entries ++ 0x7D :: rest) = some (.dict entries, rest) := by
  cases entries with
  | nil => rfl
  | cons e es =>
    have hbegins : Begins (writeEntries C true (e :: es) ++ 0x7D :: rest) := by
      rw [writeEntries_cons (h e (List.mem_cons_self ..)).2.1, if_pos rfl, List.nil_append,
        List.append_assoc]
      exact (pairText_begins e).append _
    have hlen := @length_le_writeEntries C (e :: es) true fun f hf => (h f hf).2.1
    have hread := @pares_write C rest valor e es [] h hnodup
      ((writeEntries C true (e :: es) ++ 0x7D :: rest).length + 1) (by
        rw [List.length_append]
        rw [List.length_cons] at hlen
        omega)
    rw [objeto, hbegins.espacios]
    obtain ⟨c, t, ht, -, -, hc⟩ := hbegins
    rw [ht] at hread ⊢
    split
    · next heq => exact absurd (List.cons.inj heq).1 hc
    · rw [hread]
      rfl

/-! ### Values -/

theorem literal_append (lit : String) (v : Value) (rest : Bytes) :
    literal lit v (ascii lit ++ rest) = some (v, rest) := by
  rw [literal, if_pos (by simp), List.drop_left]

/-- What begins as a number is read as a number. -/
theorem valor_number {n : ℕ} {t : Bytes} (ht : NumberText t) (rest : Bytes) :
    valor C (n + 1) (t ++ rest) = numero C (t ++ rest) := by
  obtain ⟨c, t', rfl, hc⟩ := ht.first
  have hne {k : UInt8} (hk : digito k = false) (hk' : k ≠ 0x2D) : c ≠ k := ne_of_first hc hk hk'
  rw [List.cons_append, valor, if_neg (hne (by decide) (by decide)),
    if_neg (hne (by decide) (by decide)), if_neg (hne (by decide) (by decide)),
    if_neg (hne (by decide) (by decide)), if_neg (hne (by decide) (by decide)),
    if_neg (hne (by decide) (by decide))]

/-- A value is read back, as long as it is not nested too deeply. -/
theorem valor_writeJson (hC : C.Inverse) (v : Value) (hv : v.Writable) {n : ℕ}
    (hn : v.nesting ≤ n) : Reads C (valor C (n + 1)) v := by
  refine ⟨writeJson_begins hC hv, fun rest hr => ?_⟩
  match v, hv with
  | .null, .null => exact literal_append "null" _ rest
  | .bool true, .bool _ => exact literal_append "true" _ rest
  | .bool false, .bool _ => exact literal_append "false" _ rest
  | .int i, .int _ =>
    rw [Value.writeJson, valor_number (decimal_text i)]
    exact numero_decimal C i hr
  | .float d, .float hd =>
    rw [Value.writeJson, valor_number (escribirDouble_text hC hd)]
    exact numero_escribirDouble hC hd hr
  | .str s, .str hs =>
    obtain ⟨t, ht, hread⟩ := @cadena_valid rest s hs
    rw [Value.writeJson, ht]
    show Option.bind (cadena (t ++ rest)) _ = _
    rw [hread]
    rfl
  | .list items, .list h =>
    have hitems : ∀ w ∈ items, Reads C (valor C n) w := fun w hw => by
      have hlt := nesting_of_mem hw
      rw [Value.nesting] at hn
      obtain ⟨m, rfl⟩ : ∃ m, n = m + 1 := ⟨n - 1, by omega⟩
      exact valor_writeJson hC w (h w hw) (by omega)
    rw [Value.writeJson, List.append_assoc, List.append_assoc]
    exact lista_write hitems
  | .dict entries, .dict hkeys hnodup h =>
    have hentries : ∀ e ∈ entries, ReadsPair C (valor C n) e := fun e he => by
      have hlt := nesting_of_mem_entries he
      rw [Value.nesting] at hn
      obtain ⟨m, rfl⟩ : ∃ m, n = m + 1 := ⟨n - 1, by omega⟩
      exact ⟨(hkeys e he).1, (hkeys e he).2, valor_writeJson hC e.2 (h e he) (by omega)⟩
    rw [Value.writeJson, List.append_assoc, List.append_assoc]
    exact objeto_write hentries hnodup
termination_by sizeOf v
decreasing_by
  · have := List.sizeOf_lt_of_mem hw
    simp only [Value.list.sizeOf_spec]
    omega
  · have hlt := List.sizeOf_lt_of_mem he
    obtain ⟨k, w⟩ := e
    simp only [Value.dict.sizeOf_spec, Prod.mk.sizeOf_spec] at hlt ⊢
    omega

end Trees

/-! ## The round trip -/

/-- A value that JSON can carry is read back from its text: the same tree, with the
    same types and the keys in the same order. -/
theorem parseJson_toJsonText {C : Charconv} (hC : C.Inverse) {v : Value} (hv : v.Writable)
    (hn : v.nesting ≤ kMaxProfundidad) : parseJson C (v.toJsonText C) = some v := by
  obtain ⟨hb, hread⟩ := valor_writeJson hC v hv hn
  have hend := hread [] (by rintro c ⟨⟩)
  rw [List.append_nil] at hend
  rw [parseJson, Value.toJsonText, hb.espacios, hend]
  rfl

/-- Conversions that write 1.5 as usual, and the other doubles by their bits. -/
def charconvOfBits : Charconv where
  toChars _ d :=
    some (if d = ⟨0x3FF8000000000000⟩ then ascii "1.5" else digitos d.bits.toNat ++ ascii "e0")
  fromChars t :=
    some (if t = ascii "1.5" then ⟨0x3FF8000000000000⟩
      else ⟨UInt64.ofNat (Nat.ofDigits 10 ((t.takeWhile digito).reverse.map (·.toNat - 0x30)))⟩)

theorem charconvOfBits_inverse : charconvOfBits.Inverse where
  inverse d hd := by
    by_cases h : d = ⟨0x3FF8000000000000⟩
    · subst h
      refine ⟨ascii "1.5", by decide, ⟨[], [0x31], [0x2E, 0x35], [], ?_, rfl⟩, by decide⟩
      exact ⟨.inl rfl, .inr ⟨.single (by decide), by decide⟩,
        .inr ⟨[0x35], .single (by decide), rfl⟩, .inl rfl⟩
    · refine ⟨digitos d.bits.toNat ++ ascii "e0", ?_, ?_, ?_⟩
      · show some (if d = _ then _ else _) = _
        rw [if_neg h]
      · refine ⟨[], digitos d.bits.toNat, [], ascii "e0", ?_, by simp⟩
        exact ⟨.inl rfl, digitos_entera _, .inl rfl,
          .inr ⟨0x65, [], [0x30], .inl rfl, .inl rfl, .single (by decide), rfl⟩⟩
      · have hne : digitos d.bits.toNat ++ ascii "e0" ≠ ascii "1.5" := fun e => by
          have hlast := congrArg List.getLast? e
          rw [List.getLast?_append, show (ascii "e0").getLast? = some 0x30 by decide,
            Option.some_or] at hlast
          exact absurd hlast (by decide)
        show some (if _ = _ then _ else _) = _
        rw [if_neg hne, List.takeWhile_append_of_pos (digitos_spec _).2,
          show (ascii "e0").takeWhile digito = [] by decide, List.append_nil, ofDigits_digitos,
          UInt64.ofNat_toNat]
  point t ht hm := by
    have hne : t ++ ascii ".0" ≠ ascii "1.5" := fun e => by
      have hlast := congrArg List.getLast? e
      rw [List.getLast?_append, show (ascii ".0").getLast? = some 0x30 by decide,
        Option.some_or] at hlast
      exact absurd hlast (by decide)
    have hne' : t ≠ ascii "1.5" := by
      rintro rfl
      exact absurd hm (by decide)
    have htake : (t ++ ascii ".0").takeWhile digito = t.takeWhile digito := by
      clear ht hm hne hne'
      induction t with
      | nil => decide
      | cons c t ih => rw [List.cons_append, List.takeWhile_cons, List.takeWhile_cons, ih]
    show some (if _ = _ then _ else _) = some (if _ = _ then _ else _)
    rw [if_neg hne, if_neg hne', htake]

theorem parseJson_toJsonText_nested :
    parseJson charconvOfBits (Value.toJsonText charconvOfBits
      (.dict [(ascii "a", .list [.float ⟨0x3FF8000000000000⟩, .int (-7), .str [0xC3, 0xA9, 0x0A]]),
        (ascii "b", .null)])) =
      some (.dict [(ascii "a",
        .list [.float ⟨0x3FF8000000000000⟩, .int (-7), .str [0xC3, 0xA9, 0x0A]]),
        (ascii "b", .null)]) := by
  refine parseJson_toJsonText charconvOfBits_inverse (.dict ?_ (by decide) ?_) (by decide)
  · rintro e (_ | ⟨_, _ | ⟨_, ⟨⟩⟩⟩)
    · exact ⟨⟨['a'], by decide⟩, by decide⟩
    · exact ⟨⟨['b'], by decide⟩, by decide⟩
  · rintro e (_ | ⟨_, _ | ⟨_, ⟨⟩⟩⟩)
    · refine .list ?_
      rintro v (_ | ⟨_, _ | ⟨_, _ | ⟨_, ⟨⟩⟩⟩⟩)
      · exact .float (by decide)
      · exact .int _
      · exact .str ⟨['é', '\n'], by decide⟩
    · exact .null

end Osodio.Json
