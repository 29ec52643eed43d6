import Osodio.Json.Streaming
import Osodio.Odio.Exactness
import Osodio.Odio.Messages
import Osodio.Odio.Received

/-!
# Texts of parameters

The text of a parameter is converted by the functions of the C library, which skip white space
and stop at the first character that does not belong to a number.  So a parameter is what its
whole text denotes only if nothing else stands around the number.

## Main definitions

- `stoll`, `Strtod.stod` — the conversions, by what the C library finds in front of a text
- `Literal`, `Denota` — the texts of a type, and their values
- `Completa` — the number in front of a text is all of it

## Main results

- `coerce_iff_completa` — when the texts that are accepted are the literals
- `coerce_strict` — the same of `coerce`, the way back, and the response to every other text
-/

namespace Osodio.Odio

open Osodio.Json (Double finiteRanks magnitudeOf Nearest)

/-! ## Numbers in front of a text -/

/-- `isspace`. -/
def isSpace (c : Char) : Bool := c == ' ' || ('\t' ≤ c && c ≤ '\r')

/-- The sign of a number, and what stands behind it. -/
def signoDe : List Char → List Char × List Char
  | '-' :: s => (['-'], s)
  | '+' :: s => (['+'], s)
  | s => ([], s)

/-- A sign and what stands behind it, once white space is skipped. -/
def frente (text : String) : List Char × List Char := signoDe (text.toList.dropWhile isSpace)

def conSigno (signo : List Char) (n : ℕ) : ℤ := if signo = ['-'] then -n else n

def naturalDe (ds : List Char) : ℕ := Nat.ofDigitChars 10 ds 0

/-- `stoll`: white space, a sign and digits, and then whatever there is. -/
def stoll (text : String) : Option Int64 :=
  let cifras := (frente text).2.takeWhile Char.isDigit
  if cifras ≠ [] ∧ EnRango (conSigno (frente text).1 (naturalDe cifras)) then
    some (Int64.ofInt (conSigno (frente text).1 (naturalDe cifras)))
  else none

/-- What `strtod` reads. -/
inductive Numero where
  | decimal (entera fraccion : List Char) (exponente : ℤ)
  | hexadecimal (entera fraccion : List Char) (exponente : ℤ)
  | infinito
  | noNumero
  deriving DecidableEq, Repr

def cifraHex (c : Char) : Bool := c.isDigit || ('a' ≤ c.toLower && c.toLower ≤ 'f')

def valorHex (c : Char) : ℕ := if c.isDigit then c.toNat - 48 else c.toLower.toNat - 87

/-- The number without its sign, in units of `2 ^ -1074`. -/
def Numero.unidades : Numero → Option ℚ
  | .decimal e f x => some (naturalDe (e ++ f) * 10 ^ (x - f.length) * 2 ^ 1074)
  | .hexadecimal e f x =>
    some ((e ++ f).foldl (fun n c => 16 * n + valorHex c) 0 * 2 ^ (x - 4 * f.length) * 2 ^ 1074)
  | .infinito | .noNumero => none

/-- The digits before the point, those behind it, and the rest. -/
def mantisaDe (cifra : Char → Bool) (s : List Char) : List Char × List Char × List Char :=
  match s.dropWhile cifra with
  | '.' :: r => (s.takeWhile cifra, r.takeWhile cifra, r.dropWhile cifra)
  | r => (s.takeWhile cifra, [], r)

/-- An exponent behind its mark, if digits follow, and the rest. -/
def exponenteDe (marca : Char) : List Char → ℤ × List Char
  | [] => (0, [])
  | c :: r =>
    let (signo, ds) := signoDe r
    if c.toLower = marca ∧ ds.takeWhile Char.isDigit ≠ [] then
      (conSigno signo (naturalDe (ds.takeWhile Char.isDigit)), ds.dropWhile Char.isDigit)
    else (0, c :: r)

/-- A decimal number in front of a text, and the rest. -/
def decimalDe (s : List Char) : Option (Numero × List Char) :=
  let (entera, fraccion, r) := mantisaDe Char.isDigit s
  if entera = [] ∧ fraccion = [] then none
  else some (.decimal entera fraccion (exponenteDe 'e' r).1, (exponenteDe 'e' r).2)

def hexadecimalDe : List Char → Option Numero
  | '0' :: x :: s =>
    let (entera, fraccion, r) := mantisaDe cifraHex s
    if x.toLower ≠ 'x' ∨ (entera = [] ∧ fraccion = []) then none
    else some (.hexadecimal entera fraccion (exponenteDe 'p' r).1)
  | _ => none

/-- The text starts with a word, in capitals or not. -/
def empieza (palabra : String) (s : List Char) : Bool :=
  (s.take palabra.length).map Char.toLower == palabra.toList

/-- What `strtod` finds behind white space and a sign. -/
def numeroDe (s : List Char) : Option Numero :=
  if empieza "inf" s then some .infinito
  else if empieza "nan" s then some .noNumero
  else (hexadecimalDe s).or ((decimalDe s).map Prod.fst)

/-- The part of `strtod` that rounds; and whether it reports that a number is too small, which
    the C standard leaves to the library. -/
structure Strtod where
  convierte : Bool → Numero → Option Float
  avisa : Bool → Numero → Prop

def Strtod.stod (L : Strtod) (text : String) : Option Float :=
  (numeroDe (frente text).2).bind fun n => L.convierte ((frente text).1 = ['-']) n

/-- The primitives of a program on a C library. -/
def Primitives.conC (O : Primitives) (L : Strtod) : Primitives :=
  { O with stoll := Odio.stoll, stod := L.stod }

/-! ## Literals -/

/-- The nearest double is finite. -/
def Numero.Cabe (n : Numero) : Prop := ∀ x ∈ n.unidades, x < 2 ^ 2098 - 2 ^ 2044

/-- The double of a number: its sign, and the magnitude that is nearest. -/
def Numero.Redondeado (negativo : Bool) (n : Numero) (d : Float) : Prop :=
  ∀ x ∈ n.unidades, ((⟨d.toBits⟩ : Double).negative ↔ negativo = true) ∧
    Nearest x (⟨d.toBits⟩ : Double).rank

/-- What is documented of `strtod`: it rounds, and fails where the number is out of range or is
    reported as too small.  Only numbers below the normal ones may be reported. -/
structure Strtod.Documentada (L : Strtod) : Prop where
  lee : ∀ negativo n, n.Cabe → ¬L.avisa negativo n →
    ∃ d, L.convierte negativo n = some d ∧ n.Redondeado negativo d
  falla : ∀ negativo n, ¬n.Cabe ∨ L.avisa negativo n → L.convierte negativo n = none
  menudo : ∀ negativo n, L.avisa negativo n → ∃ x ∈ n.unidades, 0 < x ∧ x < 2 ^ 52

def Cifras (ds : List Char) : Prop := ∀ c ∈ ds, c.isDigit = true

/-- A minus, or nothing. -/
def Menos (signo : List Char) : Prop := signo = [] ∨ signo = ['-']

/-- The text is an integer. -/
def EsEntero (text : String) (n : ℤ) : Prop := ∃ signo ds, text.toList = signo ++ ds ∧
  Menos signo ∧ ds ≠ [] ∧ Cifras ds ∧ n = conSigno signo (naturalDe ds)

/-- A point with the digits behind it, if there is one. -/
inductive Punto : List Char → List Char → Prop
  | sin : Punto [] []
  | con {f} (hf : Cifras f) : Punto ('.' :: f) f

/-- An exponent, if there is one. -/
inductive Exponente : List Char → ℤ → Prop
  | sin : Exponente [] 0
  | con {m signo ds} (hm : m.toLower = 'e') (hs : Menos signo ∨ signo = ['+']) (hne : ds ≠ [])
    (hd : Cifras ds) : Exponente (m :: (signo ++ ds)) (conSigno signo (naturalDe ds))

/-- A decimal number: digits before the point or behind it, and perhaps an exponent. -/
def EsDecimal (s : List Char) (n : Numero) : Prop := ∃ entera punto fraccion exponente x,
  s = entera ++ punto ++ exponente ∧ Cifras entera ∧ Punto punto fraccion ∧
    Exponente exponente x ∧ (entera ≠ [] ∨ fraccion ≠ []) ∧ n = .decimal entera fraccion x

/-- The text is a decimal number with its sign. -/
def EsReal (text : String) (negativo : Bool) (n : Numero) : Prop := ∃ signo s,
  text.toList = signo ++ s ∧ Menos signo ∧ EsDecimal s n ∧ (negativo = true ↔ signo = ['-'])

/-- The text is a literal of the type, within its range. -/
inductive Literal (text : String) : String → Prop
  | string : Literal text "string"
  | entero {type n} (ht : type = "int" ∨ type = "long") (h : EsEntero text n)
    (hn : EnRango n) : Literal text type
  | real {type negativo n} (ht : type = "float" ∨ type = "double") (h : EsReal text negativo n)
    (hn : n.Cabe) : Literal text type
  | bool (h : text ∈ ["true", "1", "false", "0"]) : Literal text "bool"

/-- The value that a literal denotes. -/
inductive Denota (text : String) : String → Value → Prop
  | string : Denota text "string" (.str text)
  | entero {type n} (ht : type = "int" ∨ type = "long") (h : EsEntero text n)
    (hn : EnRango n) : Denota text type (.int (Int64.ofInt n))
  | real {type negativo n d} (ht : type = "float" ∨ type = "double")
    (h : EsReal text negativo n) (hd : n.Redondeado negativo d) : Denota text type (.float d)
  | cierto (h : text = "true" ∨ text = "1") : Denota text "bool" (.bool true)
  | falso (h : text = "false" ∨ text = "0") : Denota text "bool" (.bool false)

/-- A number within the range that stands in front of the text, behind white space and a sign,
    is all of it. -/
def Completa (L : Strtod) (type text : String) : Prop :=
  if type = "int" ∨ type = "long" then
    let cifras := (frente text).2.takeWhile Char.isDigit
    cifras ≠ [] → EnRango (conSigno (frente text).1 (naturalDe cifras)) → ∃ n, EsEntero text n
  else if type = "float" ∨ type = "double" then
    ∀ n, numeroDe (frente text).2 = some n → n.Cabe →
      ((∃ negativo m, EsReal text negativo m) ↔ ¬L.avisa ((frente text).1 = ['-']) n)
  else True

/-! ## What is found in front of a literal -/

section Scanning

variable {c : Char} {s t ds signo entera punto fraccion exponente : List Char} {x n : ℤ}
variable {text : String} {m : Numero} {negativo : Bool}

theorem toLower_of_isDigit (h : c.isDigit = true) : c.toLower = c := by
  rw [Char.isDigit, Bool.and_eq_true, decide_eq_true_iff, decide_eq_true_iff] at h
  refine dif_neg ?_
  rintro ⟨hupper, -⟩
  exact absurd (UInt32.le_trans hupper h.2) (by decide)

/-- A character that a number starts with. -/
def Inicial (c : Char) : Prop := c.isDigit = true ∨ c = '.'

theorem Inicial.not_space (h : Inicial c) : isSpace c = false := by
  obtain h | rfl := h
  · rw [Char.isDigit, Bool.and_eq_true, decide_eq_true_iff, decide_eq_true_iff] at h
    rw [isSpace, Bool.or_eq_false_iff, Bool.and_eq_false_iff]
    constructor
    · rw [beq_eq_false_iff_ne]
      rintro rfl
      exact absurd h.1 (by decide)
    · right
      rw [decide_eq_false_iff_not]
      intro hle
      exact absurd (UInt32.le_trans h.1 hle) (by decide)
  · rfl

theorem Inicial.signoDe (h : Inicial c) : Odio.signoDe (c :: s) = ([], c :: s) := by
  rw [Odio.signoDe]
  · rintro s ⟨⟩
    obtain h | h := h <;> exact absurd h (by decide)
  · rintro s ⟨⟩
    obtain h | h := h <;> exact absurd h (by decide)

theorem signoDe_append (hs : Menos signo ∨ signo = ['+']) (hc : Inicial c) :
    signoDe (signo ++ c :: s) = (signo, c :: s) := by
  obtain (rfl | rfl) | rfl := hs
  · exact hc.signoDe
  · rfl
  · rfl

/-- In front of a number with its sign there is nothing to skip. -/
theorem frente_eq (htext : text.toList = signo ++ c :: s) (hs : Menos signo) (hc : Inicial c) :
    frente text = (signo, c :: s) := by
  have hskip : text.toList.dropWhile isSpace = text.toList := by
    rw [htext]
    obtain rfl | rfl := hs
    · exact List.dropWhile_cons_of_neg (by rw [hc.not_space]; decide)
    · rfl
  rw [frente, hskip, htext, signoDe_append (.inl hs) hc]

theorem Cifras.takeWhile (h : Cifras ds) (ht : ∀ c ∈ t.head?, c.isDigit = false) :
    (ds ++ t).takeWhile Char.isDigit = ds ∧ (ds ++ t).dropWhile Char.isDigit = t := by
  rw [List.takeWhile_append_of_pos h, List.dropWhile_append_of_pos h]
  cases t with
  | nil => exact ⟨List.append_nil _, rfl⟩
  | cons c t =>
    have hc : ¬c.isDigit = true := by
      rw [ht c rfl]
      decide
    rw [List.takeWhile_cons_of_neg hc, List.dropWhile_cons_of_neg hc]
    exact ⟨List.append_nil _, rfl⟩

/-- What is in front of an integer is all of it. -/
theorem EsEntero.frente (h : EsEntero text n) :
    (frente text).2.takeWhile Char.isDigit ≠ [] ∧
      n = conSigno (frente text).1 (naturalDe ((Odio.frente text).2.takeWhile Char.isDigit)) := by
  obtain ⟨signo, ds, htext, hs, hne, hd, rfl⟩ := h
  obtain ⟨c, ds', rfl⟩ := List.exists_cons_of_ne_nil hne
  have htake := (hd.takeWhile (t := []) (by rintro c ⟨⟩)).1
  rw [List.append_nil] at htake
  rw [frente_eq htext hs (.inl (hd c (List.mem_cons_self ..))), htake]
  exact ⟨hne, rfl⟩

theorem EsEntero.mem (h : EsEntero text n) (hc : c ∈ text.toList) :
    c = '-' ∨ c.isDigit = true := by
  obtain ⟨signo, ds, htext, hs, -, hd, -⟩ := h
  rw [htext, List.mem_append] at hc
  obtain hc | hc := hc
  · obtain rfl | rfl := hs
    · cases hc
    · exact .inl (List.mem_singleton.1 hc)
  · exact .inr (hd c hc)

theorem Exponente.head (h : Exponente exponente x) (hc : c ∈ exponente.head?) :
    c.isDigit = false ∧ c ≠ '.' := by
  cases h with
  | sin => cases hc
  | con hm hs hne hd =>
    obtain rfl := Option.mem_some_iff.1 hc
    constructor
    · by_contra hdigit
      rw [Bool.not_eq_false] at hdigit
      rw [toLower_of_isDigit hdigit] at hm
      subst hm
      exact absurd hdigit (by decide)
    · rintro rfl
      exact absurd hm (by decide)

theorem exponenteDe_eq (h : Exponente exponente x) : exponenteDe 'e' exponente = (x, []) := by
  cases h with
  | sin => rfl
  | @con m signo ds hm hs hne hd =>
    obtain ⟨c, ds', rfl⟩ := List.exists_cons_of_ne_nil hne
    have hscan := hd.takeWhile (t := []) (by rintro c ⟨⟩)
    rw [List.append_nil] at hscan
    rw [exponenteDe, signoDe_append hs (.inl (hd c (List.mem_cons_self ..)))]
    dsimp only
    rw [hscan.1, hscan.2, if_pos ⟨hm, hne⟩]

theorem mantisaDe_eq (he : Cifras entera) (hp : Punto punto fraccion)
    (hx : Exponente exponente x) :
    mantisaDe Char.isDigit (entera ++ (punto ++ exponente)) = (entera, fraccion, exponente) := by
  cases hp with
  | sin =>
    have hscan := he.takeWhile fun c hc => (hx.head hc).1
    rw [List.nil_append, mantisaDe, hscan.1, hscan.2]
    cases exponente with
    | nil => rfl
    | cons m r =>
      split
      · next heq =>
        cases heq
        exact absurd rfl (hx.head rfl).2
      · rfl
  | con hf =>
    have hscan := he.takeWhile (t := '.' :: (fraccion ++ exponente)) (by rintro c ⟨⟩; rfl)
    have hscan' := hf.takeWhile fun c hc => (hx.head hc).1
    rw [List.cons_append, mantisaDe, hscan.1, hscan.2]
    change (entera, (fraccion ++ exponente).takeWhile _, (fraccion ++ exponente).dropWhile _) = _
    rw [hscan'.1, hscan'.2]

theorem EsDecimal.decimalDe (h : EsDecimal s m) : decimalDe s = some (m, []) := by
  obtain ⟨entera, punto, fraccion, exponente, x, rfl, he, hp, hx, hne, rfl⟩ := h
  rw [List.append_assoc, Odio.decimalDe, mantisaDe_eq he hp hx]
  dsimp only
  rw [if_neg (by tauto), exponenteDe_eq hx]

/-- The letter `e` is the only one. -/
theorem EsDecimal.mem (h : EsDecimal s m) (hc : c ∈ s) :
    c.toLower = 'e' ∨ c.toLower = '+' ∨ c.toLower = '-' ∨ c.toLower = '.' ∨
      c.toLower.isDigit = true := by
  obtain ⟨entera, punto, fraccion, exponente, x, rfl, he, hp, hx, -, -⟩ := h
  have hcifras {ds : List Char} (hd : Cifras ds) (hc : c ∈ ds) : c.toLower.isDigit = true := by
    rw [toLower_of_isDigit (hd c hc)]
    exact hd c hc
  obtain hc | hc := List.mem_append.1 hc
  · obtain hc | hc := List.mem_append.1 hc
    · exact .inr (.inr (.inr (.inr (hcifras he hc))))
    · cases hp with
      | sin => cases hc
      | con hf =>
        obtain rfl | hc := List.mem_cons.1 hc
        · exact .inr (.inr (.inr (.inl rfl)))
        · exact .inr (.inr (.inr (.inr (hcifras hf hc))))
  · cases hx with
    | sin => cases hc
    | con hm hs hne hd =>
      obtain rfl | hc := List.mem_cons.1 hc
      · exact .inl hm
      obtain hc | hc := List.mem_append.1 hc
      · obtain (rfl | rfl) | rfl := hs
        · cases hc
        · obtain rfl := List.mem_singleton.1 hc
          exact .inr (.inr (.inl rfl))
        · obtain rfl := List.mem_singleton.1 hc
          exact .inr (.inl rfl)
      · exact .inr (.inr (.inr (.inr (hcifras hd hc))))

theorem EsDecimal.head (h : EsDecimal s m) : ∃ c t, s = c :: t ∧ Inicial c := by
  obtain ⟨entera, punto, fraccion, exponente, x, rfl, he, hp, hx, hne, -⟩ := h
  cases entera with
  | cons c entera => exact ⟨c, _, rfl, .inl (he c (List.mem_cons_self ..))⟩
  | nil =>
    cases hp with
    | sin => simp at hne
    | con hf => exact ⟨'.', _, rfl, .inr rfl⟩

theorem EsDecimal.not_empieza (h : EsDecimal s m) {palabra : String} {p : List Char}
    (hp : palabra.toList = c :: p) (hc : c = 'i' ∨ c = 'n') : empieza palabra s = false := by
  obtain ⟨c', t, rfl, -⟩ := h.head
  rw [empieza, beq_eq_false_iff_ne, hp]
  intro heq
  have hlen : palabra.length = p.length + 1 := by
    rw [← String.length_toList, hp, List.length_cons]
  rw [hlen, List.take_succ_cons, List.map_cons, List.cons.injEq] at heq
  have hmem := h.mem (List.mem_cons_self ..)
  rw [heq.1] at hmem
  obtain rfl | rfl := hc <;> exact absurd hmem (by decide)

/-- A decimal number is read as one. -/
theorem EsDecimal.numeroDe (h : EsDecimal s m) : numeroDe s = some m := by
  have hhex : hexadecimalDe s = none := by
    rw [hexadecimalDe.eq_def]
    split
    · next x s =>
      have hx : x.toLower ≠ 'x' := by
        intro hx
        have hmem := h.mem (List.mem_cons_of_mem _ (List.mem_cons_self (a := x) (l := s)))
        rw [hx] at hmem
        exact absurd hmem (by decide)
      exact if_pos (.inl hx)
    · rfl
  rw [Odio.numeroDe, h.not_empieza rfl (.inl rfl), h.not_empieza rfl (.inr rfl), hhex, h.decimalDe]
  rfl

/-- What is in front of a decimal number with its sign is all of it. -/
theorem EsReal.frente (h : EsReal text negativo m) : numeroDe (frente text).2 = some m ∧
    (negativo = true ↔ (Odio.frente text).1 = ['-']) := by
  obtain ⟨signo, s, htext, hs, hm, hneg⟩ := h
  obtain ⟨c, t, rfl, hc⟩ := hm.head
  rw [frente_eq htext hs hc]
  exact ⟨hm.numeroDe, hneg⟩

end Scanning

/-! ## Coercion -/

section Coercion

variable {O : Primitives} {L : Strtod} {text type : String} {v : Value} {n : ℤ}

theorem stoll_eq (text : String) : (stoll text).isSome = true ↔
    (frente text).2.takeWhile Char.isDigit ≠ [] ∧ EnRango
      (conSigno (frente text).1 (naturalDe ((frente text).2.takeWhile Char.isDigit))) := by
  rw [stoll]
  split
  · next h => exact ⟨fun _ => h, fun _ => rfl⟩
  · next h => exact ⟨fun hf => absurd hf (by decide), fun h' => absurd h' h⟩

theorem EsEntero.stoll (h : EsEntero text n) (hn : EnRango n) :
    stoll text = some (Int64.ofInt n) := by
  obtain ⟨hne, rfl⟩ := h.frente
  exact if_pos ⟨hne, hn⟩

theorem Strtod.stod_eq (hL : L.Documentada) (text : String) : (L.stod text).isSome = true ↔
    ∃ m, numeroDe (frente text).2 = some m ∧ m.Cabe ∧ ¬L.avisa ((frente text).1 = ['-']) m := by
  rw [stod]
  cases numeroDe (frente text).2 with
  | none => simp
  | some m =>
    rw [Option.bind_some]
    by_cases hm : m.Cabe ∧ ¬L.avisa ((frente text).1 = ['-']) m
    · obtain ⟨d, hd, -⟩ := hL.lee _ m hm.1 hm.2
      rw [hd]
      exact ⟨fun _ => ⟨m, rfl, hm⟩, fun _ => rfl⟩
    · have hfails : ¬m.Cabe ∨ L.avisa ((frente text).1 = ['-']) m := by tauto
      rw [hL.falla _ m hfails]
      refine ⟨fun hf => absurd hf (by decide), ?_⟩
      rintro ⟨_, ⟨⟩, h⟩
      exact absurd h hm

/-- The texts of a type that are accepted are its literals, with the values they denote. -/
def Estricta (O : Primitives) (type text : String) : Prop :=
  ((coerce O text type).isSome = true ↔ Literal text type) ∧
    ∀ v, coerce O text type = some v → Literal text type → Denota text type v

theorem literal_int (ht : type = "int" ∨ type = "long") :
    Literal text type ↔ ∃ n, EsEntero text n ∧ EnRango n := by
  constructor
  · rintro (_ | ⟨-, h, hn⟩ | ⟨h, -, -⟩ | _)
    · exact absurd ht (by decide)
    · exact ⟨_, h, hn⟩
    · obtain rfl | rfl := ht <;> exact absurd h (by decide)
    · exact absurd ht (by decide)
  · rintro ⟨n, h, hn⟩
    exact .entero ht h hn

theorem literal_float (ht : type = "float" ∨ type = "double") :
    Literal text type ↔ ∃ negativo m, EsReal text negativo m ∧ m.Cabe := by
  constructor
  · rintro (_ | ⟨h, -, -⟩ | ⟨-, h, hm⟩ | _)
    · exact absurd ht (by decide)
    · obtain rfl | rfl := ht <;> exact absurd h (by decide)
    · exact ⟨_, _, h, hm⟩
    · exact absurd ht (by decide)
  · rintro ⟨negativo, m, h, hm⟩
    exact .real ht h hm

/-- The types of an integer. -/
theorem estricta_int (O : Primitives) (L : Strtod) (ht : type = "int" ∨ type = "long") :
    Estricta (O.conC L) type text ↔ Completa L type text := by
  have hstring : type ≠ "string" := by
    rintro rfl
    exact absurd ht (by decide)
  have hcoerce : coerce (O.conC L) text type = (stoll text).map .int := by
    rw [coerce, if_neg hstring, if_pos ht]
    rfl
  have hvalue (v : Value) (hv : coerce (O.conC L) text type = some v)
      (h : Literal text type) : Denota text type v := by
    obtain ⟨n, h, hn⟩ := (literal_int ht).1 h
    rw [hcoerce, h.stoll hn] at hv
    cases hv
    exact .entero ht h hn
  rw [Estricta, and_iff_left hvalue, hcoerce, Option.isSome_map, stoll_eq, literal_int ht,
    Completa, if_pos ht]
  dsimp only
  constructor
  · intro h hne hn
    obtain ⟨n, h, -⟩ := h.1 ⟨hne, hn⟩
    exact ⟨n, h⟩
  · intro h
    constructor
    · rintro ⟨hne, hn⟩
      obtain ⟨n, he⟩ := h hne hn
      obtain ⟨-, rfl⟩ := he.frente
      exact ⟨_, he, hn⟩
    · rintro ⟨n, he, hn⟩
      obtain ⟨hne, rfl⟩ := he.frente
      exact ⟨hne, hn⟩

/-- The types of a real. -/
theorem estricta_float (O : Primitives) (hL : L.Documentada)
    (ht : type = "float" ∨ type = "double") :
    Estricta (O.conC L) type text ↔ Completa L type text := by
  have hstring : type ≠ "string" := by
    rintro rfl
    exact absurd ht (by decide)
  have hint : ¬(type = "int" ∨ type = "long") := by
    obtain rfl | rfl := ht <;> decide
  have hcoerce : coerce (O.conC L) text type = (L.stod text).map .float := by
    rw [coerce, if_neg hstring, if_neg hint, if_pos ht]
    rfl
  have hvalue (v : Value) (hv : coerce (O.conC L) text type = some v)
      (h : Literal text type) : Denota text type v := by
    obtain ⟨negativo, m, h, hm⟩ := (literal_float ht).1 h
    have hsome : (L.stod text).isSome = true := by
      rw [hcoerce] at hv
      cases hd : L.stod text with
      | none => rw [hd] at hv; cases hv
      | some d => rfl
    obtain ⟨m', hm', hcabe, havisa⟩ := (Strtod.stod_eq hL text).1 hsome
    obtain rfl := Option.some.inj (hm'.symm.trans h.frente.1)
    obtain ⟨d, hd, hround⟩ := hL.lee _ m' hcabe havisa
    rw [hcoerce, Strtod.stod, hm', Option.bind_some, hd] at hv
    cases hv
    have hneg : decide ((frente text).1 = ['-']) = negativo :=
      Bool.eq_iff_iff.2 (decide_eq_true_iff.trans h.frente.2.symm)
    rw [hneg] at hround
    exact .real ht h hround
  rw [Estricta, and_iff_left hvalue, hcoerce, Option.isSome_map, Strtod.stod_eq hL,
    literal_float ht, Completa, if_neg hint, if_pos ht]
  constructor
  · intro h m hm hcabe
    constructor
    · rintro ⟨negativo, m', he⟩
      obtain rfl := Option.some.inj (he.frente.1.symm.trans hm)
      obtain ⟨m'', hm'', -, havisa⟩ := h.2 ⟨negativo, m', he, hcabe⟩
      obtain rfl := Option.some.inj (hm''.symm.trans hm)
      exact havisa
    · intro havisa
      obtain ⟨negativo, m', he, -⟩ := h.1 ⟨m, hm, hcabe, havisa⟩
      exact ⟨negativo, m', he⟩
  · intro h
    constructor
    · rintro ⟨m, hm, hcabe, havisa⟩
      obtain ⟨negativo, m', he⟩ := (h m hm hcabe).2 havisa
      obtain rfl := Option.some.inj (he.frente.1.symm.trans hm)
      exact ⟨negativo, m', he, hcabe⟩
    · rintro ⟨negativo, m, he, hcabe⟩
      exact ⟨m, he.frente.1, hcabe, (h m he.frente.1 hcabe).1 ⟨negativo, m, he⟩⟩

/-- The other types, and what is no scalar. -/
theorem estricta_exact (O : Primitives) (L : Strtod) (hint : ¬(type = "int" ∨ type = "long"))
    (hfloat : ¬(type = "float" ∨ type = "double")) : Estricta (O.conC L) type text := by
  rw [Estricta, coerce, if_neg hint, if_neg hfloat]
  by_cases hs : type = "string"
  · subst hs
    refine ⟨⟨fun _ => .string, fun _ => rfl⟩, ?_⟩
    rintro v ⟨⟩ -
    exact .string
  rw [if_neg hs]
  by_cases hb : type = "bool"
  · rw [if_pos hb]
    have hlit : Literal text type ↔ text ∈ ["true", "1", "false", "0"] := by
      constructor
      · rintro (_ | ⟨ht, -, -⟩ | ⟨ht, -, -⟩ | h)
        · exact absurd rfl hs
        · exact absurd ht hint
        · exact absurd ht hfloat
        · exact h
      · rintro h
        subst hb
        exact .bool h
    simp only [List.mem_cons, List.not_mem_nil, or_false] at hlit
    rw [hlit]
    by_cases htrue : text = "true" ∨ text = "1"
    · rw [if_pos htrue]
      refine ⟨by simp only [Option.isSome_some]; tauto, ?_⟩
      rintro v ⟨⟩ -
      subst hb
      exact .cierto htrue
    rw [if_neg htrue]
    by_cases hfalse : text = "false" ∨ text = "0"
    · rw [if_pos hfalse]
      refine ⟨by simp only [Option.isSome_some]; tauto, ?_⟩
      rintro v ⟨⟩ -
      subst hb
      exact .falso hfalse
    rw [if_neg hfalse]
    refine ⟨?_, by rintro v ⟨⟩⟩
    simp only [Option.isSome_none, Bool.false_eq_true, false_iff]
    tauto
  · rw [if_neg hb]
    refine ⟨⟨fun h => absurd h (by decide), fun h => ?_⟩, by rintro v ⟨⟩⟩
    cases h with
    | string => exact absurd rfl hs
    | entero ht => exact absurd ht hint
    | real ht => exact absurd ht hfloat
    | bool => exact absurd rfl hb

/-- The texts of a type that are accepted are its literals exactly where the number in front of
    the text is all of it. -/
theorem coerce_iff_completa (O : Primitives) (hL : L.Documentada) (type text : String) :
    Estricta (O.conC L) type text ↔ Completa L type text := by
  by_cases hint : type = "int" ∨ type = "long"
  · exact estricta_int O L hint
  by_cases hfloat : type = "float" ∨ type = "double"
  · exact estricta_float O hL hfloat
  · refine iff_of_true (estricta_exact O L hint hfloat) ?_
    rw [Completa, if_neg hint, if_neg hfloat]
    trivial

/-! ## The way back -/

theorem isDigit_ofNat {c : UInt8} (h : Json.digito c = true) :
    (Char.ofNat c.toNat).isDigit = true := by
  have hall : ∀ n < 58, 48 ≤ n → (Char.ofNat n).isDigit = true := by decide +kernel
  rw [Json.digito, Bool.and_eq_true, decide_eq_true_iff, decide_eq_true_iff] at h
  exact hall _ (Nat.lt_succ_of_le (UInt8.le_iff_toNat_le.1 h.2)) (UInt8.le_iff_toNat_le.1 h.1)

theorem naturalDe_texto (bs : Json.Bytes) : naturalDe (texto bs).toList = Json.natOf bs := by
  have hall : ∀ n < 256, (Char.ofNat n).toNat = n := by decide +kernel
  rw [texto, String.toList_ofList]
  induction bs using List.reverseRecOn with
  | nil => rfl
  | append_singleton bs c ih =>
    rw [naturalDe] at ih
    rw [List.map_append, naturalDe, Nat.ofDigitChars_append, ih, Json.natOf_append, List.map_cons,
      List.map_nil, Nat.ofDigitChars_cons, Nat.ofDigitChars_nil, hall _ c.toNat_lt, Nat.mul_comm]
    simp [Json.natOf]

/-- The decimal form of an integer is a text of it. -/
theorem esEntero_decimal (i : Int64) : EsEntero (texto (Json.decimal i)) i.toInt := by
  obtain ⟨hne, hd⟩ := Json.digitos_spec i.toInt.natAbs
  have hcifras : Cifras (texto (Json.digitos i.toInt.natAbs)).toList := by
    rw [texto, String.toList_ofList]
    intro c hc
    obtain ⟨b, hb, rfl⟩ := List.mem_map.1 hc
    exact isDigit_ofNat (hd b hb)
  have hne' : (texto (Json.digitos i.toInt.natAbs)).toList ≠ [] := by
    rw [texto, String.toList_ofList]
    simpa using hne
  have hvalue : naturalDe (texto (Json.digitos i.toInt.natAbs)).toList = i.toInt.natAbs := by
    rw [naturalDe_texto, Json.natOf_digitos]
  rw [Json.decimal]
  split
  · next hneg =>
    refine ⟨['-'], _, ?_, .inr rfl, hne', hcifras, ?_⟩
    · rw [texto, texto, String.toList_ofList, String.toList_ofList, List.map_append]
      rfl
    · have hlt : i.toInt < 0 := Int64.lt_iff_toInt_lt.1 hneg
      rw [hvalue, conSigno, if_pos rfl]
      omega
  · next hpos =>
    refine ⟨[], (texto (Json.digitos i.toInt.natAbs)).toList, rfl, .inl rfl, hne', hcifras, ?_⟩
    have hle : ¬i.toInt < 0 := fun h => hpos (Int64.lt_iff_toInt_lt.2 h)
    rw [hvalue, conSigno, if_neg (by decide)]
    omega

/-- Integers, bools and strings come back from their texts. -/
theorem coerce_toString (O : Primitives) (L : Strtod) (C : Json.Charconv) :
    (∀ i, coerce (O.conC L) (texto ((Json.Value.int i).toString C)) "int" = some (.int i)) ∧
      (∀ b, coerce (O.conC L) (texto ((Json.Value.bool b).toString C)) "bool" =
        some (.bool b)) ∧
      ∀ s, coerce (O.conC L) (texto ((Json.Value.str s).toString C)) "string" =
        some (.str (texto s)) := by
  refine ⟨fun i => ?_, fun b => ?_, fun s => ?_⟩
  · have hi := (esEntero_decimal i).stoll ⟨i.le_toInt, i.toInt_lt⟩
    rw [Int64.ofInt_toInt] at hi
    rw [Json.Value.toString, coerce, if_neg (by decide), if_pos (by decide)]
    exact congrArg (Option.map Value.int) hi
  · have htrue : texto (Json.ascii "true") = "true" := by decide
    have hfalse : texto (Json.ascii "false") = "false" := by decide
    rw [Json.Value.toString, coerce, if_neg (by decide), if_neg (by decide), if_neg (by decide),
      if_pos rfl]
    cases b with
    | true => exact if_pos (.inl htrue)
    | false =>
      rw [if_neg Bool.false_ne_true, hfalse, if_neg (by decide), if_pos (by decide)]
  · exact if_pos rfl

/-! ## Every other text -/

/-- Where the parameters before `b` are bound and the text of `b` is not accepted, the response is
    400, and no handler starts. -/
def Rechaza (O : Primitives) : Prop :=
  ∀ before b after input raw slots, (prepareArgs O before input).1 = .ok slots →
    (b.kind = .path ∨ b.kind = .query) → rawText b input = some raw → coerce O raw b.type = none →
      ∃ refusal, (prepareArgs O (before ++ b :: after) input).1 = .error refusal ∧
        refusal.code = 400 ∧ ∀ handlers s t id thread,
          (threads O handlers).step s
            (.arrive ⟨id, thread, .route (before ++ b :: after) input⟩) = some t →
              t.running = s.running

theorem rechaza (O : Primitives) : Rechaza O := by
  intro before b after input raw slots hbefore hk hraw hno
  have hb (left : List String) :
      bindParam O b input left = (.error (.badParam b.name b.type raw), left) := by
    rw [bindParam]
    obtain hk | hk := hk <;> rw [hk] <;> dsimp only <;> rw [hraw] <;> dsimp only <;> rw [hno]
  have herror : (prepareArgs O (before ++ b :: after) input).1 =
      .error (.badParam b.name b.type raw) :=
    prepareArgs_refused hbefore fun left => congrArg Prod.fst (hb left)
  exact ⟨_, herror, rfl, fun handlers s t id thread ht => running_of_refused herror ht⟩

/-! ## Parameters -/

/-- **Parameters are coerced strictly where the number in front of the text is all of it**, and
    nowhere else; a text that is not accepted is refused. -/
theorem coerce_strict (O : Primitives) (hL : L.Documentada) (C : Json.Charconv) :
    (∀ type text, Estricta (O.conC L) type text ↔ Completa L type text) ∧
      ((∀ i, coerce (O.conC L) (texto ((Json.Value.int i).toString C)) "int" = some (.int i)) ∧
        (∀ b, coerce (O.conC L) (texto ((Json.Value.bool b).toString C)) "bool" =
          some (.bool b)) ∧
        ∀ s, coerce (O.conC L) (texto ((Json.Value.str s).toString C)) "string" =
          some (.str (texto s))) ∧
      Rechaza (O.conC L) :=
  ⟨coerce_iff_completa O hL, coerce_toString O L C, rechaza _⟩

end Coercion

/-! ## A library -/

section Exact

/-- There is a double of every finite rank and either sign. -/
theorem exists_float {r : ℕ} (hr : r < finiteRanks) (negativo : Bool) : ∃ d : Float,
    ((⟨d.toBits⟩ : Double).negative ↔ negativo = true) ∧ (⟨d.toBits⟩ : Double).rank = r := by
  rw [finiteRanks] at hr
  let bits : ℕ := r + if negativo then 2 ^ 63 else 0
  have hbits : bits < 2 ^ 64 ∧ bits % 2 ^ 63 = r ∧ (2 ^ 63 ≤ bits ↔ negativo = true) := by
    cases negativo <;> simp [bits] <;> omega
  have hnat : (UInt64.ofNat bits).toNat = bits := UInt64.toNat_ofNat_of_lt' hbits.1
  -- the exponent is not that of a NaN
  have hvalid : Float.Model.Format.binary64.Valid (UInt64.ofNat bits).toBitVec := by
    refine ⟨fun h => absurd (congrArg BitVec.toNat h) ?_⟩
    simp only [Float.Model.UnpackedFloat.unpackExponent, BitVec.toNat_cast,
      BitVec.extractLsb_toNat, UInt64.toNat_toBitVec, hnat, Nat.shiftRight_eq_div_pow]
    change ¬bits / 2 ^ 52 % 2 ^ 11 = 2047
    omega
  refine ⟨.ofModel ⟨.ofNat bits, hvalid⟩, ?_, ?_⟩
  · change 2 ^ 63 ≤ (UInt64.ofNat bits).toNat ↔ _
    rw [hnat]
    exact hbits.2.2
  · change (UInt64.ofNat bits).toNat % 2 ^ 63 = r
    rw [hnat]
    exact hbits.2.1

theorem exists_redondeado (negativo : Bool) (n : Numero) : ∃ d, n.Redondeado negativo d := by
  simp only [Numero.Redondeado]
  cases n.unidades with
  | none => exact ⟨0, by rintro x ⟨⟩⟩
  | some x =>
    obtain ⟨r, hr⟩ := Json.exists_nearest x
    obtain ⟨d, hneg, rfl⟩ := exists_float hr.finite negativo
    refine ⟨d, ?_⟩
    rintro _ ⟨⟩
    exact ⟨hneg, hr⟩

open Classical in
/-- A library that reports no number as too small. -/
noncomputable def Strtod.exacto : Strtod where
  convierte negativo n :=
    if n.Cabe then some (exists_redondeado negativo n).choose else none
  avisa _ _ := False

theorem Strtod.exacto_documentada : Strtod.exacto.Documentada where
  lee negativo n hn _ := ⟨_, if_pos hn, (exists_redondeado negativo n).choose_spec⟩
  falla _ _ h := if_neg (h.resolve_right fun hf => hf)
  menudo _ _ h := absurd h not_false

theorem coerce_strict_exacto :
    (∀ type text, Estricta (Primitives.empty.conC .exacto) type text ↔
      Completa .exacto type text) ∧
      ((∀ i, coerce (Primitives.empty.conC .exacto)
          (texto ((Json.Value.int i).toString Json.roundingConv)) "int" = some (.int i)) ∧
        (∀ b, coerce (Primitives.empty.conC .exacto)
          (texto ((Json.Value.bool b).toString Json.roundingConv)) "bool" = some (.bool b)) ∧
        ∀ s, coerce (Primitives.empty.conC .exacto)
          (texto ((Json.Value.str s).toString Json.roundingConv)) "string" =
            some (.str (texto s))) ∧
      Rechaza (Primitives.empty.conC .exacto) :=
  coerce_strict .empty Strtod.exacto_documentada Json.roundingConv

/-- An integer is accepted whatever stands behind it, and after white space. -/
theorem trailing_text_accepted :
    coerce (Primitives.empty.conC .exacto) "12abc" "int" = some (.int 12) ∧
      coerce (Primitives.empty.conC .exacto) " +7" "int" = some (.int 7) ∧
      ¬Estricta (Primitives.empty.conC .exacto) "int" "12abc" ∧
      ¬Estricta (Primitives.empty.conC .exacto) "int" " +7" := by
  have hfront (text : String) (n : ℤ) (h : stoll text = some (Int64.ofInt n)) :
      coerce (Primitives.empty.conC .exacto) text "int" = some (.int (Int64.ofInt n)) := by
    rw [coerce, if_neg (by decide), if_pos (by decide)]
    exact congrArg (Option.map Value.int) h
  have h12 := hfront "12abc" 12 (by decide +kernel)
  have h7 := hfront " +7" 7 (by decide +kernel)
  refine ⟨h12, h7, fun h => ?_, fun h => ?_⟩
  · obtain ⟨n, hn, -⟩ := (literal_int (.inl rfl)).1 (h.1.1 (by rw [h12]; rfl))
    exact absurd (hn.mem (c := 'a') (by decide)) (by decide)
  · obtain ⟨n, hn, -⟩ := (literal_int (.inl rfl)).1 (h.1.1 (by rw [h7]; rfl))
    exact absurd (hn.mem (c := ' ') (by decide)) (by decide)

end Exact

end Osodio.Odio
