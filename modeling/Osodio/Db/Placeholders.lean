import Osodio.Db.PgLexer
import Osodio.Json.RoundTrip

/-!
# Placeholders

`traducir_marcadores` replaces the placeholders `?` of a query by those of PostgreSQL, in one loop
that passes over strings, comments and quoted texts by rules of its own.

## Main definitions

- `paso`, `bucle` — the loop of `traducir_marcadores`
- `traducirMarcadores` — the translation, or why there is none
- `Conforme` — where the two readings of a text do not part

## Main results

- `bucle_lexemas` — the loop reads the regions
- `traducir_conforme` — what is translated is what PostgreSQL reads as placeholders
- `like_string` — a string that only the loop takes for one with escapes
-/

namespace Osodio.Db

open Json (Bytes digitos)
open Pg (Lexema Previo cita bloque hastaTag lexema lexemas lexemasDesde esE digito alfa)

/-! ## The loop -/

structure Traductor where
  res : Bytes := []
  /-- How many `?` there were. -/
  n : ℕ := 0
  /-- There was a `$1`. -/
  numerado : Bool := false
  deriving DecidableEq, Repr

def Traductor.copia (e : Traductor) (t : Bytes) : Traductor := { e with res := e.res ++ t }

/-- `std::isalnum(c) || c == '_'`. -/
def ident (c : UInt8) : Bool := alfa c || digito c || c == 0x5F

/-- The turn at a `$`. -/
def pasoDolar (e : Traductor) (s : Bytes) : Traductor × Bytes :=
  if s.head?.any digito then ({ e.copia [0x24] with numerado := true }, s)
  else if (s.dropWhile ident).head? = some 0x24 then
    let tag := 0x24 :: s.takeWhile ident ++ [0x24]
    let (t, r) := hastaTag tag ((s.dropWhile ident).drop 1)
    (e.copia (tag ++ t), r)
  else (e.copia [0x24], s)

/-- The turn at a `?`. -/
def pasoMarcador (e : Traductor) (s : Bytes) : Traductor × Bytes :=
  if s.head? = some 0x3F then (e.copia [0x3F], s.drop 1)
  else ({ e.copia (0x24 :: digitos (e.n + 1)) with n := e.n + 1 }, s)

/-- One turn of the loop, at a byte with what is behind it. -/
def paso (e : Traductor) (c : UInt8) (s : Bytes) : Traductor × Bytes :=
  if c = 0x2D ∧ s.head? = some 0x2D then
    -- the comment of a line, up to the line feed
    (e.copia ((c :: s).takeWhile (· != 0x0A)), (c :: s).dropWhile (· != 0x0A))
  else if c = 0x2F ∧ s.head? = some 0x2A then
    let (t, r) := bloque 0 (c :: s)
    (e.copia t, r)
  else if c = 0x27 then
    let conBarra := e.res.getLast?.any esE
    let (t, r) := cita 0x27 conBarra s
    (e.copia (c :: t), r)
  else if c = 0x22 then
    let (t, r) := cita 0x22 false s
    (e.copia (c :: t), r)
  else if c = 0x24 then pasoDolar e s
  else if c = 0x3F then pasoMarcador e s
  else (e.copia [c], s)

/-- The loop, with a bound on its turns. -/
def bucleN : ℕ → Traductor → Bytes → Traductor
  | 0, e, _ => e
  | _ + 1, e, [] => e
  | n + 1, e, c :: s => bucleN n (paso e c s).1 (paso e c s).2

/-- Each turn takes a byte, so that there are no more turns than bytes. -/
def bucle (e : Traductor) (s : Bytes) : Traductor := bucleN s.length e s

/-- `traducir_marcadores`.  The placeholders are counted in an `int`, for which there are never
    too many. -/
def traducirMarcadores (sql : Bytes) (nargs : ℕ) : Except String Bytes :=
  if nargs = 0 then .ok sql
  else
    let e := bucle {} sql
    if e.n = 0 then .ok sql
    else if e.numerado then
      .error ("postgres: la consulta mezcla marcadores \x27?\x27 y \x27$1\x27; usa solo uno " ++
        "de los dos estilos")
    else if e.n ≠ nargs then
      .error ("postgres: la consulta tiene " ++ toString e.n ++ " marcador(es) \x27?\x27 y se pasaron " ++
        toString nargs ++ " argumento(s)")
    else .ok e.res

/-! ## Where the readings part -/

/-- The loop takes a `$` in front of this for a parameter or a tag. -/
def confunde (s : Bytes) : Bool :=
  s.head?.any digito || (s.dropWhile ident).head? == some 0x24

/-- The two readings of a region agree; `prev` is the byte in front of it, `rest` what is behind.
    An identifier has no `$` that is taken for more; a comment that ends at a carriage return has
    nothing but blanks behind it up to the line feed; a string ends at the same place if its
    backslashes escape exactly when an `e` is in front of it; a tag is ASCII. -/
def Pg.Lexema.conforme (prev : Option UInt8) (rest : Bytes) : Lexema → Bool
  | .identificador t => t.tails.all fun u => u.head? != some 0x24 || !confunde (u.tail ++ rest)
  | .comentario _ => (rest.takeWhile (· != 0x0A)).all Pg.espacio
  | .cadena prefijo _ t =>
    cita 0x27 ((prefijo.getLast?.or prev).any esE) (t.tail ++ rest) == (t.tail, rest)
  | .dolar tag _ => tag.all (· < 0x80)
  | _ => true

/-- The readings agree on the regions of a text, `prev` in front of it. -/
def conformeDesde (prev : Option UInt8) : List Lexema → Bool
  | [] => true
  | t :: ts =>
    t.conforme prev (ts.flatMap Lexema.bytes) && conformeDesde (t.bytes.getLast?.or prev) ts

/-- The two readings of a text do not part. -/
def Conforme (sql : Bytes) : Prop := conformeDesde none (lexemas sql) = true

instance (sql : Bytes) : Decidable (Conforme sql) :=
  inferInstanceAs (Decidable (conformeDesde none (lexemas sql) = true))

/-! ## Turns of the loop -/

section Turns

variable {e : Traductor} {c : UInt8} {s t w r : Bytes} {n : ℕ}

@[simp] theorem copia_copia : (e.copia t).copia w = e.copia (t ++ w) := by
  rw [Traductor.copia, Traductor.copia, Traductor.copia, List.append_assoc]

theorem length_pasoDolar (e : Traductor) (s : Bytes) : (pasoDolar e s).2.length ≤ s.length := by
  rw [pasoDolar]
  split
  · exact le_rfl
  split
  · have htag := congrArg List.length (Pg.hastaTag_append (0x24 :: s.takeWhile ident ++ [0x24])
      ((s.dropWhile ident).drop 1))
    have hdrop := List.length_dropWhile_le ident s
    rw [List.length_append, List.length_drop] at htag
    dsimp only
    omega
  · exact le_rfl

theorem length_paso (e : Traductor) (c : UInt8) (s : Bytes) : (paso e c s).2.length ≤ s.length := by
  have hcita (q : UInt8) (barra : Bool) : (cita q barra s).2.length ≤ s.length := by
    have h := congrArg List.length (Pg.cita_append q barra s)
    rw [List.length_append] at h
    omega
  have hbloque : (bloque 0 (c :: s)).2.length ≤ s.length := by
    have h := congrArg List.length (Pg.bloque_append 0 (c :: s))
    have hpos := List.length_pos_iff.2 (Pg.bloque_ne_nil 0 c s)
    rw [List.length_append, List.length_cons] at h
    omega
  rw [paso]
  split
  · next hline =>
    dsimp only
    rw [List.dropWhile_cons_of_pos (by rw [hline.1]; decide)]
    exact List.length_dropWhile_le _ _
  split
  · exact hbloque
  split
  · exact hcita _ _
  split
  · exact hcita _ _
  split
  · exact length_pasoDolar e s
  split
  · rw [pasoMarcador]
    split
    · exact (List.length_drop ..).trans_le (Nat.sub_le ..)
    · exact le_rfl
  · exact le_rfl

theorem bucleN_eq (h : s.length ≤ n) : bucleN n e s = bucle e s := by
  induction n using Nat.strong_induction_on generalizing e s with
  | _ n ih =>
    cases s with
    | nil => cases n <;> rfl
    | cons c s =>
      obtain ⟨n, rfl⟩ := Nat.exists_eq_succ_of_ne_zero (Nat.ne_of_gt (Nat.lt_of_lt_of_le (Nat.succ_pos _) h))
      have hlen := length_paso e c s
      have hn : s.length ≤ n := Nat.le_of_succ_le_succ h
      rw [bucle, bucleN, List.length_cons, bucleN, ih n (Nat.lt_succ_self n) (hlen.trans hn)]
      obtain heq | hlt := Nat.eq_or_lt_of_le hn
      · rw [heq, ih n (Nat.lt_succ_self n) (hlen.trans hn)]
      · rw [ih s.length (Nat.lt_succ_of_lt hlt) hlen]

@[simp] theorem bucle_nil : bucle e [] = e := rfl

theorem bucle_cons (e : Traductor) (c : UInt8) (s : Bytes) :
    bucle e (c :: s) = bucle (paso e c s).1 (paso e c s).2 :=
  bucleN_eq (length_paso e c s)

/-- The byte is copied, with what is behind it still to be read. -/
def Llano (c : UInt8) (s : Bytes) : Prop := ∀ e, paso e c s = (e.copia [c], s)

theorem llano (h : c ∉ ([0x2D, 0x2F, 0x27, 0x22, 0x24, 0x3F] : Bytes)) (s : Bytes) : Llano c s := by
  simp only [List.mem_cons, List.not_mem_nil, or_false, not_or] at h
  obtain ⟨h1, h2, h3, h4, h5, h6⟩ := h
  intro e
  rw [paso, if_neg fun h => h1 h.1, if_neg fun h => h2 h.1, if_neg h3, if_neg h4, if_neg h5, if_neg h6]

theorem llano_dolar (h : confunde s = false) : Llano 0x24 s := by
  rw [confunde, Bool.or_eq_false_iff, beq_eq_false_iff_ne] at h
  intro e
  rw [paso, if_neg fun h => absurd h.1 (by decide), if_neg fun h => absurd h.1 (by decide),
    if_neg (by decide), if_neg (by decide), if_pos rfl, pasoDolar, h.1, if_neg Bool.false_ne_true,
    if_neg h.2]

/-- Bytes are copied one by one. -/
theorem bucle_llanos (h : ∀ x c y, w = x ++ c :: y → Llano c (y ++ r)) :
    bucle e (w ++ r) = bucle (e.copia w) r := by
  induction w generalizing e with
  | nil => rw [Traductor.copia, List.append_nil, List.nil_append]
  | cons c w ih =>
    rw [List.cons_append, bucle_cons, h [] c w rfl, ih fun x d y hw => h (c :: x) d y (hw ▸ rfl),
      copia_copia, List.singleton_append]

end Turns

/-! ## Regions -/

/-- What the loop has after these regions. -/
def Traductor.con (e : Traductor) (ts : List Lexema) : Traductor where
  res := e.res ++ Pg.traduce e.n ts
  n := e.n + ts.countP Lexema.esMarcador
  numerado := e.numerado || ts.any Lexema.esParametro

section Regions

variable {e : Traductor} {c : UInt8} {s w r : Bytes} {n : ℕ} {prev : Option UInt8} {previo : Previo}
  {t : Lexema} {ts : List Lexema}

theorem traduce_cons (n : ℕ) (t : Lexema) (ts : List Lexema) : Pg.traduce n (t :: ts) =
    Pg.traduce n [t] ++ Pg.traduce (n + [t].countP Lexema.esMarcador) ts := by
  cases t <;> simp [Pg.traduce, Lexema.esMarcador]

theorem con_cons (e : Traductor) (t : Lexema) (ts : List Lexema) :
    e.con (t :: ts) = (e.con [t]).con ts := by
  have hcount : (t :: ts).countP Lexema.esMarcador =
      [t].countP Lexema.esMarcador + ts.countP Lexema.esMarcador :=
    (List.countP_append : ([t] ++ ts).countP Lexema.esMarcador = _)
  have hany : (t :: ts).any Lexema.esParametro =
      ([t].any Lexema.esParametro || ts.any Lexema.esParametro) := 
    (List.any_append : ([t] ++ ts).any Lexema.esParametro = _)
  simp only [Traductor.con]
  rw [hcount, hany, traduce_cons, List.append_assoc, Nat.add_assoc, Bool.or_assoc]

/-- A region that is neither a placeholder nor a parameter. -/
def Literal : Lexema → Prop
  | .marcador | .escapado | .parametro _ => False
  | _ => True

theorem con_literal (ht : Literal t) (e : Traductor) : e.con [t] = e.copia t.bytes := by
  cases t <;> first
    | exact ht.elim
    | simp [Traductor.con, Traductor.copia, Pg.traduce, Lexema.esMarcador, Lexema.esParametro]

/-- What is written in the end decides. -/
theorem last_append (hr : r ≠ []) (w : Bytes) : (w ++ r).getLast? = r.getLast?.or none := by
  obtain ⟨c, hc⟩ := Option.ne_none_iff_exists'.1 (mt List.getLast?_eq_none_iff.1 hr)
  rw [List.getLast?_append, hc]
  rfl

theorem last_not_e (hr : r ≠ []) (h : ∀ c ∈ r, esE c = false) (p : Option UInt8) :
    (r.getLast?.or p).any esE = false := by
  obtain ⟨c, hc⟩ := Option.ne_none_iff_exists'.1 (mt List.getLast?_eq_none_iff.1 hr)
  rw [hc]
  exact h c (List.mem_of_getLast? hc)

theorem digits_not_e (m : ℕ) : ∀ d ∈ digitos m, esE d = false := by
  intro d hd
  have hdig := (Json.digitos_spec m).2 d hd
  rw [esE, Bool.or_eq_false_iff, beq_eq_false_iff_ne, beq_eq_false_iff_ne]
  constructor
  · rintro rfl
    exact absurd hdig (by decide)
  · rintro rfl
    exact absurd hdig (by decide)

/-- The last byte written is an `e` exactly if the last one read is. -/
theorem con_last (ht : t.bytes ≠ []) (e : Traductor) :
    (e.con [t]).res.getLast?.any esE = (t.bytes.getLast?.or prev).any esE := by
  have hsame (hw : t.bytes ≠ []) : (e.res ++ t.bytes).getLast?.any esE =
      (t.bytes.getLast?.or prev).any esE := by
    obtain ⟨c, hc⟩ := Option.ne_none_iff_exists'.1 (mt List.getLast?_eq_none_iff.1 hw)
    rw [List.getLast?_append, hc]
    rfl
  cases t with
  | marcador =>
    have hlast := last_not_e (r := 0x24 :: digitos (e.n + 1)) (List.cons_ne_nil _ _) (by
      intro c hc
      obtain rfl | hc := List.mem_cons.1 hc
      · decide
      · exact digits_not_e _ c hc) e.res.getLast?
    rw [← List.getLast?_append] at hlast
    simp only [Traductor.con, Pg.traduce, List.append_nil]
    exact hlast
  | escapado =>
    simp only [Traductor.con, Pg.traduce, List.getLast?_concat]
    rfl
  | _ =>
    simp only [Traductor.con, Pg.traduce, List.append_nil]
    exact hsame ht

/-- Neither letters nor digits nor blanks mean anything to the loop. -/
theorem llano_of {p : UInt8 → Bool} (hp : ∀ c ∈ ([0x2D, 0x2F, 0x27, 0x22, 0x24, 0x3F] : Bytes), p c = false)
    (hc : p c = true) (s : Bytes) : Llano c s :=
  llano (fun hmem => Bool.false_ne_true ((hp c hmem).symm.trans hc)) s

theorem takeWhile_cut {p : UInt8 → Bool} {d : UInt8} (hw : ∀ c ∈ w, p c = true) (hd : p d = false)
    (r : Bytes) : (w ++ d :: r).takeWhile p = w ∧ (w ++ d :: r).dropWhile p = d :: r := by
  rw [List.takeWhile_append_of_pos hw, List.dropWhile_append_of_pos hw,
    List.takeWhile_cons_of_neg (by rw [hd]; decide), List.dropWhile_cons_of_neg (by rw [hd]; decide),
    List.append_nil]
  exact ⟨rfl, rfl⟩

theorem ident_etiqueta (h : ident c = true) : Pg.etiqueta c = true := by
  rw [ident, Bool.or_eq_true, Bool.or_eq_true] at h
  rw [Pg.etiqueta, Pg.letra]
  obtain (h | h) | h := h <;> simp [h]

theorem etiqueta_ident (h : Pg.etiqueta c = true) (hc : c < 0x80) : ident c = true := by
  have hhigh : decide (0x80 ≤ c) = false := decide_eq_false (UInt8.not_le.2 hc)
  rw [Pg.etiqueta, Pg.letra, hhigh, Bool.or_false, Bool.or_eq_true, Bool.or_eq_true] at h
  rw [ident]
  obtain (h | h) | h := h <;> simp [h]

/-- The comment of a line, with the blanks that PostgreSQL reads behind it. -/
theorem bucle_comentario (hs : s.head? = some 0x2D)
    (h : (((0x2D :: s).dropWhile (!Pg.salto ·)).takeWhile (· != 0x0A)).all Pg.espacio = true) :
    bucle e (0x2D :: s) = bucle (e.copia ((0x2D :: s).takeWhile (!Pg.salto ·)))
      ((0x2D :: s).dropWhile (!Pg.salto ·)) := by
  have hpaso : paso e 0x2D s = (e.copia ((0x2D :: s).takeWhile (· != 0x0A)),
      (0x2D :: s).dropWhile (· != 0x0A)) := by rw [paso, if_pos ⟨rfl, hs⟩]
  have hline : ∀ c ∈ (0x2D :: s).takeWhile (!Pg.salto ·), (c != 0x0A) = true := by
    intro c hc
    have hc := List.mem_takeWhile_imp hc
    rw [Bool.not_eq_true', Pg.salto, Bool.or_eq_false_iff] at hc
    rw [bne, hc.1]
    rfl
  have htext := List.takeWhile_append_dropWhile (p := (!Pg.salto ·)) (l := 0x2D :: s)
  generalize (0x2D :: s).takeWhile (!Pg.salto ·) = t at htext hline ⊢
  generalize (0x2D :: s).dropWhile (!Pg.salto ·) = r at htext h ⊢
  have hrest := List.takeWhile_append_dropWhile (p := (· != 0x0A)) (l := r)
  rw [bucle_cons, hpaso, ← htext]
  dsimp only
  rw [List.takeWhile_append_of_pos hline, List.dropWhile_append_of_pos hline]
  conv_rhs => rw [← hrest]
  rw [bucle_llanos, copia_copia]
  intro x c y hw
  refine llano_of (p := Pg.espacio) (by decide +kernel) (List.all_eq_true.1 h c ?_) _
  rw [hw]
  exact List.mem_append_right _ (List.mem_cons_self ..)

/-- An identifier, of which no `$` is taken for more. -/
theorem bucle_identificador (hw : ∀ c ∈ w, Pg.seguido c = true)
    (h : w.tails.all (fun u => u.head? != some 0x24 || !confunde (u.tail ++ r)) = true) :
    bucle e (w ++ r) = bucle (e.copia w) r := by
  refine bucle_llanos fun x c y heq => ?_
  have hc := hw c (heq ▸ List.mem_append_right _ (List.mem_cons_self ..))
  by_cases hdolar : c = 0x24
  · subst hdolar
    have htail : 0x24 :: y ∈ w.tails := (List.mem_tails ..).2 ⟨x, heq.symm⟩
    have hsafe := List.all_eq_true.1 h _ htail
    rw [List.head?_cons, bne_self_eq_false, Bool.false_or, Bool.not_eq_true'] at hsafe
    exact llano_dolar hsafe
  · rw [Pg.seguido, Bool.or_eq_true, beq_iff_eq, or_iff_left hdolar] at hc
    exact llano_of (by decide +kernel) hc _

/-- The loop reads a region: what has been shown of it for each kind. -/
def Lee (e : Traductor) (c : UInt8) (s : Bytes) (t : Lexema) (r : Bytes) : Prop :=
  bucle e (c :: s) = bucle (e.con [t]) r

theorem bucle_parametro (h : s.head?.any digito = true) :
    Lee e 0x24 s (.parametro (0x24 :: s.takeWhile digito)) (s.dropWhile digito) := by
  have hpaso : paso e 0x24 s = ({ e.copia [0x24] with numerado := true }, s) := by
    rw [paso, if_neg fun h => absurd h.1 (by decide), if_neg fun h => absurd h.1 (by decide),
      if_neg (by decide), if_neg (by decide), if_pos rfl, pasoDolar, if_pos h]
  have hdigits : bucle { e.copia [0x24] with numerado := true } s =
      bucle (Traductor.copia { e.copia [0x24] with numerado := true } (s.takeWhile digito))
        (s.dropWhile digito) := by
    conv_lhs => rw [← List.takeWhile_append_dropWhile (p := digito) (l := s)]
    refine bucle_llanos fun x c y hw => llano_of (p := digito) (by decide +kernel) ?_ _
    exact List.mem_takeWhile_imp (l := s) (hw ▸ List.mem_append_right _ (List.mem_cons_self ..))
  rw [Lee, bucle_cons, hpaso, hdigits]
  congr 1
  simp [Traductor.copia, Traductor.con, Pg.traduce, Lexema.bytes, Lexema.esMarcador,
    Lexema.esParametro]

theorem bucle_lexemaDolar (hlex : Pg.lexemaDolar s = (t, r)) (ht : t.conforme prev r = true) :
    Lee e 0x24 s t r := by
  have hpaso : paso e 0x24 s = pasoDolar e s := by
    rw [paso, if_neg fun h => absurd h.1 (by decide), if_neg fun h => absurd h.1 (by decide),
      if_neg (by decide), if_neg (by decide), if_pos rfl]
  rw [Pg.lexemaDolar] at hlex
  split at hlex
  · next hdigit =>
    cases hlex
    exact bucle_parametro hdigit
  next hdigit =>
  split at hlex
  · next htag =>
    -- the tag is read alike because it is ASCII
    have hascii : ∀ c ∈ s.takeWhile Pg.etiqueta, c < 0x80 := by
      cases hlex
      intro c hc
      have hall := List.all_eq_true.1 ht c
        (List.mem_append_left _ (List.mem_cons_of_mem _ hc))
      exact of_decide_eq_true hall
    have hident : ∀ c ∈ s.takeWhile Pg.etiqueta, ident c = true :=
      fun c hc => etiqueta_ident (List.mem_takeWhile_imp hc) (hascii c hc)
    have hsplit := List.takeWhile_append_dropWhile (p := Pg.etiqueta) (l := s)
    rw [Pg.head_cons htag] at hsplit
    obtain ⟨htake, hdrop⟩ := takeWhile_cut hident (d := 0x24) (by decide)
      ((s.dropWhile Pg.etiqueta).drop 1)
    rw [hsplit] at htake hdrop
    rw [Lee, bucle_cons, hpaso, pasoDolar, if_neg hdigit, htake, hdrop, List.head?_cons, if_pos rfl]
    cases hlex
    rw [con_literal (by trivial)]
    rfl
  · next htag =>
    cases hlex
    have hsafe : confunde s = false := by
      rw [confunde, Bool.or_eq_false_iff, beq_eq_false_iff_ne]
      refine ⟨Bool.eq_false_iff.2 hdigit, fun hident => htag ?_⟩
      have hsplit := List.takeWhile_append_dropWhile (p := ident) (l := s)
      rw [Pg.head_cons hident] at hsplit
      obtain ⟨-, hdrop⟩ := takeWhile_cut (p := Pg.etiqueta) (d := 0x24)
        (fun c hc => ident_etiqueta (List.mem_takeWhile_imp hc)) (by decide)
        ((s.dropWhile ident).drop 1)
      rw [hsplit] at hdrop
      rw [hdrop]
      rfl
    rw [Lee, bucle_cons, llano_dolar hsafe e, con_literal (by trivial)]
    rfl

theorem bucle_lexemaMarcador (hlex : Pg.lexemaMarcador s = (t, r)) : Lee e 0x3F s t r := by
  have hpaso : paso e 0x3F s = pasoMarcador e s := by
    rw [paso, if_neg fun h => absurd h.1 (by decide), if_neg fun h => absurd h.1 (by decide),
      if_neg (by decide), if_neg (by decide), if_neg (by decide), if_pos rfl]
  rw [Lee, bucle_cons, hpaso, pasoMarcador]
  rw [Pg.lexemaMarcador] at hlex
  split at hlex
  · next hdouble =>
    cases hlex
    rw [if_pos hdouble]
    congr 1
    simp [Traductor.copia, Traductor.con, Pg.traduce, Lexema.esMarcador, Lexema.esParametro]
  · next hdouble =>
    cases hlex
    rw [if_neg hdouble]
    congr 1
    simp [Traductor.copia, Traductor.con, Pg.traduce, Lexema.esMarcador, Lexema.esParametro]

/-- **One region is read** by one or more turns of the loop. -/
theorem bucle_lexema (hlex : lexema previo c s = (t, r))
    (hprev : e.res.getLast?.any esE = prev.any esE) (ht : t.conforme prev r = true) :
    Lee e c s t r := by
  rw [lexema] at hlex
  split at hlex
  · next hline =>
    cases hlex
    rw [Lee, con_literal (by trivial)]
    obtain ⟨rfl, hs⟩ := hline
    exact bucle_comentario hs ht
  next hline =>
  split at hlex
  · next hblock =>
    cases hlex
    rw [Lee, con_literal (by trivial), bucle_cons, paso, if_neg hline, if_pos hblock]
    rfl
  next hblock =>
  split at hlex
  · -- a string, of which the loop looks at the byte in front
    next hquote =>
    subst hquote
    cases hlex
    have hread := eq_of_beq ht
    rw [List.tail_cons, Pg.cita_append] at hread
    have hbarra : (([] : Bytes).getLast?.or prev).any esE = e.res.getLast?.any esE := hprev.symm
    rw [hbarra] at hread
    rw [Lee, con_literal (by trivial), bucle_cons, paso, if_neg hline, if_neg hblock, if_pos rfl]
    dsimp only
    rw [hread]
    rfl
  next hquote =>
  split at hlex
  · -- a string behind an `e`, which the loop has copied by then
    next he =>
    cases hlex
    have hplain : Llano c s := llano_of (p := esE) (by decide +kernel) he.1 s
    have hbarra : (e.copia [c]).res.getLast?.any esE = true := by
      rw [Traductor.copia, List.getLast?_concat]
      exact he.1
    have hpaso : paso (e.copia [c]) 0x27 (s.drop 1) = ((e.copia [c]).copia (0x27 ::
        (cita 0x27 true (s.drop 1)).1), (cita 0x27 true (s.drop 1)).2) := by
      rw [paso, if_neg fun h => absurd h.1 (by decide), if_neg fun h => absurd h.1 (by decide),
        if_pos rfl, hbarra]
    rw [Lee, con_literal (by trivial), bucle_cons, hplain e]
    dsimp only
    conv_lhs => rw [Pg.head_cons he.2]
    rw [bucle_cons, hpaso, copia_copia]
    rfl
  next he =>
  split at hlex
  · next hdouble =>
    cases hlex
    rw [Lee, con_literal (by trivial), bucle_cons, paso, if_neg hline, if_neg hblock, if_neg hquote,
      if_pos hdouble]
    rfl
  next hdouble =>
  split at hlex
  · next hletter =>
    cases hlex
    have hall : ∀ d ∈ c :: s.takeWhile Pg.seguido, Pg.seguido d = true := by
      intro d hd
      obtain rfl | hd := List.mem_cons.1 hd
      · rw [Pg.seguido, Pg.etiqueta, hletter]
        rfl
      · exact List.mem_takeWhile_imp hd
    have hread := bucle_identificador (e := e) hall ht
    rw [List.cons_append, List.takeWhile_append_dropWhile] at hread
    rw [Lee, con_literal (by trivial)]
    exact hread
  split at hlex
  · next hdolar =>
    subst hdolar
    exact bucle_lexemaDolar hlex ht
  next hdolar =>
  split at hlex
  · next hmark =>
    subst hmark
    exact bucle_lexemaMarcador hlex
  · next hmark =>
    cases hlex
    rw [Lee, con_literal (by trivial), bucle_cons, paso, if_neg hline, if_neg hblock,
      if_neg hquote, if_neg hdouble, if_neg hdolar, if_neg hmark]
    rfl

/-- **The loop reads the regions** of a text on which the readings agree. -/
theorem bucle_lexemas (hlen : s.length ≤ n) (hprev : e.res.getLast?.any esE = prev.any esE)
    (h : conformeDesde prev (lexemasDesde n previo s) = true) :
    bucle e s = e.con (lexemasDesde n previo s) := by
  induction n generalizing e s prev previo with
  | zero =>
    rw [List.length_eq_zero_iff.1 (Nat.le_zero.1 hlen)]
    simp [Traductor.con, lexemasDesde, Pg.traduce]
  | succ n ih =>
    cases s with
    | nil => simp [Traductor.con, lexemasDesde, Pg.traduce]
    | cons c s =>
      obtain ⟨⟨t, r⟩, hlex⟩ : ∃ p, lexema previo c s = p := ⟨_, rfl⟩
      have hrest := (Pg.length_lexema hlex).trans (Nat.le_of_succ_le_succ hlen)
      rw [lexemasDesde, hlex] at h ⊢
      dsimp only at h ⊢
      rw [conformeDesde, Bool.and_eq_true, Pg.texto_lexemas hrest] at h
      have hread : Lee e c s t r := bucle_lexema hlex hprev h.1
      rw [hread, con_cons e t (lexemasDesde n _ r)]
      exact ih hrest (con_last (Pg.lexema_append hlex).2 e) h.2

end Regions

/-- **What is translated is what PostgreSQL reads as placeholders**, in a text on which the two
    readings do not part. -/
theorem traducir_conforme {sql : Bytes} {nargs : ℕ} (hargs : 0 < nargs) (h : Conforme sql) :
    (traducirMarcadores sql nargs).toOption = Pg.traduccion sql nargs := by
  have hloop : bucle {} sql = Traductor.con {} (lexemas sql) := bucle_lexemas le_rfl rfl h
  rw [traducirMarcadores, if_neg (Nat.ne_of_gt hargs), hloop, Pg.traduccion]
  simp only [Traductor.con, Nat.zero_add, Bool.false_or, List.nil_append]
  split
  · rfl
  split
  · next hparam =>
    rw [hparam, Bool.true_or, if_pos rfl]
    rfl
  next hparam =>
  split
  · next hcount =>
    rw [bne_iff_ne.2 hcount, Bool.or_true, if_pos rfl]
    rfl
  · next hcount =>
    rw [not_not.1 hcount, bne_self_eq_false, Bool.or_false, if_neg hparam]
    rfl

theorem traducir_conforme_escaped :
    (traducirMarcadores (Json.ascii "select E\x27a\\\x27?\x27 /* ? */ where x ?? ?") 1).toOption =
      Pg.traduccion (Json.ascii "select E\x27a\\\x27?\x27 /* ? */ where x ?? ?") 1 :=
  traducir_conforme (by decide) (by decide +kernel)

/-- The string behind `like` has no escapes, and ends at its second quote; the loop takes the `e`
    for the mark of a string that has them, and reads on to the end of the text. -/
theorem like_string :
    Pg.traduccion (Json.ascii "select 1 where a like\x275\\\x27 and b = ?") 1 =
      some (Json.ascii "select 1 where a like\x275\\\x27 and b = $1") ∧
    (traducirMarcadores (Json.ascii "select 1 where a like\x275\\\x27 and b = ?") 1).toOption =
      some (Json.ascii "select 1 where a like\x275\\\x27 and b = ?") := by
  decide +kernel

end Osodio.Db
