import Osodio.Json.Writer
import Osodio.Lib.Cuts

/-!
# The lexical rules of PostgreSQL

A text of SQL is read from its front, one lexical region after the other: strings, quoted
identifiers, comments, dollar-quoted texts, identifiers, parameters, and the bytes between them.

## Main definitions

- `Lexema` — a region
- `lexema` — the region at the front of a text
- `lexemas` — the regions of a text
- `traduce` — the text with numbers for the placeholders

## Main results

- `lexema_append` — a region and what is behind it are the text
- `texto_lexemas` — the regions are the text
-/

namespace Osodio.Db.Pg

open Json (Bytes digitos)
open Lib (cutText)

/-! ## Characters -/

def digito (c : UInt8) : Bool := 0x30 ≤ c && c ≤ 0x39

def alfa (c : UInt8) : Bool := (0x41 ≤ c && c ≤ 0x5A) || (0x61 ≤ c && c ≤ 0x7A)

/-- The first character of an identifier; bytes that are not ASCII are letters. -/
def letra (c : UInt8) : Bool := alfa c || c == 0x5F || 0x80 ≤ c

/-- A character of the tag of a dollar-quoted text. -/
def etiqueta (c : UInt8) : Bool := letra c || digito c

/-- A character of an identifier. -/
def seguido (c : UInt8) : Bool := etiqueta c || c == 0x24

def espacio (c : UInt8) : Bool := c == 0x20 || (0x09 ≤ c && c ≤ 0x0D)

/-- Lines end at a line feed and at a carriage return. -/
def salto (c : UInt8) : Bool := c == 0x0A || c == 0x0D

def esE (c : UInt8) : Bool := c == 0x45 || c == 0x65

/-! ## Regions -/

/-- What is between two quotes, with the second one: a doubled quote is a quote, and where
    backslashes escape, so is whatever is behind one. -/
def cita (q : UInt8) (barra : Bool) : Bytes → Bytes × Bytes
  | [] => ([], [])
  | [c] => ([c], [])
  | c :: d :: s =>
    if barra && c == 0x5C then
      let (t, r) := cita q barra s
      (c :: d :: t, r)
    else if c == q then
      if d == q then
        let (t, r) := cita q barra s
        (c :: d :: t, r)
      else ([c], d :: s)
    else
      let (t, r) := cita q barra (d :: s)
      (c :: t, r)

/-- A comment between `/*` and `*/`, at a depth. -/
def bloque : ℕ → Bytes → Bytes × Bytes
  | _, [] => ([], [])
  | _, [c] => ([c], [])
  | prof, c :: d :: s =>
    if c = 0x2F ∧ d = 0x2A then
      let (t, r) := bloque (prof + 1) s
      (c :: d :: t, r)
    else if c = 0x2A ∧ d = 0x2F then
      if prof = 1 then ([c, d], s)
      else
        let (t, r) := bloque (prof - 1) s
        (c :: d :: t, r)
    else
      let (t, r) := bloque prof (d :: s)
      (c :: t, r)

inductive Lexema where
  | texto (c : UInt8)
  | marcador
  | escapado
  | identificador (t : Bytes)
  | parametro (t : Bytes)
  | comentario (t : Bytes)
  | bloque (t : Bytes)
  | cadena (prefijo : Bytes) (barra : Bool) (t : Bytes)
  | citado (t : Bytes)
  | dolar (tag cuerpo : Bytes)
  deriving DecidableEq, Repr

def Lexema.bytes : Lexema → Bytes
  | .texto c => [c]
  | .marcador => [0x3F]
  | .escapado => [0x3F, 0x3F]
  | .identificador t | .parametro t | .comentario t | .bloque t | .citado t => t
  | .cadena prefijo _ t => prefijo ++ t
  | .dolar tag cuerpo => tag ++ cuerpo

/-- What a quote depends on: a string goes on behind a gap with the end of a line in it, and its
    backslashes escape there if they did before. -/
inductive Previo where
  | nada
  | cadena (barra hueco : Bool)
  deriving DecidableEq, Repr

/-- The gap is of blanks and line comments. -/
def Previo.siguiente : Previo → Lexema → Previo
  | _, .cadena _ barra _ => .cadena barra false
  | .cadena barra hueco, .texto c => if espacio c then .cadena barra (hueco || salto c) else .nada
  | .cadena barra hueco, .comentario _ => .cadena barra hueco
  | _, _ => .nada

/-- The text up to a second tag. -/
def hastaTag (tag s : Bytes) : Bytes × Bytes :=
  match cutText tag s with
  | some (t, r) => (t ++ tag, r)
  | none => (s, [])

/-- The region at a `$`. -/
def lexemaDolar (s : Bytes) : Lexema × Bytes :=
  if s.head?.any digito then (.parametro (0x24 :: s.takeWhile digito), s.dropWhile digito)
  else if (s.dropWhile etiqueta).head? = some 0x24 then
    let tag := 0x24 :: s.takeWhile etiqueta ++ [0x24]
    let (t, r) := hastaTag tag ((s.dropWhile etiqueta).drop 1)
    (.dolar tag t, r)
  else (.texto 0x24, s)

/-- The region at a `?`. -/
def lexemaMarcador (s : Bytes) : Lexema × Bytes :=
  if s.head? = some 0x3F then (.escapado, s.drop 1) else (.marcador, s)

/-- The region at the front of a text. -/
def lexema (previo : Previo) (c : UInt8) (s : Bytes) : Lexema × Bytes :=
  if c = 0x2D ∧ s.head? = some 0x2D then
    (.comentario ((c :: s).takeWhile (!salto ·)), (c :: s).dropWhile (!salto ·))
  else if c = 0x2F ∧ s.head? = some 0x2A then
    let (t, r) := bloque 0 (c :: s)
    (.bloque t, r)
  else if c = 0x27 then
    let barra := previo == .cadena true true
    let (t, r) := cita 0x27 barra s
    (.cadena [] barra (c :: t), r)
  else if esE c ∧ s.head? = some 0x27 then
    let (t, r) := cita 0x27 true (s.drop 1)
    (.cadena [c] true (0x27 :: t), r)
  else if c = 0x22 then
    let (t, r) := cita 0x22 false s
    (.citado (c :: t), r)
  else if letra c then (.identificador (c :: s.takeWhile seguido), s.dropWhile seguido)
  else if c = 0x24 then lexemaDolar s
  else if c = 0x3F then lexemaMarcador s
  else (.texto c, s)

/-- The regions of a text; there are no more of them than bytes. -/
def lexemasDesde : ℕ → Previo → Bytes → List Lexema
  | 0, _, _ => []
  | _ + 1, _, [] => []
  | n + 1, previo, c :: s =>
    let (t, r) := lexema previo c s
    t :: lexemasDesde n (previo.siguiente t) r

def lexemas (sql : Bytes) : List Lexema := lexemasDesde sql.length .nada sql

/-! ## Placeholders -/

def Lexema.esMarcador : Lexema → Bool
  | .marcador => true
  | _ => false

def Lexema.esParametro : Lexema → Bool
  | .parametro _ => true
  | _ => false

/-- The text with numbers for the placeholders, of which there were `n` before. -/
def traduce (n : ℕ) : List Lexema → Bytes
  | [] => []
  | .marcador :: ts => 0x24 :: digitos (n + 1) ++ traduce (n + 1) ts
  | .escapado :: ts => 0x3F :: traduce n ts
  | t :: ts => t.bytes ++ traduce n ts

/-- What a query is translated to, if it is. -/
def traduccion (sql : Bytes) (nargs : ℕ) : Option Bytes :=
  let ts := lexemas sql
  if ts.countP Lexema.esMarcador = 0 then some sql
  else if ts.any Lexema.esParametro || ts.countP Lexema.esMarcador != nargs then none
  else some (traduce 0 ts)

/-! ## The regions are the text -/

section Regions

variable {q c : UInt8} {barra : Bool} {prof n : ℕ} {previo : Previo} {s tag : Bytes}

theorem cita_append (q : UInt8) (barra : Bool) (s : Bytes) :
    (cita q barra s).1 ++ (cita q barra s).2 = s := by
  fun_induction cita q barra s with
  | case1 => rfl
  | case2 c => rfl
  | case3 c d s _ t r heq ih =>
    rw [heq] at ih
    exact congrArg (c :: d :: ·) ih
  | case4 c d s _ _ _ t r heq ih =>
    rw [heq] at ih
    exact congrArg (c :: d :: ·) ih
  | case5 => rfl
  | case6 c d s _ _ t r heq ih =>
    rw [heq] at ih
    exact congrArg (c :: ·) ih

theorem bloque_append (prof : ℕ) (s : Bytes) : (bloque prof s).1 ++ (bloque prof s).2 = s := by
  fun_induction bloque prof s with
  | case1 => rfl
  | case2 => rfl
  | case3 prof c d s _ t r heq ih =>
    rw [heq] at ih
    exact congrArg (c :: d :: ·) ih
  | case4 => rfl
  | case5 prof c d s _ _ _ t r heq ih =>
    rw [heq] at ih
    exact congrArg (c :: d :: ·) ih
  | case6 prof c d s _ _ t r heq ih =>
    rw [heq] at ih
    exact congrArg (c :: ·) ih

theorem bloque_ne_nil (prof : ℕ) (c : UInt8) (s : Bytes) : (bloque prof (c :: s)).1 ≠ [] := by
  cases s with
  | nil => exact List.cons_ne_nil _ _
  | cons d s =>
    rw [bloque]
    split
    · exact List.cons_ne_nil _ _
    · split
      · split <;> exact List.cons_ne_nil _ _
      · exact List.cons_ne_nil _ _

theorem hastaTag_append (tag s : Bytes) : (hastaTag tag s).1 ++ (hastaTag tag s).2 = s := by
  rw [hastaTag]
  split
  · next t r h => rw [Lib.cutText_eq h, List.append_assoc]
  · exact List.append_nil s

theorem head_cons {d : UInt8} (h : s.head? = some d) : s = d :: s.drop 1 := by
  obtain ⟨s', rfl⟩ := List.head?_eq_some_iff.1 h
  rfl

theorem lexemaDolar_append {t : Lexema} {r : Bytes} (h : lexemaDolar s = (t, r)) :
    t.bytes ++ r = 0x24 :: s ∧ t.bytes ≠ [] := by
  rw [lexemaDolar] at h
  split at h
  · cases h
    exact ⟨congrArg (0x24 :: ·) List.takeWhile_append_dropWhile, List.cons_ne_nil _ _⟩
  split at h
  · next htag =>
    have hcut := hastaTag_append (0x24 :: s.takeWhile etiqueta ++ [0x24])
      ((s.dropWhile etiqueta).drop 1)
    cases h
    refine ⟨(List.append_assoc ..).trans ((congrArg _ hcut).trans ?_), List.cons_ne_nil _ _⟩
    rw [List.append_assoc, List.singleton_append, ← head_cons htag]
    exact congrArg (0x24 :: ·) List.takeWhile_append_dropWhile
  · cases h
    exact ⟨rfl, List.cons_ne_nil _ _⟩

theorem lexemaMarcador_append {t : Lexema} {r : Bytes} (h : lexemaMarcador s = (t, r)) :
    t.bytes ++ r = 0x3F :: s ∧ t.bytes ≠ [] := by
  rw [lexemaMarcador] at h
  split at h
  · next hdouble =>
    cases h
    exact ⟨congrArg (0x3F :: ·) (head_cons hdouble).symm, List.cons_ne_nil _ _⟩
  · cases h
    exact ⟨rfl, List.cons_ne_nil _ _⟩

/-- **A region and what is behind it are the text**, and a region is never empty. -/
theorem lexema_append {t : Lexema} {r : Bytes} (h : lexema previo c s = (t, r)) :
    t.bytes ++ r = c :: s ∧ t.bytes ≠ [] := by
  rw [lexema] at h
  split at h
  · next hline =>
    cases h
    have hc : (!salto c) = true := by
      rw [hline.1]
      decide
    refine ⟨List.takeWhile_append_dropWhile, ?_⟩
    rw [Lexema.bytes, List.takeWhile_cons_of_pos (p := (!salto ·)) hc]
    exact List.cons_ne_nil _ _
  split at h
  · cases h
    exact ⟨bloque_append 0 (c :: s), bloque_ne_nil 0 c s⟩
  split at h
  · cases h
    exact ⟨congrArg (c :: ·) (cita_append _ _ s), List.cons_ne_nil _ _⟩
  split at h
  · next he =>
    cases h
    refine ⟨congrArg (c :: ·) ?_, List.cons_ne_nil _ _⟩
    exact (congrArg (0x27 :: ·) (cita_append 0x27 true (s.drop 1))).trans (head_cons he.2).symm
  split at h
  · cases h
    exact ⟨congrArg (c :: ·) (cita_append _ _ s), List.cons_ne_nil _ _⟩
  split at h
  · cases h
    exact ⟨congrArg (c :: ·) List.takeWhile_append_dropWhile, List.cons_ne_nil _ _⟩
  split at h
  · next hdolar =>
    subst hdolar
    exact lexemaDolar_append h
  split at h
  · next hmark =>
    subst hmark
    exact lexemaMarcador_append h
  · cases h
    exact ⟨rfl, List.cons_ne_nil _ _⟩

/-- A region takes a byte, or more. -/
theorem length_lexema {t : Lexema} {r : Bytes} (h : lexema previo c s = (t, r)) :
    r.length ≤ s.length := by
  obtain ⟨htext, hne⟩ := lexema_append h
  have hlen := congrArg List.length htext
  have hpos := List.length_pos_iff.2 hne
  rw [List.length_append, List.length_cons] at hlen
  omega

/-- **The regions are the text.** -/
theorem texto_lexemas (h : s.length ≤ n) : (lexemasDesde n previo s).flatMap Lexema.bytes = s := by
  induction n generalizing previo s with
  | zero =>
    rw [List.length_eq_zero_iff.1 (Nat.le_zero.1 h)]
    rfl
  | succ n ih =>
    cases s with
    | nil => rfl
    | cons c s =>
      obtain ⟨⟨t, r⟩, hlex⟩ : ∃ p, lexema previo c s = p := ⟨_, rfl⟩
      have hrest := (length_lexema hlex).trans (Nat.le_of_succ_le_succ h)
      rw [lexemasDesde, hlex, List.flatMap_cons, ih hrest, (lexema_append hlex).1]

end Regions

end Osodio.Db.Pg
