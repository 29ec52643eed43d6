import Osodio.Odio.Nesting

/-!
# The tags of a template

Four functions look for tags in a source.  `cuerpo` knows comments, expressions and the `-` of a
tag; `padre_de`, `recoger_bloques` and `fin_de_bloque` look for the next `{%` and the next `%}`.
They read a tag alike where it comes before every other mark and has no `-`.

## Main definitions

- `Signo`, `siguiente` — the next mark of a source, as `cuerpo` reads it
- `Signo.simple` — a tag, as the other three read it

## Main results

- `corte_siguiente` — `cuerpo` goes on as the class of the next mark says
- `etiquetaSimple_siguiente`, `Signo.contenido_eq` — a tag that all four read alike
- `padreDe_siguiente`, `padreDe_guion` — the base of a source, and a base that `-` hides
-/

namespace Osodio.Odio.Template

/-! ## Finding delimiters -/

section Delimiters

variable {a b c x : Char} {src l previo resto : List Char}

/-- One character of the search for `ab`. -/
theorem hasta_cons (a b x : Char) (src : List Char) : hasta a b (x :: src) =
    if x = a ∧ src.head? = some b then some ([], src.tail)
    else (hasta a b src).map fun p => (x :: p.1, p.2) := by
  cases src with
  | nil => simp [hasta]
  | cons y src => simp only [hasta, List.head?_cons, Option.some.injEq, List.tail_cons]

/-- A mark begins with `{` and one of these. -/
def abre (c : Char) : Prop := c = '{' ∨ c = '%' ∨ c = '#'

theorem abertura_abre (h : abre c) (src : List Char) :
    abertura ('{' :: c :: src) = some ([], c, src) := by
  unfold abre at h
  rw [abertura, if_pos h]

/-- One character of the search for a mark. -/
theorem abertura_cons (h : x = '{' → ∀ c ∈ src.head?, ¬ abre c) :
    abertura (x :: src) = (abertura src).map fun p => (x :: p.1, p.2) := by
  cases src with
  | nil =>
    rw [abertura]
    intro c rest _ hc
    cases hc
  | cons c src =>
    by_cases hx : x = '{'
    · subst hx
      have hc := h rfl c rfl
      unfold abre at hc
      rw [abertura, if_neg hc]
    · rw [abertura]
      intro c' rest he
      exact absurd he hx

/-- A mark begins here, or the search goes on. -/
theorem abertura_cases (x : Char) (src : List Char) :
    (x = '{' ∧ ∃ c resto, src = c :: resto ∧ abre c) ∨ (x = '{' → ∀ c ∈ src.head?, ¬ abre c) := by
  cases src with
  | nil => exact .inr fun _ => nofun
  | cons c src =>
    by_cases hx : x = '{' ∧ abre c
    · exact .inl ⟨hx.1, c, src, rfl, hx.2⟩
    · refine .inr fun h c' hc' hab => hx ⟨h, ?_⟩
      cases hc'
      exact hab

/-- The search passes over the blanks at the beginning. -/
theorem abertura_recortarDer (src : List Char) :
    abertura (recortarDer src) = (abertura src).map fun p => (recortarDer p.1, p.2) := by
  induction src with
  | nil => rfl
  | cons x src ih =>
    by_cases hb : blanco x = true
    · have hx : x = '{' → ∀ c ∈ src.head?, ¬ abre c := by
        rintro rfl
        cases hb
      have hr (l : List Char) : recortarDer (x :: l) = recortarDer l :=
        List.dropWhile_cons_of_pos hb
      rw [hr, ih, abertura_cons hx, Option.map_map]
      simp only [Function.comp_def, hr]
    · have hr (l : List Char) : recortarDer (x :: l) = x :: l := List.dropWhile_cons_of_neg hb
      rw [hr]
      cases ha : abertura (x :: src) with
      | none => rfl
      | some p =>
        obtain ⟨previo, tipo, tras⟩ := p
        have heq := abertura_eq ha
        cases previo with
        | nil => rfl
        | cons y previo =>
          obtain rfl : x = y := (List.cons.inj heq).1
          simp [hr]

/-- A mark that begins with `{%` is where the search for `{%` ends. -/
theorem abertura_tag (h : abertura src = some (previo, '%', resto)) :
    hasta '{' '%' src = some (previo, resto) := by
  induction src generalizing previo with
  | nil => cases h
  | cons x src ih =>
    rw [hasta_cons]
    obtain ⟨rfl, c, tras, rfl, hab⟩ | hx := abertura_cases x src
    · rw [abertura_abre hab] at h
      cases h
      exact if_pos ⟨rfl, rfl⟩
    · rw [abertura_cons hx] at h
      obtain ⟨⟨previo', tipo', resto'⟩, hp, he⟩ := Option.map_eq_some_iff.1 h
      cases he
      rw [if_neg fun hc => hx hc.1 '%' hc.2 (.inr (.inl rfl)), ih hp]
      rfl

end Delimiters

/-! ## Marks -/

/-- A mark of a source: the text before it, its kind, what is between its delimiters, and the
    source after it. -/
structure Signo where
  previo : List Char
  tipo : Char
  marca : List Char
  resto : List Char
  deriving DecidableEq, Repr

/-- What `cuerpo` does at a mark. -/
inductive Clase where
  | piezas (ps : List Pieza)
  | incluye (nombre : List Char)
  | bloque (nombre : String)
  | finBloque
  deriving DecidableEq, Repr

namespace Signo

/-- The delimiter is closed by this character and `}`. -/
def cierra (s : Signo) : Char := if s.tipo = '{' then '}' else s.tipo

/-- The whole of the mark. -/
def crudo (s : Signo) : List Char := '{' :: s.tipo :: (s.marca ++ [s.cierra, '}'])

/-- The text before the mark, without the blanks that its `-` takes away. -/
def antes (s : Signo) : List Char :=
  if s.marca.head? = some '-' then recortarIzq s.previo else s.previo

/-- The source after it, without those blanks. -/
def tras (s : Signo) : List Char := restoTras s.marca s.resto

def contenido (s : Signo) : List Char := contenidoDe s.tipo s.marca s.resto

def etiqueta (s : Signo) : String :=
  String.ofList (s.contenido.takeWhile fun c => c != ' ' && c != '\t')

def cola (s : Signo) : List Char := trim (s.contenido.dropWhile fun c => c != ' ' && c != '\t')

/-- The tag, as `padre_de`, `fin_de_bloque` and `recoger_bloques` read it. -/
def simple (s : Signo) : Etiqueta := ⟨s.previo, s.crudo, trim s.marca, s.resto⟩

def clase (s : Signo) : Clase :=
  if s.tipo = '#' then .piezas []
  else if s.tipo = '{' then .piezas [expresionPieza s.contenido]
  else if s.etiqueta = "include" then .incluye s.cola
  else if s.etiqueta = "block" then .bloque (String.ofList s.cola)
  else if s.etiqueta = "endblock" then .finBloque
  else .piezas (etiquetaPieza s.etiqueta s.cola).toList

end Signo

/-- The next mark of a source, if it has an end. -/
def siguiente (src : List Char) : Option Signo := do
  let (previo, tipo, tras) ← abertura src
  let (marca, resto) ← hasta (if tipo = '{' then '}' else tipo) '}' tras
  some ⟨previo, tipo, marca, resto⟩

section Marks

variable {src : List Char} {s : Signo}

theorem siguiente_some (h : siguiente src = some s) :
    ∃ tras, abertura src = some (s.previo, s.tipo, tras) ∧
      hasta s.cierra '}' tras = some (s.marca, s.resto) := by
  obtain ⟨⟨previo, tipo, tras⟩, ha, h⟩ := Option.bind_eq_some_iff.1 h
  obtain ⟨⟨marca, resto⟩, hc, h⟩ := Option.bind_eq_some_iff.1 h
  cases h
  exact ⟨tras, ha, hc⟩

/-- The source, cut at its next mark. -/
theorem siguiente_eq (h : siguiente src = some s) : src = s.previo ++ (s.crudo ++ s.resto) := by
  obtain ⟨tras, ha, hc⟩ := siguiente_some h
  rw [abertura_eq ha, hasta_eq hc]
  simp [Signo.crudo]

theorem siguiente_length (h : siguiente src = some s) : s.resto.length < src.length := by
  rw [siguiente_eq h]
  simp [Signo.crudo]
  omega

/-- The source without its blanks at the beginning has the same next mark. -/
theorem siguiente_recortarDer (h : siguiente src = some s) :
    siguiente (recortarDer src) = some { s with previo := recortarDer s.previo } := by
  obtain ⟨tras, ha, hc⟩ := siguiente_some h
  unfold siguiente
  rw [abertura_recortarDer, ha, Option.map_some]
  exact Option.bind_eq_some_iff.2 ⟨_, rfl, Option.bind_eq_some_iff.2 ⟨_, hc, rfl⟩⟩

/-- `cuerpo` cuts a source at its next mark. -/
theorem corte_siguiente (C : Carpeta) (profundidad : ℕ) (h : siguiente src = some s) :
    corte C src profundidad =
      corteMarca C profundidad (textoPieza s.antes) s.tipo s.contenido s.tras := by
  obtain ⟨tras, ha, hc⟩ := siguiente_some h
  unfold corte
  rw [ha]
  dsimp only
  rw [show (if s.tipo = '{' then '}' else s.tipo) = s.cierra from rfl, hc]
  rfl

/-- A mark that stands for itself. -/
theorem corte_piezas (C : Carpeta) (profundidad : ℕ) {ps : List Pieza}
    (h : siguiente src = some s) (hs : s.clase = .piezas ps) :
    corte C src profundidad = .sigue (textoPieza s.antes ++ ps) s.tras := by
  rw [corte_siguiente C profundidad h]
  unfold Signo.clase at hs
  unfold corteMarca
  split at hs
  · rename_i htipo
    cases hs
    rw [if_pos htipo, List.append_nil]
  rename_i hcomentario
  rw [if_neg hcomentario]
  split at hs
  · rename_i htipo
    cases hs
    exact if_pos htipo
  rename_i hexpr
  rw [if_neg hexpr]
  split at hs
  · cases hs
  rename_i hinclude
  split at hs
  · cases hs
  rename_i hblock
  split at hs
  · cases hs
  cases hs
  exact (if_neg hinclude).trans (if_neg hblock)

/-- The three other functions find a tag that comes before every other mark. -/
theorem etiquetaSimple_siguiente (h : siguiente src = some s) (htipo : s.tipo = '%')
    (hmarca : s.marca.head? ≠ some '}') : etiquetaSimple src = some s.simple := by
  obtain ⟨tras, ha, hc⟩ := siguiente_some h
  have hcierra : s.cierra = '%' := by
    unfold Signo.cierra
    rw [htipo]
    rfl
  rw [htipo] at ha
  rw [hcierra] at hc
  -- in `{%}` they take the `%` for the beginning of the end
  have htras : ∀ resto, tras ≠ '}' :: resto := by
    rintro resto rfl
    have heq := hasta_eq hc
    cases hm : s.marca with
    | nil => simp [hm] at heq
    | cons y l =>
      rw [hm] at heq hmarca
      exact hmarca (congrArg some (List.cons.inj heq).1.symm)
  unfold etiquetaSimple
  rw [abertura_tag ha]
  dsimp only [bind, Option.bind]
  split
  · rename_i resto
    exact absurd rfl (htras resto)
  · rw [hc]
    simp [Signo.simple, Signo.crudo, htipo, hcierra]

/-- Without `-` a tag has the same contents for all of them. -/
theorem Signo.contenido_eq (h : s.marca.head? ≠ some '-') (h' : s.marca.getLast? ≠ some '-') :
    s.contenido = s.simple.cont := by
  have hne : s.marca ≠ ['-'] := by
    intro hm
    rw [hm] at h
    exact h rfl
  unfold Signo.contenido contenidoDe
  rw [if_neg hne, if_neg h, if_neg h, if_neg h', Nat.sub_zero, Nat.sub_zero, List.take_length]
  rfl

/-- The base of a source whose first mark is a tag with nothing before it. -/
theorem padreDe_siguiente (h : siguiente src = some s) (htipo : s.tipo = '%')
    (hmarca : s.marca.head? ≠ some '}') (hprevio : recortarDer s.previo = []) :
    padreDe src = if "extends".toList <+: s.simple.cont then
      some (sinComillas (trim (s.simple.cont.drop 7))) else none := by
  have hs := etiquetaSimple_siguiente (siguiente_recortarDer h) htipo hmarca
  unfold padreDe
  rw [hs]
  dsimp only [bind, Option.bind, Signo.simple]
  rw [if_neg (not_not_intro hprevio)]
  congr

/-- What begins with a letter that is no blank begins with it when it is trimmed. -/
theorem head?_trim {c : Char} {l : List Char} (h : blanco c = false) :
    (trim (c :: l)).head? = some c := by
  have hder : recortarDer (c :: l) = c :: l :=
    List.dropWhile_cons_of_neg (by simp [h])
  unfold trim recortarIzq
  rw [hder, List.reverse_cons, List.dropWhile_append]
  split
  · simp [h]
  · simp

/-- The `-` of a tag hides the base: `cuerpo` finds an `extends` there, `padre_de` nothing. -/
theorem padreDe_guion (h : siguiente src = some s) (htipo : s.tipo = '%')
    (hprevio : recortarDer s.previo = []) (hguion : s.marca.head? = some '-') :
    padreDe src = none := by
  rw [padreDe_siguiente h htipo (by rw [hguion]; decide) hprevio]
  obtain ⟨l, hl⟩ := List.head?_eq_some_iff.1 hguion
  have hcont : s.simple.cont.head? = some '-' := by
    unfold Signo.simple
    rw [hl]
    exact head?_trim rfl
  refine if_neg ?_
  rintro ⟨t, ht⟩
  rw [← ht] at hcont
  exact absurd hcont (by simp)

end Marks

end Osodio.Odio.Template
