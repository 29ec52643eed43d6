import Mathlib.Logic.Relation
import Osodio.Odio.Structure

/-!
# Included files and replaced blocks

The marks of a source are taken one after the other; an included file, and a block that comes in
the place of another one, are gone through when their mark is met.  The depth of the includes has a
limit.  The depth of the blocks has none, so that a block that contains itself has no end.

## Main definitions

- `corte` — what `cuerpo` does with a source up to the end of its first mark
- `Marca` — what a mark can do
- `Pasa`, `Alcanza` — the sources that are gone through, each with its depth
- `Sustituye` — a block is replaced at a depth

## Main results

- `exists_piezasDe_iff` — the marks of a template have an end if and only if the depth is bounded
- `compiles_within` — a depth is not exceeded exactly if no block is replaced there
- `block_of_itself` — a template that is never compiled
-/

namespace Osodio.Odio.Template

/-! ## Finding marks -/

section Find

variable {a b : Char} {src previo resto : List Char}

/-- The source, cut at the first `ab`. -/
theorem hasta_eq (h : hasta a b src = some (previo, resto)) : src = previo ++ a :: b :: resto := by
  induction src generalizing previo with
  | nil => cases h
  | cons x src ih =>
    cases src with
    | nil => cases h
    | cons y src =>
      rw [hasta] at h
      split at h
      · rename_i hxy
        cases h
        rw [hxy.1, hxy.2, List.nil_append]
      · obtain ⟨⟨previo', resto'⟩, hp, he⟩ := Option.map_eq_some_iff.1 h
        cases he
        rw [ih hp, List.cons_append]

/-- The source, cut at its first mark. -/
theorem abertura_eq {tipo : Char} (h : abertura src = some (previo, tipo, resto)) :
    src = previo ++ '{' :: tipo :: resto := by
  induction src using abertura.induct generalizing previo with
  | case1 c rest hc =>
    rw [abertura, if_pos hc] at h
    cases h
    rfl
  | case2 c rest hc ih =>
    rw [abertura, if_neg hc] at h
    obtain ⟨⟨previo', tipo', resto'⟩, hp, he⟩ := Option.map_eq_some_iff.1 h
    cases he
    rw [ih hp, List.cons_append]
  | case3 c rest hne ih =>
    rw [abertura] at h
    · obtain ⟨⟨previo', tipo', resto'⟩, hp, he⟩ := Option.map_eq_some_iff.1 h
      cases he
      rw [ih hp, List.cons_append]
    · exact hne
  | case4 => cases h

/-- The source, cut at its next tag. -/
theorem etiquetaSimple_eq {e : Etiqueta} (h : etiquetaSimple src = some e) :
    src = e.previo ++ e.marca ++ e.resto ∧ e.marca ≠ [] := by
  unfold etiquetaSimple at h
  obtain ⟨⟨previo, tras⟩, hp, h⟩ := Option.bind_eq_some_iff.1 h
  rw [hasta_eq hp]
  dsimp only at h
  split at h
  · cases h
    exact ⟨by simp, nofun⟩
  · obtain ⟨⟨cont, resto⟩, hr, h⟩ := Option.bind_eq_some_iff.1 h
    cases h
    rw [hasta_eq hr]
    exact ⟨by simp, nofun⟩

theorem etiquetaSimple_length {e : Etiqueta} (h : etiquetaSimple src = some e) :
    e.resto.length < src.length := by
  obtain ⟨he, hm⟩ := etiquetaSimple_eq h
  have hpos := List.length_pos_iff.2 hm
  rw [he, List.length_append, List.length_append]
  omega

/-- The source of a block: what is inside of it, the tag that ends it, and what comes after it. -/
theorem finDeBloque_eq {n nivel : ℕ} (h : finDeBloque n nivel src = some (previo, resto)) :
    ∃ marca, src = previo ++ marca ++ resto ∧ marca ≠ [] := by
  induction n generalizing nivel src previo with
  | zero => cases h
  | succ n ih =>
    rw [finDeBloque] at h
    obtain ⟨e, he, h⟩ := Option.bind_eq_some_iff.1 h
    obtain ⟨hsrc, hm⟩ := etiquetaSimple_eq he
    have hsigue {nivel' : ℕ} (h : (finDeBloque n nivel' e.resto).map
        (fun p => (e.previo ++ e.marca ++ p.1, p.2)) = some (previo, resto)) :
        ∃ marca, src = previo ++ marca ++ resto ∧ marca ≠ [] := by
      obtain ⟨⟨previo', resto'⟩, hp, he⟩ := Option.map_eq_some_iff.1 h
      cases he
      obtain ⟨marca, hr, hm⟩ := ih hp
      exact ⟨marca, by rw [hsrc, hr]; simp, hm⟩
    dsimp only at h
    split at h
    · exact hsigue h
    split at h
    · split at h
      · cases h
        exact ⟨e.marca, hsrc, hm⟩
      · exact hsigue h
    · exact hsigue h

/-- The end of a block is found within as many tags as there are characters. -/
theorem finDeBloque_fuel {n m nivel : ℕ} (hn : src.length < n) (hm : src.length < m) :
    finDeBloque n nivel src = finDeBloque m nivel src := by
  induction n generalizing m nivel src with
  | zero => cases hn
  | succ n ih =>
    cases m with
    | zero => cases hm
    | succ m =>
      rw [finDeBloque, finDeBloque]
      cases he : etiquetaSimple src with
      | none => rfl
      | some e =>
        have hlt := etiquetaSimple_length he
        have hrest (nivel : ℕ) : finDeBloque n nivel e.resto = finDeBloque m nivel e.resto :=
          ih (by omega) (by omega)
        simp only [Option.bind_eq_bind, Option.bind_some, hrest]

/-- All blocks of a source are found within as many tags as there are characters. -/
theorem recogerBloques_fuel {n m : ℕ} {bloques : List (String × List Char)}
    (hn : src.length < n) (hm : src.length < m) :
    recogerBloques n src bloques = recogerBloques m src bloques := by
  induction n generalizing m src bloques with
  | zero => cases hn
  | succ n ih =>
    cases m with
    | zero => cases hm
    | succ m =>
      rw [recogerBloques, recogerBloques]
      cases he : etiquetaSimple src with
      | none => rfl
      | some e =>
        have hlt := etiquetaSimple_length he
        dsimp only
        split
        · cases hf : finDeBloque (e.resto.length + 1) 1 e.resto with
          | none => rfl
          | some p =>
            obtain ⟨marca, hr, -⟩ := finDeBloque_eq hf
            have hlen : p.2.length ≤ e.resto.length := by
              rw [hr, List.length_append]
              omega
            exact ih (by omega) (by omega)
        · exact ih (by omega) (by omega)

end Find

/-! ## One mark after the other -/

/-- What `cuerpo` does with a source up to the end of its first mark. -/
inductive Corte where
  /-- The source is at its end, or an error ends it. -/
  | fin (piezas : List Pieza)
  | sigue (piezas : List Pieza) (resto : List Char)
  /-- A file that is included, or a block that comes in the place of another one. -/
  | entra (bloque : Bool) (previo : List Pieza) (hijo resto : List Char)

/-- A mark with the text before it and the source after it, both without the blanks that it
    takes away. -/
def corteMarca (C : Carpeta) (profundidad : ℕ) (texto : List Pieza) (tipo : Char)
    (contenido resto : List Char) : Corte :=
  if tipo = '#' then .sigue texto resto
  else if tipo = '{' then .sigue (texto ++ [expresionPieza contenido]) resto
  else
    let etiqueta := String.ofList (contenido.takeWhile fun c => c != ' ' && c != '\t')
    let cola := trim (contenido.dropWhile fun c => c != ' ' && c != '\t')
    if etiqueta = "include" then
      if 16 < profundidad then
        .sigue (texto ++ [.error "demasiados \x7b% include %\x7d anidados: hay un ciclo?"]) resto
      else
        let nombre := sinComillas cola
        if nombre = [] ∨ conPuntos nombre then
          .sigue (texto ++ [.error "nombre de plantilla no valido en \x7b% include %\x7d"]) resto
        else
          match C.ficheros.lookup (String.ofList nombre) with
          | none => .sigue (texto ++ [.error ("no se encuentra la plantilla '" ++
              String.ofList nombre ++ "'")]) resto
          | some incluido => .entra false texto incluido.toList resto
    else if etiqueta = "block" then
      match finDeBloque (resto.length + 1) 1 resto with
      | none => .fin (texto ++ [.error ("falta \x7b% endblock %\x7d para el bloque '" ++
          String.ofList cola ++ "'")])
      | some (_, trasBloque) =>
        match C.bloques.lookup (String.ofList cola) with
        | none => .sigue texto resto
        | some bloque => .entra true texto bloque trasBloque
    else .sigue (texto ++ (etiquetaPieza etiqueta cola).toList) resto

/-- The text before a mark. -/
def textoAntes (previo marca : List Char) : List Pieza :=
  textoPieza (if marca.head? = some '-' then recortarIzq previo else previo)

/-- The contents of a mark. -/
def contenidoDe (tipo : Char) (marca resto : List Char) : List Char :=
  if marca = ['-'] then trim ((if tipo = '{' then '}' else tipo) :: '}' :: resto)
  else trim ((if marca.head? = some '-' then marca.tail else marca).take
    (marca.length - (if marca.head? = some '-' then 1 else 0) -
      (if marca.getLast? = some '-' then 1 else 0)))

/-- The source after a mark. -/
def restoTras (marca resto : List Char) : List Char :=
  if marca.getLast? = some '-' then recortarDer resto else resto

/-- The first mark of a source. -/
def corte (C : Carpeta) (src : List Char) (profundidad : ℕ) : Corte :=
  match abertura src with
  | none => .fin (textoPieza src)
  | some (previo, tipo, tras) =>
    match hasta (if tipo = '{' then '}' else tipo) '}' tras with
    | none => .fin [.error "falta el cierre"]
    | some (marca, resto) =>
      corteMarca C profundidad (textoAntes previo marca) tipo (contenidoDe tipo marca resto)
        (restoTras marca resto)

/-- The marks from the first one on, if `f` gives those of the sources after it. -/
def Corte.une (f : List Char → ℕ → Option (List Pieza)) (profundidad : ℕ) :
    Corte → Option (List Pieza)
  | .fin piezas => some piezas
  | .sigue piezas resto => (f resto profundidad).map fun rest => piezas ++ rest
  | .entra _ previo hijo resto => (f hijo (profundidad + 1)).bind fun piezas =>
    (f resto profundidad).map fun rest => previo ++ piezas ++ rest

section Une

variable {C : Carpeta} {fuel profundidad : ℕ}

theorem cuerpo_succ (src : List Char) : cuerpo C (fuel + 1) src profundidad =
    (corte C src profundidad).une (cuerpo C fuel) profundidad := by
  rw [cuerpo]
  unfold corte
  cases abertura src with
  | none => rfl
  | some p =>
    obtain ⟨previo, tipo, tras⟩ := p
    dsimp only
    cases hasta (if tipo = '{' then '}' else tipo) '}' tras with
    | none => rfl
    | some q =>
      obtain ⟨marca, resto⟩ := q
      dsimp only
      have htexto : textoPieza (if marca.head? = some '-' then recortarIzq previo else previo) =
        textoAntes previo marca := rfl
      have hresto : (if marca.getLast? = some '-' then recortarDer resto else resto) =
        restoTras marca resto := rfl
      have hcont : (if marca = ['-'] then trim ((if tipo = '{' then '}' else tipo) :: '}' :: resto)
        else trim ((if marca.head? = some '-' then marca.tail else marca).take
          (marca.length - (if marca.head? = some '-' then 1 else 0) -
            (if marca.getLast? = some '-' then 1 else 0)))) = contenidoDe tipo marca resto := rfl
      rw [htexto, hresto, hcont]
      generalize textoAntes previo marca = texto
      generalize restoTras marca resto = resto'
      generalize contenidoDe tipo marca resto = contenido
      unfold corteMarca
      dsimp only
      by_cases hcomentario : tipo = '#'
      · simp only [if_pos hcomentario, Corte.une, List.append_nil]
      by_cases hexpr : tipo = '{'
      · simp only [if_neg hcomentario, if_pos hexpr, Corte.une]
      simp only [if_neg hcomentario, if_neg hexpr]
      generalize String.ofList (contenido.takeWhile fun c => c != ' ' && c != '\t') = etiqueta
      generalize trim (contenido.dropWhile fun c => c != ' ' && c != '\t') = cola
      by_cases hinclude : etiqueta = "include"
      · simp only [if_pos hinclude]
        split
        · rfl
        split
        · rfl
        cases C.ficheros.lookup (String.ofList (sinComillas cola)) <;> rfl
      by_cases hblock : etiqueta = "block"
      · simp only [if_neg hinclude, if_pos hblock]
        cases finDeBloque (resto'.length + 1) 1 resto' with
        | none => rfl
        | some p =>
          cases C.bloques.lookup (String.ofList cola) with
          | none => simp only [Corte.une, List.append_nil]
          | some bloque => rfl
      · simp only [if_neg hinclude, if_neg hblock, Corte.une]

end Une

/-! ## What a mark can do -/

/-- What comes after a mark: nothing, more of the source, an included file, which is one level
    deeper than 16 at most, or a block of a child.  The mark itself is no text. -/
inductive Marca (C : Carpeta) (profundidad : ℕ) (texto : List Pieza) (resto : List Char) :
    Corte → Prop
  | fin (piezas : List Pieza) (h : ∀ t, .texto t ∉ piezas) :
      Marca C profundidad texto resto (.fin (texto ++ piezas))
  | sigue (piezas : List Pieza) (h : ∀ t, .texto t ∉ piezas) :
      Marca C profundidad texto resto (.sigue (texto ++ piezas) resto)
  | incluye (nombre hijo : String) (hd : profundidad ≤ 16)
      (h : C.ficheros.lookup nombre = some hijo) :
      Marca C profundidad texto resto (.entra false texto hijo.toList resto)
  | sustituye (nombre : String) (dentro hijo tras : List Char)
      (hfin : finDeBloque (resto.length + 1) 1 resto = some (dentro, tras))
      (h : C.bloques.lookup nombre = some hijo) :
      Marca C profundidad texto resto (.entra true texto hijo tras)

section Inversion

variable {C : Carpeta} {src : List Char} {profundidad : ℕ}

theorem expresionPieza_ne (contenido : List Char) (t : String) :
    .texto t ∉ [expresionPieza contenido] := by
  unfold expresionPieza
  intro h
  dsimp only at h
  split at h <;> split at h <;> cases List.mem_singleton.1 h

theorem etiquetaPieza_ne (etiqueta : String) (cola : List Char) (t : String) :
    .texto t ∉ (etiquetaPieza etiqueta cola).toList := by
  have hbucle : buclePieza cola ≠ .texto t := by
    unfold buclePieza
    split
    · nofun
    · split <;> nofun
  unfold etiquetaPieza
  intro h
  rw [Option.mem_toList] at h
  repeat' split at h
  all_goals first | exact hbucle (Option.some.inj h) | cases h

/-- **Inversion** of a mark. -/
theorem corteMarca_marca (texto : List Pieza) (tipo : Char) (contenido resto : List Char) :
    Marca C profundidad texto resto (corteMarca C profundidad texto tipo contenido resto) := by
  have hvacio : Marca C profundidad texto resto (.sigue texto resto) := by
    have h : Marca C profundidad texto resto (.sigue (texto ++ []) resto) := .sigue [] nofun
    rwa [List.append_nil] at h
  have herror (message : String) (t : String) : Pieza.texto t ∉ [Pieza.error message] :=
    fun h => nomatch List.mem_singleton.1 h
  unfold corteMarca
  split
  · exact hvacio
  split
  · exact .sigue _ (expresionPieza_ne contenido)
  dsimp only
  split
  · split
    · exact .sigue _ (herror _)
    rename_i hd
    split
    · exact .sigue _ (herror _)
    split
    · exact .sigue _ (herror _)
    · rename_i hijo hf
      exact .incluye _ hijo (Nat.le_of_not_lt hd) hf
  split
  · split
    · exact .fin _ (herror _)
    rename_i dentro tras hfin
    split
    · exact hvacio
    · rename_i hijo hb
      exact .sustituye _ dentro hijo tras hfin hb
  · exact .sigue _ (etiquetaPieza_ne _ _)

/-- The first mark of a source: there is none, it has no end, or it is one of the cases. -/
theorem corte_cases (C : Carpeta) (src : List Char) (profundidad : ℕ) :
    corte C src profundidad = .fin (textoPieza src) ∨
      corte C src profundidad = .fin [.error "falta el cierre"] ∨
      ∃ previo tipo marca cierre resto,
        src = previo ++ '{' :: tipo :: (marca ++ cierre :: '}' :: resto) ∧
        Marca C profundidad (textoAntes previo marca) (restoTras marca resto)
          (corte C src profundidad) := by
  unfold corte
  cases ha : abertura src with
  | none => exact .inl rfl
  | some p =>
    obtain ⟨previo, tipo, tras⟩ := p
    dsimp only
    cases hc : hasta (if tipo = '{' then '}' else tipo) '}' tras with
    | none => exact .inr (.inl rfl)
    | some q =>
      obtain ⟨marca, resto⟩ := q
      refine .inr (.inr ⟨previo, tipo, marca, if tipo = '{' then '}' else tipo, resto, ?_,
        corteMarca_marca _ _ _ _⟩)
      rw [abertura_eq ha, hasta_eq hc]

theorem restoTras_length (marca resto : List Char) :
    (restoTras marca resto).length ≤ resto.length := by
  unfold restoTras recortarDer
  split
  · exact (List.dropWhile_suffix _).length_le
  · exact le_rfl

/-- What is left of the source after the first mark. -/
def Corte.resto? : Corte → Option (List Char)
  | .fin _ => none
  | .sigue _ resto | .entra _ _ _ resto => some resto

/-- The source after its first mark is shorter. -/
theorem corte_length {resto : List Char} (h : (corte C src profundidad).resto? = some resto) :
    resto.length < src.length := by
  obtain hc | hc | ⟨previo, tipo, marca, cierre, tras, rfl, hm⟩ := corte_cases C src profundidad
  · rw [hc] at h
    cases h
  · rw [hc] at h
    cases h
  have hlen := restoTras_length marca tras
  simp only [List.length_append, List.length_cons]
  generalize corte C _ profundidad = c at h hm
  cases hm with
  | fin => cases h
  | sigue | incluye =>
    cases h
    omega
  | sustituye nombre dentro hijo tras' hfin =>
    cases h
    obtain ⟨m, hr, -⟩ := finDeBloque_eq hfin
    rw [hr] at hlen
    simp only [List.length_append] at hlen
    omega

end Inversion

/-! ## The sources that are gone through -/

/-- From a source at a depth, the next one: what is left of it after its first mark, or what its
    first mark goes through. -/
inductive Pasa (C : Carpeta) : List Char × ℕ → List Char × ℕ → Prop
  | resto {src resto : List Char} {d : ℕ} (h : (corte C src d).resto? = some resto) :
      Pasa C (src, d) (resto, d)
  | hijo {src hijo resto : List Char} {bloque : Bool} {previo : List Pieza} {d : ℕ}
      (h : corte C src d = .entra bloque previo hijo resto) : Pasa C (src, d) (hijo, d + 1)

/-- The compilation of a template goes through a source at a depth. -/
def Alcanza (ficheros : List (String × String)) (fuente : String) (q : List Char × ℕ) : Prop :=
  ∃ errores raiz bloques, raizDe ficheros 16 fuente.toList [] = .ok (errores, raiz, bloques) ∧
    Relation.ReflTransGen (Pasa ⟨ficheros, bloques⟩) (raiz, 0) q

/-- A block is replaced in a source at a depth. -/
def Sustituye (ficheros : List (String × String)) (fuente : String) (d : ℕ) : Prop :=
  ∃ errores raiz bloques src previo hijo resto,
    raizDe ficheros 16 fuente.toList [] = .ok (errores, raiz, bloques) ∧
    Relation.ReflTransGen (Pasa ⟨ficheros, bloques⟩) (raiz, 0) (src, d) ∧
    corte ⟨ficheros, bloques⟩ src d = .entra true previo hijo resto

section Depth

variable {C : Carpeta} {src : List Char} {d fuel fuel' : ℕ} {ps : List Pieza}
  {q q' : List Char × ℕ}

/-- More fuel does not change the marks. -/
theorem cuerpo_mono (h : cuerpo C fuel src d = some ps) (hle : fuel ≤ fuel') :
    cuerpo C fuel' src d = some ps := by
  induction fuel generalizing src d ps fuel' with
  | zero => cases h
  | succ fuel ih =>
    cases fuel' with
    | zero => cases hle
    | succ fuel' =>
      have hle := Nat.le_of_succ_le_succ hle
      rw [cuerpo_succ] at h ⊢
      cases hc : corte C src d with
      | fin piezas =>
        rw [hc] at h
        exact h
      | sigue piezas resto =>
        rw [hc] at h
        obtain ⟨rest, hrest, hps⟩ := Option.map_eq_some_iff.1 h
        exact Option.map_eq_some_iff.2 ⟨rest, ih hrest hle, hps⟩
      | entra bloque previo hijo resto =>
        rw [hc] at h
        obtain ⟨piezas, hpiezas, h⟩ := Option.bind_eq_some_iff.1 h
        obtain ⟨rest, hrest, hps⟩ := Option.map_eq_some_iff.1 h
        exact Option.bind_eq_some_iff.2 ⟨piezas, ih hpiezas hle,
          Option.map_eq_some_iff.2 ⟨rest, ih hrest hle, hps⟩⟩

/-- Marks that have an end have one also from the next source on. -/
theorem Pasa.cuerpo (h : Pasa C q q') (hq : (cuerpo C (fuel + 1) q.1 q.2).isSome) :
    (cuerpo C fuel q'.1 q'.2).isSome := by
  obtain ⟨ps, hps⟩ := Option.isSome_iff_exists.1 hq
  rw [cuerpo_succ] at hps
  cases h with
  | @resto src resto d h =>
    cases hc : corte C src d with
    | fin piezas =>
      rw [hc] at h
      cases h
    | sigue piezas resto' =>
      rw [hc] at h hps
      cases h
      obtain ⟨rest, hrest, -⟩ := Option.map_eq_some_iff.1 hps
      exact Option.isSome_of_mem hrest
    | entra bloque previo hijo resto' =>
      rw [hc] at h hps
      cases h
      obtain ⟨piezas, -, h⟩ := Option.bind_eq_some_iff.1 hps
      obtain ⟨rest, hrest, -⟩ := Option.map_eq_some_iff.1 h
      exact Option.isSome_of_mem hrest
  | hijo h =>
    rw [h] at hps
    obtain ⟨piezas, hpiezas, -⟩ := Option.bind_eq_some_iff.1 hps
    exact Option.isSome_of_mem hpiezas

theorem Pasa.depth_le (h : Pasa C q q') : q'.2 ≤ q.2 + 1 := by
  cases h with
  | resto => exact Nat.le_succ _
  | hijo => exact le_rfl

/-- The depth of marks that have an end is bounded. -/
theorem depth_le_of_cuerpo (hq : (cuerpo C fuel q.1 q.2).isSome)
    (h : Relation.ReflTransGen (Pasa C) q q') : q'.2 ≤ q.2 + fuel := by
  induction h using Relation.ReflTransGen.head_induction_on generalizing fuel with
  | refl => exact Nat.le_add_right ..
  | head hstep _ ih =>
    cases fuel with
    | zero => cases hq
    | succ fuel =>
      have hd := hstep.depth_le
      have hrest := ih (hstep.cuerpo hq)
      omega

/-- **Marks whose depth is bounded have an end**: what is left of a source is shorter, and what a
    mark goes through is deeper. -/
theorem exists_cuerpo {B : ℕ} (src : List Char) (d : ℕ)
    (h : ∀ q, Relation.ReflTransGen (Pasa C) (src, d) q → q.2 ≤ B) :
    ∃ fuel, (cuerpo C fuel src d).isSome := by
  have hresto (resto : List Char) (hr : (corte C src d).resto? = some resto) :
      ∃ fuel ps, cuerpo C fuel resto d = some ps := by
    have hlt := corte_length hr
    obtain ⟨fuel, hf⟩ := exists_cuerpo resto d fun q hq => h q (.head (.resto hr) hq)
    exact ⟨fuel, Option.isSome_iff_exists.1 hf⟩
  cases hc : corte C src d with
  | fin piezas => exact ⟨1, by rw [cuerpo_succ, hc]; rfl⟩
  | sigue piezas resto =>
    obtain ⟨fuel, rest, hrest⟩ := hresto resto (by rw [hc]; rfl)
    refine ⟨fuel + 1, ?_⟩
    rw [cuerpo_succ, hc, Corte.une, hrest]
    rfl
  | entra bloque previo hijo resto =>
    obtain ⟨fuel, rest, hrest⟩ := hresto resto (by rw [hc]; rfl)
    have hd : d + 1 ≤ B := h _ (.single (.hijo hc))
    obtain ⟨fuel', hf⟩ := exists_cuerpo hijo (d + 1) fun q hq => h q (.head (.hijo hc) hq)
    obtain ⟨piezas, hpiezas⟩ := Option.isSome_iff_exists.1 hf
    refine ⟨max fuel fuel' + 1, ?_⟩
    rw [cuerpo_succ, hc, Corte.une, cuerpo_mono hpiezas (le_max_right ..),
      cuerpo_mono hrest (le_max_left ..)]
    rfl
termination_by (B - d, src.length)

/-- The marks of a source have an end if and only if the depth has a bound. -/
theorem exists_cuerpo_iff (src : List Char) (d : ℕ) :
    (∃ fuel, (cuerpo C fuel src d).isSome) ↔
      ∃ B, ∀ q, Relation.ReflTransGen (Pasa C) (src, d) q → q.2 ≤ B := by
  constructor
  · rintro ⟨fuel, hf⟩
    exact ⟨d + fuel, fun q hq => depth_le_of_cuerpo hf hq⟩
  · rintro ⟨B, hB⟩
    exact exists_cuerpo src d hB

/-- Includes stop at the depth of 17; only a block that is replaced leads deeper. -/
theorem Pasa.bounded {B : ℕ} (hB : 17 ≤ B) (h : Pasa C q q') (hq : q.2 ≤ B)
    (hbloque : q.2 = B → ∀ previo hijo resto, corte C q.1 B ≠ .entra true previo hijo resto) :
    q'.2 ≤ B := by
  cases h with
  | resto => exact hq
  | @hijo src hijo resto bloque previo d h =>
    obtain hd | hd := Nat.lt_or_ge d B
    · exact hd
    obtain rfl : d = B := Nat.le_antisymm hq hd
    cases bloque with
    | true => exact absurd h (hbloque rfl previo hijo resto)
    | false =>
      obtain hc | hc | ⟨_, _, marca, _, tras, -, hm⟩ := corte_cases C src d
      · rw [hc] at h
        cases h
      · rw [hc] at h
        cases h
      rw [h] at hm
      cases hm with
      | incluye _ _ hd => exact absurd (hB.trans hd) (by decide)

/-- Until a block is replaced at the depth `B`, nothing is deeper. -/
theorem depth_le_of_not {B : ℕ} (hB : 17 ≤ B) {raiz : List Char}
    (hn : ∀ src previo hijo resto, Relation.ReflTransGen (Pasa C) (raiz, 0) (src, B) →
      corte C src B ≠ .entra true previo hijo resto)
    (h : Relation.ReflTransGen (Pasa C) (raiz, 0) q) : q.2 ≤ B := by
  induction h with
  | refl => exact Nat.zero_le B
  | @tail q q' hq hstep ih =>
    obtain ⟨src, d⟩ := q
    refine hstep.bounded hB ih fun hd => ?_
    obtain rfl : d = B := hd
    exact fun previo hijo resto => hn src previo hijo resto hq

end Depth

/-! ## Whole templates -/

section Compilation

variable {ficheros : List (String × String)} {fuente : String}

/-- The marks of a template have an end if and only if the depth has a bound. -/
theorem exists_piezasDe_iff : (∃ fuel ps, piezasDe ficheros fuel fuente = some ps) ↔
    ∃ B, ∀ q, Alcanza ficheros fuente q → q.2 ≤ B := by
  unfold piezasDe Alcanza
  cases hr : raizDe ficheros 16 fuente.toList [] with
  | error message => exact ⟨fun _ => ⟨0, nofun⟩, fun _ => ⟨0, _, rfl⟩⟩
  | ok r =>
    obtain ⟨errores, raiz, bloques⟩ := r
    have hiff := exists_cuerpo_iff (C := ⟨ficheros, bloques⟩) raiz 0
    constructor
    · rintro ⟨fuel, ps, h⟩
      obtain ⟨piezas, hp, -⟩ := Option.map_eq_some_iff.1 h
      obtain ⟨B, hB⟩ := hiff.1 ⟨fuel, Option.isSome_of_mem hp⟩
      exact ⟨B, fun q ⟨_, _, _, he, hq⟩ => by cases he; exact hB q hq⟩
    · rintro ⟨B, hB⟩
      obtain ⟨fuel, hf⟩ := hiff.2 ⟨B, fun q hq => hB q ⟨_, _, _, rfl, hq⟩⟩
      obtain ⟨piezas, hp⟩ := Option.isSome_iff_exists.1 hf
      exact ⟨fuel, _, Option.map_eq_some_iff.2 ⟨piezas, hp, rfl⟩⟩

/-- A template has one sequence of marks only. -/
theorem piezasDe_unique {fuel fuel' : ℕ} {ps ps' : List Pieza}
    (h : piezasDe ficheros fuel fuente = some ps)
    (h' : piezasDe ficheros fuel' fuente = some ps') : ps = ps' := by
  unfold piezasDe at h h'
  cases hr : raizDe ficheros 16 fuente.toList [] with
  | error message =>
    rw [hr] at h h'
    exact Option.some.inj (h.symm.trans h')
  | ok r =>
    rw [hr] at h h'
    obtain ⟨piezas, hp, rfl⟩ := Option.map_eq_some_iff.1 h
    obtain ⟨piezas', hp', rfl⟩ := Option.map_eq_some_iff.1 h'
    have hmax := cuerpo_mono hp (le_max_left fuel fuel')
    rw [Option.some.inj (hmax.symm.trans (cuerpo_mono hp' (le_max_right fuel fuel')))]

/-- The compiler takes all marks, if they have an end. -/
theorem exists_compilarPlantilla_iff (T : Taller) (datos : Nombres) :
    (∃ fuel c, compilarPlantilla T ficheros fuel fuente datos = some c) ↔
      ∃ fuel ps, piezasDe ficheros fuel fuente = some ps := by
  constructor
  · rintro ⟨fuel, c, h⟩
    obtain ⟨ps, hps, -⟩ := Option.bind_eq_some_iff.1 h
    exact ⟨fuel, ps, hps⟩
  · rintro ⟨fuel, ps, hps⟩
    have hrun : (compilador T datos).run ps = some _ := run_eq_foldl T datos ps
    have hsome : (compilarPlantilla T ficheros fuel fuente datos).isSome := by
      unfold compilarPlantilla
      simp [hps, hrun]
    exact ⟨fuel, Option.isSome_iff_exists.1 hsome⟩

/-- **A compilation ends within a depth**, from 17 on, if and only if no block is replaced in a
    source at that depth. -/
theorem compiles_within (T : Taller) (datos : Nombres) {B : ℕ} (hB : 17 ≤ B) :
    ((∃ fuel c, compilarPlantilla T ficheros fuel fuente datos = some c) ∧
        ∀ q, Alcanza ficheros fuente q → q.2 ≤ B) ↔
      ¬ Sustituye ficheros fuente B := by
  rw [exists_compilarPlantilla_iff, exists_piezasDe_iff]
  constructor
  · rintro ⟨-, h⟩ ⟨errores, raiz, bloques, src, previo, hijo, resto, hr, hq, hc⟩
    have hle := h (hijo, B + 1) ⟨errores, raiz, bloques, hr, hq.tail (.hijo hc)⟩
    exact absurd hle (Nat.not_succ_le_self B)
  · intro hn
    have hle : ∀ q, Alcanza ficheros fuente q → q.2 ≤ B := by
      rintro q ⟨errores, raiz, bloques, hr, hq⟩
      exact depth_le_of_not hB (fun src previo hijo resto hs hc =>
        hn ⟨errores, raiz, bloques, src, previo, hijo, resto, hr, hs, hc⟩) hq
    exact ⟨⟨B, hle⟩, hle⟩

/-- A base with one block. -/
def baseConBloque : String := "\x7b% block a %\x7d\x7b% endblock %\x7d"

/-- A child whose block has a text. -/
def hijoConTexto : String :=
  "\x7b% extends \"base\" %\x7d\x7b% block a %\x7dHola\x7b% endblock %\x7d"

/-- The block is replaced in the base, and that is all. -/
theorem compiles_within_seventeen :
    ((∃ fuel c, compilarPlantilla .nombres [("base", baseConBloque)] fuel hijoConTexto [] =
        some c) ∧
      ∀ q, Alcanza [("base", baseConBloque)] hijoConTexto q → q.2 ≤ 17) ∧
    ¬ Sustituye [("base", baseConBloque)] hijoConTexto 17 := by
  have hr : raizDe [("base", baseConBloque)] 16 hijoConTexto.toList [] =
      .ok ([], baseConBloque.toList, [("a", "Hola".toList)]) := rfl
  have hn : ¬ Sustituye [("base", baseConBloque)] hijoConTexto 17 := by
    rintro ⟨errores, raiz, bloques, src, previo, hijo, resto, he, hq, -⟩
    rw [hr] at he
    cases he
    -- four marks are enough, so nothing is deeper than four
    have hle : 17 ≤ 0 + 4 := depth_le_of_cuerpo (q := (baseConBloque.toList, 0)) (by decide) hq
    exact absurd hle (by decide)
  exact ⟨(compiles_within .nombres [] le_rfl).2 hn, hn⟩

/-- A child whose block contains a block of its own name. -/
def hijoConSuBloque : String := "\x7b% extends \"base\" %\x7d" ++
  "\x7b% block a %\x7d\x7b% block a %\x7d\x7b% endblock %\x7d\x7b% endblock %\x7d"

/-- The block comes in the place of the one that it contains, again and again: the compilation
    does not return. -/
theorem block_of_itself :
    ¬ ∃ fuel c, compilarPlantilla .nombres [("base", baseConBloque)] fuel hijoConSuBloque [] =
      some c := by
  have hr : raizDe [("base", baseConBloque)] 16 hijoConSuBloque.toList [] =
      .ok ([], baseConBloque.toList, [("a", baseConBloque.toList)]) := rfl
  have hc (d : ℕ) : corte ⟨[("base", baseConBloque)], [("a", baseConBloque.toList)]⟩
      baseConBloque.toList d = .entra true [] baseConBloque.toList [] := rfl
  have hn (fuel d : ℕ) : cuerpo ⟨[("base", baseConBloque)], [("a", baseConBloque.toList)]⟩ fuel
      baseConBloque.toList d = none := by
    induction fuel generalizing d with
    | zero => rfl
    | succ fuel ih => rw [cuerpo_succ, hc, Corte.une, ih, Option.bind_none]
  rintro ⟨fuel, c, h⟩
  obtain ⟨ps, hps, -⟩ := Option.bind_eq_some_iff.1 h
  unfold piezasDe at hps
  rw [hr] at hps
  dsimp only at hps
  rw [hn] at hps
  cases hps

end Compilation

end Osodio.Odio.Template
