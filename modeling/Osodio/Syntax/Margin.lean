import Mathlib.Data.List.Forall2
import Mathlib.Data.List.TakeWhile
import Mathlib.Tactic.Push
import Osodio.Syntax.Lexer

/-!
# The margin of a string

A string of three quotes is written along with the text around it, and its margin belongs to that
text.  What it stands for should not change when the text is moved.

## Main definitions

- `TresComillas` — a string of three quotes whose text starts on a line of its own
- `TresComillas.sangrada` — the same, further to the right
- `TresComillas.esperado` — its lines without their margin
- `TresComillas.Regular` — the strings that have the value they should have

## Main results

- `lexString_tresComillas` — the token of such a string
- `margin_iff_regular` — which strings keep their lines, and do not change when they are moved
- `margin_not_kept` — two that do not
-/

namespace Osodio.Syntax

/-! ## Strings of three quotes -/

/-- How the lines of a file end. -/
inductive Salto where
  | lf
  | crlf
  deriving DecidableEq

namespace Salto

/-- What stands before the line feed. -/
def retorno : Salto → List Char
  | .lf => []
  | .crlf => ['\r']

def texto (s : Salto) : List Char := s.retorno ++ ['\n']

end Salto

/-- The text of a line, without its end. -/
def Linea (l : List Char) : Prop := '\n' ∉ l ∧ '\r' ∉ l

/-- A line of spaces. -/
def blanca (l : List Char) : Bool := l.all (· == ' ')

def comillas : List Char := ['"', '"', '"']

/-- The raw text stands between two pairs of three quotes. -/
def Cerrado (raw : List Char) : Prop := ∀ s, bruto (raw ++ (comillas ++ s)) = (raw, s, true)

/-- The raw text of some lines, the first of which stands below the quotes, and of what stands in
    front of the last quotes. -/
def crudo (salto : Salto) (lineas : List (List Char)) (ultima : List Char) : List Char :=
  salto.texto ++ (lineas.flatMap (· ++ salto.texto) ++ ultima)

/-- A string of three quotes whose text starts on a line of its own. -/
structure TresComillas where
  salto : Salto
  lineas : List (List Char)
  ultima : List Char
  limpias : ∀ l ∈ lineas, Linea l
  limpia : Linea ultima
  cerrado : Cerrado (crudo salto lineas ultima)

/-- `k` spaces in front of a line that is not blank. -/
def sangra (k : ℕ) (l : List Char) : List Char :=
  if blanca l then l else List.replicate k ' ' ++ l

/-! ## Reading the raw text -/

section Raw

variable {a b s t raw : List Char}

/-- The text of a line does not close the string. -/
def Abierta (a : List Char) : Prop :=
  ∀ t, bruto (a ++ '\n' :: t) = (a ++ '\n' :: (bruto t).1, (bruto t).2)

/-- The text of a line closes the string or does not, whatever comes behind it. -/
theorem abierta_or (a : List Char) :
    Abierta a ∨ ∀ t, (bruto (a ++ '\n' :: t)).1.length ≤ a.length := by
  fun_induction bruto a with
  | case1 s => exact .inr fun t => Nat.zero_le _
  | case2 c s ih =>
    obtain h | h := ih
    · refine .inl fun t => ?_
      rw [List.cons_append, List.cons_append, bruto, h]
      rfl
    · refine .inr fun t => ?_
      rw [List.cons_append, List.cons_append, bruto]
      exact Nat.succ_le_succ (Nat.succ_le_succ (h t))
  | case3 c s hq hb ih =>
    by_cases hbar : c = '\\' ∧ s = []
    · obtain ⟨rfl, rfl⟩ := hbar
      exact .inl fun t => rfl
    · have hcons (t : List Char) : bruto (c :: s ++ '\n' :: t) =
          (c :: (bruto (s ++ '\n' :: t)).1, (bruto (s ++ '\n' :: t)).2) := by
        rw [List.cons_append, bruto]
        · rintro s' rfl heq
          match s with
          | [] => cases heq
          | ['"'] => cases heq
          | _ :: _ :: s =>
            cases heq
            exact hq s rfl rfl
        · rintro c' s' rfl heq
          match s with
          | [] => exact hbar ⟨rfl, rfl⟩
          | c'' :: s => exact hb c'' s rfl rfl
      obtain h | h := ih
      · refine .inl fun t => ?_
        rw [hcons, h]
        rfl
      · refine .inr fun t => ?_
        rw [hcons]
        exact Nat.succ_le_succ (h t)
  | case4 => exact .inl fun t => rfl

theorem cerrado_append : Cerrado (a ++ '\n' :: b) ↔ Abierta a ∧ Cerrado b := by
  constructor
  · intro h
    have ha : Abierta a := by
      refine (abierta_or a).resolve_right fun hlen => ?_
      have hs := h []
      rw [List.append_assoc, List.cons_append] at hs
      have hle := hlen (b ++ (comillas ++ []))
      rw [hs] at hle
      simp only [List.length_append, List.length_cons] at hle
      omega
    refine ⟨ha, fun s => ?_⟩
    have hs := h s
    rw [List.append_assoc, List.cons_append, ha, Prod.mk.injEq, List.append_cancel_left_eq,
      List.cons.injEq] at hs
    exact Prod.ext hs.1.2 hs.2
  · rintro ⟨ha, hb⟩ s
    rw [List.append_assoc, List.cons_append, ha, hb]

theorem bruto_replicate (k : ℕ) (s : List Char) : bruto (List.replicate k ' ' ++ s) =
    (List.replicate k ' ' ++ (bruto s).1, (bruto s).2) := by
  induction k with
  | zero => rfl
  | succ k ih =>
    rw [List.replicate_succ, List.cons_append, bruto, ih]
    · rfl
    · rintro s' ⟨⟩
    · rintro c s' ⟨⟩

theorem Abierta.replicate (h : Abierta a) (k : ℕ) : Abierta (List.replicate k ' ' ++ a) := by
  intro t
  rw [List.append_assoc, bruto_replicate, h, List.append_assoc]

theorem Abierta.sangra (h : Abierta (a ++ b)) (k : ℕ) : Abierta (sangra k a ++ b) := by
  rw [Syntax.sangra]
  split
  · exact h
  · rw [List.append_assoc]
    exact h.replicate k

theorem Cerrado.replicate (h : Cerrado raw) (k : ℕ) : Cerrado (List.replicate k ' ' ++ raw) := by
  intro s
  rw [List.append_assoc, bruto_replicate, h]

end Raw

/-! ## Moving a string -/

section Moving

variable {salto : Salto} {lineas : List (List Char)} {ultima l : List Char}

theorem crudo_eq (salto : Salto) (lineas : List (List Char)) (ultima : List Char) :
    crudo salto lineas ultima =
      salto.retorno ++ '\n' :: (lineas.flatMap (· ++ salto.texto) ++ ultima) := by
  rw [crudo, Salto.texto, List.append_assoc, List.singleton_append]

theorem cerrado_lineas (salto : Salto) (lineas : List (List Char)) (ultima : List Char) :
    Cerrado (lineas.flatMap (· ++ salto.texto) ++ ultima) ↔
      (∀ l ∈ lineas, Abierta (l ++ salto.retorno)) ∧ Cerrado ultima := by
  induction lineas with
  | nil => simp
  | cons l lineas ih =>
    have hcons : (l :: lineas).flatMap (· ++ salto.texto) ++ ultima =
        l ++ salto.retorno ++ '\n' :: (lineas.flatMap (· ++ salto.texto) ++ ultima) := by
      simp [Salto.texto]
    rw [hcons, cerrado_append, ih, List.forall_mem_cons, and_assoc]

theorem cerrado_crudo (salto : Salto) (lineas : List (List Char)) (ultima : List Char) :
    Cerrado (crudo salto lineas ultima) ↔ Abierta salto.retorno ∧
      (∀ l ∈ lineas, Abierta (l ++ salto.retorno)) ∧ Cerrado ultima := by
  rw [crudo_eq, cerrado_append, cerrado_lineas]

theorem Linea.replicate (h : Linea l) (k : ℕ) : Linea (List.replicate k ' ' ++ l) := by
  constructor
  · simp [h.1]
  · simp [h.2]

theorem Linea.sangra (h : Linea l) (k : ℕ) : Linea (sangra k l) := by
  rw [Syntax.sangra]
  split
  · exact h
  · exact h.replicate k

/-- The string moved by `k` spaces: they stand in front of every line that is not blank, and the
    last quotes are on one. -/
def TresComillas.sangrada (k : ℕ) (t : TresComillas) : TresComillas where
  salto := t.salto
  lineas := t.lineas.map (sangra k)
  ultima := List.replicate k ' ' ++ t.ultima
  limpias l hl := by
    obtain ⟨l', hl', rfl⟩ := List.mem_map.1 hl
    exact (t.limpias l' hl').sangra k
  limpia := t.limpia.replicate k
  cerrado := by
    obtain ⟨hr, hl, hu⟩ := (cerrado_crudo _ _ _).1 t.cerrado
    refine (cerrado_crudo _ _ _).2 ⟨hr, fun l hmem => ?_, hu.replicate k⟩
    obtain ⟨l', hl', rfl⟩ := List.mem_map.1 hmem
    exact (hl l' hl').sangra k

end Moving

/-! ## Values -/

namespace TresComillas

variable (t : TresComillas)

/-- What the string stands for. -/
def valor : List Char := (resuelve (sinMargen (crudo t.salto t.lineas t.ultima))).1

/-- The last quotes stand alone on their line. -/
def sola : Bool := t.ultima.all fun c => c == ' ' || c == '\t'

/-- The lines of the text. -/
def textos : List (List Char) := if t.sola then t.lineas else t.lineas ++ [t.ultima]

/-- The least margin of the lines that are not blank. -/
def margen : Option ℕ := ((t.textos.filter fun l => !blanca l).map sangria).min?

/-- The value that keeps every line, its end, and its margin beyond the least one. -/
def esperado : List Char :=
  (resuelve (t.salto.texto.intercalate (t.textos.map (·.drop (t.margen.getD 0))))).1

/-- The string has the value it should have, and keeps it wherever it is moved. -/
def Conserva : Prop := (∀ k, (t.sangrada k).valor = t.valor) ∧ t.valor = t.esperado

/-- No line of spaces goes beyond the margin.  Where lines end in a carriage return, there is none
    at all, but for the last one if the quotes are alone on theirs; and then that one has to be
    there, with less than the margin.  Quotes that stand alone come behind some line. -/
def Regular : Prop :=
  match t.salto with
  | .lf => (t.sola = true → t.lineas ≠ []) ∧
    ∀ l ∈ t.lineas, blanca l = true → ∀ m ∈ t.margen, l.length ≤ m
  | .crlf =>
    if t.sola then ∃ antes final, t.lineas = antes ++ [final] ∧ (∀ l ∈ antes, blanca l = false) ∧
      blanca final = true ∧ ∃ m ∈ t.margen, final.length < m
    else ∀ l ∈ t.lineas, blanca l = false

end TresComillas

/-- The token of a string of three quotes. -/
theorem lexString_tresComillas (t : TresComillas) (l : Lexer) (s : List Char) :
    let l' := { l with rest := comillas ++ (crudo t.salto t.lineas t.ultima ++ (comillas ++ s)) }
    l'.lexString.rest = s ∧ l'.lexString.out = l.out ++ [⟨.string, String.ofList t.valor⟩] := by
  intro l'
  have hmulti : l'.lexString =
      l'.lexStringMulti (crudo t.salto t.lineas t.ultima ++ (comillas ++ s)) := rfl
  rw [hmulti, Lexer.lexStringMulti, t.cerrado s]
  exact ⟨rfl, rfl⟩

/-! ## The lines of a value -/

section Lines

variable {a b l l' : List Char} {ls ls' : List (List Char)}

/-- A line with its end, its escapes resolved. -/
def resuelta (l : List Char) : List Char := (resuelve (l ++ ['\n'])).1

theorem resuelve_append (a b : List Char) :
    (resuelve (a ++ '\n' :: b)).1 = resuelta a ++ (resuelve b).1 := by
  rw [resuelta]
  fun_induction resuelve a with
  | case1 e s d hd ih =>
    rw [List.cons_append, List.cons_append, List.cons_append, List.cons_append, resuelve, resuelve,
      hd]
    exact congrArg (d :: ·) ih
  | case2 e s hd ih =>
    rw [List.cons_append, List.cons_append, List.cons_append, List.cons_append, resuelve, resuelve,
      hd]
    exact congrArg (e :: ·) ih
  | case3 c s hbar ih =>
    by_cases hlast : c = '\\' ∧ s = []
    · obtain ⟨rfl, rfl⟩ := hlast
      rfl
    · have hcons (t : List Char) : (resuelve (c :: s ++ '\n' :: t)).1 =
          c :: (resuelve (s ++ '\n' :: t)).1 := by
        rw [List.cons_append, resuelve]
        rintro e s' rfl heq
        match s with
        | [] => exact hlast ⟨rfl, rfl⟩
        | c' :: s => exact hbar c' s rfl rfl
      rw [hcons, hcons, ih, List.cons_append]
  | case4 => rfl

/-- The value of some lines. -/
def valorDe (ls : List (List Char)) : List Char := (resuelve (['\n'].intercalate ls)).1

theorem valorDe_cons (h : ls ≠ []) : valorDe (l :: ls) = resuelta l ++ valorDe ls := by
  rw [valorDe, List.intercalate_cons_of_ne_nil h, List.append_assoc, List.singleton_append]
  exact resuelve_append l _

theorem valorDe_singleton (l : List Char) : valorDe [l] = (resuelve l).1 := by
  rw [valorDe, List.intercalate_singleton]

/-- A line that becomes shorter wherever it stands. -/
def Corta (l l' : List Char) : Prop :=
  (resuelta l').length < (resuelta l).length ∧ (resuelve l').1.length < (resuelve l).1.length

/-- If lines become shorter, so does the value. -/
theorem valorDe_corta (h : List.Forall₂ (fun l l' => l = l' ∨ Corta l l') ls ls') :
    (valorDe ls').length ≤ (valorDe ls).length ∧
      (ls ≠ ls' → (valorDe ls').length < (valorDe ls).length) := by
  induction h with
  | nil => exact ⟨Nat.le_refl _, fun h => absurd rfl h⟩
  | @cons l l' ls ls' hl hs ih =>
    by_cases hne : ls = []
    · subst hne
      cases hs
      rw [valorDe_singleton, valorDe_singleton]
      obtain rfl | hl := hl
      · exact ⟨Nat.le_refl _, fun h => absurd rfl h⟩
      · exact ⟨Nat.le_of_lt hl.2, fun _ => hl.2⟩
    · have hne' : ls' ≠ [] := by
        rintro rfl
        cases hs
        exact hne rfl
      rw [valorDe_cons hne, valorDe_cons hne', List.length_append, List.length_append]
      obtain rfl | hl := hl
      · refine ⟨by omega, fun h => ?_⟩
        have := ih.2 fun heq => h (congrArg (l :: ·) heq)
        omega
      · exact ⟨by have := hl.1; omega, fun _ => by have := hl.1; omega⟩

end Lines

/-! ## The lines that are read -/

section Reading

variable {a l r x x' : List Char} {ls ini : List (List Char)} {salto : Salto} {m k : ℕ}

theorem sangria_append (h : ∀ c ∈ r.head?, c ≠ ' ') : sangria (l ++ r) = sangria l := by
  induction l with
  | nil =>
    cases r with
    | nil => rfl
    | cons c r => simp [sangria, h c rfl]
  | cons c l ih =>
    rw [sangria, sangria] at ih
    rw [List.cons_append, sangria, sangria, List.takeWhile_cons, List.takeWhile_cons]
    split
    · rw [List.length_cons, List.length_cons, ih]
    · rfl

theorem drop_sangria (l : List Char) : l.drop (sangria l) = l.dropWhile (· == ' ') := by
  induction l with
  | nil => rfl
  | cons c l ih =>
    rw [sangria] at ih
    rw [sangria, List.takeWhile_cons, List.dropWhile_cons]
    split
    · rw [List.length_cons, List.drop_succ_cons, ih]
    · rfl

/-- Only a line of spaces is without content. -/
theorem conContenido_eq (h : Linea l) (salto : Salto) :
    conContenido (l ++ salto.retorno) = !blanca l ∧ conContenido l = !blanca l := by
  have hret : ∀ c ∈ salto.retorno.head?, c ≠ ' ' := by
    cases salto with
    | lf => rintro c ⟨⟩
    | crlf =>
      rintro c ⟨⟩
      decide
  by_cases hb : blanca l = true
  · have hdrop : l.dropWhile (· == ' ') = [] :=
      List.dropWhile_eq_nil_iff.2 (List.all_eq_true.1 hb)
    have hlen : sangria l = l.length := by
      rw [sangria, List.takeWhile_eq_self_iff.2 (List.all_eq_true.1 hb)]
    rw [hb, conContenido, sangria_append hret, conContenido, drop_sangria, hdrop, hlen,
      List.drop_left]
    cases salto <;> exact ⟨rfl, rfl⟩
  · have hne : l.dropWhile (· == ' ') ≠ [] := fun h => hb (List.all_eq_true.2
      (List.dropWhile_eq_nil_iff.1 h))
    obtain ⟨c, s, hs⟩ := List.exists_cons_of_ne_nil hne
    have hc : (c != '\r') = true := by
      rw [bne_iff_ne]
      rintro rfl
      exact h.2 (List.dropWhile_subset _ (hs ▸ List.mem_cons_self ..))
    have hle : sangria l ≤ l.length := (List.takeWhile_prefix _).length_le
    rw [Bool.not_eq_true] at hb
    rw [hb, conContenido, sangria_append hret, List.drop_append_of_le_length hle, conContenido,
      drop_sangria, hs]
    exact ⟨hc, hc⟩

theorem sangria_retorno (l : List Char) (salto : Salto) :
    sangria (l ++ salto.retorno) = sangria l := by
  refine sangria_append ?_
  cases salto with
  | lf => rintro c ⟨⟩
  | crlf =>
    rintro c ⟨⟩
    decide

/-- The margin of lines that are read is that of their texts. -/
theorem margenDe_retorno (h : ∀ l ∈ ls, Linea l) (salto : Salto) (fin : List (List Char))
    (hfin : ∀ l ∈ fin, Linea l) : margenDe (ls.map (· ++ salto.retorno) ++ fin) =
      (((ls ++ fin).filter fun l => !blanca l).map sangria).min? := by
  have hls : ((ls.map (· ++ salto.retorno)).filter conContenido).map sangria =
      (ls.filter fun l => !blanca l).map sangria := by
    induction ls with
    | nil => rfl
    | cons l ls ih =>
      rw [List.forall_mem_cons] at h
      rw [List.map_cons, List.filter_cons, List.filter_cons, (conContenido_eq h.1 salto).1]
      split
      · rw [List.map_cons, List.map_cons, ih h.2, sangria_retorno]
      · exact ih h.2
  have hf : fin.filter conContenido = fin.filter fun l => !blanca l :=
    List.filter_congr fun l hl => (conContenido_eq (hfin l hl) .lf).2
  rw [margenDe, List.filter_append, List.map_append, hls, hf, List.filter_append, List.map_append]

theorem intercalate_texto (salto : Salto) (ini : List (List Char)) (fin : List Char) :
    salto.texto.intercalate (ini ++ [fin]) =
      ['\n'].intercalate (ini.map (· ++ salto.retorno) ++ [fin]) := by
  induction ini with
  | nil => rw [List.nil_append, List.intercalate_singleton]; exact List.intercalate_singleton.symm
  | cons l ini ih =>
    rw [List.cons_append, List.intercalate_cons_of_ne_nil (by simp), ih, List.map_cons,
      List.cons_append, List.intercalate_cons_of_ne_nil (by simp), Salto.texto, List.append_assoc,
      List.append_assoc, List.append_assoc, List.append_assoc]

/-- The lines of the raw text. -/
theorem splitOn_crudo (t : TresComillas) :
    (sinApertura (crudo t.salto t.lineas t.ultima)).splitOn '\n' =
      t.lineas.map (· ++ t.salto.retorno) ++ [t.ultima] := by
  have hopen : sinApertura (crudo t.salto t.lineas t.ultima) =
      t.lineas.flatMap (· ++ t.salto.texto) ++ t.ultima := by
    rw [crudo]
    cases t.salto <;> rfl
  have hlines (ls : List (List Char)) : ls.flatMap (· ++ t.salto.texto) ++ t.ultima =
      ['\n'].intercalate (ls.map (· ++ t.salto.retorno) ++ [t.ultima]) := by
    rw [← intercalate_texto]
    induction ls with
    | nil => exact List.intercalate_singleton.symm
    | cons l ls ih =>
      rw [List.flatMap_cons, List.append_assoc, ih, List.cons_append,
        List.intercalate_cons_of_ne_nil (by simp)]
  rw [hopen, hlines]
  refine List.splitOn_intercalate _ (fun l hl => ?_) (by simp)
  obtain hl | hl := List.mem_append.1 hl
  · obtain ⟨l', hl', rfl⟩ := List.mem_map.1 hl
    have hno := (t.limpias l' hl').1
    cases t.salto <;> simp [Salto.retorno, hno]
  · rw [List.mem_singleton.1 hl]
    exact t.limpia.1

/-- The line of the last quotes does not count if they are alone on it and there is another. -/
theorem sinCierre_crudo (t : TresComillas) :
    sinCierre (t.lineas.map (· ++ t.salto.retorno) ++ [t.ultima]) =
      if t.sola = true ∧ t.lineas ≠ [] then t.lineas.map (· ++ t.salto.retorno)
      else t.lineas.map (· ++ t.salto.retorno) ++ [t.ultima] := by
  have hall : (t.ultima.all fun c => c == ' ' || c == '\t' || c == '\r') = t.sola := by
    rw [TresComillas.sola, Bool.eq_iff_iff, List.all_eq_true, List.all_eq_true]
    constructor
    · intro h c hc
      have := h c hc
      have hr : c ≠ '\r' := fun heq => t.limpia.2 (heq ▸ hc)
      simpa [hr] using this
    · intro h c hc
      rw [h c hc]
      rfl
  have hlen : 1 < (t.lineas.map (· ++ t.salto.retorno) ++ [t.ultima]).length ↔ t.lineas ≠ [] := by
    rw [List.length_append, List.length_map, List.length_singleton, ← List.length_pos_iff]
    omega
  rw [sinCierre, List.getLastD_concat, hall, List.dropLast_concat]
  by_cases h : t.sola = true ∧ t.lineas ≠ []
  · rw [if_pos h, if_pos ⟨hlen.2 h.2, h.1⟩]
  · rw [if_neg h, if_neg fun h' => h ⟨h'.2, hlen.1 h'.1⟩]

end Reading

/-! ## The pieces of a string -/

section Pieces

variable {l r x y : List Char} {ls : List (List Char)} {m k : ℕ} {t : TresComillas}

/-- The text of each line that counts, with what stands between it and its line feed. -/
def TresComillas.piezas (t : TresComillas) : List (List Char × List Char) :=
  t.lineas.map (·, t.salto.retorno) ++ if t.sola then [] else [(t.ultima, [])]

theorem TresComillas.textos_eq (t : TresComillas) : t.textos = t.piezas.map Prod.fst := by
  rw [textos, piezas]
  split <;> simp [Function.comp_def]

theorem TresComillas.mem_textos (h : l ∈ t.textos) : Linea l := by
  rw [textos] at h
  split at h
  · exact t.limpias l h
  · obtain h | h := List.mem_append.1 h
    · exact t.limpias l h
    · exact List.mem_singleton.1 h ▸ t.limpia

/-- The value is that of the pieces without the margin. -/
theorem TresComillas.valor_eq (ht : t.sola = true → t.lineas ≠ []) :
    t.valor = valorDe (t.piezas.map fun p => (p.1 ++ p.2).drop (t.margen.getD 0)) := by
  have hpieces : t.piezas.map (fun p => p.1 ++ p.2) =
      sinCierre (t.lineas.map (· ++ t.salto.retorno) ++ [t.ultima]) := by
    rw [sinCierre_crudo, piezas]
    by_cases hs : t.sola = true
    · rw [if_pos hs, if_pos ⟨hs, ht hs⟩]
      simp [Function.comp_def]
    · rw [if_neg hs, if_neg fun h => hs h.1]
      simp [Function.comp_def]
  have hmargen : margenDe (t.piezas.map fun p => p.1 ++ p.2) = t.margen := by
    have hfin : t.piezas.map (fun p => p.1 ++ p.2) = t.lineas.map (· ++ t.salto.retorno) ++
        if t.sola then [] else [t.ultima] := by
      rw [piezas]
      split <;> simp [Function.comp_def]
    rw [hfin, margenDe_retorno t.limpias, margen, textos]
    · split <;> simp
    · intro l hl
      split at hl
      · cases hl
      · exact List.mem_singleton.1 hl ▸ t.limpia
  rw [valor, sinMargen, splitOn_crudo, ← hpieces, hmargen]
  cases t.margen <;> simp [valorDe, Function.comp_def]

theorem blanca_sangra (k : ℕ) (l : List Char) : blanca (sangra k l) = blanca l := by
  rw [sangra]
  split
  · rfl
  · simp [blanca, List.all_append]

/-- A line that is not blank goes to the right together with its margin. -/
theorem drop_sangra (k m : ℕ) (l r : List Char) : (sangra k l ++ r).drop (k + m) =
    if blanca l then (l ++ r).drop (k + m) else (l ++ r).drop m := by
  rw [sangra]
  split
  · rfl
  · rw [List.append_assoc, List.drop_append, List.drop_eq_nil_of_le (by simp), List.nil_append,
      List.length_replicate, Nat.add_sub_cancel_left]

theorem sangria_replicate (k : ℕ) (l : List Char) :
    sangria (List.replicate k ' ' ++ l) = k + sangria l := by
  rw [sangria, List.takeWhile_append_of_pos (by simp), List.length_append, List.length_replicate,
    sangria]

theorem margen_sangra (k : ℕ) (ls : List (List Char)) :
    (((ls.map (sangra k)).filter fun l => !blanca l).map sangria).min? =
      ((ls.filter fun l => !blanca l).map sangria).min?.map (k + ·) := by
  have hmap : ((ls.map (sangra k)).filter fun l => !blanca l).map sangria =
      ((ls.filter fun l => !blanca l).map sangria).map (k + ·) := by
    induction ls with
    | nil => rfl
    | cons l ls ih =>
      rw [List.map_cons, List.filter_cons, List.filter_cons, blanca_sangra]
      split
      · next hb =>
        have hb : ¬blanca l = true := by simpa using hb
        rw [List.map_cons, List.map_cons, List.map_cons, ih, sangra, if_neg hb, sangria_replicate]
      · exact ih
  rw [hmap]
  generalize (ls.filter fun l => !blanca l).map sangria = ns
  cases hmin : ns.min? with
  | none =>
    rw [List.min?_eq_none_iff.1 hmin]
    rfl
  | some n =>
    rw [List.min?_eq_some_iff] at hmin
    rw [Option.map_some, List.min?_eq_some_iff]
    refine ⟨List.mem_map_of_mem hmin.1, fun b hb => ?_⟩
    obtain ⟨b', hb', rfl⟩ := List.mem_map.1 hb
    exact Nat.add_le_add_left (hmin.2 b' hb') k

theorem TresComillas.sola_sangrada (k : ℕ) (t : TresComillas) : (t.sangrada k).sola = t.sola := by
  rw [sola, sangrada, List.all_append, sola]
  simp

/-- What stands in front of the last quotes is not blank if they are not alone. -/
theorem TresComillas.ultima_not_blanca (h : ¬t.sola = true) : blanca t.ultima = false := by
  rw [Bool.eq_false_iff]
  intro hb
  refine h (List.all_eq_true.2 fun c hc => ?_)
  rw [List.all_eq_true.1 hb c hc, Bool.true_or]

theorem TresComillas.piezas_sangrada (k : ℕ) (t : TresComillas) :
    (t.sangrada k).piezas = t.piezas.map fun p => (sangra k p.1, p.2) := by
  rw [piezas, sola_sangrada, piezas, List.map_append, List.map_map]
  congr 1
  · rw [sangrada, List.map_map]
    rfl
  · by_cases hs : t.sola = true
    · rw [if_pos hs, if_pos hs]
      rfl
    · rw [if_neg hs, if_neg hs, List.map_singleton, sangra, if_neg (by simp [ultima_not_blanca hs]),
        sangrada]

theorem TresComillas.margen_sangrada (k : ℕ) (t : TresComillas) :
    (t.sangrada k).margen = t.margen.map (k + ·) := by
  rw [margen, textos_eq, piezas_sangrada, List.map_map, margen, textos_eq, ← margen_sangra,
    List.map_map]
  rfl

/-- Moved by `k`, the string loses `k` more characters of its blank lines. -/
theorem TresComillas.valor_sangrada (ht : t.sola = true → t.lineas ≠ []) (hm : t.margen = some m)
    (k : ℕ) : (t.sangrada k).valor = valorDe (t.piezas.map fun p =>
      (p.1 ++ p.2).drop (if blanca p.1 then k + m else m)) := by
  have ht' : (t.sangrada k).sola = true → (t.sangrada k).lineas ≠ [] := by
    rw [sola_sangrada]
    intro hs
    simpa [sangrada] using ht hs
  rw [valor_eq ht', margen_sangrada, hm, piezas_sangrada, List.map_map]
  congr 1
  refine List.map_congr_left fun p _ => ?_
  rw [Function.comp_apply, Option.map_some, Option.getD_some, drop_sangra]
  split <;> rfl

end Pieces

/-! ## Lines without escapes -/

section Plain

variable {l r x y : List Char} {xs ys : List (List Char)} {m : ℕ}

theorem resuelve_plain (h : '\\' ∉ x) : (resuelve x).1 = x := by
  induction x with
  | nil => rfl
  | cons c x ih =>
    rw [List.mem_cons, not_or] at h
    rw [resuelve]
    · exact congrArg (c :: ·) (ih h.2)
    · rintro e s rfl
      exact absurd rfl h.1

theorem resuelta_plain (h : '\\' ∉ x) : resuelta x = x ++ ['\n'] :=
  resuelve_plain (by simp [h])

theorem corta_plain (hx : '\\' ∉ x) (hy : '\\' ∉ y) (h : y.length < x.length) : Corta x y := by
  rw [Corta, resuelta_plain hx, resuelta_plain hy, resuelve_plain hx, resuelve_plain hy,
    List.length_append, List.length_append]
  exact ⟨Nat.add_lt_add_right h _, h⟩

/-- The end of a blank line is plain. -/
theorem blanca_plain (hb : blanca l = true) (salto : Salto) (hr : r = salto.retorno ∨ r = [])
    (n : ℕ) : '\\' ∉ (l ++ r).drop n := by
  intro hmem
  obtain h | h := List.mem_append.1 (List.drop_subset _ _ hmem)
  · exact absurd (List.all_eq_true.1 hb _ h) (by decide)
  · obtain rfl | rfl := hr
    · cases salto with
      | lf => cases h
      | crlf => exact absurd (List.mem_singleton.1 h) (by decide)
    · cases h

/-- A carriage return at the end is not lost. -/
theorem resuelve_retorno (x : List Char) : (resuelve (x ++ ['\r'])).1 ≠ (resuelve x).1 := by
  fun_induction resuelve x with
  | case1 e s d hd ih =>
    rw [List.cons_append, List.cons_append, resuelve, hd]
    exact fun h => ih (List.cons.inj h).2
  | case2 e s hd ih =>
    rw [List.cons_append, List.cons_append, resuelve, hd]
    exact fun h => ih (List.cons.inj h).2
  | case3 c s hbar ih =>
    by_cases hlast : c = '\\' ∧ s = []
    · obtain ⟨rfl, rfl⟩ := hlast
      decide
    · rw [List.cons_append, resuelve]
      · exact fun h => ih (List.cons.inj h).2
      · rintro e s' rfl heq
        match s with
        | [] => exact hlast ⟨rfl, rfl⟩
        | c' :: s => exact hbar c' s rfl rfl
  | case4 => decide

/-- Where lines are the same but for some that have lost a carriage return, the values are the
    same only if the lines are, up to the last one. -/
theorem valorDe_inj (h : List.Forall₂ (fun x y => x = y ∨ x = [] ∧ y = ['\r']) xs ys)
    (heq : valorDe (xs ++ [x]) = valorDe (ys ++ [y])) :
    xs = ys ∧ (resuelve x).1 = (resuelve y).1 := by
  induction h with
  | nil =>
    rw [List.nil_append, List.nil_append, valorDe_singleton, valorDe_singleton] at heq
    exact ⟨rfl, heq⟩
  | cons hl _ ih =>
    rw [List.cons_append, List.cons_append, valorDe_cons (by simp), valorDe_cons (by simp)] at heq
    obtain rfl | ⟨rfl, rfl⟩ := hl
    · obtain ⟨rfl, hx⟩ := ih (List.append_cancel_left heq)
      exact ⟨rfl, hx⟩
    · -- a line feed on one side, a carriage return on the other
      rw [resuelta_plain (by decide), resuelta_plain (by decide)] at heq
      exact absurd (List.cons.inj heq).1 (by decide)

end Plain

/-! ## When the value is kept -/

section Kept

variable {l r : List Char} {m : ℕ} {t : TresComillas} {p : List Char × List Char}

theorem TresComillas.mem_piezas (hp : p ∈ t.piezas) : p.2 = t.salto.retorno ∨ p.2 = [] := by
  rw [piezas] at hp
  obtain hp | hp := List.mem_append.1 hp
  · obtain ⟨l, -, rfl⟩ := List.mem_map.1 hp
    exact .inl rfl
  · split at hp
    · cases hp
    · rw [List.mem_singleton.1 hp]
      exact .inr rfl

/-- Without a margin, every line is blank. -/
theorem TresComillas.blanca_of_none (hm : t.margen = none) (hl : l ∈ t.textos) :
    blanca l = true := by
  rw [margen, List.min?_eq_none_iff, List.map_eq_nil_iff, List.filter_eq_nil_iff] at hm
  simpa using hm l hl

/-- The margin is that of a line at most. -/
theorem TresComillas.margen_le (hm : t.margen = some m) (hl : l ∈ t.textos)
    (hb : blanca l = false) : m ≤ l.length := by
  rw [margen, List.min?_eq_some_iff] at hm
  have hle : m ≤ sangria l := hm.2 _ (List.mem_map_of_mem (List.mem_filter.2 ⟨hl, by rw [hb]; rfl⟩))
  exact hle.trans (List.takeWhile_prefix _).length_le

/-- The value does not change when the string is moved exactly if nothing is left of the lines
    that are blank. -/
theorem TresComillas.valor_sangrada_iff (ht : t.sola = true → t.lineas ≠ []) :
    (∀ k, (t.sangrada k).valor = t.valor) ↔ ∀ m ∈ t.margen, ∀ p ∈ t.piezas,
      blanca p.1 = true → (p.1 ++ p.2).length ≤ m := by
  cases hm : t.margen with
  | none =>
    refine iff_of_true (fun k => ?_) (by rintro m ⟨⟩)
    have hpiezas : (t.sangrada k).piezas = t.piezas := by
      rw [piezas_sangrada]
      conv_rhs => rw [← List.map_id t.piezas]
      refine List.map_congr_left fun p hp => ?_
      have hb := blanca_of_none hm (t.textos_eq ▸ List.mem_map_of_mem hp)
      rw [sangra, if_pos hb]
      rfl
    have ht' : (t.sangrada k).sola = true → (t.sangrada k).lineas ≠ [] := by
      rw [sola_sangrada]
      intro hs
      simpa [sangrada] using ht hs
    rw [valor_eq ht', valor_eq ht, hpiezas, margen_sangrada, hm]
    rfl
  | some m =>
    have hvalor := valor_eq ht
    rw [hm, Option.getD_some] at hvalor
    constructor
    · rintro h m' ⟨⟩ p hp hb
      by_contra hlen
      have hk := h (p.1 ++ p.2).length
      rw [valor_sangrada ht hm, hvalor] at hk
      have hrel : List.Forall₂ (fun l l' => l = l' ∨ Corta l l')
          (t.piezas.map fun q => (q.1 ++ q.2).drop m)
          (t.piezas.map fun q => (q.1 ++ q.2).drop
            (if blanca q.1 then (p.1 ++ p.2).length + m else m)) := by
        rw [List.forall₂_map_left_iff, List.forall₂_map_right_iff, List.forall₂_same]
        intro q hq
        by_cases hbq : blanca q.1 = true
        · rw [if_pos hbq]
          by_cases hle : (q.1 ++ q.2).length ≤ m
          · left
            rw [List.drop_eq_nil_of_le hle, List.drop_eq_nil_of_le (Nat.le_add_left_of_le hle)]
          · right
            refine corta_plain (blanca_plain hbq t.salto (mem_piezas hq) _)
              (blanca_plain hbq t.salto (mem_piezas hq) _) ?_
            rw [List.length_drop, List.length_drop]
            omega
        · rw [if_neg hbq]
          exact .inl rfl
      have hne := (valorDe_corta hrel).2 fun heq => by
        have hp := List.map_inj_left.1 heq p hp
        rw [if_pos hb, List.drop_eq_nil_of_le (Nat.le_add_right ..), List.drop_eq_nil_iff] at hp
        exact hlen hp
      rw [hk] at hne
      exact Nat.lt_irrefl _ hne
    · intro h k
      rw [valor_sangrada ht hm, hvalor]
      congr 1
      refine List.map_congr_left fun p hp => ?_
      by_cases hb : blanca p.1 = true
      · have hle := h m rfl p hp hb
        rw [if_pos hb, List.drop_eq_nil_of_le hle,
          List.drop_eq_nil_of_le (Nat.le_add_left_of_le hle)]
      · rw [if_neg hb]

theorem TresComillas.esperado_eq {ini : List (List Char)} {fin : List Char}
    (h : t.textos = ini ++ [fin]) : t.esperado = valorDe
      (ini.map (fun l => l.drop (t.margen.getD 0) ++ t.salto.retorno) ++
        [fin.drop (t.margen.getD 0)]) := by
  rw [esperado, h, List.map_append, List.map_singleton, intercalate_texto, List.map_map]
  rfl

/-- With line feeds alone, the lines are those that are expected. -/
theorem TresComillas.valor_lf (hs : t.salto = .lf) (ht : t.sola = true → t.lineas ≠ []) :
    t.valor = t.esperado := by
  have hpiezas : t.piezas.map (fun p => (p.1 ++ p.2).drop (t.margen.getD 0)) =
      t.textos.map (·.drop (t.margen.getD 0)) := by
    rw [textos_eq, List.map_map]
    refine List.map_congr_left fun p hp => ?_
    have hr : p.2 = [] := (mem_piezas hp).elim (fun h => h.trans (by rw [hs]; rfl)) id
    rw [hr, List.append_nil]
    rfl
  rw [valor_eq ht, hpiezas, esperado, hs]
  rfl

/-- A line keeps its carriage return exactly if it is not blank or fills the margin. -/
theorem drop_retorno (l : List Char) (n : ℕ) :
    (l ++ ['\r']).drop n = l.drop n ++ ['\r'] ∧ n ≤ l.length ∨
      (l ++ ['\r']).drop n = [] ∧ l.drop n ++ ['\r'] = ['\r'] ∧ l.length < n := by
  by_cases h : n ≤ l.length
  · exact .inl ⟨List.drop_append_of_le_length h, h⟩
  · refine .inr ⟨List.drop_eq_nil_of_le ?_, ?_, by omega⟩
    · rw [List.length_append, List.length_singleton]
      omega
    · rw [List.drop_eq_nil_of_le (by omega)]
      rfl

theorem TresComillas.conserva_crlf_seguida (hs : t.salto = .crlf) (hsola : ¬t.sola = true) :
    t.Conserva ↔ ∀ l ∈ t.lineas, blanca l = false := by
  have ht : t.sola = true → t.lineas ≠ [] := fun h => absurd h hsola
  have htextos : t.textos = t.lineas ++ [t.ultima] := by rw [textos, if_neg hsola]
  have hpiezas : t.piezas = t.lineas.map (·, ['\r']) ++ [(t.ultima, [])] := by
    rw [piezas, if_neg hsola, hs]
    rfl
  have hultima := ultima_not_blanca hsola
  obtain ⟨m, hm⟩ : ∃ m, t.margen = some m := by
    rw [← Option.ne_none_iff_exists']
    intro hnone
    have hb := blanca_of_none hnone (l := t.ultima) (by rw [htextos]; simp)
    rw [hultima] at hb
    cases hb
  have hvalor : t.valor = valorDe (t.lineas.map (fun l => (l ++ ['\r']).drop m) ++
      [t.ultima.drop m]) := by
    rw [valor_eq ht, hm, hpiezas, List.map_append, List.map_map, List.map_singleton,
      List.append_nil]
    rfl
  have hesperado : t.esperado = valorDe (t.lineas.map (fun l => l.drop m ++ ['\r']) ++
      [t.ultima.drop m]) := by
    rw [esperado_eq htextos, hm, hs]
    rfl
  constructor
  · rintro ⟨hmoved, hkept⟩ l hl
    rw [Bool.eq_false_iff]
    intro hb
    have hle := (valor_sangrada_iff ht).1 hmoved m hm (l, ['\r'])
      (by rw [hpiezas]; exact List.mem_append_left _ (List.mem_map_of_mem hl)) hb
    rw [hvalor, hesperado] at hkept
    have hpares : List.Forall₂ (fun x y => x = y ∨ x = [] ∧ y = ['\r'])
        (t.lineas.map fun l => (l ++ ['\r']).drop m) (t.lineas.map fun l => l.drop m ++ ['\r']) := by
      rw [List.forall₂_map_left_iff, List.forall₂_map_right_iff, List.forall₂_same]
      intro l _
      obtain h | h := drop_retorno l m
      · exact .inl h.1
      · exact .inr ⟨h.1, h.2.1⟩
    have hsame := (valorDe_inj hpares hkept).1
    have hline := List.map_inj_left.1 hsame l hl
    rw [List.drop_eq_nil_of_le hle] at hline
    exact absurd hline.symm (by simp)
  · intro h
    constructor
    · refine (valor_sangrada_iff ht).2 fun m' _ p hp hb => ?_
      rw [hpiezas] at hp
      obtain hp | hp := List.mem_append.1 hp
      · obtain ⟨l, hl, rfl⟩ := List.mem_map.1 hp
        rw [h l hl] at hb
        cases hb
      · rw [List.mem_singleton.1 hp, hultima] at hb
        cases hb
    · rw [hvalor, hesperado]
      congr 2
      refine List.map_congr_left fun l hl => ?_
      have hle := margen_le hm (l := l) (by rw [htextos]; exact List.mem_append_left _ hl) (h l hl)
      exact List.drop_append_of_le_length hle

theorem TresComillas.conserva_crlf_sola (hs : t.salto = .crlf) (hsola : t.sola = true)
    (hne : t.lineas ≠ []) : t.Conserva ↔ ∃ antes final, t.lineas = antes ++ [final] ∧
      (∀ l ∈ antes, blanca l = false) ∧ blanca final = true ∧ ∃ m ∈ t.margen, final.length < m := by
  have ht : t.sola = true → t.lineas ≠ [] := fun _ => hne
  have htextos : t.textos = t.lineas := by rw [textos, if_pos hsola]
  have hpiezas : t.piezas = t.lineas.map (·, ['\r']) := by
    rw [piezas, if_pos hsola, hs, List.append_nil]
    rfl
  obtain ⟨antes, final, hlineas⟩ : ∃ antes final, t.lineas = antes ++ [final] :=
    ⟨_, _, (List.dropLast_append_getLast hne).symm⟩
  have hvalor : t.valor = valorDe (antes.map (fun l => (l ++ ['\r']).drop (t.margen.getD 0)) ++
      [(final ++ ['\r']).drop (t.margen.getD 0)]) := by
    rw [valor_eq ht, hpiezas, List.map_map, hlineas, List.map_append, List.map_singleton]
    rfl
  have hesperado : t.esperado = valorDe (antes.map (fun l => l.drop (t.margen.getD 0) ++ ['\r']) ++
      [final.drop (t.margen.getD 0)]) := by
    rw [esperado_eq (htextos.trans hlineas), hs]
    rfl
  have hmem {l : List Char} (hl : l ∈ antes) : l ∈ t.textos := by
    rw [htextos, hlineas]
    exact List.mem_append_left _ hl
  constructor
  · rintro ⟨hmoved, hkept⟩
    rw [hvalor, hesperado] at hkept
    obtain ⟨hsame, hfinal⟩ := valorDe_inj (by
      rw [List.forall₂_map_left_iff, List.forall₂_map_right_iff, List.forall₂_same]
      intro l _
      obtain h | h := drop_retorno l (t.margen.getD 0)
      · exact .inl h.1
      · exact .inr ⟨h.1, h.2.1⟩) hkept
    -- the carriage return of the last line has to be lost
    have hlost : final.length < t.margen.getD 0 := by
      obtain ⟨h, -⟩ | ⟨-, -, h⟩ := drop_retorno final (t.margen.getD 0)
      · rw [h] at hfinal
        exact absurd hfinal (resuelve_retorno _)
      · exact h
    cases hm : t.margen with
    | none =>
      rw [hm] at hlost
      cases hlost
    | some m =>
      rw [hm, Option.getD_some] at hsame hlost
      refine ⟨antes, final, hlineas, fun l hl => ?_, ?_, m, rfl, hlost⟩
      · rw [Bool.eq_false_iff]
        intro hb
        have hle := (valor_sangrada_iff ht).1 hmoved m hm (l, ['\r'])
          (by rw [hpiezas, hlineas]; exact List.mem_map_of_mem (List.mem_append_left _ hl)) hb
        have hline := List.map_inj_left.1 hsame l hl
        rw [List.drop_eq_nil_of_le hle] at hline
        exact absurd hline.symm (by simp)
      · by_contra hb
        have hle := margen_le hm (l := final) (by rw [htextos, hlineas]; simp)
          (Bool.eq_false_iff.2 hb)
        omega
  · rintro ⟨antes', final', heq, hantes, hb, m, hm, hlt⟩
    have hinj := List.append_inj' (hlineas.symm.trans heq) rfl
    obtain ⟨rfl, hfin⟩ := hinj
    obtain rfl := List.singleton_inj.1 hfin
    constructor
    · refine (valor_sangrada_iff ht).2 fun m' hm' p hp hbp => ?_
      cases hm.symm.trans hm'
      rw [hpiezas, hlineas] at hp
      obtain ⟨l, hl, rfl⟩ := List.mem_map.1 hp
      obtain hl | hl := List.mem_append.1 hl
      · rw [hantes l hl] at hbp
        cases hbp
      · rw [List.mem_singleton.1 hl, List.length_append, List.length_singleton]
        exact hlt
    · rw [hvalor, hesperado, hm, Option.getD_some, List.drop_eq_nil_of_le (by simp; omega),
        List.drop_eq_nil_of_le (Nat.le_of_lt hlt)]
      congr 2
      refine List.map_congr_left fun l hl => ?_
      exact List.drop_append_of_le_length (margen_le hm (hmem hl) (hantes l hl))

/-- Quotes that stand alone below the first ones: what is in front of them is the value. -/
theorem TresComillas.not_conserva_vacia (hsola : t.sola = true) (hl : t.lineas = []) :
    ¬t.Conserva := by
  rintro ⟨hmoved, hkept⟩
  have hread (t : TresComillas) (hl : t.lineas = []) : t.valor = (resuelve
      (['\n'].intercalate ((margenDe [t.ultima]).elim [t.ultima] fun m =>
        [t.ultima.drop m]))).1 := by
    rw [valor, sinMargen, splitOn_crudo, sinCierre_crudo, if_neg fun h => h.2 hl, hl]
    rw [List.map_nil, List.nil_append]
    cases margenDe [t.ultima] <;> rfl
  have hempty : t.esperado = [] := by
    rw [esperado, textos, if_pos hsola, hl]
    rfl
  have hplain : '\\' ∉ t.ultima := fun hmem => absurd (List.all_eq_true.1 hsola _ hmem) (by decide)
  have hmargen (u : List Char) (hu : Linea u) :
      margenDe [u] = if blanca u then none else some (sangria u) := by
    rw [margenDe, List.filter_singleton, (conContenido_eq hu .lf).2]
    cases blanca u <;> rfl
  by_cases hb : blanca t.ultima = true
  · -- the spaces of the last line are the value
    have hvalor : t.valor = t.ultima := by
      rw [hread t hl, hmargen _ t.limpia, if_pos hb]
      exact (congrArg (fun s => (resuelve s).1) List.intercalate_singleton).trans
        (resuelve_plain hplain)
    have hvalor' : (t.sangrada 1).valor = ' ' :: t.ultima := by
      have hb' : blanca (t.sangrada 1).ultima = true := by
        rw [sangrada, blanca, List.all_append]
        simpa [blanca] using hb
      rw [hread _ (by simp [sangrada, hl]), hmargen _ (t.sangrada 1).limpia, if_pos hb']
      exact (congrArg (fun s => (resuelve s).1) List.intercalate_singleton).trans
        (resuelve_plain (x := ' ' :: t.ultima) (by simp [hplain]))
    have hlen := congrArg List.length (hmoved 1)
    rw [hvalor, hvalor', List.length_cons] at hlen
    omega
  · have hvalor : t.valor = t.ultima.drop (sangria t.ultima) := by
      rw [hread t hl, hmargen _ t.limpia, if_neg hb]
      exact (congrArg (fun s => (resuelve s).1) List.intercalate_singleton).trans
        (resuelve_plain fun h => hplain (List.drop_subset _ _ h))
    rw [hkept, hempty, drop_sangria] at hvalor
    exact hb (List.all_eq_true.2 (List.dropWhile_eq_nil_iff.1 hvalor.symm))

theorem TresComillas.conserva_iff_regular (t : TresComillas) : t.Conserva ↔ t.Regular := by
  by_cases ht : t.sola = true → t.lineas ≠ []
  · cases hs : t.salto with
    | lf =>
      rw [TresComillas.Regular, hs]
      dsimp only
      rw [TresComillas.Conserva, TresComillas.valor_sangrada_iff ht]
      rw [and_iff_left (TresComillas.valor_lf hs ht), and_iff_right ht]
      have hpiezas : t.piezas =
          t.lineas.map (·, []) ++ if t.sola then [] else [(t.ultima, [])] := by
        rw [TresComillas.piezas, hs]
        rfl
      constructor
      · intro h l hl hb m hm
        have hp := h m hm (l, [])
          (hpiezas ▸ List.mem_append_left _ (List.mem_map_of_mem hl)) hb
        rwa [List.append_nil] at hp
      · intro h m hm p hp hb
        rw [hpiezas] at hp
        obtain hp | hp := List.mem_append.1 hp
        · obtain ⟨l, hl, rfl⟩ := List.mem_map.1 hp
          rw [List.append_nil]
          exact h l hl hb m hm
        · split at hp
          · cases hp
          · next hsola =>
            rw [List.mem_singleton.1 hp, TresComillas.ultima_not_blanca hsola] at hb
            cases hb
    | crlf =>
      rw [TresComillas.Regular, hs]
      dsimp only
      by_cases hsola : t.sola = true
      · rw [if_pos hsola]
        exact TresComillas.conserva_crlf_sola hs hsola (ht hsola)
      · rw [if_neg hsola]
        exact TresComillas.conserva_crlf_seguida hs hsola
  · push Not at ht
    refine iff_of_false (TresComillas.not_conserva_vacia ht.1 ht.2) fun h => ?_
    rw [TresComillas.Regular] at h
    cases hs : t.salto with
    | lf =>
      rw [hs] at h
      exact h.1 ht.1 ht.2
    | crlf =>
      rw [hs] at h
      dsimp only at h
      rw [if_pos ht.1] at h
      obtain ⟨antes, final, heq, -⟩ := h
      rw [ht.2] at heq
      simp at heq

/-- **A string keeps its lines wherever it is moved exactly if it is regular**; its value is the
    text of its token. -/
theorem margin_iff_regular (t : TresComillas) : (t.Conserva ↔ t.Regular) ∧
    ∀ (l : Lexer) (s : List Char),
      let l' := { l with rest := comillas ++ (crudo t.salto t.lineas t.ultima ++ (comillas ++ s)) }
      l'.lexString.rest = s ∧ l'.lexString.out = l.out ++ [⟨.string, String.ofList t.valor⟩] :=
  ⟨t.conserva_iff_regular, lexString_tresComillas t⟩

/-- Two lines with a blank one between them, in a file whose lines end in a carriage return. -/
def conRetornos : TresComillas where
  salto := .crlf
  lineas := [[' ', ' ', 'a'], [], [' ', ' ', 'b']]
  ultima := [' ', ' ']
  limpias := by simp [Linea]
  limpia := by simp [Linea]
  cerrado _ := rfl

/-- Nothing between the quotes but the line that the last ones are on. -/
def sinLineas : TresComillas where
  salto := .lf
  lineas := []
  ultima := [' ', ' ']
  limpias := by simp
  limpia := by simp [Linea]
  cerrado _ := rfl

/-- The blank line loses its end, and the last one keeps half of it; and where there is no line,
    the margin of the last quotes is the value. -/
theorem margin_not_kept :
    conRetornos.valor = "a\r\n\nb\r".toList ∧ conRetornos.esperado = "a\r\n\r\nb".toList ∧
      ¬conRetornos.Conserva ∧ sinLineas.valor = "  ".toList ∧ ¬sinLineas.Conserva := by
  have hvalor : conRetornos.valor = "a\r\n\nb\r".toList := by decide +kernel
  have hesperado : conRetornos.esperado = "a\r\n\r\nb".toList := by decide +kernel
  refine ⟨hvalor, hesperado, fun h => ?_, by decide +kernel, fun h => ?_⟩
  · exact absurd (hvalor.symm.trans (h.2.trans hesperado)) (by decide)
  · exact absurd h.2 (by decide +kernel)

end Kept

end Osodio.Syntax
