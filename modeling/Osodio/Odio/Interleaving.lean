import Osodio.Odio.WellStructured

/-!
# What a page is made of

A page is made of the texts of the template and of the texts of values, in the order of the
template.  Without `|safe` the texts of values are escaped, so that the characters that markup is
made of come from the template or belong to an entity.

## Main definitions

- `Trozo` — a part of a page
- `Arbol.Dibuja` — the parts that a tree can be drawn as
- `DeFuente` — a text stands in one of the sources

## Main results

- `Arbol.pintar_dibuja` — a tree is drawn as its parts, in order
- `piezasDe_textos` — the texts of a template stand in its sources
- `page_escaped` — every special character comes from the template or belongs to an entity
-/

namespace Osodio.Odio.Template

open Json (Bytes)

/-! ## Parts of a page -/

/-- A text of the template, or the text of a value: escaped, or raw. -/
inductive Trozo where
  | literal (t : String)
  | imagen (t : Bytes)
  | crudo (t : Bytes)
  deriving DecidableEq, Repr

def Trozo.bytes : Trozo → Bytes
  | .literal t => bytesOf t
  | .imagen t => escaparHtml t []
  | .crudo t => t

/-- A text of a value of an expression. -/
def Imagen (T : Taller) (V : Evaluador) (expr : String) (t : Bytes) : Prop :=
  ∃ chunk w valores v w', Expresa T expr chunk ∧
    V.evaluar w valores chunk = some (.ok v, w') ∧ V.texto w'.heap v = some t

section Parts

variable (T : Taller) (V : Evaluador)

mutual

/-- The parts that a tree can be drawn as: one of the branches of a condition or none, and the body
    of a loop any number of times. -/
def Arbol.Dibuja : Arbol → List Trozo → Prop
  | .nada, l => l = []
  | .luego a b, l => ∃ l₁ l₂, l = l₁ ++ l₂ ∧ a.Dibuja l₁ ∧ b.Dibuja l₂
  | .texto t, l => l = [.literal t]
  | .escribir crudo expr, l =>
    ∃ t, Imagen T V expr t ∧ l = [if crudo then .crudo t else .imagen t]
  | .si _ rama resto, l => rama.Dibuja l ∨ resto.Dibuja l
  | .bucle _ _ cuerpo, l => ∃ ls : List (List Trozo), l = ls.flatten ∧ ∀ x ∈ ls, cuerpo.Dibuja x

def Ramas.Dibuja : Ramas → List Trozo → Prop
  | .fin, l => l = []
  | .sino rama, l => rama.Dibuja l
  | .elif _ rama resto, l => rama.Dibuja l ∨ resto.Dibuja l

end

end Parts

/-- From one page to another one some parts are added. -/
def Anade (D : List Trozo → Prop) (s t : Lienzo) : Prop :=
  ∃ l, D l ∧ t.salida = s.salida ++ l.flatMap Trozo.bytes

/-! ## Trees are drawn as their parts -/

/-- The texts and expressions of a condition. -/
theorem tablas_si (cond : String) (rama : Arbol) (resto : Ramas) :
    (Arbol.si cond rama resto).piezas.flatMap Pieza.textos =
        rama.piezas.flatMap Pieza.textos ++ resto.piezas.flatMap Pieza.textos ∧
      (Arbol.si cond rama resto).piezas.flatMap Pieza.expresiones =
        cond :: (rama.piezas.flatMap Pieza.expresiones ++
          resto.piezas.flatMap Pieza.expresiones) := by
  simp [Arbol.piezas, Pieza.textos, Pieza.expresiones]

theorem tablas_elif (cond : String) (rama : Arbol) (resto : Ramas) :
    (Ramas.elif cond rama resto).piezas.flatMap Pieza.textos =
        rama.piezas.flatMap Pieza.textos ++ resto.piezas.flatMap Pieza.textos ∧
      (Ramas.elif cond rama resto).piezas.flatMap Pieza.expresiones =
        cond :: (rama.piezas.flatMap Pieza.expresiones ++
          resto.piezas.flatMap Pieza.expresiones) := by
  simp [Ramas.piezas, Pieza.textos, Pieza.expresiones]

/-- Those of a loop. -/
theorem tablas_bucle (var lista : String) (cuerpo : Arbol) :
    (Arbol.bucle var lista cuerpo).piezas.flatMap Pieza.textos =
        cuerpo.piezas.flatMap Pieza.textos ∧
      (Arbol.bucle var lista cuerpo).piezas.flatMap Pieza.expresiones =
        lista :: cuerpo.piezas.flatMap Pieza.expresiones := by
  simp [Arbol.piezas, Pieza.textos, Pieza.expresiones]

mutual

/-- A tree takes the places of its texts and expressions in the tables. -/
theorem Arbol.tras_tablas (a : Arbol) (o : Origen) :
    (a.tras o).textos = o.textos + (a.piezas.flatMap Pieza.textos).length ∧
      (a.tras o).exprs = o.exprs + (a.piezas.flatMap Pieza.expresiones).length := by
  cases a with
  | nada | texto | escribir => exact ⟨rfl, rfl⟩
  | luego a b =>
    have ha := a.tras_tablas o
    have hb := b.tras_tablas (a.tras o)
    simp only [Arbol.tras, Arbol.piezas, List.flatMap_append, List.length_append]
    omega
  | si cond rama resto =>
    have hr := rama.tras_tablas o.condicion
    have hrs := resto.tras_tablas (rama.tras o.condicion)
    have hexprs : o.condicion.exprs = o.exprs + 1 := rfl
    have htextos : o.condicion.textos = o.textos := rfl
    rw [(tablas_si ..).1, (tablas_si ..).2, List.length_cons, List.length_append,
      List.length_append, Arbol.tras]
    omega
  | bucle var lista cuerpo =>
    have hc := cuerpo.tras_tablas o.dentro
    simp only [Origen.dentro] at hc
    rw [(tablas_bucle ..).1, (tablas_bucle ..).2, List.length_cons, Arbol.tras]
    simp only [Origen.salto, Origen.dentro]
    omega

theorem Ramas.tras_tablas (rs : Ramas) (o : Origen) :
    (rs.tras o).textos = o.textos + (rs.piezas.flatMap Pieza.textos).length ∧
      (rs.tras o).exprs = o.exprs + (rs.piezas.flatMap Pieza.expresiones).length := by
  cases rs with
  | fin => exact ⟨rfl, rfl⟩
  | sino rama =>
    have hr := rama.tras_tablas o.salto
    simpa [Ramas.tras, Ramas.piezas, Pieza.textos, Pieza.expresiones, Origen.salto] using hr
  | elif cond rama resto =>
    have hr := rama.tras_tablas o.salto.condicion
    have hrs := resto.tras_tablas (rama.tras o.salto.condicion)
    have hexprs : o.salto.condicion.exprs = o.exprs + 1 := rfl
    have htextos : o.salto.condicion.textos = o.textos := rfl
    rw [(tablas_elif ..).1, (tablas_elif ..).2, List.length_cons, List.length_append,
      List.length_append, Ramas.tras]
    omega

end

section Drawing

variable {T : Taller} {V : Evaluador} {p : Compilador} {s t : Lienzo} {xs : List String}
  {D E : List Trozo → Prop}

theorem Anade.nada (h : D []) (s : Lienzo) : Anade D s s := ⟨[], h, by simp⟩

theorem Anade.mono (h : Anade D s t) (hE : ∀ l, D l → E l) : Anade E s t := by
  obtain ⟨l, hl, hs⟩ := h
  exact ⟨l, hE l hl, hs⟩

theorem Anade.of_salida {s' : Lienzo} (h : Anade D s' t) (hs : s'.salida = s.salida) :
    Anade D s t := by
  obtain ⟨l, hl, ht⟩ := h
  exact ⟨l, hl, hs ▸ ht⟩

theorem Anade.luego {u : Lienzo} (h : Anade D s t) (h' : Anade E t u) :
    Anade (fun l => ∃ l₁ l₂, l = l₁ ++ l₂ ∧ D l₁ ∧ E l₂) s u := by
  obtain ⟨l₁, hl₁, ht⟩ := h
  obtain ⟨l₂, hl₂, hu⟩ := h'
  exact ⟨l₁ ++ l₂, ⟨l₁, l₂, rfl, hl₁, hl₂⟩, by rw [hu, ht, List.flatMap_append, List.append_assoc]⟩

/-- Two actions that succeed. -/
theorem luego_ok {α β : Type} {x : Efecto α} {f : α → Efecto β} {b : β}
    (h : x.luego f = some (.ok b)) : ∃ a, x = some (.ok a) ∧ f a = some (.ok b) := by
  cases x with
  | none => cases h
  | some r =>
    cases r with
    | error d => cases h
    | ok a => exact ⟨a, rfl, h⟩

/-- An evaluation that succeeds writes nothing. -/
theorem evaluar_ok {k : ℕ} {v : Value} (h : s.evaluar V p k = some (.ok (v, t))) :
    t.salida = s.salida ∧ ∃ chunk, p.exprs[k]? = some chunk ∧
      V.evaluar s.world s.valores chunk = some (.ok v, t.world) := by
  unfold Lienzo.evaluar at h
  cases hc : p.exprs[k]? with
  | none =>
    rw [hc] at h
    cases h
  | some chunk =>
    rw [hc] at h
    dsimp only at h
    split at h
    · rename_i v' w hv
      cases h
      exact ⟨rfl, chunk, rfl, hv⟩
    · cases h
    · cases h

theorem poner_ok {slot slotLoop i n : ℕ} {item : Value}
    (h : s.poner slot slotLoop item i n = .ok t) : t.salida = s.salida := by
  unfold Lienzo.poner at h
  split at h
  · cases h
    rfl
  · cases h

/-- The expression of a place of the table. -/
theorem expresa_of_getElem {k : ℕ} {chunk : Chunk} {expr : String}
    (hxs : List.Forall₂ (Expresa T) xs p.exprs) (hx : xs[k]? = some expr)
    (hc : p.exprs[k]? = some chunk) : Expresa T expr chunk := by
  obtain ⟨hk, rfl⟩ := List.getElem?_eq_some_iff.1 hx
  obtain ⟨hk', rfl⟩ := List.getElem?_eq_some_iff.1 hc
  exact (List.forall₂_iff_get.1 hxs).2 k hk hk'

/-- The text of a value is written as the image of a value of the expression. -/
theorem escribir_anade {crudo : Bool} {expr : String} {k : ℕ}
    (hxs : List.Forall₂ (Expresa T) xs p.exprs) (hx : xs[k]? = some expr)
    (h : s.escribir V p crudo k = some (.ok t)) :
    Anade ((Arbol.escribir crudo expr).Dibuja T V) s t := by
  obtain ⟨⟨v, u⟩, hv, ht⟩ := luego_ok h
  obtain ⟨hs, chunk, hc, he⟩ := evaluar_ok hv
  dsimp only at ht
  split at ht
  · rename_i text htext
    cases ht
    refine ⟨_, ⟨text, ⟨chunk, _, _, v, _, expresa_of_getElem hxs hx hc, he, htext⟩, rfl⟩, ?_⟩
    cases crudo
    · simp [hs, Trozo.bytes, escaparHtml_eq]
    · simp [hs, Trozo.bytes]
  · cases ht

/-- The passes of a loop, one after the other. -/
theorem vueltas_anade {cuerpo : Trazo} {addr slot slotLoop n i : ℕ}
    (hcuerpo : ∀ s t, cuerpo s = some (.ok t) → Anade D s t)
    (h : vueltas cuerpo addr slot slotLoop n i s = some (.ok t)) :
    Anade (fun l => ∃ ls : List (List Trozo), l = ls.flatten ∧ ∀ x ∈ ls, D x) s t := by
  induction n generalizing i s with
  | zero => cases h
  | succ n ih =>
    rw [vueltas] at h
    split at h
    · cases h
      exact .nada ⟨[], rfl, by simp⟩ _
    · obtain ⟨u, hu, h⟩ := luego_ok h
      obtain ⟨u', hu', h⟩ := luego_ok h
      refine Anade.of_salida ?_ (poner_ok (Option.some.inj hu))
      refine ((hcuerpo u u' hu').luego (ih h)).mono ?_
      rintro _ ⟨l₁, _, rfl, hl₁, ls, rfl, hls⟩
      exact ⟨l₁ :: ls, rfl, fun x hx => (List.mem_cons.1 hx).elim (fun e => e ▸ hl₁) (hls x)⟩

mutual

/-- **A tree is drawn as its parts, in order.** -/
theorem Arbol.pintar_dibuja (hxs : List.Forall₂ (Expresa T) xs p.exprs) {N : ℕ} (a : Arbol)
    (o : Origen) (s t : Lienzo) (ht : Tramo p.textos o.textos (a.piezas.flatMap Pieza.textos))
    (hx : Tramo xs o.exprs (a.piezas.flatMap Pieza.expresiones))
    (h : a.pintar V p (rondaDe N) o s = some (.ok t)) : Anade (a.Dibuja T V) s t := by
  cases a with
  | nada =>
    cases h
    exact .nada (D := fun l => l = []) rfl s
  | luego a b =>
    obtain ⟨u, hu, h⟩ := luego_ok h
    rw [Arbol.piezas, List.flatMap_append] at ht hx
    have ht' := ht.right
    have hx' := hx.right
    rw [← (a.tras_tablas o).1] at ht'
    rw [← (a.tras_tablas o).2] at hx'
    exact (a.pintar_dibuja hxs o s u ht.left hx.left hu).luego
      (b.pintar_dibuja hxs (a.tras o) u t ht' hx' h)
  | texto text =>
    have hc := ht.head
    rw [Arbol.pintar, Lienzo.imprimir, hc] at h
    cases h
    exact ⟨_, rfl, by simp [Trozo.bytes]⟩
  | escribir crudo expr => exact escribir_anade hxs hx.head h
  | si cond rama resto =>
    rw [(tablas_si ..).1] at ht
    rw [(tablas_si ..).2] at hx
    have ht' := ht.right
    have hx' := hx.tail.right
    have hr := rama.tras_tablas o.condicion
    obtain ⟨⟨v, u⟩, hv, h⟩ := luego_ok h
    refine Anade.of_salida ?_ (evaluar_ok hv).1
    dsimp only at h
    split at h
    · exact (rama.pintar_dibuja hxs o.condicion u t ht.left hx.tail.left h).mono fun l => .inl
    · refine (resto.pintar_dibuja hxs (rama.tras o.condicion) u t ?_ ?_ h).mono fun l => .inr
      · rwa [hr.1]
      · rwa [hr.2]
  | bucle var lista cuerpo =>
    rw [(tablas_bucle ..).1] at ht
    rw [(tablas_bucle ..).2] at hx
    obtain ⟨⟨v, u⟩, hv, h⟩ := luego_ok h
    refine Anade.of_salida ?_ (evaluar_ok hv).1
    cases v with
    | list addr =>
      exact vueltas_anade (fun s t h => cuerpo.pintar_dibuja hxs o.dentro s t ht hx.tail h) h
    | _ => cases h

theorem Ramas.pintar_dibuja (hxs : List.Forall₂ (Expresa T) xs p.exprs) {N : ℕ} (rs : Ramas)
    (o : Origen) (s t : Lienzo) (ht : Tramo p.textos o.textos (rs.piezas.flatMap Pieza.textos))
    (hx : Tramo xs o.exprs (rs.piezas.flatMap Pieza.expresiones))
    (h : rs.pintar V p (rondaDe N) o s = some (.ok t)) : Anade (rs.Dibuja T V) s t := by
  cases rs with
  | fin =>
    cases h
    exact .nada (D := fun l => l = []) rfl s
  | sino rama => exact rama.pintar_dibuja hxs o.salto s t ht hx h
  | elif cond rama resto =>
    rw [(tablas_elif ..).1] at ht
    rw [(tablas_elif ..).2] at hx
    have ht' := ht.right
    have hx' := hx.tail.right
    have hr := rama.tras_tablas o.salto.condicion
    obtain ⟨⟨v, u⟩, hv, h⟩ := luego_ok h
    refine Anade.of_salida ?_ (evaluar_ok hv).1
    dsimp only at h
    split at h
    · exact (rama.pintar_dibuja hxs o.salto.condicion u t ht.left hx.tail.left h).mono
        fun l => .inl
    · refine (resto.pintar_dibuja hxs (rama.tras o.salto.condicion) u t ?_ ?_ h).mono fun l => .inr
      · rwa [hr.1]
      · rwa [hr.2]

end

end Drawing

/-! ## Where a part comes from -/

/-- A part comes from one of the marks. -/
def Trozo.De (T : Taller) (V : Evaluador) (ps : List Pieza) : Trozo → Prop
  | .literal t => .texto t ∈ ps
  | .imagen t => ∃ expr, .escribir false expr ∈ ps ∧ Imagen T V expr t
  | .crudo t => ∃ expr, .escribir true expr ∈ ps ∧ Imagen T V expr t

section Origin

variable {T : Taller} {V : Evaluador} {ps qs : List Pieza} {x : Trozo}

theorem Trozo.De.mono (h : x.De T V ps) (hsub : ∀ p ∈ ps, p ∈ qs) : x.De T V qs := by
  cases x with
  | literal t => exact hsub _ h
  | imagen t | crudo t =>
    obtain ⟨expr, hm, hi⟩ := h
    exact ⟨expr, hsub _ hm, hi⟩

mutual

/-- The parts of a tree come from its marks. -/
theorem Arbol.dibuja_de (a : Arbol) (l : List Trozo) (h : a.Dibuja T V l) :
    ∀ x ∈ l, x.De T V a.piezas := by
  cases a with
  | nada =>
    obtain rfl : l = [] := h
    exact nofun
  | luego a b =>
    obtain ⟨l₁, l₂, rfl, h₁, h₂⟩ := h
    intro x hx
    obtain hx | hx := List.mem_append.1 hx
    · exact (a.dibuja_de l₁ h₁ x hx).mono fun p => List.mem_append_left _
    · exact (b.dibuja_de l₂ h₂ x hx).mono fun p => List.mem_append_right _
  | texto t =>
    obtain rfl : l = [.literal t] := h
    intro x hx
    rw [List.mem_singleton.1 hx]
    exact List.mem_singleton_self _
  | escribir crudo expr =>
    obtain ⟨t, hi, rfl⟩ := h
    intro x hx
    rw [List.mem_singleton.1 hx]
    cases crudo <;> exact ⟨expr, List.mem_singleton_self _, hi⟩
  | si cond rama resto =>
    intro x hx
    obtain h | h := h
    · exact (rama.dibuja_de l h x hx).mono fun p hp =>
        List.mem_cons_of_mem _ (List.mem_append_left _ hp)
    · exact (resto.dibuja_de l h x hx).mono fun p hp =>
        List.mem_cons_of_mem _ (List.mem_append_right _ (List.mem_append_left _ hp))
  | bucle var lista cuerpo =>
    obtain ⟨ls, rfl, h⟩ := h
    intro x hx
    obtain ⟨l, hl, hx⟩ := List.mem_flatten.1 hx
    exact (cuerpo.dibuja_de l (h l hl) x hx).mono fun p hp =>
      List.mem_cons_of_mem _ (List.mem_append_left _ hp)

theorem Ramas.dibuja_de (rs : Ramas) (l : List Trozo) (h : rs.Dibuja T V l) :
    ∀ x ∈ l, x.De T V rs.piezas := by
  cases rs with
  | fin =>
    obtain rfl : l = [] := h
    exact nofun
  | sino rama =>
    exact fun x hx => (rama.dibuja_de l h x hx).mono fun p => List.mem_cons_of_mem _
  | elif cond rama resto =>
    intro x hx
    obtain h | h := h
    · exact (rama.dibuja_de l h x hx).mono fun p hp =>
        List.mem_cons_of_mem _ (List.mem_append_left _ hp)
    · exact (resto.dibuja_de l h x hx).mono fun p hp =>
        List.mem_cons_of_mem _ (List.mem_append_right _ hp)

end

end Origin

/-! ## Any code -/

/-- An instruction that writes comes from one of the marks. -/
def Instr.De (ps : List Pieza) (xs textos : List String) : Instr → Prop
  | .texto a => ∃ t, .texto t ∈ ps ∧ textos[a]? = some t
  | .escribir k => ∃ expr, .escribir false expr ∈ ps ∧ xs[k]? = some expr
  | .escribirCrudo k => ∃ expr, .escribir true expr ∈ ps ∧ xs[k]? = some expr
  | _ => True

section Instructions

variable {T : Taller} {V : Evaluador} {c : Compilador} {ps : List Pieza} {xs textos : List String}

theorem Instr.De.parchear {i : Instr} (h : i.De ps xs textos) (destino : ℕ) :
    (i.parchear destino).De ps xs textos := by
  cases i <;> exact h

theorem de_parchada {code : List Instr} (h : ∀ i ∈ code, i.De ps xs textos)
    (posiciones : List ℕ) (destino : ℕ) :
    ∀ i ∈ parchada code posiciones destino, i.De ps xs textos := by
  induction posiciones generalizing code with
  | nil => exact h
  | cons pos posiciones ih =>
    refine ih fun i hi => ?_
    obtain ⟨k, hk, rfl⟩ := List.mem_iff_getElem.1 hi
    rw [List.getElem_modify]
    split
    · exact (h _ (List.getElem_mem _)).parchear destino
    · exact h _ (List.getElem_mem _)

/-- More marks and longer tables. -/
theorem Instr.De.mono {i : Instr} (h : i.De ps xs textos) (qs : List Pieza)
    (ys nuevos : List String) : i.De (ps ++ qs) (xs ++ ys) (textos ++ nuevos) := by
  have hget {l l' : List String} {k : ℕ} {t : String} (h : l[k]? = some t) :
      (l ++ l')[k]? = some t := by
    obtain ⟨hk, rfl⟩ := List.getElem?_eq_some_iff.1 h
    rw [List.getElem?_append_left hk, List.getElem?_eq_getElem hk]
  cases i with
  | texto a =>
    obtain ⟨t, hm, ht⟩ := h
    exact ⟨t, List.mem_append_left _ hm, hget ht⟩
  | escribir k | escribirCrudo k =>
    obtain ⟨expr, hm, he⟩ := h
    exact ⟨expr, List.mem_append_left _ hm, hget he⟩
  | _ => trivial

theorem de_concat {code : List Instr} {i : Instr} (h : ∀ j ∈ code, j.De ps xs textos)
    (hi : i.De ps xs textos) : ∀ j ∈ code ++ [i], j.De ps xs textos := by
  intro j hj
  obtain hj | hj := List.mem_append.1 hj
  · exact h j hj
  · rw [List.mem_singleton.1 hj]
    exact hi

/-- **Step lemma**: the instructions that write come from the marks so far. -/
theorem Avance.de {c' : Compilador} {p : Pieza} (ha : Avance T c c' p)
    (h : ∀ i ∈ c.code, i.De ps xs c.textos) (hlen : xs.length = c.exprs.length) :
    ∀ i ∈ c'.code, i.De (ps ++ [p]) (xs ++ p.expresiones) c'.textos := by
  have hold : ∀ i ∈ c.code, i.De (ps ++ [p]) (xs ++ p.expresiones) c'.textos := by
    intro i hi
    rw [ha.tablas.2]
    exact (h i hi).mono [p] _ _
  cases ha with
  | texto t hc =>
    rw [hc.code]
    refine de_concat hold ⟨t, List.mem_append_right _ (List.mem_singleton_self _), ?_⟩
    rw [hc.textos]
    exact List.getElem?_concat_length
  | escribir crudo expr hc =>
    rw [hc.code]
    refine de_concat hold ?_
    have hexpr : (xs ++ [expr])[c.exprs.length]? = some expr := by
      rw [← hlen]
      exact List.getElem?_concat_length
    cases crudo <;>
      exact ⟨expr, List.mem_append_right _ (List.mem_singleton_self _), hexpr⟩
  | si cond hc =>
    rw [hc.code]
    exact de_concat hold trivial
  | elif cond hab hc =>
    rw [hc.code]
    refine de_concat (de_parchada (de_concat hold ?_) _ _) trivial
    trivial
  | sino hab hc =>
    rw [hc.code]
    refine de_parchada (de_concat hold ?_) _ _
    trivial
  | endif hab hc =>
    rw [hc.code]
    exact de_parchada hold _ _
  | bucle var lista hc =>
    rw [hc.code]
    exact de_concat hold trivial
  | endfor hab hc =>
    rw [hc.code]
    refine de_parchada (de_concat hold ?_) _ _
    trivial

/-- The instructions that marks without errors leave. -/
theorem foldl_de {qs : List Pieza} (he : (qs.foldl (Compilador.pieza T) c).errores = [])
    (h : ∀ i ∈ c.code, i.De ps xs c.textos) (hxs : List.Forall₂ (Expresa T) xs c.exprs) :
    ∀ i ∈ (qs.foldl (Compilador.pieza T) c).code,
      i.De (ps ++ qs) (xs ++ qs.flatMap Pieza.expresiones)
        (qs.foldl (Compilador.pieza T) c).textos := by
  induction qs generalizing c ps xs with
  | nil => simpa using h
  | cons q qs ih =>
    have ha := foldl_cons_errores he
    obtain ⟨chunks, hchunks, hf⟩ := ha.tablas.1
    have hxs' : List.Forall₂ (Expresa T) (xs ++ q.expresiones) (c.pieza T q).exprs := by
      rw [hchunks]
      exact List.rel_append hxs hf
    have hrest := ih he (ha.de h hxs.length_eq) hxs'
    rwa [List.append_assoc, List.append_assoc] at hrest

/-- What an instruction writes. -/
def Escribe (T : Taller) (V : Evaluador) (ps : List Pieza) (s t : Lienzo) : Prop :=
  Anade (fun l => ∀ x ∈ l, x.De T V ps) s t

/-- **Step lemma**: an instruction adds parts that come from the marks. -/
theorem paso_escribe {e e' : Estado} (hcode : ∀ i ∈ c.code, i.De ps xs c.textos)
    (hxs : List.Forall₂ (Expresa T) xs c.exprs) (h : paso V c e = some (.ok e')) :
    Escribe T V ps e.lienzo e'.lienzo := by
  have hnada (s : Lienzo) : Escribe T V ps s s := .nada nofun s
  have hpasar {addr i cuerpo fin slot slotLoop : ℕ} {bucles : List Marco} {s : Lienzo}
      (h : some (pasar addr i cuerpo fin slot slotLoop bucles s) = some (.ok e')) :
      e'.lienzo.salida = s.salida := by
    unfold pasar at h
    split at h
    · cases h
      rfl
    · cases hp : s.poner slot slotLoop _ i (listAt s.world.heap addr).length with
      | error d =>
        rw [hp] at h
        cases h
      | ok t =>
        rw [hp] at h
        cases h
        exact poner_ok hp
  have hescribir {crudo : Bool} {k : ℕ} {expr : String} (hm : .escribir crudo expr ∈ ps)
      (hx : xs[k]? = some expr) {t : Lienzo} (h : e.lienzo.escribir V c crudo k = some (.ok t)) :
      Escribe T V ps e.lienzo t := by
    refine (escribir_anade hxs hx h).mono fun l hl x hxl => ?_
    refine ((Arbol.escribir crudo expr).dibuja_de l hl x hxl).mono fun p hp => ?_
    rw [List.mem_singleton.1 hp]
    exact hm
  unfold paso at h
  dsimp only at h
  cases hi : c.code[e.pc]? with
  | none =>
    rw [hi] at h
    cases h
  | some i =>
    have hde := hcode i (List.mem_of_getElem? hi)
    rw [hi] at h
    cases i with
    | texto a =>
      obtain ⟨u, hu, h⟩ := luego_ok h
      cases h
      obtain ⟨t, hm, ht⟩ := hde
      rw [Lienzo.imprimir, ht] at hu
      cases hu
      refine ⟨[.literal t], fun x hx => ?_, by simp [Trozo.bytes]⟩
      rw [List.mem_singleton.1 hx]
      exact hm
    | escribir k | escribirCrudo k =>
      obtain ⟨u, hu, h⟩ := luego_ok h
      cases h
      obtain ⟨expr, hm, hx⟩ := hde
      exact hescribir hm hx hu
    | saltarSiFalso k b =>
      obtain ⟨⟨v, u⟩, hu, h⟩ := luego_ok h
      cases h
      exact (hnada _).of_salida (evaluar_ok hu).1
    | saltar b =>
      cases h
      exact hnada _
    | bucleInicio k b slot slotLoop =>
      obtain ⟨⟨v, u⟩, hu, h⟩ := luego_ok h
      cases v with
      | list addr => exact (hnada _).of_salida ((hpasar h).trans (evaluar_ok hu).1)
      | _ => cases h
    | bucleSiguiente b slot slotLoop =>
      dsimp only at h
      split at h
      · exact (hnada _).of_salida (hpasar h)
      · cases h

theorem luego_ne {α β : Type} {x : Efecto α} {f : α → Efecto β} {d : Desenlace}
    (hx : x ≠ some (.error d)) (hf : ∀ a, f a ≠ some (.error d)) : x.luego f ≠ some (.error d) := by
  cases x with
  | none => nofun
  | some r =>
    cases r with
    | ok a => exact hf a
    | error d' => exact fun h => hx (by cases h; rfl)

/-- Only a rendering behind the last instruction ends with a page, the one that is there. -/
theorem paso_pagina {e : Estado} {salida : Bytes}
    (h : paso V c e = some (.error (.pagina salida))) : salida = e.lienzo.salida := by
  have hevaluar (s : Lienzo) (k : ℕ) : s.evaluar V c k ≠ some (.error (.pagina salida)) := by
    unfold Lienzo.evaluar
    split
    · simp
    · split <;> simp
  have hpasar (addr i cuerpo fin slot slotLoop : ℕ) (bucles : List Marco) (s : Lienzo) :
      some (pasar addr i cuerpo fin slot slotLoop bucles s) ≠ some (.error (.pagina salida)) := by
    unfold pasar
    split
    · simp
    · unfold Lienzo.poner
      split <;> simp [Except.map]
  have hescribir (crudo : Bool) (k : ℕ) :
      e.lienzo.escribir V c crudo k ≠ some (.error (.pagina salida)) := by
    refine luego_ne (hevaluar _ _) fun r => ?_
    dsimp only
    split <;> simp
  unfold paso at h
  dsimp only at h
  cases hi : c.code[e.pc]? with
  | none =>
    rw [hi] at h
    cases h
    rfl
  | some i =>
    rw [hi] at h
    cases i with
    | texto a =>
      refine absurd h (luego_ne ?_ (by simp))
      unfold Lienzo.imprimir
      split <;> simp
    | escribir k | escribirCrudo k => exact absurd h (luego_ne (hescribir _ _) (by simp))
    | saltarSiFalso k b => exact absurd h (luego_ne (hevaluar _ _) (by simp))
    | saltar b => cases h
    | bucleInicio k b slot slotLoop =>
      refine absurd h (luego_ne (hevaluar _ _) fun r => ?_)
      split
      · exact hpasar _ _ _ _ _ _ _ _
      · unfold noLista
        simp
    | bucleSiguiente b slot slotLoop =>
      dsimp only at h
      split at h
      · exact absurd h (hpasar _ _ _ _ _ _ _ _)
      · cases h

/-- **Run lemma**: a page is made of parts that come from the marks. -/
theorem correr_escribe (hcode : ∀ i ∈ c.code, i.De ps xs c.textos)
    (hxs : List.Forall₂ (Expresa T) xs c.exprs) {n : ℕ} {e : Estado} {salida : Bytes}
    (h : correr V c n e = some (.pagina salida)) :
    ∃ l : List Trozo, (∀ x ∈ l, x.De T V ps) ∧
      salida = e.lienzo.salida ++ l.flatMap Trozo.bytes := by
  induction n generalizing e with
  | zero => cases h
  | succ n ih =>
    rw [correr] at h
    split at h
    · cases h
    · rename_i d hd
      cases h
      exact ⟨[], nofun, by simp [paso_pagina hd]⟩
    · rename_i e' he
      obtain ⟨l, hl, hs⟩ := paso_escribe hcode hxs he
      obtain ⟨l', hl', hs'⟩ := ih h
      refine ⟨l ++ l', fun x hx => (List.mem_append.1 hx).elim (hl x) (hl' x), ?_⟩
      rw [hs', hs, List.flatMap_append, List.append_assoc]

end Instructions

/-! ## The texts of a template -/

/-- A text stands in the source of the template or in that of another one. -/
def DeFuente (ficheros : List (String × String)) (fuente : String) (t : List Char) : Prop :=
  t <:+: fuente.toList ∨ ∃ nombre texto, (nombre, texto) ∈ ficheros ∧ t <:+: texto.toList

section Sources

variable {ficheros : List (String × String)} {fuente : String} {src t : List Char}
  {C : Carpeta} {bloques : List (String × List Char)}

theorem DeFuente.trozo (h : DeFuente ficheros fuente src) (ht : t <:+: src) :
    DeFuente ficheros fuente t := by
  obtain h | ⟨nombre, texto, hm, h⟩ := h
  · exact .inl (ht.trans h)
  · exact .inr ⟨nombre, texto, hm, ht.trans h⟩

theorem lookup_mem {α : Type} {l : List (String × α)} {k : String} {a : α}
    (h : l.lookup k = some a) : (k, a) ∈ l := by
  obtain ⟨l₁, l₂, rfl, -⟩ := List.lookup_eq_some_iff.1 h
  simp

theorem DeFuente.fichero {nombre texto : String} (h : ficheros.lookup nombre = some texto) :
    DeFuente ficheros fuente texto.toList :=
  .inr ⟨nombre, texto, lookup_mem h, List.infix_refl _⟩

theorem mem_textoPieza {u : String} (h : .texto u ∈ textoPieza t) : u.toList = t := by
  unfold textoPieza at h
  split at h
  · cases h
  · obtain rfl := Pieza.texto.inj (List.mem_singleton.1 h)
    exact String.toList_ofList

theorem recortarIzq_prefix (t : List Char) : recortarIzq t <+: t := by
  unfold recortarIzq
  have h := List.dropWhile_suffix blanco (l := t.reverse)
  rw [← List.reverse_prefix, List.reverse_reverse] at h
  exact h

theorem restoTras_suffix (marca resto : List Char) : restoTras marca resto <:+ resto := by
  unfold restoTras recortarDer
  split
  · exact List.dropWhile_suffix _
  · exact List.suffix_refl _

/-- The text before a mark stands in the source. -/
theorem mem_textoAntes {u : String} {previo marca : List Char}
    (h : .texto u ∈ textoAntes previo marca) : u.toList <+: previo := by
  rw [mem_textoPieza h]
  split
  · exact recortarIzq_prefix previo
  · exact List.prefix_refl _

/-- **The texts that a source is cut into stand in the sources.** -/
theorem cuerpo_textos (hbloques : ∀ b ∈ C.bloques, DeFuente C.ficheros fuente b.2) {fuel d : ℕ}
    {ps : List Pieza} {u : String} (hsrc : DeFuente C.ficheros fuente src)
    (h : cuerpo C fuel src d = some ps) (hu : .texto u ∈ ps) :
    DeFuente C.ficheros fuente u.toList := by
  induction fuel generalizing src d ps with
  | zero => cases h
  | succ fuel ih =>
    rw [cuerpo_succ] at h
    obtain hc | hc | ⟨previo, tipo, marca, cierre, resto, rfl, hm⟩ := corte_cases C src d
    · rw [hc] at h
      cases h
      rw [mem_textoPieza hu]
      exact hsrc
    · rw [hc] at h
      cases h
      cases List.mem_singleton.1 hu
    generalize corte C _ d = c at h hm
    have hprevio {u : String} (hu : .texto u ∈ textoAntes previo marca) :
        DeFuente C.ficheros fuente u.toList :=
      hsrc.trozo (((mem_textoAntes hu).trans (List.prefix_append _ _)).isInfix)
    have hresto : DeFuente C.ficheros fuente (restoTras marca resto) := by
      refine hsrc.trozo ((restoTras_suffix marca resto).trans ?_).isInfix
      exact ⟨previo ++ '{' :: tipo :: (marca ++ [cierre, '}']), by simp⟩
    cases hm with
    | fin piezas hp =>
      cases h
      exact (List.mem_append.1 hu).elim hprevio fun hu => absurd hu (hp u)
    | sigue piezas hp =>
      obtain ⟨rest, hrest, rfl⟩ := Option.map_eq_some_iff.1 h
      obtain hu | hu := List.mem_append.1 hu
      · exact (List.mem_append.1 hu).elim hprevio fun hu => absurd hu (hp u)
      · exact ih hresto hrest hu
    | incluye nombre hijo _ hf =>
      obtain ⟨piezas, hpiezas, h⟩ := Option.bind_eq_some_iff.1 h
      obtain ⟨rest, hrest, rfl⟩ := Option.map_eq_some_iff.1 h
      obtain hu | hu := List.mem_append.1 hu
      · exact (List.mem_append.1 hu).elim hprevio (ih (.fichero hf) hpiezas)
      · exact ih hresto hrest hu
    | sustituye nombre dentro hijo tras hfin hb =>
      obtain ⟨piezas, hpiezas, h⟩ := Option.bind_eq_some_iff.1 h
      obtain ⟨rest, hrest, rfl⟩ := Option.map_eq_some_iff.1 h
      obtain ⟨m, hr, -⟩ := finDeBloque_eq hfin
      obtain hu | hu := List.mem_append.1 hu
      · exact (List.mem_append.1 hu).elim hprevio (ih (hbloques _ (lookup_mem hb)) hpiezas)
      · exact ih (hresto.trozo (hr ▸ (List.suffix_append _ _).isInfix)) hrest hu

/-- The blocks of a child stand in its source, and its errors are no texts. -/
theorem recogerBloques_textos {n : ℕ} (hsrc : DeFuente ficheros fuente src)
    (hbloques : ∀ b ∈ bloques, DeFuente ficheros fuente b.2) :
    (∀ b ∈ (recogerBloques n src bloques).2, DeFuente ficheros fuente b.2) ∧
      ∀ u, .texto u ∉ (recogerBloques n src bloques).1 := by
  induction n generalizing src bloques with
  | zero => exact ⟨hbloques, fun u hu => by cases hu⟩
  | succ n ih =>
    rw [recogerBloques]
    cases he : etiquetaSimple src with
    | none => exact ⟨hbloques, (by simp)⟩
    | some e =>
      have hresto : DeFuente ficheros fuente e.resto := by
        rw [(etiquetaSimple_eq he).1] at hsrc
        exact hsrc.trozo (List.suffix_append _ _).isInfix
      dsimp only
      split
      · cases hf : finDeBloque (e.resto.length + 1) 1 e.resto with
        | none => exact ⟨hbloques, fun u hu => by cases List.mem_singleton.1 hu⟩
        | some p =>
          obtain ⟨dentro, tras⟩ := p
          obtain ⟨m, hr, -⟩ := finDeBloque_eq hf
          rw [hr] at hresto
          refine ih (hresto.trozo (List.suffix_append _ _).isInfix) ?_
          split
          · exact hbloques
          · intro b hb
            obtain hb | hb := List.mem_append.1 hb
            · exact hbloques b hb
            · rw [List.mem_singleton.1 hb]
              exact hresto.trozo ⟨[], m ++ tras, by simp⟩
      · exact ih hresto hbloques

/-- So do the root and the blocks of a chain of templates. -/
theorem raizDe_textos {n : ℕ} {errores : List Pieza} {raiz : List Char}
    {bloques' : List (String × List Char)} (hsrc : DeFuente ficheros fuente src)
    (hbloques : ∀ b ∈ bloques, DeFuente ficheros fuente b.2)
    (h : raizDe ficheros n src bloques = .ok (errores, raiz, bloques')) :
    DeFuente ficheros fuente raiz ∧ (∀ b ∈ bloques', DeFuente ficheros fuente b.2) ∧
      ∀ u, .texto u ∉ errores := by
  induction n generalizing src bloques errores with
  | zero =>
    unfold raizDe at h
    split at h
    · cases h
      exact ⟨hsrc, hbloques, nofun⟩
    · cases h
      exact ⟨hsrc, hbloques, fun u hu => nomatch List.mem_singleton.1 hu⟩
    · cases h
  | succ n ih =>
    unfold raizDe at h
    split at h
    · cases h
      exact ⟨hsrc, hbloques, nofun⟩
    · cases h
      exact ⟨hsrc, hbloques, fun u hu => nomatch List.mem_singleton.1 hu⟩
    · rename_i padre _ _
      dsimp only at h
      obtain ⟨hrec, herr⟩ := recogerBloques_textos (n := src.length + 1) hsrc hbloques
      split at h
      · cases h
      · rename_i texto hf
        split at hf
        · cases hf
        cases hr : raizDe ficheros n texto.toList (recogerBloques (src.length + 1) src bloques).2 with
        | error message =>
          rw [hr] at h
          cases h
        | ok r =>
          obtain ⟨mas, raiz', bloques''⟩ := r
          rw [hr] at h
          cases h
          obtain ⟨hraiz, hb, hmas⟩ := ih (.fichero hf) hrec hr
          exact ⟨hraiz, hb, fun u hu => (List.mem_append.1 hu).elim (herr u) (hmas u)⟩

/-- **The texts of a template stand in its sources.** -/
theorem piezasDe_textos {fuel : ℕ} {ps : List Pieza} {u : String}
    (h : piezasDe ficheros fuel fuente = some ps) (hu : .texto u ∈ ps) :
    DeFuente ficheros fuente u.toList := by
  unfold piezasDe at h
  cases hr : raizDe ficheros 16 fuente.toList [] with
  | error message =>
    rw [hr] at h
    cases h
    cases List.mem_singleton.1 hu
  | ok r =>
    obtain ⟨errores, raiz, bloques⟩ := r
    rw [hr] at h
    obtain ⟨piezas, hp, rfl⟩ := Option.map_eq_some_iff.1 h
    obtain ⟨hraiz, hbloques, herr⟩ := raizDe_textos (.inl (List.infix_refl _))
      (by rintro b ⟨⟩) hr
    obtain hu | hu := List.mem_append.1 hu
    · exact absurd hu (herr u)
    · exact cuerpo_textos (C := ⟨ficheros, bloques⟩) hbloques hraiz hp hu

end Sources

/-! ## The characters that markup is made of -/

def especiales : Bytes := Json.ascii "<>&\"'"

/-- A place of the page is one of the `n` from `inicio` on. -/
def EnRango (i inicio n : ℕ) : Prop := inicio ≤ i ∧ i < inicio + n

/-- The character at a place of a page comes from a text of the template, or belongs to an entity
    in the text of a value. -/
def Seguro (trozos : List Trozo) (i : ℕ) : Prop :=
  ∃ antes x despues, trozos = antes ++ x :: despues ∧
    ((∃ t, x = .literal t ∧ EnRango i (antes.flatMap Trozo.bytes).length x.bytes.length) ∨
      ∃ t u e v, x = .imagen t ∧ x.bytes = u ++ e ++ v ∧ e ∈ entidades ∧
        EnRango i ((antes.flatMap Trozo.bytes).length + u.length) e.length)

section Characters

variable {trozos : List Trozo} {i : ℕ} {b : UInt8}

/-- An item of parts that follow each other is an item of one of them. -/
theorem flatMap_getElem? {α β : Type} {f : α → List β} {l : List α} {i : ℕ} {b : β}
    (h : (l.flatMap f)[i]? = some b) : ∃ l₁ x l₂ j, l = l₁ ++ x :: l₂ ∧
      i = (l₁.flatMap f).length + j ∧ (f x)[j]? = some b := by
  induction l generalizing i with
  | nil => cases h
  | cons x l ih =>
    rw [List.flatMap_cons] at h
    by_cases hi : i < (f x).length
    · rw [List.getElem?_append_left hi] at h
      exact ⟨[], x, l, i, rfl, by simp, h⟩
    · have hle := Nat.le_of_not_lt hi
      rw [List.getElem?_append_right hle] at h
      obtain ⟨l₁, y, l₂, j, rfl, hj, hb⟩ := ih h
      refine ⟨x :: l₁, y, l₂, j, rfl, ?_, hb⟩
      rw [List.flatMap_cons, List.length_append]
      omega

theorem entidad_isSome (h : b ∈ especiales) : ∃ e, entidad b = some e := by
  have hall : ∀ b ∈ especiales, (entidad b).isSome := by decide +kernel
  exact Option.isSome_iff_exists.1 (hall b h)

/-- A special character in the image of a text belongs to an entity. -/
theorem imagen_especial {t : Bytes} (hb : (escaparHtml t [])[i]? = some b) (h : b ∈ especiales) :
    ∃ u e v, escaparHtml t [] = u ++ e ++ v ∧ e ∈ entidades ∧ EnRango i u.length e.length := by
  rw [escaparHtml_eq, List.nil_append] at hb ⊢
  obtain ⟨t₁, c, t₂, j, rfl, rfl, hc⟩ := flatMap_getElem? hb
  obtain ⟨hj, hc⟩ := List.getElem?_eq_some_iff.1 hc
  cases he : entidad c with
  | none =>
    -- a character that is not replaced is not special
    have hsame : escapado c = [c] := by rw [escapado, he, Option.getD_none]
    simp only [hsame, List.getElem_singleton] at hc
    obtain ⟨e, hb⟩ := entidad_isSome h
    rw [← hc, he] at hb
    cases hb
  | some e =>
    have hrep : escapado c = e := by rw [escapado, he, Option.getD_some]
    refine ⟨t₁.flatMap escapado, e, t₂.flatMap escapado, ?_, entidad_mem he, Nat.le_add_right .., ?_⟩
    · rw [List.flatMap_append, List.flatMap_cons, hrep, List.append_assoc]
    · rw [hrep] at hj
      exact Nat.add_lt_add_left hj _

/-- **A special character of a page without raw texts** comes from the template or belongs to an
    entity. -/
theorem seguro_of_especial (hcrudo : ∀ t, .crudo t ∉ trozos)
    (hb : (trozos.flatMap Trozo.bytes)[i]? = some b) (h : b ∈ especiales) : Seguro trozos i := by
  obtain ⟨antes, x, despues, j, rfl, rfl, hj⟩ := flatMap_getElem? hb
  refine ⟨antes, x, despues, rfl, ?_⟩
  cases x with
  | literal t =>
    obtain ⟨hlt, -⟩ := List.getElem?_eq_some_iff.1 hj
    exact .inl ⟨t, rfl, Nat.le_add_right .., Nat.add_lt_add_left hlt _⟩
  | imagen t =>
    obtain ⟨u, e, v, heq, he, hle, hlt⟩ := imagen_especial hj h
    exact .inr ⟨t, u, e, v, rfl, heq, he, by omega, by omega⟩
  | crudo t => exact absurd (List.mem_append_right _ (List.mem_cons_self ..)) (hcrudo t)

end Characters

/-! ## Pages -/

section Pages

variable {T : Taller} {V : Evaluador} {ficheros : List (String × String)} {fuente : String}
  {datos : Nombres} {fuel : ℕ} {ps : List Pieza} {c : Compilador} {valores : List Value}
  {w : World} {salida : Bytes}

/-- A page is made of parts that come from the marks; if the compilation stayed inside the code,
    they are in the order of the template. -/
theorem exists_trozos (hps : piezasDe ficheros fuel fuente = some ps)
    (hc : compilarPlantilla T ficheros fuel fuente datos = some c) (he : c.errores = [])
    (h : Acaba V c (inicio c valores w) (.pagina salida)) :
    ∃ trozos : List Trozo, salida = trozos.flatMap Trozo.bytes ∧ (∀ x ∈ trozos, x.De T V ps) ∧
      ((compilador T datos).Meets Dentro ps →
        ∃ a : Arbol, a.piezas = ps ∧ a.Dibuja T V trozos) := by
  obtain ⟨rfl, hab⟩ := compilarPlantilla_ok hps hc he
  obtain ⟨⟨chunks, hchunks, hxs⟩, htextos⟩ := foldl_tablas he
  by_cases hd : (compilador T datos).Meets Dentro ps
  · obtain ⟨a, rfl⟩ := exists_arbol ((meets_dentro_iff (by rintro ab ⟨⟩) ps).1 hd) he hab
    have ha := a.compila _ he
    generalize a.piezas.foldl (Compilador.pieza T) (compilador T datos).init = c at *
    obtain ⟨N, r, hr, hde⟩ := (acaba_pintar_iff ha.code rfl).1 h
    cases r with
    | error d =>
      obtain rfl : d = .pagina salida := hde
      obtain ⟨message, hm⟩ := a.pintar_error ha.origen hr
      cases hm
    | ok t =>
      have hxs : List.Forall₂ (Expresa T) (a.piezas.flatMap Pieza.expresiones) c.exprs :=
        hchunks ▸ hxs
      have ht : Tramo c.textos 0 (a.piezas.flatMap Pieza.textos) := htextos ▸ .refl _
      obtain ⟨trozos, hdib, hs⟩ := a.pintar_dibuja hxs _ _ t ht (.refl _) hr
      have hsal : t.salida = salida := Desenlace.pagina.inj hde
      exact ⟨trozos, hsal ▸ hs, a.dibuja_de trozos hdib, fun _ => ⟨a, rfl, hdib⟩⟩
  · have hvacio : List.Forall₂ (Expresa T) [] (compilador T datos).init.exprs := .nil
    have hcode : ∀ i ∈ (compilador T datos).init.code, i.De [] [] (compilador T datos).init.textos :=
      nofun
    have hde := foldl_de he hcode hvacio
    obtain ⟨n, hn⟩ := acaba_iff.1 h
    have hxs : List.Forall₂ (Expresa T) ([] ++ ps.flatMap Pieza.expresiones)
        (ps.foldl (Compilador.pieza T) (compilador T datos).init).exprs := by
      rw [hchunks]
      exact hxs
    obtain ⟨trozos, hl, hs⟩ := correr_escribe hde hxs hn
    exact ⟨trozos, hs, hl, fun h => absurd h hd⟩

/-- A page without raw texts: its parts are texts of the template and images of values, in the
    order of the template (a compilation that writes outside of the code has no order), and every
    special character comes from the former or belongs to an entity. -/
def Escapada (T : Taller) (V : Evaluador) (ficheros : List (String × String)) (fuente : String)
    (datos : Nombres) (ps : List Pieza) (salida : Bytes) : Prop :=
  ∃ trozos : List Trozo, salida = trozos.flatMap Trozo.bytes ∧
    (∀ t, .literal t ∈ trozos → .texto t ∈ ps ∧ DeFuente ficheros fuente t.toList) ∧
    (∀ t, .imagen t ∈ trozos → ∃ expr, .escribir false expr ∈ ps ∧ Imagen T V expr t) ∧
    (∀ t, .crudo t ∉ trozos) ∧
    ((compilador T datos).Meets Dentro ps → ∃ a : Arbol, a.piezas = ps ∧ a.Dibuja T V trozos) ∧
    ∀ i b, salida[i]? = some b → b ∈ especiales → Seguro trozos i

/-- **The page of a template without `|safe` is escaped**, and escaping is replacing the characters
    one by one, which gives no two texts the same image. -/
theorem page_escaped (hps : piezasDe ficheros fuel fuente = some ps)
    (hc : compilarPlantilla T ficheros fuel fuente datos = some c) (he : c.errores = [])
    (hsafe : ∀ expr, .escribir true expr ∉ ps)
    (h : Acaba V c (inicio c valores w) (.pagina salida)) :
    Escapada T V ficheros fuente datos ps salida ∧
      (∀ entrada, escaparHtml entrada [] = entrada.flatMap escapado) ∧
      Function.Injective fun entrada => escaparHtml entrada [] := by
  refine ⟨?_, fun entrada => escaparHtml_eq entrada [], escaparHtml_injective []⟩
  obtain ⟨trozos, rfl, hde, harbol⟩ := exists_trozos hps hc he h
  have hcrudo (t : Bytes) : .crudo t ∉ trozos := by
    intro ht
    obtain ⟨expr, hm, -⟩ := hde _ ht
    exact hsafe expr hm
  refine ⟨trozos, rfl, fun t ht => ⟨hde _ ht, piezasDe_textos hps (hde _ ht)⟩,
    fun t ht => hde _ ht, hcrudo, harbol, fun i b hb hspecial => ?_⟩
  exact seguro_of_especial hcrudo hb hspecial

/-- The machine of a project without natives, for values that are no numbers. -/
def Evaluador.sinNumeros : Evaluador :=
  .deVm (Project.idle.env 0) ⟨fun _ _ => none, fun _ => none⟩ (fun _ => []) 9

/-- The code of `<b>{{ n }}</b>`. -/
def enNegrita : Compilador where
  nombres := [("n", "string")]
  textos := ["<b>", "</b>"]
  exprs := [primerNombre 1]
  code := [.texto 0, .escribir 0, .texto 1]
  ambito := [("n", "string")]
  sucesos := [.expresion "n" [("n", "string")] true]

/-- A value that is a tag of its own. -/
theorem page_escaped_bold :
    Escapada .nombres .sinNumeros [] "<b>\x7b\x7b n \x7d\x7d</b>" [("n", "string")]
        [.texto "<b>", .escribir false "n", .texto "</b>"] (Json.ascii "<b>&lt;i&gt;</b>") ∧
      (∀ entrada, escaparHtml entrada [] = entrada.flatMap escapado) ∧
      Function.Injective fun entrada => escaparHtml entrada [] := by
  have hps : piezasDe [] 2 "<b>\x7b\x7b n \x7d\x7d</b>" =
      some [.texto "<b>", .escribir false "n", .texto "</b>"] := by decide
  have hrun : correr .sinNumeros enNegrita 4 (inicio enNegrita [.str "<i>"] {}) =
      some (.pagina (escaparHtml (bytesOf "<i>") (bytesOf "<b>") ++ bytesOf "</b>")) := rfl
  have hpage : escaparHtml (bytesOf "<i>") (bytesOf "<b>") ++ bytesOf "</b>" =
      Json.ascii "<b>&lt;i&gt;</b>" := by
    rw [escaparHtml_eq]
    decide
  have hacaba : Acaba .sinNumeros enNegrita (inicio enNegrita [.str "<i>"] {})
      (.pagina (Json.ascii "<b>&lt;i&gt;</b>")) := acaba_iff.2 ⟨4, hpage ▸ hrun⟩
  refine page_escaped hps ?_ rfl ?_ hacaba
  · rw [compilarPlantilla, hps]
    rfl
  · intro expr h
    simp at h

end Pages

end Osodio.Odio.Template
