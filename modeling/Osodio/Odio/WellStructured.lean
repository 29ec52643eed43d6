import Osodio.Odio.Control
import Osodio.Odio.Execution
import Osodio.Odio.Nesting

/-!
# Templates that are well structured

A template that compiles without an error is drawn as the tree of its marks: nothing outside the
tables of the template is read, and of the branches of a condition the first one whose condition
holds is drawn.  The compiler itself stays inside the code unless a branch comes after an `else`.

## Main definitions

- `Instr.Cabe` — the places and indices of an instruction exist
- `BienEstructurada` — what a compilation without errors promises
- `Estructura` — the promise about a source

## Main results

- `acaba_pintar_iff` — a rendering ends as the drawing of the tree does
- `estructura_iff` — the promise is kept exactly if the blocks are of bounded depth and no branch
  comes after an `else`
- `second_else` — a second `else` of the same condition
-/

namespace Osodio.Odio.Template

open Osodio.Lib

/-! ## Places and indices -/

/-- The places of an instruction are in the code or at its end, and its indices in the tables. -/
def Instr.Cabe (o : Origen) : Instr → Prop
  | .texto a => a < o.textos
  | .escribir k | .escribirCrudo k => k < o.exprs
  | .saltarSiFalso k b => k < o.exprs ∧ b ≤ o.pos
  | .saltar b => b ≤ o.pos
  | .bucleInicio k b slot slotLoop =>
    k < o.exprs ∧ b ≤ o.pos ∧ slot < o.nombres ∧ slotLoop < o.nombres
  | .bucleSiguiente b slot slotLoop => b < o.pos ∧ slot < o.nombres ∧ slotLoop < o.nombres

/-- The places and tables only grow. -/
structure Origen.Le (o o' : Origen) : Prop where
  pos : o.pos ≤ o'.pos
  exprs : o.exprs ≤ o'.exprs
  textos : o.textos ≤ o'.textos
  nombres : o.nombres ≤ o'.nombres

namespace Origen

variable {o o' o'' : Origen}

theorem Le.refl (o : Origen) : o.Le o := ⟨le_rfl, le_rfl, le_rfl, le_rfl⟩

theorem Le.trans (h : o.Le o') (h' : o'.Le o'') : o.Le o'' :=
  ⟨h.pos.trans h'.pos, h.exprs.trans h'.exprs, h.textos.trans h'.textos,
    h.nombres.trans h'.nombres⟩

theorem le_salto (o : Origen) : o.Le o.salto := ⟨Nat.le_succ _, le_rfl, le_rfl, le_rfl⟩

theorem le_condicion (o : Origen) : o.Le o.condicion :=
  ⟨Nat.le_succ _, Nat.le_succ _, le_rfl, le_rfl⟩

theorem le_dentro (o : Origen) : o.Le o.dentro :=
  ⟨Nat.le_succ _, Nat.le_succ _, le_rfl, Nat.le_add_right _ 2⟩

end Origen

theorem Instr.Cabe.mono {o o' : Origen} {i : Instr} (h : i.Cabe o) (hle : o.Le o') :
    i.Cabe o' := by
  have hpos := hle.pos
  have hexprs := hle.exprs
  have htextos := hle.textos
  have hnombres := hle.nombres
  cases i <;> simp only [Instr.Cabe] at h ⊢ <;> omega

mutual

theorem Arbol.le_tras (a : Arbol) (o : Origen) : o.Le (a.tras o) := by
  cases a with
  | nada => exact .refl o
  | luego a b => exact (a.le_tras o).trans (b.le_tras _)
  | texto t => exact ⟨Nat.le_succ _, le_rfl, Nat.le_succ _, le_rfl⟩
  | escribir crudo expr => exact o.le_condicion
  | si cond rama resto => exact o.le_condicion.trans ((rama.le_tras _).trans (resto.le_tras _))
  | bucle var lista cuerpo =>
    exact o.le_dentro.trans ((cuerpo.le_tras _).trans (Origen.le_salto _))

theorem Ramas.le_tras (rs : Ramas) (o : Origen) : o.Le (rs.tras o) := by
  cases rs with
  | fin => exact .refl o
  | sino rama => exact o.le_salto.trans (rama.le_tras _)
  | elif cond rama resto =>
    exact (o.le_salto.trans (Origen.le_condicion _)).trans
      ((rama.le_tras _).trans (resto.le_tras _))

end

/-- The end of a condition is behind the place where its next branch begins. -/
theorem Ramas.hueco_le (rs : Ramas) (o : Origen) : o.pos + rs.hueco ≤ (rs.tras o).pos := by
  cases rs with
  | fin => exact le_rfl
  | sino rama => exact (rama.le_tras o.salto).pos
  | elif cond rama resto =>
    exact (Nat.le_succ _).trans
      (((rama.le_tras o.salto.condicion).trans (resto.le_tras _)).pos)

mutual

/-- Every instruction of a tree stays inside the tree and its tables. -/
theorem Arbol.cabe (a : Arbol) (o : Origen) : ∀ i ∈ a.code o, i.Cabe (a.tras o) := by
  cases a with
  | nada => exact nofun
  | luego a b =>
    intro i hi
    obtain hi | hi := List.mem_append.1 hi
    · exact (a.cabe o i hi).mono (b.le_tras _)
    · exact b.cabe _ i hi
  | texto t =>
    intro i hi
    obtain rfl := List.mem_singleton.1 hi
    exact Nat.lt_succ_self _
  | escribir crudo expr =>
    intro i hi
    obtain rfl := List.mem_singleton.1 hi
    cases crudo <;> exact Nat.lt_succ_self _
  | si cond rama resto =>
    have hle := (rama.le_tras o.condicion).trans (resto.le_tras (rama.tras o.condicion))
    intro i hi
    obtain rfl | hi := List.mem_cons.1 hi
    · exact ⟨hle.exprs, resto.hueco_le _⟩
    obtain hi | hi := List.mem_append.1 hi
    · exact (rama.cabe _ i hi).mono (resto.le_tras _)
    · exact resto.cabe _ le_rfl i hi
  | bucle var lista cuerpo =>
    have hle := cuerpo.le_tras o.dentro
    have hpos := hle.pos
    have hexprs := hle.exprs
    have hnombres := hle.nombres
    simp only [Origen.dentro] at hpos hexprs hnombres
    intro i hi
    obtain rfl | hi := List.mem_cons.1 hi
    · refine ⟨hexprs, le_rfl, ?_, ?_⟩ <;> simp only [Arbol.tras, Origen.salto, Origen.dentro] <;>
        omega
    obtain hi | hi := List.mem_append.1 hi
    · exact (cuerpo.cabe _ i hi).mono (Origen.le_salto _)
    · obtain rfl := List.mem_singleton.1 hi
      refine ⟨?_, ?_, ?_⟩ <;> simp only [Arbol.tras, Origen.salto, Origen.dentro] <;> omega

theorem Ramas.cabe (rs : Ramas) (o : Origen) {final : ℕ} (hfinal : final ≤ (rs.tras o).pos) :
    ∀ i ∈ rs.code o final, i.Cabe (rs.tras o) := by
  cases rs with
  | fin => exact nofun
  | sino rama =>
    intro i hi
    obtain rfl | hi := List.mem_cons.1 hi
    · exact hfinal
    · exact rama.cabe _ i hi
  | elif cond rama resto =>
    have hle := (rama.le_tras o.salto.condicion).trans
      (resto.le_tras (rama.tras o.salto.condicion))
    intro i hi
    obtain rfl | hi := List.mem_cons.1 hi
    · exact hfinal
    obtain rfl | hi := List.mem_cons.1 hi
    · exact ⟨hle.exprs, resto.hueco_le _⟩
    obtain hi | hi := List.mem_append.1 hi
    · exact (rama.cabe _ i hi).mono (resto.le_tras _)
    · exact resto.cabe _ hfinal i hi

end

/-! ## Nothing outside is read -/

/-- An action keeps the number of slots, and reads nothing outside: it fails with a message. -/
def Sano (n : ℕ) (x : Efecto Lienzo) : Prop :=
  (∀ t, x = some (.ok t) → t.valores.length = n) ∧
    ∀ d, x = some (.error d) → ∃ message, d = .error message

section Sane

variable {V : Evaluador} {p : Compilador} {s : Lienzo} {n : ℕ}

theorem Sano.none : Sano n none := ⟨nofun, nofun⟩

theorem Sano.ok (h : s.valores.length = n) : Sano n (some (.ok s)) :=
  ⟨fun t ht => by cases ht; exact h, nofun⟩

theorem Sano.error (message : String) : Sano n (some (.error (.error message))) :=
  ⟨nofun, fun d hd => by cases hd; exact ⟨message, rfl⟩⟩

theorem Sano.luego {x : Efecto Lienzo} {f : Trazo} (h : Sano n x)
    (hf : ∀ t, t.valores.length = n → Sano n (f t)) : Sano n (x.luego f) := by
  cases x with
  | none => exact .none
  | some a =>
    cases a with
    | ok t => exact hf t (h.1 t rfl)
    | error d =>
      obtain ⟨message, rfl⟩ := h.2 d rfl
      exact .error message

/-- An expression of the table is evaluated. -/
theorem sano_evaluar {k : ℕ} {f : Value × Lienzo → Efecto Lienzo} (hk : k < p.exprs.length)
    (hs : s.valores.length = n)
    (hf : ∀ v t, t.valores.length = n → Sano n (f (v, t))) :
    Sano n ((s.evaluar V p k).luego f) := by
  unfold Lienzo.evaluar
  rw [List.getElem?_eq_getElem hk]
  dsimp only
  split
  · exact hf _ _ hs
  · exact .error _
  · exact .none

theorem sano_escribir {k : ℕ} (crudo : Bool) (hk : k < p.exprs.length)
    (hs : s.valores.length = n) : Sano n (s.escribir V p crudo k) := by
  refine sano_evaluar hk hs fun v t ht => ?_
  dsimp only
  split
  · exact .ok ht
  · exact .none

theorem sano_imprimir {a : ℕ} (ha : a < p.textos.length) (hs : s.valores.length = n) :
    Sano n (s.imprimir p a) := by
  unfold Lienzo.imprimir
  rw [List.getElem?_eq_getElem ha]
  exact .ok hs

theorem sano_poner {slot slotLoop : ℕ} (item : Value) (i k : ℕ) (hslot : slot < n)
    (hloop : slotLoop < n) (hs : s.valores.length = n) :
    Sano n (some (s.poner slot slotLoop item i k)) := by
  subst hs
  unfold Lienzo.poner
  rw [if_pos ⟨hslot, hloop⟩]
  exact .ok (by simp)

theorem sano_vueltas {cuerpo : Trazo} {addr slot slotLoop : ℕ} (hslot : slot < n)
    (hloop : slotLoop < n) (hcuerpo : ∀ t, t.valores.length = n → Sano n (cuerpo t)) (k i : ℕ)
    (hs : s.valores.length = n) : Sano n (vueltas cuerpo addr slot slotLoop k i s) := by
  induction k generalizing i s with
  | zero => exact .none
  | succ k ih =>
    unfold vueltas
    split
    · exact .ok hs
    · refine (sano_poner _ _ _ hslot hloop hs).luego fun t ht => ?_
      exact (hcuerpo t ht).luego fun u hu => ih (i + 1) hu

/-- A condition, and what is drawn after it. -/
theorem sano_condicion {k : ℕ} {f g : Trazo} (hk : k < p.exprs.length)
    (hs : s.valores.length = n) (hf : ∀ t, t.valores.length = n → Sano n (f t))
    (hg : ∀ t, t.valores.length = n → Sano n (g t)) :
    Sano n ((s.evaluar V p k).luego fun r =>
      if r.1.truthy r.2.world.heap then f r.2 else g r.2) := by
  refine sano_evaluar hk hs fun v t ht => ?_
  dsimp only
  split
  · exact hf t ht
  · exact hg t ht

mutual

/-- A tree whose tables are there is drawn without reading outside of them. -/
theorem Arbol.sano (a : Arbol) (o : Origen) (N : ℕ) (s : Lienzo) (hs : s.valores.length = n)
    (hle : (a.tras o).Le ⟨p.code.length, p.exprs.length, p.textos.length, n⟩) :
    Sano n (a.pintar V p (rondaDe N) o s) := by
  cases a with
  | nada => exact .ok hs
  | luego a b =>
    exact (a.sano o N s hs ((b.le_tras _).trans hle)).luego fun t ht => b.sano _ N t ht hle
  | texto t => exact sano_imprimir hle.textos hs
  | escribir crudo expr => exact sano_escribir crudo hle.exprs hs
  | si cond rama resto =>
    have hrama := (resto.le_tras (rama.tras o.condicion)).trans hle
    refine sano_condicion ((rama.le_tras o.condicion).trans hrama).exprs hs (fun t ht => ?_)
      fun t ht => ?_
    · exact rama.sano _ N t ht hrama
    · exact resto.sano _ N t ht hle
  | bucle var lista cuerpo =>
    have hcuerpo := (Origen.le_salto _).trans hle
    have hdentro := (cuerpo.le_tras o.dentro).trans hcuerpo
    have hnombres := hdentro.nombres
    simp only [Origen.dentro] at hnombres
    refine sano_evaluar hdentro.exprs hs fun v t ht => ?_
    cases v with
    | list addr =>
      exact sano_vueltas (by omega) (by omega) (fun u hu => cuerpo.sano _ N u hu hcuerpo) N 0 ht
    | _ => exact .error _

theorem Ramas.sano (rs : Ramas) (o : Origen) (N : ℕ) (s : Lienzo) (hs : s.valores.length = n)
    (hle : (rs.tras o).Le ⟨p.code.length, p.exprs.length, p.textos.length, n⟩) :
    Sano n (rs.pintar V p (rondaDe N) o s) := by
  cases rs with
  | fin => exact .ok hs
  | sino rama => exact rama.sano _ N s hs hle
  | elif cond rama resto =>
    have hrama := (resto.le_tras (rama.tras o.salto.condicion)).trans hle
    refine sano_condicion ((rama.le_tras o.salto.condicion).trans hrama).exprs hs
      (fun t ht => ?_) fun t ht => ?_
    · exact rama.sano _ N t ht hrama
    · exact resto.sano _ N t ht hle

end

end Sane

/-! ## Whole renderings -/

/-- How a rendering ends whose page has been drawn. -/
def Desenlace.de : Except Desenlace Lienzo → Desenlace
  | .ok s => .pagina s.salida
  | .error d => d

section Whole

variable {V : Evaluador} {p : Compilador} {a : Arbol} {o : Origen} {s : Lienzo} {d : Desenlace}

/-- Behind the code of the tree, which is all the code there is, the page is complete. -/
theorem Ley.Sale.acaba {L : Ley V p} {e : Estado} {r : Except Desenlace Lienzo}
    (h : L.Sale e [] (a.tras o).pos r) (hcode : p.code = a.code o) (ho : o.pos = 0) :
    Acaba V p e (.de r) := by
  cases r with
  | error d => exact h
  | ok t =>
    have hfin : p.code[(a.tras o).pos]? = none := by
      rw [hcode, a.length_code, ho, Nat.zero_add]
      exact List.getElem?_length _
    exact ⟨_, h.1, by simp [paso, hfin, Desenlace.de]⟩

/-- **A rendering ends as the drawing of the tree does.** -/
theorem acaba_pintar_iff (hcode : p.code = a.code o) (ho : o.pos = 0) :
    Acaba V p ⟨0, [], s⟩ d ↔
      ∃ N r, a.pintar V p (rondaDe N) o s = some r ∧ Desenlace.de r = d := by
  have hT : Tramo p.code o.pos (a.code o) := by
    rw [hcode, ho]
    exact .refl _
  rw [← ho]
  have hpinta {N : ℕ} {r : Except Desenlace Lienzo}
      (hr : a.pintar V p (rondaDe N) o s = some r) : Acaba V p ⟨o.pos, [], s⟩ (.de r) :=
    (a.llega (rondaDe_fiel (.ninguna V p) N) o [] s r hT (fun _ _ => trivial) hr).acaba hcode ho
  constructor
  · intro h
    obtain ⟨n, hn⟩ := acaba_iff.1 h
    obtain ⟨r, hr⟩ := Option.isSome_iff_exists.1 (a.isSome o [] s n hT le_rfl hn)
    exact ⟨n, r, hr, (hpinta hr).unique h⟩
  · rintro ⟨N, r, hr, rfl⟩
    exact hpinta hr

end Whole

/-! ## Compilations without errors -/

/-- What a compilation without errors promises: the places and indices of the instructions exist,
    the tables are those of the marks, and the rendering is the drawing of a tree of the marks,
    which reads nothing outside. -/
structure BienEstructurada (T : Taller) (datos : Nombres) (ps : List Pieza) (c : Compilador) :
    Prop where
  instrucciones : ∀ i ∈ c.code, i.Cabe c.origen
  expresiones : List.Forall₂ (Expresa T) (ps.flatMap Pieza.expresiones) c.exprs
  textos : c.textos = ps.flatMap Pieza.textos
  arbol : ∃ a : Arbol, a.piezas = ps ∧ ∀ V valores w d, Acaba V c (inicio c valores w) d ↔
    ∃ N r, a.pintar V c (rondaDe N) ⟨0, 0, 0, datos.length⟩ (inicio c valores w).lienzo = some r ∧
      Desenlace.de r = d
  dentro : ∀ V valores w, ¬ Acaba V c (inicio c valores w) .fuera

section Compilation

variable {T : Taller} {datos : Nombres} {ps : List Pieza} {c : Compilador}
  {ficheros : List (String × String)} {fuente : String}

/-- Marks in which no branch comes after an `else`, which leave no error and nothing open, are
    those of a tree. -/
theorem exists_arbol (hC : (compilador T datos).Meets Ordenado ps)
    (he : (ps.foldl (Compilador.pieza T) (compilador T datos).init).errores = [])
    (ha : (ps.foldl (Compilador.pieza T) (compilador T datos).init).abiertos = []) :
    ∃ a : Arbol, a.piezas = ps := by
  have h := Abre.foldl (c := (compilador T datos).init) (.nada .nada) hC he
  rw [ha] at h
  generalize hq : Arbol.nada.piezas ++ ps = qs at h
  cases h with
  | nada a => exact ⟨a, hq.symm⟩

/-- The drawing of a tree that has been compiled fails with a message. -/
theorem Arbol.pintar_error (a : Arbol) {V : Evaluador} {valores : List Value} {w : World} {N : ℕ}
    {d : Desenlace} (ho : c.origen = a.tras ⟨0, 0, 0, datos.length⟩)
    (hr : a.pintar V c (rondaDe N) ⟨0, 0, 0, datos.length⟩ (inicio c valores w).lienzo =
      some (.error d)) : ∃ message, d = .error message := by
  have hlen : (inicio c valores w).lienzo.valores.length = c.nombres.length :=
    length_resizeLocals _ _
  exact (a.sano _ N _ hlen (by rw [← ho]; exact .refl _)).2 d hr

/-- What the marks of a tree leave keeps the promise. -/
theorem Arbol.bienEstructurada (a : Arbol)
    (he : (a.piezas.foldl (Compilador.pieza T) (compilador T datos).init).errores = []) :
    BienEstructurada T datos a.piezas
      (a.piezas.foldl (Compilador.pieza T) (compilador T datos).init) := by
  have hc := a.compila _ he
  obtain ⟨⟨chunks, hchunks, hexpresa⟩, htextos⟩ := foldl_tablas he
  generalize a.piezas.foldl (Compilador.pieza T) (compilador T datos).init = c at *
  have hcode : c.code = a.code ⟨0, 0, 0, datos.length⟩ := hc.code
  have horigen : c.origen = a.tras ⟨0, 0, 0, datos.length⟩ := hc.origen
  have hacaba (V : Evaluador) (valores : List Value) (w : World) (d : Desenlace) :=
    acaba_pintar_iff (V := V) (p := c) (s := (inicio c valores w).lienzo) (d := d) hcode rfl
  refine ⟨fun i hi => ?_, ?_, htextos, ⟨a, rfl, hacaba⟩, fun V valores w h => ?_⟩
  · rw [horigen]
    exact a.cabe _ i (hcode ▸ hi)
  · rw [hchunks]
    exact hexpresa
  · obtain ⟨N, r, hr, hd⟩ := (hacaba V valores w .fuera).1 h
    cases r with
    | ok t => cases hd
    | error d =>
      obtain rfl : d = .fuera := hd
      obtain ⟨message, hm⟩ := a.pintar_error horigen hr
      cases hm

/-- A compilation without errors leaves nothing open. -/
theorem compilarPlantilla_ok {fuel : ℕ} (hps : piezasDe ficheros fuel fuente = some ps)
    (hc : compilarPlantilla T ficheros fuel fuente datos = some c) (he : c.errores = []) :
    c = ps.foldl (Compilador.pieza T) (compilador T datos).init ∧ c.abiertos = [] := by
  obtain ⟨ps', hps', hc⟩ := Option.bind_eq_some_iff.1 hc
  obtain rfl : ps = ps' := Option.some.inj (hps.symm.trans hps')
  obtain ⟨c', hrun, hc⟩ := Option.bind_eq_some_iff.1 hc
  obtain rfl := Option.some.inj (hrun.symm.trans (run_eq_foldl T datos ps))
  generalize ps.foldl (Compilador.pieza T) (compilador T datos).init = c' at hc
  cases hab : c'.abiertos with
  | nil =>
    rw [hab] at hc
    obtain rfl : c' = c := Option.some.inj hc
    exact ⟨rfl, hab⟩
  | cons ab resto =>
    rw [hab] at hc
    cases ab <;> obtain rfl := Option.some.inj hc <;> cases he

/-- The promise about a source: its compilation returns and stays inside the code, and one without
    errors leaves code that is well structured. -/
def Estructura (T : Taller) (ficheros : List (String × String)) (fuente : String)
    (datos : Nombres) : Prop :=
  ∃ fuel ps, piezasDe ficheros fuel fuente = some ps ∧ (compilador T datos).Meets Dentro ps ∧
    ∀ c, compilarPlantilla T ficheros fuel fuente datos = some c → c.errores = [] →
      BienEstructurada T datos ps c

/-- **The promise is kept if and only if** the depth of the blocks is bounded and no branch comes
    after an `else`. -/
theorem estructura_iff (T : Taller) (ficheros : List (String × String)) (fuente : String)
    (datos : Nombres) : Estructura T ficheros fuente datos ↔
      (∃ B, ∀ q, Alcanza ficheros fuente q → q.2 ≤ B) ∧
      ∀ fuel ps, piezasDe ficheros fuel fuente = some ps →
        (compilador T datos).Meets Ordenado ps := by
  have hdentro (ps : List Pieza) : (compilador T datos).Meets Dentro ps ↔
      (compilador T datos).Meets Ordenado ps := meets_dentro_iff (by rintro ab ⟨⟩) ps
  rw [← exists_piezasDe_iff]
  constructor
  · rintro ⟨fuel, ps, hps, hd, -⟩
    refine ⟨⟨fuel, ps, hps⟩, fun fuel' ps' hps' => ?_⟩
    rw [← piezasDe_unique hps hps']
    exact (hdentro ps).1 hd
  · rintro ⟨⟨fuel, ps, hps⟩, ho⟩
    have ho := ho fuel ps hps
    refine ⟨fuel, ps, hps, (hdentro ps).2 ho, fun c hc he => ?_⟩
    obtain ⟨rfl, hab⟩ := compilarPlantilla_ok hps hc he
    obtain ⟨a, rfl⟩ := exists_arbol ho he hab
    exact a.bienEstructurada he

/-- The second `else` of a condition writes the target of a jump that is not there. -/
theorem second_else :
    ¬ Estructura .nombres [] ("\x7b% if n %\x7d\x7b% else %\x7d" ++
      "\x7b% else %\x7d\x7b% endif %\x7d") [("n", "int")] := by
  rintro ⟨fuel, ps, hps, hd, -⟩
  have hps' : piezasDe [] 5 ("\x7b% if n %\x7d\x7b% else %\x7d" ++
      "\x7b% else %\x7d\x7b% endif %\x7d") = some [.si "n", .sino, .sino, .endif] := by decide
  obtain rfl := piezasDe_unique hps hps'
  obtain ⟨pos, h, -⟩ := ((hd.2 _ rfl).2 _ rfl).1 (none, 3) (List.mem_singleton_self _)
  cases h

end Compilation

end Osodio.Odio.Template
