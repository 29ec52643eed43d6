import Osodio.Odio.Template

/-!
# The scope of a loop in a template

A loop gives back the names that it hid, and keeps its own two in sight.  So the
first loop that is closed changes what the names after it mean, and as long as none
is, an expression sees exactly the names of its scope.

## Main definitions

- `visible` — what a name means in a table
- `Compilador.Bien` — what is promised of the compilation so far
- `SinCierre` — the mark does not close a loop

## Main results

- `bien_iff_sinCierre` — the promise is kept exactly until a loop is closed
-/

namespace Osodio.Odio.Template

open Osodio.Lib

/-! ## What is promised -/

/-- The slot and the type of a name. -/
def visible (nombre : String) (nombres : Nombres) : Option (ℕ × String) :=
  (ranura nombre nombres).bind fun i => (nombres[i]?).map fun n => (i, n.2)

/-- Not one of the names of the compiler, which begin with a blank. -/
def Identificador (nombre : String) : Prop := nombre.toList.head? ≠ some ' '

instance (nombre : String) : Decidable (Identificador nombre) :=
  inferInstanceAs (Decidable (¬ _))

/-- A closed loop leaves the names as they were before it, and an expression that is
    valid in its scope compiles. -/
def Suceso.Bien (T : Taller) : Suceso → Prop
  | .cierre antes despues =>
    ∀ nombre, Identificador nombre → visible nombre despues = visible nombre antes
  | .expresion texto ambito compilada =>
    (Template.expresion T texto ambito).isOk = true → compilada = true

/-- Nothing has gone wrong so far. -/
def Compilador.Bien (T : Taller) (c : Compilador) : Prop := ∀ s ∈ c.sucesos, s.Bien T

/-- The mark does not close a loop. -/
def SinCierre (c : Compilador) (p : Pieza) : Prop :=
  ¬ (p = .endfor ∧ ∃ inicio tapados antes ambito resto,
    c.abiertos = .bucle inicio tapados antes ambito :: resto)

/-- What an open loop says of the table of names: it has two slots of its own, the
    names it hides are older, and the last slot is the `loop` of some loop. -/
def Abierto.Dentro (nombres : Nombres) : Abierto → Prop
  | .si .. => True
  | .bucle _ tapados antes _ =>
    antes.length + 2 ≤ nombres.length ∧ (∀ p ∈ tapados, p.1 < antes.length) ∧
      nombres[nombres.length - 1]? = some ("loop", "")

/-- The invariant until a loop is closed: the table is the one of the scopes. -/
structure Inv (T : Taller) (c : Compilador) : Prop where
  ambito : c.nombres = c.ambito
  abiertos : ∀ a ∈ c.abiertos, a.Dentro c.nombres
  bien : c.Bien T

/-! ## Tables of names -/

section Nombres

variable {nombres : Nombres} {nombre : String}

theorem ranura_lt {i : ℕ} (h : ranura nombre nombres = some i) : i < nombres.length := by
  unfold ranura at h
  obtain ⟨k, hk, rfl⟩ := Option.map_eq_some_iff.1 h
  have hlt := (List.findIdx?_eq_some_iff_getElem.1 hk).1
  rw [List.length_reverse] at hlt
  omega

/-- The last slot is the one that its name means. -/
theorem ranura_last {tipo : String}
    (h : nombres[nombres.length - 1]? = some (nombre, tipo)) :
    ranura nombre nombres = some (nombres.length - 1) := by
  obtain rfl | ⟨l, x, rfl⟩ := List.eq_nil_or_concat nombres
  · cases h
  · simp only [List.concat_eq_append, List.length_append, List.length_cons, List.length_nil,
      Nat.zero_add, Nat.add_sub_cancel, List.getElem?_concat_length, Option.some.injEq] at h
    subst h
    simp [ranura, List.findIdx?_cons]

theorem visible_last {tipo : String}
    (h : nombres[nombres.length - 1]? = some (nombre, tipo)) :
    visible nombre nombres = some (nombres.length - 1, tipo) := by
  unfold visible
  rw [ranura_last h, Option.bind_some, h]
  rfl

theorem visible_lt {i : ℕ} {tipo : String} (h : visible nombre nombres = some (i, tipo)) :
    i < nombres.length := by
  unfold visible at h
  obtain ⟨j, hj, h⟩ := Option.bind_eq_some_iff.1 h
  obtain ⟨n, -, h⟩ := Option.map_eq_some_iff.1 h
  cases h
  exact ranura_lt hj

@[simp] theorem length_renombrar (i : ℕ) : (renombrar nombres i nombre).length = nombres.length :=
  List.length_modify ..

theorem tapar_length : (tapar nombre nombres).1.length = nombres.length := by
  unfold tapar
  split
  · exact length_renombrar _
  · rfl

theorem tapar_tapados : ∀ p ∈ (tapar nombre nombres).2, p.1 < nombres.length := by
  unfold tapar
  split
  · rename_i i hi
    intro p hp
    obtain rfl := List.mem_singleton.1 hp
    exact ranura_lt hi
  · nofun

/-- Names that come back leave the later slots alone. -/
theorem destapar_last {tapados : List (ℕ × String)} {n : ℕ}
    (ht : ∀ p ∈ tapados, p.1 < n) {k : ℕ} (hk : n ≤ k) :
    (destapar nombres tapados)[k]? = nombres[k]? ∧
      (destapar nombres tapados).length = nombres.length := by
  unfold destapar
  induction tapados generalizing nombres with
  | nil => exact ⟨rfl, rfl⟩
  | cons p tapados ih =>
    rw [List.foldl_cons]
    obtain ⟨h, hlen⟩ := @ih (renombrar nombres p.1 p.2)
      fun q hq => ht q (List.mem_cons_of_mem p hq)
    have hp := ht p (List.mem_cons_self ..)
    refine ⟨h.trans ?_, hlen.trans (length_renombrar _)⟩
    exact List.getElem?_modify_ne _ _ (by omega)

/-- The table in a loop. -/
theorem entrar_spec (var : String) (nombres : Nombres) :
    (entrar var nombres).1.length = nombres.length + 2 ∧
      (entrar var nombres).1[nombres.length + 1]? = some ("loop", "") ∧
      ∀ p ∈ (entrar var nombres).2, p.1 < nombres.length := by
  have h₁ : (tapar var nombres).1.length = nombres.length := tapar_length
  have h₂ : (tapar "loop" (tapar var nombres).1).1.length = nombres.length :=
    tapar_length.trans h₁
  unfold entrar
  refine ⟨by simp [h₂], ?_, fun p hp => ?_⟩
  · rw [List.getElem?_append_right (by omega), h₂, Nat.add_sub_cancel_left]
    rfl
  · rcases List.mem_append.1 hp with hp | hp
    · exact tapar_tapados p hp
    · exact h₁ ▸ tapar_tapados p hp

end Nombres

/-! ## One mark -/

section Steps

variable {T : Taller} {c : Compilador}

theorem inv_init (T : Taller) (datos : Nombres) : Inv T (compilador T datos).init :=
  ⟨rfl, nofun, nofun⟩

/-- Steps that touch neither the names nor the history, and open no loop. -/
theorem Inv.of_eq {c' : Compilador} (hc : Inv T c) (hn : c'.nombres = c.nombres)
    (ha : c'.ambito = c.ambito) (hs : c'.sucesos = c.sucesos)
    (hab : ∀ a ∈ c'.abiertos, a ∈ c.abiertos ∨ ∃ parches inicio, a = .si parches inicio) :
    Inv T c' where
  ambito := by rw [hn, ha, hc.ambito]
  abiertos a h := by
    rw [hn]
    rcases hab a h with h | ⟨parches, inicio, rfl⟩
    · exact hc.abiertos a h
    · trivial
  bien := by
    unfold Compilador.Bien
    rw [hs]
    exact hc.bien

/-- An expression that compiles keeps the promise, and so does one that does not, as
    it is not valid in its scope. -/
theorem Inv.conExpresion (hc : Inv T c) {texto : String}
    {sigue : ℕ → Compilador → Compilador}
    (hsigue : ∀ c', Inv T c' → c'.abiertos = c.abiertos → ∀ k, Inv T (sigue k c')) :
    Inv T (c.conExpresion T texto sigue) := by
  unfold Compilador.conExpresion
  split
  · rename_i chunk _
    have hc' : Inv T { c with
        exprs := c.exprs ++ [chunk]
        sucesos := .expresion texto c.ambito true :: c.sucesos } := by
      refine ⟨hc.ambito, hc.abiertos, fun s hs => ?_⟩
      rcases List.mem_cons.1 hs with rfl | hs
      · exact fun _ => rfl
      · exact hc.bien s hs
    exact hsigue _ hc' rfl _
  · rename_i message he
    refine ⟨hc.ambito, hc.abiertos, fun s hs => ?_⟩
    rcases List.mem_cons.1 hs with rfl | hs
    · intro hok
      rw [← hc.ambito, he] at hok
      cases hok
    · exact hc.bien s hs

theorem Inv.otraRama (hc : Inv T c) (inicio : Option ℕ) : Inv T (c.otraRama inicio) := by
  unfold Compilador.otraRama
  cases inicio <;> exact hc.of_eq rfl rfl rfl fun a h => .inl h

theorem otraRama_abiertos (inicio : Option ℕ) : (c.otraRama inicio).abiertos = c.abiertos := by
  unfold Compilador.otraRama
  cases inicio <;> rfl

theorem Inv.parchear (hc : Inv T c) (posiciones : List ℕ) :
    Inv T (posiciones.foldl Compilador.parchear c) := by
  induction posiciones generalizing c with
  | nil => exact hc
  | cons pos posiciones ih => exact ih (hc.of_eq rfl rfl rfl fun a h => .inl h)

/-- A loop that is opened has its two names in the last slots. -/
theorem Inv.bucle (hc : Inv T c) (var : String) (k : ℕ) :
    Inv T ({ c with
      nombres := (entrar var c.nombres).1
      ambito := (entrar var c.ambito).1
      abiertos := .bucle c.code.length (entrar var c.nombres).2 c.nombres c.ambito ::
        c.abiertos }.emitir (.bucleInicio k 0 c.nombres.length (c.nombres.length + 1))) := by
  obtain ⟨hlen, hlast, ht⟩ := entrar_spec var c.nombres
  have hlast : (entrar var c.nombres).1[(entrar var c.nombres).1.length - 1]? =
      some ("loop", "") := by
    rw [hlen]
    exact hlast
  refine ⟨congrArg (fun n => (entrar var n).1) hc.ambito, fun a ha => ?_, hc.bien⟩
  rcases List.mem_cons.1 ha with rfl | ha
  · exact ⟨hlen.ge, ht, hlast⟩
  · have hd := hc.abiertos a ha
    cases a with
    | si => trivial
    | bucle inicio tapados antes ambito => exact ⟨hd.1.trans (hlen ▸ Nat.le_add_right _ 2), hd.2.1, hlast⟩

/-- **Step lemma**: a mark that closes no loop keeps the invariant. -/
theorem Inv.pieza (hc : Inv T c) {p : Pieza} (hp : SinCierre c p) : Inv T (c.pieza T p) := by
  cases p with
  | texto t => exact hc.of_eq rfl rfl rfl fun a h => .inl h
  | error message => exact hc.of_eq rfl rfl rfl fun a h => .inl h
  | escribir crudo texto =>
    unfold Compilador.pieza
    refine hc.conExpresion fun c' hc' _ k => ?_
    exact hc'.of_eq rfl rfl rfl fun a h => .inl h
  | si texto =>
    unfold Compilador.pieza
    refine hc.conExpresion fun c' hc' _ k => hc'.of_eq rfl rfl rfl fun a h => ?_
    rcases List.mem_cons.1 h with rfl | h
    · exact .inr ⟨_, _, rfl⟩
    · exact .inl h
  | elif texto =>
    simp only [Compilador.pieza]
    split
    · rename_i parches inicio resto hab
      have hrama : Inv T { c.otraRama inicio with
          abiertos := .si (parches ++ [c.code.length]) inicio :: resto } := by
        refine (hc.otraRama inicio).of_eq rfl rfl rfl fun a h => ?_
        rcases List.mem_cons.1 h with rfl | h
        · exact .inr ⟨_, _, rfl⟩
        · refine .inl ?_
          rw [otraRama_abiertos, hab]
          exact List.mem_cons_of_mem _ h
      refine hrama.conExpresion fun c' hc' heq k => hc'.of_eq rfl rfl rfl fun a h => ?_
      rcases List.mem_cons.1 h with rfl | h
      · exact .inr ⟨_, _, rfl⟩
      · refine .inl ?_
        rw [heq]
        exact List.mem_cons_of_mem _ h
    · exact hc.of_eq rfl rfl rfl fun a h => .inl h
  | sino =>
    simp only [Compilador.pieza]
    split
    · rename_i parches inicio resto hab
      refine (hc.otraRama inicio).of_eq rfl rfl rfl fun a h => ?_
      rcases List.mem_cons.1 h with rfl | h
      · exact .inr ⟨_, _, rfl⟩
      · refine .inl ?_
        rw [otraRama_abiertos, hab]
        exact List.mem_cons_of_mem _ h
    · exact hc.of_eq rfl rfl rfl fun a h => .inl h
  | endif =>
    simp only [Compilador.pieza]
    split
    · rename_i parches inicio resto hab
      refine Inv.parchear ?_ _
      refine hc.of_eq rfl rfl rfl fun a h => .inl ?_
      rw [hab]
      exact List.mem_cons_of_mem _ h
    · exact hc.of_eq rfl rfl rfl fun a h => .inl h
  | bucle var lista =>
    unfold Compilador.pieza
    exact hc.conExpresion fun c' hc' _ k => hc'.bucle var k
  | endfor =>
    simp only [Compilador.pieza]
    split
    · rename_i inicio tapados antes ambito resto hab
      exact absurd ⟨rfl, inicio, tapados, antes, ambito, resto, hab⟩ hp
    · exact hc.of_eq rfl rfl rfl fun a h => .inl h

/-- A loop that is closed breaks the promise: its `loop` stays in sight. -/
theorem not_bien_of_cierre (hc : Inv T c) {p : Pieza} (hp : ¬ SinCierre c p) :
    ¬ (c.pieza T p).Bien T := by
  obtain ⟨rfl, inicio, tapados, antes, ambito, resto, hab⟩ := not_not.1 hp
  obtain ⟨hlen, ht, hlast⟩ := hc.abiertos (.bucle inicio tapados antes ambito) (by simp [hab])
  intro hb
  have hs : Suceso.cierre antes (destapar c.nombres tapados) ∈ (c.pieza T .endfor).sucesos := by
    simp only [Compilador.pieza, hab, Compilador.parchear, Compilador.emitir]
    exact List.mem_cons_self ..
  have hvis := hb _ hs "loop" (by decide)
  have hle : antes.length ≤ c.nombres.length - 1 := by omega
  obtain ⟨hd, hdl⟩ := destapar_last ht hle
  rw [visible_last (hdl ▸ hd.trans hlast)] at hvis
  have hlt := visible_lt hvis.symm
  rw [hdl] at hlt
  omega

end Steps

/-! ## Runs -/

/-- In every state of the compilation of any sequence of marks the promise holds, if
    and only if no mark closes a loop. -/
theorem bien_iff_sinCierre (T : Taller) (datos : Nombres) (piezas : List Pieza) (c : Compilador)
    (hr : (compilador T datos).run piezas = some c) :
    (∀ pre t, pre <+: piezas → (compilador T datos).run pre = some t → t.Bien T) ↔
      (compilador T datos).Meets SinCierre piezas :=
  (compilador T datos).forall_prefix_iff_meets (inv_init T datos) (fun _ hc => hc.bien)
    (fun _ _ _ hc hp h => by
      cases h
      exact hc.pieza hp)
    (fun _ _ _ hc hp h => by
      cases h
      exact not_bien_of_cierre hc hp) hr

/-- A parser that knows the names `xs`, `x` and `n`. -/
def Taller.nombres : Taller where
  parse s := if s ∈ ["xs", "x", "n"] then .ok (.ident {} s) else .error "expresion invalida"
  emitter := {}
  fuel := 1

/-- A template without loops. -/
theorem bien_iff_sinCierre_if :
    (compilador .nombres [("n", "int")]).Meets SinCierre
        [.si "n", .escribir false "n", .endif] ∧
      ∀ pre t, pre <+: [.si "n", .escribir false "n", .endif] →
        (compilador .nombres [("n", "int")]).run pre = some t → t.Bien .nombres := by
  have h : (compilador .nombres [("n", "int")]).Meets SinCierre
      [.si "n", .escribir false "n", .endif] :=
    .cons (fun h => nomatch h.1) rfl <| .cons (fun h => nomatch h.1) rfl <|
      .cons (fun h => by obtain ⟨-, _, _, _, _, _, h⟩ := h; cases h) rfl trivial
  exact ⟨h, (bien_iff_sinCierre .nombres [("n", "int")]
    [.si "n", .escribir false "n", .endif] _ rfl).2 h⟩

/-- The chunk of an expression that is the first name of the table. -/
def primerNombre (n : ℕ) : Chunk where
  code := [⟨.loadLocal, 0, {}⟩, ⟨.ret, 0, {}⟩]
  numLocals := n

/-- The compiler after `{% for x in xs %}{% endfor %}`. -/
def trasBucle : Compilador where
  nombres := [("xs", "List"), ("n", "int"), ("x", ""), ("loop", "")]
  ambito := [("xs", "List"), ("n", "int"), (" tapado2", ""), (" tapado3", "")]
  exprs := [primerNombre 2]
  code := [.bucleInicio 0 2 2 3, .bucleSiguiente 1 2 3]
  sucesos := [
    .cierre [("xs", "List"), ("n", "int")] [("xs", "List"), ("n", "int"), ("x", ""), ("loop", "")],
    .expresion "xs" [("xs", "List"), ("n", "int")] true]

/-- The compiler after the second one. -/
def trasDosBucles : Compilador where
  nombres := [("xs", "List"), ("n", "int"), ("x", ""), ("loop", ""), ("x", ""), ("loop", "")]
  ambito := [("xs", "List"), ("n", "int"), (" tapado2", ""), (" tapado3", ""),
    (" tapado4", ""), (" tapado5", "")]
  exprs := [primerNombre 2, primerNombre 4]
  code := [.bucleInicio 0 2 2 3, .bucleSiguiente 1 2 3, .bucleInicio 1 4 4 5,
    .bucleSiguiente 3 4 5]
  sucesos := .cierre trasBucle.nombres
      [("xs", "List"), ("n", "int"), ("x", ""), ("loop", ""), ("x", ""), ("loop", "")] ::
    .expresion "xs" trasBucle.ambito true :: trasBucle.sucesos

/-- Two loops that follow each other leave their names in sight, twice, and no
    expression after them compiles. -/
theorem two_loops_do_not_compile :
    piezasDe [] 9 ("\x7b% for x in xs %\x7d\x7b% endfor %\x7d\x7b% for x in xs %\x7d" ++
        "\x7b% endfor %\x7d\x7b\x7b n \x7d\x7d") =
      some ([.bucle "x" "xs", .endfor, .bucle "x" "xs", .endfor] ++ [.escribir false "n"]) ∧
    ∃ c, (compilador .nombres [("xs", "List"), ("n", "int")]).run
        ([.bucle "x" "xs", .endfor, .bucle "x" "xs", .endfor] ++ [.escribir false "n"]) = some c ∧
      c.errores = ["en la expresion de la plantilla: 'x' ya esta declarada en este ambito"] ∧
      ¬ c.Bien .nombres := by
  have h₁ : (compilador .nombres [("xs", "List"), ("n", "int")]).run [.bucle "x" "xs", .endfor] =
    some trasBucle := rfl
  have h₂ : (compilador .nombres [("xs", "List"), ("n", "int")]).runFrom trasBucle
    [.bucle "x" "xs", .endfor] = some trasDosBucles := rfl
  refine ⟨by decide, trasDosBucles.pieza .nombres (.escribir false "n"),
    (System.runFrom_concat _).2 ⟨trasDosBucles, ?_, rfl⟩, by decide, fun h => ?_⟩
  · have h := (compilador .nombres [("xs", "List"), ("n", "int")]).runFrom_append
      (compilador .nombres [("xs", "List"), ("n", "int")]).init [.bucle "x" "xs", .endfor]
      [.bucle "x" "xs", .endfor]
    exact h.trans ((congrArg (Option.bind · _) h₁).trans h₂)
  · have hn := h (.expresion "n" trasDosBucles.ambito false) (List.mem_cons_self ..)
      (by decide +kernel)
    cases hn

end Osodio.Odio.Template
