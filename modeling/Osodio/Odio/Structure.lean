import Mathlib.Data.List.Forall2
import Osodio.Odio.Scoping

/-!
# The code of a template as a tree

A template that compiles is a tree of texts, expressions, conditions and loops.  Its code is that
of the tree: the jumps go where a branch or a loop ends, and each index is that of the next free
place in its table.

## Main definitions

- `Arbol`, `Arbol.piezas`, `Arbol.code` — a tree, its marks and its code
- `Abre` — what the marks so far have opened
- `Compilador.toca` — the elements of the code that a mark reads or writes
- `Ordenado` — no branch comes after an `else`

## Main results

- `pieza_avance` — what a mark can do that leaves no error
- `Abre.foldl` — marks that compile are those of a tree, and of the trees that are still open
- `Arbol.compila` — what a tree compiles to
- `dentro_iff` — a mark stays inside the code, unless a branch comes after an `else`
-/

namespace Osodio.Odio.Template

open Osodio.Lib

/-! ## Trees -/

mutual

/-- A part of a template. -/
inductive Arbol where
  | nada
  | luego (a b : Arbol)
  | texto (t : String)
  | escribir (crudo : Bool) (expr : String)
  | si (cond : String) (rama : Arbol) (resto : Ramas)
  | bucle (var lista : String) (cuerpo : Arbol)

/-- The branches after the first one. -/
inductive Ramas where
  | fin
  | sino (rama : Arbol)
  | elif (cond : String) (rama : Arbol) (resto : Ramas)

end

mutual

/-- The marks of a tree. -/
def Arbol.piezas : Arbol → List Pieza
  | .nada => []
  | .luego a b => a.piezas ++ b.piezas
  | .texto t => [.texto t]
  | .escribir crudo expr => [.escribir crudo expr]
  | .si cond rama resto => .si cond :: (rama.piezas ++ (resto.piezas ++ [.endif]))
  | .bucle var lista cuerpo => .bucle var lista :: (cuerpo.piezas ++ [.endfor])

def Ramas.piezas : Ramas → List Pieza
  | .fin => []
  | .sino rama => .sino :: rama.piezas
  | .elif cond rama resto => .elif cond :: (rama.piezas ++ resto.piezas)

end

/-! ## The code of a tree -/

/-- The next free place in the code and in each of the tables. -/
structure Origen where
  pos : ℕ
  exprs : ℕ
  textos : ℕ
  nombres : ℕ
  deriving DecidableEq, Repr

namespace Origen

/-- Behind a condition. -/
def condicion (o : Origen) : Origen := { o with pos := o.pos + 1, exprs := o.exprs + 1 }

/-- Behind a jump. -/
def salto (o : Origen) : Origen := { o with pos := o.pos + 1 }

/-- In a loop. -/
def dentro (o : Origen) : Origen :=
  { o with pos := o.pos + 1, exprs := o.exprs + 1, nombres := o.nombres + 2 }

/-- Behind a text. -/
def conTexto (o : Origen) : Origen := { o with pos := o.pos + 1, textos := o.textos + 1 }

end Origen

mutual

/-- What is free behind a tree. -/
def Arbol.tras : Arbol → Origen → Origen
  | .nada, o => o
  | .luego a b, o => b.tras (a.tras o)
  | .texto _, o => o.conTexto
  | .escribir _ _, o => o.condicion
  | .si _ rama resto, o => resto.tras (rama.tras o.condicion)
  | .bucle _ _ cuerpo, o => (cuerpo.tras o.dentro).salto

def Ramas.tras : Ramas → Origen → Origen
  | .fin, o => o
  | .sino rama, o => rama.tras o.salto
  | .elif _ rama resto, o => resto.tras (rama.tras o.salto.condicion)

end

/-- Between two branches there is the jump to the end. -/
def Ramas.hueco : Ramas → ℕ
  | .fin => 0
  | _ => 1

mutual

/-- The code of a tree. -/
def Arbol.code : Arbol → Origen → List Instr
  | .nada, _ => []
  | .luego a b, o => a.code o ++ b.code (a.tras o)
  | .texto _, o => [.texto o.textos]
  | .escribir crudo _, o => [if crudo then .escribirCrudo o.exprs else .escribir o.exprs]
  | .si _ rama resto, o =>
    let fin := rama.tras o.condicion
    .saltarSiFalso o.exprs (fin.pos + resto.hueco) ::
      (rama.code o.condicion ++ resto.code fin (resto.tras fin).pos)
  | .bucle _ _ cuerpo, o =>
    .bucleInicio o.exprs ((cuerpo.tras o.dentro).pos + 1) o.nombres (o.nombres + 1) ::
      (cuerpo.code o.dentro ++ [.bucleSiguiente (o.pos + 1) o.nombres (o.nombres + 1)])

/-- The code of the branches after the first one; `final` is where the condition ends. -/
def Ramas.code : Ramas → Origen → ℕ → List Instr
  | .fin, _, _ => []
  | .sino rama, o, final => .saltar final :: rama.code o.salto
  | .elif _ rama resto, o, final =>
    let fin := rama.tras o.salto.condicion
    .saltar final :: .saltarSiFalso o.exprs (fin.pos + resto.hueco) ::
      (rama.code o.salto.condicion ++ resto.code fin final)

end

mutual

theorem Arbol.length_code (a : Arbol) (o : Origen) :
    (a.tras o).pos = o.pos + (a.code o).length := by
  cases a with
  | nada => rfl
  | luego a b =>
    rw [Arbol.tras, Arbol.code, List.length_append, b.length_code, a.length_code]
    omega
  | texto t => rfl
  | escribir crudo expr => rfl
  | si cond rama resto =>
    have hr := rama.length_code o.condicion
    have hrs := resto.length_code (rama.tras o.condicion)
      (resto.tras (rama.tras o.condicion)).pos
    rw [Arbol.tras, hrs, hr]
    simp only [Arbol.code, Origen.condicion, List.length_cons, List.length_append]
    omega
  | bucle var lista cuerpo =>
    have hc := cuerpo.length_code o.dentro
    simp only [Arbol.tras, Arbol.code, Origen.salto, hc, List.length_cons, List.length_append,
      List.length_nil]
    simp only [Origen.dentro]
    omega

theorem Ramas.length_code (rs : Ramas) (o : Origen) (final : ℕ) :
    (rs.tras o).pos = o.pos + (rs.code o final).length := by
  cases rs with
  | fin => rfl
  | sino rama =>
    have hr := rama.length_code o.salto
    rw [Ramas.tras, hr]
    simp only [Ramas.code, Origen.salto, List.length_cons]
    omega
  | elif cond rama resto =>
    have hr := rama.length_code o.salto.condicion
    have hrs := resto.length_code (rama.tras o.salto.condicion) final
    rw [Ramas.tras, hrs, hr]
    simp only [Ramas.code, Origen.salto, Origen.condicion, List.length_cons, List.length_append]
    omega

end

/-! ## Marks that are those of a tree -/

/-- Marks that have opened a condition, and none of whose branches is an `else`. -/
def AbreSi (marcas : List Pieza) : Prop :=
  ∀ (rama : Arbol) (resto : Ramas), ∃ b : Arbol,
    b.piezas = marcas ++ rama.piezas ++ resto.piezas ++ [.endif]

/-- Marks that have opened a condition and its `else`. -/
def AbreSino (marcas : List Pieza) : Prop :=
  ∀ rama : Arbol, ∃ b : Arbol, b.piezas = marcas ++ rama.piezas ++ [.endif]

/-- What the marks so far have left open. -/
inductive Abre : List Abierto → List Pieza → Prop
  | nada (a : Arbol) : Abre [] a.piezas
  | si {abiertos : List Abierto} {ps marcas : List Pieza} {parches : List ℕ} {inicio : ℕ}
      (h : Abre abiertos ps) (hm : AbreSi marcas) (a : Arbol) :
      Abre (.si parches (some inicio) :: abiertos) (ps ++ (marcas ++ a.piezas))
  | sino {abiertos : List Abierto} {ps marcas : List Pieza} {parches : List ℕ}
      (h : Abre abiertos ps) (hm : AbreSino marcas) (a : Arbol) :
      Abre (.si parches none :: abiertos) (ps ++ (marcas ++ a.piezas))
  | bucle {abiertos : List Abierto} {ps : List Pieza} {inicio : ℕ} {tapados : List (ℕ × String)}
      {antes ambito : Nombres} (h : Abre abiertos ps) (var lista : String) (a : Arbol) :
      Abre (.bucle inicio tapados antes ambito :: abiertos) (ps ++ .bucle var lista :: a.piezas)

section Abre

variable {abiertos : List Abierto} {ps marcas : List Pieza}

/-- A whole tree leaves nothing open. -/
theorem Abre.luego (h : Abre abiertos ps) (b : Arbol) : Abre abiertos (ps ++ b.piezas) := by
  cases h with
  | nada a => exact .nada (.luego a b)
  | si h hm a =>
    rw [List.append_assoc, List.append_assoc]
    exact .si h hm (.luego a b)
  | sino h hm a =>
    rw [List.append_assoc, List.append_assoc]
    exact .sino h hm (.luego a b)
  | bucle h var lista a =>
    rw [List.append_assoc, List.cons_append]
    exact .bucle h var lista (.luego a b)

theorem abreSi_si (cond : String) : AbreSi [.si cond] := by
  intro rama resto
  refine ⟨.si cond rama resto, ?_⟩
  simp [Arbol.piezas]

theorem AbreSi.elif (h : AbreSi marcas) (a : Arbol) (cond : String) :
    AbreSi (marcas ++ a.piezas ++ [.elif cond]) := by
  intro rama resto
  obtain ⟨b, hb⟩ := h a (.elif cond rama resto)
  refine ⟨b, ?_⟩
  rw [hb]
  simp [Ramas.piezas]

theorem AbreSi.sino (h : AbreSi marcas) (a : Arbol) : AbreSino (marcas ++ a.piezas ++ [.sino]) := by
  intro rama
  obtain ⟨b, hb⟩ := h a (.sino rama)
  refine ⟨b, ?_⟩
  rw [hb]
  simp [Ramas.piezas]

end Abre

/-! ## One mark after the other -/

/-- An `elif` or an `else` comes while the condition that is open has no `else` yet. -/
def Ordenado (c : Compilador) (p : Pieza) : Prop :=
  (p = .sino ∨ ∃ cond, p = .elif cond) → ∀ parches resto, c.abiertos ≠ .si parches none :: resto

/-- The code with the jumps at some places set to go to `destino`. -/
def parchada (code : List Instr) (posiciones : List ℕ) (destino : ℕ) : List Instr :=
  posiciones.foldl (fun code pos => code.modify pos (Instr.parchear destino)) code

/-- The expressions of a mark. -/
def Pieza.expresiones : Pieza → List String
  | .escribir _ expr | .si expr | .elif expr | .bucle _ expr => [expr]
  | _ => []

/-- The texts of a mark. -/
def Pieza.textos : Pieza → List String
  | .texto t => [t]
  | _ => []

/-- The code of an expression, against the names that were in sight. -/
def Expresa (T : Taller) (texto : String) (chunk : Chunk) : Prop :=
  ∃ nombres, expresion T texto nombres = .ok chunk

/-- What a mark leaves: the code, what is open, its expressions and texts at the end of their
    tables, and how many names there are more than before. -/
structure Cambio (T : Taller) (c c' : Compilador) (code : List Instr) (abiertos : List Abierto)
    (exprs textos : List String) (nombres : ℕ) : Prop where
  code : c'.code = code
  abiertos : c'.abiertos = abiertos
  exprs : ∃ chunks, c'.exprs = c.exprs ++ chunks ∧ List.Forall₂ (Expresa T) exprs chunks
  textos : c'.textos = c.textos ++ textos
  nombres : c'.nombres.length = c.nombres.length + nombres

/-- **What a mark can do** that leaves no error. -/
inductive Avance (T : Taller) (c c' : Compilador) : Pieza → Prop
  | texto (t : String)
      (h : Cambio T c c' (c.code ++ [.texto c.textos.length]) c.abiertos [] [t] 0) :
      Avance T c c' (.texto t)
  | escribir (crudo : Bool) (expr : String)
      (h : Cambio T c c' (c.code ++ [if crudo then .escribirCrudo c.exprs.length
        else .escribir c.exprs.length]) c.abiertos [expr] [] 0) :
      Avance T c c' (.escribir crudo expr)
  | si (cond : String)
      (h : Cambio T c c' (c.code ++ [.saltarSiFalso c.exprs.length 0])
        (.si [] (some c.code.length) :: c.abiertos) [cond] [] 0) :
      Avance T c c' (.si cond)
  | elif (cond : String) {parches : List ℕ} {inicio : Option ℕ} {resto : List Abierto}
      (hab : c.abiertos = .si parches inicio :: resto)
      (h : Cambio T c c' (parchada (c.code ++ [.saltar 0]) inicio.toList (c.code.length + 1) ++
        [.saltarSiFalso c.exprs.length 0])
        (.si (parches ++ [c.code.length]) (some (c.code.length + 1)) :: resto) [cond] [] 0) :
      Avance T c c' (.elif cond)
  | sino {parches : List ℕ} {inicio : Option ℕ} {resto : List Abierto}
      (hab : c.abiertos = .si parches inicio :: resto)
      (h : Cambio T c c' (parchada (c.code ++ [.saltar 0]) inicio.toList (c.code.length + 1))
        (.si (parches ++ [c.code.length]) none :: resto) [] [] 0) :
      Avance T c c' .sino
  | endif {parches : List ℕ} {inicio : Option ℕ} {resto : List Abierto}
      (hab : c.abiertos = .si parches inicio :: resto)
      (h : Cambio T c c' (parchada c.code (inicio.toList ++ parches) c.code.length) resto [] [] 0) :
      Avance T c c' .endif
  | bucle (var lista : String) {tapados : List (ℕ × String)} {ambito : Nombres}
      (h : Cambio T c c' (c.code ++ [.bucleInicio c.exprs.length 0 c.nombres.length
        (c.nombres.length + 1)])
        (.bucle c.code.length tapados c.nombres ambito :: c.abiertos) [lista] [] 2) :
      Avance T c c' (.bucle var lista)
  | endfor {inicio : ℕ} {tapados : List (ℕ × String)} {antes ambito : Nombres}
      {resto : List Abierto} (hab : c.abiertos = .bucle inicio tapados antes ambito :: resto)
      (h : Cambio T c c' (parchada (c.code ++ [.bucleSiguiente (inicio + 1) antes.length
        (antes.length + 1)]) [inicio] (c.code.length + 1)) resto [] [] 0) :
      Avance T c c' .endfor

section Step

variable {T : Taller} {c : Compilador} {p : Pieza}

@[simp] theorem length_parchada (code : List Instr) (posiciones : List ℕ) (destino : ℕ) :
    (parchada code posiciones destino).length = code.length := by
  induction posiciones generalizing code with
  | nil => rfl
  | cons pos posiciones ih => exact (ih _).trans (List.length_modify ..)

theorem foldl_parchear (posiciones : List ℕ) :
    posiciones.foldl Compilador.parchear c =
      { c with code := parchada c.code posiciones c.code.length } := by
  induction posiciones generalizing c with
  | nil => rfl
  | cons pos posiciones ih =>
    rw [List.foldl_cons, ih]
    simp [Compilador.parchear, parchada]

theorem otraRama_eq (inicio : Option ℕ) : c.otraRama inicio =
    { c with code := parchada (c.code ++ [.saltar 0]) inicio.toList (c.code.length + 1) } := by
  cases inicio with
  | none => rfl
  | some pos => simp [Compilador.otraRama, Compilador.emitir, Compilador.parchear, parchada]

/-- An expression that leaves no error compiles. -/
theorem conExpresion_ok {texto : String} {sigue : ℕ → Compilador → Compilador}
    (h : (c.conExpresion T texto sigue).errores = []) : ∃ chunk,
      expresion T texto c.nombres = .ok chunk ∧
      c.conExpresion T texto sigue = sigue c.exprs.length { c with
        exprs := c.exprs ++ [chunk]
        sucesos := .expresion texto c.ambito true :: c.sucesos } := by
  unfold Compilador.conExpresion at h ⊢
  split at h
  · rename_i chunk hchunk
    exact ⟨chunk, hchunk, rfl⟩
  · cases h

/-- A mark of a condition that leaves no error finds a condition open. -/
theorem exists_si (hp : p = .sino ∨ (∃ cond, p = .elif cond) ∨ p = .endif)
    (he : (c.pieza T p).errores = []) :
    ∃ parches inicio resto, c.abiertos = .si parches inicio :: resto := by
  cases hab : c.abiertos with
  | nil =>
    obtain rfl | ⟨cond, rfl⟩ | rfl := hp <;>
      simp [Compilador.pieza, hab, Compilador.error] at he
  | cons ab resto =>
    cases ab with
    | si parches inicio => exact ⟨parches, inicio, resto, rfl⟩
    | bucle inicio tapados antes ambito =>
      obtain rfl | ⟨cond, rfl⟩ | rfl := hp <;>
        simp [Compilador.pieza, hab, Compilador.error] at he

/-- The end of a loop that leaves no error finds a loop open. -/
theorem exists_bucle (he : (c.pieza T .endfor).errores = []) :
    ∃ inicio tapados antes ambito resto,
      c.abiertos = .bucle inicio tapados antes ambito :: resto := by
  cases hab : c.abiertos with
  | nil => simp [Compilador.pieza, hab, Compilador.error] at he
  | cons ab resto =>
    cases ab with
    | si parches inicio => simp [Compilador.pieza, hab, Compilador.error] at he
    | bucle inicio tapados antes ambito => exact ⟨inicio, tapados, antes, ambito, resto, rfl⟩

/-- The names that come back take the slots that they had. -/
theorem destapar_length (nombres : Nombres) (tapados : List (ℕ × String)) :
    (destapar nombres tapados).length = nombres.length := by
  unfold destapar
  induction tapados generalizing nombres with
  | nil => rfl
  | cons t tapados ih => rw [List.foldl_cons, ih, length_renombrar]

/-- A mark that leaves no error: there was none before, and it is one of the cases. -/
theorem pieza_avance (he : (c.pieza T p).errores = []) :
    c.errores = [] ∧ Avance T c (c.pieza T p) p := by
  have hnone {α : Type} (l : List α) : l = l ++ [] := (List.append_nil l).symm
  have hsin : ∃ chunks, c.exprs = c.exprs ++ chunks ∧ List.Forall₂ (Expresa T) [] chunks :=
    ⟨[], hnone _, .nil⟩
  cases p with
  | texto t => exact ⟨he, .texto t ⟨rfl, rfl, hsin, rfl, rfl⟩⟩
  | error message => cases he
  | escribir crudo expr =>
    obtain ⟨chunk, hchunk, heq⟩ := conExpresion_ok he
    rw [Compilador.pieza, heq] at he ⊢
    exact ⟨he, .escribir crudo expr
      ⟨rfl, rfl, ⟨[chunk], rfl, .cons ⟨_, hchunk⟩ .nil⟩, hnone _, rfl⟩⟩
  | si cond =>
    obtain ⟨chunk, hchunk, heq⟩ := conExpresion_ok he
    rw [Compilador.pieza, heq] at he ⊢
    exact ⟨he, .si cond ⟨rfl, rfl, ⟨[chunk], rfl, .cons ⟨_, hchunk⟩ .nil⟩, hnone _, rfl⟩⟩
  | elif cond =>
    obtain ⟨parches, inicio, resto, hab⟩ := exists_si (.inr (.inl ⟨cond, rfl⟩)) he
    simp only [Compilador.pieza, hab, otraRama_eq] at he ⊢
    obtain ⟨chunk, hchunk, heq⟩ := conExpresion_ok he
    rw [heq] at he ⊢
    refine ⟨he, .elif cond hab
      ⟨rfl, ?_, ⟨[chunk], rfl, .cons ⟨_, hchunk⟩ .nil⟩, hnone _, rfl⟩⟩
    simp [Compilador.emitir]
  | sino =>
    obtain ⟨parches, inicio, resto, hab⟩ := exists_si (.inl rfl) he
    simp only [Compilador.pieza, hab, otraRama_eq] at he ⊢
    exact ⟨he, .sino hab ⟨rfl, rfl, hsin, hnone _, rfl⟩⟩
  | endif =>
    obtain ⟨parches, inicio, resto, hab⟩ := exists_si (.inr (.inr rfl)) he
    simp only [Compilador.pieza, hab, foldl_parchear] at he ⊢
    exact ⟨he, .endif hab ⟨rfl, rfl, hsin, hnone _, rfl⟩⟩
  | bucle var lista =>
    obtain ⟨chunk, hchunk, heq⟩ := conExpresion_ok he
    rw [Compilador.pieza, heq] at he ⊢
    obtain ⟨hlen, -⟩ := entrar_spec var c.nombres
    exact ⟨he, .bucle var lista
      ⟨rfl, rfl, ⟨[chunk], rfl, .cons ⟨_, hchunk⟩ .nil⟩, hnone _, hlen⟩⟩
  | endfor =>
    obtain ⟨inicio, tapados, antes, ambito, resto, hab⟩ := exists_bucle he
    simp only [Compilador.pieza, hab] at he ⊢
    refine ⟨he, .endfor hab ⟨?_, rfl, hsin, hnone _, destapar_length _ _⟩⟩
    simp [Compilador.emitir, Compilador.parchear, parchada]

theorem foldl_errores {ps : List Pieza} (h : (ps.foldl (Compilador.pieza T) c).errores = []) :
    c.errores = [] := by
  induction ps generalizing c with
  | nil => exact h
  | cons p ps ih => exact (pieza_avance (ih h)).1

/-- A mark puts its expressions and texts at the end of their tables. -/
theorem Avance.tablas {c' : Compilador} (h : Avance T c c' p) :
    (∃ chunks, c'.exprs = c.exprs ++ chunks ∧ List.Forall₂ (Expresa T) p.expresiones chunks) ∧
      c'.textos = c.textos ++ p.textos := by
  cases h with
  | texto _ h | escribir _ _ h | si _ h | bucle _ _ h => exact ⟨h.exprs, h.textos⟩
  | elif _ _ h | sino _ h | endif _ h | endfor _ h => exact ⟨h.exprs, h.textos⟩

/-- The tables of marks that leave no error, in the order of the marks. -/
theorem foldl_tablas {ps : List Pieza} (he : (ps.foldl (Compilador.pieza T) c).errores = []) :
    (∃ chunks, (ps.foldl (Compilador.pieza T) c).exprs = c.exprs ++ chunks ∧
        List.Forall₂ (Expresa T) (ps.flatMap Pieza.expresiones) chunks) ∧
      (ps.foldl (Compilador.pieza T) c).textos = c.textos ++ ps.flatMap Pieza.textos := by
  induction ps generalizing c with
  | nil => exact ⟨⟨[], (List.append_nil _).symm, .nil⟩, (List.append_nil _).symm⟩
  | cons p ps ih =>
    obtain ⟨⟨new, hnew, hf⟩, htextos⟩ := (pieza_avance (foldl_errores he)).2.tablas
    obtain ⟨⟨chunks, hchunks, hfs⟩, htextos'⟩ := ih he
    refine ⟨⟨new ++ chunks, ?_, ?_⟩, ?_⟩
    · rw [List.foldl_cons, hchunks, hnew, List.append_assoc]
    · rw [List.flatMap_cons]
      exact List.rel_append hf hfs
    · rw [List.foldl_cons, htextos', htextos, List.flatMap_cons, List.append_assoc]

/-- **Step lemma** for what is open. -/
theorem Abre.pieza {ps : List Pieza} (h : Abre c.abiertos ps) (hp : Ordenado c p)
    (he : (c.pieza T p).errores = []) : Abre (c.pieza T p).abiertos (ps ++ [p]) := by
  obtain ⟨-, ha⟩ := pieza_avance he
  generalize c.pieza T p = c' at ha ⊢
  cases ha with
  | texto t hc =>
    rw [hc.abiertos]
    exact h.luego (.texto t)
  | escribir crudo expr hc =>
    rw [hc.abiertos]
    exact h.luego (.escribir crudo expr)
  | si cond hc =>
    rw [hc.abiertos]
    exact .si h (abreSi_si cond) .nada
  | elif cond hab hc =>
    rw [hc.abiertos]
    rw [hab] at h
    cases h with
    | si h hm a =>
      rw [List.append_assoc, List.append_assoc]
      simpa [Arbol.piezas] using Abre.si h (hm.elif a cond) .nada
    | sino h hm a => exact absurd hab (hp (.inr ⟨cond, rfl⟩) _ _)
  | sino hab hc =>
    rw [hc.abiertos]
    rw [hab] at h
    cases h with
    | si h hm a =>
      rw [List.append_assoc, List.append_assoc]
      simpa [Arbol.piezas] using Abre.sino h (hm.sino a) .nada
    | sino h hm a => exact absurd hab (hp (.inl rfl) _ _)
  | endif hab hc =>
    rw [hc.abiertos]
    rw [hab] at h
    cases h with
    | @si _ _ marcas _ _ h hm a =>
      obtain ⟨b, hb⟩ := hm a .fin
      have hb : b.piezas = (marcas ++ a.piezas) ++ [.endif] := by simpa [Ramas.piezas] using hb
      rw [List.append_assoc, ← hb]
      exact h.luego b
    | sino h hm a =>
      obtain ⟨b, hb⟩ := hm a
      rw [List.append_assoc, ← hb]
      exact h.luego b
  | bucle var lista hc =>
    rw [hc.abiertos]
    exact .bucle h var lista .nada
  | endfor hab hc =>
    rw [hc.abiertos]
    rw [hab] at h
    cases h with
    | bucle h var lista a =>
      have hb : (Arbol.bucle var lista a).piezas = .bucle var lista :: a.piezas ++ [.endfor] := rfl
      rw [List.append_assoc, ← hb]
      exact h.luego _

/-- Marks that leave no error, in which no branch comes after an `else`. -/
theorem Abre.foldl {ps qs : List Pieza} {datos : Nombres} (h : Abre c.abiertos ps)
    (hC : (compilador T datos).MeetsFrom Ordenado c qs)
    (he : (qs.foldl (Compilador.pieza T) c).errores = []) :
    Abre (qs.foldl (Compilador.pieza T) c).abiertos (ps ++ qs) := by
  induction qs generalizing c ps with
  | nil => simpa using h
  | cons q qs ih =>
    have h' := ih (h.pieza hC.1 (foldl_errores he)) (hC.2 _ rfl) he
    rwa [List.append_assoc] at h'

/-- The compiler takes every mark. -/
theorem run_eq_foldl (T : Taller) (datos : Nombres) (ps : List Pieza) :
    (compilador T datos).runFrom c ps = some (ps.foldl (Compilador.pieza T) c) := by
  induction ps generalizing c with
  | nil => rfl
  | cons p ps ih => exact ih

end Step

/-! ## What a tree compiles to -/

/-- The next free places of a compiler. -/
def Compilador.origen (c : Compilador) : Origen :=
  ⟨c.code.length, c.exprs.length, c.textos.length, c.nombres.length⟩

section Patches

variable {code l r : List Instr} {posiciones : List ℕ} {destino pos : ℕ}

theorem modify_append_left (h : pos < l.length) (f : Instr → Instr) :
    (l ++ r).modify pos f = l.modify pos f ++ r := by
  induction l generalizing pos with
  | nil => cases h
  | cons i l ih =>
    cases pos with
    | zero => rfl
    | succ pos =>
      rw [List.cons_append, List.modify_succ_cons, List.modify_succ_cons,
        ih (Nat.lt_of_succ_lt_succ h), List.cons_append]

theorem modify_append_length (i : Instr) (f : Instr → Instr) :
    (l ++ i :: r).modify l.length f = l ++ f i :: r := by
  induction l with
  | nil => rfl
  | cons j l ih => rw [List.cons_append, List.length_cons, List.modify_succ_cons, ih]; rfl

/-- Jumps in the first part of the code. -/
theorem parchada_append (h : ∀ pos ∈ posiciones, pos < l.length) :
    parchada (l ++ r) posiciones destino = parchada l posiciones destino ++ r := by
  induction posiciones generalizing l with
  | nil => rfl
  | cons pos posiciones ih =>
    have hpos := h pos (List.mem_cons_self ..)
    unfold parchada at ih ⊢
    rw [List.foldl_cons, List.foldl_cons, modify_append_left hpos, ih]
    intro pos' hpos'
    rw [List.length_modify]
    exact h pos' (List.mem_cons_of_mem _ hpos')

/-- The last of the jumps stands right behind the first part. -/
theorem parchada_concat (h : ∀ pos ∈ posiciones, pos < l.length) (i : Instr) :
    parchada (l ++ i :: r) (posiciones ++ [l.length]) destino =
      parchada l posiciones destino ++ i.parchear destino :: r := by
  have hlen : l.length = (parchada l posiciones destino).length := (length_parchada ..).symm
  have hfold : parchada (l ++ i :: r) (posiciones ++ [l.length]) destino =
      (parchada (l ++ i :: r) posiciones destino).modify l.length (Instr.parchear destino) :=
    List.foldl_append
  rw [hfold, parchada_append h, hlen, modify_append_length]

/-- One jump, right behind the first part. -/
theorem parchada_length (i : Instr) :
    parchada (l ++ i :: r) [l.length] destino = l ++ i.parchear destino :: r :=
  modify_append_length i _

/-- The jump that ends a branch, and the condition of the next branch behind it. -/
theorem parchada_rama (h : ∀ pos ∈ posiciones, pos < l.length) (k hueco final : ℕ) :
    parchada (parchada (l ++ [.saltar 0] ++ [.saltarSiFalso k 0] ++ r) [l.length + 1] hueco)
        (posiciones ++ [l.length]) final =
      parchada l posiciones final ++ .saltar final :: .saltarSiFalso k hueco :: r := by
  have hcond := @parchada_length (l ++ [.saltar 0]) r hueco (.saltarSiFalso k 0)
  have hlen : (l ++ [Instr.saltar 0]).length = l.length + 1 := by simp
  rw [hlen] at hcond
  rw [List.append_assoc, List.singleton_append, hcond, List.append_assoc, List.singleton_append]
  exact parchada_concat h (.saltar 0)

end Patches

section Compile

variable {T : Taller} {c c' : Compilador}

theorem Cambio.origen {code : List Instr} {abiertos : List Abierto} {exprs textos : List String}
    {nombres : ℕ} (h : Cambio T c c' code abiertos exprs textos nombres) : c'.origen =
      ⟨code.length, c.exprs.length + exprs.length, c.textos.length + textos.length,
        c.nombres.length + nombres⟩ := by
  obtain ⟨chunks, hchunks, hf⟩ := h.exprs
  rw [Compilador.origen, h.code, hchunks, h.textos, h.nombres, List.length_append,
    List.length_append, hf.length_eq]

/-- What the marks of a tree leave. -/
structure Compilado (c' : Compilador) (code : List Instr) (abiertos : List Abierto)
    (o : Origen) : Prop where
  code : c'.code = code
  abiertos : c'.abiertos = abiertos
  origen : c'.origen = o

theorem foldl_cons_errores {p : Pieza} {ps : List Pieza}
    (he : ((p :: ps).foldl (Compilador.pieza T) c).errores = []) :
    Avance T c (c.pieza T p) p :=
  (pieza_avance (foldl_errores he)).2

theorem append_errores {ps qs : List Pieza}
    (he : ((ps ++ qs).foldl (Compilador.pieza T) c).errores = []) :
    (ps.foldl (Compilador.pieza T) c).errores = [] := by
  rw [List.foldl_append] at he
  exact foldl_errores he

mutual

/-- **A tree compiles to its code**, and leaves open what was open. -/
theorem Arbol.compila (a : Arbol) (c : Compilador)
    (he : (a.piezas.foldl (Compilador.pieza T) c).errores = []) :
    Compilado (a.piezas.foldl (Compilador.pieza T) c) (c.code ++ a.code c.origen) c.abiertos
      (a.tras c.origen) := by
  cases a with
  | nada => exact ⟨(List.append_nil _).symm, rfl, rfl⟩
  | luego a b =>
    have ha := a.compila c (append_errores he)
    rw [Arbol.piezas, List.foldl_append] at he ⊢
    have hb := b.compila _ he
    rw [ha.code, ha.abiertos, ha.origen] at hb
    refine ⟨?_, hb.abiertos, hb.origen⟩
    rw [hb.code, Arbol.code, List.append_assoc]
  | texto t =>
    cases foldl_cons_errores he with
    | texto t hc =>
      refine ⟨hc.code, hc.abiertos, hc.origen.trans ?_⟩
      simp [Arbol.tras, Origen.conTexto, Compilador.origen]
  | escribir crudo expr =>
    cases foldl_cons_errores he with
    | escribir crudo expr hc =>
      refine ⟨hc.code, hc.abiertos, hc.origen.trans ?_⟩
      simp [Arbol.tras, Origen.condicion, Compilador.origen]
  | si cond rama resto =>
    rw [Arbol.piezas] at he ⊢
    cases foldl_cons_errores he with
    | si cond hc =>
      rw [List.foldl_cons] at he ⊢
      have hr := rama.compila _ (append_errores he)
      rw [List.foldl_append] at he ⊢
      have ho : (c.pieza T (.si cond)).origen = c.origen.condicion := by
        rw [hc.origen]
        simp [Origen.condicion, Compilador.origen]
      rw [hc.code, hc.abiertos, ho] at hr
      have hinicio : c.code.length < (rama.piezas.foldl (Compilador.pieza T)
          (c.pieza T (.si cond))).code.length := by
        rw [hr.code]
        simp
      have hrs := resto.compila _ hr.abiertos hinicio nofun he
      have hpos : (rama.piezas.foldl (Compilador.pieza T) (c.pieza T (.si cond))).code.length =
          (rama.tras c.origen.condicion).pos := congrArg Origen.pos hr.origen
      refine ⟨?_, hrs.abiertos, ?_⟩
      · rw [hrs.code, hpos, hr.origen, hr.code, List.append_assoc, List.singleton_append,
          parchada_length]
        simp [parchada, Arbol.code, Instr.parchear, Compilador.origen]
      · rw [hrs.origen, hr.origen, Arbol.tras]
  | bucle var lista cuerpo =>
    rw [Arbol.piezas] at he ⊢
    cases foldl_cons_errores he with
    | bucle var lista hc =>
      rw [List.foldl_cons] at he ⊢
      have hb := cuerpo.compila _ (append_errores he)
      rw [List.foldl_append] at he ⊢
      have ho : (c.pieza T (.bucle var lista)).origen = c.origen.dentro := by
        rw [hc.origen]
        simp [Origen.dentro, Compilador.origen]
      rw [hc.code, hc.abiertos, ho] at hb
      cases foldl_cons_errores he with
      | endfor hab hf =>
        rw [hb.abiertos] at hab
        cases hab
        have hpos : (cuerpo.piezas.foldl (Compilador.pieza T)
            (c.pieza T (.bucle var lista))).code.length = (cuerpo.tras c.origen.dentro).pos :=
          congrArg Origen.pos hb.origen
        refine ⟨?_, hf.abiertos, ?_⟩
        · rw [List.foldl_cons, List.foldl_nil, hf.code, hpos, hb.code]
          rw [List.append_assoc, List.append_assoc, List.singleton_append, parchada_length]
          simp [Arbol.code, Instr.parchear, Compilador.origen]
        · rw [List.foldl_cons, List.foldl_nil, Arbol.tras, ← hb.origen]
          rw [hf.origen]
          simp [Origen.salto, Compilador.origen]

/-- The branches after the first one, whose jumps are still open. -/
theorem Ramas.compila (rs : Ramas) (c : Compilador) {parches : List ℕ} {inicio : ℕ}
    {abiertos : List Abierto} (hab : c.abiertos = .si parches (some inicio) :: abiertos)
    (hi : inicio < c.code.length) (hp : ∀ pos ∈ parches, pos < c.code.length)
    (he : ((rs.piezas ++ [Pieza.endif]).foldl (Compilador.pieza T) c).errores = []) :
    Compilado ((rs.piezas ++ [Pieza.endif]).foldl (Compilador.pieza T) c)
      (parchada (parchada c.code [inicio] (c.code.length + rs.hueco)) parches
        (rs.tras c.origen).pos ++ rs.code c.origen (rs.tras c.origen).pos)
      abiertos (rs.tras c.origen) := by
  -- the jump over the other branches, after the condition that is open comes to its target
  have hsalto : parchada (c.code ++ [.saltar 0]) (some inicio).toList (c.code.length + 1) =
      parchada c.code [inicio] (c.code.length + 1) ++ [.saltar 0] :=
    parchada_append fun pos hpos => List.mem_singleton.1 hpos ▸ hi
  cases rs with
  | fin =>
    rw [Ramas.piezas, List.nil_append] at he ⊢
    cases foldl_cons_errores he with
    | endif hab' hc =>
      rw [hab] at hab'
      cases hab'
      refine ⟨?_, hc.abiertos, hc.origen.trans ?_⟩
      · simpa [Ramas.code, Ramas.tras, Ramas.hueco, parchada, Compilador.origen] using hc.code
      · simp [Ramas.tras, Compilador.origen]
  | sino rama =>
    rw [Ramas.piezas] at he ⊢
    cases foldl_cons_errores he with
    | sino hab' hc =>
      rw [hab] at hab'
      cases hab'
      rw [List.cons_append, List.foldl_cons] at he ⊢
      have hr := rama.compila _ (append_errores he)
      rw [List.foldl_append] at he ⊢
      have ho : (c.pieza T .sino).origen = c.origen.salto := by
        rw [hc.origen]
        simp [Origen.salto, Compilador.origen]
      rw [hc.code, hc.abiertos, ho] at hr
      cases foldl_cons_errores he with
      | endif hab' hf =>
        rw [hr.abiertos] at hab'
        cases hab'
        have hpos := congrArg Origen.pos hr.origen
        refine ⟨?_, hf.abiertos, ?_⟩
        · rw [List.foldl_cons, List.foldl_nil, hf.code]
          change parchada _ _ (Origen.pos (Compilador.origen _)) = _
          rw [hpos, hr.code, hsalto, List.append_assoc, List.singleton_append]
          have hconcat := @parchada_concat (parchada c.code [inicio] (c.code.length + 1))
            (rama.code c.origen.salto) parches (rama.tras c.origen.salto).pos
            (by simpa using hp) (.saltar 0)
          rw [length_parchada] at hconcat
          exact hconcat
        · rw [List.foldl_cons, List.foldl_nil, Ramas.tras, ← hr.origen]
          refine hf.origen.trans ?_
          simp [Compilador.origen]
  | elif cond rama resto =>
    rw [Ramas.piezas] at he ⊢
    cases foldl_cons_errores he with
    | elif cond hab' hc =>
      rw [hab] at hab'
      cases hab'
      rw [List.cons_append, List.foldl_cons, List.append_assoc] at he ⊢
      have hr := rama.compila _ (append_errores he)
      rw [List.foldl_append] at he ⊢
      have ho : (c.pieza T (.elif cond)).origen = c.origen.salto.condicion := by
        rw [hc.origen]
        simp [Origen.salto, Origen.condicion, Compilador.origen]
      rw [hc.code, hc.abiertos, ho, hsalto] at hr
      have hlen : c.code.length + 2 ≤ (rama.piezas.foldl (Compilador.pieza T)
          (c.pieza T (.elif cond))).code.length := by
        rw [hr.code]
        simp
      have hrs := resto.compila _ hr.abiertos (by omega) (fun pos hpos => by
        obtain hpos | hpos := List.mem_append.1 hpos
        · have := hp pos hpos
          omega
        · rw [List.mem_singleton.1 hpos]
          omega) he
      have hpos : (rama.piezas.foldl (Compilador.pieza T) (c.pieza T (.elif cond))).code.length =
          (rama.tras c.origen.salto.condicion).pos := congrArg Origen.pos hr.origen
      refine ⟨?_, hrs.abiertos, ?_⟩
      · have hL : (parchada c.code [inicio] (c.code.length + 1)).length = c.code.length :=
          length_parchada ..
        have hrama := @parchada_rama (parchada c.code [inicio] (c.code.length + 1))
          (rama.code c.origen.salto.condicion) parches (by simpa using hp) c.exprs.length
          ((rama.tras c.origen.salto.condicion).pos + resto.hueco)
          (resto.tras (rama.tras c.origen.salto.condicion)).pos
        rw [hL] at hrama
        rw [hrs.code, hpos, hr.origen, hr.code, hrama, List.append_assoc]
        rfl
      · rw [hrs.origen, hr.origen, Ramas.tras]

end

end Compile

/-! ## The elements that are touched -/

/-- The elements of the code that a mark reads or writes, each with the number of elements that
    there are by then.  `none` is `SIZE_MAX`. -/
def Compilador.toca (c : Compilador) : Pieza → List (Option ℕ × ℕ)
  | .elif _ | .sino =>
    match c.abiertos with
    | .si _ inicio :: _ => [(inicio, c.code.length + 1)]
    | _ => []
  | .endif =>
    match c.abiertos with
    | .si parches inicio :: _ =>
      (inicio.toList ++ parches).map fun pos => (some pos, c.code.length)
    | _ => []
  | .endfor =>
    match c.abiertos with
    | .bucle inicio _ _ _ :: _ =>
      [(some inicio, c.code.length), (some inicio, c.code.length + 1)]
    | _ => []
  | _ => []

/-- All of them exist. -/
def Dentro (c : Compilador) (p : Pieza) : Prop :=
  ∀ t ∈ c.toca p, ∃ pos, t.1 = some pos ∧ pos < t.2

/-- The places that an open tag keeps. -/
def Abierto.lugares : Abierto → List ℕ
  | .si parches inicio => inicio.toList ++ parches
  | .bucle inicio _ _ _ => [inicio]

/-- The places of the open tags are in the code. -/
def Firme (c : Compilador) : Prop := ∀ ab ∈ c.abiertos, ∀ pos ∈ ab.lugares, pos < c.code.length

section Touch

variable {T : Taller} {c c' : Compilador}

/-- Tags that were open stay where they are; the code grows. -/
theorem Firme.of_subset (hc : Firme c) (hle : c.code.length ≤ c'.code.length)
    (hab : ∀ ab ∈ c'.abiertos, ab ∈ c.abiertos ∨ ∀ pos ∈ ab.lugares, pos < c'.code.length) :
    Firme c' := by
  intro ab ha pos hpos
  obtain h | h := hab ab ha
  · exact Nat.lt_of_lt_of_le (hc ab h pos hpos) hle
  · exact h pos hpos

theorem Firme.conExpresion (hc : Firme c) {texto : String} {sigue : ℕ → Compilador → Compilador}
    (h : ∀ c', c'.code = c.code → c'.abiertos = c.abiertos → ∀ k, Firme (sigue k c')) :
    Firme (c.conExpresion T texto sigue) := by
  unfold Compilador.conExpresion
  split
  · refine h _ ?_ ?_ _ <;> rfl
  · exact hc

/-- The tags that were open below a condition, and that condition at other places. -/
theorem Firme.replace (hc : Firme c) {ab ab' : Abierto} {resto : List Abierto}
    (hab : c.abiertos = ab :: resto) (hle : c.code.length ≤ c'.code.length)
    (hab' : c'.abiertos = ab' :: resto) (hnew : ∀ pos ∈ ab'.lugares, pos < c'.code.length) :
    Firme c' := by
  refine hc.of_subset hle fun a ha => ?_
  rw [hab'] at ha
  obtain rfl | ha := List.mem_cons.1 ha
  · exact .inr hnew
  · exact .inl (hab ▸ List.mem_cons_of_mem _ ha)

theorem Firme.drop (hc : Firme c) {ab : Abierto} {resto : List Abierto}
    (hab : c.abiertos = ab :: resto) (hle : c.code.length ≤ c'.code.length)
    (hab' : c'.abiertos = resto) : Firme c' := by
  refine hc.of_subset hle fun a ha => .inl ?_
  rw [hab, ← hab']
  exact List.mem_cons_of_mem _ ha

/-- **Step lemma** for the places of the open tags. -/
theorem Firme.pieza (hc : Firme c) (p : Pieza) : Firme (c.pieza T p) := by
  have hgrow (i : Instr) : c.code.length ≤ (c.code ++ [i]).length := by simp
  cases p with
  | texto t => exact hc.of_subset (hgrow _) fun ab h => .inl h
  | error message => exact hc
  | escribir crudo expr =>
    refine hc.conExpresion fun c' hcode hab k => hc.of_subset ?_ fun ab h => .inl (hab ▸ h)
    simp [Compilador.emitir, hcode]
  | si cond =>
    refine hc.conExpresion fun c' hcode hab k => hc.of_subset ?_ fun ab h => ?_
    · simp [Compilador.emitir, hcode]
    · obtain rfl | h := List.mem_cons.1 h
      · refine .inr fun pos hpos => ?_
        obtain rfl := List.mem_singleton.1 hpos
        simp [Compilador.emitir]
      · exact .inl (hab ▸ h)
  | elif cond =>
    simp only [Compilador.pieza]
    split
    · rename_i parches inicio resto hab
      have hlug := hc _ (hab ▸ List.mem_cons_self ..)
      rw [otraRama_eq]
      have hlen (d : ℕ) : (parchada (c.code ++ [.saltar 0]) inicio.toList d).length =
          c.code.length + 1 := by simp
      have hparches : ∀ pos ∈ parches ++ [c.code.length], pos < c.code.length + 1 := by
        intro pos hpos
        obtain hpos | hpos := List.mem_append.1 hpos
        · exact Nat.lt_succ_of_lt (hlug pos (List.mem_append_right _ hpos))
        · rw [List.mem_singleton.1 hpos]
          exact Nat.lt_succ_self _
      have hrama : Firme { c with
          code := parchada (c.code ++ [.saltar 0]) inicio.toList (c.code.length + 1)
          abiertos := .si (parches ++ [c.code.length]) inicio :: resto } := by
        refine hc.replace hab (by simp) rfl fun pos hpos => ?_
        dsimp only
        rw [hlen]
        obtain hpos | hpos := List.mem_append.1 hpos
        · exact Nat.lt_succ_of_lt (hlug pos (List.mem_append_left _ hpos))
        · exact hparches pos hpos
      refine hrama.conExpresion fun c' hcode hab' k => ?_
      refine hrama.replace rfl (by simp [Compilador.emitir, hcode]) rfl fun pos hpos => ?_
      simp only [Compilador.emitir, hcode, List.length_append, hlen, List.length_singleton]
      obtain hpos | hpos := List.mem_append.1 hpos
      · rw [List.mem_singleton.1 hpos, hcode, hlen]
        exact Nat.lt_succ_self _
      · exact Nat.lt_succ_of_lt (hparches pos hpos)
    · exact hc
  | sino =>
    simp only [Compilador.pieza]
    split
    · rename_i parches inicio resto hab
      have hlug := hc _ (hab ▸ List.mem_cons_self ..)
      rw [otraRama_eq]
      refine hc.replace hab (by simp) rfl fun pos hpos => ?_
      have hlen : (parchada (c.code ++ [.saltar 0]) inicio.toList (c.code.length + 1)).length =
          c.code.length + 1 := by simp
      have hpos : pos ∈ parches ++ [c.code.length] := hpos
      dsimp only
      rw [hlen]
      obtain hpos | hpos := List.mem_append.1 hpos
      · exact Nat.lt_succ_of_lt (hlug pos (List.mem_append_right _ hpos))
      · rw [List.mem_singleton.1 hpos]
        exact Nat.lt_succ_self _
    · exact hc
  | endif =>
    simp only [Compilador.pieza]
    split
    · rename_i parches inicio resto hab
      rw [foldl_parchear]
      exact hc.drop hab (by simp) rfl
    · exact hc
  | bucle var lista =>
    refine hc.conExpresion fun c' hcode hab k => hc.of_subset ?_ fun ab h => ?_
    · simp [Compilador.emitir, hcode]
    · obtain rfl | h := List.mem_cons.1 h
      · refine .inr fun pos hpos => ?_
        obtain rfl := List.mem_singleton.1 hpos
        simp [Compilador.emitir]
      · exact .inl (hab ▸ h)
  | endfor =>
    simp only [Compilador.pieza]
    split
    · rename_i inicio tapados antes ambito resto hab
      exact hc.drop hab (by simp [Compilador.emitir, Compilador.parchear]) rfl
    · exact hc

/-- A branch reads the place of the condition that is open. -/
theorem dentro_rama {p : Pieza} (hc : Firme c) (hp : p = .sino ∨ ∃ cond, p = .elif cond) :
    Dentro c p ↔ ∀ parches resto, c.abiertos ≠ .si parches none :: resto := by
  have htoca : c.toca p =
      match c.abiertos with
      | .si _ inicio :: _ => [(inicio, c.code.length + 1)]
      | _ => [] := by
    obtain rfl | ⟨cond, rfl⟩ := hp <;> rfl
  unfold Dentro
  rw [htoca]
  cases hab : c.abiertos with
  | nil => simp
  | cons ab resto =>
    cases ab with
    | bucle inicio tapados antes ambito => simp
    | si parches inicio =>
      cases inicio with
      | none => simp
      | some pos =>
        have hpos : pos < c.code.length :=
          hc _ (hab ▸ List.mem_cons_self ..) pos (List.mem_cons_self ..)
        simp only [List.mem_singleton, forall_eq, Option.some.injEq, exists_eq_left']
        exact ⟨fun _ => nofun, fun _ => Nat.lt_succ_of_lt hpos⟩

theorem ordenado_of_ne {p : Pieza} (hs : p ≠ .sino) (he : ∀ cond, p ≠ .elif cond) :
    Ordenado c p := by
  rintro (h | ⟨cond, h⟩)
  · exact absurd h hs
  · exact absurd h (he cond)

/-- **A mark touches its own code only, if and only if** it is no branch after an `else`. -/
theorem dentro_iff (hc : Firme c) (p : Pieza) : Dentro c p ↔ Ordenado c p := by
  cases p with
  | sino =>
    rw [dentro_rama hc (.inl rfl)]
    exact ⟨fun h _ => h, fun h => h (.inl rfl)⟩
  | elif cond =>
    rw [dentro_rama hc (.inr ⟨cond, rfl⟩)]
    exact ⟨fun h _ => h, fun h => h (.inr ⟨cond, rfl⟩)⟩
  | endif =>
    refine ⟨fun _ => ordenado_of_ne nofun nofun, fun _ t ht => ?_⟩
    unfold Compilador.toca at ht
    dsimp only at ht
    split at ht
    · rename_i parches inicio resto hab
      have hlug := hc (.si parches inicio) (hab ▸ List.mem_cons_self ..)
      obtain ⟨pos, hpos, rfl⟩ := List.mem_map.1 ht
      exact ⟨pos, rfl, hlug pos hpos⟩
    · cases ht
  | endfor =>
    refine ⟨fun _ => ordenado_of_ne nofun nofun, fun _ t ht => ?_⟩
    unfold Compilador.toca at ht
    dsimp only at ht
    split at ht
    · rename_i inicio tapados antes ambito resto hab
      have hpos : inicio < c.code.length :=
        hc _ (hab ▸ List.mem_cons_self ..) inicio (List.mem_cons_self ..)
      simp only [List.mem_cons, List.not_mem_nil, or_false] at ht
      obtain rfl | rfl := ht
      · exact ⟨inicio, rfl, hpos⟩
      · exact ⟨inicio, rfl, Nat.lt_succ_of_lt hpos⟩
    · cases ht
  | texto | error | escribir | si | bucle =>
    exact ⟨fun _ => ordenado_of_ne nofun nofun, fun _ => nofun⟩

/-- All along the marks of a template. -/
theorem meets_dentro_iff {datos : Nombres} (hc : Firme c) (ps : List Pieza) :
    (compilador T datos).MeetsFrom Dentro c ps ↔ (compilador T datos).MeetsFrom Ordenado c ps := by
  induction ps generalizing c with
  | nil => exact Iff.rfl
  | cons p ps ih =>
    have hrest := ih (hc.pieza (T := T) p)
    constructor
    · rintro ⟨hd, h⟩
      exact ⟨(dentro_iff hc p).1 hd, fun c' hc' => by cases hc'; exact hrest.1 (h _ rfl)⟩
    · rintro ⟨ho, h⟩
      exact ⟨(dentro_iff hc p).2 ho, fun c' hc' => by cases hc'; exact hrest.2 (h _ rfl)⟩

end Touch

end Osodio.Odio.Template
