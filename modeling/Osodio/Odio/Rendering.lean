import Mathlib.Logic.Relation
import Osodio.Odio.Cycles
import Osodio.Odio.Escaping
import Osodio.Odio.Template

/-!
# Rendering a template

The code of a template is run over a table of values, one for each name.  A loop keeps the list
that it goes through on a stack, and asks for its length again after every pass.

## Main definitions

- `Evaluador` — how expressions are evaluated, and how values become text
- `paso`, `correr` — one instruction, and the loop of `render_plantilla`
- `Llega` — a state is reached from another one
- `Evaluador.deVm` — expressions are evaluated by the virtual machine
-/

namespace Osodio.Odio.Template

open Json (Bytes Charconv)

/-! ## Results -/

/-- How `render_plantilla` ends. -/
inductive Desenlace where
  | pagina (salida : Bytes)
  | error (message : String)
  /-- An element outside of a vector is read or written. -/
  | fuera
  deriving DecidableEq, Repr

/-- What an action leaves, or how it ends the rendering; `none` is an action that does not
    return. -/
abbrev Efecto (α : Type) := Option (Except Desenlace α)

/-- One action after the other. -/
def Efecto.luego {α β : Type} (r : Efecto α) (f : α → Efecto β) : Efecto β :=
  match r with
  | some (.ok a) => f a
  | some (.error d) => some (.error d)
  | none => none

/-- The virtual machine and `Value::to_string`, as the templates use them; `none` is a call that
    does not return. -/
structure Evaluador where
  evaluar : World → List Value → Chunk → Option (Except String Value × World)
  texto : Heap → Value → Option Bytes

/-! ## The state -/

/-- A list that is gone through, and where in it. -/
structure Marco where
  lista : ℕ
  i : ℕ
  deriving DecidableEq, Repr

/-- The values by slot, the boxes, and the page so far. -/
structure Lienzo where
  valores : List Value
  world : World
  salida : Bytes := []

/-- The state of the loop.  The innermost list comes first. -/
structure Estado where
  pc : ℕ
  bucles : List Marco
  lienzo : Lienzo

namespace Lienzo

variable (V : Evaluador) (p : Compilador) (s : Lienzo)

/-- `evaluar`. -/
def evaluar (k : ℕ) : Efecto (Value × Lienzo) :=
  match p.exprs[k]? with
  | none => some (.error .fuera)
  | some chunk =>
    match V.evaluar s.world s.valores chunk with
    | some (.ok v, w) => some (.ok (v, { s with world := w }))
    | some (.error message, _) => some (.error (.error message))
    | none => none

/-- A text of the template. -/
def imprimir (a : ℕ) : Efecto Lienzo :=
  match p.textos[a]? with
  | some t => some (.ok { s with salida := s.salida ++ bytesOf t })
  | none => some (.error .fuera)

/-- The text of a value, escaped unless it is written raw. -/
def escribir (crudo : Bool) (k : ℕ) : Efecto Lienzo :=
  (s.evaluar V p k).luego fun r =>
    match V.texto r.2.world.heap r.1 with
    | some t => some (.ok { r.2 with
        salida := if crudo then r.2.salida ++ t else escaparHtml t r.2.salida })
    | none => none

/-- The item of a pass, and `poner_loop`. -/
def poner (slot slotLoop : ℕ) (item : Value) (i n : ℕ) : Except Desenlace Lienzo :=
  if slot < s.valores.length ∧ slotLoop < s.valores.length then
    let (d, heap) := newDict [("index", .int (Int64.ofNat (i + 1))),
      ("index0", .int (Int64.ofNat i)), ("first", .bool (i == 0)), ("last", .bool (i + 1 == n)),
      ("length", .int (Int64.ofNat n))] s.world.heap
    .ok { s with
      valores := (s.valores.set slot item).set slotLoop d
      world := { s.world with heap := heap } }
  else .error .fuera

end Lienzo

/-! ## The loop -/

/-- The pass `i` over a list begins, or the loop is over. -/
def pasar (addr i cuerpo fin slot slotLoop : ℕ) (bucles : List Marco) (s : Lienzo) :
    Except Desenlace Estado :=
  match (listAt s.world.heap addr)[i]? with
  | none => .ok ⟨fin, bucles, s⟩
  | some item =>
    (s.poner slot slotLoop item i (listAt s.world.heap addr).length).map fun s =>
      ⟨cuerpo, ⟨addr, i⟩ :: bucles, s⟩

/-- What is said about a value that is no list. -/
def noLista (v : Value) : Desenlace :=
  .error ("\x7b% for %\x7d necesita una lista, no " ++ v.typeName)

/-- One instruction.  Behind the last one the page is complete. -/
def paso (V : Evaluador) (p : Compilador) (e : Estado) : Efecto Estado :=
  let avanza (s : Lienzo) : Efecto Estado := some (.ok { e with pc := e.pc + 1, lienzo := s })
  match p.code[e.pc]? with
  | none => some (.error (.pagina e.lienzo.salida))
  | some (.texto a) => (e.lienzo.imprimir p a).luego avanza
  | some (.escribir k) => (e.lienzo.escribir V p false k).luego avanza
  | some (.escribirCrudo k) => (e.lienzo.escribir V p true k).luego avanza
  | some (.saltarSiFalso k b) => (e.lienzo.evaluar V p k).luego fun r =>
    some (.ok { e with
      pc := if r.1.truthy r.2.world.heap then e.pc + 1 else b
      lienzo := r.2 })
  | some (.saltar b) => some (.ok { e with pc := b })
  | some (.bucleInicio k b slot slotLoop) => (e.lienzo.evaluar V p k).luego fun r =>
    match r.1 with
    | .list addr => some (pasar addr 0 (e.pc + 1) b slot slotLoop e.bucles r.2)
    | v => some (.error (noLista v))
  | some (.bucleSiguiente b slot slotLoop) =>
    match e.bucles with
    | m :: resto => some (pasar m.lista (m.i + 1) b (e.pc + 1) slot slotLoop resto e.lienzo)
    | [] => some (.error .fuera)

/-- The loop of `render_plantilla`, cut off after a number of instructions. -/
def correr (V : Evaluador) (p : Compilador) : ℕ → Estado → Option Desenlace
  | 0, _ => none
  | n + 1, e =>
    match paso V p e with
    | none => none
    | some (.error d) => some d
    | some (.ok e') => correr V p n e'

/-- The state that `render_plantilla` begins in: one slot for each name. -/
def inicio (p : Compilador) (valores : List Value) (w : World) : Estado where
  pc := 0
  bucles := []
  lienzo := { valores := resizeLocals p.nombres.length valores, world := w }

/-- `render_plantilla`. -/
def renderPlantilla (V : Evaluador) (p : Compilador) (n : ℕ) (valores : List Value) (w : World) :
    Option Desenlace :=
  correr V p n (inicio p valores w)

/-! ## States that are reached -/

section Reach

variable {V : Evaluador} {p : Compilador} {e e' : Estado} {d d' : Desenlace} {n : ℕ}

/-- Instruction by instruction, one state leads to another one. -/
def Llega (V : Evaluador) (p : Compilador) : Estado → Estado → Prop :=
  Relation.ReflTransGen fun e e' => paso V p e = some (.ok e')

/-- From a state, the rendering ends so. -/
def Acaba (V : Evaluador) (p : Compilador) (e : Estado) (d : Desenlace) : Prop :=
  ∃ e', Llega V p e e' ∧ paso V p e' = some (.error d)

theorem correr_succ_ok (h : paso V p e = some (.ok e')) :
    correr V p (n + 1) e = correr V p n e' := by
  rw [correr, h]

/-- What is left of a rendering that ends, at a state that it reaches. -/
theorem Llega.correr (h : Llega V p e e') (hr : correr V p n e = some d) :
    ∃ m ≤ n, correr V p m e' = some d := by
  induction h using Relation.ReflTransGen.head_induction_on generalizing n with
  | refl => exact ⟨n, le_rfl, hr⟩
  | head hstep _ ih =>
    cases n with
    | zero => cases hr
    | succ n =>
      rw [correr_succ_ok hstep] at hr
      obtain ⟨m, hm, hr⟩ := ih hr
      exact ⟨m, Nat.le_succ_of_le hm, hr⟩

/-- A rendering ends if and only if some number of instructions is enough. -/
theorem acaba_iff : Acaba V p e d ↔ ∃ n, correr V p n e = some d := by
  constructor
  · rintro ⟨e', h, hd⟩
    induction h using Relation.ReflTransGen.head_induction_on with
    | refl => exact ⟨1, by rw [Template.correr, hd]⟩
    | head hstep _ ih =>
      obtain ⟨n, hn⟩ := ih
      exact ⟨n + 1, by rw [correr_succ_ok hstep, hn]⟩
  · rintro ⟨n, hn⟩
    induction n generalizing e with
    | zero => cases hn
    | succ n ih =>
      rw [Template.correr] at hn
      split at hn
      · cases hn
      · rename_i d' hd
        cases hn
        exact ⟨e, .refl, hd⟩
      · rename_i e₁ he
        obtain ⟨e', hr, hd⟩ := ih hn
        exact ⟨e', .head he hr, hd⟩

theorem Llega.acaba (h : Llega V p e e') (hd : Acaba V p e' d) : Acaba V p e d := by
  obtain ⟨e₁, hr, hd⟩ := hd
  exact ⟨e₁, h.trans hr, hd⟩

/-- A rendering ends in one way only. -/
theorem Acaba.unique (h : Acaba V p e d) (h' : Acaba V p e d') : d = d' := by
  obtain ⟨n, hn⟩ := acaba_iff.1 h
  obtain ⟨e', hr, hd⟩ := h'
  obtain ⟨m, -, hm⟩ := hr.correr hn
  cases m with
  | zero => cases hm
  | succ m =>
    rw [Template.correr, hd] at hm
    exact (Option.some.inj hm).symm

end Reach

/-! ## The evaluator of the source -/

/-- A segment of the machine, cut off after a number of turns. -/
def Vm.correr (E : Env) : ℕ → Vm → Option Vm
  | 0, _ => none
  | n + 1, vm =>
    if vm.halted then some vm
    else
      match vm.tick E with
      | .ok vm' => correr E n vm'
      | .error _ => none

/-- `VM::start` and `Value::to_string`, cut off after `n` turns and calls. -/
def Evaluador.deVm (E : Env) (C : Charconv) (stream : Float → Bytes) (n : ℕ) : Evaluador where
  evaluar w valores chunk :=
    (Vm.correr E n (.start chunk valores w)).map fun vm =>
      match vm.status with
      | .done v => (.ok v, vm.world)
      | .error message _ => (.error message, vm.world)
      | _ => (.error "", vm.world)
  texto heap v := toString? C stream heap n v

end Osodio.Odio.Template
