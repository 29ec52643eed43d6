import Mathlib.Logic.Function.Basic
import Osodio.Lib.Transition
import Osodio.Odio.Boxes
import Osodio.Odio.Vm

/-!
# Shared state

`state` is the store that all handlers have in common.  Its operations are natives;
what it holds after a history of calls is what the calls made of it.  The machines
of the handlers take turns over the same boxes.

## Main definitions

- `SharedState`, `fnStateGet`, … — the store and its natives
- `storeOf` — the store after a history
- `Project`, `Project.oracle` — the natives as the handlers see them
- `Server`, `Turn`, `server` — any number of machines that take turns
-/

namespace Osodio.Odio

open Osodio.Lib

/-! ## The store -/

/-- `SharedState::data_`. -/
abbrev SharedState := Dict

namespace SharedState

def get (s : SharedState) (key : String) : Value := valueAt key s

def set (s : SharedState) (key : String) (v : Value) : SharedState := setKey key v s

/-- `incr`: what is not an integer counts from 0. -/
def incr (s : SharedState) (key : String) (n : Int64) : Int64 × SharedState :=
  let cur := match s.get key with
    | .int i => i
    | _ => 0
  (cur + n, s.set key (.int (cur + n)))

def remove (s : SharedState) (key : String) : Bool × SharedState :=
  ((s.lookup key).isSome, s.filter fun p => p.1 != key)

end SharedState

/-- A native of `state`: its result, and the store after it. -/
abbrev StateFn := SharedState → List Value → Except String Value × SharedState

/-- The natives take the key first. -/
def withKey (name : String) (f : String → List Value → Except String Value × SharedState) :
    StateFn := fun s args =>
  match args with
  | .str key :: rest => f key rest
  | _ => (.error ("state." ++ name ++ "() espera la clave como string"), s)

def fnStateIncr : StateFn := fun s => withKey "incr" (fun key rest =>
  match rest with
  | [] => let (n, s') := s.incr key 1; (.ok (.int n), s')
  | .int n :: _ => let (n, s') := s.incr key n; (.ok (.int n), s')
  | _ => (.error "state.incr() espera un entero", s)) s

def fnStateDecr : StateFn := fun s => withKey "decr" (fun key rest =>
  let n := match rest with
    | .int n :: _ => n
    | _ => 1
  let (n, s') := s.incr key (-n)
  (.ok (.int n), s')) s

def fnStateGet : StateFn := fun s => withKey "get" (fun key rest =>
  match s.get key, rest with
  | .null, d :: _ => (.ok d, s)
  | v, _ => (.ok v, s)) s

def fnStateSet : StateFn := fun s => withKey "set" (fun key rest =>
  (.ok (rest.headD .null), s.set key (rest.headD .null))) s

def fnStateRemove : StateFn := fun s => withKey "remove" (fun key _ =>
  let (found, s') := s.remove key
  (.ok (.bool found), s')) s

/-- The natives of `state`, by name. -/
def stateFns : List (String × StateFn) := [
  ("__state_incr", fnStateIncr),
  ("__state_decr", fnStateDecr),
  ("__state_get", fnStateGet),
  ("__state_set", fnStateSet),
  ("__state_remove", fnStateRemove)]

/-- What a call leaves in the store. -/
def storeAfter (s : SharedState) : Call → SharedState
  | .native name args => ((stateFns.lookup name).map fun f => (f s args).2).getD s
  | _ => s

/-- The store after a history, whose last call comes first. -/
def storeOf : List Event → SharedState
  | [] => []
  | e :: history => storeAfter (storeOf history) e.call

/-- The key that a call changes in the store. -/
def Call.changes : Call → Option String
  | .native name (.str key :: _) =>
    if name ∈ ["__state_incr", "__state_decr", "__state_set", "__state_remove"] then some key
    else none
  | _ => none

/-! ## The natives and methods -/

/-- The constants of a chunk are scalars. -/
def Chunk.Literal (chunk : Chunk) : Prop := ∀ v ∈ chunk.constants, v.box = none

instance (chunk : Chunk) : Decidable chunk.Literal :=
  inferInstanceAs (Decidable (∀ v ∈ chunk.constants, v.box = none))

/-- What the handlers of a project run: its functions and templates, and the natives
    of the request that a machine works for. -/
structure Project where
  functions : List Chunk
  plantillas : List Plantilla
  outside : ℕ → Oracle
  literal : ∀ c ∈ functions, c.Literal

/-- `xs.add(v)`, the one method that writes a box. -/
def addTo (heap : Heap) (addr : ℕ) : List Value → Answer
  | [v] => { value := .list addr, heap := heap.set addr (.list (listAt heap addr ++ [v])) }
  | _ => { value := .null, heap := heap,
           error := "'add()' recibe un numero de argumentos que no admite" }

/-- The result of a native of `state`. -/
def answerOf (heap : Heap) : Except String Value → Answer
  | .ok v => { value := v, heap := heap }
  | .error message => { value := .null, heap := heap, error := message }

/-- The natives of `state` and the method `add`; everything else is outside. -/
def Project.oracle (P : Project) (i : ℕ) : Oracle := fun w call =>
  match call with
  | .native name args =>
    match stateFns.lookup name with
    | some f => answerOf w.heap (f (storeOf w.history) args).1
    | none => P.outside i w call
  | .method (.list addr) "add" args => addTo w.heap addr args
  | _ => P.outside i w call

def Project.env (P : Project) (i : ℕ) : Env where
  functions := P.functions
  plantillas := P.plantillas
  oracle := P.oracle i

/-- A project whose natives outside `state` do nothing. -/
def Project.idle : Project := ⟨[], [], fun _ w _ => ⟨.null, "", w.heap⟩, nofun⟩

/-! ## Turns -/

/-- The boxes and the calls are common to all machines. -/
structure Server where
  world : World
  machines : ℕ → Option Vm

/-- What happens on a server.  A handler, or an expression of a template, starts on
    a machine; a machine takes a turn; a machine that waits is given its answer. -/
inductive Turn where
  | start (i : ℕ) (chunk : Chunk) (params : List Value) (boxes : List Obj)
  | tick (i : ℕ)
  | resume (i : ℕ) (v : Value) (boxes : List Obj)

/-- Values that come from outside: their boxes are new, or exist already. -/
def World.Receives (w : World) (vs : List Value) (boxes : List Obj) : Prop :=
  (∀ v ∈ vs, v.In (w.heap ++ boxes)) ∧ ∀ o ∈ boxes, ∀ v ∈ o.values, v.In (w.heap ++ boxes)

instance (w : World) (vs : List Value) (boxes : List Obj) : Decidable (w.Receives vs boxes) :=
  inferInstanceAs (Decidable (_ ∧ _))

def World.receive (w : World) (boxes : List Obj) : World := { w with heap := w.heap ++ boxes }

/-- The machine `i` goes on as `vm`. -/
def Server.install (s : Server) (i : ℕ) (vm : Vm) (w : World) : Server :=
  ⟨w, Function.update s.machines i (some vm)⟩

/-- A turn of the server, if it can be taken. -/
def Server.step (P : Project) (s : Server) : Turn → Option Server
  | .start i chunk params boxes =>
    let w := s.world.receive boxes
    if chunk.Literal ∧ s.world.Receives params boxes then
      some (s.install i (.start chunk params w) w)
    else none
  | .tick i =>
    match s.machines i with
    | some vm =>
      match Vm.tick (P.env i) { vm with world := s.world } with
      | .ok vm' => some (s.install i vm' vm'.world)
      | .error _ => none
    | none => none
  | .resume i v boxes =>
    match s.machines i with
    | some vm =>
      match vm.status with
      | .suspended _ _ =>
        if s.world.Receives [v] boxes then
          some (s.install i (vm.resume v) (s.world.receive boxes))
        else none
      | _ => none
    | none => none

/-- A server that has just been started. -/
def server (P : Project) : System Server Turn where
  init := { world := {}, machines := fun _ => none }
  step := Server.step P

end Osodio.Odio
