import Osodio.Odio.Natives
import Osodio.Odio.Operations

/-!
# The virtual machine

The operand stack and the locals of all frames live in two vectors, with a base
for each frame.  A runtime error turns the machine into one that is raising: it
leaves frames until one of them has a handler for the instruction that failed.

## Main definitions

- `Call`, `Event`, `World` — the calls that leave the machine, and their history
- `Frame`, `Vm` — the state of the machine
- `Vm.start`, `Vm.resume` — how a segment of execution begins
- `Vm.tick` — one turn of `execute` or of `run_until_error`
-/

namespace Osodio.Odio

/-! ## The outside -/

/-- A call that leaves the machine. -/
inductive Call where
  | native (name : String) (args : List Value)
  | method (receiver : Value) (name : String) (args : List Value)
  | render (plantilla : String) (datos : Value)
  | await (name : String) (args : List Value)
  deriving Repr

/-- A call together with the boxes its arguments refer to. -/
structure Event where
  call : Call
  heap : Heap
  deriving Repr

/-- What is shared with the natives: the boxes, and the calls made so far, the
    last one first. -/
structure World where
  heap : Heap := []
  history : List Event := []
  deriving Repr

/-- What a native gives back; a text that is not empty is an error. -/
structure Answer where
  value : Value
  error : String := ""
  heap : Heap

/-- The natives and methods, as far as the machine can tell: an answer for each
    call, which may depend on everything that happened before. -/
abbrev Oracle := World → Call → Answer

/-- What the machine runs against: the functions and templates of the module and
    the natives. -/
structure Env where
  functions : List Chunk
  plantillas : List Plantilla
  oracle : Oracle

/-- A call to the outside. -/
def Oracle.ask (oracle : Oracle) (w : World) (call : Call) : Except String Value × World :=
  let a := oracle w call
  let w' : World := { heap := a.heap, history := ⟨call, w.heap⟩ :: w.history }
  (if a.error ≠ "" then .error a.error else .ok a.value, w')

/-- `fn_render_tpl`: the template at an index, with its data. -/
def fnRenderTpl (E : Env) (w : World) : List Value → Except String Value × World
  | .int i :: rest =>
    match if i < 0 then none else E.plantillas[i.toNatClampNeg]? with
    | some p => E.oracle.ask w (.render p.nombre (rest.headD .null))
    | none => (.error "render(): indice de plantilla fuera de rango", w)
  | _ => (.error "render(): plantilla no compilada", w)

/-- The native at an index.  `len` depends on its argument only, so it is not an
    event of the history. -/
def callNative (E : Env) (w : World) (id : ℕ) (args : List Value) : Except String Value × World :=
  if id = lenId then (lenOf w.heap (args.headD .null), w)
  else if id = renderTplId then fnRenderTpl E w args
  else E.oracle.ask w (.native (nativeAt id).name args)

/-! ## The state -/

/-- A call in progress. -/
structure Frame where
  chunk : Chunk
  pc : ℕ
  localsBase : ℕ
  stackBase : ℕ

/-- How the machine stands.  The last three are the results of a segment. -/
inductive Status where
  | running
  /-- An error is looking for a handler. -/
  | raising (message : String) (loc : SourceLoc)
  | suspended (id : ℕ) (args : List Value)
  | done (value : Value)
  | error (message : String) (loc : SourceLoc)

/-- The virtual machine.  The innermost frame and the top of the stack come
    first; the locals are in the order of their slots. -/
structure Vm where
  frames : List Frame
  stack : List Value
  locals : List Value
  steps : ℕ
  status : Status
  world : World

/-- `kStepLimit`. -/
def kStepLimit : ℕ := 50000000

/-- `kMaxFrames`. -/
def kMaxFrames : ℕ := 200

/-- What would be undefined behaviour. -/
inductive Fault where
  | emptyStack
  | constant
  | slot
  | native
  /-- A call of an asynchronous native, which has no function. -/
  | noFunction
  deriving DecidableEq, Repr

/-- `stack_.resize(n)`. -/
def resizeStack (n : ℕ) (stack : List Value) : List Value :=
  List.replicate (n - stack.length) .null ++ stack.drop (stack.length - n)

/-- `locals_.resize(n)`. -/
def resizeLocals (n : ℕ) (locals : List Value) : List Value :=
  locals.take n ++ List.replicate (n - locals.length) .null

/-- The last `n` values that were pushed, the oldest first, and what is below. -/
def popArgs (n : ℕ) (stack : List Value) : Except Fault (List Value × List Value) :=
  if n ≤ stack.length then .ok ((stack.take n).reverse, stack.drop n) else .error .emptyStack

/-- `chunk.constants[k].as_str()`. -/
def Chunk.name (chunk : Chunk) (k : ℕ) : Except Fault String :=
  match chunk.constants[k]? with
  | some (.str s) => .ok s
  | _ => .error .constant

namespace Vm

/-! ## Beginning a segment -/

/-- `VM::start`. -/
def start (chunk : Chunk) (params : List Value) (w : World) : Vm where
  frames := [⟨chunk, 0, 0, 0⟩]
  stack := []
  locals := params.take chunk.numLocals ++
    List.replicate (chunk.numLocals - params.length) .null
  steps := 0
  status := .running
  world := w

/-- `VM::resume`: the awaited value takes the place of the `await`. -/
def resume (vm : Vm) (awaited : Value) : Vm :=
  { vm with stack := awaited :: vm.stack, steps := 0, status := .running }

/-! ## The parts of an instruction -/

/-- `fail`. -/
def fail (vm : Vm) (message : String) (loc : SourceLoc) : Vm :=
  { vm with status := .raising message loc }

/-- Leaves the result of an operation on top of `stack`, or fails. -/
def settle (vm : Vm) (stack : List Value) (loc : SourceLoc) : OpResult → Vm
  | .ok (v, heap) => { vm with stack := v :: stack, world := { vm.world with heap := heap } }
  | .error message => { vm with stack := stack }.fail message loc

/-- Leaves the answer to a call on top of `stack`, or fails. -/
def settleCall (vm : Vm) (stack : List Value) (loc : SourceLoc) :
    Except String Value × World → Vm
  | (.ok v, w) => { vm with stack := v :: stack, world := w }
  | (.error message, w) => { vm with stack := stack, world := w }.fail message loc

def unary (vm : Vm) (loc : SourceLoc) (f : Heap → Value → OpResult) : Except Fault Vm :=
  match vm.stack with
  | a :: st => .ok (vm.settle st loc (f vm.world.heap a))
  | _ => .error .emptyStack

def binary (vm : Vm) (loc : SourceLoc) (f : Heap → Value → Value → OpResult) :
    Except Fault Vm :=
  match vm.stack with
  | b :: a :: st => .ok (vm.settle st loc (f vm.world.heap a b))
  | _ => .error .emptyStack

def ternary (vm : Vm) (loc : SourceLoc) (f : Heap → Value → Value → Value → OpResult) :
    Except Fault Vm :=
  match vm.stack with
  | v :: b :: a :: st => .ok (vm.settle st loc (f vm.world.heap a b v))
  | _ => .error .emptyStack

/-- Sets the program counter of the innermost frame. -/
def setPc (vm : Vm) (pc : ℕ) : Vm :=
  match vm.frames with
  | f :: rest => { vm with frames := { f with pc := pc } :: rest }
  | [] => vm

/-- Leaves the frame `f` for those below it, with a result for the caller. -/
def leave (vm : Vm) (f : Frame) (rest : List Frame) (v : Value) : Vm :=
  match rest with
  | [] => { vm with frames := [], status := .done v }
  | _ => { vm with
      frames := rest
      stack := v :: resizeStack f.stackBase vm.stack
      locals := resizeLocals f.localsBase vm.locals }

/-- `Op::Jump`: only the jumps that do not go forward are counted. -/
def jump (vm : Vm) (f : Frame) (i : Instr) : Vm :=
  if i.operand ≤ f.pc then
    if kStepLimit < vm.steps + 1 then
      { vm with steps := vm.steps + 1 }.fail
        "el handler supero el limite de pasos: bucle infinito?" i.loc
    else { vm with steps := vm.steps + 1 }.setPc i.operand
  else vm.setPc i.operand

/-- `Op::CallFunction`. -/
def callFunction (E : Env) (vm : Vm) (i : Instr) : Except Fault Vm :=
  match E.functions[calleeOf i.operand]? with
  | none => .ok (vm.fail "funcion no encontrada" i.loc)
  | some callee =>
    if kMaxFrames ≤ vm.frames.length then
      .ok (vm.fail ("demasiada recursion: mas de " ++ toString kMaxFrames ++
        " llamadas anidadas") i.loc)
    else do
      let (args, st) ← popArgs (argcOf i.operand) vm.stack
      if callee.numLocals < args.length then throw .slot
      return { vm with
        frames := ⟨callee, 0, vm.locals.length, st.length⟩ :: vm.frames
        stack := st
        locals := vm.locals ++ args ++
          List.replicate (callee.numLocals - args.length) .null }

/-! ## The instructions -/

/-- `generico_arit`, which a specialised operation enters with its own code. -/
def genericoArit (op : Op) : Heap → Value → Value → OpResult :=
  match op.sinEspecializar with
  | .mod => arithmetic .mod
  | .div => arithmetic .div
  | .sub => arithmetic .sub
  | _ => arithmetic .mul

/-- `generico_cmp`, likewise. -/
def genericoCmp (op : Op) : Heap → Value → Value → OpResult :=
  match op.sinEspecializar with
  | .lt => compareValues .lt
  | .le => compareValues .le
  | .gt => compareValues .gt
  | _ => compareValues .ge

/-- An operation specialised to integers: it looks at both sides, and goes to the
    generic code unless they are integers. -/
def especializada (op : Op) (heap : Heap) : Value → Value → OpResult
  | .int x, .int y =>
    match op with
    | .addInt => .ok (.int (x + y), heap)
    | .subInt => .ok (.int (x - y), heap)
    | .mulInt => .ok (.int (x * y), heap)
    | .ltInt => .ok (.bool (x < y), heap)
    | .leInt => .ok (.bool (x ≤ y), heap)
    | .gtInt => .ok (.bool (y < x), heap)
    | _ => .ok (.bool (y ≤ x), heap)
  | a, b =>
    match op with
    | .addInt => addValues heap a b
    | .subInt | .mulInt => genericoArit op heap a b
    | _ => genericoCmp op heap a b

/-- The instruction `i` of the innermost frame `f`, whose program counter has
    already gone past it. -/
def exec (E : Env) (vm : Vm) (f : Frame) (rest : List Frame) (i : Instr) : Except Fault Vm :=
  match i.op with
  | .const =>
    match f.chunk.constants[i.operand]? with
    | some v => .ok { vm with stack := v :: vm.stack }
    | none => .error .constant
  | .loadLocal =>
    match vm.locals[f.localsBase + i.operand]? with
    | some v => .ok { vm with stack := v :: vm.stack }
    | none => .error .slot
  | .storeLocal =>
    match vm.stack with
    | v :: st =>
      if f.localsBase + i.operand < vm.locals.length then
        .ok { vm with stack := st, locals := vm.locals.set (f.localsBase + i.operand) v }
      else .error .slot
    | [] => .error .emptyStack
  | .pop =>
    match vm.stack with
    | _ :: st => .ok { vm with stack := st }
    | [] => .error .emptyStack
  | .add => vm.binary i.loc addValues
  | .sub | .mul | .div | .mod => vm.binary i.loc (genericoArit i.op)
  | .neg => vm.unary i.loc negate
  | .eq => vm.binary i.loc eqValues
  | .ne => vm.binary i.loc neValues
  | .lt | .le | .gt | .ge => vm.binary i.loc (genericoCmp i.op)
  | .not => vm.unary i.loc notValue
  | .addInt | .subInt | .mulInt | .ltInt | .leInt | .gtInt | .geInt =>
    vm.binary i.loc (especializada i.op)
  | .jump => .ok (vm.jump f i)
  | .jumpIfFalse =>
    match vm.stack with
    | v :: st =>
      let vm' := { vm with stack := st }
      .ok (if v.truthy vm.world.heap then vm' else vm'.setPc i.operand)
    | [] => .error .emptyStack
  | .jumpIfFalsePeek =>
    match vm.stack with
    | v :: st =>
      .ok (if v.truthy vm.world.heap then { vm with stack := st } else vm.setPc i.operand)
    | [] => .error .emptyStack
  | .jumpIfTruePeek =>
    match vm.stack with
    | v :: st =>
      .ok (if v.truthy vm.world.heap then vm.setPc i.operand else { vm with stack := st })
    | [] => .error .emptyStack
  | .makeList => do
    let (items, st) ← popArgs i.operand vm.stack
    return vm.settle st i.loc (.ok (newList items vm.world.heap))
  | .makeDict => do
    let (keysAndValues, st) ← popArgs (i.operand * 2) vm.stack
    return vm.settle st i.loc (makeDict vm.world.heap keysAndValues)
  | .getIndex => vm.binary i.loc getIndex
  | .setIndex => vm.ternary i.loc setIndex
  | .iterList => vm.unary i.loc iterList
  | .getMember => do
    let name ← f.chunk.name i.operand
    vm.unary i.loc (getMember name)
  | .setMember => do
    let name ← f.chunk.name i.operand
    vm.binary i.loc (setMember name)
  | .callFunction => vm.callFunction E i
  | .callMethod => do
    let (args, st) ← popArgs (argcOf i.operand) vm.stack
    let name ← f.chunk.name (calleeOf i.operand)
    match st with
    | receiver :: st =>
      return vm.settleCall st i.loc (E.oracle.ask vm.world (.method receiver name args))
    | [] => throw .emptyStack
  | .callNative => do
    let (args, st) ← popArgs (argcOf i.operand) vm.stack
    if kNatives.length ≤ calleeOf i.operand then throw .native
    if (nativeAt (calleeOf i.operand)).isAsync then throw .noFunction
    return vm.settleCall st i.loc (callNative E vm.world (calleeOf i.operand) args)
  | .callAsync => do
    let (args, st) ← popArgs (argcOf i.operand) vm.stack
    return { vm with stack := st, status := .suspended (calleeOf i.operand) args }
  | .ret =>
    match vm.stack with
    | v :: st => .ok ({ vm with stack := st }.leave f rest v)
    | [] => .error .emptyStack
  | .retNull => .ok (vm.leave f rest .null)

/-! ## One turn of the loops -/

/-- The handler `h` of the innermost frame takes the error as a value.  The step
    counter belongs to `run_until_error`, which is entered anew. -/
def enterCatch (vm : Vm) (f : Frame) (rest : List Frame) (h : TryRange) (message : String) : Vm :=
  let (v, heap) := errorValue message vm.world.heap
  { vm with
    frames := { f with pc := h.catchPc } :: rest
    stack := v :: resizeStack f.stackBase vm.stack
    steps := 0
    status := .running
    world := { vm.world with heap := heap } }

/-- An error leaves the frame `f`, which has no handler for it. -/
def dropFrame (vm : Vm) (f : Frame) (rest : List Frame) : Vm :=
  { vm with
    frames := rest
    stack := resizeStack f.stackBase vm.stack
    locals := resizeLocals f.localsBase vm.locals }

/-- One turn: an instruction, or one frame of the search for a handler. -/
def tick (E : Env) (vm : Vm) : Except Fault Vm :=
  match vm.status with
  | .running =>
    match vm.frames with
    | [] => .ok { vm with status := .done .null }
    | f :: rest =>
      match f.chunk.code[f.pc]? with
      | none => .ok (vm.leave f rest .null)
      | some i =>
        let f' := { f with pc := f.pc + 1 }
        exec E { vm with frames := f' :: rest } f' rest i
  | .raising message loc =>
    match vm.frames with
    | [] => .ok { vm with status := .error message loc }
    | f :: rest =>
      match findHandler f.chunk.tryRanges (f.pc - 1) with
      | some h => .ok (vm.enterCatch f rest h message)
      | none => .ok (vm.dropFrame f rest)
  | _ => .ok vm

/-- The segment is over: `start` or `resume` has returned. -/
def halted (vm : Vm) : Bool :=
  match vm.status with
  | .suspended .. | .done _ | .error .. => true
  | _ => false

end Vm

end Osodio.Odio
