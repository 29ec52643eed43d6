import Osodio.Odio.Program
import Osodio.Odio.Vm

/-!
# Instructions specialised to integers

Where both sides of an operator look like integers, the emitter selects an
instruction of its own for it.  The machine does not trust the declared types: the
specialised instruction looks at both values and otherwise goes to the generic
code.  Replacing all of them by the generic ones is not noticed by any run.

## Main definitions

- `Vm.generico`, `Module.generico` — every instruction is its generic counterpart
- `Move`, `Vm.moves` — the turns of the machine and its resumptions

## Main results

- `Vm.tick_generico` — one turn
- `module_generico` — every run of a module
-/

namespace Osodio.Odio

/-! ## Generic counterparts -/

def Instr.generico (i : Instr) : Instr := { i with op := i.op.sinEspecializar }

def Chunk.generico (c : Chunk) : Chunk := { c with code := c.code.map Instr.generico }

def Frame.generico (f : Frame) : Frame := { f with chunk := f.chunk.generico }

def Vm.generico (vm : Vm) : Vm := { vm with frames := vm.frames.map Frame.generico }

def Env.generico (E : Env) : Env := { E with functions := E.functions.map Chunk.generico }

def Module.generico (M : Module) : Module := { M with chunks := M.chunks.map Chunk.generico }

/-- What a module runs against, with the natives given. -/
def Module.env (M : Module) (oracle : Oracle) : Env where
  functions := M.functions
  plantillas := M.plantillas
  oracle := oracle

/-! ## Runs -/

/-- What happens to a machine: a turn, or the end of an `await`. -/
inductive Move where
  | tick
  | resume (awaited : Value)

def Vm.move (E : Env) (vm : Vm) : Move → Except Fault Vm
  | .tick => vm.tick E
  | .resume awaited => .ok (vm.resume awaited)

/-- The state after a sequence of moves. -/
def Vm.moves (E : Env) (vm : Vm) : List Move → Except Fault Vm
  | [] => .ok vm
  | m :: ms => do
    let vm' ← vm.move E m
    vm'.moves E ms

/-! ## One instruction -/

namespace Vm

section Step

variable {E : Env} {vm : Vm} {loc : SourceLoc}

@[simp] theorem generico_stack : vm.generico.stack = vm.stack := rfl

@[simp] theorem generico_locals : vm.generico.locals = vm.locals := rfl

@[simp] theorem generico_world : vm.generico.world = vm.world := rfl

theorem generico_settle (stack : List Value) (r : OpResult) :
    vm.generico.settle stack loc r = (vm.settle stack loc r).generico := by
  cases r with
  | ok p => rfl
  | error message => rfl

theorem generico_settleCall (stack : List Value) (r : Except String Value × World) :
    vm.generico.settleCall stack loc r = (vm.settleCall stack loc r).generico := by
  obtain ⟨r, w⟩ := r
  cases r with
  | ok v => rfl
  | error message => rfl

theorem generico_unary (f : Heap → Value → OpResult) :
    vm.generico.unary loc f = (vm.unary loc f).map Vm.generico := by
  unfold Vm.unary
  rw [Vm.generico_stack]
  cases vm.stack with
  | nil => rfl
  | cons a st => exact congrArg Except.ok (Vm.generico_settle st _)

theorem generico_binary (f : Heap → Value → Value → OpResult) :
    vm.generico.binary loc f = (vm.binary loc f).map Vm.generico := by
  unfold Vm.binary
  rw [Vm.generico_stack]
  match vm.stack with
  | [] => rfl
  | [_] => rfl
  | b :: a :: st => exact congrArg Except.ok (Vm.generico_settle st _)

theorem generico_ternary (f : Heap → Value → Value → Value → OpResult) :
    vm.generico.ternary loc f = (vm.ternary loc f).map Vm.generico := by
  unfold Vm.ternary
  rw [Vm.generico_stack]
  match vm.stack with
  | [] => rfl
  | [_] => rfl
  | [_, _] => rfl
  | v :: b :: a :: st => exact congrArg Except.ok (Vm.generico_settle st _)

theorem generico_setPc (pc : ℕ) : vm.generico.setPc pc = (vm.setPc pc).generico := by
  obtain ⟨frames, stack, locals, steps, status, world⟩ := vm
  cases frames with
  | nil => rfl
  | cons f rest => rfl

theorem generico_leave (f : Frame) (rest : List Frame) (v : Value) :
    vm.generico.leave f.generico (rest.map Frame.generico) v =
      (vm.leave f rest v).generico := by
  cases rest with
  | nil => rfl
  | cons g rest => rfl

theorem generico_jump (f : Frame) (i : Instr) :
    vm.generico.jump f.generico i = (vm.jump f i).generico := by
  unfold Vm.jump
  have hpc : f.generico.pc = f.pc := rfl
  have hsteps : vm.generico.steps = vm.steps := rfl
  rw [hpc, hsteps]
  split
  · split
    · rfl
    · exact @Vm.generico_setPc { vm with steps := vm.steps + 1 } i.operand
  · exact Vm.generico_setPc i.operand

theorem generico_callFunction (i : Instr) :
    vm.generico.callFunction E.generico i = (vm.callFunction E i).map Vm.generico := by
  unfold Vm.callFunction
  have hf : E.generico.functions[calleeOf i.operand]? =
      E.functions[calleeOf i.operand]?.map Chunk.generico := List.getElem?_map
  have hl : vm.generico.frames.length = vm.frames.length := List.length_map _
  rw [hf, hl, Vm.generico_stack]
  cases E.functions[calleeOf i.operand]? with
  | none => rfl
  | some callee =>
    simp only [Option.map_some]
    split
    · rfl
    · cases popArgs (argcOf i.operand) vm.stack with
      | error fault => rfl
      | ok p =>
        obtain ⟨args, st⟩ := p
        by_cases hn : callee.numLocals < args.length
        · have hn' : callee.generico.numLocals < args.length := hn
          simp [hn, hn', bind, Except.bind, Except.map]
          rfl
        · have hn' : ¬ callee.generico.numLocals < args.length := hn
          simp [hn, hn', bind, Except.bind, Except.map]
          rfl

theorem especializada_addInt : especializada .addInt = addValues := by
  funext heap a b
  cases a <;> cases b <;> rfl

/-- The generic code recovers `-` and `*` from the specialised operations. -/
theorem especializada_arit {op : Op} (h : op = .subInt ∨ op = .mulInt) :
    especializada op = genericoArit op.sinEspecializar := by
  funext heap a b
  rcases h with rfl | rfl <;> cases a <;> cases b <;> rfl

/-- The generic code recovers the comparisons from the specialised operations. -/
theorem especializada_cmp {op : Op} (h : op = .ltInt ∨ op = .leInt ∨ op = .gtInt ∨ op = .geInt) :
    especializada op = genericoCmp op.sinEspecializar := by
  funext heap a b
  rcases h with rfl | rfl | rfl | rfl <;> cases a <;> cases b <;> rfl

/-- A specialised instruction does what its generic counterpart does. -/
theorem exec_sinEspecializar (f : Frame) (rest : List Frame) (i : Instr) :
    vm.exec E f rest i.generico = vm.exec E f rest i := by
  obtain ⟨op, operand, loc⟩ := i
  cases op with
  | addInt => exact congrArg (vm.binary loc) especializada_addInt.symm
  | subInt => exact congrArg (vm.binary loc) (especializada_arit (.inl rfl)).symm
  | mulInt => exact congrArg (vm.binary loc) (especializada_arit (.inr rfl)).symm
  | ltInt => exact congrArg (vm.binary loc) (especializada_cmp (.inl rfl)).symm
  | leInt => exact congrArg (vm.binary loc) (especializada_cmp (.inr (.inl rfl))).symm
  | gtInt => exact congrArg (vm.binary loc) (especializada_cmp (.inr (.inr (.inl rfl)))).symm
  | geInt => exact congrArg (vm.binary loc) (especializada_cmp (.inr (.inr (.inr rfl)))).symm
  | _ => rfl

/-- An instruction does the same over generic chunks. -/
theorem exec_generico (f : Frame) (rest : List Frame) (i : Instr) :
    vm.generico.exec E.generico f.generico (rest.map Frame.generico) i =
      (vm.exec E f rest i).map Vm.generico := by
  obtain ⟨op, operand, loc⟩ := i
  cases op with
  | const =>
    have hk : f.generico.chunk.constants = f.chunk.constants := rfl
    simp only [Vm.exec, hk]
    cases f.chunk.constants[operand]? <;> rfl
  | loadLocal =>
    have hb : f.generico.localsBase = f.localsBase := rfl
    simp only [Vm.exec, Vm.generico_locals, hb]
    cases vm.locals[f.localsBase + operand]? <;> rfl
  | storeLocal =>
    simp only [Vm.exec, Vm.generico_locals, Vm.generico_stack]
    cases vm.stack with
    | nil => rfl
    | cons v st =>
      show (if f.localsBase + operand < vm.locals.length then _ else _) = _
      by_cases hlt : f.localsBase + operand < vm.locals.length
      · simp only [if_pos hlt]
        rfl
      · simp only [if_neg hlt]
        rfl
  | pop =>
    simp only [Vm.exec, Vm.generico_stack]
    cases vm.stack <;> rfl
  | jump => exact congrArg Except.ok (Vm.generico_jump f _)
  | jumpIfFalse =>
    simp only [Vm.exec, Vm.generico_stack]
    cases vm.stack with
    | nil => rfl
    | cons v st =>
      by_cases hv : v.truthy vm.world.heap = true
      · have hv' : v.truthy vm.generico.world.heap = true := hv
        simp only [if_pos hv, if_pos hv']
        rfl
      · have hv' : ¬ v.truthy vm.generico.world.heap = true := hv
        simp only [if_neg hv, if_neg hv']
        exact congrArg Except.ok (@Vm.generico_setPc { vm with stack := st } operand)
  | jumpIfFalsePeek =>
    simp only [Vm.exec, Vm.generico_stack]
    cases vm.stack with
    | nil => rfl
    | cons v st =>
      by_cases hv : v.truthy vm.world.heap = true
      · have hv' : v.truthy vm.generico.world.heap = true := hv
        simp only [if_pos hv, if_pos hv']
        rfl
      · have hv' : ¬ v.truthy vm.generico.world.heap = true := hv
        simp only [if_neg hv, if_neg hv']
        exact congrArg Except.ok (Vm.generico_setPc operand)
  | jumpIfTruePeek =>
    simp only [Vm.exec, Vm.generico_stack]
    cases vm.stack with
    | nil => rfl
    | cons v st =>
      by_cases hv : v.truthy vm.world.heap = true
      · have hv' : v.truthy vm.generico.world.heap = true := hv
        simp only [if_pos hv, if_pos hv']
        exact congrArg Except.ok (Vm.generico_setPc operand)
      · have hv' : ¬ v.truthy vm.generico.world.heap = true := hv
        simp only [if_neg hv, if_neg hv']
        rfl
  | makeList =>
    simp only [Vm.exec, Vm.generico_stack, Vm.generico_world]
    cases popArgs operand vm.stack with
    | error fault => rfl
    | ok p => exact congrArg Except.ok (Vm.generico_settle p.2 _)
  | makeDict =>
    simp only [Vm.exec, Vm.generico_stack, Vm.generico_world]
    cases popArgs (operand * 2) vm.stack with
    | error fault => rfl
    | ok p => exact congrArg Except.ok (Vm.generico_settle p.2 _)
  | getMember =>
    show (f.chunk.name operand >>= fun name => vm.generico.unary loc (getMember name)) = _
    simp only [Vm.exec]
    cases f.chunk.name operand with
    | error fault => rfl
    | ok name => exact Vm.generico_unary _
  | setMember =>
    show (f.chunk.name operand >>= fun name => vm.generico.binary loc (setMember name)) = _
    simp only [Vm.exec]
    cases f.chunk.name operand with
    | error fault => rfl
    | ok name => exact Vm.generico_binary _
  | callFunction => exact Vm.generico_callFunction _
  | callMethod =>
    have hname : f.generico.chunk.name = f.chunk.name := rfl
    simp only [Vm.exec, Vm.generico_stack, Vm.generico_world, hname]
    cases popArgs (argcOf operand) vm.stack with
    | error fault => rfl
    | ok p =>
      obtain ⟨args, st⟩ := p
      cases f.chunk.name (calleeOf operand) with
      | error fault => rfl
      | ok name =>
        cases st with
        | nil => rfl
        | cons receiver st => exact congrArg Except.ok (Vm.generico_settleCall st _)
  | callNative =>
    simp only [Vm.exec, Vm.generico_stack, Vm.generico_world]
    cases popArgs (argcOf operand) vm.stack with
    | error fault => rfl
    | ok p =>
      obtain ⟨args, st⟩ := p
      simp only [bind, Except.bind]
      split
      · rfl
      · split
        · rfl
        · exact congrArg Except.ok (Vm.generico_settleCall st _)
  | callAsync =>
    simp only [Vm.exec, Vm.generico_stack]
    cases popArgs (argcOf operand) vm.stack <;> rfl
  | ret =>
    simp only [Vm.exec, Vm.generico_stack]
    cases vm.stack with
    | nil => rfl
    | cons v st =>
      exact congrArg Except.ok (@Vm.generico_leave { vm with stack := st } f rest v)
  | retNull => exact congrArg Except.ok (Vm.generico_leave f rest .null)
  | neg | not | iterList => exact Vm.generico_unary _
  | setIndex => exact Vm.generico_ternary _
  | _ => exact Vm.generico_binary _

theorem tick_generico : vm.generico.tick E.generico = (vm.tick E).map Vm.generico := by
  obtain ⟨frames, stack, locals, steps, status, world⟩ := vm
  cases status with
  | running =>
    cases frames with
    | nil => rfl
    | cons f rest =>
      have hcode : f.generico.chunk.code[f.generico.pc]? =
          f.chunk.code[f.pc]?.map Instr.generico := List.getElem?_map
      simp only [Vm.tick, Vm.generico, List.map_cons, hcode]
      cases f.chunk.code[f.pc]? with
      | none =>
        have h := @Vm.generico_leave ⟨f :: rest, stack, locals, steps, .running, world⟩
          f rest .null
        exact congrArg Except.ok h
      | some i =>
        have h := @Vm.exec_generico E
          ⟨{ f with pc := f.pc + 1 } :: rest, stack, locals, steps, .running, world⟩
          { f with pc := f.pc + 1 } rest i
        rw [← exec_sinEspecializar] at h
        exact h
  | raising message loc =>
    cases frames with
    | nil => rfl
    | cons f rest =>
      have hranges : findHandler f.generico.chunk.tryRanges (f.generico.pc - 1) =
          findHandler f.chunk.tryRanges (f.pc - 1) := rfl
      simp only [Vm.tick, Vm.generico, List.map_cons, hranges]
      cases findHandler f.chunk.tryRanges (f.pc - 1) <;> rfl
  | suspended id args => rfl
  | done value => rfl
  | error message loc => rfl

end Step

end Vm

/-! ## Runs -/

theorem Vm.move_generico (E : Env) (vm : Vm) (m : Move) :
    vm.generico.move E.generico m = (vm.move E m).map Vm.generico := by
  cases m with
  | tick => exact Vm.tick_generico
  | resume awaited => rfl

/-- The two machines go through the same states, but for the instructions. -/
theorem Vm.moves_generico (E : Env) (vm : Vm) (ms : List Move) :
    vm.generico.moves E.generico ms = (vm.moves E ms).map Vm.generico := by
  induction ms generalizing vm with
  | nil => rfl
  | cons m ms ih =>
    simp only [Vm.moves, Vm.move_generico]
    cases vm.move E m with
    | error fault => rfl
    | ok vm' => exact ih vm'

/-- Two machines that differ at most in the instructions they execute. -/
structure Vm.Agree (vm vm' : Vm) : Prop where
  stack : vm'.stack = vm.stack
  locals : vm'.locals = vm.locals
  steps : vm'.steps = vm.steps
  /-- How the run goes on, or its outcome. -/
  status : vm'.status = vm.status
  /-- The boxes, and the calls of natives and methods so far. -/
  world : vm'.world = vm.world
  frames : vm'.frames.map (fun f => (f.pc, f.localsBase, f.stackBase)) =
    vm.frames.map (fun f => (f.pc, f.localsBase, f.stackBase))

theorem Vm.agree_generico (vm : Vm) : vm.Agree vm.generico where
  stack := rfl
  locals := rfl
  steps := rfl
  status := rfl
  world := rfl
  frames := by
    show (vm.frames.map Frame.generico).map _ = _
    rw [List.map_map]
    rfl

/-- What two runs have in common: both are undefined in the same way, or they stand
    in states that agree. -/
def AgreeAt (r r' : Except Fault Vm) : Prop :=
  match r, r' with
  | .ok vm, .ok vm' => vm.Agree vm'
  | .error fault, .error fault' => fault = fault'
  | _, _ => False

theorem agreeAt_map (r : Except Fault Vm) : AgreeAt r (r.map Vm.generico) := by
  cases r with
  | error fault => exact rfl
  | ok vm => exact vm.agree_generico

/-- The chunks of a module without specialised instructions run as those that the
    emitter gave: at every step of every run, from every start state and with any
    natives. -/
theorem module_generico (M : Module) (oracle : Oracle) (c : Chunk) (params : List Value)
    (w : World) (ms : List Move) :
    AgreeAt ((Vm.start c params w).moves (M.env oracle) ms)
      ((Vm.start c.generico params w).moves (M.generico.env oracle) ms) := by
  have henv : M.generico.env oracle = (M.env oracle).generico := by
    simp only [Module.env, Env.generico, Module.functions, Module.generico, List.map_take]
  have hstart : Vm.start c.generico params w = (Vm.start c params w).generico := rfl
  rw [henv, hstart, Vm.moves_generico]
  exact agreeAt_map _

end Osodio.Odio
