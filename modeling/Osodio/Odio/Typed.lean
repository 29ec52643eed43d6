import Osodio.Lib.Transition
import Osodio.Odio.Chunks
import Osodio.Odio.Control
import Osodio.Odio.Reads
import Osodio.Odio.Specialisation

/-!
# Values are read at their type

A handler is a machine and the driver of its route.  In every run, everything that the machine,
the natives, the methods and the driver read has the type it is read at, or an error is raised
first, as long as the three values that are not looked at have theirs.

## Main definitions

- `Chunk.Named` — the constants that instructions use as names are strings
- `Vm.reads`, `avanceReads` — what a turn of the machine and a step of a handler read
- `handler` — a handler, with any results of the natives
- `Typed` — a step reads values at their type, or raises an error
- `AptStep` — the condition on the state before a step

## Main results

- `Chunk.Emitted.named` — the code of an accepted program has its names
- `exec_tells` — one instruction
- `reads_typed` — every run
-/

namespace Osodio.Odio

open Osodio.Lib

/-! ## Names -/

/-- The constant that an instruction uses as a name is a string. -/
def Instr.Named (c : Chunk) (i : Instr) : Prop :=
  match i.op with
  | .getMember | .setMember => ∃ name, c.constants[i.operand]? = some (.str name)
  | .callMethod => ∃ name, c.constants[calleeOf i.operand]? = some (.str name)
  | _ => True

def Chunk.Named (c : Chunk) : Prop := ∀ i ∈ c.code, i.Named c

/-- The emitter has made the chunk: of a handler, a function, a rule or an expression of a
    template. -/
def Chunk.Emitted (c : Chunk) : Prop :=
  ∃ X fuel b ps s, compileBody X fuel b ps = .ok s ∧ s.chunk = c

/-- Every instruction between two positions has its name. -/
def NamedOn (c : Chunk) (a b : ℕ) : Prop :=
  ∀ p, a ≤ p → p < b → ∃ i, c.code[p]? = some i ∧ i.Named c

section Names

variable {K : Context} {lt : Option (ℕ × ℕ)} {nest : List TryRange} {t : Tree} {a b d p k : ℕ}
  {c : Chunk} {op : Op} {loc : SourceLoc}

theorem NamedOn.empty : NamedOn c a a := by
  intro p hap hpb
  omega

theorem NamedOn.append (h : NamedOn c a b) (h' : NamedOn c b d) : NamedOn c a d := by
  intro p hap hpd
  by_cases hpb : p < b
  · exact h p hap hpb
  · exact h' p (by omega) hpd

theorem NamedOn.one (h : InstrAt K nest a op k loc) (hn : Instr.Named K.chunk ⟨op, k, loc⟩) :
    NamedOn K.chunk a (a + 1) := by
  intro p hap hpa
  obtain rfl : p = a := by omega
  exact ⟨_, h.code, hn⟩

theorem Atom.Encodes.named {u : Atom} (h : u.Encodes K k) (loc : SourceLoc) :
    Instr.Named K.chunk ⟨u.code, k, loc⟩ := by
  cases u with
  | getMember name => exact ⟨name, h⟩
  | setMember name => exact ⟨name, h⟩
  | callMethod name argc =>
    obtain ⟨hargc, -, j, rfl, hj⟩ := h
    refine ⟨name, ?_⟩
    change K.chunk.constants[calleeOf (callOperand j argc)]? = _
    rw [calleeOf_callOperand j hargc]
    exact hj
  | op o =>
    -- the operations that use a name are not operations on values only
    cases o <;> first | exact trivial | exact absurd h.2 (by decide)
  | _ => trivial

/-- The code of a tree has its names. -/
theorem Lay.namedOn (h : Lay K lt nest t a b) : NamedOn K.chunk a b := by
  induction h with
  | nil => exact .empty
  | atom hi he => exact .one hi (he.named _)
  | seq _ _ iht ihu => exact iht.append ihu
  | ret hi => exact .one hi trivial
  | retNull hi => exact .one hi trivial
  | @peek lt nest op t loc a b hi _ ih =>
    refine NamedOn.append (.one hi ?_) ih
    split <;> trivial
  | cond hi _ hj _ iht ihu =>
    exact (NamedOn.append (.one hi trivial) iht).append (NamedOn.append (.one hj trivial) ihu)
  | when hi _ ih => exact NamedOn.append (.one hi trivial) ih
  | «unless» hi hj _ ih =>
    exact NamedOn.append (.one hi trivial) (NamedOn.append (.one hj trivial) ih)
  | loop _ hi _ _ hj ihh ihb ihs =>
    exact (ihh.append (NamedOn.append (.one hi trivial) ihb)).append
      (ihs.append (.one hj trivial))
  | brk hi => exact .one hi trivial
  | cont hi => exact .one hi trivial
  | tryCatch _ hj _ ihb ihh => exact ihb.append (NamedOn.append (.one hj trivial) ihh)

/-- **The code of an accepted program has its names.** -/
theorem Chunk.Emitted.named (h : c.Emitted) : c.Named := by
  obtain ⟨X, fuel, b, ps, s, hs, rfl⟩ := h
  obtain ⟨t, -, ht⟩ := (compileBody_spec hs List.prefix_rfl (List.Subset.refl _)).2.tree
  intro i hi
  obtain ⟨p, hp, rfl⟩ := List.getElem_of_mem hi
  obtain ⟨j, hj, hnamed⟩ := ht.namedOn p (Nat.zero_le p) hp
  obtain rfl : s.chunk.code[p] = j := Option.some.inj ((List.getElem?_eq_getElem hp).symm.trans hj)
  exact hnamed

theorem compileAll_emitted {emitter : Body → Emitter} {fuel : ℕ} {ps : List Plantilla}
    {bs : List Body} {out : Emitted} (h : compileAll emitter fuel ps bs = .ok out) :
    ∀ c ∈ out.chunks, c.Emitted := by
  induction bs generalizing ps out with
  | nil =>
    obtain rfl : { plantillas := ps } = out := Except.ok.inj h
    exact nofun
  | cons b bs ih =>
    obtain ⟨s, rest, hb, hbs, rfl⟩ := compileAll_cons h
    intro c hc
    rcases List.mem_cons.1 hc with rfl | hc
    · exact ⟨_, _, _, _, _, hb, rfl⟩
    · exact ih hbs c hc

/-- The chunks of a module that compiles. -/
theorem compile_emitted {compilar : PlantillaCompiler} {fuel : ℕ} {p : Program} {M : Module}
    (h : compile compilar fuel p = .ok M) : ∀ c ∈ M.chunks, c.Emitted := by
  simp only [compile, bind, Except.bind] at h
  split at h
  · cases h
  split at h
  · cases h
  split at h
  · cases h
  split at h
  · cases h
  next out hout =>
    cases h
    exact compileAll_emitted hout

end Names

/-! ## What a turn reads -/

namespace Vm

variable {α : Type}

/-- What an operation on the value on top of the stack reads. -/
def reads₁ (vm : Vm) (f : Heap → Value → Reading α) : Reading Unit :=
  match vm.stack with
  | a :: _ => discard (f vm.world.heap a)
  | _ => .ok ()

def reads₂ (vm : Vm) (f : Heap → Value → Value → Reading α) : Reading Unit :=
  match vm.stack with
  | b :: a :: _ => discard (f vm.world.heap a b)
  | _ => .ok ()

def reads₃ (vm : Vm) (f : Heap → Value → Value → Value → Reading α) : Reading Unit :=
  match vm.stack with
  | v :: b :: a :: _ => discard (f vm.world.heap a b v)
  | _ => .ok ()

end Vm

/-- `chunk.constants[k]`. -/
def Chunk.constant (c : Chunk) (k : ℕ) : Value := c.constants.getD k .null

/-- The call of an instruction: its native or its method, with the operands. -/
def Instr.call (i : Instr) (c : Chunk) (vm : Vm) : Option Call :=
  match i.op, popArgs (argcOf i.operand) vm.stack with
  | .callMethod, .ok (args, recv :: _) =>
    match c.constants[calleeOf i.operand]? with
    | some (.str name) => some (.method recv name args)
    | _ => none
  | .callNative, .ok (args, _) => some (.native (nativeAt (calleeOf i.operand)).name args)
  | _, _ => none

/-- What an instruction reads.  Without enough operands it is a fault of another kind. -/
def Instr.reads (C : CtxView) (plantillas : List Plantilla) (i : Instr) (c : Chunk) (vm : Vm) :
    Reading Unit :=
  match i.op with
  | .add => vm.reads₂ Reading.addValues
  | .sub | .mul | .div | .mod => vm.reads₂ (Reading.genericoArit i.op)
  | .neg => vm.reads₁ Reading.negate
  | .lt | .le | .gt | .ge => vm.reads₂ (Reading.genericoCmp i.op)
  | .addInt | .subInt | .mulInt | .ltInt | .leInt | .gtInt | .geInt =>
    vm.reads₂ (Reading.especializada i.op)
  | .makeDict =>
    match popArgs (i.operand * 2) vm.stack with
    | .ok (keysAndValues, _) => discard (Reading.makeDict vm.world.heap keysAndValues)
    | .error _ => .ok ()
  | .getIndex => vm.reads₂ Reading.getIndex
  | .setIndex => vm.reads₃ Reading.setIndex
  | .iterList => vm.reads₁ Reading.iterList
  | .getMember => vm.reads₁ (Reading.getMember (c.constant i.operand))
  | .setMember => vm.reads₂ (Reading.setMember (c.constant i.operand))
  | .callMethod =>
    match popArgs (argcOf i.operand) vm.stack with
    | .ok (args, recv :: _) => do
      let name ← Reading.asStr (c.constant (calleeOf i.operand))
      (Call.method recv name args).reads C plantillas vm.world.heap
    | _ => .ok ()
  | .callNative =>
    match popArgs (argcOf i.operand) vm.stack with
    | .ok (args, _) =>
      (Call.native (nativeAt (calleeOf i.operand)).name args).reads C plantillas vm.world.heap
    | .error _ => .ok ()
  | _ => .ok ()

/-- What the next turn of a machine reads. -/
def Vm.reads (C : CtxView) (plantillas : List Plantilla) (vm : Vm) : Reading Unit :=
  match vm.status, vm.frames with
  | .running, f :: _ =>
    match f.chunk.code[f.pc]? with
    | some i => i.reads C plantillas f.chunk vm
    | none => .ok ()
  | _, _ => .ok ()

/-- Natives that raise the error of a test, and otherwise give any result. -/
def CtxView.oracle (C : CtxView) (plantillas : List Plantilla) (O : Oracle) : Oracle :=
    fun w call =>
  match call.reads C plantillas w.heap with
  | .error (.error message) => { value := .null, error := message, heap := w.heap }
  | _ => O w call

/-- What a module runs against, for a request. -/
def Module.envFor (M : Module) (C : CtxView) (O : Oracle) : Env :=
  M.env (C.oracle M.plantillas O)

/-! ## One instruction -/

/-- A turn that reads `x` reads every value at its type, or raises the error of the test. -/
def Tells (x : Reading Unit) (r : Except Fault Vm) : Prop :=
  match x with
  | .ok _ => True
  | .error (.error message) => ∀ vm', r = .ok vm' → ∃ loc, vm'.status = .raising message loc
  | .error (.confusion _ _) => False

section Turn

open Reading

variable {α : Type} {vm : Vm} {f : Frame} {rest : List Frame} {i : Instr} {loc : SourceLoc}
  {r : Except Fault Vm} {E : Env}

theorem tells_settle (res : OpResult) (st : List Value) :
    Tells (discard (lift res)) (.ok (vm.settle st loc res)) := by
  cases res with
  | ok p => exact trivial
  | error message =>
    rintro _ ⟨⟩
    exact ⟨loc, rfl⟩

theorem tells_unary {g : Heap → Value → Reading (Value × Heap)} {f : Heap → Value → OpResult}
    (h : ∀ heap a, g heap a = lift (f heap a)) : Tells (vm.reads₁ g) (vm.unary loc f) := by
  unfold Vm.reads₁ Vm.unary
  cases vm.stack with
  | nil => exact trivial
  | cons a st =>
    change Tells (discard (g _ a)) _
    rw [h]
    exact tells_settle _ _

theorem tells_binary {g : Heap → Value → Value → Reading (Value × Heap)}
    {f : Heap → Value → Value → OpResult} (h : ∀ heap a b, g heap a b = lift (f heap a b)) :
    Tells (vm.reads₂ g) (vm.binary loc f) := by
  unfold Vm.reads₂ Vm.binary
  match vm.stack with
  | [] | [_] => exact trivial
  | b :: a :: st =>
    change Tells (discard (g _ a b)) _
    rw [h]
    exact tells_settle _ _

theorem tells_ternary {g : Heap → Value → Value → Value → Reading (Value × Heap)}
    {f : Heap → Value → Value → Value → OpResult}
    (h : ∀ heap a b v, g heap a b v = lift (f heap a b v)) :
    Tells (vm.reads₃ g) (vm.ternary loc f) := by
  unfold Vm.reads₃ Vm.ternary
  match vm.stack with
  | [] | [_] | [_, _] => exact trivial
  | v :: b :: a :: st =>
    change Tells (discard (g _ a b v)) _
    rw [h]
    exact tells_settle _ _

/-- A turn that makes a call. -/
theorem tells_call_iff {x : Reading Unit} {p : Prop} (hx : GuardedIff x p)
    (h : ∀ message, message ≠ "" → x = .error (.error message) → ∀ vm', r = .ok vm' →
      ∃ loc, vm'.status = .raising message loc) : Tells x r ↔ p := by
  by_cases hp : p
  · refine iff_of_true ?_ hp
    cases x with
    | ok u => exact trivial
    | error s =>
      obtain ⟨message, hm, rfl⟩ := hx.guarded hp s rfl
      exact h message hm rfl
  · obtain ⟨v, t, rfl⟩ := hx.confuses hp
    exact iff_of_false id hp

theorem settleCall_raises {st : List Value} {res : Except String Value × World} {message : String}
    (h : res.1 = .error message) : (vm.settleCall st loc res).status = .raising message loc := by
  obtain ⟨_, w⟩ := res
  cases h
  rfl

section Calls

variable {C : CtxView} {O : Oracle} {w : World} {message : String}

/-- The error of a test is that of the native. -/
theorem ask_error {plantillas : List Plantilla} {call : Call} (hm : message ≠ "")
    (h : call.reads C plantillas w.heap = .error (.error message)) :
    ((C.oracle plantillas O).ask w call).1 = .error message := by
  have hanswer : C.oracle plantillas O w call = ⟨.null, message, w.heap⟩ := by
    rw [CtxView.oracle, h]
  rw [Oracle.ask, hanswer]
  exact if_pos hm

theorem fnRenderTpl_error {args : List Value}
    (h : discard (Reading.fnRenderTpl E.plantillas args) = .error (.error message)) :
    (Odio.fnRenderTpl E w args).1 = .error message := by
  cases args with
  | nil =>
    cases h
    rfl
  | cons a rest =>
    cases a with
    | int n =>
      have hint : Reading.asInt (arg 0 (.int n :: rest)) = .ok n := rfl
      have hidx : (arg 0 (.int n :: rest)).isInt = true := rfl
      simp only [Reading.fnRenderTpl, hidx, Bool.not_true, Bool.false_eq_true, if_false, hint, bind,
        Except.bind] at h
      dsimp only [Odio.fnRenderTpl]
      cases hp : (if n < 0 then none else E.plantillas[n.toNatClampNeg]? : Option Plantilla) with
      | none =>
        rw [hp] at h
        cases h
        rfl
      | some p =>
        -- the dictionary is read once it is known to be one
        rw [hp] at h
        dsimp only at h
        split at h
        · cases hv : arg 1 (.int n :: rest) <;> rw [hv] at h <;> cases h
        · cases h
    | _ =>
      cases h
      rfl

theorem callNative_error (hE : E.oracle = C.oracle E.plantillas O) {id : ℕ} {args : List Value}
    (hm : message ≠ "")
    (h : (Call.native (nativeAt id).name args).reads C E.plantillas w.heap =
      .error (.error message)) : (callNative E w id args).1 = .error message := by
  unfold callNative
  split
  · next hid =>
    subst hid
    have harg : args.headD .null = arg 0 args := by cases args <;> rfl
    have hlen : discard (Reading.fnLen w.heap args) = .error (.error message) := h
    rw [fnLen_eq] at hlen
    change lenOf w.heap (args.headD .null) = _
    rw [harg]
    cases hl : lenOf w.heap (arg 0 args) with
    | ok v =>
      rw [hl] at hlen
      cases hlen
    | error m =>
      rw [hl] at hlen
      cases hlen
      rfl
  split
  · next hid =>
    subst hid
    exact fnRenderTpl_error h
  · rw [hE]
    exact ask_error hm h

theorem call_eq_none {c : Chunk} (hmethod : i.op ≠ .callMethod) (hnative : i.op ≠ .callNative) :
    i.call c vm = none := by
  unfold Instr.call
  split
  · next hop _ => exact absurd hop hmethod
  · next hop _ => exact absurd hop hnative
  · rfl

theorem Chunk.name_eq {c : Chunk} {k : ℕ} {name : String}
    (h : c.constants[k]? = some (.str name)) : c.constant k = .str name ∧ c.name k = .ok name := by
  constructor
  · rw [Chunk.constant, List.getD_eq_getElem?_getD, h]
    rfl
  · rw [Chunk.name, h]

/-- An instruction that makes no call. -/
theorem tells_of_no_call (hn : i.Named f.chunk) (hmethod : i.op ≠ .callMethod)
    (hnative : i.op ≠ .callNative) :
    Tells (i.reads C E.plantillas f.chunk vm) (Vm.exec E vm f rest i) := by
  obtain ⟨op, k, loc⟩ := i
  cases op with
  | add => exact tells_binary addValues_eq
  | sub | mul | div | mod => exact tells_binary (genericoArit_eq _)
  | neg => exact tells_unary negate_eq
  | lt | le | gt | ge => exact tells_binary (genericoCmp_eq _)
  | addInt | subInt | mulInt | ltInt | leInt | gtInt | geInt =>
    exact tells_binary (especializada_eq _)
  | makeDict =>
    simp only [Instr.reads, Vm.exec]
    cases popArgs (k * 2) vm.stack with
    | error fault => exact trivial
    | ok p =>
      dsimp only
      rw [makeDict_eq]
      exact tells_settle _ _
  | getIndex => exact tells_binary getIndex_eq
  | setIndex => exact tells_ternary setIndex_eq
  | iterList => exact tells_unary iterList_eq
  | getMember =>
    obtain ⟨name, hname⟩ := hn
    obtain ⟨hconstant, hname⟩ := Chunk.name_eq hname
    simp only [Instr.reads, Vm.exec, hconstant, hname]
    exact tells_unary fun heap a => getMember_eq heap a name
  | setMember =>
    obtain ⟨name, hname⟩ := hn
    obtain ⟨hconstant, hname⟩ := Chunk.name_eq hname
    simp only [Instr.reads, Vm.exec, hconstant, hname]
    exact tells_binary fun heap a b => setMember_eq heap a b name
  | callMethod => exact absurd rfl hmethod
  | callNative => exact absurd rfl hnative
  | _ => exact trivial

theorem tells_callMethod (hE : E.oracle = C.oracle E.plantillas O) {c : Chunk} {k : ℕ}
    (hn : Instr.Named c ⟨.callMethod, k, loc⟩) :
    Tells (Instr.reads C E.plantillas ⟨.callMethod, k, loc⟩ c vm) (do
      let (args, st) ← popArgs (argcOf k) vm.stack
      let name ← c.name (calleeOf k)
      match st with
      | receiver :: st =>
        return vm.settleCall st loc (E.oracle.ask vm.world (.method receiver name args))
      | [] => throw .emptyStack) ↔
    ∀ call, Instr.call ⟨.callMethod, k, loc⟩ c vm = some call → call.Apt C vm.world.heap := by
  obtain ⟨name, hname⟩ := hn
  obtain ⟨hconstant, hname'⟩ := Chunk.name_eq hname
  simp only [Instr.reads, Instr.call, hconstant, hname, hname']
  cases popArgs (argcOf k) vm.stack with
  | error fault => exact iff_of_true trivial nofun
  | ok p =>
    obtain ⟨args, st⟩ := p
    cases st with
    | nil => exact iff_of_true trivial nofun
    | cons receiver st =>
      refine (tells_call_iff (Call.guardedIff C E.plantillas vm.world.heap
        (.method receiver name args)) ?_).trans ?_
      · rintro message hm h _ ⟨⟩
        exact ⟨loc, settleCall_raises (hE ▸ ask_error hm h)⟩
      · exact ⟨fun h _ hc => Option.some.inj hc ▸ h, fun h => h _ rfl⟩

theorem tells_callNative (hE : E.oracle = C.oracle E.plantillas O) {c : Chunk} {k : ℕ} :
    Tells (Instr.reads C E.plantillas ⟨.callNative, k, loc⟩ c vm) (do
      let (args, st) ← popArgs (argcOf k) vm.stack
      if kNatives.length ≤ calleeOf k then throw .native
      if (nativeAt (calleeOf k)).isAsync then throw .noFunction
      return vm.settleCall st loc (callNative E vm.world (calleeOf k) args)) ↔
    ∀ call, Instr.call ⟨.callNative, k, loc⟩ c vm = some call → call.Apt C vm.world.heap := by
  simp only [Instr.reads, Instr.call]
  cases popArgs (argcOf k) vm.stack with
  | error fault => exact iff_of_true trivial nofun
  | ok p =>
    obtain ⟨args, st⟩ := p
    refine (tells_call_iff (Call.guardedIff C E.plantillas vm.world.heap
      (.native (nativeAt (calleeOf k)).name args)) ?_).trans ?_
    · intro message hm h vm' hvm'
      simp only [bind, Except.bind] at hvm'
      split at hvm'
      · cases hvm'
      split at hvm'
      · cases hvm'
      · cases hvm'
        exact ⟨loc, settleCall_raises (callNative_error hE hm h)⟩
    · exact ⟨fun h _ hc => Option.some.inj hc ▸ h, fun h => h _ rfl⟩

/-- **One instruction** reads every value at its type, or raises the error of a test, exactly if
    the call that it makes is apt. -/
theorem exec_tells (vm : Vm) (f : Frame) (rest : List Frame)
    (hE : E.oracle = C.oracle E.plantillas O) (hn : i.Named f.chunk) :
    Tells (i.reads C E.plantillas f.chunk vm) (Vm.exec E vm f rest i) ↔
      ∀ call, i.call f.chunk vm = some call → call.Apt C vm.world.heap := by
  by_cases hmethod : i.op = .callMethod
  · obtain ⟨op, k, loc⟩ := i
    subst hmethod
    exact tells_callMethod hE hn
  by_cases hnative : i.op = .callNative
  · obtain ⟨op, k, loc⟩ := i
    subst hnative
    exact tells_callNative hE
  refine iff_of_true (tells_of_no_call hn hmethod hnative) fun call hc => ?_
  rw [call_eq_none hmethod hnative] at hc
  cases hc

end Calls

end Turn

/-! ## A handler -/

/-- What happens to a handler. -/
inductive Avance where
  /-- The driver of the route has read the request, and starts the machine. -/
  | start (sobre : Sobre) (params : List Value) (w : World)
  | tick
  /-- A template that a native draws goes through a value. -/
  | bucle (v : Value)
  /-- The driver has read what is awaited, and gives the result to the machine.  Meanwhile others
      have been at the boxes. -/
  | resume (awaited : Value) (w : World)

/-- What a step reads. -/
def avanceReads (C : CtxView) (plantillas : List Plantilla) : Option Vm → Avance → Reading Unit
  | none, .start sobre _ w => Reading.startReads C w.heap sobre
  | some vm, .tick => vm.reads C plantillas
  | some vm, .bucle v => discard (Reading.bucleInicio vm.world.heap v)
  | some vm, .resume _ _ =>
    match vm.status with
    | .suspended id args => (Call.await (nativeAt id).name args).reads C plantillas vm.world.heap
    | _ => .ok ()
  | _, _ => .ok ()

/-- The machine after a step. -/
def avanceNext (E : Env) (c : Chunk) : Option Vm → Avance → Option Vm
  | none, .start _ params w => some (.start c params w)
  | some vm, .tick => (vm.tick E).toOption
  | some vm, .bucle _ => some vm
  | some vm, .resume awaited w =>
    match vm.status with
    | .suspended _ _ => some ({ vm with world := w }.resume awaited)
    | _ => none
  | _, _ => none

/-- A handler, whose machine runs the chunk `c`.  It does not go on once a value has been read at
    another type. -/
def handler (C : CtxView) (E : Env) (c : Chunk) : System (Option Vm) Avance where
  init := none
  step s e :=
    match avanceReads C E.plantillas s e with
    | .error (.confusion _ _) => none
    | _ => (avanceNext E c s e).map some

/-- The call of the next turn of a machine. -/
def Vm.call (vm : Vm) : Option Call :=
  match vm.status, vm.frames with
  | .running, f :: _ => (f.chunk.code[f.pc]?).bind fun i => i.call f.chunk vm
  | _, _ => none

/-- The call of a step, what is awaited included. -/
def avanceCall (vm : Vm) : Avance → Option Call
  | .tick => vm.call
  | .resume _ _ =>
    match vm.status with
    | .suspended id args => some (.await (nativeAt id).name args)
    | _ => none
  | _ => none

/-- A step reads every value at its type; a turn of the machine raises an error otherwise. -/
def Typed (C : CtxView) (E : Env) : Option Vm → Avance → Prop
  | some vm, .tick => Tells (vm.reads C E.plantillas) (vm.tick E)
  | s, e => ∀ v t, avanceReads C E.plantillas s e ≠ .error (.confusion v t)

/-- The call of a step is apt. -/
def AptStep (C : CtxView) (s : Option Vm) (e : Avance) : Prop :=
  ∀ vm call, s = some vm → avanceCall vm e = some call → call.Apt C vm.world.heap

/-- The chunks of all frames have their names. -/
def NamedFrames (frames : List Frame) : Prop := ∀ f ∈ frames, f.chunk.Named

theorem NamedFrames.cons {f : Frame} {rest : List Frame} (hf : f.chunk.Named)
    (h : NamedFrames rest) : NamedFrames (f :: rest) := by
  intro g hg
  rcases List.mem_cons.1 hg with rfl | hg
  · exact hf
  · exact h g hg

def Vm.Named (vm : Vm) : Prop := NamedFrames vm.frames

section Handler

variable {C : CtxView} {O : Oracle} {E : Env} {c : Chunk} {vm vm' : Vm} {s s' : Option Vm}
  {e : Avance}

theorem Reading.Guarded.ne {x : Reading Unit} (h : Reading.Guarded x) (v : Value) (t : Tipo) :
    x ≠ .error (.confusion v t) := by
  intro hx
  obtain ⟨_, -, he⟩ := h _ hx
  cases he

/-- One turn of a machine. -/
theorem tick_tells (hE : E.oracle = C.oracle E.plantillas O) (hn : vm.Named) :
    Tells (vm.reads C E.plantillas) (vm.tick E) ↔
      ∀ call, vm.call = some call → call.Apt C vm.world.heap := by
  obtain ⟨frames, stack, locals, steps, status, world⟩ := vm
  cases status with
  | running =>
    cases frames with
    | nil => exact iff_of_true trivial (by rintro call ⟨⟩)
    | cons f rest =>
      simp only [Vm.reads, Vm.tick, Vm.call]
      cases hi : f.chunk.code[f.pc]? with
      | none => exact iff_of_true trivial (by rintro call ⟨⟩)
      | some i =>
        have hnamed : i.Named f.chunk := hn f (by simp) i (List.mem_of_getElem? hi)
        exact exec_tells ⟨{ f with pc := f.pc + 1 } :: rest, stack, locals, steps, .running, world⟩
          { f with pc := f.pc + 1 } rest hE hnamed
  | _ => exact iff_of_true trivial (by rintro call ⟨⟩)

/-- One step of a handler. -/
theorem step_typed (hE : E.oracle = C.oracle E.plantillas O)
    (hs : ∀ vm, s = some vm → vm.Named) (e : Avance) : Typed C E s e ↔ AptStep C s e := by
  cases s with
  | none =>
    refine iff_of_true ?_ nofun
    cases e with
    | start sobre params w => exact (Reading.guarded_startReads C w.heap sobre).ne
    | _ => exact nofun
  | some vm =>
    have hapt : AptStep C (some vm) e ↔ ∀ call, avanceCall vm e = some call →
        call.Apt C vm.world.heap := by
      constructor
      · exact fun h call hc => h vm call rfl hc
      · rintro h _ call ⟨⟩ hc
        exact h call hc
    rw [hapt]
    cases e with
    | start sobre params w => exact iff_of_true nofun nofun
    | tick => exact tick_tells hE (hs vm rfl)
    | bucle v =>
      have hread := Reading.guarded_discard (Reading.guarded_bucleInicio vm.world.heap v)
      exact iff_of_true hread.ne nofun
    | resume awaited w =>
      cases hst : vm.status with
      | suspended id args =>
        simp only [Typed, avanceReads, avanceCall, hst]
        have hcall := Call.guardedIff C E.plantillas vm.world.heap
          (.await (nativeAt id).name args)
        constructor
        · rintro h call ⟨⟩
          by_contra hno
          obtain ⟨v, t, hconfusion⟩ := hcall.confuses hno
          exact h v t hconfusion
        · intro h
          exact (hcall.guarded (h _ rfl)).ne
      | _ =>
        simp only [Typed, avanceReads, avanceCall, hst]
        exact iff_of_true nofun nofun

theorem leave_named {f : Frame} {rest : List Frame} {v : Value} (h : NamedFrames rest) :
    (vm.leave f rest v).Named := by
  cases rest with
  | nil => exact nofun
  | cons g rest => exact h

theorem Executed.named {f : Frame} {rest : List Frame} {i : Instr}
    (h : Executed E vm f rest i vm') (hE : ∀ c ∈ E.functions, c.Named) (hf : f.chunk.Named)
    (hrest : NamedFrames rest) : vm'.Named := by
  unfold Vm.Named
  cases h with
  | next _ hframes | jumped _ hframes | suspended _ hframes | raised hframes =>
    rw [hframes]
    exact hrest.cons hf
  | called _ hcallee _ _ hframes =>
    rw [hframes]
    exact (hrest.cons hf).cons (hE _ (List.mem_of_getElem? hcallee))
  | left _ hframes =>
    rw [hframes]
    exact hrest

/-- A turn keeps the names: it calls only functions of the module. -/
theorem tick_named (hE : ∀ c ∈ E.functions, c.Named) (hn : vm.Named)
    (h : vm.tick E = .ok vm') : vm'.Named := by
  obtain ⟨frames, stack, locals, steps, status, world⟩ := vm
  have hn : NamedFrames frames := hn
  cases frames with
  | nil =>
    cases status <;> cases h <;> exact nofun
  | cons f rest =>
    have hf : f.chunk.Named := hn f (by simp)
    have hrest : NamedFrames rest := fun g hg => hn g (by simp [hg])
    cases status with
    | running =>
      cases hi : f.chunk.code[f.pc]? with
      | none =>
        simp only [Vm.tick, hi] at h
        cases h
        exact leave_named hrest
      | some i => exact (tick_executed rfl rfl hi h).named hE hf hrest
    | raising message loc =>
      simp only [Vm.tick] at h
      split at h
      · cases h
        exact hrest.cons hf
      · cases h
        exact hrest
    | _ =>
      cases h
      exact hn

/-- A step of a handler keeps the names. -/
theorem step_named (hE : ∀ c ∈ E.functions, c.Named) (hc : c.Named)
    (hs : ∀ vm, s = some vm → vm.Named) (h : (handler C E c).step s e = some s') :
    ∀ vm, s' = some vm → vm.Named := by
  rintro vm' rfl
  have hnext : avanceNext E c s e = some vm' := by
    change (match avanceReads C E.plantillas s e with
      | .error (.confusion _ _) => none
      | _ => (avanceNext E c s e).map some) = _ at h
    split at h
    · cases h
    · simpa using h
  cases s with
  | none =>
    cases e with
    | start sobre params w =>
      cases hnext
      exact NamedFrames.cons hc nofun
    | _ => cases hnext
  | some vm =>
    cases e with
    | start sobre params w => cases hnext
    | tick =>
      change (vm.tick E).toOption = some vm' at hnext
      cases ht : vm.tick E with
      | error fault =>
        rw [ht] at hnext
        cases hnext
      | ok vm₁ =>
        rw [ht] at hnext
        cases hnext
        exact tick_named hE (hs vm rfl) ht
    | bucle v =>
      cases hnext
      exact hs _ rfl
    | resume awaited w =>
      dsimp only [avanceNext] at hnext
      split at hnext
      · cases hnext
        exact hs vm rfl
      · cases hnext

/-- **Values are read at their type** in every run of a handler of an accepted program, with any
    request and any results of the natives, exactly if the calls of all steps are apt. -/
theorem reads_typed {compilar : PlantillaCompiler} {fuel : ℕ} {p : Program} {M : Module}
    (h : compile compilar fuel p = .ok M) (hc : c.Emitted) (C : CtxView) (O : Oracle)
    (es : List Avance) :
    (handler C (M.envFor C O) c).Meets (Typed C (M.envFor C O)) es ↔
      (handler C (M.envFor C O) c).Meets (AptStep C) es := by
  have hE : ∀ c ∈ (M.envFor C O).functions, c.Named := by
    intro c hmem
    exact (compile_emitted h c (List.mem_of_mem_take hmem)).named
  exact (handler C (M.envFor C O) c).meets_congr (I := fun s => ∀ vm, s = some vm → vm.Named)
    nofun (fun s e t hs ht => step_named hE hc.named hs ht) (fun s e hs => step_typed rfl hs e) es

end Handler

/-- `get "/" (): await sleep("x")`. -/
def dormilona : Program where
  routes := [{
    method := "GET",
    body := [.exprStmt {} (.await {} (.call {} (.ident {} "sleep") [.stringLit {} "x"] []))] }]

/-- Natives that give `null`. -/
def Oracle.null : Oracle := fun w _ => { value := .null, heap := w.heap }

/-- The request brings a session that is no object. -/
theorem reads_typed_dormilona :
    ∃ M c, compile (fun _ _ => .error "") 1 dormilona = .ok M ∧ M.chunks = [c] ∧
      (handler {} (M.envFor {} .null) c).Meets (Typed {} (M.envFor {} .null))
        [.start { cookie := some (.int 1) } [] {}] := by
  have hcompiles : (match compile (fun _ _ => .error "") 1 dormilona with
      | .ok M => M.chunks.length == 1
      | .error _ => false) = true := by decide +kernel
  split at hcompiles
  · rename_i M hM
    obtain ⟨c, hc⟩ := List.length_eq_one_iff.1 (eq_of_beq hcompiles)
    have hemitted : c.Emitted := compile_emitted hM c (by simp [hc])
    exact ⟨M, c, hM, hc, (reads_typed hM hemitted {} .null _).2 ⟨nofun, fun _ _ => trivial⟩⟩
  · cases hcompiles

/-- The machine waits for a `sleep` whose time is a string. -/
def sleepsText : Option Vm → Bool
  | some vm =>
    match vm.status with
    | .suspended id [.str _] => (nativeAt id).name == "sleep"
    | _ => false
  | none => false

theorem not_typed_of_sleepsText {E : Env} {s : Option Vm} (h : sleepsText s = true) (v : Value)
    (w : World) : ¬ Typed {} E s (.resume v w) := by
  unfold sleepsText at h
  split at h
  · rename_i vm
    split at h
    · rename_i id text hst
      intro htyped
      refine htyped (.str text) .int ?_
      simp only [avanceReads, hst, eq_of_beq h]
      rfl
    · cases h
  · cases h

/-- A handler sleeps for a string: the program is compiled, and the driver of its route reads the
    string as an integer. -/
theorem sleep_of_a_string :
    ∃ M c s, compile (fun _ _ => .error "") 1 dormilona = .ok M ∧ M.chunks = [c] ∧
      (handler {} (M.envFor {} .null) c).run [.start {} [] {}, .tick, .tick] = some s ∧
      ¬ Typed {} (M.envFor {} .null) s (.resume .null {}) := by
  have hruns : ((compile (fun _ _ => .error "") 1 dormilona).toOption.any fun M =>
      M.chunks.length == 1 && M.chunks.any fun c =>
        ((handler {} (M.envFor {} .null) c).run [.start {} [] {}, .tick, .tick]).any
          sleepsText) = true := by decide +kernel
  obtain ⟨M, hM, hruns⟩ := ok_of_any hruns
  obtain ⟨hlen, hruns⟩ := Bool.and_eq_true_iff.1 hruns
  obtain ⟨c, hc⟩ := List.length_eq_one_iff.1 (eq_of_beq hlen)
  rw [hc, List.any_cons, List.any_nil, Bool.or_false] at hruns
  obtain ⟨s, hs, hsleeps⟩ := (Option.any_eq_true _ _).1 hruns
  exact ⟨M, c, s, hM, hc, hs, not_typed_of_sleepsText hsleeps _ _⟩

end Osodio.Odio
