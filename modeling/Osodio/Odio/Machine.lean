import Osodio.Lib.Leads
import Osodio.Odio.Stacked
import Osodio.Odio.Structured

/-!
# The machine runs structured code

A machine whose program counter is at the code of a tree does what the tree does, and goes on where
the code ends; or it exceeds one of its limits on the way.

## Main definitions

- `Vm.turn` — a turn of the machine, or of the driver of a suspended one
- `Vm.Exhausted` — a limit of the machine is reached
- `Base`, `FrameState.vm` — a machine whose innermost frame has a state
- `Exit.Reached` — where a machine is when a tree has ended

## Main results

- `exec_act` — the instruction of an atom
- `Tree.Exec.comes` — the machine runs trees
-/

namespace Osodio.Odio

open Osodio.Lib

/-! ## Turns -/

/-- A turn of the machine.  A suspended one is resumed by its driver. -/
def Vm.turn (E : Env) (D : Driver) (vm : Vm) : Except Fault Vm :=
  match vm.status with
  | .suspended id args =>
    let (v, w) := D vm.world id args
    .ok (Vm.resume { vm with world := w } v)
  | _ => vm.tick E

/-- The next instruction is a jump back, or a call, that is one too many. -/
def Vm.Exhausted (vm : Vm) : Prop :=
  ∃ f rest i, vm.status = .running ∧ vm.frames = f :: rest ∧ f.chunk.code[f.pc]? = some i ∧
    (i.op = .jump ∧ i.operand ≤ f.pc + 1 ∧ kStepLimit < vm.steps + 1 ∨
      i.op = .callFunction ∧ kMaxFrames ≤ vm.frames.length)

/-- The machine comes to a state of `Q`, or to one of its limits. -/
def Vm.Comes (E : Env) (D : Driver) (Q : Vm → Prop) (vm : Vm) : Prop :=
  Leads (Vm.turn E D) (fun vm => Q vm ∨ vm.Exhausted) vm

section Turns

variable {E : Env} {D : Driver} {Q R : Vm → Prop} {vm vm' : Vm}

theorem Vm.Comes.here (h : Q vm) : Vm.Comes E D Q vm := Leads.here (.inl h)

theorem Vm.Comes.exhausted (h : vm.Exhausted) : Vm.Comes E D Q vm := Leads.here (.inr h)

theorem Vm.Comes.turn (ht : vm.turn E D = .ok vm') (h : Vm.Comes E D Q vm') :
    Vm.Comes E D Q vm := Leads.next ht h

theorem Vm.Comes.bind (h : Vm.Comes E D Q vm) (hQ : ∀ vm, Q vm → Vm.Comes E D R vm) :
    Vm.Comes E D R vm :=
  Leads.bind h fun vm hvm => hvm.elim (hQ vm) Vm.Comes.exhausted

end Turns

/-! ## A frame on top of others -/

/-- What is below a frame: the other frames, their operands and their locals. -/
structure Base where
  frames : List Frame
  stack : List Value
  locals : List Value

/-- The innermost frame runs `c`, and its state is `s`. -/
def FrameState.vm (s : FrameState) (c : Chunk) (B : Base) (pc steps : ℕ) : Vm where
  frames := ⟨c, pc, B.locals.length, B.stack.length⟩ :: B.frames
  stack := s.stack ++ B.stack
  locals := B.locals ++ (List.range c.numLocals).map s.slots
  steps := steps
  status := .running
  world := s.world

/-- The state after an operation, which may have failed. -/
def FrameState.after (r : FrameState × Option String) (c : Chunk) (B : Base) (pc steps : ℕ)
    (loc : SourceLoc) : Vm :=
  match r with
  | (s, none) => s.vm c B pc steps
  | (s, some message) => (s.vm c B pc steps).fail message loc

/-- The frame has returned `v` to what is below it. -/
def Base.Returned (B : Base) (v : Value) (w : World) (vm : Vm) : Prop :=
  if B.frames = [] then vm.status = .done v ∧ vm.world = w
  else ∃ steps, vm = ⟨B.frames, v :: B.stack, B.locals, steps, .running, w⟩

theorem Base.returned_cons {f : Frame} {frames : List Frame} {stack locals : List Value} {v : Value}
    {w : World} {vm : Vm} (h : Base.Returned ⟨f :: frames, stack, locals⟩ v w vm) :
    ∃ steps, vm = ⟨f :: frames, v :: stack, locals, steps, .running, w⟩ := by
  rwa [Base.Returned, if_neg (List.cons_ne_nil f frames)] at h

/-- Where a machine is when a tree has ended that is laid out up to `b`. -/
def Exit.Reached (x : Exit) (K : Context) (B : Base) (lt : Option (ℕ × ℕ)) (nest : List TryRange)
    (b : ℕ) (s : FrameState) (vm : Vm) : Prop :=
  match x with
  | .fall => ∃ steps, vm = s.vm K.chunk B b steps
  | .brk => ∃ brk cont steps, lt = some (brk, cont) ∧ vm = s.vm K.chunk B brk steps
  | .cont => ∃ brk cont steps, lt = some (brk, cont) ∧ vm = s.vm K.chunk B cont steps
  | .ret v => B.Returned v s.world vm
  | .raise message loc => ∃ p steps, findHandler K.chunk.tryRanges p = nest.head? ∧
      vm = (s.vm K.chunk B (p + 1) steps).fail message loc

section Frames

variable {E : Env} {D : Driver} {Q : Vm → Prop} {K : Context} {c : Chunk} {B : Base}
  {s s' : FrameState} {lt lt' : Option (ℕ × ℕ)} {nest nest' : List TryRange} {x : Exit}
  {a b b' k pc steps : ℕ} {loc : SourceLoc} {vm : Vm}

theorem resizeStack_append (stack stack' : List Value) :
    resizeStack stack'.length (stack ++ stack') = stack' := by
  simp [resizeStack]

theorem resizeLocals_append (locals locals' : List Value) :
    resizeLocals locals.length (locals ++ locals') = locals := by
  simp [resizeLocals]

theorem popArgs_append {n : ℕ} {stack stack' : List Value} (h : n ≤ stack.length) :
    popArgs n (stack ++ stack') = .ok ((stack.take n).reverse, stack.drop n ++ stack') := by
  rw [popArgs_of_le (by rw [List.length_append]; omega), List.take_append_of_le_length h,
    List.drop_append_of_le_length h]

/-- A tree that does not end where it ends leaves its code behind. -/
theorem Exit.Reached.elsewhere (h : x.Reached K B lt nest b s vm) (hx : x ≠ .fall) :
    x.Reached K B lt nest b' s vm := by
  cases x with
  | fall => exact absurd rfl hx
  | _ => exact h

/-- And one that leaves no loop does not depend on the loops around it. -/
theorem Exit.Reached.outside (h : x.Reached K B lt nest b s vm)
    (hx : x ≠ .fall ∧ x ≠ .brk ∧ x ≠ .cont) : x.Reached K B lt' nest b' s vm := by
  cases x with
  | fall => exact absurd rfl hx.1
  | brk => exact absurd rfl hx.2.1
  | cont => exact absurd rfl hx.2.2
  | _ => exact h

/-- The `try` statements around it matter for an error only. -/
theorem Exit.Reached.untried (h : x.Reached K B lt nest b s vm)
    (hx : ∀ message l, x ≠ .raise message l) : x.Reached K B lt nest' b s vm := by
  cases x with
  | raise message l => exact absurd rfl (hx message l)
  | _ => exact h

/-- The body of a loop ends, or continues with the step. -/
theorem Exit.Reached.goes {toHead : Bool} {brk : ℕ}
    (h : x.Reached K B (some (brk, if toHead then a else b)) nest b s vm)
    (hx : x = .fall ∨ x = .cont ∧ toHead = false) : ∃ steps, vm = s.vm K.chunk B b steps := by
  rcases hx with rfl | ⟨rfl, rfl⟩
  · exact h
  · obtain ⟨brk', cont, steps, hlt, rfl⟩ := h
    cases hlt
    exact ⟨steps, rfl⟩

/-! ## Instructions -/

/-- A turn executes the instruction at the program counter. -/
theorem turn_instr {i : Instr} (hi : c.code[pc]? = some i) :
    (s.vm c B pc steps).turn E D = (s.vm c B (pc + 1) steps).exec E
      ⟨c, pc + 1, B.locals.length, B.stack.length⟩ B.frames i := by
  simp only [Vm.turn, FrameState.vm, Vm.tick, hi]

theorem vm_settle (st : List Value) (r : OpResult) :
    (s.vm c B pc steps).settle (st ++ B.stack) loc r =
      FrameState.after (s.settle st r) c B pc steps loc := by
  cases r with
  | ok p => rfl
  | error message => rfl

theorem vm_settleCall (st : List Value) (r : Except String Value × World) :
    (s.vm c B pc steps).settleCall (st ++ B.stack) loc r =
      FrameState.after (s.settleCall st r) c B pc steps loc := by
  obtain ⟨r, w⟩ := r
  cases r with
  | ok v => rfl
  | error message => rfl

theorem vm_unary {v : Value} {st : List Value} (hs : s.stack = v :: st)
    (f : Heap → Value → OpResult) : (s.vm c B pc steps).unary loc f =
      .ok (FrameState.after (s.settle st (f s.world.heap v)) c B pc steps loc) := by
  have hst : (s.vm c B pc steps).stack = v :: (st ++ B.stack) := congrArg (· ++ B.stack) hs
  simp only [Vm.unary, hst]
  exact congrArg Except.ok (vm_settle st _)

theorem vm_binary {u v : Value} {st : List Value} (hs : s.stack = v :: u :: st)
    (f : Heap → Value → Value → OpResult) : (s.vm c B pc steps).binary loc f =
      .ok (FrameState.after (s.settle st (f s.world.heap u v)) c B pc steps loc) := by
  have hst : (s.vm c B pc steps).stack = v :: u :: (st ++ B.stack) := congrArg (· ++ B.stack) hs
  simp only [Vm.binary, hst]
  exact congrArg Except.ok (vm_settle st _)

theorem vm_ternary {t u v : Value} {st : List Value} (hs : s.stack = v :: u :: t :: st)
    (f : Heap → Value → Value → Value → OpResult) : (s.vm c B pc steps).ternary loc f =
      .ok (FrameState.after (s.settle st (f s.world.heap t u v)) c B pc steps loc) := by
  have hst : (s.vm c B pc steps).stack = v :: u :: t :: (st ++ B.stack) :=
    congrArg (· ++ B.stack) hs
  simp only [Vm.ternary, hst]
  exact congrArg Except.ok (vm_settle st _)

theorem exec_unary {vm : Vm} {f : Frame} {rest : List Frame} {o : Op} {g : Heap → Value → OpResult}
    (h : o.unary = some g) : vm.exec E f rest ⟨o, k, loc⟩ = vm.unary loc g := by
  cases o <;> cases h <;> rfl

theorem exec_binary {vm : Vm} {f : Frame} {rest : List Frame} {o : Op}
    {g : Heap → Value → Value → OpResult} (h : o.binary = some g) :
    vm.exec E f rest ⟨o, k, loc⟩ = vm.binary loc g := by
  cases o <;> cases h <;> rfl

theorem exec_ternary {vm : Vm} {f : Frame} {rest : List Frame} {o : Op}
    {g : Heap → Value → Value → Value → OpResult} (h : o.ternary = some g) :
    vm.exec E f rest ⟨o, k, loc⟩ = vm.ternary loc g := by
  cases o with
  | setIndex =>
    cases h
    rfl
  | _ => cases h

theorem set_map_range (f : ℕ → Value) (n j : ℕ) (v : Value) :
    ((List.range n).map f).set j v = (List.range n).map (Function.update f j v) := by
  refine List.ext_getElem (by simp) fun i _ _ => ?_
  by_cases hij : i = j
  · subst hij
    simp
  · simp [Function.update_of_ne hij, List.getElem_set_ne (Ne.symm hij)]

/-- The slots of a frame in the vector of all locals. -/
theorem vm_slot (pc steps : ℕ) {slot : ℕ} (h : slot < c.numLocals) :
    (s.vm c B pc steps).locals[B.locals.length + slot]? = some (s.slots slot) := by
  simp [FrameState.vm, h]

theorem vm_store {slot : ℕ} (v : Value) :
    (s.vm c B pc steps).locals.set (B.locals.length + slot) v =
      B.locals ++ (List.range c.numLocals).map (Function.update s.slots slot v) := by
  change (B.locals ++ (List.range c.numLocals).map s.slots).set _ v = _
  rw [List.set_append_right _ _ (Nat.le_add_right _ _), Nat.add_sub_cancel_left, set_map_range]

theorem vm_popArgs (pc steps : ℕ) {n : ℕ} (h : n ≤ s.stack.length) :
    popArgs n (s.vm c B pc steps).stack =
    .ok ((s.stack.take n).reverse, s.stack.drop n ++ B.stack) := popArgs_append h

/-- **The instruction of an atom** does what the atom does. -/
theorem exec_act {u : Atom} {f : Frame} {r : FrameState × Option String} (he : u.Encodes K k)
    (hf : f.chunk = K.chunk ∧ f.localsBase = B.locals.length) (h : u.act E s = some r) :
    (s.vm K.chunk B pc steps).exec E f B.frames ⟨u.code, k, loc⟩ =
      .ok (FrameState.after r K.chunk B pc steps loc) := by
  obtain ⟨hchunk, hbase⟩ := hf
  cases u with
  | const v =>
    cases h
    have hk : f.chunk.constants[k]? = some v := hchunk ▸ he
    simp only [Vm.exec, Atom.code, hk]
    rfl
  | loadLocal slot =>
    cases h
    obtain ⟨rfl, hlt⟩ := he
    have hk := vm_slot (s := s) (B := B) pc steps hlt
    simp only [Vm.exec, Atom.code, hbase, hk]
    rfl
  | storeLocal slot =>
    obtain ⟨rfl, hlt⟩ := he
    simp only [Atom.act] at h
    split at h
    · next v st hs =>
      cases h
      have hst : (s.vm K.chunk B pc steps).stack = v :: (st ++ B.stack) :=
        congrArg (· ++ B.stack) hs
      have hk : B.locals.length + k < (s.vm K.chunk B pc steps).locals.length := by
        simp [FrameState.vm, hlt]
      simp only [Vm.exec, Atom.code, hst, hbase, hk, if_true, vm_store]
      rfl
    · cases h
  | pop =>
    simp only [Atom.act] at h
    split at h
    · next v st hs =>
      cases h
      have hst : (s.vm K.chunk B pc steps).stack = v :: (st ++ B.stack) :=
        congrArg (· ++ B.stack) hs
      simp only [Vm.exec, Atom.code, hst]
      rfl
    · cases h
  | op o =>
    simp only [Atom.act, Op.act] at h
    change (s.vm K.chunk B pc steps).exec E f B.frames ⟨o, k, loc⟩ = _
    split at h
    · rename_i hg hs
      cases h
      rw [exec_unary hg, vm_unary hs]
    · rename_i hg hs
      cases h
      rw [exec_binary hg, vm_binary hs]
    · rename_i hg hs
      cases h
      rw [exec_ternary hg, vm_ternary hs]
    · cases h
  | makeList n =>
    obtain rfl : k = n := he
    simp only [Atom.act] at h
    split at h
    · next hn =>
      cases h
      simp only [Vm.exec, Atom.code, vm_popArgs _ _ hn, bind, Except.bind, pure, Except.pure]
      exact congrArg Except.ok (vm_settle _ _)
    · cases h
  | makeDict n =>
    obtain rfl : k = n := he
    simp only [Atom.act] at h
    split at h
    · next hn =>
      cases h
      simp only [Vm.exec, Atom.code, vm_popArgs _ _ hn, bind, Except.bind, pure, Except.pure]
      exact congrArg Except.ok (vm_settle _ _)
    · cases h
  | getMember name =>
    simp only [Atom.act] at h
    split at h
    · next a st hs =>
      cases h
      have hname : f.chunk.name k = .ok name := hchunk ▸ Chunk.name_of he
      simp only [Vm.exec, Atom.code, hname, bind, Except.bind, vm_unary hs]
    · cases h
  | setMember name =>
    simp only [Atom.act] at h
    split at h
    · next v a st hs =>
      cases h
      have hname : f.chunk.name k = .ok name := hchunk ▸ Chunk.name_of he
      simp only [Vm.exec, Atom.code, hname, bind, Except.bind, vm_binary hs]
    · cases h
  | callMethod name argc =>
    obtain ⟨hargc, -, j, rfl, hj⟩ := he
    simp only [Atom.act] at h
    split at h
    · next receiver st hs =>
      cases h
      have hn : argc ≤ s.stack.length := by
        have := congrArg List.length hs
        simp only [List.length_drop, List.length_cons] at this
        omega
      have hname : f.chunk.name j = .ok name := hchunk ▸ Chunk.name_of hj
      simp only [Vm.exec, Atom.code, argcOf_callOperand j hargc, calleeOf_callOperand j hargc,
        vm_popArgs _ _ hn, hs, hname, bind, Except.bind, pure, Except.pure, List.cons_append]
      exact congrArg Except.ok (vm_settleCall _ _)
    · cases h
  | callNative id argc =>
    obtain ⟨rfl, hid, hargc, -⟩ := he
    simp only [Atom.act] at h
    split at h
    · next hn =>
      cases h
      have hnot : ¬ kNatives.length ≤ id := Nat.not_le.2 hid
      simp only [Vm.exec, Atom.code, argcOf_callOperand id hargc, calleeOf_callOperand id hargc,
        vm_popArgs _ _ hn.1, hnot, hn.2, bind, Except.bind, pure, Except.pure, if_false]
      exact congrArg Except.ok (vm_settleCall _ _)
    · cases h
  | callFunction index argc | callAsync id argc => cases h

/-! ## Jumps -/

/-- A jump, unless it is one too many. -/
theorem comes_jump (hi : c.code[pc]? = some ⟨.jump, k, loc⟩)
    (h : ∀ steps, Vm.Comes E D Q (s.vm c B k steps)) : Vm.Comes E D Q (s.vm c B pc steps) := by
  have hturn : (s.vm c B pc steps).turn E D = .ok ((s.vm c B (pc + 1) steps).jump
      ⟨c, pc + 1, B.locals.length, B.stack.length⟩ ⟨.jump, k, loc⟩) := turn_instr hi
  by_cases hback : k ≤ pc + 1
  · by_cases hlimit : kStepLimit < steps + 1
    · exact .exhausted ⟨_, _, _, rfl, rfl, hi, .inl ⟨rfl, hback, hlimit⟩⟩
    · have hsteps : ¬ kStepLimit < (s.vm c B (pc + 1) steps).steps + 1 := hlimit
      refine .turn hturn ?_
      rw [Vm.jump, if_pos hback, if_neg hsteps]
      exact h _
  · refine .turn hturn ?_
    rw [Vm.jump, if_neg hback]
    exact h _

theorem comes_jumpIfFalse {v : Value} {st : List Value} {g : ℕ → Value} {w : World}
    (hi : c.code[pc]? = some ⟨.jumpIfFalse, k, loc⟩)
    (h : Vm.Comes E D Q ((⟨st, g, w⟩ : FrameState).vm c B
      (if v.truthy w.heap then pc + 1 else k) steps)) :
    Vm.Comes E D Q ((⟨v :: st, g, w⟩ : FrameState).vm c B pc steps) := by
  refine .turn ((turn_instr hi).trans rfl) ?_
  change Vm.Comes E D Q (if v.truthy w.heap then _ else _)
  by_cases hv : v.truthy w.heap = true
  · rw [if_pos hv] at h ⊢
    exact h
  · rw [if_neg hv] at h ⊢
    exact h

theorem comes_peek {op : LogOp} {v : Value} {st : List Value} {g : ℕ → Value} {w : World}
    (hi : c.code[pc]? = some ⟨if op = .and then .jumpIfFalsePeek else .jumpIfTruePeek, k, loc⟩)
    (h : Vm.Comes E D Q (if op.decides (v.truthy w.heap) then
      (⟨v :: st, g, w⟩ : FrameState).vm c B k steps
      else (⟨st, g, w⟩ : FrameState).vm c B (pc + 1) steps)) :
    Vm.Comes E D Q ((⟨v :: st, g, w⟩ : FrameState).vm c B pc steps) := by
  cases op with
  | and =>
    refine .turn ((turn_instr hi).trans rfl) ?_
    change Vm.Comes E D Q (if v.truthy w.heap then _ else _)
    cases hv : v.truthy w.heap with
    | true =>
      rw [hv] at h
      exact h
    | false =>
      rw [hv] at h
      exact h
  | or =>
    refine .turn ((turn_instr hi).trans rfl) ?_
    change Vm.Comes E D Q (if v.truthy w.heap then _ else _)
    cases hv : v.truthy w.heap with
    | true =>
      rw [hv] at h
      exact h
    | false =>
      rw [hv] at h
      exact h

/-- The test of a loop, behind its head. -/
theorem comes_test {v : Value} {st : List Value} {g : ℕ → Value} {w : World}
    (hi : K.chunk.code[b]? = some ⟨.jumpIfFalse, k, loc⟩)
    (hh : Vm.Comes E D (Exit.fall.Reached K B lt nest b ⟨v :: st, g, w⟩) vm)
    (h : ∀ steps, Vm.Comes E D Q ((⟨st, g, w⟩ : FrameState).vm K.chunk B
      (if v.truthy w.heap then b + 1 else k) steps)) : Vm.Comes E D Q vm := by
  refine hh.bind fun vm' hvm => ?_
  obtain ⟨steps', rfl⟩ := hvm
  exact comes_jumpIfFalse hi (h steps')

end Frames

/-! ## Trees -/

/-- The tree of a function at an index of the table of a module. -/
def Module.TreeAt (M : Module) (p : Program) (index : ℕ) (t : Tree) : Prop :=
  ∃ callee c, p.table[index]? = some callee ∧ M.functions[index]? = some c ∧
    BodyTree (M.emitter callee) M.notes M.plantillas callee t ∧
    Lay ⟨M.emitter callee, c, M.plantillas, M.notes⟩ none [] t 0 c.code.length

/-- The code of a body of a module, all of whose calls are narrow. -/
structure Module.Fits (M : Module) (K : Context) : Prop where
  emitter : ∃ b, K.emitter = M.emitter b
  narrow : ∀ n, .operands n ∈ K.notes → n ≤ 255

section Machine

variable {D : Driver} {oracle : Oracle} {p : Program} {M : Module} {K : Context} {B : Base}
  {s s' : FrameState} {t : Tree} {x : Exit} {lt : Option (ℕ × ℕ)} {nest : List TryRange}
  {a b pc steps index argc k : ℕ} {loc : SourceLoc}

theorem Module.Fits.own {b : Body} {c : Chunk} (hN : ∀ n, .operands n ∈ M.notes → n ≤ 255) :
    M.Fits ⟨M.emitter b, c, M.plantillas, M.notes⟩ := ⟨⟨b, rfl⟩, hN⟩

/-- The operand of a call, and the slots of its callee. -/
theorem Module.Fits.callee {c : Chunk} (hK : M.Fits K) (hM : Compiled p M)
    (he : (Atom.callFunction index argc).Encodes K k) (hc : M.functions[index]? = some c) :
    (calleeOf k = index ∧ argcOf k = argc) ∧ argc ≤ c.numLocals := by
  obtain ⟨b, hb⟩ := hK.emitter
  obtain ⟨callee, hcallee, hle⟩ := @Atom.Encodes.inTables p M b K _ k {} he hK.narrow hM hb
  obtain ⟨rfl, -, hnote⟩ := he
  have hargc := hK.narrow _ hnote
  change M.functions[calleeOf (callOperand index argc)]? = _ at hcallee
  change argcOf (callOperand index argc) ≤ _ at hle
  rw [calleeOf_callOperand index hargc] at hcallee
  rw [argcOf_callOperand index hargc] at hle
  obtain rfl := Option.some.inj (hcallee.symm.trans hc)
  exact ⟨⟨calleeOf_callOperand index hargc, argcOf_callOperand index hargc⟩, hle⟩

/-- A callee begins with the operands that it is passed in its first slots. -/
theorem enter_locals {c : Chunk} {L : List Value} (hn : argc ≤ s.stack.length)
    (hle : argc ≤ c.numLocals) :
    L ++ (s.stack.take argc).reverse ++
        List.replicate (c.numLocals - (s.stack.take argc).reverse.length) .null =
      L ++ (List.range c.numLocals).map (s.enter argc).slots := by
  have hlen : (s.stack.take argc).reverse.length = argc := by
    rw [List.length_reverse, List.length_take, Nat.min_eq_left hn]
  rw [List.append_assoc]
  congr 1
  refine List.ext_getElem (by simp; omega) fun i hi hi' => ?_
  have hget : (s.enter argc).slots i = (s.stack.take argc).reverse.getD i .null := rfl
  rw [List.getElem_map, List.getElem_range, hget, List.getElem_append]
  split
  · next h => rw [List.getD_eq_getElem?_getD, List.getElem?_eq_getElem h, Option.getD_some]
  · next h =>
    rw [List.getElem_replicate, List.getD_eq_getElem?_getD,
      List.getElem?_eq_none (Nat.not_lt.1 h), Option.getD_none]

/-- A call begins the code of its callee, unless there are too many calls already. -/
theorem comes_call {Q : Vm → Prop} {c : Chunk} (hk : calleeOf k = index ∧ argcOf k = argc)
    (hi : K.chunk.code[pc]? = some ⟨.callFunction, k, loc⟩) (hc : M.functions[index]? = some c)
    (hn : argc ≤ s.stack.length) (hle : argc ≤ c.numLocals)
    (h : Vm.Comes (M.env oracle) D Q ((s.enter argc).vm c
      ⟨⟨K.chunk, pc + 1, B.locals.length, B.stack.length⟩ :: B.frames,
        s.stack.drop argc ++ B.stack,
        B.locals ++ (List.range K.chunk.numLocals).map s.slots⟩ 0 steps)) :
    Vm.Comes (M.env oracle) D Q (s.vm K.chunk B pc steps) := by
  obtain ⟨rfl, rfl⟩ := hk
  have hcallee : (M.env oracle).functions[calleeOf k]? = some c := hc
  have hargs := vm_popArgs (c := K.chunk) (B := B) (pc + 1) steps hn
  have hlen : (s.stack.take (argcOf k)).reverse.length ≤ c.numLocals := by
    rw [List.length_reverse, List.length_take]
    omega
  by_cases hdepth : kMaxFrames ≤ (s.vm K.chunk B (pc + 1) steps).frames.length
  · exact .exhausted ⟨_, _, _, rfl, rfl, hi, .inr ⟨rfl, hdepth⟩⟩
  · refine .turn ?_ h
    rw [turn_instr hi]
    simp only [Vm.exec, Vm.callFunction, hcallee, hdepth, if_false, hargs, bind, Except.bind, pure,
      Except.pure, Nat.not_lt.2 hlen]
    refine congrArg Except.ok ?_
    have hlocals := enter_locals (L := (s.vm K.chunk B (pc + 1) steps).locals) hn hle
    rw [hlocals]
    simp [FrameState.vm, FrameState.enter]

/-- An `await` is answered by the driver. -/
theorem comes_await {E : Env} {Q : Vm → Prop} {v : Value} {w : World}
    (hk : calleeOf k = index ∧ argcOf k = argc)
    (hi : K.chunk.code[pc]? = some ⟨.callAsync, k, loc⟩) (hn : argc ≤ s.stack.length)
    (hD : D s.world index (s.stack.take argc).reverse = (v, w))
    (h : Vm.Comes E D Q
      ((⟨v :: s.stack.drop argc, s.slots, w⟩ : FrameState).vm K.chunk B (pc + 1) 0)) :
    Vm.Comes E D Q (s.vm K.chunk B pc steps) := by
  obtain ⟨rfl, rfl⟩ := hk
  have hargs := vm_popArgs (c := K.chunk) (B := B) (pc + 1) steps hn
  have hturn : (s.vm K.chunk B pc steps).turn E D = .ok { s.vm K.chunk B (pc + 1) steps with
      stack := s.stack.drop (argcOf k) ++ B.stack
      status := .suspended (calleeOf k) (s.stack.take (argcOf k)).reverse } := by
    rw [turn_instr hi]
    simp only [Vm.exec, hargs, bind, Except.bind, pure, Except.pure]
  refine .turn hturn (.turn ?_ h)
  have hD' : D (s.vm K.chunk B (pc + 1) steps).world (calleeOf k)
      (s.stack.take (argcOf k)).reverse = (v, w) := hD
  simp only [Vm.turn, hD']
  rfl

/-- An error that a callee does not catch is an error of its caller. -/
theorem comes_dropped {E : Env} {Q : Vm → Prop} {c : Chunk} {message : String} {f : Frame}
    {frames : List Frame} {stack locals : List Value} {w : World}
    (hnone : findHandler c.tryRanges pc = none)
    (h : Vm.Comes E D Q ⟨f :: frames, stack, locals, steps, .raising message loc, w⟩)
    (hw : s.world = w) :
    Vm.Comes E D Q ((s.vm c ⟨f :: frames, stack, locals⟩ (pc + 1) steps).fail message loc) := by
  subst hw
  refine .turn ?_ h
  have hstack := resizeStack_append s.stack stack
  have hlocals := resizeLocals_append locals ((List.range c.numLocals).map s.slots)
  simp only [Vm.turn, Vm.fail, FrameState.vm, Vm.tick, Nat.add_sub_cancel, hnone, Vm.dropFrame,
    hstack, hlocals]

/-- An error that a `try` catches goes on with its handler. -/
theorem comes_caught {E : Env} {Q : Vm → Prop} {message : String} {r : TryRange}
    (hr : findHandler K.chunk.tryRanges pc = some r)
    (h : Vm.Comes E D Q ((s.caught message).vm K.chunk B r.catchPc 0)) :
    Vm.Comes E D Q ((s.vm K.chunk B (pc + 1) steps).fail message loc) := by
  refine .turn ?_ h
  have hstack := resizeStack_append s.stack B.stack
  simp only [Vm.turn, Vm.fail, FrameState.vm, Vm.tick, Nat.add_sub_cancel, hr, Vm.enterCatch,
    hstack]
  rfl

/-- A frame that is left returns its result. -/
theorem Base.leave_returned {vm : Vm} {f : Frame} {v : Value} {st locals : List Value}
    (hst : vm.stack = st ++ B.stack) (hl : vm.locals = B.locals ++ locals)
    (hs : vm.status = .running)
    (hf : f.localsBase = B.locals.length ∧ f.stackBase = B.stack.length) :
    B.Returned v vm.world (vm.leave f B.frames v) := by
  unfold Base.Returned
  cases hB : B.frames with
  | nil => exact ⟨rfl, rfl⟩
  | cons g rest =>
    refine ⟨vm.steps, ?_⟩
    simp only [Vm.leave]
    rw [hst, hl, hf.1, hf.2, resizeStack_append, resizeLocals_append, hs]

theorem comes_ret {E : Env} {v : Value} {st : List Value} {g : ℕ → Value} {w : World}
    (hi : K.chunk.code[pc]? = some ⟨.ret, k, loc⟩) :
    Vm.Comes E D (B.Returned v w) ((⟨v :: st, g, w⟩ : FrameState).vm K.chunk B pc steps) :=
  .turn ((turn_instr hi).trans rfl) (.here (Base.leave_returned rfl rfl rfl ⟨rfl, rfl⟩))

theorem comes_retNull {E : Env} (hi : K.chunk.code[pc]? = some ⟨.retNull, k, loc⟩) :
    Vm.Comes E D (B.Returned .null s.world) (s.vm K.chunk B pc steps) :=
  .turn ((turn_instr hi).trans rfl) (.here (Base.leave_returned rfl rfl rfl ⟨rfl, rfl⟩))

/-- **The machine runs structured code.**  From the first instruction of a tree the machine comes to
    where the execution of the tree ends, or exceeds a limit. -/
theorem Tree.Exec.comes (hM : Compiled p M) (hN : ∀ n, .operands n ∈ M.notes → n ≤ 255)
    (h : Tree.Exec (M.env oracle) D (M.TreeAt p) t s x s') :
    ∀ {K : Context} {lt : Option (ℕ × ℕ)} {nest : List TryRange} {a b : ℕ} (B : Base) (steps : ℕ),
      M.Fits K → Lay K lt nest t a b →
      Vm.Comes (M.env oracle) D (x.Reached K B lt nest b s') (s.vm K.chunk B a steps) := by
  induction h with
  | nil =>
    intro K lt nest a b B steps _ hl
    cases hl
    exact .here ⟨steps, rfl⟩
  | @atom u loc s s' hact =>
    intro K lt nest a b B steps _ hl
    cases hl with
    | atom hi he =>
    refine .turn ((turn_instr hi.code).trans (exec_act he ⟨rfl, rfl⟩ hact)) (.here ⟨steps, rfl⟩)
  | @atomFails u loc s s' message hact =>
    intro K lt nest a b B steps _ hl
    cases hl with
    | atom hi he =>
    refine .turn ((turn_instr hi.code).trans (exec_act he ⟨rfl, rfl⟩ hact)) (.here ?_)
    exact ⟨_, steps, hi.handler, rfl⟩
  | @call index argc loc s t v s' hF hn _ ih =>
    intro K lt nest a b B steps hK hl
    cases hl with
    | atom hi he =>
    obtain ⟨callee, c, -, hc, -, hlay⟩ := hF
    obtain ⟨hk, hle⟩ := hK.callee hM he hc
    refine comes_call hk hi.code hc hn hle ((ih _ steps (.own hN) hlay).bind fun vm hvm => ?_)
    obtain ⟨steps', rfl⟩ := Base.returned_cons hvm
    exact .here ⟨steps', rfl⟩
  | @callFails index argc loc s t message l s' hF hn _ ih =>
    intro K lt nest a b B steps hK hl
    cases hl with
    | atom hi he =>
    obtain ⟨callee, c, -, hc, -, hlay⟩ := hF
    obtain ⟨hk, hle⟩ := hK.callee hM he hc
    refine comes_call hk hi.code hc hn hle ((ih _ steps (.own hN) hlay).bind fun vm hvm => ?_)
    obtain ⟨q, steps', hq, rfl⟩ := hvm
    refine comes_dropped hq (.here ?_) rfl
    exact ⟨_, steps', hi.handler, rfl⟩
  | @await id argc loc s v w hn hD =>
    intro K lt nest a b B steps _ hl
    cases hl with
    | atom hi he =>
    obtain ⟨rfl, -, hargc, -⟩ := he
    exact comes_await ⟨calleeOf_callOperand id hargc, argcOf_callOperand id hargc⟩ hi.code hn hD
      (.here ⟨0, rfl⟩)
  | seq _ _ iht ihu =>
    intro K lt nest a b B steps hK hl
    cases hl with
    | seq hlt hlu =>
    refine (iht B steps hK hlt).bind fun vm hvm => ?_
    obtain ⟨steps', rfl⟩ := hvm
    exact ihu B steps' hK hlu
  | seqStops _ hx ih =>
    intro K lt nest a b B steps hK hl
    cases hl with
    | seq hlt hlu => exact (ih B steps hK hlt).bind fun vm hvm => .here (hvm.elsewhere hx)
  | ret =>
    intro K lt nest a b B steps _ hl
    cases hl with
    | ret hi => exact comes_ret hi.code
  | retNull =>
    intro K lt nest a b B steps _ hl
    cases hl with
    | retNull hi => exact comes_retNull hi.code
  | brk =>
    intro K lt nest a b B steps _ hl
    cases hl with
    | brk hi => exact comes_jump hi.code fun steps => .here ⟨_, _, steps, rfl, rfl⟩
  | cont =>
    intro K lt nest a b B steps _ hl
    cases hl with
    | cont hi => exact comes_jump hi.code fun steps => .here ⟨_, _, steps, rfl, rfl⟩
  | @peekDecides op t loc v st f w hv =>
    intro K lt nest a b B steps _ hl
    cases hl with
    | peek hi hlt => exact comes_peek hi.code (by rw [hv]; exact .here ⟨steps, rfl⟩)
  | @peekGoes op t loc v st f w x s' hv _ ih =>
    intro K lt nest a b B steps hK hl
    cases hl with
    | peek hi hlt => exact comes_peek hi.code (by rw [hv]; exact ih B steps hK hlt)
  | @cond t u loc v st f w x s' _ ih =>
    intro K lt nest a b B steps hK hl
    cases hl with
    | @cond _ _ _ _ _ _ c _ hi hlt hj hlu =>
    refine comes_jumpIfFalse hi.code ?_
    by_cases hv : v.truthy w.heap = true
    · simp only [hv, if_true] at ih ⊢
      refine (ih B steps hK hlt).bind fun vm hvm => ?_
      cases x with
      | fall =>
        obtain ⟨steps', rfl⟩ := hvm
        exact comes_jump hj.code fun steps => .here ⟨steps, rfl⟩
      | _ => exact .here hvm
    · simp only [hv] at ih ⊢
      exact ih B steps hK hlu
  | whenTrue hv _ ih =>
    intro K lt nest a b B steps hK hl
    cases hl with
    | when hi hlt => exact comes_jumpIfFalse hi.code (by rw [if_pos hv]; exact ih B steps hK hlt)
  | @whenFalse t loc v st f w hv =>
    intro K lt nest a b B steps _ hl
    cases hl with
    | when hi hlt => exact comes_jumpIfFalse hi.code (by rw [hv]; exact .here ⟨steps, rfl⟩)
  | unlessTrue hv =>
    intro K lt nest a b B steps _ hl
    cases hl with
    | «unless» hi hj hlt =>
    refine comes_jumpIfFalse hi.code ?_
    rw [if_pos hv]
    exact comes_jump hj.code fun steps => .here ⟨steps, rfl⟩
  | unlessFalse hv _ ih =>
    intro K lt nest a b B steps hK hl
    cases hl with
    | «unless» hi hj hlt =>
      exact comes_jumpIfFalse hi.code (by rw [hv]; exact ih B steps hK hlt)
  | loopHeadStops _ hx ih =>
    intro K lt nest a b B steps hK hl
    cases hl with
    | loop hlh hi hlb hls hj =>
      exact (ih B steps hK hlh).bind fun vm hvm => .here (hvm.elsewhere hx)
  | loopEnds _ hv ih =>
    intro K lt nest a b B steps hK hl
    cases hl with
    | loop hlh hi hlb hls hj =>
    refine comes_test hi.code (ih B steps hK hlh) fun steps' => ?_
    rw [hv]
    exact .here ⟨steps', rfl⟩
  | loopBreaks _ hv _ ihh ihb =>
    intro K lt nest a b B steps hK hl
    cases hl with
    | loop hlh hi hlb hls hj =>
    refine comes_test hi.code (ihh B steps hK hlh) fun steps' => ?_
    rw [if_pos hv]
    refine (ihb B steps' hK hlb).bind fun vm hvm => ?_
    obtain ⟨brk, cont, steps'', hlt, rfl⟩ := hvm
    cases hlt
    exact .here ⟨steps'', rfl⟩
  | loopLeaves _ hv _ hx ihh ihb =>
    intro K lt nest a b B steps hK hl
    cases hl with
    | loop hlh hi hlb hls hj =>
    refine comes_test hi.code (ihh B steps hK hlh) fun steps' => ?_
    rw [if_pos hv]
    exact (ihb B steps' hK hlb).bind fun vm hvm => .here (hvm.outside hx)
  | loopGoes _ hv _ hx _ _ ihh ihb ihs ihl =>
    intro K lt nest a b B steps hK hl
    have hloop := hl
    cases hl with
    | loop hlh hi hlb hls hj =>
    refine comes_test hi.code (ihh B steps hK hlh) fun steps' => ?_
    rw [if_pos hv]
    refine (ihb B steps' hK hlb).bind fun vm hvm => ?_
    obtain ⟨steps'', rfl⟩ := hvm.goes hx
    refine (ihs B steps'' hK hls).bind fun vm hvm => ?_
    obtain ⟨steps, rfl⟩ := hvm
    exact comes_jump hj.code fun steps => ihl B steps hK hloop
  | loopStepStops _ hv _ hx _ hy ihh ihb ihs =>
    intro K lt nest a b B steps hK hl
    cases hl with
    | loop hlh hi hlb hls hj =>
    refine comes_test hi.code (ihh B steps hK hlh) fun steps' => ?_
    rw [if_pos hv]
    refine (ihb B steps' hK hlb).bind fun vm hvm => ?_
    obtain ⟨steps'', rfl⟩ := hvm.goes hx
    exact (ihs B steps'' hK hls).bind fun vm hvm => .here (hvm.elsewhere hy)
  | loopContinues _ hv _ _ ihh ihb ihl =>
    intro K lt nest a b B steps hK hl
    have hloop := hl
    cases hl with
    | loop hlh hi hlb hls hj =>
    refine comes_test hi.code (ihh B steps hK hlh) fun steps' => ?_
    rw [if_pos hv]
    refine (ihb B steps' hK hlb).bind fun vm hvm => ?_
    obtain ⟨brk, cont, steps'', hlt, rfl⟩ := hvm
    cases hlt
    exact ihl B steps'' hK hloop
  | @tryFalls body handler loc s x s' _ hx ih =>
    intro K lt nest a b B steps hK hl
    cases hl with
    | tryCatch hlb hj hlh =>
    refine (ih B steps hK hlb).bind fun vm hvm => ?_
    cases x with
    | fall =>
      obtain ⟨steps', rfl⟩ := hvm
      exact comes_jump hj.code fun steps => .here ⟨steps, rfl⟩
    | raise message l => exact absurd rfl (hx message l)
    | _ => exact .here hvm
  | tryCatches _ _ ihb ihh =>
    intro K lt nest a b B steps hK hl
    cases hl with
    | tryCatch hlb hj hlh =>
    refine (ihb B steps hK hlb).bind fun vm hvm => ?_
    obtain ⟨q, steps', hq, rfl⟩ := hvm
    exact comes_caught hq (ihh B 0 hK hlh)

end Machine

end Osodio.Odio
