import Osodio.Odio.Vm

/-!
# What an instruction does to the frames

An instruction goes on to the next one, jumps, calls, returns, suspends or fails.
One lemma says which of these it can do, and what becomes of the frames, of the
step counter and of the height of the stack.

## Main definitions

- `Instr.pops`, `Instr.pushes` — the effect of an instruction on the stack
- `Executed` — what an instruction can do

## Main results

- `exec_executed` — an instruction does one of these things
-/

namespace Osodio.Odio

/-! ## The effect on the stack -/

/-- How many values an instruction takes off the stack. -/
def Instr.pops (i : Instr) : ℕ :=
  match i.op with
  | .const | .loadLocal | .jump | .jumpIfFalsePeek | .jumpIfTruePeek | .retNull => 0
  | .storeLocal | .pop | .neg | .not | .iterList | .getMember | .jumpIfFalse | .ret => 1
  | .setIndex => 3
  | .makeList => i.operand
  | .makeDict => i.operand * 2
  | .callFunction | .callNative | .callAsync => argcOf i.operand
  | .callMethod => argcOf i.operand + 1
  | _ => 2

/-- How many values it leaves in their place when it goes on. -/
def Instr.pushes (i : Instr) : ℕ :=
  match i.op with
  | .storeLocal | .pop | .jump | .jumpIfFalse | .callAsync => 0
  | _ => 1

/-- The instruction may continue at its operand. -/
def Op.jumps : Op → Bool
  | .jump | .jumpIfFalse | .jumpIfFalsePeek | .jumpIfTruePeek => true
  | _ => false

/-- An `and` or an `or` looks at its left side, which stays if it decides. -/
def Op.peeks : Op → Bool
  | .jumpIfFalsePeek | .jumpIfTruePeek => true
  | _ => false

/-! ## Instructions -/

/-- What the instruction `i` of the frame `f` can do, where the program counter of
    `f` has already gone past it. -/
inductive Executed (E : Env) (vm : Vm) (f : Frame) (rest : List Frame) (i : Instr) (vm' : Vm) :
    Prop where
  | next (hop : i.op ≠ .jump ∧ i.op ≠ .callFunction ∧ i.op ≠ .callAsync ∧ i.op ≠ .ret ∧
        i.op ≠ .retNull)
      (hframes : vm'.frames = f :: rest) (hstatus : vm'.status = .running)
      (hsteps : vm'.steps = vm.steps) (hlocals : vm'.locals.length = vm.locals.length)
      (hstack : if i.op.peeks then vm'.stack.length + 1 = vm.stack.length
        else vm'.stack.length + i.pops = vm.stack.length + i.pushes)
  | jumped (hop : i.op.jumps = true)
      (hframes : vm'.frames = { f with pc := i.operand } :: rest)
      (hstatus : vm'.status = .running)
      (hsteps : if i.op = .jump ∧ i.operand ≤ f.pc then
          vm'.steps = vm.steps + 1 ∧ vm'.steps ≤ kStepLimit else vm'.steps = vm.steps)
      (hlocals : vm'.locals.length = vm.locals.length)
      (hstack : vm'.stack.length + i.pops = vm.stack.length)
  | called (hop : i.op = .callFunction) {callee : Chunk}
      (hcallee : E.functions[calleeOf i.operand]? = some callee)
      (hdepth : vm.frames.length < kMaxFrames) (hargs : argcOf i.operand ≤ callee.numLocals)
      (hframes : vm'.frames =
        ⟨callee, 0, vm.locals.length, vm.stack.length - argcOf i.operand⟩ :: f :: rest)
      (hstatus : vm'.status = .running) (hsteps : vm'.steps = vm.steps)
      (hlocals : vm'.locals.length = vm.locals.length + callee.numLocals)
      (hstack : vm'.stack.length + argcOf i.operand = vm.stack.length)
  | left (hop : i.op = .ret ∨ i.op = .retNull) {v : Value} (hframes : vm'.frames = rest)
      (hsteps : vm'.steps = vm.steps) (hpops : i.pops ≤ vm.stack.length)
      (hend : if rest = [] then vm'.status = .done v
        else vm'.status = .running ∧ vm'.stack.length = f.stackBase + 1 ∧
          vm'.locals.length = f.localsBase)
  | suspended (hop : i.op = .callAsync) {args : List Value} (hframes : vm'.frames = f :: rest)
      (hstatus : vm'.status = .suspended (calleeOf i.operand) args)
      (hsteps : vm'.steps = vm.steps) (hlocals : vm'.locals.length = vm.locals.length)
      (hstack : vm'.stack.length + i.pops = vm.stack.length)
  | raised {message : String} (hframes : vm'.frames = f :: rest)
      (hstatus : vm'.status = .raising message i.loc)
      (hsteps : vm.steps ≤ vm'.steps) (hlocals : vm'.locals.length = vm.locals.length)
      (hstack : vm'.stack.length ≤ vm.stack.length ∧
        vm.stack.length ≤ vm'.stack.length + i.pops)

theorem length_resizeStack (n : ℕ) (stack : List Value) : (resizeStack n stack).length = n := by
  simp only [resizeStack, List.length_append, List.length_replicate, List.length_drop]
  omega

theorem length_resizeLocals (n : ℕ) (locals : List Value) :
    (resizeLocals n locals).length = n := by
  simp only [resizeLocals, List.length_append, List.length_replicate, List.length_take]
  omega

theorem popArgs_ok {n : ℕ} {stack args st : List Value} (h : popArgs n stack = .ok (args, st)) :
    args.length = n ∧ st.length + n = stack.length ∧ st = stack.drop n := by
  unfold popArgs at h
  split at h
  · next hn =>
    cases h
    simp only [List.length_reverse, List.length_take, List.length_drop, and_true]
    omega
  · cases h

section Exec

variable {E : Env} {vm vm' : Vm} {f : Frame} {rest : List Frame} {i : Instr}

/-- The instruction goes on once it has left a value, and fails otherwise. -/
structure Plain (i : Instr) : Prop where
  op : i.op ≠ .jump ∧ i.op ≠ .callFunction ∧ i.op ≠ .callAsync ∧ i.op ≠ .ret ∧ i.op ≠ .retNull
  peeks : i.op.peeks = false
  pushes : i.pushes = 1

theorem settle_executed {st : List Value} (hp : Plain i) (hf : vm.frames = f :: rest)
    (hs : vm.status = .running) (hst : st.length + i.pops = vm.stack.length) (r : OpResult) :
    Executed E vm f rest i (vm.settle st i.loc r) := by
  cases r with
  | ok p =>
    obtain ⟨v, heap⟩ := p
    refine .next hp.op hf hs rfl rfl ?_
    rw [if_neg (by simp [hp.peeks]), hp.pushes]
    simp only [Vm.settle, List.length_cons]
    omega
  | error message =>
    refine .raised hf rfl (Nat.le_refl _) rfl ?_
    simp only [Vm.settle, Vm.fail]
    omega

theorem settleCall_executed {st : List Value} (hp : Plain i) (hf : vm.frames = f :: rest)
    (hs : vm.status = .running) (hst : st.length + i.pops = vm.stack.length)
    (r : Except String Value × World) :
    Executed E vm f rest i (vm.settleCall st i.loc r) := by
  obtain ⟨r, w⟩ := r
  cases r with
  | ok v =>
    refine .next hp.op hf hs rfl rfl ?_
    rw [if_neg (by simp [hp.peeks]), hp.pushes]
    simp only [Vm.settleCall, List.length_cons]
    omega
  | error message =>
    refine .raised hf rfl (Nat.le_refl _) rfl ?_
    simp only [Vm.settleCall, Vm.fail]
    omega

theorem unary_executed {g : Heap → Value → OpResult} (hp : Plain i) (hpops : i.pops = 1)
    (hf : vm.frames = f :: rest) (hs : vm.status = .running)
    (h : vm.unary i.loc g = .ok vm') : Executed E vm f rest i vm' := by
  unfold Vm.unary at h
  split at h
  · next a st hst =>
    cases h
    exact settle_executed hp hf hs (by rw [hst, hpops]; rfl) _
  · cases h

theorem binary_executed {g : Heap → Value → Value → OpResult} (hp : Plain i) (hpops : i.pops = 2)
    (hf : vm.frames = f :: rest) (hs : vm.status = .running)
    (h : vm.binary i.loc g = .ok vm') : Executed E vm f rest i vm' := by
  unfold Vm.binary at h
  split at h
  · next b a st hst =>
    cases h
    exact settle_executed hp hf hs (by rw [hst, hpops]; rfl) _
  · cases h

theorem ternary_executed {g : Heap → Value → Value → Value → OpResult} (hp : Plain i)
    (hpops : i.pops = 3) (hf : vm.frames = f :: rest) (hs : vm.status = .running)
    (h : vm.ternary i.loc g = .ok vm') : Executed E vm f rest i vm' := by
  unfold Vm.ternary at h
  split at h
  · next v b a st hst =>
    cases h
    exact settle_executed hp hf hs (by rw [hst, hpops]; rfl) _
  · cases h

theorem callFunction_executed (hop : i.op = .callFunction) (hf : vm.frames = f :: rest)
    (h : vm.callFunction E i = .ok vm') (hs : vm.status = .running) :
    Executed E vm f rest i vm' := by
  have hpops : i.pops = argcOf i.operand := by simp [Instr.pops, hop]
  have hstay : vm.stack.length ≤ vm.stack.length ∧
      vm.stack.length ≤ vm.stack.length + i.pops := ⟨Nat.le_refl _, Nat.le_add_right _ _⟩
  unfold Vm.callFunction at h
  split at h
  · cases h
    exact .raised hf rfl (Nat.le_refl _) rfl hstay
  · next callee hcallee =>
    split at h
    · cases h
      exact .raised hf rfl (Nat.le_refl _) rfl hstay
    · next hdepth =>
      simp only [bind, Except.bind, pure, Except.pure] at h
      split at h
      · cases h
      · next p hp =>
        obtain ⟨args, st⟩ := p
        obtain ⟨hargs, hst, -⟩ := popArgs_ok hp
        split at h
        · cases h
        · next hn =>
          cases h
          have hn : args.length ≤ callee.numLocals := Nat.not_lt.1 hn
          have hst' : st.length = vm.stack.length - argcOf i.operand := by omega
          refine .called hop hcallee (by omega) (by omega) ?_ hs rfl ?_ hst
          · simp only [hf, hst']
          · simp only [List.length_append, List.length_replicate]
            omega

theorem leave_executed {v : Value} (hop : i.op = .ret ∨ i.op = .retNull)
    (hpops : i.pops ≤ vm.stack.length) {st : List Value} (hs : vm.status = .running) :
    Executed E vm f rest i ({ vm with stack := st }.leave f rest v) := by
  cases rest with
  | nil => exact .left hop rfl rfl hpops (by rw [if_pos rfl]; rfl)
  | cons g rest =>
    refine .left (v := v) hop rfl rfl hpops ?_
    rw [if_neg (List.cons_ne_nil _ _)]
    refine ⟨hs, ?_, length_resizeLocals _ _⟩
    simp only [Vm.leave, List.length_cons, length_resizeStack]

/-- A jump that is not counted. -/
theorem setPc_executed (hop : i.op.jumps = true) (hn : i.op ≠ .jump) (hf : vm.frames = f :: rest)
    (hs : vm.status = .running) {st : List Value}
    (hst : st.length + i.pops = vm.stack.length) :
    Executed E vm f rest i ({ vm with stack := st }.setPc i.operand) := by
  refine .jumped hop ?_ ?_ ?_ ?_ ?_
  · simp [Vm.setPc, hf]
  · simpa [Vm.setPc, hf] using hs
  · rw [if_neg (by simp [hn])]
    simp [Vm.setPc, hf]
  · simp [Vm.setPc, hf]
  · simpa [Vm.setPc, hf] using hst

theorem jump_executed (hop : i.op = .jump) (hf : vm.frames = f :: rest)
    (hs : vm.status = .running) : Executed E vm f rest i (vm.jump f i) := by
  have hpops : i.pops = 0 := by simp [Instr.pops, hop]
  unfold Vm.jump
  split
  · next hback =>
    split
    · next hlimit =>
      refine .raised hf rfl (Nat.le_succ _) rfl ?_
      simp [Vm.fail]
    · next hlimit =>
      refine .jumped (by simp [hop, Op.jumps]) ?_ ?_ ?_ ?_ ?_
      · simp [Vm.setPc, hf]
      · simpa [Vm.setPc, hf] using hs
      · rw [if_pos ⟨hop, hback⟩]
        simp only [Vm.setPc, hf]
        exact ⟨trivial, Nat.not_lt.1 hlimit⟩
      · simp [Vm.setPc, hf]
      · simp [Vm.setPc, hf, hpops]
  · next hback =>
    refine .jumped (by simp [hop, Op.jumps]) ?_ ?_ ?_ ?_ ?_
    · simp [Vm.setPc, hf]
    · simpa [Vm.setPc, hf] using hs
    · rw [if_neg (by simp [hback])]
      simp [Vm.setPc, hf]
    · simp [Vm.setPc, hf]
    · simp [Vm.setPc, hf, hpops]

/-- An instruction goes on, jumps, calls, returns, suspends or fails. -/
theorem exec_executed (hf : vm.frames = f :: rest) (hs : vm.status = .running)
    (h : vm.exec E f rest i = .ok vm') : Executed E vm f rest i vm' := by
  obtain ⟨op, k, loc⟩ := i
  unfold Vm.exec at h
  cases op with
  | const | loadLocal =>
    dsimp only at h
    split at h
    · cases h
      exact .next (by simp) hf hs rfl rfl (by simp [Op.peeks, Instr.pops, Instr.pushes])
    · cases h
  | storeLocal =>
    dsimp only at h
    split at h
    · next v st hst =>
      split at h
      · cases h
        exact .next (by simp) hf hs rfl (by simp) (by simp [Op.peeks, Instr.pops, Instr.pushes, hst])
      · cases h
    · cases h
  | pop =>
    dsimp only at h
    split at h
    · next v st hst =>
      cases h
      exact .next (by simp) hf hs rfl rfl (by simp [Op.peeks, Instr.pops, Instr.pushes, hst])
    · cases h
  | add | sub | mul | div | mod | eq | ne | lt | le | gt | ge | addInt | subInt | mulInt | ltInt
    | leInt | gtInt | geInt | getIndex =>
    exact binary_executed ⟨by simp, rfl, rfl⟩ rfl hf hs h
  | neg | not | iterList => exact unary_executed ⟨by simp, rfl, rfl⟩ rfl hf hs h
  | setIndex => exact ternary_executed ⟨by simp, rfl, rfl⟩ rfl hf hs h
  | jump =>
    cases h
    exact jump_executed rfl hf hs
  | jumpIfFalse =>
    dsimp only at h
    split at h
    · next v st hst =>
      cases h
      split
      · exact .next (by simp) hf hs rfl rfl (by simp [Op.peeks, Instr.pops, Instr.pushes, hst])
      · exact setPc_executed rfl (by simp) hf hs (by simp [Instr.pops, hst])
    · cases h
  | jumpIfFalsePeek =>
    dsimp only at h
    split at h
    · next v st hst =>
      cases h
      split
      · exact .next (by simp) hf hs rfl rfl (by simp [Op.peeks, hst])
      · exact setPc_executed rfl (by simp) hf hs (by simp [Instr.pops])
    · cases h
  | jumpIfTruePeek =>
    dsimp only at h
    split at h
    · next v st hst =>
      cases h
      split
      · exact setPc_executed rfl (by simp) hf hs (by simp [Instr.pops])
      · exact .next (by simp) hf hs rfl rfl (by simp [Op.peeks, hst])
    · cases h
  | makeList | makeDict =>
    simp only [bind, Except.bind, pure, Except.pure] at h
    split at h
    · cases h
    · next p hp =>
      obtain ⟨args, st⟩ := p
      obtain ⟨-, hst, -⟩ := popArgs_ok hp
      cases h
      exact settle_executed ⟨by simp, rfl, rfl⟩ hf hs hst _
  | getMember =>
    simp only [bind, Except.bind] at h
    split at h
    · cases h
    · exact unary_executed ⟨by simp, rfl, rfl⟩ rfl hf hs h
  | setMember =>
    simp only [bind, Except.bind] at h
    split at h
    · cases h
    · exact binary_executed ⟨by simp, rfl, rfl⟩ rfl hf hs h
  | callFunction => exact callFunction_executed rfl hf h hs
  | callMethod =>
    simp only [bind, Except.bind, pure, Except.pure] at h
    split at h
    · cases h
    · next p hp =>
      obtain ⟨args, st⟩ := p
      obtain ⟨-, hst, -⟩ := popArgs_ok hp
      split at h
      · cases h
      · split at h
        · next receiver st' heq =>
          cases h
          refine settleCall_executed ⟨by simp, rfl, rfl⟩ hf hs ?_ _
          have hlen : st.length = st'.length + 1 := congrArg List.length heq
          show st'.length + (argcOf k + 1) = _
          omega
        · cases h
  | callNative =>
    simp only [bind, Except.bind, pure, Except.pure] at h
    split at h
    · cases h
    · next p hp =>
      obtain ⟨args, st⟩ := p
      obtain ⟨-, hst, -⟩ := popArgs_ok hp
      split at h
      · cases h
      · split at h
        · cases h
        · cases h
          exact settleCall_executed ⟨by simp, rfl, rfl⟩ hf hs hst _
  | callAsync =>
    simp only [bind, Except.bind, pure, Except.pure] at h
    split at h
    · cases h
    · next p hp =>
      obtain ⟨args, st⟩ := p
      obtain ⟨-, hst, -⟩ := popArgs_ok hp
      cases h
      exact .suspended rfl hf rfl rfl rfl hst
  | ret =>
    dsimp only at h
    split at h
    · next v st hst =>
      cases h
      exact leave_executed (.inl rfl) (by simp [Instr.pops, hst]) hs
    · cases h
  | retNull =>
    cases h
    exact leave_executed (.inr rfl) (by simp [Instr.pops]) hs

/-- One turn of a machine that runs an instruction. -/
theorem tick_executed (hs : vm.status = .running) (hf : vm.frames = f :: rest)
    (hi : f.chunk.code[f.pc]? = some i) (h : vm.tick E = .ok vm') :
    Executed E { vm with frames := { f with pc := f.pc + 1 } :: rest } { f with pc := f.pc + 1 }
      rest i vm' := by
  obtain ⟨frames, stack, locals, steps, status, world⟩ := vm
  subst hs hf
  simp only [Vm.tick, hi] at h
  exact exec_executed rfl rfl h

end Exec

end Osodio.Odio
