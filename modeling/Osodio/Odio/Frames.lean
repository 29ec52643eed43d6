import Osodio.Odio.Control
import Osodio.Odio.Specialisation

/-!
# Frames

The locals of all frames lie in one vector, one frame behind the other, and the frames below the
innermost one wait for a call.

## Main definitions

- `Vm.Runs` — the states of a machine: it takes turns, and is resumed when it waits
- `Waiting` — the frames that wait for a call
- `Vm.Framed` — the locals are those of the frames

## Main results

- `Vm.Framed.tick` — a turn keeps the frames
- `Vm.Runs.framed` — so do all runs
-/

namespace Osodio.Odio

/-! ## Runs -/

/-- The states that a machine comes to.  What is shared may be changed by others before each turn,
    and before it is resumed. -/
inductive Vm.Runs (E : Env) (start : Vm) : Vm → Prop where
  | refl : Runs E start start
  | tick {vm vm'} (h : Runs E start vm) (w : World)
      (ht : Vm.tick E { vm with world := w } = .ok vm') : Runs E start vm'
  | resume {vm id args} (h : Runs E start vm) (w : World) (hs : vm.status = .suspended id args)
      (awaited : Value) : Runs E start (Vm.resume { vm with world := w } awaited)

/-! ## Frames that wait -/

/-- What a chunk of `C` calls is in `C` too. -/
def CallClosed (E : Env) (C : Chunk → Prop) : Prop :=
  ∀ c, C c → ∀ (p : ℕ) (i : Instr), c.code[p]? = some i → i.op = .callFunction →
    ∀ callee, E.functions[calleeOf i.operand]? = some callee → C callee

/-- The frames below the innermost one wait for a call, and `n` is where the locals above them
    begin. -/
inductive Waiting (C : Chunk → Prop) : List Frame → ℕ → Prop where
  | nil : Waiting C [] 0
  | cons {g rest i} (hc : C g.chunk) (hpc : 0 < g.pc) (hi : g.chunk.code[g.pc - 1]? = some i)
      (hop : i.op = .callFunction) (h : Waiting C rest g.localsBase) :
      Waiting C (g :: rest) (g.localsBase + g.chunk.numLocals)

/-- The locals of a machine are those of its frames, one behind the other, and all frames run
    chunks of `C`. -/
structure Vm.Framed (C : Chunk → Prop) (vm : Vm) : Prop where
  innermost : ∀ f rest, vm.frames = f :: rest →
    C f.chunk ∧ vm.locals.length = f.localsBase + f.chunk.numLocals ∧
      Waiting C rest f.localsBase
  /-- An error comes from the instruction before the program counter. -/
  raised : ∀ message loc, vm.status = .raising message loc → ∀ f rest, vm.frames = f :: rest →
    0 < f.pc ∧ ∃ i, f.chunk.code[f.pc - 1]? = some i

section Frames

variable {C : Chunk → Prop} {E : Env} {vm vm' : Vm} {f : Frame} {rest : List Frame} {w : World}

theorem Vm.Framed.start {c : Chunk} (hc : C c) (params : List Value) :
    (Vm.start c params w).Framed C where
  innermost f rest h := by
    obtain ⟨rfl, rfl⟩ : (⟨c, 0, 0, 0⟩ : Frame) = f ∧ [] = rest := by
      simpa [Vm.start] using h
    refine ⟨hc, ?_, .nil⟩
    simp only [Vm.start, List.length_append, List.length_take, List.length_replicate]
    omega
  raised _ _ h := nomatch h

/-- Only the frames, the locals and the status matter. -/
theorem Vm.Framed.world (h : vm.Framed C) (w : World) : ({ vm with world := w } : Vm).Framed C :=
  ⟨h.innermost, h.raised⟩

/-- A frame that waits has an instruction behind it. -/
theorem Waiting.mem {frames : List Frame} {n : ℕ} (h : Waiting C frames n) (hf : f ∈ frames) :
    C f.chunk ∧ f.pc - 1 < f.chunk.code.length := by
  induction h with
  | nil => cases hf
  | cons hc _ hi _ _ ih =>
    rcases List.mem_cons.1 hf with rfl | hf
    · exact ⟨hc, (List.getElem?_eq_some_iff.1 hi).1⟩
    · exact ih hf

/-- The frame of an instruction goes on. -/
theorem Vm.Framed.goes_on {g : Frame} (hc : C g.chunk)
    (hl : vm'.locals.length = g.localsBase + g.chunk.numLocals)
    (hw : Waiting C rest g.localsBase) (hframes : vm'.frames = g :: rest)
    (hraised : ∀ message loc, vm'.status = .raising message loc →
      0 < g.pc ∧ ∃ i, g.chunk.code[g.pc - 1]? = some i) : vm'.Framed C where
  innermost f' rest' h := by
    obtain ⟨rfl, rfl⟩ := List.cons.inj (hframes.symm.trans h)
    exact ⟨hc, hl, hw⟩
  raised message loc hst f' rest' h := by
    obtain ⟨rfl, rfl⟩ := List.cons.inj (hframes.symm.trans h)
    exact hraised message loc hst

/-- The innermost frame is left, and its caller goes on. -/
theorem Vm.Framed.left {n : ℕ} (hw : Waiting C rest n) (hframes : vm'.frames = rest)
    (hl : rest ≠ [] → vm'.locals.length = n) : vm'.Framed C := by
  cases hw with
  | nil => exact ⟨fun f rest h => absurd (hframes.symm.trans h) nofun,
      fun _ _ _ f rest h => absurd (hframes.symm.trans h) nofun⟩
  | cons hc hpc hi hop h =>
    exact .goes_on hc (hl (List.cons_ne_nil _ _)) h hframes fun _ _ _ => ⟨hpc, _, hi⟩

/-- An instruction of the innermost frame keeps the frames. -/
theorem Executed.framed {i : Instr} (h : Executed E vm f rest i vm')
    (hC : CallClosed E C) (hc : C f.chunk)
    (hl : vm.locals.length = f.localsBase + f.chunk.numLocals)
    (hw : Waiting C rest f.localsBase) (hpc : 0 < f.pc)
    (hi : f.chunk.code[f.pc - 1]? = some i) : vm'.Framed C := by
  cases h with
  | next hop hframes hstatus hsteps hlocals hstack =>
    refine .goes_on hc (hlocals.trans hl) hw hframes fun _ _ hst => ?_
    exact absurd (hstatus.symm.trans hst) nofun
  | jumped hop hframes hstatus hsteps hlocals hstack =>
    refine .goes_on (g := { f with pc := i.operand }) hc (hlocals.trans hl) hw hframes
      fun _ _ hst => ?_
    exact absurd (hstatus.symm.trans hst) nofun
  | called hop hcallee hdepth hargs hframes hstatus hsteps hlocals hstack =>
    refine .goes_on (hC _ hc _ i hi hop _ hcallee) hlocals ?_ hframes fun _ _ hst => ?_
    · rw [hl]
      exact .cons hc hpc hi hop hw
    · exact absurd (hstatus.symm.trans hst) nofun
  | left hop hframes hsteps hpops hend =>
    refine .left hw hframes fun hne => ?_
    rw [if_neg hne] at hend
    exact hend.2.2
  | suspended hop hframes hstatus hsteps hlocals hstack =>
    refine .goes_on hc (hlocals.trans hl) hw hframes fun _ _ hst => ?_
    exact absurd (hstatus.symm.trans hst) nofun
  | raised hframes hstatus hsteps hlocals hstack =>
    exact .goes_on hc (hlocals.trans hl) hw hframes fun _ _ _ => ⟨hpc, i, hi⟩

theorem Vm.leave_frames (vm : Vm) (f : Frame) (rest : List Frame) (v : Value) :
    (vm.leave f rest v).frames = rest ∧
      (rest ≠ [] → (vm.leave f rest v).locals.length = f.localsBase) := by
  cases rest with
  | nil => exact ⟨rfl, fun h => absurd rfl h⟩
  | cons g rest => exact ⟨rfl, fun _ => length_resizeLocals _ _⟩

/-- **A turn keeps the frames.** -/
theorem Vm.Framed.tick (h : vm.Framed C) (hC : CallClosed E C) (ht : vm.tick E = .ok vm') :
    vm'.Framed C := by
  obtain ⟨frames, stack, locals, steps, status, world⟩ := vm
  cases status with
  | running =>
    cases frames with
    | nil =>
      cases ht
      exact ⟨h.innermost, (by simp)⟩
    | cons f rest =>
      obtain ⟨hc, hl, hw⟩ := h.innermost f rest rfl
      cases hi : f.chunk.code[f.pc]? with
      | none =>
        simp only [Vm.tick, hi] at ht
        cases ht
        obtain ⟨hframes, hlocals⟩ := Vm.leave_frames
          (⟨f :: rest, stack, locals, steps, .running, world⟩ : Vm) f rest .null
        exact .left hw hframes hlocals
      | some i =>
        have hexec := tick_executed rfl rfl hi ht
        exact hexec.framed hC hc hl hw (Nat.succ_pos f.pc) hi
  | raising message loc =>
    cases frames with
    | nil =>
      cases ht
      exact ⟨h.innermost, (by simp)⟩
    | cons f rest =>
      obtain ⟨hc, hl, hw⟩ := h.innermost f rest rfl
      simp only [Vm.tick] at ht
      cases hr : findHandler f.chunk.tryRanges (f.pc - 1) with
      | some r =>
        rw [hr] at ht
        cases ht
        exact .goes_on (g := { f with pc := r.catchPc }) hc hl hw rfl (by rintro _ _ ⟨⟩)
      | none =>
        rw [hr] at ht
        cases ht
        exact .left hw rfl fun _ => length_resizeLocals _ _
  | suspended | done | error =>
    cases ht
    exact h

/-- All runs keep the frames. -/
theorem Vm.Runs.framed {start : Vm} (h : Vm.Runs E start vm) (hC : CallClosed E C)
    (hs : start.Framed C) : vm.Framed C := by
  induction h with
  | refl => exact hs
  | tick _ w ht ih => exact (ih.world w).tick hC ht
  | resume _ w hs awaited ih => exact ⟨ih.innermost, nofun⟩

end Frames

end Osodio.Odio
