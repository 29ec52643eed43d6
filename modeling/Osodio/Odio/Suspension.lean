import Mathlib.Logic.Relation
import Osodio.Odio.Unwinding

/-!
# Where a machine suspends

A route whose chunk has no `await` runs on a machine that it shares with others.  The flag of a chunk
tells about its own code, and a machine suspends in the code of any function that it has called.

## Main definitions

- `Module.Calls` — a chunk calls another one

## Main results

- `suspends_awaits` — a machine suspends in a chunk with an `await` that its chunk reaches by calls
-/

namespace Osodio.Odio

/-- A chunk has an instruction that calls another one. -/
def Module.Calls (M : Module) (c c' : Chunk) : Prop :=
  ∃ (p : ℕ) (i : Instr), c.code[p]? = some i ∧ i.op = .callFunction ∧
    M.functions[calleeOf i.operand]? = some c'

/-- A suspended machine has just executed an `await`. -/
def Vm.Awaiting (vm : Vm) : Prop :=
  ∀ id args, vm.status = .suspended id args → ∃ f rest i, vm.frames = f :: rest ∧
    f.chunk.code[f.pc - 1]? = some i ∧ i.op = .callAsync

section Runs

variable {E : Env} {vm vm' : Vm} {f : Frame} {rest : List Frame} {i : Instr}

theorem Executed.awaiting (h : Executed E vm f rest i vm')
    (hi : f.chunk.code[f.pc - 1]? = some i) : vm'.Awaiting := by
  intro id args hst
  cases h with
  | next _ _ hstatus | jumped _ _ hstatus | called _ _ _ _ _ hstatus | raised _ hstatus =>
    exact absurd (hstatus.symm.trans hst) nofun
  | left _ _ _ _ hend =>
    split at hend
    · exact absurd (hend.symm.trans hst) nofun
    · exact absurd (hend.1.symm.trans hst) nofun
  | suspended hop hframes => exact ⟨f, rest, i, hframes, hi, hop⟩

/-- A turn that suspends the machine is an `await`. -/
theorem Vm.Awaiting.tick (h : vm.Awaiting) (ht : vm.tick E = .ok vm') : vm'.Awaiting := by
  obtain ⟨frames, stack, locals, steps, status, world⟩ := vm
  cases status with
  | running =>
    cases frames with
    | nil =>
      cases ht
      rintro id args ⟨⟩
    | cons f rest =>
      cases hi : f.chunk.code[f.pc]? with
      | none =>
        simp only [Vm.tick, hi] at ht
        cases ht
        cases rest with
        | nil => rintro id args ⟨⟩
        | cons g rest => rintro id args ⟨⟩
      | some i => exact (tick_executed rfl rfl hi ht).awaiting hi
  | raising message loc =>
    cases frames with
    | nil =>
      cases ht
      rintro id args ⟨⟩
    | cons f rest =>
      simp only [Vm.tick] at ht
      split at ht <;>
      · cases ht
        rintro id args ⟨⟩
  | suspended | done | error =>
    cases ht
    exact h

theorem Vm.Awaiting.world (h : vm.Awaiting) (w : World) : ({ vm with world := w } : Vm).Awaiting := h

theorem Vm.Runs.awaiting {start : Vm} (h : Vm.Runs E start vm) (hs : start.Awaiting) :
    vm.Awaiting := by
  induction h with
  | refl => exact hs
  | tick _ w ht ih => exact (ih.world w).tick ht
  | resume => exact nofun

end Runs

/-- The chunk of an atom that is awaited says so. -/
theorem Atom.Encodes.hasAwait {K : Context} {u : Atom} {k : ℕ} (h : u.Encodes K k)
    (hu : u.code = .callAsync) : K.chunk.hasAwait = true := by
  cases u with
  | callAsync id argc => exact h.2.2.2
  | op o =>
    obtain rfl : o = .callAsync := hu
    exact absurd h.2 (by decide)
  | _ => cases hu

section Modules

variable {compilar : PlantillaCompiler} {fuel : ℕ} {p : Program} {M : Module} {b : Body}
  {K : Context}

/-- The chunk of an `await` says so. -/
theorem Module.Code.hasAwait {c : Chunk} {t : Tree} (h : M.Code c b t) {pos : ℕ} {i : Instr}
    (hi : c.code[pos]? = some i) (hop : i.op = .callAsync) : c.hasAwait = true := by
  obtain ⟨K, rfl, -, -, hl⟩ := h
  rcases hl.instr (Nat.zero_le pos) (List.getElem?_eq_some_iff.1 hi).1 hi with hc | ⟨u, hu, he⟩
  · rw [hop] at hc
    cases hc
  · exact he.hasAwait (hu.symm.trans hop)

/-- **A machine suspends in a chunk with an `await`**, which its first chunk reaches by calls; and
    what calls that chunk is reached in the same way. -/
theorem suspends_awaits (h : compile compilar fuel p = .ok M) (hK : M.Emits b K) {oracle : Oracle}
    {params : List Value} {w : World} {vm : Vm}
    (hrun : Vm.Runs (M.env oracle) (.start K.chunk params w) vm) {id : ℕ} {args : List Value}
    (hst : vm.status = .suspended id args) :
    ∃ f rest, vm.frames = f :: rest ∧ f.chunk.hasAwait = true ∧
      ∀ g ∈ f :: rest, Relation.ReflTransGen M.Calls K.chunk g.chunk := by
  have hclosed : CallClosed (M.env oracle) (Relation.ReflTransGen M.Calls K.chunk) :=
    fun c hc pos i hi hop callee hcallee => hc.tail ⟨pos, i, hi, hop, hcallee⟩
  have hf := hrun.framed hclosed (.start .refl params)
  have hfunctions := hrun.framed (M.callClosed oracle K.chunk) (.start List.mem_cons_self params)
  obtain ⟨f, rest, i, hframes, hi, hop⟩ := hrun.awaiting nofun id args hst
  obtain ⟨hc, -, hw⟩ := hf.innermost f rest hframes
  obtain ⟨b', t, hcode⟩ := (compile_spec h).code hK (hfunctions.innermost f rest hframes).1
  refine ⟨f, rest, hframes, hcode.hasAwait hi hop, fun g hg => ?_⟩
  rcases List.mem_cons.1 hg with rfl | hg
  · exact hc
  · exact (hw.mem hg).1

end Modules

/-! ## A route that sleeps in a function -/

/-- `fn f(): await sleep(1)` and `get "/": f()`. -/
def duermeRoute : RouteDecl where
  method := "GET"
  body := [.exprStmt {} (.call {} (.ident {} "f") [] [])]

def duerme : Program where
  functions := [{ name := "f", params := [], body :=
    [.exprStmt {} (.await {} (.call {} (.ident {} "sleep") [.intLit {} 1] []))] }]
  routes := [duermeRoute]

def Vm.isSuspended (vm : Vm) : Bool :=
  match vm.status with
  | .suspended _ _ => true
  | _ => false

theorem Vm.suspended_of {vm : Vm} (h : vm.isSuspended = true) :
    ∃ id args, vm.status = .suspended id args := by
  unfold Vm.isSuspended at h
  cases hst : vm.status with
  | suspended id args => exact ⟨id, args, rfl⟩
  | _ =>
    rw [hst] at h
    cases h

/-- The chunk of the route has no `await`; it suspends in that of the function. -/
theorem suspends_awaits_duerme : ∃ M c vm f rest,
    compile (fun _ _ => .error "") 1 duerme = .ok M ∧ c.hasAwait = false ∧
    Vm.Runs (M.env mudo) (.start c [] {}) vm ∧ vm.frames = f :: rest ∧
    f.chunk.hasAwait = true ∧ Relation.ReflTransGen M.Calls c f.chunk := by
  have hcompiles : ((compile (fun _ _ => .error "") 1 duerme).toOption.any fun M =>
      M.chunks.length == 2 && M.chunks.tail.any fun c => !c.hasAwait &&
        ((Vm.start c [] {}).moves (M.env mudo) (List.replicate 3 .tick)).toOption.any
          Vm.isSuspended) = true := by decide +kernel
  obtain ⟨M, hM, hcompiles⟩ := ok_of_any hcompiles
  obtain ⟨hlen, hruns⟩ := Bool.and_eq_true_iff.1 hcompiles
  obtain ⟨d, c, hc⟩ := List.length_eq_two.1 (eq_of_beq hlen)
  rw [hc, List.tail_cons, List.any_cons, List.any_nil, Bool.or_false, Bool.and_eq_true,
    Bool.not_eq_true'] at hruns
  obtain ⟨hawait, hruns⟩ := hruns
  obtain ⟨vm, hvm, hsus⟩ := ok_of_any hruns
  have hK : M.Emits (.route duermeRoute)
      ⟨M.emitter (.route duermeRoute), c, M.plantillas, M.notes⟩ := by
    refine .own ?_
    rw [hc, (compile_spec hM).bodies]
    exact List.mem_cons_of_mem _ List.mem_cons_self
  obtain ⟨id, args, hst⟩ := Vm.suspended_of hsus
  have hrun := Vm.Runs.of_ticks hvm
  obtain ⟨f, rest, hframes, haw, hcalls⟩ := suspends_awaits hM hK hrun hst
  exact ⟨M, c, vm, f, rest, hM, hawait, hrun, hframes, haw, hcalls f List.mem_cons_self⟩

end Osodio.Odio
