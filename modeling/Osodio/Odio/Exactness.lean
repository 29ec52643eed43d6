import Mathlib.Algebra.Group.Int.Defs
import Osodio.Odio.State

/-!
# Integer arithmetic

The machine and three natives calculate with `long long`.  They test for a divisor that is zero,
and for nothing else.

## Main definitions

- `Conversion`, `fnInt` — the native `int`
- `Entera` — an operation on integers, with its operands
- `Definida` — the operation of C++ is defined
- `pendiente` — the operation that a machine is about to make
- `Exacto` — a turn of the server makes it exactly, or raises an error

## Main results

- `tick_exacto` — what one turn makes of an operation
- `run_exact` — all operations of a run are exact, exactly if their results fit
-/

namespace Osodio.Odio

open Osodio.Lib

/-! ## The native `int` -/

/-- A number that a `long long` holds. -/
def EnRango (n : ℤ) : Prop := -2 ^ 63 ≤ n ∧ n < 2 ^ 63

instance : DecidablePred EnRango := fun _ => inferInstanceAs (Decidable (_ ∧ _))

/-- The conversions of C++: a double without its fraction, unless it is not finite; what a double
    that does not fit is converted to; and `stoll`. -/
structure Conversion where
  trunc : Float → Option ℤ
  unfit : Float → Int64
  stoll : String → Option Int64

/-- `(long long)d`. -/
def Conversion.toInt64 (C : Conversion) (d : Float) : Int64 :=
  match C.trunc d with
  | some n => if EnRango n then Int64.ofInt n else C.unfit d
  | none => C.unfit d

def fnInt (C : Conversion) : Value → Except String Value
  | .int i => .ok (.int i)
  | .float d => .ok (.int (C.toInt64 d))
  | .bool b => .ok (.int (if b then 1 else 0))
  | .str s =>
    match C.stoll s with
    | some i => .ok (.int i)
    | none => .error ("int(): '" ++ s ++ "' no es un numero")
  | v => .error ("int() no aplica a " ++ v.typeName)

/-- The project with its own `int`. -/
def Project.conInt (P : Project) (C : Conversion) : Project :=
  { P with
    outside := fun i w call =>
      match call with
      | .native "int" args => answerOf w.heap (fnInt C (args.headD .null))
      | _ => P.outside i w call }

/-! ## Operations -/

/-- An operation on integers. -/
inductive Entera where
  | add (x y : Int64)
  | sub (x y : Int64)
  | mul (x y : Int64)
  | div (x y : Int64)
  | mod (x y : Int64)
  | neg (x : Int64)
  /-- `state.decr`, which adds what it has negated. -/
  | decr (cur n : Int64)
  /-- `int` of a double. -/
  | trunc (d : Float)

namespace Entera

/-- C++ defines the operation: there is no overflow, no division by zero, and a double that is
    converted fits. -/
def Definida (C : Conversion) : Entera → Prop
  | add x y => EnRango (x.toInt + y.toInt)
  | sub x y => EnRango (x.toInt - y.toInt)
  | mul x y => EnRango (x.toInt * y.toInt)
  | div x y | mod x y => y ≠ 0 ∧ ¬ (x = Int64.minValue ∧ y = -1)
  | neg x => EnRango (-x.toInt)
  | decr cur n => EnRango (-n.toInt) ∧ EnRango (cur.toInt - n.toInt)
  | trunc d => ∃ n, C.trunc d = some n ∧ EnRango n

/-- The value is the result of the operation.  A division with a remainder is one of doubles. -/
def Resultado (C : Conversion) : Entera → Value → Prop
  | add x y, v => ∃ r, v = .int r ∧ r.toInt = x.toInt + y.toInt
  | sub x y, v => ∃ r, v = .int r ∧ r.toInt = x.toInt - y.toInt
  | mul x y, v => ∃ r, v = .int r ∧ r.toInt = x.toInt * y.toInt
  | div x y, v =>
    if y.toInt ∣ x.toInt then ∃ r, v = .int r ∧ r.toInt * y.toInt = x.toInt
    else v = .float ((Value.int x).asFloat / (Value.int y).asFloat)
  | mod x y, v => ∃ r, v = .int r ∧ r.toInt = x.toInt.tmod y.toInt
  | neg x, v => ∃ r, v = .int r ∧ r.toInt = -x.toInt
  | decr cur n, v => ∃ r, v = .int r ∧ r.toInt = cur.toInt - n.toInt
  | trunc d, v => ∃ r, v = .int r ∧ C.trunc d = some r.toInt

/-- The exact result fits in a `long long`; in a remainder, the quotient does.  A divisor that is
    zero is an error. -/
def Cabe (C : Conversion) : Entera → Prop
  | add x y => EnRango (x.toInt + y.toInt)
  | sub x y => EnRango (x.toInt - y.toInt)
  | mul x y => EnRango (x.toInt * y.toInt)
  | div x y => (Value.int y).asFloat == 0 ∨ y ≠ 0 ∧ EnRango (x.toInt.tdiv y.toInt)
  | mod x y => y = 0 ∨ EnRango (x.toInt.tdiv y.toInt)
  | neg x => EnRango (-x.toInt)
  | decr cur n => EnRango (-n.toInt) ∧ EnRango (cur.toInt - n.toInt)
  | trunc d => ∃ n, C.trunc d = some n ∧ EnRango n

/-- What comes of the operation: an error, or the exact result without undefined behaviour. -/
def Bien (C : Conversion) (o : Entera) : Except String Value → Prop
  | .ok v => o.Definida C ∧ o.Resultado C v
  | .error _ => True

end Entera

section Operations

variable {C : Conversion} {x y : Int64} {heap : Heap}

theorem enRango_toInt (x : Int64) : EnRango x.toInt := ⟨x.le_toInt, x.toInt_lt⟩

/-- In the range, the result of 64 bits is exact. -/
theorem bmod_of_enRango {n : ℤ} (h : EnRango n) : n.bmod (2 ^ 64) = n :=
  Int64.toInt_ofInt.symm.trans (Int64.toInt_ofInt_of_le h.1 h.2)

theorem toInt_eq_zero : x.toInt = 0 ↔ x = 0 := by
  rw [← Int64.toInt_inj, Int64.toInt_zero]

/-- The only quotient that does not fit. -/
theorem enRango_tdiv (hy : y ≠ 0) :
    EnRango (x.toInt.tdiv y.toInt) ↔ ¬ (x = Int64.minValue ∧ y = -1) := by
  constructor
  · rintro h ⟨rfl, rfl⟩
    revert h
    decide
  · intro h
    have hdiv : (x / y).toInt = x.toInt.tdiv y.toInt := by
      by_cases hx : x = Int64.minValue
      · exact Int64.toInt_div_of_ne_right x y fun hy => h ⟨hx, hy⟩
      · exact Int64.toInt_div_of_ne_left x y hx
    rw [← hdiv]
    exact enRango_toInt _

theorem mod_eq_zero_iff : (x % y == 0) = true ↔ y.toInt ∣ x.toInt := by
  rw [beq_iff_eq, ← toInt_eq_zero, Int64.toInt_mod]
  exact Int.dvd_iff_tmod_eq_zero.symm

/-! ## What the operators give -/

theorem bien_add (C : Conversion) (x y : Int64) :
    (Entera.add x y).Bien C (.ok (.int (x + y))) ↔ (Entera.add x y).Cabe C :=
  and_iff_left_of_imp fun h => ⟨_, rfl, (Int64.toInt_add x y).trans (bmod_of_enRango h)⟩

theorem bien_sub (C : Conversion) (x y : Int64) :
    (Entera.sub x y).Bien C (.ok (.int (x - y))) ↔ (Entera.sub x y).Cabe C :=
  and_iff_left_of_imp fun h => ⟨_, rfl, (Int64.toInt_sub x y).trans (bmod_of_enRango h)⟩

theorem bien_mul (C : Conversion) (x y : Int64) :
    (Entera.mul x y).Bien C (.ok (.int (x * y))) ↔ (Entera.mul x y).Cabe C :=
  and_iff_left_of_imp fun h => ⟨_, rfl, (Int64.toInt_mul x y).trans (bmod_of_enRango h)⟩

theorem bien_neg (C : Conversion) (x : Int64) :
    (Entera.neg x).Bien C (.ok (.int (-x))) ↔ (Entera.neg x).Cabe C :=
  and_iff_left_of_imp fun h => ⟨_, rfl, (Int64.toInt_neg x).trans (bmod_of_enRango h)⟩

theorem bien_decr (C : Conversion) (cur n : Int64) :
    (Entera.decr cur n).Bien C (.ok (.int (cur + -n))) ↔ (Entera.decr cur n).Cabe C := by
  refine and_iff_left_of_imp fun h => ⟨_, rfl, ?_⟩
  rw [Int64.toInt_add, Int64.toInt_neg, bmod_of_enRango h.1, ← Int.sub_eq_add_neg, bmod_of_enRango h.2]

theorem bien_trunc (C : Conversion) (d : Float) :
    (Entera.trunc d).Bien C (.ok (.int (C.toInt64 d))) ↔ (Entera.trunc d).Cabe C := by
  refine and_iff_left_of_imp ?_
  rintro ⟨n, hn, hrange⟩
  refine ⟨_, rfl, ?_⟩
  rw [Conversion.toInt64, hn]
  dsimp only
  rw [if_pos hrange, Int64.toInt_ofInt_of_le hrange.1 hrange.2]

/-- The result of an operation, without the boxes. -/
def OpResult.valor (r : OpResult) : Except String Value := r.map Prod.fst

theorem bien_mod (C : Conversion) (heap : Heap) (x y : Int64) :
    (Entera.mod x y).Bien C (OpResult.valor (arithmetic .mod heap (.int x) (.int y))) ↔
      (Entera.mod x y).Cabe C := by
  show (Entera.mod x y).Bien C (OpResult.valor
    (if y == 0 then .error "modulo por cero" else .ok (.int (x % y), heap))) ↔ _
  by_cases hy : y = 0
  · rw [if_pos (beq_iff_eq.2 hy)]
    exact iff_of_true trivial (.inl hy)
  · rw [if_neg (by simpa using hy), Entera.Cabe, enRango_tdiv hy]
    constructor
    · rintro ⟨⟨-, hdef⟩, -⟩
      exact .inr hdef
    · intro h
      exact ⟨⟨hy, h.resolve_left hy⟩, _, rfl, Int64.toInt_mod x y⟩

theorem bien_div (C : Conversion) (heap : Heap) (x y : Int64) :
    (Entera.div x y).Bien C (OpResult.valor (arithmetic .div heap (.int x) (.int y))) ↔
      (Entera.div x y).Cabe C := by
  show (Entera.div x y).Bien C (OpResult.valor
    (if (Value.int y).asFloat == 0 then .error "division por cero"
    else if x % y == 0 then .ok (.int (x / y), heap)
    else .ok (.float ((Value.int x).asFloat / (Value.int y).asFloat), heap))) ↔ _
  rw [Entera.Cabe]
  by_cases hzero : ((Value.int y).asFloat == 0) = true
  · rw [if_pos hzero]
    exact iff_of_true trivial (.inl hzero)
  · rw [if_neg hzero, or_iff_right hzero]
    by_cases hy : y = 0
    · refine iff_of_false (fun h => ?_) fun h => h.1 hy
      split at h
      · exact h.1.1 hy
      · exact h.1.1 hy
    · rw [enRango_tdiv hy, and_iff_right hy]
      by_cases hdvd : y.toInt ∣ x.toInt
      · rw [if_pos (mod_eq_zero_iff.2 hdvd)]
        constructor
        · exact fun h => h.1.2
        · intro h
          refine ⟨⟨hy, h⟩, ?_⟩
          rw [Entera.Resultado, if_pos hdvd]
          refine ⟨_, rfl, ?_⟩
          rw [Int64.toInt_div, bmod_of_enRango ((enRango_tdiv hy).2 h), Int.tdiv_mul_cancel hdvd]
      · rw [if_neg (mod_eq_zero_iff.not.2 hdvd)]
        constructor
        · exact fun h => h.1.2
        · intro h
          refine ⟨⟨hy, h⟩, ?_⟩
          rw [Entera.Resultado, if_neg hdvd]

end Operations

/-! ## What a machine is about to do -/

/-- The operands on top of the stack, if they are integers. -/
def dosEnteros (f : Int64 → Int64 → Entera) : List Value → Option Entera
  | .int y :: .int x :: _ => some (f x y)
  | _ => none

/-- What `cur` is when `state.incr` and `state.decr` add. -/
def SharedState.cur (s : SharedState) (key : String) : Int64 :=
  match s.get key with
  | .int i => i
  | _ => 0

/-- The operation of a native. -/
def enNativa (w : World) (name : String) (args : List Value) : Option Entera :=
  if name = "int" then
    match args with
    | .float d :: _ => some (.trunc d)
    | _ => none
  else if name = "__state_incr" then
    match args with
    | [.str key] => some (.add ((storeOf w.history).cur key) 1)
    | .str key :: .int n :: _ => some (.add ((storeOf w.history).cur key) n)
    | _ => none
  else if name = "__state_decr" then
    match args with
    | .str key :: .int n :: _ => some (.decr ((storeOf w.history).cur key) n)
    | .str key :: _ => some (.decr ((storeOf w.history).cur key) 1)
    | _ => none
  else none

/-- The operation of an instruction.  `++`, `--` and the compound assignments are made of them. -/
def enInstr (vm : Vm) (i : Instr) : Option Entera :=
  match i.op with
  | .add | .addInt => dosEnteros .add vm.stack
  | .sub | .subInt => dosEnteros .sub vm.stack
  | .mul | .mulInt => dosEnteros .mul vm.stack
  | .div => dosEnteros .div vm.stack
  | .mod => dosEnteros .mod vm.stack
  | .neg =>
    match vm.stack with
    | .int x :: _ => some (.neg x)
    | _ => none
  | .callNative =>
    match popArgs (argcOf i.operand) vm.stack with
    | .ok (args, _) => enNativa vm.world (nativeAt (calleeOf i.operand)).name args
    | .error _ => none
  | _ => none

/-- The operation that a machine is about to make. -/
def pendiente (vm : Vm) : Option Entera :=
  match vm.status, vm.frames with
  | .running, f :: _ => (f.chunk.code[f.pc]?).bind (enInstr vm)
  | _, _ => none

/-- What a machine has made of an operation. -/
def Entera.Hecha (C : Conversion) (o : Entera) (vm : Vm) : Prop :=
  match vm.status with
  | .raising _ _ => True
  | _ => o.Definida C ∧ ∃ v st, vm.stack = v :: st ∧ o.Resultado C v

section Machine

variable {C : Conversion} {P : Project} {o : Entera} {vm vm' : Vm} {st : List Value} {loc : SourceLoc}
  {i : Instr} {f : Frame} {rest : List Frame} {k id : ℕ} {w : World} {args : List Value}

theorem hecha_settle (hrun : vm.status = .running) (st : List Value) (loc : SourceLoc)
    (r : OpResult) : o.Hecha C (vm.settle st loc r) ↔ o.Bien C r.valor := by
  cases r with
  | error message => exact Iff.rfl
  | ok p =>
    unfold Entera.Hecha
    have hstatus : (vm.settle st loc (.ok p)).status = .running := hrun
    rw [hstatus]
    refine and_congr_right fun _ => ?_
    constructor
    · rintro ⟨v, st', hst, hres⟩
      obtain ⟨rfl, -⟩ := List.cons.inj hst
      exact hres
    · exact fun hres => ⟨_, _, rfl, hres⟩

theorem hecha_settleCall (hrun : vm.status = .running) (st : List Value) (loc : SourceLoc)
    (r : Except String Value × World) :
    o.Hecha C (vm.settleCall st loc r) ↔ o.Bien C r.1 := by
  obtain ⟨r, w⟩ := r
  cases r with
  | error message => exact Iff.rfl
  | ok v =>
    unfold Entera.Hecha
    have hstatus : (vm.settleCall st loc (.ok v, w)).status = .running := hrun
    rw [hstatus]
    refine and_congr_right fun _ => ?_
    constructor
    · rintro ⟨v', st', hst, hres⟩
      obtain ⟨rfl, -⟩ := List.cons.inj hst
      exact hres
    · exact fun hres => ⟨_, _, rfl, hres⟩

/-- An operation with two operands. -/
theorem hecha_binary {mk : Int64 → Int64 → Entera} {g : Heap → Value → Value → OpResult}
    (hg : ∀ heap x y, (mk x y).Bien C (g heap (.int x) (.int y)).valor ↔ (mk x y).Cabe C)
    (hrun : vm.status = .running) (ho : dosEnteros mk vm.stack = some o)
    (he : vm.binary loc g = .ok vm') : o.Hecha C vm' ↔ o.Cabe C := by
  unfold dosEnteros at ho
  split at ho
  · rename_i y x st hst
    cases ho
    rw [Vm.binary, hst] at he
    cases he
    rw [hecha_settle hrun, hg]
  · cases ho

theorem native_ask (C : Conversion) (P : Project) (k : ℕ) (w : World) (name : String)
    (args : List Value) {v : Value}
    (h : ((P.conInt C).oracle k w (.native name args)) = answerOf w.heap (.ok v)) :
    (((P.conInt C).oracle k).ask w (.native name args)).1 = .ok v := by
  rw [Oracle.ask, h]
  rfl

/-- The natives. -/
theorem nativa_bien (ho : enNativa w (nativeAt id).name args = some o) :
    o.Bien C (callNative ((P.conInt C).env k) w id args).1 ↔ o.Cabe C := by
  unfold enNativa at ho
  have hcall : (nativeAt id).name = "int" ∨ (nativeAt id).name = "__state_incr" ∨
      (nativeAt id).name = "__state_decr" →
      (callNative ((P.conInt C).env k) w id args).1 =
        (((P.conInt C).oracle k).ask w (.native (nativeAt id).name args)).1 := by
    intro hname
    rw [callNative, if_neg, if_neg]
    · rfl
    · rintro rfl
      revert hname
      decide
    · rintro rfl
      revert hname
      decide
  split at ho
  · rename_i hname
    rw [hcall (.inl hname), hname]
    split at ho
    · cases ho
      rw [native_ask C P k w "int" _ rfl, bien_trunc]
    · cases ho
  split at ho
  · rename_i hname
    rw [hcall (.inr (.inl hname)), hname]
    split at ho
    · cases ho
      rw [native_ask C P k w "__state_incr" _ rfl]
      exact bien_add ..
    · cases ho
      rw [native_ask C P k w "__state_incr" _ rfl]
      exact bien_add ..
    · cases ho
  split at ho
  · rename_i hname
    rw [hcall (.inr (.inr hname)), hname]
    split at ho
    · cases ho
      rw [native_ask C P k w "__state_decr" _ rfl]
      exact bien_decr ..
    · rename_i key rest hno
      cases ho
      have hone : (fnStateDecr (storeOf w.history) (.str key :: rest)).1 =
          .ok (.int ((storeOf w.history).cur key + -1)) := by
        cases rest with
        | nil => rfl
        | cons v rest =>
          cases v with
          | int n => exact absurd rfl (hno n rest)
          | _ => rfl
      rw [native_ask C P k w "__state_decr" (.str key :: rest) (congrArg (answerOf w.heap) hone)]
      exact bien_decr ..
    · cases ho
  · cases ho

/-- An instruction makes its operation exactly, or raises an error, exactly if the result fits. -/
theorem exec_hecha (hrun : vm.status = .running) (ho : enInstr vm i = some o)
    (he : Vm.exec ((P.conInt C).env k) vm f rest i = .ok vm') : o.Hecha C vm' ↔ o.Cabe C := by
  unfold enInstr at ho
  unfold Vm.exec at he
  split at ho <;> rename_i hop
  case h_1 | h_2 =>
    rw [hop] at he
    exact hecha_binary (fun _ _ _ => bien_add ..) hrun ho he
  case h_3 | h_4 =>
    rw [hop] at he
    exact hecha_binary (fun _ _ _ => bien_sub ..) hrun ho he
  case h_5 | h_6 =>
    rw [hop] at he
    exact hecha_binary (fun _ _ _ => bien_mul ..) hrun ho he
  case h_7 =>
    rw [hop] at he
    exact hecha_binary (bien_div C) hrun ho he
  case h_8 =>
    rw [hop] at he
    exact hecha_binary (bien_mod C) hrun ho he
  case h_9 =>
    rw [hop] at he
    split at ho
    · rename_i x st hst
      cases ho
      rw [Vm.unary, hst] at he
      cases he
      rw [hecha_settle hrun]
      exact bien_neg ..
    · cases ho
  case h_10 =>
    rw [hop] at he
    split at ho
    · rename_i args st hargs
      rw [hargs] at he
      -- an asynchronous native or one that does not exist is a fault
      by_cases hnative : kNatives.length ≤ calleeOf i.operand
      · simp only [bind, Except.bind, if_pos hnative] at he
        cases he
      · simp only [bind, Except.bind, if_neg hnative] at he
        by_cases hasync : (nativeAt (calleeOf i.operand)).isAsync = true
        · simp only [if_pos hasync] at he
          cases he
        · simp only [if_neg hasync] at he
          cases he
          rw [hecha_settleCall hrun]
          exact nativa_bien ho
    · cases ho
  case h_11 => cases ho

/-- **One turn of a machine.** -/
theorem tick_hecha (hp : pendiente vm = some o)
    (he : vm.tick ((P.conInt C).env k) = .ok vm') : o.Hecha C vm' ↔ o.Cabe C := by
  unfold pendiente at hp
  split at hp
  · rename_i f rest hrun hframes
    obtain ⟨i, hi, ho⟩ := Option.bind_eq_some_iff.1 hp
    have ho' : enInstr { vm with frames := { f with pc := f.pc + 1 } :: rest } i = some o := ho
    have hrun' : { vm with frames := { f with pc := f.pc + 1 } :: rest }.status = .running := hrun
    unfold Vm.tick at he
    simp only [hrun, hframes, hi] at he
    rw [← hrun] at he
    exact exec_hecha hrun' ho' he
  · cases hp

end Machine

/-! ## Runs of the server -/

/-- What the machine of a turn is about to do. -/
def enTurno (s : Server) : Turn → Option Entera
  | .tick i => (s.machines i).bind fun vm => pendiente { vm with world := s.world }
  | _ => none

/-- The operation of a turn is made exactly and without undefined behaviour, or raises an error. -/
def Exacto (C : Conversion) (s : Server) (e : Turn) (t : Server) : Prop :=
  ∀ i vm o, e = .tick i → t.machines i = some vm → enTurno s e = some o → o.Hecha C vm

/-- The result of the operation of a turn fits. -/
def CabeTurno (C : Conversion) (s : Server) (e : Turn) : Prop :=
  ∀ o, enTurno s e = some o → o.Cabe C

section Runs

variable {C : Conversion} {P : Project} {s t : Server} {e : Turn}

theorem step_exacto (hs : (server (P.conInt C)).step s e = some t) :
    Exacto C s e t ↔ CabeTurno C s e := by
  cases e with
  | start i chunk params boxes => exact iff_of_true nofun nofun
  | resume i v boxes => exact iff_of_true nofun nofun
  | tick i =>
    have hstep : Server.step (P.conInt C) s (.tick i) = some t := hs
    unfold Server.step at hstep
    dsimp only at hstep
    split at hstep
    · rename_i vm hvm
      split at hstep
      · rename_i vm' htick
        cases hstep
        have hnext : (s.install i vm' vm'.world).machines i = some vm' :=
          Function.update_self ..
        have hop : enTurno s (.tick i) = pendiente { vm with world := s.world } := by
          rw [enTurno, hvm]
          rfl
        constructor
        · intro h o ho
          exact (tick_hecha (hop ▸ ho) htick).1 (h i vm' o rfl hnext ho)
        · intro h i' vm'' o hi hvm'' ho
          cases hi
          obtain rfl := Option.some.inj (hnext.symm.trans hvm'')
          exact (tick_hecha (hop ▸ ho) htick).2 (h o ho)
      · cases hstep
    · cases hstep

/-- **Arithmetic is exact or an error** in every step of a run, exactly if in every step the exact
    result fits in 64 bits, or the divisor is zero. -/
theorem run_exact (C : Conversion) (P : Project) (es : List Turn) :
    (server (P.conInt C)).EveryStep (Exacto C) es ↔
      (server (P.conInt C)).EveryStep (fun s e _ => CabeTurno C s e) es :=
  (server (P.conInt C)).everyStep_congr (fun _ _ _ hs => step_exacto hs) es

end Runs

/-- `return x % y`. -/
def handlerMod : Chunk where
  code := [⟨.loadLocal, 0, {}⟩, ⟨.loadLocal, 1, {}⟩, ⟨.mod, 0, {}⟩, ⟨.ret, 0, {}⟩]
  numLocals := 2

/-- A conversion of doubles none of which is finite. -/
def Conversion.none : Conversion := ⟨fun _ => .none, fun _ => Int64.minValue, fun _ => .none⟩

/-- `INT64_MIN % -1`. -/
theorem mod_not_exact : ∃ s t, (server (Project.idle.conInt .none)).run
      [.start 0 handlerMod [.int Int64.minValue, .int (-1)] [], .tick 0, .tick 0] = some s ∧
    (server (Project.idle.conInt .none)).step s (.tick 0) = some t ∧
    enTurno s (.tick 0) = some (.mod Int64.minValue (-1)) ∧
    ¬ Exacto .none s (.tick 0) t := by
  refine ⟨_, _, rfl, rfl, rfl, fun h => ?_⟩
  exact (h 0 _ _ rfl rfl rfl).1.2 ⟨rfl, rfl⟩

end Osodio.Odio
