import Mathlib.Algebra.GroupWithZero.Nat
import Mathlib.Data.List.Basic
import Osodio.Odio.Value

/-!
# Bytecode

A chunk is the compiled code of one handler, function, method, constructor or
loose expression.  The `try` blocks of the source are ranges of program counters,
resolved when the chunk is compiled.

## Main definitions

- `Op`, `Instr` — the instructions
- `callOperand`, `calleeOf`, `argcOf` — the operand of a call
- `TryRange`, `Chunk` — a chunk of code
- `findHandler` — the innermost range that covers a program counter
-/

namespace Osodio.Odio

/-- A position in the source. -/
structure SourceLoc where
  file : String := ""
  line : ℕ := 0
  col : ℕ := 0
  deriving DecidableEq, Repr, Inhabited

/-- The operations of the virtual machine. -/
inductive Op where
  | const | loadLocal | storeLocal | pop
  | add | sub | mul | div | mod | neg
  | eq | ne | lt | le | gt | ge
  | not
  | addInt | subInt | mulInt
  | ltInt | leInt | gtInt | geInt
  | jump | jumpIfFalse | jumpIfFalsePeek | jumpIfTruePeek
  | makeList | makeDict | getIndex | setIndex | iterList | getMember | setMember
  | callFunction | callMethod | callNative | callAsync
  | ret | retNull
  deriving DecidableEq, Repr

/-- `sin_especializar`: the generic counterpart of an operation. -/
def Op.sinEspecializar : Op → Op
  | .addInt => .add
  | .subInt => .sub
  | .mulInt => .mul
  | .ltInt => .lt
  | .leInt => .le
  | .gtInt => .gt
  | .geInt => .ge
  | op => op

/-- An instruction.  The operand is a natural number here, so a table of any
    length can be indexed; the source keeps it in 32 bits. -/
structure Instr where
  op : Op
  operand : ℕ := 0
  loc : SourceLoc
  deriving DecidableEq, Repr

/-! ## The operand of a call -/

/-- `(index << 8) | argc`. -/
def callOperand (index argc : ℕ) : ℕ := index <<< 8 ||| argc

/-- `operand >> 8`. -/
def calleeOf (operand : ℕ) : ℕ := operand >>> 8

/-- `operand & 0xFF`. -/
def argcOf (operand : ℕ) : ℕ := operand &&& 0xFF

theorem callOperand_eq_add (index : ℕ) {argc : ℕ} (h : argc ≤ 255) :
    callOperand index argc = 2 ^ 8 * index + argc := by
  have hlt : argc < 2 ^ 8 := by omega
  rw [callOperand, ← Nat.shiftLeft_add_eq_or_of_lt hlt, Nat.shiftLeft_eq, Nat.mul_comm]

/-- Up to 255 operands, a call is decoded to the callee it was packed for. -/
theorem calleeOf_callOperand (index : ℕ) {argc : ℕ} (h : argc ≤ 255) :
    calleeOf (callOperand index argc) = index := by
  rw [callOperand_eq_add index h, calleeOf, Nat.shiftRight_eq_div_pow]
  omega

/-- Up to 255 operands, a call is decoded to the count it was packed with. -/
theorem argcOf_callOperand (index : ℕ) {argc : ℕ} (h : argc ≤ 255) :
    argcOf (callOperand index argc) = argc := by
  rw [callOperand_eq_add index h, argcOf, show (0xFF : ℕ) = 2 ^ 8 - 1 from rfl,
    Nat.and_two_pow_sub_one_eq_mod]
  omega

theorem argcOf_le (operand : ℕ) : argcOf operand ≤ 255 := Nat.and_le_right

/-! ## Chunks -/

/-- A `try` covered by its `catch`. -/
structure TryRange where
  /-- The first instruction that is covered. -/
  first : ℕ
  /-- The first instruction that is no longer covered. -/
  stop : ℕ
  catchPc : ℕ
  deriving DecidableEq, Repr

/-- The code of a handler, once compiled. -/
structure Chunk where
  code : List Instr := []
  hasAwait : Bool := false
  constants : List Value := []
  tryRanges : List TryRange := []
  numLocals : ℕ := 0
  deriving Repr, Inhabited

/-- A template, compiled against the names it is given. -/
structure Plantilla where
  nombre : String
  nombres : List (String × String) := []
  deriving DecidableEq, Repr

/-! ## Handlers -/

/-- The range `r` covers `pc`. -/
def TryRange.Covers (r : TryRange) (pc : ℕ) : Prop := r.first ≤ pc ∧ pc < r.stop

instance (r : TryRange) (pc : ℕ) : Decidable (r.Covers pc) :=
  inferInstanceAs (Decidable (_ ∧ _))

/-- One turn of the search for a handler: the smaller range wins, and the
    earlier one among equals. -/
def betterHandler (pc : ℕ) (best : Option TryRange) (r : TryRange) : Option TryRange :=
  if r.Covers pc then
    match best with
    | none => some r
    | some b => if r.stop - r.first < b.stop - b.first then some r else some b
  else best

/-- `find_handler`: the innermost range that covers `pc`. -/
def findHandler (ranges : List TryRange) (pc : ℕ) : Option TryRange :=
  ranges.foldl (betterHandler pc) none

@[simp] theorem findHandler_nil (pc : ℕ) : findHandler [] pc = none := rfl

theorem findHandler_append (xs ys : List TryRange) (pc : ℕ) :
    findHandler (xs ++ ys) pc = ys.foldl (betterHandler pc) (findHandler xs pc) := by
  simp [findHandler]

theorem foldl_betterHandler_eq {ys : List TryRange} {pc : ℕ} (h : ∀ r ∈ ys, ¬ r.Covers pc)
    (best : Option TryRange) : ys.foldl (betterHandler pc) best = best := by
  induction ys with
  | nil => rfl
  | cons r ys ih =>
    have hr : betterHandler pc best r = best := if_neg (h r (by simp))
    rw [List.foldl_cons, hr]
    exact ih fun r' hr' => h r' (List.mem_cons_of_mem _ hr')

/-- Ranges that do not cover a program counter say nothing about it. -/
theorem findHandler_append_left {xs ys : List TryRange} {pc : ℕ}
    (h : ∀ r ∈ ys, ¬ r.Covers pc) : findHandler (xs ++ ys) pc = findHandler xs pc := by
  rw [findHandler_append, foldl_betterHandler_eq h]

theorem foldl_betterHandler_mem {ys : List TryRange} {pc : ℕ} {best : Option TryRange}
    {r : TryRange} (h : ys.foldl (betterHandler pc) best = some r) :
    best = some r ∨ (r ∈ ys ∧ r.Covers pc) := by
  induction ys generalizing best with
  | nil => exact .inl h
  | cons y ys ih =>
    rcases ih h with h | ⟨hm, hc⟩
    · unfold betterHandler at h
      split at h
      · next hy =>
        split at h
        · obtain rfl : y = r := Option.some.inj h
          exact .inr ⟨by simp, hy⟩
        · split at h
          · obtain rfl : y = r := Option.some.inj h
            exact .inr ⟨by simp, hy⟩
          · exact .inl h
      · exact .inl h
    · exact .inr ⟨List.mem_cons_of_mem _ hm, hc⟩

/-- The handler is one of the ranges, and covers the program counter. -/
theorem findHandler_mem {ranges : List TryRange} {pc : ℕ} {r : TryRange}
    (h : findHandler ranges pc = some r) : r ∈ ranges ∧ r.Covers pc := by
  rcases foldl_betterHandler_mem h with h | h
  · cases h
  · exact h

end Osodio.Odio
