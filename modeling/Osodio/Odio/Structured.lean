import Mathlib.Logic.Function.Basic
import Osodio.Odio.Tree

/-!
# Structured code

A tree is executed in one frame: it takes and leaves operands, stores slots, and ends where it ends,
or leaves a loop or the frame.

## Main definitions

- `FrameState` — the operands and the slots of a frame, and what is shared
- `Atom.act` — what an atom does
- `Exit` — how the execution of a tree ends
- `Tree.Exec` — the execution of a tree

## Main results

- `Tree.ExecAll.seq` — trees that are executed one after the other
-/

namespace Osodio.Odio

/-- What a suspended machine is resumed with, and what is shared by then. -/
abbrev Driver := World → ℕ → List Value → Value × World

/-! ## Frames -/

/-- The state of a frame: its operands, the last one first, its slots, and what is shared. -/
structure FrameState where
  stack : List Value
  slots : ℕ → Value
  world : World

namespace FrameState

/-- Leaves the result of an operation on top of `stack`, or the message of its error. -/
def settle (s : FrameState) (stack : List Value) : OpResult → FrameState × Option String
  | .ok (v, heap) => ({ s with stack := v :: stack, world := { s.world with heap := heap } }, none)
  | .error message => ({ s with stack := stack }, some message)

/-- Leaves the answer to a call on top of `stack`, or the message of its error. -/
def settleCall (s : FrameState) (stack : List Value) :
    Except String Value × World → FrameState × Option String
  | (.ok v, w) => ({ s with stack := v :: stack, world := w }, none)
  | (.error message, w) => ({ s with stack := stack, world := w }, some message)

/-- The frame of a callee, whose first slots are the last `argc` operands. -/
def enter (s : FrameState) (argc : ℕ) : FrameState where
  stack := []
  slots := fun k => (s.stack.take argc).reverse.getD k .null
  world := s.world

/-- The operands are dropped, and the error is the only one. -/
def caught (s : FrameState) (message : String) : FrameState :=
  let (v, heap) := errorValue message s.world.heap
  { s with stack := [v], world := { s.world with heap := heap } }

end FrameState

/-- What an operation on values does with its operands. -/
def Op.act (o : Op) (s : FrameState) : Option (FrameState × Option String) :=
  match o.unary, o.binary, o.ternary, s.stack with
  | some f, _, _, a :: st => some (s.settle st (f s.world.heap a))
  | none, some f, _, b :: a :: st => some (s.settle st (f s.world.heap a b))
  | none, none, some f, v :: b :: a :: st => some (s.settle st (f s.world.heap a b v))
  | _, _, _, _ => none

/-- What an atom does that does not leave its frame: the state after it, and the message of its
    error if it fails. -/
def Atom.act (E : Env) (s : FrameState) : Atom → Option (FrameState × Option String)
  | .const v => some ({ s with stack := v :: s.stack }, none)
  | .loadLocal slot => some ({ s with stack := s.slots slot :: s.stack }, none)
  | .storeLocal slot =>
    match s.stack with
    | v :: st => some ({ s with stack := st, slots := Function.update s.slots slot v }, none)
    | [] => none
  | .pop =>
    match s.stack with
    | _ :: st => some ({ s with stack := st }, none)
    | [] => none
  | .op o => o.act s
  | .makeList n =>
    if n ≤ s.stack.length then
      some (s.settle (s.stack.drop n) (.ok (newList (s.stack.take n).reverse s.world.heap)))
    else none
  | .makeDict n =>
    if n * 2 ≤ s.stack.length then
      some (s.settle (s.stack.drop (n * 2))
        (Odio.makeDict s.world.heap (s.stack.take (n * 2)).reverse))
    else none
  | .getMember name =>
    match s.stack with
    | a :: st => some (s.settle st (Odio.getMember name s.world.heap a))
    | [] => none
  | .setMember name =>
    match s.stack with
    | v :: a :: st => some (s.settle st (Odio.setMember name s.world.heap a v))
    | _ => none
  | .callMethod name argc =>
    match s.stack.drop argc with
    | receiver :: st => some (s.settleCall st
        (E.oracle.ask s.world (.method receiver name (s.stack.take argc).reverse)))
    | [] => none
  | .callNative id argc =>
    if argc ≤ s.stack.length ∧ (nativeAt id).isAsync = false then
      some (s.settleCall (s.stack.drop argc)
        (Odio.callNative E s.world id (s.stack.take argc).reverse))
    else none
  | .callFunction _ _ | .callAsync _ _ => none

/-! ## The execution of a tree -/

/-- How the execution of a tree ends. -/
inductive Exit where
  | fall
  | brk
  | cont
  | ret (v : Value)
  | raise (message : String) (loc : SourceLoc)

/-- The left side of an `and` or an `or` is the result. -/
def LogOp.decides : LogOp → Bool → Bool
  | .and, b => !b
  | .or, b => b

/-- **The execution of a tree.**  `F` holds the trees of the functions, and `D` answers to what is
    awaited. -/
inductive Tree.Exec (E : Env) (D : Driver) (F : ℕ → Tree → Prop) :
    Tree → FrameState → Exit → FrameState → Prop where
  | nil {s} : Exec E D F .nil s .fall s
  | atom {a loc s s'} (h : Atom.act E s a = some (s', none)) : Exec E D F (.atom a loc) s .fall s'
  | atomFails {a loc s s' message} (h : Atom.act E s a = some (s', some message)) :
      Exec E D F (.atom a loc) s (.raise message loc) s'
  | call {index argc loc s t v s'} (hF : F index t) (hn : argc ≤ s.stack.length)
      (h : Exec E D F t (s.enter argc) (.ret v) s') :
      Exec E D F (.atom (.callFunction index argc) loc) s .fall
        ⟨v :: s.stack.drop argc, s.slots, s'.world⟩
  | callFails {index argc loc s t message l s'} (hF : F index t) (hn : argc ≤ s.stack.length)
      (h : Exec E D F t (s.enter argc) (.raise message l) s') :
      Exec E D F (.atom (.callFunction index argc) loc) s (.raise message l)
        ⟨s.stack.drop argc, s.slots, s'.world⟩
  | await {id argc loc s v w} (hn : argc ≤ s.stack.length)
      (h : D s.world id (s.stack.take argc).reverse = (v, w)) :
      Exec E D F (.atom (.callAsync id argc) loc) s .fall ⟨v :: s.stack.drop argc, s.slots, w⟩
  | seq {t u s s₁ x s'} (h : Exec E D F t s .fall s₁) (h' : Exec E D F u s₁ x s') :
      Exec E D F (.seq t u) s x s'
  | seqStops {t u s x s'} (h : Exec E D F t s x s') (hx : x ≠ .fall) : Exec E D F (.seq t u) s x s'
  | ret {loc v st f w} : Exec E D F (.ret loc) ⟨v :: st, f, w⟩ (.ret v) ⟨st, f, w⟩
  | retNull {loc s} : Exec E D F (.retNull loc) s (.ret .null) s
  | brk {loc s} : Exec E D F (.brk loc) s .brk s
  | cont {loc s} : Exec E D F (.cont loc) s .cont s
  | peekDecides {op t loc v st f w} (h : op.decides (v.truthy w.heap) = true) :
      Exec E D F (.peek op t loc) ⟨v :: st, f, w⟩ .fall ⟨v :: st, f, w⟩
  | peekGoes {op t loc v st f w x s'} (h : op.decides (v.truthy w.heap) = false)
      (ht : Exec E D F t ⟨st, f, w⟩ x s') : Exec E D F (.peek op t loc) ⟨v :: st, f, w⟩ x s'
  | cond {t u loc v st f w x s'}
      (h : Exec E D F (if v.truthy w.heap then t else u) ⟨st, f, w⟩ x s') :
      Exec E D F (.cond t u loc) ⟨v :: st, f, w⟩ x s'
  | whenTrue {t loc v st f w x s'} (hv : v.truthy w.heap = true)
      (h : Exec E D F t ⟨st, f, w⟩ x s') : Exec E D F (.when t loc) ⟨v :: st, f, w⟩ x s'
  | whenFalse {t loc v st f w} (hv : v.truthy w.heap = false) :
      Exec E D F (.when t loc) ⟨v :: st, f, w⟩ .fall ⟨st, f, w⟩
  | unlessTrue {t loc v st f w} (hv : v.truthy w.heap = true) :
      Exec E D F (.unless t loc) ⟨v :: st, f, w⟩ .fall ⟨st, f, w⟩
  | unlessFalse {t loc v st f w x s'} (hv : v.truthy w.heap = false)
      (h : Exec E D F t ⟨st, f, w⟩ x s') : Exec E D F (.unless t loc) ⟨v :: st, f, w⟩ x s'
  | loopHeadStops {head body step toHead loc s x s'} (hh : Exec E D F head s x s')
      (hx : x ≠ .fall) : Exec E D F (.loop head body step toHead loc) s x s'
  | loopEnds {head body step toHead loc s v st f w}
      (hh : Exec E D F head s .fall ⟨v :: st, f, w⟩) (hv : v.truthy w.heap = false) :
      Exec E D F (.loop head body step toHead loc) s .fall ⟨st, f, w⟩
  | loopBreaks {head body step toHead loc s v st f w s'}
      (hh : Exec E D F head s .fall ⟨v :: st, f, w⟩) (hv : v.truthy w.heap = true)
      (hb : Exec E D F body ⟨st, f, w⟩ .brk s') :
      Exec E D F (.loop head body step toHead loc) s .fall s'
  | loopLeaves {head body step toHead loc s v st f w x s'}
      (hh : Exec E D F head s .fall ⟨v :: st, f, w⟩) (hv : v.truthy w.heap = true)
      (hb : Exec E D F body ⟨st, f, w⟩ x s') (hx : x ≠ .fall ∧ x ≠ .brk ∧ x ≠ .cont) :
      Exec E D F (.loop head body step toHead loc) s x s'
  | loopGoes {head body step toHead loc s v st f w x s₂ s₃ y s'}
      (hh : Exec E D F head s .fall ⟨v :: st, f, w⟩) (hv : v.truthy w.heap = true)
      (hb : Exec E D F body ⟨st, f, w⟩ x s₂) (hx : x = .fall ∨ x = .cont ∧ toHead = false)
      (hs : Exec E D F step s₂ .fall s₃)
      (hl : Exec E D F (.loop head body step toHead loc) s₃ y s') :
      Exec E D F (.loop head body step toHead loc) s y s'
  | loopStepStops {head body step toHead loc s v st f w x s₂ y s'}
      (hh : Exec E D F head s .fall ⟨v :: st, f, w⟩) (hv : v.truthy w.heap = true)
      (hb : Exec E D F body ⟨st, f, w⟩ x s₂) (hx : x = .fall ∨ x = .cont ∧ toHead = false)
      (hs : Exec E D F step s₂ y s') (hy : y ≠ .fall) :
      Exec E D F (.loop head body step toHead loc) s y s'
  | loopContinues {head body step loc s v st f w s₂ y s'}
      (hh : Exec E D F head s .fall ⟨v :: st, f, w⟩) (hv : v.truthy w.heap = true)
      (hb : Exec E D F body ⟨st, f, w⟩ .cont s₂)
      (hl : Exec E D F (.loop head body step true loc) s₂ y s') :
      Exec E D F (.loop head body step true loc) s y s'
  | tryFalls {body handler loc s x s'} (h : Exec E D F body s x s')
      (hx : ∀ message l, x ≠ .raise message l) :
      Exec E D F (.tryCatch body handler loc) s x s'
  | tryCatches {body handler loc s message l s₁ x s'}
      (h : Exec E D F body s (.raise message l) s₁)
      (hh : Exec E D F handler (s₁.caught message) x s') :
      Exec E D F (.tryCatch body handler loc) s x s'

/-! ## Trees one after the other -/

/-- Trees are executed one after the other, up to the first that does not end where it ends. -/
inductive Tree.ExecAll (E : Env) (D : Driver) (F : ℕ → Tree → Prop) :
    List Tree → FrameState → Exit → FrameState → Prop where
  | nil {s} : ExecAll E D F [] s .fall s
  | cons {t ts s s₁ x s'} (h : Tree.Exec E D F t s .fall s₁) (h' : ExecAll E D F ts s₁ x s') :
      ExecAll E D F (t :: ts) s x s'
  | stops {t ts s x s'} (h : Tree.Exec E D F t s x s') (hx : x ≠ .fall) :
      ExecAll E D F (t :: ts) s x s'

section Execution

variable {E : Env} {D : Driver} {F : ℕ → Tree → Prop} {t u : Tree} {ts us : List Tree}
  {s s₁ s' : FrameState} {x : Exit} {a : Atom} {loc : SourceLoc}

/-- A tree and then an atom. -/
theorem Tree.Exec.andThen (h : Tree.Exec E D F t s .fall s₁)
    (h' : Tree.Exec E D F (.atom a loc) s₁ x s') : Tree.Exec E D F (t.andThen a loc) s x s' :=
  .seq h h'

/-- Trees that are executed in a tree, in their order. -/
def Tree.Runs (E : Env) (D : Driver) (F : ℕ → Tree → Prop) (ts : List Tree) (t : Tree) : Prop :=
  ∀ s x s', Tree.ExecAll E D F ts s x s' → Tree.Exec E D F t s x s'

theorem Tree.ExecAll.one (h : Tree.Exec E D F t s x s') : Tree.ExecAll E D F [t] s x s' := by
  by_cases hx : x = .fall
  · subst hx
    exact .cons h .nil
  · exact .stops h hx

theorem Tree.ExecAll.append (h : Tree.ExecAll E D F ts s .fall s₁)
    (h' : Tree.ExecAll E D F us s₁ x s') : Tree.ExecAll E D F (ts ++ us) s x s' := by
  generalize hx : Exit.fall = y at h
  induction h with
  | nil => exact h'
  | cons h _ ih => exact .cons h (ih h' hx)
  | stops h hne => exact absurd hx.symm hne

/-- Trees behind one that does not end where it ends are not executed. -/
theorem Tree.ExecAll.stopped (h : Tree.ExecAll E D F ts s x s') (hx : x ≠ .fall) :
    Tree.ExecAll E D F (ts ++ us) s x s' := by
  induction h with
  | nil => exact absurd rfl hx
  | cons h _ ih => exact .cons h (ih hx)
  | stops h hne => exact .stops h hne

/-- The execution of some trees and then of others. -/
theorem Tree.ExecAll.split (h : Tree.ExecAll E D F (ts ++ us) s x s') :
    (Tree.ExecAll E D F ts s x s' ∧ x ≠ .fall) ∨
      ∃ s₁, Tree.ExecAll E D F ts s .fall s₁ ∧ Tree.ExecAll E D F us s₁ x s' := by
  induction ts generalizing s with
  | nil => exact .inr ⟨s, .nil, h⟩
  | cons t ts ih =>
    cases h with
    | cons h h' =>
      rcases ih h' with ⟨hts, hx⟩ | ⟨s₁, hts, hus⟩
      · exact .inl ⟨.cons h hts, hx⟩
      · exact .inr ⟨s₁, .cons h hts, hus⟩
    | stops h hx => exact .inl ⟨.stops h hx, hx⟩

theorem Tree.Runs.nil : Tree.Runs E D F [] .nil := by
  intro s x s' h
  cases h
  exact .nil

theorem Tree.Runs.one (t : Tree) : Tree.Runs E D F [t] t := by
  intro s x s' h
  cases h with
  | cons h h' =>
    cases h'
    exact h
  | stops h => exact h

theorem Tree.Runs.of_eq (h : Tree.Runs E D F ts t) (he : ts = us) : Tree.Runs E D F us t := he ▸ h

/-- **One part after the other** executes the trees of both. -/
theorem Tree.Runs.seq (ht : Tree.Runs E D F ts t) (hu : Tree.Runs E D F us u) :
    Tree.Runs E D F (ts ++ us) (.seq t u) := by
  intro s x s' h
  rcases h.split with ⟨hts, hx⟩ | ⟨s₁, hts, hus⟩
  · exact .seqStops (ht _ _ _ hts) hx
  · exact .seq (ht _ _ _ hts) (hu _ _ _ hus)

/-- Atoms one after the other. -/
theorem Tree.Exec.atoms_cons {as : List Atom} (h : Atom.act E s a = some (s₁, none))
    (h' : Tree.Exec E D F (.atoms loc as) s₁ x s') :
    Tree.Exec E D F (.atoms loc (a :: as)) s x s' :=
  .seq (.atom h) h'

theorem Tree.Exec.atoms_fails {as : List Atom} {message : String}
    (h : Atom.act E s a = some (s', some message)) :
    Tree.Exec E D F (.atoms loc (a :: as)) s (.raise message loc) s' :=
  .seqStops (.atomFails h) (by simp)

end Execution

end Osodio.Odio
