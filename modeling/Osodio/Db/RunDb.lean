import Mathlib.Data.List.Basic
import Osodio.Odio.Value

/-!
# Database operations of a handler

`runDb` turns an awaited operation into a request to the pool of its module and
settles the result in the context of the handler.  While a transaction is open
the context pins the module to the worker whose connection opened it.

## Main definitions

- `NativeCtx` — the worker pinned by each module, and the one of its last `exec`
- `runDbRequest` — what an operation asks of the pool, or why it asks nothing
- `runDbSettle` — the context after the pool has answered
-/

namespace Osodio.Db

open Osodio.Odio

/-- The operations that can be awaited on a module. -/
inductive DbOp where
  | query
  | exec
  | lastId
  | begin
  | commit
  | rollback
  deriving DecidableEq, Repr

/-! ## Maps from modules to workers -/

/-- `std::map<std::string, int>`: pairs in the order of their keys. -/
abbrev WorkerMap := List (String × ℕ)

/-- `m[mod] = worker`. -/
def assign (mod : String) (worker : ℕ) : WorkerMap → WorkerMap
  | [] => [(mod, worker)]
  | (k, w) :: rest =>
    if mod = k then (mod, worker) :: rest
    else if mod < k then (mod, worker) :: (k, w) :: rest
    else (k, w) :: assign mod worker rest

/-- `m.erase(mod)`. -/
def erase (mod : String) (m : WorkerMap) : WorkerMap := m.filter fun p => p.1 ≠ mod

@[simp] theorem lookup_assign_self (mod : String) (worker : ℕ) (m : WorkerMap) :
    (assign mod worker m).lookup mod = some worker := by
  induction m with
  | nil => simp [assign]
  | cons p rest ih =>
    obtain ⟨k, w⟩ := p
    unfold assign
    split
    · simp
    · next hne =>
      split
      · simp
      · simpa [List.lookup_cons, beq_eq_false_iff_ne.2 hne] using ih

theorem lookup_assign_ne {mod k : String} (h : k ≠ mod) (worker : ℕ) (m : WorkerMap) :
    (assign mod worker m).lookup k = m.lookup k := by
  induction m with
  | nil => simp [assign, List.lookup_cons, beq_eq_false_iff_ne.2 h]
  | cons p rest ih =>
    obtain ⟨k', w⟩ := p
    unfold assign
    split
    · next heq =>
      subst heq
      simp [List.lookup_cons, beq_eq_false_iff_ne.2 h]
    · split
      · simp [List.lookup_cons, beq_eq_false_iff_ne.2 h]
      · simp only [List.lookup_cons, ih]

@[simp] theorem lookup_erase_self (mod : String) (m : WorkerMap) :
    (erase mod m).lookup mod = none := by
  rw [List.lookup_eq_none_iff]
  rintro p hp
  have hne : p.1 ≠ mod := by simpa using (List.mem_filter.1 hp).2
  simpa using Ne.symm hne

/-! ## One operation -/

/-- What a handler remembers of its connections (`NativeCtx`). -/
structure NativeCtx where
  pinnedWorkers : WorkerMap := []
  lastExecWorkers : WorkerMap := []
  deriving DecidableEq, Repr

/-- What an operation asks of the pool of its module.  `pin` is the worker it has
    to run on; without one, any worker of the pool takes it. -/
structure DbRequest where
  mod : String
  op : DbOp
  sql : String
  params : List Value
  pin : Option ℕ

/-- The text that is executed, if the operation executes any. -/
def DbRequest.statement (r : DbRequest) : Option String :=
  match r.op with
  | .query | .exec => some r.sql
  | .lastId => none
  | .begin => some "BEGIN"
  | .commit => some "COMMIT"
  | .rollback => some "ROLLBACK"

/-- Inside a transaction everything goes to the connection that opened it;
    outside, `last_id` goes to the connection of the last `exec`. -/
def pinOf (ctx : NativeCtx) (op : DbOp) (mod : String) : Option ℕ :=
  match ctx.pinnedWorkers.lookup mod with
  | some worker => some worker
  | none => if op = .lastId then ctx.lastExecWorkers.lookup mod else none

/-- The first half of `run_db`.  The first argument is the module; a failure is
    answered to the program and nothing is asked of a pool. -/
def runDbRequest (active : String → Bool) (ctx : NativeCtx) (op : DbOp)
    (awaitArgs : List Value) : Except String DbRequest :=
  match awaitArgs with
  | .str mod :: rest =>
    if !active mod then
      .error ("el modulo '" ++ mod ++ "' no esta configurado: falta su bloque en app:")
    else if op = .query ∨ op = .exec then
      match rest with
      | .str sql :: params => .ok ⟨mod, op, sql, params, pinOf ctx op mod⟩
      | _ => .error "falta la consulta SQL"
    else .ok ⟨mod, op, "", [], pinOf ctx op mod⟩
  | _ => .error "consulta mal formada"

/-- The text of a failure, which no driver leaves empty. -/
abbrev DbError := { message : String // message ≠ "" }

/-- How a job ends on its worker. -/
inductive Outcome where
  /-- The connection could not be opened, and nothing was executed on it. -/
  | openFailed (error : DbError)
  | failed (error : DbError)
  | ok (result : Value)

/-- The second half of `run_db`: the context after `op` was answered by
    `worker`.  A failure changes nothing. -/
def runDbSettle (ctx : NativeCtx) (mod : String) (op : DbOp) (worker : ℕ) :
    Outcome → NativeCtx
  | .openFailed _ => ctx
  | .failed _ => ctx
  | .ok _ =>
    let ctx := if op = .exec then
        { ctx with lastExecWorkers := assign mod worker ctx.lastExecWorkers }
      else ctx
    match op with
    | .begin => { ctx with pinnedWorkers := assign mod worker ctx.pinnedWorkers }
    | .commit | .rollback => { ctx with pinnedWorkers := erase mod ctx.pinnedWorkers }
    | _ => ctx

/-- Where the module is pinned after an operation that succeeded. -/
theorem settle_lookup {mod : String} (ctx : NativeCtx) (op : DbOp) (i : ℕ) (v : Value) :
    (runDbSettle ctx mod op i (.ok v)).pinnedWorkers.lookup mod =
      match op with
      | .begin => some i
      | .commit | .rollback => none
      | _ => ctx.pinnedWorkers.lookup mod := by
  cases op <;> simp [runDbSettle]

/-- The value that the program is given. -/
def runDbResult : Outcome → Except String Value
  | .openFailed e => .error e.1
  | .failed e => .error e.1
  | .ok v => .ok v

end Osodio.Db
