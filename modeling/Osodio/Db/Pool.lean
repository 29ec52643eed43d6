import Osodio.Db.RunDb
import Osodio.Lib.Transition

/-!
# The pool of database workers

A pool has a queue that every worker serves and a queue for each worker, which it
serves first.  A handler waits until its job has been run and is then resumed on
its own event loop, so it has one job at a time.

## Main definitions

- `World` — the queues, the job each worker holds, and the handlers
- `World.step` — one step of a handler or of a worker
- `pool` — the system they form
-/

namespace Osodio.Db

open Osodio.Lib Osodio.Odio

/-- A job in the pool, and the handler that waits for it. -/
structure Job where
  handler : ℕ
  request : DbRequest

inductive HandlerStatus where
  | running
  | waiting
  /-- The job was run by `worker`, and the resumption has been posted. -/
  | answered (request : DbRequest) (worker : ℕ) (outcome : Outcome)

structure Handler where
  ctx : NativeCtx := {}
  status : HandlerStatus := .running

/-- A statement that was executed on the connection of `worker`. -/
structure Executed where
  worker : ℕ
  handler : ℕ
  op : DbOp
  success : Bool
  deriving DecidableEq, Repr

/-- The pool, its handlers, and what has been executed so far. -/
structure World where
  jobs : List Job := []
  pinned : ℕ → List Job := fun _ => []
  /-- The job that a worker has taken and not yet finished. -/
  holding : ℕ → Option Job := fun _ => none
  stopping : Bool := false
  handlers : ℕ → Handler := fun _ => {}
  log : List Executed := []

/-- `DbPool::submit`. -/
def World.submit (w : World) (job : Job) : World :=
  if w.stopping then w else { w with jobs := w.jobs ++ [job] }

/-- `DbPool::submit_to`, in a pool of `size` workers. -/
def World.submitTo (w : World) (size worker : ℕ) (job : Job) : World :=
  if w.stopping ∨ worker ≥ size then w
  else { w with pinned := Function.update w.pinned worker (w.pinned worker ++ [job]) }

/-- `DbAwaitable::await_suspend`: the handler waits, pinned or not. -/
def World.suspend (w : World) (size : ℕ) (job : Job) : World :=
  let w := { w with
    handlers := Function.update w.handlers job.handler
      { w.handlers job.handler with status := .waiting } }
  match job.request.pin with
  | some worker => w.submitTo size worker job
  | none => w.submit job

/-- A worker takes a job: its own queue first. -/
def World.take (w : World) (worker : ℕ) : Option World :=
  match w.pinned worker with
  | job :: rest =>
    some { w with
      pinned := Function.update w.pinned worker rest
      holding := Function.update w.holding worker (some job) }
  | [] =>
    match w.jobs with
    | job :: rest =>
      some { w with jobs := rest, holding := Function.update w.holding worker (some job) }
    | [] => none

/-- The statement executed by a job that ends so; a job that throws ends with
    no outcome. -/
def executedBy (worker : ℕ) (job : Job) (outcome : Option Outcome) : List Executed :=
  if job.request.op = .lastId then []
  else
    match outcome with
    | some (.openFailed _) => []
    | some (.failed _) | none => [⟨worker, job.handler, job.request.op, false⟩]
    | some (.ok _) => [⟨worker, job.handler, job.request.op, true⟩]

/-- A worker runs the job it holds; one that throws resumes nobody. -/
def World.runJob (w : World) (worker : ℕ) (job : Job) (outcome : Option Outcome) : World :=
  { w with
    holding := Function.update w.holding worker none
    handlers :=
      match outcome with
      | none => w.handlers
      | some o =>
        Function.update w.handlers job.handler
          { w.handlers job.handler with status := .answered job.request worker o }
    log := w.log ++ executedBy worker job outcome }

inductive Event where
  /-- The program of `handler` awaits an operation. -/
  | await (handler : ℕ) (op : DbOp) (args : List Value)
  | dequeue (worker : ℕ)
  | runJob (worker : ℕ) (outcome : Option Outcome)
  | resume (handler : ℕ)
  | stop

/-- One step in the pool of the module `mod` with `size` workers. -/
def World.step (mod : String) (size : ℕ) (w : World) : Event → Option World
  | .await h op args =>
    match (w.handlers h).status with
    | .running =>
      match runDbRequest (· == mod) (w.handlers h).ctx op args with
      | .error _ => some w
      | .ok request => some (w.suspend size ⟨h, request⟩)
    | _ => none
  | .dequeue i => if i < size ∧ (w.holding i).isNone then w.take i else none
  | .runJob i outcome => (w.holding i).map fun job => w.runJob i job outcome
  | .resume h =>
    match (w.handlers h).status with
    | .answered r i outcome =>
      some { w with
        handlers := Function.update w.handlers h
          { ctx := runDbSettle (w.handlers h).ctx r.mod r.op i outcome, status := .running } }
    | _ => none
  | .stop => some { w with stopping := true }

/-- A pool of `size` workers for the module `mod`. -/
def pool (mod : String) (size : ℕ) : System World Event where
  init := {}
  step := World.step mod size

end Osodio.Db
