import Mathlib.Logic.Function.Basic
import Osodio.Lib.Transition

/-!
# Sleeping and cancellation on an event loop

A handler that sleeps arms a timer and leaves a wake function in the token of a
request, so that cancelling the request ends the sleep early.  The token is
found through a thread-local that every dispatch overwrites.

Requests, tokens and coroutines are numbered alike: request `r` is handled by
coroutine `r` and cancelled through token `r`.

## Main definitions

- `CancellationToken` — `cancel`, `set_wake`, `clear_wake`
- `World.step` — one step of a coroutine, of the loop or of a cancellation
- `eventLoop` — the system they form
-/

namespace Osodio.Runtime

open Osodio.Lib

/-- The wake function that a sleep registers: it cancels `timer` and resumes
    `coroutine`. -/
structure WakeFn where
  coroutine : ℕ
  timer : ℕ
  deriving DecidableEq, Repr

structure CancellationToken where
  cancelled : Bool := false
  wakeFn : Option WakeFn := none
  deriving DecidableEq, Repr

inductive Status where
  | fresh
  | running
  /-- Suspended in a sleep, whose timer it is. -/
  | sleeping (timer : ℕ)
  /-- Suspended elsewhere, until the pool or the socket resumes it. -/
  | waiting
  | done
  deriving DecidableEq, Repr

/-- The callback of a pending timer: what it resumes, and the token that the
    sleep was registered with. -/
structure Timer where
  id : ℕ
  coroutine : ℕ
  token : Option ℕ
  deriving DecidableEq, Repr

inductive Cause where
  | timer
  | cancel (request : ℕ)
  deriving DecidableEq, Repr

/-- A sleep that was resumed, and why. -/
structure Resumed where
  timer : ℕ
  coroutine : ℕ
  cause : Cause
  deriving DecidableEq, Repr

structure World where
  status : ℕ → Status := fun _ => .fresh
  /-- A token that has been destroyed is `none`. -/
  tokens : ℕ → Option CancellationToken := fun _ => none
  /-- `detail::current_token`. -/
  currentToken : Option ℕ := none
  timers : List Timer := []
  nextTimer : ℕ := 0
  /-- The coroutines on the stack of the thread, the running one first. -/
  stack : List ℕ := []
  resumed : List Resumed := []

/-- `std::weak_ptr::lock`. -/
def World.lock (w : World) (token : Option ℕ) : Option CancellationToken :=
  token.bind w.tokens

/-- `h.resume()`, unless the coroutine has ended. -/
def World.resume (w : World) (sleep : WakeFn) (cause : Cause) : World :=
  if w.status sleep.coroutine = .done then w
  else
    { w with
      status := Function.update w.status sleep.coroutine .running
      stack := sleep.coroutine :: w.stack
      resumed := w.resumed ++ [⟨sleep.timer, sleep.coroutine, cause⟩] }

/-- `cancel_timer`. -/
def World.cancelTimer (w : World) (id : ℕ) : World :=
  { w with timers := w.timers.filter fun t => t.id ≠ id }

/-- `HttpConnection::dispatch`: a fresh token, which becomes the current one. -/
def World.dispatch (w : World) (r : ℕ) : World :=
  { w with
    status := Function.update w.status r .running
    tokens := Function.update w.tokens r (some {})
    currentToken := some r
    stack := r :: w.stack }

/-- `SleepAwaitable::await_suspend` of the coroutine `r`: the timer is armed, and
    the wake function registered with the current token.  A token that is
    cancelled already calls it at once. -/
def World.suspend (w : World) (r : ℕ) (below : List ℕ) : World :=
  let id := w.nextTimer
  let armed := { w with
    timers := w.timers ++ [⟨id, r, w.currentToken⟩]
    nextTimer := id + 1
    status := Function.update w.status r (.sleeping id)
    stack := below }
  match w.currentToken, w.lock w.currentToken with
  | some t, some token =>
    if token.cancelled then (armed.cancelTimer id).resume ⟨r, id⟩ (.cancel t)
    else
      { armed with
        tokens := Function.update w.tokens t (some { token with wakeFn := some ⟨r, id⟩ }) }
  | _, _ => armed

/-- A timer expires: the slot of its token is cleared first. -/
def World.expire (w : World) (t : Timer) : World :=
  let w := w.cancelTimer t.id
  let w :=
    match t.token, w.lock t.token with
    | some r, some token =>
      { w with tokens := Function.update w.tokens r (some { token with wakeFn := none }) }
    | _, _ => w
  w.resume ⟨t.coroutine, t.id⟩ .timer

/-- `CancellationToken::cancel`. -/
def World.cancel (w : World) (r : ℕ) (token : CancellationToken) : World :=
  if token.cancelled then w
  else
    let w := { w with tokens := Function.update w.tokens r (some ⟨true, none⟩) }
    match token.wakeFn with
    | some fn => (w.cancelTimer fn.timer).resume fn (.cancel r)
    | none => w

inductive Event where
  | dispatch (request : ℕ)
  /-- The running coroutine awaits `sleep(ms)`. -/
  | sleep (ms : ℤ)
  /-- The running coroutine awaits something else. -/
  | await
  | finish
  | expire (timer : ℕ)
  /-- What a coroutine awaited is there. -/
  | answer (request : ℕ)
  /-- The request times out, or its client goes away. -/
  | cancel (request : ℕ)
  /-- The last owner of the token of a request that has ended lets go of it. -/
  | release (request : ℕ)
  deriving DecidableEq, Repr

/-- One step.  Timers and answers come from the loop, when nothing is running;
    a cancellation also comes from a coroutine whose socket fails. -/
def World.step (w : World) : Event → Option World
  | .dispatch r => if w.status r = .fresh then some (w.dispatch r) else none
  | .sleep ms =>
    match w.stack with
    | r :: below => if ms ≤ 0 then some w else some (w.suspend r below)
    | [] => none
  | .await =>
    match w.stack with
    | r :: below =>
      some { w with status := Function.update w.status r .waiting, stack := below }
    | [] => none
  | .finish =>
    match w.stack with
    | r :: below =>
      some { w with status := Function.update w.status r .done, stack := below }
    | [] => none
  | .expire id =>
    if w.stack = [] then (w.timers.find? fun t => t.id = id).map w.expire else none
  | .answer r =>
    if w.stack = [] ∧ w.status r = .waiting then
      some { w with status := Function.update w.status r .running, stack := [r] }
    else none
  | .cancel r => (w.tokens r).map (w.cancel r)
  | .release r =>
    if w.status r = .done then some { w with tokens := Function.update w.tokens r none }
    else none

/-- An event loop before its first request. -/
def eventLoop : System World Event where
  init := {}
  step := World.step

end Osodio.Runtime
