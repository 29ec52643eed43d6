import Mathlib.Logic.Function.Basic
import Osodio.Lib.Transition

/-!
# The event loop

`epoll_wait` fills a batch of events, each with a descriptor number and nothing
else, and the loop calls the callback that stands under that number when the turn
of the event comes.  Callbacks close and create descriptors, and the kernel gives a
new descriptor the lowest number that is free.

## Main definitions

- `Registration`, `Ready` — a callback, and an event with the one it belongs to
- `EpollLoop` — the state, with the history of the calls
- `Act`, `epollLoop` — the turns of the loop, and what callbacks do meanwhile
-/

namespace Osodio.Core

open Osodio.Lib

/-- A callback that was registered: the number of the registration, and when it
    expires if it is the one of a timer. -/
structure Registration where
  id : ℕ
  deadline : Option ℕ := none
  deriving DecidableEq, Repr

/-- An event of a batch.  Only its descriptor is in the source; `source` is the
    registration that it was generated for. -/
structure Ready where
  fd : ℕ
  source : ℕ
  deriving DecidableEq, Repr

/-- What the history records. -/
inductive Entry where
  /-- The callback of `r` was called at `time`, for an event of `source`. -/
  | invoked (r : Registration) (source time : ℕ)
  /-- `cancel_timer` returned for the timer `id`. -/
  | cancelled (id : ℕ)
  deriving DecidableEq, Repr

/-- The loop and what the kernel knows of it.  `handles` has the descriptors that
    `schedule_timer` gave out, and the newest entry of the history comes first. -/
structure EpollLoop where
  wakeupFd : ℕ
  descriptors : List ℕ
  interest : ℕ → Option Registration
  callbacks : ℕ → Option Registration
  events : List Ready
  now : ℕ
  nextId : ℕ
  handles : ℕ → Option ℕ
  history : List Entry

/-- `kMaxEvents`. -/
def kMaxEvents : ℕ := 64

namespace EpollLoop

/-- The kernel takes a descriptor that is open and not in the set yet. -/
def Accepts (w : EpollLoop) (fd : ℕ) : Prop := fd ∈ w.descriptors ∧ w.interest fd = none

instance (w : EpollLoop) (fd : ℕ) : Decidable (w.Accepts fd) :=
  inferInstanceAs (Decidable (_ ∧ _))

/-- `add`: if the kernel refuses, the callback is erased again. -/
def add (w : EpollLoop) (fd : ℕ) (deadline : Option ℕ) : EpollLoop :=
  let r : Registration := ⟨w.nextId, deadline⟩
  if w.Accepts fd then
    { w with
      callbacks := Function.update w.callbacks fd (some r)
      interest := Function.update w.interest fd (some r)
      nextId := w.nextId + 1 }
  else
    { w with
      callbacks := Function.update w.callbacks fd none
      nextId := w.nextId + 1 }

/-- `remove`. -/
def remove (w : EpollLoop) (fd : ℕ) : EpollLoop :=
  { w with
    interest := Function.update w.interest fd none
    callbacks := Function.update w.callbacks fd none }

/-- `close`, which takes a descriptor out of the set of the kernel. -/
def close (w : EpollLoop) (fd : ℕ) : EpollLoop :=
  { w with
    descriptors := w.descriptors.erase fd
    interest := Function.update w.interest fd none }

/-- `fd` is the lowest number that is free. -/
def LowestFree (w : EpollLoop) (fd : ℕ) : Prop :=
  fd ∉ w.descriptors ∧ ∀ n < fd, n ∈ w.descriptors

instance (w : EpollLoop) (fd : ℕ) : Decidable (w.LowestFree fd) :=
  inferInstanceAs (Decidable (_ ∧ _))

/-- A new descriptor. -/
def create (w : EpollLoop) (fd : ℕ) : EpollLoop :=
  { w with descriptors := fd :: w.descriptors }

/-- When a timer of `ms` milliseconds expires; one of 0 expires at once. -/
def expiry (w : EpollLoop) (ms : ℕ) : ℕ := w.now + ms

/-- `schedule_timer`, with the descriptor that `timerfd_create` gives. -/
def scheduleTimer (w : EpollLoop) (ms tfd : ℕ) : EpollLoop :=
  let w' := (w.create tfd).add tfd (some (w.expiry ms))
  { w' with handles := Function.update w'.handles w.nextId (some tfd) }

/-- `cancel_timer` on the descriptor of the timer `id`. -/
def cancelTimer (w : EpollLoop) (id tfd : ℕ) : EpollLoop :=
  let w' := (w.remove tfd).close tfd
  { w' with history := .cancelled id :: w'.history }

/-- The event is one of a registration in the set; that of a timer has expired. -/
def generates (w : EpollLoop) (e : Ready) : Bool :=
  (w.interest e.fd).any fun r => r.id == e.source && r.deadline.all (· ≤ w.now)

/-- `epoll_wait` may give `batch`. -/
def MayGive (w : EpollLoop) (batch : List Ready) : Prop :=
  batch.length ≤ kMaxEvents ∧ ∀ e ∈ batch, w.generates e = true

instance (w : EpollLoop) (batch : List Ready) : Decidable (w.MayGive batch) :=
  inferInstanceAs (Decidable (_ ∧ _))

/-- The callback under `fd` is called.  That of a timer first gives up its
    descriptor. -/
def invoke (w : EpollLoop) (fd source : ℕ) (r : Registration) : EpollLoop :=
  let w' := if r.deadline.isSome then (w.remove fd).close fd else w
  { w' with history := .invoked r source w.now :: w'.history }

/-- One turn of the loop over a batch. -/
def dispatch (w : EpollLoop) : Option EpollLoop :=
  match w.events with
  | [] => none
  | e :: rest =>
    let w' := { w with events := rest }
    if e.fd = w.wakeupFd then some w'
    else
      match w.callbacks e.fd with
      | none => some w'
      | some r => some (w'.invoke e.fd e.source r)

end EpollLoop

/-- What happens: the turns of the loop, and what callbacks and tasks do in them. -/
inductive Act where
  | wait (batch : List Ready)
  | dispatch
  | add (fd : ℕ)
  | remove (fd : ℕ)
  | scheduleTimer (ms tfd : ℕ)
  | cancelTimer (id : ℕ)
  /-- A socket is opened or accepted. -/
  | socket (fd : ℕ)
  | close (fd : ℕ)
  /-- Time passes. -/
  | elapse (ms : ℕ)
  deriving DecidableEq, Repr

/-- A step of the loop, if it can be taken. -/
def EpollLoop.step (w : EpollLoop) : Act → Option EpollLoop
  | .wait batch => if w.events = [] ∧ w.MayGive batch then some { w with events := batch } else none
  | .dispatch => w.dispatch
  | .add fd => some (w.add fd none)
  | .remove fd => some (w.remove fd)
  | .scheduleTimer ms tfd => if w.LowestFree tfd then some (w.scheduleTimer ms tfd) else none
  | .cancelTimer id => (w.handles id).map fun tfd => w.cancelTimer id tfd
  | .socket fd => if w.LowestFree fd then some (w.create fd) else none
  | .close fd => some (w.close fd)
  | .elapse ms => some { w with now := w.now + ms }

/-- The loop before its first turn, with the descriptors that are open already. -/
def EpollLoop.start (wakeupFd : ℕ) (descriptors : List ℕ) : EpollLoop where
  wakeupFd := wakeupFd
  descriptors := descriptors
  interest := Function.update (fun _ => none) wakeupFd (some ⟨0, none⟩)
  callbacks := fun _ => none
  events := []
  now := 0
  nextId := 1
  handles := fun _ => none
  history := []

def epollLoop (wakeupFd : ℕ) (descriptors : List ℕ) : System EpollLoop Act where
  init := .start wakeupFd descriptors
  step := EpollLoop.step

end Osodio.Core
