import Osodio.Lib.Channels
import Osodio.Lib.Transition

/-!
# The threads of a pool

The workers of a pool share a mutex and a condition variable with those that submit
jobs and with the one that stops it.  A job carries the resumption of the coroutine
that awaits it: it is posted to the event loop of the coroutine when the work is
done, unless the work throws.

## Main definitions

- `Task` — a job of the pool, which is what a coroutine awaits
- `Threads` — the queues, the workers, the notifications under way and the loops
- `Threads.step` — one critical section of one of the threads
- `Served` — what the pool promises to those that await
- `Undisturbed` — no work throws, and nothing is awaited while the pool stops

## Main results

- `executes` — whatever happens, jobs are executed once and in order, and none is left
- `stopReturn_enabled` — a pool that is being stopped comes to its end
- `served_of_undisturbed` — in runs without disturbance everybody is resumed
-/

namespace Osodio.Db

open Osodio.Lib

/-! ## The state -/

/-- A job, its number, the loop that its coroutine runs on, and the worker it is
    fixed to. -/
structure Task where
  number : ℕ
  loop : ℕ
  pin : Option ℕ
  deriving DecidableEq, Repr

inductive Worker where
  /-- About to look at the queues. -/
  | ready
  /-- Waiting on the condition variable. -/
  | blocked
  | running (task : Task)
  | exited
  deriving DecidableEq, Repr

/-- The task a worker is running. -/
def Worker.task : Worker → List Task
  | .running t => [t]
  | _ => []

def Worker.wake : Worker → Worker
  | .blocked => .ready
  | s => s

inductive StopPhase where
  | no
  /-- `stopping_` is set, and nobody has been notified yet. -/
  | flagged
  | joining
  | returned
  deriving DecidableEq, Repr

/-- The pool, the event loops, and the history of both. -/
structure Threads where
  jobs : List Task := []
  pinned : ℕ → List Task := fun _ => []
  workers : ℕ → Worker := fun _ => .ready
  phase : StopPhase := .no
  /-- The calls of `notify_one` and `notify_all` that are still to come. -/
  signals : ℕ := 0
  broadcasts : ℕ := 0
  /-- `task_queue_` of each loop, and what it has swapped out of it. -/
  posted : ℕ → List Task := fun _ => []
  current : ℕ → List Task := fun _ => []
  awaited : List Task := []
  accepted : List Task := []
  /-- The workers and what they took. -/
  taken : List (ℕ × Task) := []
  /-- The workers and what they have executed, also if it threw. -/
  executed : List (ℕ × Task) := []
  /-- The loops and what was posted to them. -/
  posts : List (ℕ × Task) := []
  resumed : List (ℕ × Task) := []

abbrev Threads.stopping (w : Threads) : Prop := w.phase ≠ .no

/-- The queue for a pin. -/
def Threads.queue (w : Threads) : Option ℕ → List Task
  | none => w.jobs
  | some i => w.pinned i

/-! ## The steps -/

inductive ThreadEvent where
  /-- A coroutine of `loop` awaits a job. -/
  | await (loop : ℕ) (pin : Option ℕ)
  /-- `notify_one` wakes `worker`, or nobody when none is waiting. -/
  | notifyOne (worker : Option ℕ)
  | notifyAll
  /-- A spurious wake-up. -/
  | wake (worker : ℕ)
  /-- A worker looks at the queues. -/
  | look (worker : ℕ)
  | finish (worker : ℕ) (throws : Bool)
  | stop
  | stopNotify
  | stopReturn
  /-- `process_tasks` swaps the queue of its loop, and runs what was in it. -/
  | swap (loop : ℕ)
  | resume (loop : ℕ)
  deriving DecidableEq, Repr

section Steps

variable (size : ℕ) (w : Threads)

/-- `submit` and `submit_to`. -/
def Threads.submit (t : Task) : Threads :=
  match t.pin with
  | none =>
    if w.stopping then w
    else { w with jobs := w.jobs ++ [t], signals := w.signals + 1, accepted := w.accepted ++ [t] }
  | some i =>
    if w.stopping ∨ i ≥ size then w
    else { w with
      pinned := Function.update w.pinned i (w.pinned i ++ [t])
      broadcasts := w.broadcasts + 1
      accepted := w.accepted ++ [t] }

/-- `await_suspend`. -/
def Threads.await (loop : ℕ) (pin : Option ℕ) : Threads :=
  let t : Task := ⟨w.awaited.length, loop, pin⟩
  { w.submit size t with awaited := w.awaited ++ [t] }

def Threads.setWorker (i : ℕ) (s : Worker) : Threads :=
  { w with workers := Function.update w.workers i s }

def Threads.wakeAll : Threads := { w with workers := fun i => (w.workers i).wake }

/-- What a worker does once it has the mutex. -/
def Threads.look (i : ℕ) : Threads :=
  match w.pinned i with
  | t :: rest =>
    { w.setWorker i (.running t) with
      pinned := Function.update w.pinned i rest
      taken := w.taken ++ [(i, t)] }
  | [] =>
    match w.jobs with
    | t :: rest => { w.setWorker i (.running t) with jobs := rest, taken := w.taken ++ [(i, t)] }
    | [] => if w.stopping then w.setWorker i .exited else w.setWorker i .blocked

/-- The end of a job: the coroutine is posted to its loop unless the work has thrown. -/
def Threads.finish (i : ℕ) (t : Task) (throws : Bool) : Threads :=
  let w := { w.setWorker i .ready with executed := w.executed ++ [(i, t)] }
  if throws then w
  else { w with
    posted := Function.update w.posted t.loop (w.posted t.loop ++ [t])
    posts := w.posts ++ [(t.loop, t)] }

/-- One critical section, or one task of a loop. -/
def Threads.step : ThreadEvent → Option Threads
  | .await loop pin => some (w.await size loop pin)
  | .notifyOne k =>
    if w.signals = 0 then none
    else
      let w := { w with signals := w.signals - 1 }
      match k with
      | some i => if i < size ∧ w.workers i = .blocked then some (w.setWorker i .ready) else none
      | none => if ∀ i < size, w.workers i ≠ .blocked then some w else none
  | .notifyAll =>
    if w.broadcasts = 0 then none
    else some { w.wakeAll with broadcasts := w.broadcasts - 1 }
  | .wake i => if i < size ∧ w.workers i = .blocked then some (w.setWorker i .ready) else none
  | .look i => if i < size ∧ w.workers i = .ready then some (w.look i) else none
  | .finish i throws =>
    match w.workers i with
    | .running t => if i < size then some (w.finish i t throws) else none
    | _ => none
  | .stop => if w.phase = .no then some { w with phase := .flagged } else none
  | .stopNotify => if w.phase = .flagged then some { w.wakeAll with phase := .joining } else none
  | .stopReturn =>
    if w.phase = .joining ∧ ∀ i < size, w.workers i = .exited then
      some { w with phase := .returned }
    else none
  | .swap l =>
    match w.current l with
    | [] =>
      some { w with
        current := Function.update w.current l (w.posted l)
        posted := Function.update w.posted l [] }
    | _ => none
  | .resume l =>
    match w.current l with
    | t :: rest =>
      some { w with
        current := Function.update w.current l rest
        resumed := w.resumed ++ [(l, t)] }
    | [] => none

end Steps

/-- A pool of `size` workers and the loops that await it. -/
def threads (size : ℕ) : System Threads ThreadEvent where
  init := {}
  step := Threads.step size

/-! ## What the pool promises -/

/-- Nobody has work to do: no job is queued or being run, and no loop has a task. -/
structure Idle (size : ℕ) (w : Threads) : Prop where
  jobs : w.jobs = []
  pinned : ∀ i < size, w.pinned i = []
  workers : ∀ i < size, (w.workers i).task = []
  loops : ∀ l, w.current l = [] ∧ w.posted l = []

/-- No thread of the pool can go on by itself. -/
structure Quiet (size : ℕ) (w : Threads) : Prop where
  workers : ∀ i < size, w.workers i = .blocked ∨ w.workers i = .exited
  notified : w.signals = 0 ∧ w.broadcasts = 0 ∧ w.phase ≠ .flagged

/-- Accepted jobs are executed at most once, a pinned one by its worker, in the order
    of their queue, and all of them before `stop` returns or the pool comes to rest. -/
structure Executes (size : ℕ) (w : Threads) : Prop where
  once : (w.executed.map Prod.snd).Nodup
  accepted : ∀ p ∈ w.executed, p.2 ∈ w.accepted
  own : ∀ p ∈ w.executed, p.2.pin = none ∨ p.2.pin = some p.1
  fifo : ∀ pin, (w.taken.map Prod.snd).filter (·.pin = pin) <+: w.accepted.filter (·.pin = pin)
  stopped : w.phase = .returned → (w.executed.map Prod.snd).Perm w.accepted
  rested : Quiet size w → (w.executed.map Prod.snd).Perm w.accepted

/-- The coroutines that await are resumed at most once and on their loop, and when
    everything is idle all of them were. -/
structure Resumes (size : ℕ) (w : Threads) : Prop where
  once : (w.resumed.map Prod.snd).Nodup
  own : ∀ p ∈ w.resumed, p.1 = p.2.loop
  awaited : ∀ p ∈ w.resumed, p.2 ∈ w.awaited
  idle : Idle size w → (w.resumed.map Prod.snd).Perm w.awaited

structure Served (size : ℕ) (w : Threads) : Prop where
  executes : Executes size w
  resumes : Resumes size w

/-- No work throws, a pinned job is sent to a worker of the pool, and nothing is
    awaited once the pool is stopping. -/
def Undisturbed (size : ℕ) (w : Threads) : ThreadEvent → Prop
  | .await _ pin => w.phase = .no ∧ ∀ i ∈ pin, i < size
  | .finish _ throws => throws = false
  | _ => True

/-! ## The ledger -/

/-- The histories agree with the queues, the workers and the loops. -/
structure Ledger (size : ℕ) (w : Threads) : Prop where
  queues : Delivers Task.pin w.accepted (w.taken.map Prod.snd) w.queue
  workers : Delivers Prod.fst w.taken w.executed fun i => (w.workers i).task.map (i, ·)
  loops : Delivers Prod.fst w.posts w.resumed fun l => (w.current l ++ w.posted l).map (l, ·)
  numbers : w.awaited.map Task.number = List.range w.awaited.length
  accepted : w.accepted.Sublist w.awaited
  pins : ∀ t ∈ w.accepted, ∀ i ∈ t.pin, i < size
  own : ∀ p ∈ w.taken, p.2.pin = none ∨ p.2.pin = some p.1
  posts : (w.posts.map Prod.snd).Sublist (w.executed.map Prod.snd)
  home : ∀ p ∈ w.posts, p.1 = p.2.loop
  outside : ∀ i, size ≤ i → w.workers i = .ready

theorem init_ledger (size : ℕ) : Ledger size (threads size).init where
  queues p := by cases p <;> rfl
  workers := Delivers.nil _
  loops := Delivers.nil _
  numbers := rfl
  accepted := List.Sublist.refl _
  pins := nofun
  own := nofun
  posts := List.Sublist.refl _
  home := nofun
  outside _ _ := rfl

section Ledger

variable {size : ℕ} {w : Threads}

theorem Ledger.nodup (h : Ledger size w) : w.awaited.Nodup :=
  List.Nodup.of_map Task.number (h.numbers ▸ List.nodup_range)

/-- Everything that was accepted has been executed once nothing is left to do. -/
theorem Ledger.executed_perm (h : Ledger size w) (hjobs : w.jobs = [])
    (hpinned : ∀ i < size, w.pinned i = []) (htasks : ∀ i < size, (w.workers i).task = []) :
    (w.executed.map Prod.snd).Perm w.accepted := by
  have hqueues : ∀ p, w.queue p = [] := by
    rintro (- | i)
    · exact hjobs
    · by_cases hi : i < size
      · exact hpinned i hi
      · refine List.eq_nil_iff_forall_not_mem.2 fun t ht => hi ?_
        have hpin := h.queues.key_eq (k := some i) ht
        exact h.pins t (h.queues.mem_iff.2 (.inr (hpin ▸ ht))) i hpin
  have hworkers : ∀ i, (w.workers i).task.map (i, ·) = [] := by
    intro i
    by_cases hi : i < size
    · rw [htasks i hi, List.map_nil]
    · rw [h.outside i (Nat.le_of_not_lt hi)]
      rfl
  exact ((h.workers.perm_of_empty hworkers).map Prod.snd).trans (h.queues.perm_of_empty hqueues)

theorem Ledger.executed_nodup (h : Ledger size w) : (w.executed.map Prod.snd).Nodup :=
  h.workers.nodup_map (h.queues.nodup (h.nodup.sublist h.accepted))

/-- A worker that goes from one state without a task to another changes no history. -/
theorem Ledger.setWorker (h : Ledger size w) {i : ℕ} {s : Worker} (hi : i < size)
    (hold : (w.workers i).task = []) (hnew : s.task = []) : Ledger size (w.setWorker i s) := by
  refine ⟨h.queues, h.workers.congr fun k => ?_, h.loops, h.numbers, h.accepted, h.pins, h.own,
    h.posts, h.home, fun k hk => ?_⟩
  · by_cases hk : k = i
    · subst hk
      simp [Threads.setWorker, hold, hnew]
    · simp [Threads.setWorker, Function.update_of_ne hk]
  · have hne : k ≠ i := fun heq => absurd hi (heq ▸ Nat.not_lt.2 hk)
    simpa [Threads.setWorker, Function.update_of_ne hne] using h.outside k hk

theorem task_wake (s : Worker) : s.wake.task = s.task := by cases s <;> rfl

theorem Ledger.wakeAll (h : Ledger size w) : Ledger size w.wakeAll := by
  refine ⟨h.queues, h.workers.congr fun k => ?_, h.loops, h.numbers, h.accepted, h.pins, h.own,
    h.posts, h.home, fun k hk => ?_⟩
  · simp [Threads.wakeAll, task_wake]
  · simp [Threads.wakeAll, h.outside k hk, Worker.wake]

/-- A job that is accepted goes to the end of its queue. -/
theorem await_ledger (h : Ledger size w) (loop : ℕ) (pin : Option ℕ) :
    Ledger size (w.await size loop pin) := by
  have hnumbers : ∀ t : Task, t.number = w.awaited.length →
      (w.awaited ++ [t]).map Task.number = List.range (w.awaited ++ [t]).length := by
    rintro t ht
    simp [h.numbers, List.range_succ, ht]
  have hrefused : ∀ t, w.accepted.Sublist (w.awaited ++ [t]) :=
    fun t => h.accepted.trans (List.sublist_append_left _ [t])
  have hadded : ∀ t, (w.accepted ++ [t]).Sublist (w.awaited ++ [t]) :=
    fun t => h.accepted.append (List.Sublist.refl [t])
  cases pin with
  | none =>
    simp only [Threads.await, Threads.submit]
    split
    · exact ⟨h.queues, h.workers, h.loops, hnumbers _ rfl, hrefused _, h.pins, h.own, h.posts, h.home,
        h.outside⟩
    · refine ⟨h.queues.send rfl ?_, h.workers, h.loops, hnumbers _ rfl, hadded _, ?_, h.own, h.posts,
        h.home, h.outside⟩
      · rintro (- | k) hk
        · exact absurd rfl hk
        · rfl
      · rintro t ht i hi
        rcases List.mem_append.1 ht with ht | ht
        · exact h.pins t ht i hi
        · obtain rfl := List.mem_singleton.1 ht
          cases hi
  | some i =>
    simp only [Threads.await, Threads.submit]
    split
    · exact ⟨h.queues, h.workers, h.loops, hnumbers _ rfl, hrefused _, h.pins, h.own, h.posts, h.home,
        h.outside⟩
    · next hgo =>
      refine ⟨h.queues.send ?_ ?_, h.workers, h.loops, hnumbers _ rfl, hadded _, ?_, h.own, h.posts,
        h.home, h.outside⟩
      · simp [Threads.queue]
      · rintro (- | k) hk
        · rfl
        · have hne : k ≠ i := fun heq => hk (congrArg some heq)
          simp [Threads.queue, Function.update_of_ne hne]
      · rintro t ht k hk
        rcases List.mem_append.1 ht with ht | ht
        · exact h.pins t ht k hk
        · obtain rfl := List.mem_singleton.1 ht
          obtain rfl : i = k := Option.some.inj hk
          exact Nat.lt_of_not_le fun hle => hgo (.inr hle)

/-- A worker that looks at the queues takes the first job of one that it serves, or
    has none. -/
theorem look_ledger (h : Ledger size w) {i : ℕ} (hi : i < size) (hready : w.workers i = .ready) :
    Ledger size (w.look i) := by
  have houtside : ∀ s k, size ≤ k → Function.update w.workers i s k = .ready := by
    intro s k hk
    have hne : k ≠ i := fun heq => absurd hi (heq ▸ Nat.not_lt.2 hk)
    rw [Function.update_of_ne hne]
    exact h.outside k hk
  have htake : ∀ t, Delivers Prod.fst (w.taken ++ [(i, t)]) w.executed
      fun k => (Function.update w.workers i (.running t) k).task.map (k, ·) := by
    intro t
    refine h.workers.send ?_ fun k hk => ?_
    · simp [hready, Worker.task]
    · simp [Function.update_of_ne hk]
  have hown : ∀ t, t.pin = none ∨ t.pin = some i → ∀ p ∈ w.taken ++ [(i, t)],
      p.2.pin = none ∨ p.2.pin = some p.1 := by
    rintro t ht p hp
    rcases List.mem_append.1 hp with hp | hp
    · exact h.own p hp
    · obtain rfl := List.mem_singleton.1 hp
      exact ht
  unfold Threads.look
  split
  · next t rest hp =>
    have hpin : t.pin = some i :=
      h.queues.key_eq (k := some i) (by simp [Threads.queue, hp])
    refine ⟨?_, htake t, h.loops, h.numbers, h.accepted, h.pins, hown t (.inr hpin), h.posts,
      h.home, houtside _⟩
    rw [List.map_append]
    refine h.queues.receive (k := some i) hp ?_ ?_
    · simp [Threads.queue]
    · rintro (- | k) hk
      · rfl
      · have hne : k ≠ i := fun heq => hk (congrArg some heq)
        simp [Threads.queue, Function.update_of_ne hne]
  · split
    · next t rest hj =>
      have hpin : t.pin = none := h.queues.key_eq (k := none) (by simp [Threads.queue, hj])
      refine ⟨?_, htake t, h.loops, h.numbers, h.accepted, h.pins, hown t (.inl hpin), h.posts,
        h.home, houtside _⟩
      rw [List.map_append]
      refine h.queues.receive (k := none) hj rfl ?_
      rintro (- | k) hk
      · exact absurd rfl hk
      · rfl
    · split
      · exact h.setWorker hi (by rw [hready]; rfl) rfl
      · exact h.setWorker hi (by rw [hready]; rfl) rfl

/-- The end of a job: it was executed, and is posted to the loop of its coroutine if
    it has not thrown. -/
theorem finish_ledger (h : Ledger size w) {i : ℕ} {t : Task} (hi : i < size)
    (hrunning : w.workers i = .running t) (throws : Bool) : Ledger size (w.finish i t throws) := by
  have houtside : ∀ k, size ≤ k → Function.update w.workers i .ready k = .ready := by
    intro k hk
    have hne : k ≠ i := fun heq => absurd hi (heq ▸ Nat.not_lt.2 hk)
    rw [Function.update_of_ne hne]
    exact h.outside k hk
  have hworkers : Delivers Prod.fst w.taken (w.executed ++ [(i, t)])
      fun k => (Function.update w.workers i .ready k).task.map (k, ·) := by
    have hfirst : (w.workers i).task.map (i, ·) = (i, t) :: [] := by
      simp [hrunning, Worker.task]
    refine h.workers.receive (k := i) hfirst ?_ fun k hk => ?_
    · simp [Worker.task]
    · simp [Function.update_of_ne hk]
  have hposts : (w.posts.map Prod.snd).Sublist ((w.executed ++ [(i, t)]).map Prod.snd) := by
    rw [List.map_append]
    exact h.posts.trans (List.sublist_append_left _ _)
  cases throws with
  | true =>
    exact ⟨h.queues, hworkers, h.loops, h.numbers, h.accepted, h.pins, h.own, hposts, h.home,
      houtside⟩
  | false =>
    refine ⟨h.queues, hworkers, h.loops.send ?_ ?_, h.numbers, h.accepted, h.pins, h.own, ?_, ?_,
      houtside⟩
    · simp [Threads.finish, Threads.setWorker]
    · rintro l hl
      simp [Threads.finish, Threads.setWorker, Function.update_of_ne hl]
    · show ((w.posts ++ [(t.loop, t)]).map Prod.snd).Sublist ((w.executed ++ [(i, t)]).map Prod.snd)
      rw [List.map_append, List.map_append]
      exact h.posts.append (List.Sublist.refl [t])
    · rintro p hp
      rcases List.mem_append.1 hp with hp | hp
      · exact h.home p hp
      · obtain rfl := List.mem_singleton.1 hp
        rfl

/-- Every step keeps the histories in agreement. -/
theorem step_ledger (h : Ledger size w) {e : ThreadEvent} {w' : Threads}
    (hstep : w.step size e = some w') : Ledger size w' := by
  cases e with
  | await loop pin =>
    cases hstep
    exact await_ledger h loop pin
  | notifyOne k =>
    simp only [Threads.step, Option.ite_none_left_eq_some] at hstep
    obtain ⟨-, hstep⟩ := hstep
    cases k with
    | none =>
      simp only [Option.ite_none_right_eq_some, Option.some.injEq] at hstep
      obtain ⟨-, rfl⟩ := hstep
      exact ⟨h.queues, h.workers, h.loops, h.numbers, h.accepted, h.pins, h.own, h.posts, h.home,
        h.outside⟩
    | some i =>
      simp only [Option.ite_none_right_eq_some, Option.some.injEq] at hstep
      obtain ⟨⟨hi, hb⟩, rfl⟩ := hstep
      have h' := h.setWorker (s := .ready) hi (by rw [hb]; rfl) rfl
      exact ⟨h'.queues, h'.workers, h'.loops, h'.numbers, h'.accepted, h'.pins, h'.own, h'.posts,
        h'.home, h'.outside⟩
  | notifyAll =>
    simp only [Threads.step, Option.ite_none_left_eq_some, Option.some.injEq] at hstep
    obtain ⟨-, rfl⟩ := hstep
    exact ⟨h.wakeAll.queues, h.wakeAll.workers, h.loops, h.numbers, h.accepted, h.pins, h.own,
      h.posts, h.home, h.wakeAll.outside⟩
  | wake i =>
    simp only [Threads.step, Option.ite_none_right_eq_some, Option.some.injEq] at hstep
    obtain ⟨⟨hi, hb⟩, rfl⟩ := hstep
    exact h.setWorker hi (by rw [hb]; rfl) rfl
  | look i =>
    simp only [Threads.step, Option.ite_none_right_eq_some, Option.some.injEq] at hstep
    obtain ⟨⟨hi, hready⟩, rfl⟩ := hstep
    exact look_ledger h hi hready
  | finish i throws =>
    simp only [Threads.step] at hstep
    split at hstep
    · next t hrunning =>
      simp only [Option.ite_none_right_eq_some, Option.some.injEq] at hstep
      obtain ⟨hi, rfl⟩ := hstep
      exact finish_ledger h hi hrunning throws
    · cases hstep
  | stop =>
    simp only [Threads.step, Option.ite_none_right_eq_some, Option.some.injEq] at hstep
    obtain ⟨-, rfl⟩ := hstep
    exact ⟨h.queues, h.workers, h.loops, h.numbers, h.accepted, h.pins, h.own, h.posts, h.home,
      h.outside⟩
  | stopNotify =>
    simp only [Threads.step, Option.ite_none_right_eq_some, Option.some.injEq] at hstep
    obtain ⟨-, rfl⟩ := hstep
    exact ⟨h.wakeAll.queues, h.wakeAll.workers, h.loops, h.numbers, h.accepted, h.pins, h.own,
      h.posts, h.home, h.wakeAll.outside⟩
  | stopReturn =>
    simp only [Threads.step, Option.ite_none_right_eq_some, Option.some.injEq] at hstep
    obtain ⟨-, rfl⟩ := hstep
    exact ⟨h.queues, h.workers, h.loops, h.numbers, h.accepted, h.pins, h.own, h.posts, h.home,
      h.outside⟩
  | swap l =>
    simp only [Threads.step] at hstep
    split at hstep
    · next hempty =>
      cases hstep
      refine ⟨h.queues, h.workers, h.loops.congr fun k => ?_, h.numbers, h.accepted, h.pins, h.own,
        h.posts, h.home, h.outside⟩
      by_cases hk : k = l
      · subst hk
        simp [hempty]
      · simp [Function.update_of_ne hk]
    · cases hstep
  | resume l =>
    simp only [Threads.step] at hstep
    split at hstep
    · next t rest hfirst =>
      cases hstep
      refine ⟨h.queues, h.workers, h.loops.receive (k := l) ?_ rfl fun k hk => ?_, h.numbers,
        h.accepted, h.pins, h.own, h.posts, h.home, h.outside⟩
      · simp [hfirst]
      · simp [Function.update_of_ne hk]
    · cases hstep

end Ledger

/-! ## No wake-up is lost -/

/-- About to look at the queues, or going to when its job is done. -/
def Worker.awake (s : Worker) : Prop := s ≠ .blocked ∧ s ≠ .exited

theorem awake_wake {s : Worker} (h : s ≠ .exited) : s.wake.awake := by
  cases s <;> simp_all [Worker.wake, Worker.awake]

theorem wake_ne_blocked (s : Worker) : s.wake ≠ .blocked := by cases s <;> simp [Worker.wake]

/-- While a queue is not empty, a worker that serves it is awake or about to be
    woken.  Only a pool that stops lets its workers go, when nothing is left. -/
structure Alert (size : ℕ) (w : Threads) : Prop where
  jobs : w.jobs ≠ [] → 0 < w.signals ∨ 0 < w.broadcasts ∨ ∃ i < size, (w.workers i).awake
  pinned : ∀ i < size, w.pinned i ≠ [] → 0 < w.broadcasts ∨ (w.workers i).awake
  exited : ∀ i < size, w.workers i = .exited → w.stopping ∧ w.jobs = [] ∧ w.pinned i = []
  joining : w.phase = .joining ∨ w.phase = .returned → ∀ i < size, w.workers i ≠ .blocked
  returned : w.phase = .returned → ∀ i < size, w.workers i = .exited

theorem init_alert (size : ℕ) : Alert size (threads size).init where
  jobs h := absurd rfl h
  pinned _ _ h := absurd rfl h
  exited := nofun
  joining := nofun
  returned := nofun

section Alert

variable {size : ℕ} {w : Threads}

/-- A worker that is woken. -/
theorem wake_alert (h : Alert size w) {i : ℕ} (hi : i < size) (hb : w.workers i = .blocked)
    {signals : ℕ} : Alert size { w.setWorker i .ready with signals := signals } := by
  have hready : (Function.update w.workers i .ready i).awake := by simp [Worker.awake]
  refine ⟨fun _ => .inr (.inr ⟨i, hi, hready⟩), fun k hk hne => ?_, fun k hk hex => ?_,
    fun hp k hk => ?_, fun hp => ?_⟩
  · by_cases heq : k = i
    · subst heq
      exact .inr hready
    · refine (h.pinned k hk hne).imp_right fun ha => ?_
      simpa [Threads.setWorker, Function.update_of_ne heq] using ha
  · by_cases heq : k = i
    · subst heq
      simp [Threads.setWorker] at hex
    · exact h.exited k hk (by simpa [Threads.setWorker, Function.update_of_ne heq] using hex)
  · exact absurd hb (h.joining hp i hi)
  · exact absurd (hb.symm.trans (h.returned hp i hi)) nofun

/-- All workers are woken: those that have exited have nothing to do. -/
theorem wakeAll_alert (hsize : 0 < size) (h : Alert size w) {broadcasts : ℕ} {phase : StopPhase}
    (hphase : phase = w.phase ∨ phase = .joining ∧ w.phase = .flagged) :
    Alert size { w.wakeAll with broadcasts := broadcasts, phase := phase } := by
  have hexited : ∀ {k}, (w.workers k).wake = .exited → w.workers k = .exited := by
    intro k hk
    cases hs : w.workers k <;> simp_all [Worker.wake]
  refine ⟨fun hne => ?_, fun k hk hne => ?_, fun k hk hex => ?_, fun _ k _ => wake_ne_blocked _,
    fun hp k hk => ?_⟩
  · refine .inr (.inr ⟨0, hsize, awake_wake fun hex => hne ?_⟩)
    exact (h.exited 0 hsize hex).2.1
  · exact .inr (awake_wake fun hex => hne (h.exited k hk hex).2.2)
  · obtain ⟨hs, hrest⟩ := h.exited k hk (hexited hex)
    refine ⟨?_, hrest⟩
    rcases hphase with rfl | ⟨rfl, -⟩
    · exact hs
    · exact nofun
  · rcases hphase with rfl | ⟨rfl, -⟩
    · show (w.workers k).wake = .exited
      rw [h.returned hp k hk]
      rfl
    · cases hp

/-- A job that is accepted is announced, and no worker has exited yet. -/
theorem await_alert (h : Alert size w) (loop : ℕ) (pin : Option ℕ) :
    Alert size (w.await size loop pin) := by
  cases pin with
  | none =>
    simp only [Threads.await, Threads.submit]
    split
    · exact ⟨h.jobs, h.pinned, h.exited, h.joining, h.returned⟩
    · next hgo =>
      exact ⟨fun _ => .inl (Nat.succ_pos _), h.pinned,
        fun k hk hex => absurd (h.exited k hk hex).1 hgo, h.joining, h.returned⟩
  | some i =>
    simp only [Threads.await, Threads.submit]
    split
    · exact ⟨h.jobs, h.pinned, h.exited, h.joining, h.returned⟩
    · next hgo =>
      exact ⟨fun _ => .inr (.inl (Nat.succ_pos _)), fun _ _ _ => .inl (Nat.succ_pos _),
        fun k hk hex => absurd (.inl (h.exited k hk hex).1) hgo, h.joining, h.returned⟩

/-- A worker that has taken a job is awake; one that has found none goes to sleep or
    exits. -/
theorem look_alert (h : Alert size w) {i : ℕ} (hi : i < size) (hready : w.workers i = .ready) :
    Alert size (w.look i) := by
  have hne : w.phase ≠ .returned := fun hp =>
    absurd (hready.symm.trans (h.returned hp i hi)) nofun
  have hrun : ∀ t : Task, (Function.update w.workers i (.running t) i).awake := by
    simp [Worker.awake]
  have hother : ∀ {k} (s : Worker), k ≠ i → Function.update w.workers i s k = w.workers k :=
    fun s hk => Function.update_of_ne hk _ _
  unfold Threads.look
  split
  · next t rest hp =>
    refine ⟨fun _ => .inr (.inr ⟨i, hi, hrun t⟩), fun k hk hk' => ?_, fun k hk hex => ?_,
      fun hph k hk => ?_, fun hph => absurd hph hne⟩
    · by_cases heq : k = i
      · subst heq
        exact .inr (hrun t)
      · simp only [Threads.setWorker, Function.update_of_ne heq] at hk' ⊢
        exact h.pinned k hk hk'
    · by_cases heq : k = i
      · subst heq
        simp [Threads.setWorker] at hex
      · simp only [Threads.setWorker, Function.update_of_ne heq] at hex ⊢
        exact h.exited k hk hex
    · by_cases heq : k = i
      · subst heq
        simp [Threads.setWorker]
      · simp only [Threads.setWorker, Function.update_of_ne heq]
        exact h.joining hph k hk
  · next hp =>
    split
    · next t rest hj =>
      refine ⟨fun _ => .inr (.inr ⟨i, hi, hrun t⟩), fun k hk hk' => ?_, fun k hk hex => ?_,
        fun hph k hk => ?_, fun hph => absurd hph hne⟩
      · by_cases heq : k = i
        · subst heq
          exact .inr (hrun t)
        · simp only [Threads.setWorker, Function.update_of_ne heq]
          exact h.pinned k hk hk'
      · by_cases heq : k = i
        · subst heq
          simp [Threads.setWorker] at hex
        · simp only [Threads.setWorker, Function.update_of_ne heq] at hex
          exact absurd ((h.exited k hk hex).2.1.symm.trans hj) nofun
      · by_cases heq : k = i
        · subst heq
          simp [Threads.setWorker]
        · simp only [Threads.setWorker, Function.update_of_ne heq]
          exact h.joining hph k hk
    · next hj =>
      have hpinned : ∀ s, ∀ k < size, w.pinned k ≠ [] →
          0 < w.broadcasts ∨ (Function.update w.workers i s k).awake := by
        rintro s k hk hk'
        by_cases heq : k = i
        · exact absurd (heq ▸ hp) hk'
        · rw [hother s heq]
          exact h.pinned k hk hk'
      split
      · next hstop =>
        refine ⟨fun hj' => absurd hj hj', hpinned _, fun k hk hex => ?_, fun hph k hk => ?_,
          fun hph => absurd hph hne⟩
        · by_cases heq : k = i
          · subst heq
            exact ⟨hstop, hj, hp⟩
          · exact h.exited k hk ((hother _ heq).symm.trans hex)
        · by_cases heq : k = i
          · subst heq
            simp [Threads.setWorker]
          · simp only [Threads.setWorker, Function.update_of_ne heq]
            exact h.joining hph k hk
      · next hgo =>
        have hno : w.phase = .no := not_not.1 hgo
        refine ⟨fun hj' => absurd hj hj', hpinned _, fun k hk hex => ?_, fun hph => ?_,
          fun hph => absurd hph hne⟩
        · by_cases heq : k = i
          · subst heq
            simp [Threads.setWorker] at hex
          · exact h.exited k hk ((hother _ heq).symm.trans hex)
        · rcases hph with hph | hph
          · exact absurd (hno.symm.trans hph) nofun
          · exact absurd (hno.symm.trans hph) nofun

/-- A worker that has finished a job looks at the queues again. -/
theorem finish_alert (h : Alert size w) {i : ℕ} {t : Task} (hi : i < size)
    (hrunning : w.workers i = .running t) (throws : Bool) : Alert size (w.finish i t throws) := by
  have hne : w.phase ≠ .returned := fun hp =>
    absurd (hrunning.symm.trans (h.returned hp i hi)) nofun
  have hready : (Function.update w.workers i .ready i).awake := by simp [Worker.awake]
  have halert : Alert size (w.setWorker i .ready) := by
    refine ⟨fun _ => .inr (.inr ⟨i, hi, hready⟩), fun k hk hk' => ?_, fun k hk hex => ?_,
      fun hph k hk => ?_, fun hph => absurd hph hne⟩
    · by_cases heq : k = i
      · subst heq
        exact .inr hready
      · simp only [Threads.setWorker, Function.update_of_ne heq]
        exact h.pinned k hk hk'
    · by_cases heq : k = i
      · subst heq
        simp [Threads.setWorker] at hex
      · simp only [Threads.setWorker, Function.update_of_ne heq] at hex
        exact h.exited k hk hex
    · by_cases heq : k = i
      · subst heq
        simp [Threads.setWorker]
      · simp only [Threads.setWorker, Function.update_of_ne heq]
        exact h.joining hph k hk
  cases throws with
  | true => exact ⟨halert.jobs, halert.pinned, halert.exited, halert.joining, halert.returned⟩
  | false => exact ⟨halert.jobs, halert.pinned, halert.exited, halert.joining, halert.returned⟩

/-- Every step keeps the workers alert. -/
theorem step_alert (hsize : 0 < size) (h : Alert size w) {e : ThreadEvent} {w' : Threads}
    (hstep : w.step size e = some w') : Alert size w' := by
  cases e with
  | await loop pin =>
    cases hstep
    exact await_alert h loop pin
  | notifyOne k =>
    simp only [Threads.step, Option.ite_none_left_eq_some] at hstep
    obtain ⟨-, hstep⟩ := hstep
    cases k with
    | none =>
      simp only [Option.ite_none_right_eq_some, Option.some.injEq] at hstep
      obtain ⟨hnone, rfl⟩ := hstep
      -- nobody is waiting: the first worker is awake, unless nothing is left to do
      refine ⟨fun hne => .inr (.inr ⟨0, hsize, hnone 0 hsize, fun hex => ?_⟩), h.pinned, h.exited,
        h.joining, h.returned⟩
      exact hne (h.exited 0 hsize hex).2.1
    | some i =>
      simp only [Option.ite_none_right_eq_some, Option.some.injEq] at hstep
      obtain ⟨⟨hi, hb⟩, rfl⟩ := hstep
      exact wake_alert h hi hb
  | notifyAll =>
    simp only [Threads.step, Option.ite_none_left_eq_some, Option.some.injEq] at hstep
    obtain ⟨-, rfl⟩ := hstep
    exact wakeAll_alert hsize h (.inl rfl)
  | wake i =>
    simp only [Threads.step, Option.ite_none_right_eq_some, Option.some.injEq] at hstep
    obtain ⟨⟨hi, hb⟩, rfl⟩ := hstep
    exact wake_alert h hi hb
  | look i =>
    simp only [Threads.step, Option.ite_none_right_eq_some, Option.some.injEq] at hstep
    obtain ⟨⟨hi, hready⟩, rfl⟩ := hstep
    exact look_alert h hi hready
  | finish i throws =>
    simp only [Threads.step] at hstep
    split at hstep
    · next t hrunning =>
      simp only [Option.ite_none_right_eq_some, Option.some.injEq] at hstep
      obtain ⟨hi, rfl⟩ := hstep
      exact finish_alert h hi hrunning throws
    · cases hstep
  | stop =>
    simp only [Threads.step, Option.ite_none_right_eq_some, Option.some.injEq] at hstep
    obtain ⟨-, rfl⟩ := hstep
    exact ⟨h.jobs, h.pinned, fun k hk hex => ⟨nofun, (h.exited k hk hex).2⟩, nofun, nofun⟩
  | stopNotify =>
    simp only [Threads.step, Option.ite_none_right_eq_some, Option.some.injEq] at hstep
    obtain ⟨hph, rfl⟩ := hstep
    exact wakeAll_alert hsize h (.inr ⟨rfl, hph⟩)
  | stopReturn =>
    simp only [Threads.step, Option.ite_none_right_eq_some, Option.some.injEq] at hstep
    obtain ⟨⟨hph, hall⟩, rfl⟩ := hstep
    exact ⟨h.jobs, h.pinned, fun k hk hex => ⟨nofun, (h.exited k hk hex).2⟩,
      fun _ => h.joining (.inl hph), fun _ => hall⟩
  | swap l =>
    simp only [Threads.step] at hstep
    split at hstep
    · cases hstep
      exact ⟨h.jobs, h.pinned, h.exited, h.joining, h.returned⟩
    · cases hstep
  | resume l =>
    simp only [Threads.step] at hstep
    split at hstep
    · cases hstep
      exact ⟨h.jobs, h.pinned, h.exited, h.joining, h.returned⟩
    · cases hstep

/-- A pool that has come to rest has nothing queued and nothing running. -/
theorem Alert.quiet (h : Alert size w) (hq : Quiet size w) :
    w.jobs = [] ∧ (∀ i < size, w.pinned i = []) ∧ ∀ i < size, (w.workers i).task = [] := by
  have hasleep : ∀ i < size, ¬ (w.workers i).awake := by
    rintro i hi ⟨hb, hex⟩
    exact (hq.workers i hi).elim hb hex
  obtain ⟨hsignals, hbroadcasts, -⟩ := hq.notified
  refine ⟨?_, fun i hi => ?_, fun i hi => ?_⟩
  · by_contra hne
    rcases h.jobs hne with hs | hb | ⟨i, hi, ha⟩
    · omega
    · omega
    · exact hasleep i hi ha
  · by_contra hne
    exact (h.pinned i hi hne).elim (by omega) (hasleep i hi)
  · rcases hq.workers i hi with hs | hs
    · rw [hs]
      rfl
    · rw [hs]
      rfl

/-- A pool that is being stopped does not come to rest before `stop` can return. -/
theorem stopReturn_enabled (h : Alert size w) (hq : Quiet size w) (hph : w.phase = .joining) :
    (w.step size .stopReturn).isSome := by
  have hall : ∀ i < size, w.workers i = .exited :=
    fun i hi => (hq.workers i hi).resolve_left (h.joining (.inl hph) i hi)
  simpa [Threads.step, hph] using hall

end Alert

/-! ## What is promised -/

section Served

variable {size : ℕ} {es : List ThreadEvent} {w : Threads}

/-- Whatever happens, accepted jobs are executed once and in order, none is left
    behind, and `stop` waits for them. -/
theorem executes (hsize : 0 < size) (hrun : (threads size).run es = some w) : Executes size w := by
  have hledger : Ledger size w := (threads size).run_induction (init_ledger size)
    (fun _ _ _ h => step_ledger h) hrun
  have halert : Alert size w := (threads size).run_induction (init_alert size)
    (fun _ _ _ h => step_alert hsize h) hrun
  refine ⟨hledger.executed_nodup, fun p hp => ?_, fun p hp => ?_, hledger.queues.filter_prefix,
    fun hph => ?_, fun hq => ?_⟩
  · exact hledger.queues.subset (List.mem_map_of_mem (hledger.workers.subset hp))
  · exact hledger.own p (hledger.workers.subset hp)
  · have hex : ∀ i < size, w.workers i = .exited := halert.returned hph
    refine hledger.executed_perm (halert.exited 0 hsize (hex 0 hsize)).2.1
      (fun i hi => (halert.exited i hi (hex i hi)).2.2) fun i hi => ?_
    rw [hex i hi]
    rfl
  · obtain ⟨hjobs, hpinned, htasks⟩ := halert.quiet hq
    exact hledger.executed_perm hjobs hpinned htasks

/-- Whatever was awaited was accepted, and whatever was executed was posted. -/
structure Clean (w : Threads) : Prop where
  accepted : w.accepted = w.awaited
  posts : w.posts.map Prod.snd = w.executed.map Prod.snd

theorem step_clean (h : Clean w) {e : ThreadEvent} {w' : Threads} (hc : Undisturbed size w e)
    (hstep : w.step size e = some w') : Clean w' := by
  cases e with
  | await loop pin =>
    cases hstep
    obtain ⟨hno, hpin⟩ := hc
    have hgo : ¬ w.stopping := not_not.2 hno
    cases pin with
    | none =>
      simp only [Threads.await, Threads.submit, if_neg hgo]
      exact ⟨congrArg (· ++ [_]) h.accepted, h.posts⟩
    | some i =>
      have hi : ¬ (w.stopping ∨ i ≥ size) := by
        rintro (hs | hle)
        · exact hgo hs
        · exact absurd (hpin i rfl) (Nat.not_lt.2 hle)
      simp only [Threads.await, Threads.submit, if_neg hi]
      exact ⟨congrArg (· ++ [_]) h.accepted, h.posts⟩
  | notifyOne k =>
    simp only [Threads.step, Option.ite_none_left_eq_some] at hstep
    obtain ⟨-, hstep⟩ := hstep
    cases k with
    | none =>
      simp only [Option.ite_none_right_eq_some, Option.some.injEq] at hstep
      obtain ⟨-, rfl⟩ := hstep
      exact ⟨h.accepted, h.posts⟩
    | some i =>
      simp only [Option.ite_none_right_eq_some, Option.some.injEq] at hstep
      obtain ⟨-, rfl⟩ := hstep
      exact ⟨h.accepted, h.posts⟩
  | notifyAll =>
    simp only [Threads.step, Option.ite_none_left_eq_some, Option.some.injEq] at hstep
    obtain ⟨-, rfl⟩ := hstep
    exact ⟨h.accepted, h.posts⟩
  | look i =>
    simp only [Threads.step, Option.ite_none_right_eq_some, Option.some.injEq] at hstep
    obtain ⟨-, rfl⟩ := hstep
    unfold Threads.look
    split
    · exact ⟨h.accepted, h.posts⟩
    · split
      · exact ⟨h.accepted, h.posts⟩
      · split <;> exact ⟨h.accepted, h.posts⟩
  | finish i throws =>
    obtain rfl : throws = false := hc
    simp only [Threads.step] at hstep
    split at hstep
    · next t _ =>
      simp only [Option.ite_none_right_eq_some, Option.some.injEq] at hstep
      obtain ⟨-, rfl⟩ := hstep
      refine ⟨h.accepted, ?_⟩
      show (w.posts ++ [(t.loop, t)]).map Prod.snd = (w.executed ++ [(i, t)]).map Prod.snd
      rw [List.map_append, List.map_append, h.posts]
      rfl
    · cases hstep
  | wake i | stop | stopNotify | stopReturn =>
    simp only [Threads.step, Option.ite_none_right_eq_some, Option.some.injEq] at hstep
    obtain ⟨-, rfl⟩ := hstep
    exact ⟨h.accepted, h.posts⟩
  | swap l | resume l =>
    simp only [Threads.step] at hstep
    split at hstep
    · cases hstep
      exact ⟨h.accepted, h.posts⟩
    · cases hstep

/-- **Jobs and resumptions**: in every run in which no work throws and nothing is
    awaited while the pool stops, every job is executed once and in order, and every
    coroutine is resumed once on its loop. -/
theorem served_of_undisturbed (hsize : 0 < size) (hC : (threads size).Meets (Undisturbed size) es)
    (hrun : (threads size).run es = some w) : Served size w := by
  have hledger : Ledger size w := (threads size).run_induction (init_ledger size)
    (fun _ _ _ h => step_ledger h) hrun
  have hclean : Clean w := (threads size).guarded_induction ⟨rfl, rfl⟩
    (fun _ _ _ h hc => step_clean h hc) hC hrun
  have hposts : (w.posts.map Prod.snd).Nodup := hledger.executed_nodup.sublist hledger.posts
  have hexecutes := executes hsize hrun
  refine ⟨hexecutes, hledger.loops.nodup_map hposts, fun p hp => ?_, fun p hp => ?_, fun hidle => ?_⟩
  · exact hledger.home p (hledger.loops.subset hp)
  · have hmem : p.2 ∈ w.executed.map Prod.snd :=
      hledger.posts.subset (List.mem_map_of_mem (hledger.loops.subset hp))
    obtain ⟨q, hq, heq⟩ := List.mem_map.1 hmem
    exact heq ▸ hledger.accepted.subset (hexecutes.accepted q hq)
  · have hempty : ∀ l, (w.current l ++ w.posted l).map (l, ·) = [] := by
      intro l
      rw [(hidle.loops l).1, (hidle.loops l).2]
      rfl
    have hresumed := (hledger.loops.perm_of_empty hempty).map Prod.snd
    rw [hclean.posts] at hresumed
    rw [← hclean.accepted]
    exact hresumed.trans (hledger.executed_perm hidle.jobs hidle.pinned hidle.workers)

end Served

/-- A coroutine awaits a job, a worker runs it, and the loop resumes the coroutine, if
    the work does not throw. -/
def awaitOnce (throws : Bool) : List ThreadEvent :=
  [.look 0, .await 0 none, .notifyOne (some 0), .look 0, .finish 0 throws, .look 0, .swap 0] ++
    if throws then [] else [.resume 0]

theorem served_of_undisturbed_once :
    ∃ w, (threads 1).run (awaitOnce false) = some w ∧ Served 1 w ∧ w.resumed = [(0, ⟨0, 0, none⟩)] :=
  ⟨_, rfl, @served_of_undisturbed 1 (awaitOnce false) _ (by decide)
    (.cons trivial rfl <| .cons ⟨rfl, nofun⟩ rfl <| .cons trivial rfl <| .cons trivial rfl <|
      .cons rfl rfl <| .cons trivial rfl <| .cons trivial rfl <| .cons trivial rfl trivial) rfl, rfl⟩

/-- The work throws: everything is idle, and the coroutine was not resumed. -/
theorem throwing_job_resumes_nobody : ∃ w, (threads 1).run (awaitOnce true) = some w ∧
    Idle 1 w ∧ ¬ (w.resumed.map Prod.snd).Perm w.awaited := by
  refine ⟨_, rfl, ⟨rfl, fun i hi => ?_, fun i hi => ?_, fun l => ?_⟩, ?_⟩
  · obtain rfl : i = 0 := by omega
    rfl
  · obtain rfl : i = 0 := by omega
    rfl
  · by_cases hl : l = 0
    · subst hl
      exact ⟨rfl, rfl⟩
    · exact ⟨Function.update_of_ne hl _ _, Function.update_of_ne hl _ _⟩
  · show ¬ ([] : List Task).Perm [⟨0, 0, none⟩]
    decide

end Osodio.Db
