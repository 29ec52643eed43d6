import Mathlib.Algebra.Order.Ring.Int
import Osodio.Lib.Transition
import Osodio.Odio.Reads

/-!
# How long a sleep lasts

The driver of a route reads the time of an awaited `sleep`, clamps it, and hands it to the event
loop, which arms a timer.  Here is one handler with its clock; the other handlers of the loop and
its client are the events of the environment, in any order.  The drivers of plain, `sse` and `ws`
routes have this code in common.

## Main definitions

- `timerSpec` — what `schedule_timer` sets a timer to
- `Sleeper.step` — one step of the handler, of its loop or of the environment
- `Lasts` — a sleep suspends the handler, and its timer does not fire early
- `AptSleep` — the sleeps that do

## Main results

- `timerSpec_ns` — a positive time is exact
- `lasts_iff` — one step
- `sleep_lasts` — every run
-/

namespace Osodio.Runtime

open Osodio.Lib Osodio.Odio Osodio.Odio.Reading

/-! ## Timers -/

/-- `it_value` of an `itimerspec`. -/
structure Itimerspec where
  tvSec : Int64 := 0
  tvNsec : Int64 := 0
  deriving DecidableEq, Repr

/-- The nanoseconds until the timer expires. -/
def Itimerspec.ns (ts : Itimerspec) : ℤ := ts.tvSec.toInt * 1000000000 + ts.tvNsec.toInt

/-- `EpollLoop::schedule_timer`: what the timer is set to. -/
def timerSpec (ms : Int32) : Itimerspec :=
  if 0 < ms then { tvSec := (ms / 1000).toInt64, tvNsec := (ms % 1000).toInt64 * 1000000 }
  else { tvNsec := 1 }

section Timers

variable {ms : Int32}

/-- A positive time is split into seconds and nanoseconds without loss. -/
theorem timerSpec_ns (h : 0 < ms) : (timerSpec ms).ns = ms.toInt * 1000000 := by
  have hpos : 0 < ms.toInt := by simpa using Int32.lt_iff_toInt_lt.1 h
  have hlt : ms.toInt < 2 ^ 31 := ms.toInt_lt
  have hmod : (ms % 1000).toInt = ms.toInt % 1000 := by
    rw [Int32.toInt_mod]
    exact Int.tmod_eq_emod_of_nonneg hpos.le
  have hdiv : (ms / 1000).toInt = ms.toInt / 1000 := by
    rw [Int32.toInt_div_of_ne_right _ _ (by decide)]
    exact Int.tdiv_eq_ediv_of_nonneg hpos.le
  have hnsec : ((ms % 1000).toInt64 * 1000000).toInt = ms.toInt % 1000 * 1000000 := by
    rw [Int64.toInt_mul, Int32.toInt_toInt64, hmod]
    change (ms.toInt % 1000 * 1000000).bmod (2 ^ 64) = _
    exact Int.bmod_eq_of_le (by omega) (by omega)
  rw [timerSpec, if_pos h, Itimerspec.ns]
  dsimp only
  rw [hnsec, Int32.toInt_toInt64, hdiv]
  omega

/-- The clamp leaves a positive time, which is the one asked for if it fits. -/
theorem toInt32_clampSleepMs {n : Int64} (h : n.toInt < 2 ^ 31) :
    (clampSleepMs n).toInt32.toInt = max 1 n.toInt := by
  have hle := Int64.le_toInt n
  have hclamp : (clampSleepMs n).toInt = max 1 n.toInt := by
    unfold clampSleepMs
    split
    · next hn =>
      have : n.toInt < 1 := by simpa using Int64.lt_iff_toInt_lt.1 hn
      rw [max_eq_left (by omega)]
      rfl
    · next hn =>
      have : ¬ n.toInt < 1 := by simpa using fun hlt => hn (Int64.lt_iff_toInt_lt.2 hlt)
      rw [max_eq_right (by omega)]
  rw [Int64.toInt_toInt32, hclamp]
  exact Int.bmod_eq_of_le (by omega) (by omega)

end Timers

/-! ## The handler and its loop -/

/-- `detail::current_token`, when a sleep looks at it: of the request of the handler, or of the
    last one that was dispatched. -/
inductive Token where
  | none
  | own
  | other (cancelled : Bool)
  deriving DecidableEq, Repr

inductive Stage where
  | running
  | asleep (sleep : ℕ) (token : Token)
  /-- Suspended elsewhere, until the pool or the socket resumes it. -/
  | waiting
  | ended
  /-- Ended by an error of the language. -/
  | failed
  deriving DecidableEq, Repr

/-- The callback of a sleep and when it is due: in a timer, or, if no descriptor was left for
    one, among the posted tasks. -/
structure Callback where
  sleep : ℕ
  due : ℕ
  timer : Bool
  deriving DecidableEq, Repr

structure Sleeper where
  /-- `CLOCK_MONOTONIC`, in nanoseconds. -/
  now : ℕ := 0
  phase : Stage := .running
  pending : List Callback := []
  /-- The sleeps begun so far. -/
  sleeps : ℕ := 0
  /-- The request of the handler is cancelled. -/
  cancelled : Bool := false
  deriving DecidableEq, Repr

inductive Moment where
  /-- The handler awaits `sleep(v)`; `descriptor` tells whether `timerfd_create` has one left. -/
  | sleep (v : Value) (token : Token) (descriptor : Bool)
  /-- The handler awaits something else. -/
  | await
  | answer
  | finish
  | pass (ns : ℕ)
  /-- The loop calls the callback of a sleep that is due. -/
  | fire (sleep : ℕ)
  /-- The token that the sleep is registered with is cancelled. -/
  | wake
  /-- The request times out, or its client goes away. -/
  | cancel

namespace Sleeper

variable (s : Sleeper)

def tokenCancelled : Token → Bool
  | .none => false
  | .own => s.cancelled
  | .other cancelled => cancelled

/-- `h.resume()`: a handler behind its sleep looks whether its request is cancelled. -/
def resume : Sleeper :=
  match s.phase with
  | .asleep _ _ => { s with phase := if s.cancelled then .ended else .running }
  | .waiting => { s with phase := .running }
  | _ => s

/-- The wake function of the sleep `n`: a callback among the posted tasks stays there. -/
def wake (n : ℕ) : Sleeper :=
  ({ s with pending := s.pending.filter fun c => !(c.sleep == n && c.timer) } : Sleeper).resume

/-- When the callback of a sleep is due. -/
def dueTime (ms : Int32) (descriptor : Bool) : ℕ :=
  if descriptor then s.now + (timerSpec ms).ns.toNat else s.now

/-- `SleepAwaitable::await_suspend`, up to the registration with the token. -/
def arm (ms : Int32) (token : Token) (descriptor : Bool) : Sleeper :=
  { s with
    pending := s.pending ++ [⟨s.sleeps, s.dueTime ms descriptor, descriptor⟩]
    phase := .asleep s.sleeps token
    sleeps := s.sleeps + 1 }

/-- `co_await lohin::sleep(ms)`.  A token that is cancelled already wakes the handler at once. -/
def sleep (ms : Int32) (token : Token) (descriptor : Bool) : Sleeper :=
  if ms ≤ 0 then { s with phase := if s.cancelled then .ended else .running }
  else if s.tokenCancelled token then (s.arm ms token descriptor).wake s.sleeps
  else s.arm ms token descriptor

/-- One step.  A value that is read at another type has no next state. -/
def step (s : Sleeper) : Moment → Option Sleeper
  | .sleep v token descriptor =>
    match s.phase, sleepMs [v] with
    | .running, .ok ms => some (s.sleep ms.toInt32 token descriptor)
    | .running, .error (.error _) => some { s with phase := .failed }
    | _, _ => none
  | .await => if s.phase = .running then some { s with phase := .waiting } else none
  | .answer => if s.phase = .waiting then some { s with phase := .running } else none
  | .finish => if s.phase = .running then some { s with phase := .ended } else none
  | .pass ns => some { s with now := s.now + ns }
  | .fire n =>
    if s.phase = .running then none
    else
      (s.pending.find? fun c => c.sleep == n && c.due ≤ s.now).map fun c =>
        ({ s with pending := s.pending.erase c } : Sleeper).resume
  | .wake =>
    match s.phase with
    | .asleep n token => if token = .none then none else some (s.wake n)
    | _ => none
  | .cancel => some { s with cancelled := true }

end Sleeper

/-- A handler that has just been called. -/
def sleeper : System Sleeper Moment where
  init := {}
  step := Sleeper.step

/-! ## Sleeps that last -/

/-- The callback of the sleep `n` is not called before the time `t`, however the run goes on. -/
def NotBefore (s : Sleeper) (n : ℕ) (t : ℤ) : Prop :=
  ∀ es u w, sleeper.runFrom s es = some u → u.step (.fire n) = some w → t ≤ u.now

/-- The handler is suspended for `ms` milliseconds at least.  If its request was cancelled before,
    it ends. -/
def Slept (s t : Sleeper) (ms : ℤ) (token : Token) : Prop :=
  if token = .own ∧ s.cancelled then t.phase = .ended
  else t.phase = .asleep s.sleeps token ∧
    NotBefore t s.sleeps (s.now + max 1 ms * 1000000)

/-- A sleep suspends the handler for its time if it is an integer, and raises an error if not. -/
def Lasts (s : Sleeper) : Moment → Prop
  | .sleep v token descriptor =>
    s.phase = .running → ∃ t, s.step (.sleep v token descriptor) = some t ∧
      match v with
      | .int ms => Slept s t ms.toInt token
      | _ => t.phase = .failed
  | _ => True

/-- The time is an integer that fits in an `int`, a descriptor is left, and the token is not one
    of another request that is cancelled. -/
def AptSleep (s : Sleeper) : Moment → Prop
  | .sleep v token descriptor =>
    s.phase = .running → ∃ ms, v = .int ms ∧
      ((token = .own ∧ s.cancelled) ∨
        ms.toInt < 2 ^ 31 ∧ descriptor = true ∧ token ≠ .other true)
  | _ => True

/-- Between two sleeps the handler is resumed by the loop. -/
def Suspends (es : List Moment) : Prop :=
  ∀ pre v token fd mid v' token' fd',
    pre ++ .sleep v token fd :: (mid ++ [.sleep v' token' fd']) <+: es →
    sleeper.run (pre ++ .sleep v token fd :: (mid ++ [.sleep v' token' fd'])) ≠ none →
    ∃ e ∈ mid, e = .wake ∨ ∃ n, e = .fire n

section Steps

variable {s t : Sleeper} {e : Moment} {n : ℕ}

@[simp] theorem Sleeper.resume_now : s.resume.now = s.now := by
  unfold Sleeper.resume
  split <;> rfl

@[simp] theorem Sleeper.resume_pending : s.resume.pending = s.pending := by
  unfold Sleeper.resume
  split <;> rfl

@[simp] theorem Sleeper.resume_sleeps : s.resume.sleeps = s.sleeps := by
  unfold Sleeper.resume
  split <;> rfl

/-- A later state: time has passed, and a callback is an old one or of a sleep begun since. -/
structure Later (s t : Sleeper) : Prop where
  now : s.now ≤ t.now
  sleeps : s.sleeps ≤ t.sleeps
  pending : ∀ c ∈ t.pending, c ∈ s.pending ∨ s.sleeps ≤ c.sleep ∧ c.sleep < t.sleeps

theorem Later.refl (s : Sleeper) : Later s s := ⟨le_rfl, le_rfl, fun _ hc => .inl hc⟩

theorem Later.wake (h : Later s t) (n : ℕ) : Later s (t.wake n) where
  now := by simpa [Sleeper.wake] using h.now
  sleeps := by simpa [Sleeper.wake] using h.sleeps
  pending c hc := by
    simp only [Sleeper.wake, Sleeper.resume_pending, Sleeper.resume_sleeps] at hc ⊢
    exact h.pending c (List.mem_of_mem_filter hc)

theorem later_arm (ms : Int32) (token : Token) (fd : Bool) : Later s (s.arm ms token fd) where
  now := le_rfl
  sleeps := Nat.le_succ _
  pending c hc := by
    rcases List.mem_append.1 hc with hc | hc
    · exact .inl hc
    · obtain rfl := List.mem_singleton.1 hc
      exact .inr ⟨le_rfl, Nat.lt_succ_self _⟩

theorem later_sleep (ms : Int32) (token : Token) (fd : Bool) : Later s (s.sleep ms token fd) := by
  by_cases hready : ms ≤ 0
  · rw [Sleeper.sleep, if_pos hready]
    exact ⟨le_rfl, le_rfl, fun _ hc => .inl hc⟩
  · rw [Sleeper.sleep, if_neg hready]
    split
    · exact (later_arm ms token fd).wake _
    · exact later_arm ms token fd

theorem step_later (h : s.step e = some t) : Later s t := by
  have hphase : ∀ p, Later s { s with phase := p } := fun p =>
    ⟨le_rfl, le_rfl, fun _ hc => .inl hc⟩
  cases e with
  | sleep v token fd =>
    simp only [Sleeper.step] at h
    split at h <;> cases h
    · exact later_sleep _ token fd
    · exact hphase _
  | await =>
    simp only [Sleeper.step] at h
    split at h <;> cases h
    exact hphase _
  | answer =>
    simp only [Sleeper.step] at h
    split at h <;> cases h
    exact hphase _
  | finish =>
    simp only [Sleeper.step] at h
    split at h <;> cases h
    exact hphase _
  | pass ns =>
    cases h
    exact ⟨Nat.le_add_right _ _, le_rfl, fun _ hc => .inl hc⟩
  | fire n =>
    simp only [Sleeper.step] at h
    split at h
    · cases h
    · obtain ⟨c, -, rfl⟩ := Option.map_eq_some_iff.1 h
      exact ⟨by simp, by simp, fun d hd => .inl (List.mem_of_mem_erase (by simpa using hd))⟩
  | wake =>
    simp only [Sleeper.step] at h
    split at h
    · split at h <;> cases h
      exact (Later.refl s).wake _
    · cases h
  | cancel =>
    cases h
    exact ⟨le_rfl, le_rfl, fun _ hc => .inl hc⟩

/-- The callbacks are of sleeps that have begun. -/
def Begun (s : Sleeper) : Prop := ∀ c ∈ s.pending, c.sleep < s.sleeps

theorem Begun.step (hs : Begun s) (h : s.step e = some t) : Begun t := by
  have hlater := step_later h
  intro c hc
  rcases hlater.pending c hc with hold | ⟨-, hnew⟩
  · exact (hs c hold).trans_le hlater.sleeps
  · exact hnew

/-- A callback that is called was due. -/
theorem fire_due (h : s.step (.fire n) = some t) :
    ∃ c ∈ s.pending, c.sleep = n ∧ c.due ≤ s.now := by
  simp only [Sleeper.step] at h
  split at h
  · cases h
  · obtain ⟨c, hc, -⟩ := Option.map_eq_some_iff.1 h
    obtain ⟨hn, hdue⟩ : c.sleep = n ∧ c.due ≤ s.now := by simpa using List.find?_some hc
    exact ⟨c, List.mem_of_find?_eq_some hc, hn, hdue⟩

/-- **Timers are not early**: what is due from some time on is not called before. -/
theorem notBefore_of_due {b : ℤ} (hn : n < s.sleeps)
    (hdue : ∀ c ∈ s.pending, c.sleep = n → b ≤ c.due) : NotBefore s n b := by
  intro es u w hu hw
  -- no later sleep has the number of this one, so its callbacks only become fewer
  obtain ⟨-, hdue⟩ := sleeper.guardedFrom_induction (C := fun _ _ => True)
    (I := fun s => n < s.sleeps ∧ ∀ c ∈ s.pending, c.sleep = n → b ≤ c.due)
    (fun s e t ⟨hn, hdue⟩ _ ht => by
      have hlater := step_later ht
      refine ⟨hn.trans_le hlater.sleeps, fun c hc hcn => ?_⟩
      rcases hlater.pending c hc with hold | ⟨hnew, -⟩
      · exact hdue c hold hcn
      · omega)
    ⟨hn, hdue⟩ (sleeper.meetsFrom_true s es) hu
  obtain ⟨c, hc, hcn, hcu⟩ := fire_due hw
  exact (hdue c hc hcn).trans (by exact_mod_cast hcu)

section Sleeps

variable {ms : Int32} {token : Token} {fd : Bool}

/-- A timer may fire as soon as its callback is due. -/
theorem fire_arm {d : ℕ} (hd : s.dueTime ms fd = s.now + d) :
    ∃ u w, sleeper.runFrom (s.arm ms token fd) [.pass d] = some u ∧
      u.step (.fire s.sleeps) = some w ∧ u.now = s.now + d := by
  set u : Sleeper := { s.arm ms token fd with now := s.now + d } with hu
  have hfind : (u.pending.find? fun c => c.sleep == s.sleeps && c.due ≤ u.now).isSome := by
    refine List.find?_isSome.2 ⟨⟨s.sleeps, s.dueTime ms fd, fd⟩, by simp [hu, Sleeper.arm], ?_⟩
    simp [hu, hd]
  obtain ⟨c, hc⟩ := Option.isSome_iff_exists.1 hfind
  have hfire : u.step (.fire s.sleeps) =
      some ({ u with pending := u.pending.erase c } : Sleeper).resume := by
    simp only [Sleeper.step]
    rw [if_neg (by simp [hu, Sleeper.arm]), hc]
    rfl
  exact ⟨u, _, rfl, hfire, rfl⟩

/-- The callback of a sleep that is armed is called when it is due, and not before. -/
theorem notBefore_arm (hs : Begun s) {b : ℤ} :
    NotBefore (s.arm ms token fd) s.sleeps b ↔ b ≤ s.dueTime ms fd := by
  constructor
  · intro h
    have hd : s.dueTime ms fd = s.now + (s.dueTime ms fd - s.now) := by
      unfold Sleeper.dueTime
      split <;> omega
    obtain ⟨u, w, hu, hw, hnow⟩ := @fire_arm s ms token fd _ hd
    rw [hd, ← hnow]
    exact h _ u w hu hw
  · intro hb
    refine notBefore_of_due (Nat.lt_succ_self _) fun c hc hcn => ?_
    rcases List.mem_append.1 hc with hc | hc
    · exact absurd hcn (hs c hc).ne
    · obtain rfl := List.mem_singleton.1 hc
      exact hb

/-- The time asked for passes before the callback is due exactly if it fits in an `int` and a
    timer was made. -/
theorem le_dueTime_iff {n : Int64} (hpos : 0 < (clampSleepMs n).toInt32) :
    (s.now : ℤ) + max 1 n.toInt * 1000000 ≤ s.dueTime (clampSleepMs n).toInt32 fd ↔
      n.toInt < 2 ^ 31 ∧ fd = true := by
  have hns := timerSpec_ns hpos
  have hlt : (clampSleepMs n).toInt32.toInt < 2 ^ 31 := Int32.toInt_lt _
  have hint : 0 < (clampSleepMs n).toInt32.toInt := by simpa using Int32.lt_iff_toInt_lt.1 hpos
  cases fd with
  | false =>
    simp only [Sleeper.dueTime, Bool.false_eq_true, if_false, and_false, iff_false]
    omega
  | true =>
    have hdue : (s.dueTime (clampSleepMs n).toInt32 true : ℤ) =
        s.now + (clampSleepMs n).toInt32.toInt * 1000000 := by
      rw [Sleeper.dueTime, if_pos rfl, hns]
      omega
    rw [hdue]
    simp only [and_true]
    constructor
    · intro hle
      omega
    · intro hn
      have := toInt32_clampSleepMs hn
      omega

theorem phase_sleep_ready (h : ms ≤ 0) :
    (s.sleep ms token fd).phase = if s.cancelled then .ended else .running := by
  rw [Sleeper.sleep, if_pos h]

theorem phase_sleep_woken (h : ¬ ms ≤ 0) (ht : s.tokenCancelled token = true) :
    (s.sleep ms token fd).phase = if s.cancelled then .ended else .running := by
  rw [Sleeper.sleep, if_neg h, if_pos ht]
  rfl

/-- **A sleep**: it lasts exactly if its time fits, a timer was made, and the handler is not
    woken at once with its request still alive. -/
theorem slept_iff (hs : Begun s) {n : Int64} :
    Slept s (s.sleep (clampSleepMs n).toInt32 token fd) n.toInt token ↔
      (token = .own ∧ s.cancelled) ∨ n.toInt < 2 ^ 31 ∧ fd = true ∧ token ≠ .other true := by
  by_cases hown : token = .own ∧ s.cancelled = true
  · rw [Slept, if_pos hown]
    refine iff_of_true ?_ (.inl hown)
    by_cases hready : (clampSleepMs n).toInt32 ≤ 0
    · rw [phase_sleep_ready hready, if_pos hown.2]
    · rw [phase_sleep_woken hready (by rw [hown.1]; exact hown.2), if_pos hown.2]
  · rw [Slept, if_neg hown, or_iff_right hown]
    have hawake : ∀ t : Sleeper, t.phase = (if s.cancelled then .ended else .running) →
        t.phase ≠ .asleep s.sleeps token := by
      intro t ht
      rw [ht]
      split <;> nofun
    by_cases hready : (clampSleepMs n).toInt32 ≤ 0
    · refine iff_of_false (fun h => hawake _ (phase_sleep_ready hready) h.1) fun h => ?_
      have := toInt32_clampSleepMs h.1
      have hle : (clampSleepMs n).toInt32.toInt ≤ 0 := by simpa using Int32.le_iff_toInt_le.1 hready
      omega
    · by_cases htok : s.tokenCancelled token = true
      · refine iff_of_false (fun h => hawake _ (phase_sleep_woken hready htok) h.1) fun h => ?_
        cases token with
        | none => cases htok
        | own => exact hown ⟨rfl, htok⟩
        | other cancelled =>
          obtain rfl : cancelled = true := htok
          exact h.2.2 rfl
      · have hother : token ≠ .other true := by
          rintro rfl
          exact htok rfl
        rw [Sleeper.sleep, if_neg hready, if_neg htok, notBefore_arm hs,
          le_dueTime_iff (by simpa using hready)]
        simp [Sleeper.arm, hother]

end Sleeps

/-- **One step.** -/
theorem lasts_iff (hs : Begun s) : Lasts s e ↔ AptSleep s e := by
  cases e with
  | sleep v token fd =>
    refine imp_congr_right fun hrun => ?_
    cases v with
    | int n =>
      have hstep : s.step (.sleep (.int n) token fd) =
          some (s.sleep (clampSleepMs n).toInt32 token fd) := by
        simp only [Sleeper.step, hrun]
        rfl
      rw [hstep]
      simp [slept_iff hs]
    | _ =>
      refine iff_of_false ?_ fun ⟨_, h, _⟩ => by cases h
      rintro ⟨t, ht, -⟩
      simp only [Sleeper.step, hrun] at ht
      cases ht
  | _ => exact Iff.rfl

/-- Only a handler that runs can sleep. -/
theorem step_sleep {v : Value} {token : Token} {fd : Bool}
    (h : s.step (.sleep v token fd) = some t) : s.phase = .running := by
  simp only [Sleeper.step] at h
  split at h
  · assumption
  · assumption
  · cases h

/-- A handler that sleeps, or has ended, does not run before the loop resumes it. -/
def Still (s : Sleeper) : Prop := s.phase ≠ .running ∧ s.phase ≠ .waiting

theorem Still.step (hs : Still s) (he : e ≠ .wake ∧ ∀ n, e ≠ .fire n) (h : s.step e = some t) :
    Still t := by
  obtain ⟨hr, hw⟩ := hs
  cases e with
  | sleep v token fd => exact absurd (step_sleep h) hr
  | await => simp [Sleeper.step, hr] at h
  | answer => simp [Sleeper.step, hw] at h
  | finish => simp [Sleeper.step, hr] at h
  | pass ns =>
    cases h
    exact ⟨hr, hw⟩
  | fire n => exact absurd rfl (he.2 n)
  | wake => exact absurd rfl he.1
  | cancel =>
    cases h
    exact ⟨hr, hw⟩

/-- A sleep that lasts leaves the handler still. -/
theorem Lasts.still {v : Value} {token : Token} {fd : Bool} (hrun : s.phase = .running)
    (h : Lasts s (.sleep v token fd)) (ht : s.step (.sleep v token fd) = some t) : Still t := by
  obtain ⟨u, hu, hlasts⟩ := h hrun
  obtain rfl : t = u := Option.some.inj (ht.symm.trans hu)
  cases v with
  | int n =>
    simp only [Slept] at hlasts
    split at hlasts
    · exact ⟨by rw [hlasts]; nofun, by rw [hlasts]; nofun⟩
    · exact ⟨by rw [hlasts.1]; nofun, by rw [hlasts.1]; nofun⟩
  | _ => exact ⟨by rw [hlasts]; nofun, by rw [hlasts]; nofun⟩

end Steps

theorem suspends_of_meets {es : List Moment} (h : sleeper.Meets Lasts es) : Suspends es := by
  intro pre v token fd mid v' token' fd' hpre hrun
  by_contra hmid
  push Not at hmid
  obtain ⟨last, hlast⟩ := Option.ne_none_iff_exists'.1 hrun
  rw [System.run, sleeper.runFrom_append] at hlast
  obtain ⟨s, hs, hlast⟩ := Option.bind_eq_some_iff.1 hlast
  obtain ⟨t, ht, hlast⟩ := (sleeper.runFrom_cons).1 hlast
  obtain ⟨u, hu, hlast⟩ := (sleeper.runFrom_concat).1 hlast
  have hrunning := step_sleep ht
  have hlasts : Lasts s (.sleep v token fd) := by
    obtain ⟨rest, rfl⟩ := hpre
    rw [List.append_assoc, System.Meets, sleeper.meetsFrom_append] at h
    exact (h.2 s hs).1
  -- nothing but the loop takes the handler out of its sleep
  have hstill : Still u := by
    refine sleeper.guardedFrom_induction (C := fun _ e => e ≠ .wake ∧ ∀ n, e ≠ .fire n)
      (fun s e t hs he ht => hs.step he ht) (hlasts.still hrunning ht) ?_ hu
    exact sleeper.meetsFrom_of_forall hmid
  exact hstill.1 (step_sleep hlast)

/-- **Sleeps last** in every run, whatever the loop, the client and the other handlers do, exactly
    if all of them are apt; then no two sleeps are without a suspension between them. -/
theorem sleep_lasts (es : List Moment) :
    (sleeper.Meets Lasts es ↔ sleeper.Meets AptSleep es) ∧
      (sleeper.Meets AptSleep es → Suspends es) := by
  have hiff : sleeper.Meets Lasts es ↔ sleeper.Meets AptSleep es :=
    sleeper.meets_congr (I := Begun) nofun (fun _ _ _ hs h => hs.step h)
      (fun _ _ hs => lasts_iff hs) es
  exact ⟨hiff, fun h => suspends_of_meets (hiff.2 h)⟩

/-- `await sleep(4294967296)` does not suspend the handler, and neither does the next one. -/
theorem sleep_without_suspension :
    ¬ sleeper.Meets Lasts [.sleep (.int 4294967296) .own true] ∧
      ∃ s, sleeper.run (List.replicate 2 (.sleep (.int 4294967296) .own true)) = some s ∧
        s.phase = .running ∧ s.pending = [] := by
  refine ⟨fun h => ?_, _, rfl, rfl, rfl⟩
  obtain ⟨t, ht, hslept⟩ := h.1 rfl
  cases ht
  have hphase := hslept.1
  cases hphase

end Osodio.Runtime
