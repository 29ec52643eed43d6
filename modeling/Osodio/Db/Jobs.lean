import Osodio.Db.Pool

/-!
# The jobs of a pool

A handler has one job at most: it waits until the job has been run.  The job is in
the shared queue, in the queue of a worker, or in the hands of a worker.

## Main definitions

- `Place`, `World.jobsAt` — where a job is
- `Queued` — a handler with a job waits, and has no other one

## Main results

- `step_queued` — every step keeps this
-/

namespace Osodio.Db

open Osodio.Lib Osodio.Odio

/-! ## Where a job is -/

inductive Place where
  | shared
  | pinned (worker : ℕ)
  | held (worker : ℕ)
  deriving DecidableEq

def World.jobsAt (w : World) : Place → List Job
  | .shared => w.jobs
  | .pinned i => w.pinned i
  | .held i => (w.holding i).toList

/-! ## What a step does to the jobs -/

/-- The place that a request is sent to. -/
def DbRequest.target (r : DbRequest) : Place :=
  match r.pin with
  | some i => .pinned i
  | none => .shared

theorem suspend_jobsAt (w : World) (size : ℕ) (job : Job) (q : Place) :
    (w.suspend size job).jobsAt q = w.jobsAt q ∨
      q = job.request.target ∧ (w.suspend size job).jobsAt q = w.jobsAt q ++ [job] := by
  unfold World.suspend DbRequest.target
  cases job.request.pin with
  | none =>
    simp only [World.submit]
    split
    · exact .inl (by cases q <;> rfl)
    · cases q <;> simp [World.jobsAt]
  | some i =>
    simp only [World.submitTo]
    split
    · exact .inl (by cases q <;> rfl)
    · cases q with
      | pinned k =>
        by_cases hk : k = i
        · subst hk
          exact .inr (by simp [World.jobsAt])
        · exact .inl (by simp [World.jobsAt, Function.update_of_ne hk])
      | _ => exact .inl rfl

@[simp] theorem submit_handlers (w : World) (job : Job) : (w.submit job).handlers = w.handlers := by
  unfold World.submit
  split <;> rfl

@[simp] theorem submit_log (w : World) (job : Job) : (w.submit job).log = w.log := by
  unfold World.submit
  split <;> rfl

@[simp] theorem submitTo_handlers (w : World) (size worker : ℕ) (job : Job) :
    (w.submitTo size worker job).handlers = w.handlers := by
  unfold World.submitTo
  split <;> rfl

@[simp] theorem submitTo_log (w : World) (size worker : ℕ) (job : Job) :
    (w.submitTo size worker job).log = w.log := by
  unfold World.submitTo
  split <;> rfl

theorem suspend_handlers (w : World) (size : ℕ) (job : Job) :
    (w.suspend size job).handlers = Function.update w.handlers job.handler
      { w.handlers job.handler with status := .waiting } := by
  unfold World.suspend
  cases job.request.pin <;> simp

theorem suspend_log (w : World) (size : ℕ) (job : Job) : (w.suspend size job).log = w.log := by
  unfold World.suspend
  cases job.request.pin <;> simp

/-- A worker takes the first job of its own queue or, when that is empty, of the
    shared one. -/
theorem take_jobsAt {w w' : World} {i : ℕ} (hfree : w.holding i = none) (h : w.take i = some w') :
    ∃ q job rest, (q = .pinned i ∨ q = .shared ∧ w.pinned i = []) ∧ w.jobsAt q = job :: rest ∧
      w'.jobsAt q = rest ∧ w.jobsAt (.held i) = [] ∧ w'.jobsAt (.held i) = [job] ∧
      (∀ q', q' ≠ q → q' ≠ .held i → w'.jobsAt q' = w.jobsAt q') ∧
      w'.handlers = w.handlers ∧ w'.log = w.log := by
  unfold World.take at h
  split at h
  · next job rest hp =>
    cases h
    refine ⟨.pinned i, job, rest, .inl rfl, hp, by simp [World.jobsAt], by simp [World.jobsAt, hfree],
      by simp [World.jobsAt], fun q' h1 h2 => ?_, rfl, rfl⟩
    cases q' with
    | shared => rfl
    | pinned k => simp [World.jobsAt, Function.update_of_ne (fun hk => h1 (hk ▸ rfl) : k ≠ i)]
    | held k => simp [World.jobsAt, Function.update_of_ne (fun hk => h2 (hk ▸ rfl) : k ≠ i)]
  · next hp =>
    split at h
    · next job rest hj =>
      cases h
      refine ⟨.shared, job, rest, .inr ⟨rfl, hp⟩, hj, rfl, by simp [World.jobsAt, hfree],
        by simp [World.jobsAt], fun q' h1 h2 => ?_, rfl, rfl⟩
      cases q' with
      | shared => exact absurd rfl h1
      | pinned k => rfl
      | held k => simp [World.jobsAt, Function.update_of_ne (fun hk => h2 (hk ▸ rfl) : k ≠ i)]
    · simp at h

theorem runDbRequest_spec {mod : String} {ctx : NativeCtx} {op : DbOp} {args : List Value}
    {r : DbRequest} (h : runDbRequest (· == mod) ctx op args = .ok r) :
    r.mod = mod ∧ r.op = op ∧ r.pin = pinOf ctx op mod := by
  unfold runDbRequest at h
  split at h
  · split at h
    · cases h
    · next hmod =>
      obtain rfl : _ = mod := by simpa using hmod
      split at h
      · split at h
        · cases h
          exact ⟨rfl, rfl, rfl⟩
        · cases h
      · cases h
        exact ⟨rfl, rfl, rfl⟩
  · cases h

/-! ## One job for each handler -/

/-- A handler with a job waits for it, and has no other job. -/
structure Queued (w : World) : Prop where
  waiting : ∀ q, ∀ j ∈ w.jobsAt q, (w.handlers j.handler).status = .waiting
  nodup : ∀ q, ((w.jobsAt q).map Job.handler).Nodup
  apart : ∀ q q', ∀ j ∈ w.jobsAt q, ∀ j' ∈ w.jobsAt q', j.handler = j'.handler → q = q'

theorem init_queued (mod : String) (size : ℕ) : Queued (pool mod size).init where
  waiting q j hj := by cases q <;> simp [pool, World.jobsAt] at hj
  nodup q := by cases q <;> simp [pool, World.jobsAt]
  apart q _ j hj := by cases q <;> simp [pool, World.jobsAt] at hj

section Queued

variable {w : World}

/-- A handler that is not waiting has no job. -/
theorem Queued.not_mem (hw : Queued w) {h : ℕ} (hh : (w.handlers h).status ≠ .waiting) (q : Place) :
    ∀ j ∈ w.jobsAt q, j.handler ≠ h := by
  rintro j hj rfl
  exact hh (hw.waiting q j hj)

/-- The jobs after a handler has awaited an operation. -/
theorem mem_suspend {size : ℕ} {job j : Job} {q : Place} (hj : j ∈ (w.suspend size job).jobsAt q) :
    j ∈ w.jobsAt q ∨ j = job ∧ q = job.request.target := by
  obtain heq | ⟨hq, heq⟩ := suspend_jobsAt w size job q
  · exact .inl (heq ▸ hj)
  · rw [heq, List.mem_append, List.mem_singleton] at hj
    exact hj.imp_right fun hj => ⟨hj, hq⟩

/-- Awaiting: the handler is running, so it has no job. -/
theorem suspend_queued (hw : Queued w) {size : ℕ} {job : Job}
    (hrun : (w.handlers job.handler).status = .running) : Queued (w.suspend size job) := by
  have hnew := hw.not_mem (h := job.handler) (by simp [hrun])
  refine ⟨?_, ?_, ?_⟩
  · rintro q j hj
    rw [suspend_handlers]
    rcases mem_suspend hj with hj | ⟨rfl, -⟩
    · simpa [Function.update_of_ne (hnew q j hj)] using hw.waiting q j hj
    · simp
  · intro q
    rcases suspend_jobsAt w size job q with heq | ⟨-, heq⟩
    · simpa [heq] using hw.nodup q
    · rw [heq, List.map_append, List.nodup_append]
      refine ⟨hw.nodup q, by simp, ?_⟩
      rintro a ha b hb
      obtain ⟨j, hj, rfl⟩ := List.mem_map.1 ha
      obtain rfl : b = job.handler := by simpa using hb
      exact hnew q j hj
  · rintro q q' j hj j' hj' heq
    rcases mem_suspend hj with hold | ⟨h1, rfl⟩ <;> rcases mem_suspend hj' with hold' | ⟨h2, rfl⟩
    · exact hw.apart q q' j hold j' hold' heq
    · exact absurd (h2 ▸ heq) (hnew q j hold)
    · exact absurd (h1 ▸ heq.symm) (hnew q' j' hold')
    · rfl

/-- The jobs after a worker has taken one. -/
theorem mem_take {w' : World} {i : ℕ} (hfree : w.holding i = none) (h : w.take i = some w')
    {q : Place} {j : Job} (hj : j ∈ w'.jobsAt q) :
    (∃ src, (src = .pinned i ∨ src = .shared ∧ w.pinned i = []) ∧ q = .held i ∧
      j ∈ w.jobsAt src) ∨ j ∈ w.jobsAt q := by
  obtain ⟨src, job, rest, hsrc, hat, hrest, -, hheld, hsame, -, -⟩ := take_jobsAt hfree h
  by_cases h1 : q = .held i
  · subst h1
    obtain rfl : j = job := by simpa [hheld] using hj
    exact .inl ⟨src, hsrc, rfl, by simp [hat]⟩
  · by_cases h2 : q = src
    · subst h2
      exact .inr (by rw [hat]; exact List.mem_cons_of_mem _ (hrest ▸ hj))
    · exact .inr (hsame q h2 h1 ▸ hj)

/-- Taking a job moves it into the hands of the worker. -/
theorem take_queued (hw : Queued w) {w' : World} {i : ℕ} (hfree : w.holding i = none)
    (h : w.take i = some w') : Queued w' := by
  obtain ⟨src, job, rest, -, hat, hrest, hempty, hheld, hsame, hhandlers, -⟩ := take_jobsAt hfree h
  have hjob : job ∈ w.jobsAt src := by simp [hat]
  have hmem : ∀ q, ∀ j ∈ w'.jobsAt q, (q = .held i ∧ j = job) ∨ j ∈ w.jobsAt q := by
    rintro q j hj
    by_cases h1 : q = .held i
    · subst h1
      exact .inl ⟨rfl, by simpa [hheld] using hj⟩
    · by_cases h2 : q = src
      · subst h2
        exact .inr (by rw [hat]; exact List.mem_cons_of_mem _ (hrest ▸ hj))
      · exact .inr (hsame q h2 h1 ▸ hj)
  have hgone : ∀ q, q ≠ .held i → ∀ j ∈ w'.jobsAt q, j.handler ≠ job.handler := by
    rintro q hq j hj heq
    have hjq : j ∈ w.jobsAt q := (hmem q j hj).resolve_left fun h => hq h.1
    obtain rfl := hw.apart q src j hjq job hjob heq
    have hnd := hw.nodup q
    rw [hat, List.map_cons, List.nodup_cons] at hnd
    exact hnd.1 (List.mem_map.2 ⟨j, hrest ▸ hj, heq⟩)
  refine ⟨?_, ?_, ?_⟩
  · rintro q j hj
    rw [hhandlers]
    rcases hmem q j hj with ⟨-, rfl⟩ | hj
    · exact hw.waiting src _ hjob
    · exact hw.waiting q j hj
  · intro q
    by_cases h1 : q = .held i
    · subst h1
      simp [hheld]
    · by_cases h2 : q = src
      · subst h2
        have hnd := hw.nodup q
        rw [hat, List.map_cons, List.nodup_cons] at hnd
        exact hrest ▸ hnd.2
      · rw [hsame q h2 h1]
        exact hw.nodup q
  · rintro q q' j hj j' hj' heq
    by_cases h1 : q = .held i <;> by_cases h2 : q' = .held i
    · rw [h1, h2]
    · subst h1
      obtain rfl : j = job := by simpa [hheld] using hj
      exact absurd heq.symm (hgone q' h2 j' hj')
    · subst h2
      obtain rfl : j' = job := by simpa [hheld] using hj'
      exact absurd heq (hgone q h1 j hj)
    · exact hw.apart q q' j ((hmem q j hj).resolve_left fun h => h1 h.1) j'
        ((hmem q' j' hj').resolve_left fun h => h2 h.1) heq

/-- The jobs after a worker has run the one it held. -/
theorem mem_runJob {i : ℕ} {job : Job} {outcome : Option Outcome} {q : Place} {j : Job}
    (hj : j ∈ (w.runJob i job outcome).jobsAt q) : q ≠ .held i ∧ j ∈ w.jobsAt q := by
  cases q with
  | held k =>
    by_cases hk : k = i
    · subst hk
      simp [World.jobsAt, World.runJob] at hj
    · simp only [World.jobsAt, World.runJob, Function.update_of_ne hk] at hj
      exact ⟨fun heq => hk (Place.held.inj heq), hj⟩
  | _ => exact ⟨by simp, hj⟩

/-- The handler whose job was run has no other one. -/
theorem Queued.ne_of_runJob (hw : Queued w) {i : ℕ} {job : Job} (h : w.holding i = some job)
    {outcome : Option Outcome} {q : Place} {j : Job} (hj : j ∈ (w.runJob i job outcome).jobsAt q) :
    j.handler ≠ job.handler := by
  intro heq
  obtain ⟨hne, hj⟩ := mem_runJob hj
  exact hne (hw.apart q _ j hj job (by simp [World.jobsAt, h]) heq)

/-- Running a job changes no other handler. -/
theorem runJob_handlers {i : ℕ} {job : Job} (outcome : Option Outcome) {k : ℕ}
    (hk : k ≠ job.handler) : (w.runJob i job outcome).handlers k = w.handlers k := by
  cases outcome with
  | none => rfl
  | some o => simp [World.runJob, Function.update_of_ne hk]

/-- Running a job: the handler is answered and has no job any more. -/
theorem runJob_queued (hw : Queued w) {i : ℕ} {job : Job} (h : w.holding i = some job)
    (outcome : Option Outcome) : Queued (w.runJob i job outcome) := by
  refine ⟨?_, ?_, ?_⟩
  · rintro q j hj
    rw [runJob_handlers outcome (hw.ne_of_runJob h hj)]
    exact hw.waiting q j (mem_runJob hj).2
  · intro q
    by_cases hq : ∃ j, j ∈ (w.runJob i job outcome).jobsAt q
    · obtain ⟨j, hj⟩ := hq
      have heq : (w.runJob i job outcome).jobsAt q = w.jobsAt q := by
        have hne := (mem_runJob hj).1
        cases q with
        | held k =>
          have hk : k ≠ i := fun hk => hne (hk ▸ rfl)
          simp [World.jobsAt, World.runJob, Function.update_of_ne hk]
        | _ => rfl
      rw [heq]
      exact hw.nodup q
    · rw [List.eq_nil_iff_forall_not_mem.2 (fun j hj => hq ⟨j, hj⟩)]
      simp
  · rintro q q' j hj j' hj' heq
    exact hw.apart q q' j (mem_runJob hj).2 j' (mem_runJob hj').2 heq

/-- The handler whose answer is taken in has no job. -/
theorem resume_queued (hw : Queued w) {h : ℕ} (hans : (w.handlers h).status ≠ .waiting)
    (hd : Handler) : Queued { w with handlers := Function.update w.handlers h hd } := by
  refine ⟨?_, hw.nodup, hw.apart⟩
  rintro q j hj
  simpa only [Function.update_of_ne (hw.not_mem hans q j hj)] using hw.waiting q j hj

/-- Every step keeps one job for each handler. -/
theorem step_queued {mod : String} {size : ℕ} {e : Event} {w' : World} (hw : Queued w)
    (h : w.step mod size e = some w') : Queued w' := by
  cases e with
  | await k op args =>
    simp only [World.step] at h
    split at h
    · next hrun =>
      split at h
      · cases h
        exact hw
      · next r hr =>
        cases h
        exact suspend_queued hw hrun
    · simp at h
  | dequeue i =>
    simp only [World.step, Option.ite_none_right_eq_some, Option.isNone_iff_eq_none] at h
    exact take_queued hw h.1.2 h.2
  | runJob i outcome =>
    simp only [World.step, Option.map_eq_some_iff] at h
    obtain ⟨job, hjob, rfl⟩ := h
    exact runJob_queued hw hjob outcome
  | resume k =>
    simp only [World.step] at h
    split at h
    · next r i outcome hans =>
      cases h
      exact resume_queued hw (by simp [hans]) _
    · simp at h
  | stop =>
    cases h
    refine ⟨fun q j hj => ?_, fun q => ?_, fun q q' j hj j' hj' => ?_⟩
    · exact hw.waiting q j (by cases q <;> exact hj)
    · cases q
      · exact hw.nodup .shared
      · exact hw.nodup (.pinned _)
      · exact hw.nodup (.held _)
    · exact hw.apart q q' j (by cases q <;> exact hj) j' (by cases q' <;> exact hj')

end Queued

end Osodio.Db
