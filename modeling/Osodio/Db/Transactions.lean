import Osodio.Db.Jobs

/-!
# Isolation of transactions

A transaction reserves the connection that opened it for one handler.  Its own
statements always go to that connection; but a worker in an open transaction may
still take a job of another handler from the shared queue.

## Main definitions

- `openTransaction` — the handler whose transaction is open on a connection
- `Isolated` — what is executed inside a transaction belongs to it
- `ReservesConnection` — a worker in an open transaction leaves the shared queue alone

## Main results

- `step_inv` — a step that reserves the connection keeps the invariant
- `isolated_of_reserves` — the runs whose steps all do are isolated
-/

namespace Osodio.Db

open Osodio.Lib Osodio.Odio

/-- What one executed statement does to the transaction on `worker`'s connection.
    A `COMMIT` that fails leaves it open. -/
def transact (worker : ℕ) (owner : Option ℕ) (e : Executed) : Option ℕ :=
  if e.worker = worker ∧ e.success then
    match e.op with
    | .begin => some e.handler
    | .commit | .rollback => if owner = some e.handler then none else owner
    | _ => owner
  else owner

/-- The handler whose transaction is open on the connection of `worker`. -/
def openTransaction (worker : ℕ) (log : List Executed) : Option ℕ :=
  log.foldl (transact worker) none

/-- While a transaction is open, its connection executes only statements of its
    handler, and the statements of its handler are executed only there. -/
def Isolated (log : List Executed) : Prop :=
  ∀ before e after, log = before ++ e :: after →
    (∀ h, openTransaction e.worker before = some h → e.handler = h) ∧
    ∀ i, openTransaction i before = some e.handler → e.worker = i

/-- A worker whose connection is in an open transaction takes nothing from the
    shared queue. -/
def ReservesConnection (w : World) : Event → Prop
  | .dequeue i => w.pinned i = [] → openTransaction i w.log = none
  | _ => True

theorem openTransaction_concat (worker : ℕ) (log : List Executed) (e : Executed) :
    openTransaction worker (log ++ [e]) = transact worker (openTransaction worker log) e := by
  simp [openTransaction]

theorem Isolated.concat {log : List Executed} {e : Executed} (h : Isolated log)
    (hown : ∀ h, openTransaction e.worker log = some h → e.handler = h)
    (hthere : ∀ i, openTransaction i log = some e.handler → e.worker = i) :
    Isolated (log ++ [e]) := by
  rintro before e' after heq
  rcases List.eq_nil_or_concat after with rfl | ⟨after, last, rfl⟩
  · obtain ⟨rfl, he⟩ := List.append_inj' heq rfl
    obtain rfl : e = e' := by simpa using he
    exact ⟨hown, hthere⟩
  · have hlog : log = before ++ e' :: after := by
      have hcut : log ++ [e] = (before ++ e' :: after) ++ [last] := by simpa using heq
      exact (List.append_inj' hcut rfl).1
    exact h before e' after hlog

/-! ## The transaction of a handler -/

/-- The worker that the module is pinned to in the context of a handler. -/
def Handler.pin (mod : String) (hd : Handler) : Option ℕ :=
  hd.ctx.pinnedWorkers.lookup mod

/-- The same once the answer that has been posted is taken in. -/
def Handler.pinAfter (mod : String) (hd : Handler) : Option ℕ :=
  match hd.status with
  | .answered r i o => (runDbSettle hd.ctx r.mod r.op i o).pinnedWorkers.lookup mod
  | _ => hd.pin mod

/-- A job is where its handler's transaction is.  Only a `last_id` is sent to a
    worker without a transaction. -/
def Placed (mod : String) (w : World) (q : Place) (j : Job) : Prop :=
  j.request.mod = mod ∧
  match q with
  | .shared => (w.handlers j.handler).pin mod = none
  | .pinned i =>
    (w.handlers j.handler).pin mod = some i ∨
      (w.handlers j.handler).pin mod = none ∧ j.request.op = .lastId
  | .held i =>
    (w.handlers j.handler).pin mod = some i ∨
      (w.handlers j.handler).pin mod = none ∧
        (j.request.op = .lastId ∨ openTransaction i w.log = none)

/-- A handler has one job at most, which is where its transaction is, and the
    workers pinned are those with an open transaction. -/
structure Inv (mod : String) (w : World) : Prop where
  waiting : ∀ q, ∀ j ∈ w.jobsAt q, (w.handlers j.handler).status = .waiting
  nodup : ∀ q, ((w.jobsAt q).map Job.handler).Nodup
  apart : ∀ q q', ∀ j ∈ w.jobsAt q, ∀ j' ∈ w.jobsAt q', j.handler = j'.handler → q = q'
  placed : ∀ q, ∀ j ∈ w.jobsAt q, Placed mod w q j
  owner : ∀ h i, (w.handlers h).pinAfter mod = some i ↔ openTransaction i w.log = some h
  isolated : Isolated w.log

theorem init_inv (mod : String) (size : ℕ) : Inv mod (pool mod size).init where
  waiting q j hj := by cases q <;> simp [pool, World.jobsAt] at hj
  nodup q := by cases q <;> simp [pool, World.jobsAt]
  apart q _ j hj := by cases q <;> simp [pool, World.jobsAt] at hj
  placed q j hj := by cases q <;> simp [pool, World.jobsAt] at hj
  owner h i := by simp [pool, Handler.pinAfter, Handler.pin, openTransaction]
  isolated before e after h := by simp [pool] at h

theorem Inv.queued {mod : String} {w : World} (hw : Inv mod w) : Queued w :=
  ⟨hw.waiting, hw.nodup, hw.apart⟩

/-- Without a transaction only a `last_id` may be sent to one worker. -/
theorem pinOf_cases (mod : String) (op : DbOp) (hd : Handler) :
    (∃ i, hd.pin mod = some i ∧ pinOf hd.ctx op mod = some i) ∨
      hd.pin mod = none ∧ pinOf hd.ctx op mod = none ∨
      hd.pin mod = none ∧ op = .lastId ∧ ∃ i, pinOf hd.ctx op mod = some i := by
  unfold pinOf Handler.pin
  cases hd.ctx.pinnedWorkers.lookup mod with
  | some i => exact .inl ⟨i, rfl, rfl⟩
  | none =>
    by_cases hop : op = .lastId
    · cases hd.ctx.lastExecWorkers.lookup mod with
      | some i => exact .inr (.inr ⟨rfl, hop, i, by simp [hop]⟩)
      | none => exact .inr (.inl ⟨rfl, by simp [hop]⟩)
    · exact .inr (.inl ⟨rfl, by simp [hop]⟩)

/-! ## One step -/

section Steps
variable {mod : String} {w : World}

/-- Awaiting: the handler is running, so it has no job, and the new one goes
    where its transaction is. -/
theorem suspend_inv (hw : Inv mod w) {size h : ℕ} {op : DbOp} {args : List Value} {r : DbRequest}
    (hrun : (w.handlers h).status = .running)
    (hr : runDbRequest (· == mod) (w.handlers h).ctx op args = .ok r) :
    Inv mod (w.suspend size ⟨h, r⟩) := by
  obtain ⟨hmod, hop, hpin⟩ := runDbRequest_spec hr
  have hq := @suspend_queued w hw.queued size ⟨h, r⟩ hrun
  have hpins : ∀ k, ((w.suspend size ⟨h, r⟩).handlers k).pin mod = (w.handlers k).pin mod := by
    intro k
    rw [suspend_handlers]
    by_cases hk : k = h
    · subst hk
      simp [Handler.pin]
    · simp [Function.update_of_ne hk]
  refine ⟨hq.waiting, hq.nodup, hq.apart, ?_, ?_, ?_⟩
  · rintro q j hj
    rcases mem_suspend hj with hj | ⟨rfl, rfl⟩
    · have := hw.placed q j hj
      cases q <;> simpa [Placed, hpins, suspend_log] using this
    · refine ⟨hmod, ?_⟩
      rcases pinOf_cases mod op (w.handlers h) with ⟨i, h1, h2⟩ | ⟨h1, h2⟩ | ⟨h1, hlast, i, h2⟩
      · simp [DbRequest.target, hpin, h2, hpins, h1]
      · simp [DbRequest.target, hpin, h2, hpins, h1]
      · subst hlast
        simp [DbRequest.target, hpin, h2, hpins, h1, hop]
  · intro k i
    rw [suspend_log, ← hw.owner k i, suspend_handlers]
    by_cases hk : k = h
    · subst hk
      simp [Handler.pinAfter, Handler.pin, hrun]
    · simp [Function.update_of_ne hk]
  · rw [suspend_log]
    exact hw.isolated

/-- Taking a job from the shared queue is sound on a connection without a
    transaction. -/
theorem take_inv (hw : Inv mod w) {w' : World} {i : ℕ} (hfree : w.holding i = none)
    (hfair : w.pinned i = [] → openTransaction i w.log = none) (h : w.take i = some w') :
    Inv mod w' := by
  obtain ⟨-, -, -, -, -, -, -, -, -, hhandlers, hlog⟩ := take_jobsAt hfree h
  have hq := take_queued hw.queued hfree h
  refine ⟨hq.waiting, hq.nodup, hq.apart, ?_, ?_, ?_⟩
  · rintro q j hj
    rcases mem_take hfree h hj with ⟨src, hsrc, rfl, hold⟩ | hj
    · obtain ⟨hmod, hp⟩ := hw.placed src _ hold
      refine ⟨hmod, ?_⟩
      rw [hhandlers, hlog]
      rcases hsrc with rfl | ⟨rfl, hnil⟩
      · exact hp.imp_right fun ⟨h1, h2⟩ => ⟨h1, .inl h2⟩
      · exact .inr ⟨hp, .inr (hfair hnil)⟩
    · have := hw.placed q j hj
      cases q <;> simpa [Placed, hhandlers, hlog] using this
  · simpa [hhandlers, hlog] using hw.owner
  · simpa [hlog] using hw.isolated

/-- The handler whose answer is taken in has no job. -/
theorem resume_inv (hw : Inv mod w) {h i : ℕ} {r : DbRequest} {o : Outcome}
    (hans : (w.handlers h).status = .answered r i o) :
    Inv mod { w with
      handlers := Function.update w.handlers h
        { ctx := runDbSettle (w.handlers h).ctx r.mod r.op i o, status := .running } } := by
  have hnew := hw.queued.not_mem (h := h) (by simp [hans])
  have hother : ∀ q, ∀ j ∈ w.jobsAt q, Function.update w.handlers h
      { ctx := runDbSettle (w.handlers h).ctx r.mod r.op i o, status := .running } j.handler =
      w.handlers j.handler := fun q j hj => Function.update_of_ne (hnew q j hj) _ _
  refine ⟨(resume_queued hw.queued (by simp [hans]) _).waiting, hw.nodup, hw.apart, ?_, ?_,
    hw.isolated⟩
  · rintro q j hj
    replace hj : j ∈ w.jobsAt q := by cases q <;> exact hj
    have := hw.placed q j hj
    cases q <;> simpa only [Placed, hother _ j hj] using this
  · intro k l
    rw [← hw.owner k l]
    by_cases hk : k = h
    · subst hk
      simp [Handler.pinAfter, hans, Handler.pin]
    · simp [Function.update_of_ne hk]

/-- A job of a handler with a transaction is held by the worker pinned for it;
    one without is held by a worker that is in no transaction. -/
theorem Inv.held (hw : Inv mod w) {i : ℕ} {job : Job} (h : w.holding i = some job)
    (hop : job.request.op ≠ .lastId) :
    (w.handlers job.handler).pin mod = some i ∨
      (w.handlers job.handler).pin mod = none ∧ openTransaction i w.log = none :=
  (hw.placed (.held i) job (by simp [World.jobsAt, h])).2.imp_right
    fun hp => ⟨hp.1, hp.2.resolve_left hop⟩

/-- While a handler waits, the transaction it has is on the worker it is pinned to. -/
theorem Inv.pin_iff (hw : Inv mod w) {i : ℕ} {job : Job} (h : w.holding i = some job) (k : ℕ) :
    (w.handlers job.handler).pin mod = some k ↔ openTransaction k w.log = some job.handler := by
  have hwait := hw.waiting (.held i) job (by simp [World.jobsAt, h])
  rw [← hw.owner, Handler.pinAfter, hwait]

/-- What a held job executes keeps transactions isolated. -/
theorem runJob_isolated (hw : Inv mod w) {i : ℕ} {job : Job} (h : w.holding i = some job)
    (outcome : Option Outcome) : Isolated (w.log ++ executedBy i job outcome) := by
  have hone : job.request.op ≠ .lastId → ∀ success,
      Isolated (w.log ++ [⟨i, job.handler, job.request.op, success⟩]) := by
    intro hop success
    refine hw.isolated.concat (fun k hk => ?_) fun k hk => ?_
    · rcases hw.held h hop with hp | ⟨-, hn⟩
      · exact Option.some.inj (((hw.pin_iff h i).1 hp).symm.trans hk)
      · exact absurd (hn.symm.trans hk) (by simp)
    · have hk := (hw.pin_iff h k).2 hk
      rcases hw.held h hop with hp | ⟨hn, -⟩
      · exact Option.some.inj (hp.symm.trans hk)
      · exact absurd (hn.symm.trans hk) (by simp)
  unfold executedBy
  split
  · simpa using hw.isolated
  · next hop => split <;> first | simpa using hw.isolated | exact hone hop _

theorem openTransaction_failed (k : ℕ) (log : List Executed) (e : Executed) (h : e.success = false) :
    openTransaction k (log ++ [e]) = openTransaction k log := by
  simp [openTransaction_concat, transact, h]

/-- A job that does not succeed opens and closes nothing. -/
theorem openTransaction_executedBy {i : ℕ} {job : Job} {outcome : Option Outcome}
    (h : ∀ v, outcome ≠ some (.ok v)) (k : ℕ) :
    openTransaction k (w.log ++ executedBy i job outcome) = openTransaction k w.log := by
  unfold executedBy
  split
  · simp
  · split
    · simp
    · exact openTransaction_failed _ _ _ rfl
    · exact openTransaction_failed _ _ _ rfl
    · next v => exact absurd rfl (h v)

theorem openTransaction_ok (i : ℕ) (job : Job) (v : Value) (l : ℕ) :
    openTransaction l (w.log ++ executedBy i job (some (.ok v))) =
      match job.request.op with
      | .begin => if i = l then some job.handler else openTransaction l w.log
      | .commit | .rollback =>
        if i = l ∧ openTransaction l w.log = some job.handler then none
        else openTransaction l w.log
      | _ => openTransaction l w.log := by
  unfold executedBy
  cases hop : job.request.op <;> by_cases hil : i = l <;>
    simp [openTransaction_concat, transact, hil]

/-- A job that succeeds opens or closes the transaction that its handler will be
    pinned by or released from. -/
theorem owner_ok (hw : Inv mod w) {i : ℕ} {job : Job} (h : w.holding i = some job) (v : Value)
    (k l : ℕ) :
    (if k = job.handler then
        (runDbSettle (w.handlers k).ctx mod job.request.op i (.ok v)).pinnedWorkers.lookup mod
      else (w.handlers k).pinAfter mod) = some l ↔
      openTransaction l (w.log ++ executedBy i job (some (.ok v))) = some k := by
  have hown := hw.owner k l
  have hpin := hw.pin_iff h l
  -- the transaction of the handler, if any, and the one of the connection
  have hheld := hw.held h
  have howner := hw.pin_iff h i
  rw [settle_lookup, openTransaction_ok]
  by_cases hk : k = job.handler
  · subst hk
    have hclose : job.request.op ≠ .lastId → (none = some l ↔
        (if i = l ∧ openTransaction l w.log = some job.handler then none
          else openTransaction l w.log) = some job.handler) := by
      intro hop
      simp only [reduceCtorEq, false_iff]
      split
      · simp
      · next hn =>
        rintro ho
        rcases hheld hop with hp | ⟨hp, -⟩
        · exact hn ⟨Option.some.inj (hp.symm.trans (hpin.2 ho)), ho⟩
        · exact absurd (hp.symm.trans (hpin.2 ho)) (by simp)
    rw [if_pos rfl]
    cases hop : job.request.op with
    | query => exact hpin
    | exec => exact hpin
    | lastId => exact hpin
    | begin =>
      rw [hop] at hheld
      by_cases hil : i = l
      · simp [hil]
      · simp only [hil, if_false, ← hpin, Option.some.injEq, false_iff]
        rintro hp
        rcases hheld (by simp) with hp' | ⟨hp', -⟩
        · exact hil (Option.some.inj (hp'.symm.trans hp))
        · exact absurd (hp'.symm.trans hp) (by simp)
    | commit => exact hclose (by simp [hop])
    | rollback => exact hclose (by simp [hop])
  · have hclose : openTransaction l w.log = some k ↔
        (if i = l ∧ openTransaction l w.log = some job.handler then none
          else openTransaction l w.log) = some k := by
      split
      · next ho => simp [ho.2, Ne.symm hk]
      · rfl
    rw [if_neg hk, hown]
    cases hop : job.request.op with
    | query => rfl
    | exec => rfl
    | lastId => rfl
    | begin =>
      rw [hop] at hheld
      by_cases hil : i = l
      · subst hil
        simp only [if_true, Option.some.injEq, Ne.symm hk, iff_false]
        rintro ho
        rcases hheld (by simp) with hp | ⟨-, hn⟩
        · exact hk (Option.some.inj (ho.symm.trans (howner.1 hp)))
        · exact absurd (hn.symm.trans ho) (by simp)
      · simp [hil]
    | commit => exact hclose
    | rollback => exact hclose

/-- Running a job: the handler is answered and has no job any more. -/
theorem runJob_inv (hw : Inv mod w) {i : ℕ} {job : Job} (h : w.holding i = some job)
    (outcome : Option Outcome) : Inv mod (w.runJob i job outcome) := by
  have hjob : job ∈ w.jobsAt (.held i) := by simp [World.jobsAt, h]
  have hsame {k : ℕ} (hk : k ≠ job.handler) : (w.runJob i job outcome).handlers k = w.handlers k :=
    runJob_handlers outcome hk
  have hq := runJob_queued hw.queued h outcome
  refine ⟨hq.waiting, hq.nodup, hq.apart, ?_, ?_, runJob_isolated hw h outcome⟩
  · rintro q j hj
    have hother := hw.queued.ne_of_runJob h hj
    obtain ⟨hne, hjw⟩ := mem_runJob hj
    have hp := hw.placed q j hjw
    cases q with
    | held k =>
      have hk : i ≠ k := fun hk => hne (hk ▸ rfl)
      have hlog : openTransaction k (w.runJob i job outcome).log = openTransaction k w.log := by
        simp only [World.runJob, executedBy]
        split
        · simp
        · split <;> simp [openTransaction_concat, transact, hk]
      simpa only [Placed, hsame hother, hlog] using hp
    | _ => simpa only [Placed, hsame hother] using hp
  · intro k l
    have hmod := (hw.placed _ job hjob).1
    have hwait := hw.waiting _ job hjob
    have hfail : (∀ v, outcome ≠ some (.ok v)) →
        ((w.runJob i job outcome).handlers k).pinAfter mod = (w.handlers k).pinAfter mod →
        (((w.runJob i job outcome).handlers k).pinAfter mod = some l ↔
          openTransaction l (w.runJob i job outcome).log = some k) := by
      intro hno heq
      rw [heq, hw.owner k l]
      exact iff_of_eq (congrArg (· = some k) (openTransaction_executedBy hno l).symm)
    have hpin : ∀ o, outcome = some o → ((w.runJob i job outcome).handlers k).pinAfter mod =
        if k = job.handler then
          (runDbSettle (w.handlers k).ctx mod job.request.op i o).pinnedWorkers.lookup mod
        else (w.handlers k).pinAfter mod := by
      rintro o rfl
      by_cases hk : k = job.handler
      · subst hk
        simp [World.runJob, Handler.pinAfter, hmod]
      · rw [hsame hk, if_neg hk]
    have hkeep : ∀ o, outcome = some o →
        (∀ ctx, runDbSettle ctx mod job.request.op i o = ctx) →
        ((w.runJob i job outcome).handlers k).pinAfter mod = (w.handlers k).pinAfter mod := by
      rintro o ho hctx
      rw [hpin o ho, hctx]
      split
      · next hk =>
        subst hk
        rw [Handler.pinAfter, hwait]
        rfl
      · rfl
    cases outcome with
    | none => exact hfail (by simp) rfl
    | some o =>
      cases o with
      | openFailed e => exact hfail (by simp) (hkeep _ rfl fun _ => rfl)
      | failed e => exact hfail (by simp) (hkeep _ rfl fun _ => rfl)
      | ok v =>
        rw [hpin _ rfl]
        exact owner_ok hw h v k l

/-- One step that reserves the connections in a transaction keeps the invariant. -/
theorem step_inv {size : ℕ} {e : Event} {w' : World} (hw : Inv mod w)
    (hreserve : ReservesConnection w e) (h : w.step mod size e = some w') : Inv mod w' := by
  cases e with
  | await k op args =>
    simp only [World.step] at h
    split at h
    · next hrun =>
      split at h
      · cases h
        exact hw
      · next r hr =>
        cases h
        exact suspend_inv hw hrun hr
    · simp at h
  | dequeue i =>
    simp only [World.step, Option.ite_none_right_eq_some, Option.isNone_iff_eq_none] at h
    exact take_inv hw h.1.2 hreserve h.2
  | runJob i outcome =>
    simp only [World.step, Option.map_eq_some_iff] at h
    obtain ⟨job, hjob, rfl⟩ := h
    exact runJob_inv hw hjob outcome
  | resume k =>
    simp only [World.step] at h
    split at h
    · next r i outcome hans =>
      cases h
      exact resume_inv hw hans
    · simp at h
  | stop =>
    cases h
    have hq := @step_queued w mod size .stop _ hw.queued rfl
    refine ⟨hq.waiting, hq.nodup, hq.apart, fun q j hj => ?_, hw.owner, hw.isolated⟩
    have := hw.placed q j (by cases q <;> exact hj)
    cases q <;> exact this

end Steps

/-- Transactions are isolated for every number of workers, all handlers and every
    schedule in which no worker serves the shared queue while a transaction is
    open on its connection. -/
theorem isolated_of_reserves (mod : String) (size : ℕ) (events : List Event) (w : World)
    (hreserve : (pool mod size).Meets ReservesConnection events)
    (hrun : (pool mod size).run events = some w) : Isolated w.log :=
  ((pool mod size).guarded_induction (init_inv mod size)
    (fun _ _ _ hw hr hstep => step_inv hw hr hstep) hreserve hrun).isolated

/-- One handler in a transaction and one outside, with a worker for each. -/
theorem isolated_of_reserves_two :
    Isolated [⟨0, 0, .begin, true⟩, ⟨1, 1, .query, true⟩, ⟨0, 0, .commit, true⟩] :=
  isolated_of_reserves "db" 2
    [.await 0 .begin [.str "db"], .dequeue 0, .runJob 0 (some (.ok (.bool true))), .resume 0,
      .await 1 .query [.str "db", .str "select 1"], .dequeue 1, .runJob 1 (some (.ok (.list 0))),
      .await 0 .commit [.str "db"], .dequeue 0, .runJob 0 (some (.ok (.bool true)))] _
    (.cons trivial rfl <| .cons (fun _ => rfl) rfl <| .cons trivial rfl <| .cons trivial rfl <|
      .cons trivial rfl <| .cons (fun _ => rfl) rfl <| .cons trivial rfl <| .cons trivial rfl <|
      .cons (fun h => nomatch h) rfl <| .cons trivial rfl trivial) rfl

/-- With one worker, a query of another handler runs inside the transaction. -/
theorem query_in_transaction :
    ∃ w, (pool "db" 1).run [.await 0 .begin [.str "db"], .dequeue 0,
        .runJob 0 (some (.ok (.bool true))), .await 1 .query [.str "db", .str "select 1"],
        .dequeue 0, .runJob 0 (some (.ok (.list 0)))] = some w ∧
      w.log = [⟨0, 0, .begin, true⟩, ⟨0, 1, .query, true⟩] ∧ ¬ Isolated w.log := by
  refine ⟨_, rfl, rfl, fun h => ?_⟩
  have hforeign := (h [⟨0, 0, .begin, true⟩] ⟨0, 1, .query, true⟩ [] rfl).1 0 (by decide)
  exact absurd hforeign (by decide)

end Osodio.Db
