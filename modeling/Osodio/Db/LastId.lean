import Osodio.Db.Jobs

/-!
# Identifiers of inserted rows

`last_id` runs on the worker of the last `exec` of its handler and asks the
connection for its last identifier.  The connection is not reserved, so another
handler may have inserted on it in the meantime.

## Main definitions

- `IdWorld` — a pool with the statements that its connections have executed
- `lastInsertId` — what a connection answers
- `ownExec`, `sinceExec` — the last `exec` of a handler, and what came after it

## Main results

- `lastId_own_iff` — the answer is the handler's own identifier exactly if nobody
  has inserted on that connection since
-/

namespace Osodio.Db

open Osodio.Lib Osodio.Odio

/-- A statement that has succeeded, and the identifier it generated if it was an
    `INSERT`. -/
structure Statement where
  worker : ℕ
  handler : ℕ
  exec : Bool
  id : Option ℕ
  deriving DecidableEq, Repr

/-- An answer to `last_id`. -/
structure IdAnswer where
  handler : ℕ
  id : Option ℕ
  deriving DecidableEq, Repr

/-- A pool with the statements and the answers of its connections, the last ones
    first. -/
structure IdWorld where
  pool : World := {}
  statements : List Statement := []
  /-- The next identifier. -/
  fresh : ℕ := 0
  answers : List IdAnswer := []

/-- `last_insert_id`: the identifier of the last `INSERT` on a connection. -/
def lastInsertId (worker : ℕ) (statements : List Statement) : Option ℕ :=
  statements.findSome? fun s => if s.worker = worker then s.id else none

/-- The last `exec` of a handler. -/
def ownExec (handler : ℕ) (statements : List Statement) : Option Statement :=
  statements.find? fun s => s.handler == handler && s.exec

/-- What was executed after the last `exec` of a handler. -/
def sinceExec (handler : ℕ) (statements : List Statement) : List Statement :=
  statements.takeWhile fun s => !(s.handler == handler && s.exec)

/-- A job that has succeeded on a connection. -/
def IdWorld.done (isInsert : String → Bool) (w : IdWorld) (worker : ℕ) (job : Job) : IdWorld :=
  match job.request.op with
  | .exec | .query =>
    { w with
      statements := ⟨worker, job.handler, job.request.op == .exec,
        if isInsert job.request.sql then some w.fresh else none⟩ :: w.statements
      fresh := w.fresh + 1 }
  | .lastId =>
    { w with answers := ⟨job.handler, lastInsertId worker w.statements⟩ :: w.answers }
  | _ => w

/-- What a step does to the connections. -/
def IdWorld.record (isInsert : String → Bool) (w : IdWorld) : Event → IdWorld
  | .runJob worker (some (.ok _)) =>
    match w.pool.holding worker with
    | some job => w.done isInsert worker job
    | none => w
  | _ => w

/-- One step of the pool, and what it does to the connections. -/
def IdWorld.step (mod : String) (size : ℕ) (isInsert : String → Bool) (w : IdWorld) (e : Event) :
    Option IdWorld :=
  (w.pool.step mod size e).map fun pool => { w.record isInsert e with pool := pool }

/-- A pool of `size` workers for the module `mod`, whose statements that satisfy
    `isInsert` generate identifiers. -/
def identified (mod : String) (size : ℕ) (isInsert : String → Bool) : System IdWorld Event where
  init := {}
  step := IdWorld.step mod size isInsert

/-! ## Where a `last_id` runs -/

/-- The worker of the last `exec` of a handler, once its answer is taken in. -/
def Handler.lastExecAfter (mod : String) (hd : Handler) : Option ℕ :=
  match hd.status with
  | .answered r i o => (runDbSettle hd.ctx r.mod r.op i o).lastExecWorkers.lookup mod
  | _ => hd.ctx.lastExecWorkers.lookup mod

/-- The job asks for what the context of its handler says, and is where it asks to
    be. -/
def Routed (mod : String) (w : World) (q : Place) (j : Job) : Prop :=
  j.request.mod = mod ∧ j.request.pin = pinOf (w.handlers j.handler).ctx j.request.op mod ∧
  match q with
  | .shared => j.request.pin = none
  | .pinned i => j.request.pin = some i
  | .held i => j.request.pin = none ∨ j.request.pin = some i

/-- Every handler remembers the worker of its last `exec`. -/
structure IdInv (mod : String) (w : IdWorld) : Prop where
  queued : Queued w.pool
  routed : ∀ q, ∀ j ∈ w.pool.jobsAt q, Routed mod w.pool q j
  answered : ∀ h r i o, (w.pool.handlers h).status = .answered r i o → r.mod = mod
  last : ∀ h, (w.pool.handlers h).lastExecAfter mod = (ownExec h w.statements).map Statement.worker
  fresh : ∀ s ∈ w.statements, ∀ k, s.id = some k → k < w.fresh
  sorted : w.statements.Pairwise fun s s' => ∀ k k', s.id = some k → s'.id = some k' → k' < k

section Steps

variable {mod : String} {size : ℕ} {isInsert : String → Bool} {w : IdWorld}

theorem init_idInv (mod : String) (size : ℕ) (isInsert : String → Bool) :
    IdInv mod (identified mod size isInsert).init where
  queued := init_queued mod size
  routed q j hj := by cases q <;> simp [identified, World.jobsAt] at hj
  answered h r i o := by simp [identified]
  last h := rfl
  fresh := nofun
  sorted := .nil

/-- An answer other than that of an `exec` leaves the last worker as it is. -/
theorem settle_lastExec (ctx : NativeCtx) (op : DbOp) (i : ℕ) (v : Value) :
    (runDbSettle ctx mod op i (.ok v)).lastExecWorkers.lookup mod =
      if op = .exec then some i else ctx.lastExecWorkers.lookup mod := by
  cases op <;> simp [runDbSettle]

/-- The last `exec` of each handler after a job has succeeded. -/
theorem done_ownExec (i : ℕ) (job : Job) (h : ℕ) :
    (ownExec h (w.done isInsert i job).statements).map Statement.worker =
      if job.handler = h ∧ job.request.op = .exec then some i
      else (ownExec h w.statements).map Statement.worker := by
  unfold IdWorld.done ownExec
  cases job.request.op <;> simp [List.find?_cons]
  by_cases hh : job.handler = h
  · simp [hh]
  · simp [hh, beq_eq_false_iff_ne.2 hh]

/-- The identifiers are given in order, and none is given twice. -/
theorem done_ids (hw : IdInv mod w) (i : ℕ) (job : Job) :
    (∀ s ∈ (w.done isInsert i job).statements, ∀ k, s.id = some k →
        k < (w.done isInsert i job).fresh) ∧
      (w.done isInsert i job).statements.Pairwise
        fun s s' => ∀ k k', s.id = some k → s'.id = some k' → k' < k := by
  have hpush : ∀ exec, (∀ s ∈ (⟨i, job.handler, exec,
        if isInsert job.request.sql then some w.fresh else none⟩ : Statement) :: w.statements,
        ∀ k, s.id = some k → k < w.fresh + 1) ∧
      ((⟨i, job.handler, exec, if isInsert job.request.sql then some w.fresh else none⟩ :
        Statement) :: w.statements).Pairwise
          fun s s' => ∀ k k', s.id = some k → s'.id = some k' → k' < k := by
    intro exec
    have hnew : ∀ k, (if isInsert job.request.sql then some w.fresh else none) = some k →
        k = w.fresh := by
      intro k hk
      split at hk
      · exact (Option.some.inj hk).symm
      · cases hk
    refine ⟨?_, List.pairwise_cons.2 ⟨fun s hs k k' hk hk' => ?_, hw.sorted⟩⟩
    · rintro s hs k hk
      rcases List.mem_cons.1 hs with rfl | hs
      · exact (hnew k hk).symm ▸ Nat.lt_succ_self _
      · exact Nat.lt_succ_of_lt (hw.fresh s hs k hk)
    · exact hnew k hk ▸ hw.fresh s hs k' hk'
  unfold IdWorld.done
  split
  · exact hpush _
  · exact hpush _
  · exact ⟨hw.fresh, hw.sorted⟩
  · exact ⟨hw.fresh, hw.sorted⟩

/-- A job whose handler is left as it was stays where it asks to be. -/
theorem Routed.congr {p p' : World} {q : Place} {j : Job} (h : Routed mod p q j)
    (hctx : (p'.handlers j.handler).ctx = (p.handlers j.handler).ctx) : Routed mod p' q j :=
  ⟨h.1, hctx ▸ h.2.1, h.2.2⟩

theorem suspend_routed (hw : IdInv mod w) {h : ℕ} {op : DbOp} {args : List Value} {r : DbRequest}
    (hrun : (w.pool.handlers h).status = .running)
    (hr : runDbRequest (· == mod) (w.pool.handlers h).ctx op args = .ok r) :
    IdInv mod { w with pool := w.pool.suspend size ⟨h, r⟩ } := by
  obtain ⟨hmod, hop, hpin⟩ := runDbRequest_spec hr
  have hctx : ∀ k, ((w.pool.suspend size ⟨h, r⟩).handlers k).ctx = (w.pool.handlers k).ctx := by
    intro k
    rw [suspend_handlers]
    by_cases hk : k = h
    · subst hk
      simp
    · simp [Function.update_of_ne hk]
  refine ⟨suspend_queued hw.queued hrun, ?_, ?_, fun k => ?_, hw.fresh, hw.sorted⟩
  · rintro q j hj
    rcases mem_suspend hj with hj | ⟨rfl, rfl⟩
    · exact (hw.routed q j hj).congr (hctx _)
    · refine ⟨hmod, by simp only [hpin, hop, hctx], ?_⟩
      unfold DbRequest.target
      cases r.pin with
      | none => rfl
      | some i => rfl
  · intro k r' i o hans
    simp only [suspend_handlers] at hans
    by_cases hk : k = h
    · subst hk
      simp at hans
    · rw [Function.update_of_ne hk] at hans
      exact hw.answered k r' i o hans
  · rw [← hw.last k]
    show Handler.lastExecAfter mod ((w.pool.suspend size ⟨h, r⟩).handlers k) = _
    rw [suspend_handlers]
    by_cases hk : k = h
    · subst hk
      simp [Handler.lastExecAfter, hrun]
    · rw [Function.update_of_ne hk]

theorem take_routed (hw : IdInv mod w) {i : ℕ} {p : World} (hfree : w.pool.holding i = none)
    (h : w.pool.take i = some p) : IdInv mod { w with pool := p } := by
  obtain ⟨-, -, -, -, -, -, -, -, -, hhandlers, -⟩ := take_jobsAt hfree h
  refine ⟨take_queued hw.queued hfree h, ?_, ?_, fun k => ?_, hw.fresh, hw.sorted⟩
  · rintro q j hj
    have hctx : (p.handlers j.handler).ctx = (w.pool.handlers j.handler).ctx := by rw [hhandlers]
    rcases mem_take hfree h hj with ⟨src, hsrc, rfl, hold⟩ | hj
    · obtain ⟨hmod, hpin, hat⟩ := hw.routed src j hold
      refine ⟨hmod, hctx ▸ hpin, ?_⟩
      rcases hsrc with rfl | ⟨rfl, -⟩
      · exact .inr hat
      · exact .inl hat
    · exact (hw.routed q j hj).congr hctx
  · simpa only [hhandlers] using hw.answered
  · rw [← hw.last k]
    show Handler.lastExecAfter mod (p.handlers k) = _
    rw [hhandlers]

/-- A job that has been run is recorded, and its handler will take that in. -/
theorem runJob_routed (hw : IdInv mod w) {i : ℕ} {job : Job} (h : w.pool.holding i = some job)
    (outcome : Option Outcome) :
    IdInv mod { w.record isInsert (.runJob i outcome) with pool := w.pool.runJob i job outcome } := by
  have hmem : job ∈ w.pool.jobsAt (.held i) := by simp [World.jobsAt, h]
  have hjob := hw.routed _ _ hmem
  have hwait := hw.queued.waiting _ _ hmem
  have hrouted : ∀ q, ∀ j ∈ (w.pool.runJob i job outcome).jobsAt q,
      Routed mod (w.pool.runJob i job outcome) q j := by
    rintro q j hj
    refine (hw.routed q j (mem_runJob hj).2).congr ?_
    rw [runJob_handlers outcome (hw.queued.ne_of_runJob h hj)]
  have hanswered : ∀ k r i' o, ((w.pool.runJob i job outcome).handlers k).status =
      .answered r i' o → r.mod = mod := by
    intro k r i' o hans
    by_cases hk : k = job.handler
    · subst hk
      cases outcome with
      | none => exact hw.answered _ r i' o hans
      | some o' =>
        simp only [World.runJob, Function.update_self, HandlerStatus.answered.injEq] at hans
        exact hans.1 ▸ hjob.1
    · rw [runJob_handlers outcome hk] at hans
      exact hw.answered k r i' o hans
  -- a job that does not succeed changes nothing that is remembered
  have hfail : (∀ v, outcome ≠ some (.ok v)) → ∀ k,
      ((w.pool.runJob i job outcome).handlers k).lastExecAfter mod =
        (w.pool.handlers k).lastExecAfter mod := by
    intro hno k
    by_cases hk : k = job.handler
    · subst hk
      cases outcome with
      | none => rfl
      | some o =>
        cases o with
        | ok v => exact absurd rfl (hno v)
        | _ => simp [World.runJob, Handler.lastExecAfter, hwait, runDbSettle]
    · rw [runJob_handlers outcome hk]
  have hq := runJob_queued hw.queued h outcome
  cases outcome with
  | none =>
    exact ⟨hq, hrouted, hanswered, fun k => (hfail (by simp) k).trans (hw.last k), hw.fresh, hw.sorted⟩
  | some o =>
    cases o with
    | openFailed e | failed e =>
      exact ⟨hq, hrouted, hanswered, fun k => (hfail (by simp) k).trans (hw.last k), hw.fresh,
        hw.sorted⟩
    | ok v =>
      have hrec : w.record isInsert (.runJob i (some (.ok v))) = w.done isInsert i job := by
        simp [IdWorld.record, h]
      rw [hrec]
      obtain ⟨hfresh, hsorted⟩ := @done_ids mod isInsert w hw i job
      refine ⟨hq, hrouted, hanswered, fun k => ?_, hfresh, hsorted⟩
      show Handler.lastExecAfter mod ((w.pool.runJob i job (some (.ok v))).handlers k) =
        (ownExec k (w.done isInsert i job).statements).map Statement.worker
      rw [done_ownExec, ← hw.last k]
      by_cases hk : k = job.handler
      · subst hk
        simp [World.runJob, Handler.lastExecAfter, hwait, hjob.1, settle_lastExec]
      · rw [runJob_handlers _ hk, if_neg fun hc => hk hc.1.symm]

/-- Taking an answer in: what the handler remembers is what it was going to. -/
theorem resume_routed (hw : IdInv mod w) {h i : ℕ} {r : DbRequest} {o : Outcome}
    (hans : (w.pool.handlers h).status = .answered r i o) :
    IdInv mod { w with pool := { w.pool with
      handlers := Function.update w.pool.handlers h
        { ctx := runDbSettle (w.pool.handlers h).ctx r.mod r.op i o, status := .running } } } := by
  refine ⟨resume_queued hw.queued (by simp [hans]) _, ?_, ?_, fun k => ?_, hw.fresh, hw.sorted⟩
  · rintro q j hj
    replace hj : j ∈ w.pool.jobsAt q := by cases q <;> exact hj
    refine (hw.routed q j hj).congr ?_
    simp [Function.update_of_ne (hw.queued.not_mem (h := h) (by simp [hans]) q j hj)]
  · intro k r' i' o' hk
    by_cases h' : k = h
    · subst h'
      simp at hk
    · simp only [Function.update_of_ne h'] at hk
      exact hw.answered k r' i' o' hk
  · rw [← hw.last k]
    by_cases h' : k = h
    · subst h'
      simp [Handler.lastExecAfter, hans, hw.answered _ _ _ _ hans]
    · simp [Function.update_of_ne h']

theorem step_idInv (hw : IdInv mod w) {e : Event} {w' : IdWorld}
    (h : w.step mod size isInsert e = some w') : IdInv mod w' := by
  obtain ⟨p, hp, rfl⟩ := Option.map_eq_some_iff.1 h
  cases e with
  | await k op args =>
    simp only [World.step] at hp
    split at hp
    · next hrun =>
      split at hp
      · cases hp
        exact hw
      · next r hr =>
        cases hp
        exact suspend_routed hw hrun hr
    · simp at hp
  | dequeue i =>
    simp only [World.step, Option.ite_none_right_eq_some, Option.isNone_iff_eq_none] at hp
    exact take_routed hw hp.1.2 hp.2
  | runJob i outcome =>
    simp only [World.step, Option.map_eq_some_iff] at hp
    obtain ⟨job, hjob, rfl⟩ := hp
    exact runJob_routed hw hjob outcome
  | resume k =>
    simp only [World.step] at hp
    split at hp
    · next r i outcome hans =>
      cases hp
      exact resume_routed hw hans
    · simp at hp
  | stop =>
    have hq := step_queued hw.queued hp
    cases hp
    refine ⟨hq, fun q j hj => ?_, hw.answered, hw.last, hw.fresh, hw.sorted⟩
    exact (hw.routed q j (by cases q <;> exact hj)).congr rfl

end Steps

/-! ## The answer -/

/-- The statements of a handler's connection, from its last `exec` on. -/
theorem eq_since_of_ownExec {h : ℕ} {l : List Statement} {r : Statement}
    (hown : ownExec h l = some r) : ∃ rest, l = sinceExec h l ++ r :: rest := by
  obtain ⟨hr, before, rest, rfl, hbefore⟩ := List.find?_eq_some_iff_append.1 hown
  refine ⟨rest, ?_⟩
  have hsince : sinceExec h (before ++ r :: rest) = before := by
    rw [sinceExec, List.takeWhile_append_of_pos hbefore, List.takeWhile_cons_of_neg (by simp [hr])]
    exact List.append_nil before
  rw [hsince]

/-- A connection answers with an identifier of its past exactly if nothing was
    inserted on it since. -/
theorem lastInsertId_append {since rest : List Statement} {r : Statement} {k : ℕ}
    (hid : r.id = some k) (hsorted : (since ++ r :: rest).Pairwise
      fun s s' => ∀ k k', s.id = some k → s'.id = some k' → k' < k) :
    lastInsertId r.worker (since ++ r :: rest) = some k ↔
      ∀ s ∈ since, s.worker = r.worker → s.id = none := by
  have hr : lastInsertId r.worker (r :: rest) = some k := by
    simp [lastInsertId, hid]
  constructor
  · intro h s hs hworker
    by_contra hne
    obtain ⟨k', hk'⟩ := Option.ne_none_iff_exists'.1 hne
    -- the answer is one of the identifiers given since
    have hsome : (since.findSome? fun s => if s.worker = r.worker then s.id else none).isSome := by
      rw [List.isSome_findSome?, List.any_eq_true]
      exact ⟨s, hs, by simp [hworker, hk']⟩
    obtain ⟨k'', hk''⟩ := Option.isSome_iff_exists.1 hsome
    have heq : k'' = k := by
      have hall : lastInsertId r.worker (since ++ r :: rest) = some k'' := by
        simp [lastInsertId, List.findSome?_append, hk'']
      exact Option.some.inj (hall.symm.trans h)
    obtain ⟨s', hs', hid'⟩ := List.exists_of_findSome?_eq_some hk''
    have hs'id : s'.id = some k := by
      split at hid'
      · exact heq ▸ hid'
      · cases hid'
    exact absurd ((List.pairwise_append.1 hsorted).2.2 s' hs' r (List.mem_cons_self ..) k k hs'id hid)
      (Nat.lt_irrefl k)
  · intro h
    have hnone : (since.findSome? fun s => if s.worker = r.worker then s.id else none) = none := by
      rw [List.findSome?_eq_none_iff]
      rintro s hs
      split
      · next hworker => exact h s hs hworker
      · rfl
    rw [lastInsertId, List.findSome?_append, hnone]
    exact hr

/-- **The answer to `last_id`**: a handler outside a transaction is given the
    identifier of its own last `exec` exactly if nothing was inserted since on the
    connection of that `exec`. -/
theorem lastId_own_iff {mod : String} {size : ℕ} {isInsert : String → Bool} {es : List Event}
    {w w' : IdWorld} (hrun : (identified mod size isInsert).run es = some w) {i : ℕ} {job : Job}
    (hjob : w.pool.holding i = some job) (hop : job.request.op = .lastId)
    (hpin : (w.pool.handlers job.handler).ctx.pinnedWorkers.lookup mod = none) {r : Statement}
    (hown : ownExec job.handler w.statements = some r) {k : ℕ} (hid : r.id = some k) {v : Value}
    (hstep : w.step mod size isInsert (.runJob i (some (.ok v))) = some w') :
    w'.answers.head? = some ⟨job.handler, some k⟩ ↔
      ∀ s ∈ sinceExec job.handler w.statements, s.worker = r.worker → s.id = none := by
  have hw : IdInv mod w := (identified mod size isInsert).run_induction
    (init_idInv mod size isInsert) (fun s e t hs => step_idInv hs) hrun
  have hmem : job ∈ w.pool.jobsAt (.held i) := by simp [World.jobsAt, hjob]
  obtain ⟨-, hasked, hheld⟩ := hw.routed _ _ hmem
  -- the job was sent to the worker of the last `exec`, and that worker holds it
  have hworker : i = r.worker := by
    have hlast := hw.last job.handler
    rw [Handler.lastExecAfter, hw.queued.waiting _ _ hmem, hown] at hlast
    have hp : job.request.pin = some r.worker := by
      rw [hasked, pinOf, hpin]
      simpa [hop] using hlast
    have hheld : job.request.pin = none ∨ job.request.pin = some i := hheld
    rw [hp] at hheld
    rcases hheld with h | h
    · cases h
    · exact (Option.some.inj h).symm
  obtain ⟨p, -, rfl⟩ := Option.map_eq_some_iff.1 hstep
  have hrec : w.record isInsert (.runJob i (some (.ok v))) = w.done isInsert i job := by
    simp [IdWorld.record, hjob]
  have hans : (w.done isInsert i job).answers.head? =
      some ⟨job.handler, lastInsertId r.worker w.statements⟩ := by
    simp [IdWorld.done, hop, hworker]
  obtain ⟨rest, hrest⟩ := eq_since_of_ownExec hown
  have hsorted := hw.sorted
  rw [hrest] at hsorted
  rw [← lastInsertId_append hid hsorted, ← hrest]
  show (w.record isInsert _).answers.head? = _ ↔ _
  rw [hrec, hans]
  simp

/-- `INSERT` by handler 0, then the statement `sql` by handler 1 on the same
    connection, then `last_id` of handler 0 up to where the worker holds it. -/
def insertThenLastId (sql : String) : List Event :=
  [.await 0 .exec [.str "sqlite", .str "insert"], .dequeue 0, .runJob 0 (some (.ok (.int 1))),
    .resume 0, .await 1 .exec [.str "sqlite", .str sql], .dequeue 0,
    .runJob 0 (some (.ok (.int 1))), .await 0 .lastId [.str "sqlite"], .dequeue 0]

/-- Another handler has updated a row, and the answer is the handler's own. -/
theorem lastId_own_iff_update : ∃ w w',
    (identified "sqlite" 1 (· == "insert")).run (insertThenLastId "update") = some w ∧
    w.step "sqlite" 1 (· == "insert") (.runJob 0 (some (.ok (.int 0)))) = some w' ∧
    w'.answers.head? = some ⟨0, some 0⟩ := by
  refine ⟨_, _, rfl, rfl, ?_⟩
  refine (@lastId_own_iff "sqlite" 1 (· == "insert") (insertThenLastId "update") _ _ rfl 0 _ rfl rfl
    rfl ⟨0, 0, true, some 0⟩ rfl 0 rfl (.int 0) rfl).2 ?_
  show ∀ s ∈ [(⟨0, 1, true, none⟩ : Statement)], s.worker = 0 → s.id = none
  decide

/-- Another handler has inserted a row, and the answer is its identifier. -/
theorem lastId_of_another : ∃ w w' job r,
    (identified "sqlite" 1 (· == "insert")).run (insertThenLastId "insert") = some w ∧
    w.pool.holding 0 = some job ∧ job.handler = 0 ∧ job.request.op = .lastId ∧
    (w.pool.handlers 0).ctx.pinnedWorkers.lookup "sqlite" = none ∧
    ownExec 0 w.statements = some r ∧ r.id = some 0 ∧
    w.step "sqlite" 1 (· == "insert") (.runJob 0 (some (.ok (.int 1)))) = some w' ∧
    w'.answers.head? = some ⟨0, some 1⟩ :=
  ⟨_, _, _, _, rfl, rfl, rfl, rfl, rfl, rfl, rfl, rfl, rfl⟩

end Osodio.Db
