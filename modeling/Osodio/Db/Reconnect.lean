import Osodio.Db.RunDb
import Osodio.Lib.Transition
import Mathlib.Data.List.Basic

/-!
# Connections that are lost

Before every statement `run_db` opens the connection of its worker, and a driver
silently replaces one that the server has dropped.  The transaction of the old one
is gone then, but the handler still believes that it is inside.

## Main definitions

- `Engine`, `Conn` — a driver and one of its connections
- `openConn` — `open`, which replaces a connection that was dropped
- `runStatement` — a statement on a connection
- `Session.step` — one operation of a handler, or a connection that is dropped
- `Atomic` — what transactions promise
- `OnItsConnection` — an operation in a transaction runs where `BEGIN` ran

## Main results

- `atomic_of_onItsConnection` — the runs that lose no connection inside a
  transaction keep its promise
-/

namespace Osodio.Db

open Osodio.Lib Osodio.Odio

/-! ## Connections -/

/-- The drivers that talk to a server. -/
inductive Engine where
  | postgres
  | mysql
  deriving DecidableEq, Repr

/-- A connection: the server's side of it, and what the client knows of it. -/
structure Conn where
  /-- The server has dropped it. -/
  dropped : Bool := false
  /-- A statement has failed because of that (`PQstatus`). -/
  noticed : Bool := false
  /-- The statements of the open transaction. -/
  txn : Option (List ℕ) := none
  /-- A statement of the transaction has failed, and the server takes no more. -/
  aborted : Bool := false
  deriving DecidableEq, Repr

/-- The server drops a connection, and with it the open transaction. -/
def Conn.drop (c : Conn) : Conn := { c with dropped := true, txn := none, aborted := false }

/-- The connection has to be replaced: postgres finds out by a statement that has
    failed, mysql by a ping. -/
def Engine.dead (engine : Engine) (c : Conn) : Bool :=
  match engine with
  | .postgres => c.noticed
  | .mysql => c.dropped

/-- `open`: a connection that is alive is kept, another one is replaced, unless the
    server cannot be reached. -/
def openConn (engine : Engine) (reachable : Bool) : Option Conn → Option Conn
  | some c => if engine.dead c then if reachable then some {} else none else some c
  | none => if reachable then some {} else none

/-! ## Statements -/

/-- What the server says to a statement, if it gets it: `ends` when the failure
    takes the whole transaction with it. -/
inductive Reply where
  | ok
  | failed (ends : Bool)
  deriving DecidableEq, Repr

/-- When the connection is lost while a statement is on its way. -/
inductive Cut where
  | never
  | before
  /-- After the statement was executed. -/
  | reply
  deriving DecidableEq, Repr

/-- What a statement does: the connection after it, whether it returns success, and
    what the server commits, on its own or with a transaction. -/
structure Effect where
  conn : Conn
  success : Bool
  alone : List ℕ := []
  committed : List ℕ := []

/-- A statement that fails.  In postgres the transaction is aborted, and a `COMMIT`
    that fails ends it. -/
def failStatement (engine : Engine) (op : DbOp) (ends : Bool) (c : Conn) : Effect :=
  match c.txn with
  | none => ⟨c, false, [], []⟩
  | some _ =>
    match engine with
    | .postgres =>
      if op = .commit then ⟨{ c with txn := none, aborted := false }, false, [], []⟩
      else ⟨{ c with aborted := true }, false, [], []⟩
    | .mysql => if ends then ⟨{ c with txn := none }, false, [], []⟩ else ⟨c, false, [], []⟩

/-- The statement number `n` that succeeds. -/
def doStatement (engine : Engine) (op : DbOp) (n : ℕ) (c : Conn) : Effect :=
  match op with
  | .begin =>
    match c.txn with
    | none => ⟨{ c with txn := some [] }, true, [], []⟩
    | some ns =>
      -- postgres warns and goes on; mysql commits what there is
      match engine with
      | .postgres => ⟨c, true, [], []⟩
      | .mysql => ⟨{ c with txn := some [] }, true, [], ns⟩
  | .commit => ⟨{ c with txn := none }, true, [], c.txn.getD []⟩
  | .rollback => ⟨{ c with txn := none }, true, [], []⟩
  | .lastId => ⟨c, true, [], []⟩
  | .query | .exec =>
    match c.txn with
    | none => ⟨c, true, [n], []⟩
    | some ns => ⟨{ c with txn := some (ns ++ [n]) }, true, [], []⟩

/-- The server executes a statement; in a transaction that was aborted it takes only
    its end, which undoes it. -/
def serve (engine : Engine) (op : DbOp) (n : ℕ) (reply : Reply) (c : Conn) : Effect :=
  if c.aborted then
    if op = .commit ∨ op = .rollback then
      ⟨{ c with txn := none, aborted := false }, true, [], []⟩
    else if op = .lastId then ⟨c, true, [], []⟩
    else ⟨c, false, [], []⟩
  else
    match reply with
    | .failed ends => failStatement engine op ends c
    | .ok => doStatement engine op n c

/-- `exec`, `query` or `last_insert_id` on a connection.  One that was dropped gives
    an error. -/
def runStatement (engine : Engine) (op : DbOp) (n : ℕ) (reply : Reply) (cut : Cut) (c : Conn) :
    Effect :=
  let c := if cut = .before then c.drop else c
  if c.dropped then ⟨{ c with noticed := true }, false, [], []⟩
  else
    let e := serve engine op n reply c
    if cut = .reply then ⟨{ e.conn.drop with noticed := true }, false, e.alone, e.committed⟩
    else e

/-! ## A handler -/

/-- A handler, the connections of its module, and what has become of its
    statements. -/
structure Session where
  ctx : NativeCtx := {}
  conns : ℕ → Option Conn := fun _ => none
  /-- The number of the next statement. -/
  next : ℕ := 0
  /-- The statements that have returned success since `begin`. -/
  since : Option (List ℕ) := none
  /-- The statements that were issued between a `begin` and its end. -/
  inside : List ℕ := []
  /-- The statements before a `commit` that has returned true. -/
  promised : List ℕ := []
  committed : List ℕ := []
  /-- The statements that were committed on their own. -/
  alone : List ℕ := []

inductive SessionEvent where
  /-- The server drops the connection of a worker. -/
  | drop (worker : ℕ)
  /-- The handler awaits an operation; `worker` takes it when it is not pinned. -/
  | operate (op : DbOp) (worker : ℕ) (reachable : Bool) (cut : Cut) (reply : Reply)

/-- The worker that executes an operation. -/
def Session.workerOf (mod : String) (s : Session) (op : DbOp) (worker : ℕ) : ℕ :=
  (pinOf s.ctx op mod).getD worker

/-- What the handler knows after an operation. -/
def Session.answer (mod : String) (s : Session) (op : DbOp) (worker : ℕ) (success : Bool) :
    Session :=
  if success then
    { s with
      ctx := runDbSettle s.ctx mod op worker (.ok .null)
      since :=
        match op with
        | .begin => some (s.since.getD [])
        | .commit | .rollback => none
        | .lastId => s.since
        | .query | .exec => s.since.map (· ++ [s.next])
      promised := if op = .commit then s.promised ++ s.since.getD [] else s.promised }
  else s

/-- One operation: the connection is opened, and the statement sent. -/
def Session.operate (engine : Engine) (mod : String) (s : Session) (op : DbOp) (worker : ℕ)
    (reachable : Bool) (cut : Cut) (reply : Reply) : Session :=
  let i := s.workerOf mod op worker
  let inside := if s.since.isSome ∧ (op = .query ∨ op = .exec) then s.inside ++ [s.next]
    else s.inside
  match openConn engine reachable (s.conns i) with
  | none => { s with conns := Function.update s.conns i none, next := s.next + 1, inside := inside }
  | some c =>
    let e := runStatement engine op s.next reply cut c
    { s.answer mod op i e.success with
      conns := Function.update s.conns i (some e.conn)
      next := s.next + 1
      inside := inside
      committed := s.committed ++ e.alone ++ e.committed
      alone := s.alone ++ e.alone }

/-- One step of a handler of the module `mod`. -/
def Session.step (engine : Engine) (mod : String) (s : Session) : SessionEvent → Option Session
  | .drop worker =>
    some { s with conns := Function.update s.conns worker ((s.conns worker).map Conn.drop) }
  | .operate op worker reachable cut reply =>
    some (s.operate engine mod op worker reachable cut reply)

/-- A handler of the module `mod` alone with its database. -/
def session (engine : Engine) (mod : String) : System Session SessionEvent where
  init := {}
  step := Session.step engine mod

/-! ## What transactions promise -/

/-- What returned success before a `commit` that returned true is committed, and no
    statement between `begin` and its end is committed on its own. -/
structure Atomic (s : Session) : Prop where
  promised : ∀ n ∈ s.promised, n ∈ s.committed
  alone : ∀ n ∈ s.inside, n ∉ s.alone

/-- An operation inside a transaction finds the connection that `BEGIN` was sent on:
    `open` does not replace it, no failure has ended its transaction, and a
    `commit` does not end one that a failure has aborted. -/
def OnItsConnection (engine : Engine) (mod : String) (s : Session) : SessionEvent → Prop
  | .drop _ => True
  | .operate op worker reachable _ _ => s.since.isSome →
      let before := s.conns (s.workerOf mod op worker)
      ∀ c, openConn engine reachable before = some c → before = some c ∧
        (c.dropped = false → c.txn.isSome ∧ (op = .commit → c.aborted = false))

/-! ## What a statement does -/

/-- What is known of the statement number `n` on the connection `c`. -/
structure Stated (op : DbOp) (n : ℕ) (c : Conn) (e : Effect) : Prop where
  /-- Only a statement outside any transaction is committed on its own. -/
  alone : ∀ m ∈ e.alone, m = n ∧ c.txn = none ∧ c.dropped = false
  live : e.success = true → c.dropped = false
  /-- A `COMMIT` that succeeds commits the transaction. -/
  commit : e.success = true → op = .commit → c.aborted = false → e.committed = c.txn.getD []
  /-- A transaction that is still open keeps its statements, and the new one. -/
  txn : ∀ ts', e.conn.txn = some ts' → e.conn.aborted = false →
    (∃ ts, c.txn = some ts ∧ c.aborted = false ∧ (∀ m ∈ ts, m ∈ ts' ∨ m ∈ e.committed) ∧
      (e.success = true → op = .query ∨ op = .exec → n ∈ ts')) ∨
    c.txn = none ∧ c.dropped = false ∧ op = .begin

section Statements

variable {engine : Engine} {op : DbOp} {n : ℕ} {c : Conn}

theorem failStatement_stated (ends : Bool) (ha : c.aborted = false) :
    Stated op n c (failStatement engine op ends c) := by
  unfold failStatement
  cases hc : c.txn with
  | none => exact ⟨nofun, nofun, nofun, by simp [hc]⟩
  | some ts =>
    cases engine with
    | postgres =>
      dsimp only
      split
      · exact ⟨nofun, nofun, nofun, by simp⟩
      · exact ⟨nofun, nofun, nofun, by simp⟩
    | mysql =>
      dsimp only
      split
      · exact ⟨nofun, nofun, nofun, by simp⟩
      · exact ⟨nofun, nofun, nofun, fun ts' h _ => .inl ⟨ts', h, ha, fun m hm => .inl hm, nofun⟩⟩

theorem doStatement_stated (ha : c.aborted = false) (hd : c.dropped = false) :
    Stated op n c (doStatement engine op n c) := by
  cases op with
  | begin =>
    unfold doStatement
    cases hc : c.txn with
    | none => exact ⟨nofun, fun _ => hd, nofun, fun ts' _ _ => .inr ⟨hc, hd, rfl⟩⟩
    | some ts =>
      cases engine with
      | postgres =>
        refine ⟨nofun, fun _ => hd, nofun, fun ts' h _ => .inl ⟨ts', h, ha, fun m hm => .inl hm, ?_⟩⟩
        rintro - (h | h) <;> cases h
      | mysql =>
        refine ⟨nofun, fun _ => hd, nofun, fun ts' h _ => .inl ⟨ts, hc, ha, fun m hm => .inr hm, ?_⟩⟩
        rintro - (h | h) <;> cases h
  | commit => exact ⟨nofun, fun _ => hd, fun _ _ _ => rfl, by simp [doStatement]⟩
  | rollback => exact ⟨nofun, fun _ => hd, nofun, by simp [doStatement]⟩
  | lastId =>
    refine ⟨nofun, fun _ => hd, nofun, fun ts' h _ => .inl ⟨ts', h, ha, fun m hm => .inl hm, ?_⟩⟩
    rintro - (h | h) <;> cases h
  | query | exec =>
    unfold doStatement
    cases hc : c.txn with
    | none =>
      refine ⟨fun m hm => ⟨by simpa using hm, hc, hd⟩, fun _ => hd, nofun, fun ts' h _ => ?_⟩
      rw [hc] at h
      cases h
    | some ts =>
      refine ⟨nofun, fun _ => hd, nofun, fun ts' h _ => .inl ⟨ts, hc, ha, ?_, fun _ _ => ?_⟩⟩
      · obtain rfl : ts ++ [n] = ts' := Option.some.inj h
        exact fun m hm => .inl (List.mem_append_left _ hm)
      · obtain rfl : ts ++ [n] = ts' := Option.some.inj h
        exact List.mem_append_right _ (List.mem_singleton_self _)

theorem serve_stated (reply : Reply) (hd : c.dropped = false) :
    Stated op n c (serve engine op n reply c) := by
  unfold serve
  split
  · next ha =>
    split
    · exact ⟨nofun, fun _ => hd, fun _ _ h => absurd (h.symm.trans ha) (by decide), by simp⟩
    · split
      · exact ⟨nofun, fun _ => hd, fun _ _ h => absurd (h.symm.trans ha) (by decide), by simp [ha]⟩
      · exact ⟨nofun, nofun, nofun, by simp [ha]⟩
  · next ha =>
    have ha : c.aborted = false := Bool.eq_false_iff.2 ha
    cases reply with
    | ok => exact doStatement_stated ha hd
    | failed ends => exact failStatement_stated ends ha

theorem runStatement_stated (reply : Reply) (cut : Cut) :
    Stated op n c (runStatement engine op n reply cut c) := by
  unfold runStatement
  cases cut with
  | before => exact ⟨nofun, nofun, nofun, by simp [Conn.drop]⟩
  | never =>
    simp only [reduceCtorEq, if_false]
    split
    · next hd =>
      exact ⟨nofun, nofun, nofun, fun ts' h ha => .inl ⟨ts', h, ha, fun m hm => .inl hm, nofun⟩⟩
    · next hd => exact serve_stated reply (Bool.eq_false_iff.2 hd)
  | reply =>
    simp only [reduceCtorEq, if_false, if_true]
    split
    · next hd =>
      exact ⟨nofun, nofun, nofun, fun ts' h ha => .inl ⟨ts', h, ha, fun m hm => .inl hm, nofun⟩⟩
    · next hd =>
      have h := @serve_stated engine op n c reply (Bool.eq_false_iff.2 hd)
      exact ⟨h.alone, nofun, nofun, by simp [Conn.drop]⟩

end Statements

/-! ## The invariant -/

/-- The handler is pinned while it is inside a transaction, whose statements are in
    the transaction of that connection as long as there is one. -/
structure SessionInv (mod : String) (s : Session) : Prop where
  pin : (s.ctx.pinnedWorkers.lookup mod).isSome = s.since.isSome
  kept : ∀ i c ts, s.ctx.pinnedWorkers.lookup mod = some i → s.conns i = some c →
    c.txn = some ts → c.aborted = false → ∀ n ∈ s.since.getD [], n ∈ ts ∨ n ∈ s.committed
  inside : ∀ n ∈ s.inside, n < s.next
  fresh : ∀ n ∈ s.alone, n < s.next
  atomic : Atomic s

theorem init_sessionInv (engine : Engine) (mod : String) :
    SessionInv mod (session engine mod).init :=
  ⟨rfl, nofun, nofun, nofun, ⟨nofun, nofun⟩⟩

section Steps

variable {engine : Engine} {mod : String} {s : Session}

theorem drop_sessionInv (hs : SessionInv mod s) (worker : ℕ) :
    SessionInv mod
      { s with conns := Function.update s.conns worker ((s.conns worker).map Conn.drop) } := by
  refine ⟨hs.pin, fun i c ts hi hc hts ha => ?_, hs.inside, hs.fresh, ⟨hs.atomic.1, hs.atomic.2⟩⟩
  by_cases h : i = worker
  · subst h
    simp only [Function.update_self, Option.map_eq_some_iff] at hc
    obtain ⟨c', -, rfl⟩ := hc
    cases hts
  · simp only [Function.update_of_ne h] at hc
    exact hs.kept i c ts hi hc hts ha

/-- What the handler knows is consistent after an operation. -/
theorem answer_pin (hs : SessionInv mod s) (op : DbOp) (i : ℕ) (success : Bool) :
    ((s.answer mod op i success).ctx.pinnedWorkers.lookup mod).isSome =
      (s.answer mod op i success).since.isSome := by
  unfold Session.answer
  split
  · dsimp only
    rw [settle_lookup]
    have hpin := hs.pin
    cases op <;> simp_all
  · exact hs.pin

/-- A statement that succeeds inside a transaction is among those since `begin`. -/
theorem answer_since (op : DbOp) (i : ℕ) (success : Bool) {n : ℕ}
    (hn : n ∈ (s.answer mod op i success).since.getD []) :
    n ∈ s.since.getD [] ∨ n = s.next ∧ success = true ∧ (op = .query ∨ op = .exec) := by
  unfold Session.answer at hn
  split at hn
  · next hok =>
    cases op with
    | begin | lastId => exact .inl hn
    | commit | rollback => cases hn
    | query | exec =>
      cases hs : s.since with
      | none => simp [hs] at hn
      | some ns =>
        simp only [hs, Option.map_some, Option.getD_some, List.mem_append,
          List.mem_singleton] at hn ⊢
        exact hn.imp_right fun h => ⟨h, hok, by simp⟩
  · exact .inl hn

theorem answer_promised (op : DbOp) (i : ℕ) (success : Bool) {n : ℕ}
    (hn : n ∈ (s.answer mod op i success).promised) :
    n ∈ s.promised ∨ success = true ∧ op = .commit ∧ n ∈ s.since.getD [] := by
  unfold Session.answer at hn
  split at hn
  · next hok =>
    dsimp only at hn
    split at hn
    · next hop => exact (List.mem_append.1 hn).imp_right fun h => ⟨hok, hop, h⟩
    · exact .inl hn
  · exact .inl hn

/-- Where the handler is pinned after an operation. -/
theorem answer_lookup (op : DbOp) (i k : ℕ) (success : Bool)
    (hk : (s.answer mod op i success).ctx.pinnedWorkers.lookup mod = some k) :
    s.ctx.pinnedWorkers.lookup mod = some k ∨ success = true ∧ op = .begin ∧ k = i := by
  unfold Session.answer at hk
  split at hk
  · next hok =>
    dsimp only at hk
    rw [settle_lookup] at hk
    cases op with
    | begin => exact .inr ⟨hok, rfl, (Option.some.inj hk).symm⟩
    | commit | rollback => cases hk
    | _ => exact .inl hk
  · exact .inl hk

theorem operate_sessionInv (hs : SessionInv mod s) {op : DbOp} {worker : ℕ} {reachable : Bool}
    {cut : Cut} {reply : Reply}
    (hcond : OnItsConnection engine mod s (.operate op worker reachable cut reply)) :
    SessionInv mod (s.operate engine mod op worker reachable cut reply) := by
  have hinside : ∀ n ∈ (if s.since.isSome ∧ (op = .query ∨ op = .exec) then s.inside ++ [s.next]
      else s.inside), n < s.next + 1 ∧ (n ∈ s.inside ∨ n = s.next ∧ s.since.isSome) := by
    intro n hn
    split at hn
    · next h =>
      obtain hn | hn := List.mem_append.1 hn
      · exact ⟨Nat.lt_succ_of_lt (hs.inside n hn), .inl hn⟩
      · obtain rfl := List.mem_singleton.1 hn
        exact ⟨Nat.lt_succ_self _, .inr ⟨rfl, h.1⟩⟩
    · exact ⟨Nat.lt_succ_of_lt (hs.inside n hn), .inl hn⟩
  have hapart : ∀ n, (n ∈ s.inside ∨ n = s.next ∧ s.since.isSome) → n ∉ s.alone := by
    rintro n (hn | ⟨rfl, -⟩)
    · exact hs.atomic.alone n hn
    · exact fun h => absurd (hs.fresh _ h) (Nat.lt_irrefl _)
  unfold Session.operate
  dsimp only
  split
  · next hopen =>
    refine ⟨hs.pin, fun k c ts hk hc hts ha => ?_, fun n hn => (hinside n hn).1,
      fun n hn => Nat.lt_succ_of_lt (hs.fresh n hn),
      ⟨hs.atomic.promised, fun n hn => hapart n (hinside n hn).2⟩⟩
    by_cases h : k = s.workerOf mod op worker
    · rw [h] at hc
      simp at hc
    · simp only [Function.update_of_ne h] at hc
      exact hs.kept k c ts hk hc hts ha
  · next c hopen =>
    have hst := @runStatement_stated engine op s.next c reply cut
    generalize runStatement engine op s.next reply cut c = e at hst
    have hpinned : ∀ k, s.ctx.pinnedWorkers.lookup mod = some k → s.workerOf mod op worker = k := by
      intro k hk
      simp [Session.workerOf, pinOf, hk]
    -- inside a transaction, the operation runs on its connection
    have hthere : ∀ n ∈ s.since.getD [], s.since.isSome ∧
        s.ctx.pinnedWorkers.lookup mod = some (s.workerOf mod op worker) ∧
        s.conns (s.workerOf mod op worker) = some c ∧
        (c.dropped = false → c.txn.isSome ∧ (op = .commit → c.aborted = false)) := by
      intro n hn
      have hin : s.since.isSome := by
        cases h : s.since with
        | none => simp [h] at hn
        | some ns => rfl
      obtain ⟨k, hk⟩ := Option.isSome_iff_exists.1 (hs.pin.trans hin)
      obtain ⟨hconn, hlive⟩ := hcond hin c hopen
      exact ⟨hin, by rw [hpinned k hk, hk], hconn, hlive⟩
    refine ⟨answer_pin hs .., ?_, fun n hn => (hinside n hn).1, ?_, ⟨?_, ?_⟩⟩
    · intro k c' ts' hk hc hts ha n hn
      obtain rfl : k = s.workerOf mod op worker := by
        obtain hk | ⟨-, -, rfl⟩ := answer_lookup op _ k e.success hk
        · exact (hpinned k hk).symm
        · rfl
      simp only [Function.update_self, Option.some.injEq] at hc
      subst hc
      obtain ⟨ts, hts', ha', hkeep, hnew⟩ | ⟨hnone, hlive, hop⟩ := hst.txn ts' hts ha
      · obtain hn | ⟨rfl, hok, hop⟩ := answer_since op _ e.success hn
        · obtain ⟨-, hpin, hconn, -⟩ := hthere n hn
          obtain hmem | hmem := hs.kept _ c ts hpin hconn hts' ha' n hn
          · exact (hkeep n hmem).imp_right fun h => List.mem_append_right _ h
          · exact .inr (List.mem_append_left _ (List.mem_append_left _ hmem))
        · exact .inl (hnew hok hop)
      · obtain hn | ⟨-, -, hq⟩ := answer_since op _ e.success hn
        · obtain ⟨-, -, -, hcond⟩ := hthere n hn
          rw [hnone] at hcond
          exact absurd (hcond hlive).1 (by decide)
        · rw [hop] at hq
          obtain hq | hq := hq <;> cases hq
    · intro n hn
      obtain hn | hn := List.mem_append.1 hn
      · exact Nat.lt_succ_of_lt (hs.fresh n hn)
      · exact (hst.alone n hn).1 ▸ Nat.lt_succ_self _
    · intro n hn
      obtain hn | ⟨hok, hop, hn⟩ := answer_promised op _ e.success hn
      · exact List.mem_append_left _ (List.mem_append_left _ (hs.atomic.promised n hn))
      · obtain ⟨-, hpin, hconn, hcond⟩ := hthere n hn
        obtain ⟨htxn, hab⟩ := hcond (hst.live hok)
        obtain ⟨ts, hts⟩ := Option.isSome_iff_exists.1 htxn
        obtain hmem | hmem := hs.kept _ c ts hpin hconn hts (hab hop) n hn
        · refine List.mem_append_right _ ?_
          rwa [hst.commit hok hop (hab hop), hts]
        · exact List.mem_append_left _ (List.mem_append_left _ hmem)
    · intro n hn hmem
      obtain hn := (hinside n hn).2
      obtain hmem | hmem := List.mem_append.1 hmem
      · exact hapart n hn hmem
      · obtain ⟨rfl, htxn, hlive⟩ := hst.alone n hmem
        obtain hn | ⟨-, hin⟩ := hn
        · exact absurd (hs.inside _ hn) (Nat.lt_irrefl _)
        · have hcond := (hcond hin c hopen).2 hlive
          rw [htxn] at hcond
          exact absurd hcond.1 (by decide)

end Steps

/-! ## The promise -/

/-- For both drivers, every sequence of operations and every moment at which a
    connection is lost: transactions keep their promise as long as no operation
    inside one runs on another connection than the one of its `BEGIN`. -/
theorem atomic_of_onItsConnection (engine : Engine) (mod : String) (events : List SessionEvent)
    (s : Session) (hcond : (session engine mod).Meets (OnItsConnection engine mod) events)
    (hrun : (session engine mod).run events = some s) : Atomic s :=
  ((session engine mod).guarded_induction (init_sessionInv engine mod)
    (fun s e t hs hc ht => by
      cases e with
      | drop worker =>
        cases ht
        exact drop_sessionInv hs worker
      | operate op worker reachable cut reply =>
        cases ht
        exact operate_sessionInv hs hc)
    hcond hrun).atomic

/-- A transaction whose connection is lost before its end, and fails. -/
theorem atomic_of_onItsConnection_lost :
    ∃ s, (session .postgres "postgres").run [.operate .begin 0 true .never .ok,
        .operate .exec 0 true .never .ok, .drop 0, .operate .commit 0 true .never .ok] = some s ∧
      s.since = some [1] ∧ s.committed = [] ∧ Atomic s := by
  have hmeets : (session .postgres "postgres").Meets (OnItsConnection .postgres "postgres")
      [.operate .begin 0 true .never .ok, .operate .exec 0 true .never .ok, .drop 0,
        .operate .commit 0 true .never .ok] :=
    .cons (fun h => nomatch h) rfl <|
      .cons (fun _ _ hc => Option.some.inj hc ▸ ⟨rfl, fun _ => ⟨rfl, nofun⟩⟩) rfl <|
      .cons trivial rfl <|
      .cons (fun _ _ hc => Option.some.inj hc ▸ ⟨rfl, fun h => nomatch h⟩) rfl trivial
  exact ⟨_, rfl, rfl, rfl, atomic_of_onItsConnection .postgres "postgres" _ _ hmeets rfl⟩

/-- mysql opens a new connection in the middle of the transaction: a statement is
    committed on its own, and an earlier one is lost although `commit` returns true. -/
theorem exec_after_drop :
    ∃ s, (session .mysql "mysql").run [.operate .begin 0 true .never .ok,
        .operate .exec 0 true .never .ok, .drop 0, .operate .exec 0 true .never .ok,
        .operate .commit 0 true .never .ok] = some s ∧
      s.promised = [1, 2] ∧ s.committed = [2] ∧ s.alone = [2] ∧ ¬ Atomic s := by
  refine ⟨_, rfl, rfl, rfl, rfl, fun h => ?_⟩
  exact absurd (h.promised 1 (by decide)) (by decide)

end Osodio.Db
