import Mathlib.Logic.Function.Basic
import Osodio.Lib.Transition
import Osodio.Odio.Binding

/-!
# The messages of an error

The handler of an error reads the messages that the last binding on its thread left
behind.  They are those of its own request if no other one is in between, and if the
refusal is one that leaves its messages.

## Main definitions

- `Request`, `Threads`, `threads` — requests, and the threads that serve them
- `Request.messages` — the messages that a request itself produces
- `OwnMessages` — what the handlers of the errors of a request are promised
- `Cleared` — the condition on the steps of a request

## Main results

- `prepareArgs_left` — what a binding leaves behind
- `ownMessages_iff_cleared` — the promise is kept exactly by the runs that meet it
- `messages_eq_of_cleared` — two such runs show a request the same messages
-/

namespace Osodio.Odio

open Osodio.Lib

/-! ## Requests and threads -/

/-- Where a request ends up. -/
inductive Target where
  /-- It is answered without binding parameters: there is no route, or it is a
      declarative one, or a handler of the engine. -/
  | direct (code : ℕ)
  /-- A route with a chunk. -/
  | route (binds : List ParamBind) (input : Input)

/-- A request, with the number of its thread. -/
structure Request where
  id : ℕ
  thread : ℕ
  target : Target

/-- What the handler of an error saw. -/
structure Seen where
  request : Request
  messages : List String

/-- `left` has the messages of each thread, and `running` the requests whose
    handlers have started. -/
structure Threads where
  left : ℕ → List String
  running : ℕ → Option Request
  seen : List Seen

/-- What happens on the threads.  Between the two, a handler may suspend any number
    of times. -/
inductive Happening where
  | arrive (r : Request)
  | finish (id code : ℕ)

section Model

variable (O : Primitives) (handlers : List ℕ)

/-- The module has a handler for the error: for its code, or the one without. -/
def Handles (code : ℕ) : Prop := 400 ≤ code ∧ (code ∈ handlers ∨ 0 ∈ handlers)

instance (code : ℕ) : Decidable (Handles handlers code) := inferInstanceAs (Decidable (_ ∧ _))

/-- The response of `r` is complete.  The handler of its error, if there is one,
    reads the messages of the thread. -/
def Threads.respond (s : Threads) (r : Request) (code : ℕ) : Threads :=
  if Handles handlers code then { s with seen := ⟨r, s.left r.thread⟩ :: s.seen } else s

/-- The parameters of `r` are bound.  A refusal is its response. -/
def Threads.bind (s : Threads) (r : Request) (binds : List ParamBind) (input : Input) : Threads :=
  let s' := { s with left := Function.update s.left r.thread (prepareArgs O binds input).2 }
  match (prepareArgs O binds input).1 with
  | .error refusal => s'.respond handlers r refusal.code
  | .ok _ => { s' with running := Function.update s.running r.id (some r) }

/-- A request arrives. -/
def Threads.arrive (s : Threads) (r : Request) : Threads :=
  match r.target with
  | .direct code => s.respond handlers r code
  | .route binds input => s.bind O handlers r binds input

/-- A step of the threads, if it can be taken. -/
def Threads.step (s : Threads) : Happening → Option Threads
  | .arrive r => if (s.running r.id).isNone then some (s.arrive O handlers r) else none
  | .finish id code =>
    (s.running id).map fun r =>
      { s with running := Function.update s.running id none }.respond handlers r code

/-- The threads of a server, before the first request. -/
def threads : System Threads Happening where
  init := { left := fun _ => [], running := fun _ => none, seen := [] }
  step := Threads.step O handlers

/-- The messages that a request itself produces: those of its own validation. -/
def Request.messages (r : Request) : List String :=
  match r.target with
  | .direct _ => []
  | .route binds input =>
    match (prepareArgs O binds input).1 with
    | .error refusal => refusal.mensajes
    | .ok _ => []

/-- The handlers of the errors of a request see its own messages. -/
def OwnMessages (id : ℕ) (s : Threads) : Prop :=
  ∀ e ∈ s.seen, e.request.id = id → e.messages = e.request.messages O

/-- The refusal leaves its messages behind. -/
def Refusal.Leaves : Refusal → Prop
  | .missingFile _ | .notObject => False
  | _ => True

/-- When the handler of an error of the request comes to run, nothing is left on its
    thread, or the request has just been refused by a validation that leaves its
    messages. -/
def Cleared (id : ℕ) (s : Threads) : Happening → Prop
  | .arrive r => r.id = id →
    match r.target with
    | .direct code => Handles handlers code → s.left r.thread = []
    | .route binds input => ∀ refusal, (prepareArgs O binds input).1 = .error refusal →
      Handles handlers refusal.code → refusal.Leaves
  | .finish id' code => id' = id → ∀ r, s.running id = some r → Handles handlers code →
    s.left r.thread = []

end Model

/-! ## What a binding leaves behind -/

section Binding

variable {O : Primitives}

/-- Only a validation that fails changes the messages, and it leaves its own. -/
theorem bindBody_left (O : Primitives) (ci : ClassInfo) (body : String) (left : List String) :
    (∃ messages, bindBody O ci body left = (.error (.invalid messages), messages)) ∨
      (bindBody O ci body left).2 = left ∧
        ∀ messages, (bindBody O ci body left).1 ≠ .error (.invalid messages) := by
  unfold bindBody
  split
  · exact .inr ⟨rfl, nofun⟩
  · dsimp only
    split
    · exact .inr ⟨rfl, nofun⟩
    · exact .inr ⟨rfl, nofun⟩
    · exact .inl ⟨_, rfl⟩
  · exact .inr ⟨rfl, nofun⟩

theorem bindParam_left (O : Primitives) (b : ParamBind) (input : Input) (left : List String) :
    (∃ messages, bindParam O b input left = (.error (.invalid messages), messages)) ∨
      (bindParam O b input left).2 = left ∧
        ∀ messages, (bindParam O b input left).1 ≠ .error (.invalid messages) := by
  unfold bindParam
  split
  · split
    · exact .inr ⟨rfl, nofun⟩
    · split <;> exact .inr ⟨rfl, nofun⟩
  · split <;> exact .inr ⟨rfl, nofun⟩
  · exact bindBody_left O _ _ _
  all_goals
    split
    · exact .inr ⟨rfl, nofun⟩
    · split <;> exact .inr ⟨rfl, nofun⟩

theorem bindParams_left (O : Primitives) (input : Input) (binds : List ParamBind)
    (left : List String) :
    (∃ messages, bindParams O input binds left = (.error (.invalid messages), messages)) ∨
      (bindParams O input binds left).2 = left ∧
        ∀ messages, (bindParams O input binds left).1 ≠ .error (.invalid messages) := by
  induction binds with
  | nil => exact .inr ⟨rfl, nofun⟩
  | cons b binds ih =>
    unfold bindParams
    rcases bindParam_left O b input left with ⟨messages, h⟩ | ⟨h₂, h₁⟩
    · rw [h]
      exact .inl ⟨messages, rfl⟩
    · generalize bindParam O b input left = p at h₁ h₂
      obtain ⟨r, left'⟩ := p
      cases h₂
      cases r with
      | error refusal =>
        refine .inr ⟨rfl, fun messages he => h₁ messages ?_⟩
        cases he
        rfl
      | ok slot =>
        dsimp only
        rcases ih with ⟨messages, h⟩ | ⟨h₂, h₁⟩
        · rw [h]
          exact .inl ⟨messages, rfl⟩
        · generalize bindParams O input binds left' = p at h₁ h₂
          obtain ⟨r, left''⟩ := p
          cases h₂
          cases r with
          | error refusal =>
            refine .inr ⟨rfl, fun messages he => h₁ messages ?_⟩
            cases he
            rfl
          | ok slots => exact .inr ⟨rfl, nofun⟩

/-- A refusal leaves its own messages, or none at all. -/
theorem prepareArgs_left {binds : List ParamBind} {input : Input} {refusal : Refusal}
    (h : (prepareArgs O binds input).1 = .error refusal) :
    (prepareArgs O binds input).2 = refusal.mensajes ↔ refusal.Leaves := by
  unfold prepareArgs at h ⊢
  rcases bindParams_left O input binds [] with ⟨messages, he⟩ | ⟨h₂, h₁⟩
  · rw [he] at h ⊢
    cases h
    exact ⟨fun _ => trivial, fun _ => rfl⟩
  · rw [h₂]
    cases refusal with
    | invalid messages => exact absurd h (h₁ messages)
    | missingFile | notObject => exact ⟨nofun, nofun⟩
    | _ => exact ⟨fun _ => trivial, fun _ => rfl⟩

/-- A binding that succeeds leaves nothing. -/
theorem prepareArgs_ok_left {binds : List ParamBind} {input : Input} {slots : List Slot}
    (h : (prepareArgs O binds input).1 = .ok slots) : (prepareArgs O binds input).2 = [] := by
  unfold prepareArgs at h ⊢
  rcases bindParams_left O input binds [] with ⟨messages, he⟩ | ⟨h₂, -⟩
  · rw [he] at h
    cases h
  · exact h₂

end Binding

/-! ## One step -/

section Steps

variable {O : Primitives} {handlers : List ℕ} {id : ℕ} {s t : Threads}

/-- A handler is running only for a request that was not refused. -/
def Running (O : Primitives) (s : Threads) : Prop :=
  ∀ id r, s.running id = some r → r.id = id ∧ r.messages O = []

/-- The invariant of the runs that meet the condition. -/
structure Inv (O : Primitives) (id : ℕ) (s : Threads) : Prop where
  running : Running O s
  own : OwnMessages O id s

theorem init_inv : Inv O id (threads O handlers).init :=
  ⟨nofun, nofun⟩

/-- A response keeps the promise exactly if the messages of the thread are those of
    the request, as far as a handler is there to see them. -/
theorem respond_own_iff {r : Request} {code : ℕ} (hown : OwnMessages O id s) :
    OwnMessages O id (s.respond handlers r code) ↔
      (r.id = id → Handles handlers code → s.left r.thread = r.messages O) := by
  unfold Threads.respond
  by_cases h : Handles handlers code
  · rw [if_pos h]
    constructor
    · intro ho hid _
      exact ho ⟨r, s.left r.thread⟩ (List.mem_cons_self ..) hid
    · intro ho e he hid
      rcases List.mem_cons.1 he with rfl | he
      · exact ho hid h
      · exact hown e he hid
  · rw [if_neg h]
    exact ⟨fun _ _ h' => absurd h' h, fun _ => hown⟩

theorem respond_running {r : Request} {code : ℕ} :
    (s.respond handlers r code).running = s.running := by
  unfold Threads.respond
  split <;> rfl

/-- A parameter that is refused is a refusal of all. -/
theorem bindParams_append {before after : List ParamBind} {input : Input} {slots : List Slot}
    {refusal : Refusal} {left : List String}
    (hbefore : (bindParams O input before left).1 = .ok slots)
    (hafter : ∀ left, (bindParams O input after left).1 = .error refusal) :
    (bindParams O input (before ++ after) left).1 = .error refusal := by
  induction before generalizing left slots with
  | nil => exact hafter left
  | cons b before ih =>
    rw [List.cons_append, bindParams]
    rw [bindParams] at hbefore
    generalize bindParam O b input left = p at hbefore ⊢
    obtain ⟨r, left₁⟩ := p
    cases r with
    | error r => cases hbefore
    | ok slot =>
      dsimp only at hbefore ⊢
      cases hrest : bindParams O input before left₁ with
      | mk r left₂ =>
        rw [hrest] at hbefore
        cases r with
        | error r => cases hbefore
        | ok slots' =>
          have hno := ih (congrArg Prod.fst hrest)
          generalize bindParams O input (before ++ after) left₁ = q at hno ⊢
          obtain ⟨r, left₃⟩ := q
          cases hno
          rfl

theorem prepareArgs_refused {before after : List ParamBind} {b : ParamBind} {input : Input}
    {slots : List Slot} {refusal : Refusal}
    (hbefore : (prepareArgs O before input).1 = .ok slots)
    (hb : ∀ left, (bindParam O b input left).1 = .error refusal) :
    (prepareArgs O (before ++ b :: after) input).1 = .error refusal := by
  refine bindParams_append hbefore fun left => ?_
  rw [bindParams]
  have hb := hb left
  generalize bindParam O b input left = p at hb ⊢
  obtain ⟨r, left'⟩ := p
  cases hb
  rfl

/-- No handler starts for a request that is refused. -/
theorem running_of_refused {thread : ℕ} {binds : List ParamBind} {input : Input}
    {refusal : Refusal} (h : (prepareArgs O binds input).1 = .error refusal)
    (ht : (threads O handlers).step s (.arrive ⟨id, thread, .route binds input⟩) = some t) :
    t.running = s.running := by
  obtain ⟨-, ht⟩ := Option.ite_none_right_eq_some.1 ht
  cases ht
  simp only [Threads.arrive, Threads.bind, h]
  exact respond_running

theorem messages_of_refused {r : Request} {binds : List ParamBind} {input : Input}
    {refusal : Refusal} (ht : r.target = .route binds input)
    (h : (prepareArgs O binds input).1 = .error refusal) : r.messages O = refusal.mensajes := by
  unfold Request.messages
  rw [ht]
  dsimp only
  rw [h]

theorem messages_of_bound {r : Request} {binds : List ParamBind} {input : Input}
    {slots : List Slot} (ht : r.target = .route binds input)
    (h : (prepareArgs O binds input).1 = .ok slots) : r.messages O = [] := by
  unfold Request.messages
  rw [ht]
  dsimp only
  rw [h]

/-- An arrival keeps the promise exactly if it meets the condition. -/
theorem arrive_own_iff {r : Request} (hs : Inv O id s) :
    OwnMessages O id (s.arrive O handlers r) ↔ Cleared O handlers id s (.arrive r) := by
  obtain ⟨rid, thread, target⟩ := r
  cases target with
  | direct code => exact respond_own_iff hs.own
  | route binds input =>
    have hown : OwnMessages O id { s with
        left := Function.update s.left thread (prepareArgs O binds input).2 } := hs.own
    unfold Threads.arrive Threads.bind Cleared
    dsimp only
    cases hp : (prepareArgs O binds input).1 with
    | ok slots => exact ⟨fun _ _ _ he => (nomatch he), fun _ => hs.own⟩
    | error refusal =>
      refine (respond_own_iff hown).trans ?_
      rw [messages_of_refused rfl hp]
      have hleft : Function.update s.left thread (prepareArgs O binds input).2 thread =
          (prepareArgs O binds input).2 := Function.update_self ..
      constructor
      · intro h hid refusal' he hh
        cases he
        exact (prepareArgs_left hp).1 (hleft.symm.trans (h hid hh))
      · intro h hid hh
        exact hleft.trans ((prepareArgs_left hp).2 (h hid refusal rfl hh))

theorem arrive_running {r : Request} (hs : Running O s) :
    Running O (s.arrive O handlers r) := by
  unfold Threads.arrive
  cases ht : r.target with
  | direct code =>
    intro id r' h
    rw [respond_running] at h
    exact hs id r' h
  | route binds input =>
    dsimp only
    unfold Threads.bind
    cases hp : (prepareArgs O binds input).1 with
    | error refusal =>
      intro id r' h
      rw [respond_running] at h
      exact hs id r' h
    | ok slots =>
      intro id r' h
      have h : Function.update s.running r.id (some r) id = some r' := h
      rw [Function.update_apply] at h
      split at h
      · rename_i hid
        cases h
        exact ⟨hid.symm, messages_of_bound ht hp⟩
      · exact hs id r' h

/-- **Step lemma**: a step keeps the promise exactly if it meets the condition. -/
theorem step_own_iff {e : Happening} (hs : Inv O id s)
    (h : (threads O handlers).step s e = some t) :
    Running O t ∧ (OwnMessages O id t ↔ Cleared O handlers id s e) := by
  cases e with
  | arrive r =>
    obtain ⟨-, h⟩ := Option.ite_none_right_eq_some.1 h
    cases h
    exact ⟨arrive_running hs.running, arrive_own_iff hs⟩
  | finish id' code =>
    obtain ⟨r, hr, h⟩ := Option.map_eq_some_iff.1 h
    cases h
    obtain ⟨hid, hm⟩ := hs.running id' r hr
    have hown : OwnMessages O id { s with
        running := Function.update s.running id' none } := hs.own
    refine ⟨fun j r' hj => ?_, (respond_own_iff hown).trans ?_⟩
    · rw [respond_running] at hj
      have hj : Function.update s.running id' none j = some r' := hj
      rw [Function.update_apply] at hj
      split at hj
      · cases hj
      · exact hs.running j r' hj
    · rw [hm]
      constructor
      · intro h hid' r' hr' hh
        obtain rfl : r = r' := Option.some.inj (hr.symm.trans (hid' ▸ hr'))
        exact h (hid.trans hid') hh
      · intro h hid' hh
        have he : id' = id := hid.symm.trans hid'
        exact h he r (he ▸ hr) hh

end Steps

/-! ## Runs -/

/-- The handlers of the errors of a request see its own messages in every state of a
    run if and only if every step of the request meets the condition. -/
theorem ownMessages_iff_cleared (O : Primitives) (handlers : List ℕ) (id : ℕ)
    (es : List Happening) (last : Threads) (hr : (threads O handlers).run es = some last) :
    (∀ pre t, pre <+: es → (threads O handlers).run pre = some t → OwnMessages O id t) ↔
      (threads O handlers).Meets (Cleared O handlers id) es :=
  (threads O handlers).forall_prefix_iff_meets init_inv (fun _ hs => hs.own)
    (fun _ _ _ hs hC h => ⟨(step_own_iff hs h).1, (step_own_iff hs h).2.2 hC⟩)
    (fun _ _ _ hs hC h => fun ho => hC ((step_own_iff hs h).2.1 ho)) hr

/-- In two runs that meet the condition for a request, whatever else they serve, the
    handler of its error sees the same messages. -/
theorem messages_eq_of_cleared {O : Primitives} {handlers : List ℕ} {r : Request}
    {es es' : List Happening} {t t' : Threads} {e e' : Seen}
    (hC : (threads O handlers).Meets (Cleared O handlers r.id) es)
    (hC' : (threads O handlers).Meets (Cleared O handlers r.id) es')
    (hr : (threads O handlers).run es = some t) (hr' : (threads O handlers).run es' = some t')
    (he : e ∈ t.seen) (he' : e' ∈ t'.seen) (hid : e.request = r) (hid' : e'.request = r) :
    e.messages = e'.messages := by
  have h := (ownMessages_iff_cleared O handlers r.id es t hr).2 hC es t (List.prefix_refl _) hr
  have h' := (ownMessages_iff_cleared O handlers r.id es' t' hr').2 hC' es' t'
    (List.prefix_refl _) hr'
  rw [h e he (by rw [hid]), h' e' he' (by rw [hid']), hid, hid']

/-- A server whose only body is the empty object. -/
def Primitives.empty : Primitives where
  parseJson s := if s = "\x7b\x7d" then some (.dict 0, [.dict []]) else none
  runRule _ _ := .ok true
  stoll _ := none
  stod _ := none

/-- A path that nothing is registered for, on a thread that has served nothing. -/
theorem ownMessages_iff_cleared_unrouted :
    (threads .empty [0]).Meets (Cleared .empty [0] 1) [.arrive ⟨1, 0, .direct 404⟩] ∧
      ∀ pre t, pre <+: [.arrive ⟨1, 0, .direct 404⟩] →
        (threads .empty [0]).run pre = some t → OwnMessages .empty 1 t := by
  have h : (threads .empty [0]).Meets (Cleared .empty [0] 1) [.arrive ⟨1, 0, .direct 404⟩] :=
    .cons (fun _ _ => rfl) rfl trivial
  exact ⟨h, (ownMessages_iff_cleared .empty [0] 1 [.arrive ⟨1, 0, .direct 404⟩] _ rfl).2 h⟩

/-- `POST` of an object without its one field. -/
def invalidRequest : Request :=
  ⟨0, 0, .route [⟨.body ⟨"Alta", [⟨"nombre", "string", false⟩], []⟩, "alta", "Alta", none⟩]
    { body := "\x7b\x7d" }⟩

/-- A request with no route shows the messages of another one that its thread has
    served before, and none if there was no such request. -/
theorem messages_of_another_request :
    ∃ t t', (threads .empty [0]).run [.arrive ⟨1, 0, .direct 404⟩] = some t ∧
      (threads .empty [0]).run [.arrive invalidRequest, .arrive ⟨1, 0, .direct 404⟩] = some t' ∧
      t.seen = [⟨⟨1, 0, .direct 404⟩, []⟩] ∧
      t'.seen = [⟨⟨1, 0, .direct 404⟩, ["nombre: obligatorio"]⟩,
        ⟨invalidRequest, ["nombre: obligatorio"]⟩] ∧
      ¬ OwnMessages .empty 1 t' := by
  refine ⟨_, _, rfl, rfl, rfl, rfl, fun h => ?_⟩
  have hm := h ⟨⟨1, 0, .direct 404⟩, ["nombre: obligatorio"]⟩ (List.mem_cons_self ..) rfl
  cases hm

end Osodio.Odio
