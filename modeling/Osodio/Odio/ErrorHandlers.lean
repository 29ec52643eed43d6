import Osodio.Odio.Responses

/-!
# Error handlers

A response with a status of 400 or more is given to the error handlers of the server.
Its body is taken away first, and put back when the handler has written none.  The
`on error` blocks of a module are reached through one such handler.

## Main definitions

- `guarded`, `handleErrors` — the end of `App::handle_request`
- `Vm.Ends` — where a segment of execution ends
- `onError` — the handler that runs the `on error` block of the live module
- `lastStatus` — the status that the calls of a run have set last

## Main results

- `sent_kept_iff` — a silent handler preserves a response unless it is sent from a file
- `status_kept_iff` — the status is kept unless a run ends early with another one
-/

namespace Osodio.Odio

open Http (Bytes Files Response ascii jsonType hasParent isAbsolute isTemplateName)

/-! ## The server -/

abbrev ErrorHandler := ℤ → Response → Response

/-- The handlers that an `App` knows, for one code or for all of them. -/
structure ErrorHandlers where
  async : List (ℤ × ErrorHandler) := []
  catchallAsync : Option ErrorHandler := none
  sync : List (ℤ × ErrorHandler) := []
  catchall : Option ErrorHandler := none

/-- The handler for a code. -/
def ErrorHandlers.select (A : ErrorHandlers) (code : ℤ) : Option ErrorHandler :=
  A.async.lookup code <|> A.catchallAsync <|> A.sync.lookup code <|> A.catchall

/-- What `take_body` gives back. -/
def takenBody (r : Response) : Bytes := if r.sseStarted || r.wsStarted then [] else r.body

/-- `guarded`: the body is taken away, and put back unless another one is written. -/
def guarded (fn : Response → Response) (r : Response) : Response :=
  let t := fn r.takeBody
  if t.bodyCommitted then t else t.restoreBody (takenBody r)

/-- The last part of `handle_request`. -/
def handleErrors (A : ErrorHandlers) (r : Response) : Response :=
  if 400 ≤ r.statusCode then
    match A.select r.statusCode with
    | some h => guarded (h r.statusCode) r
    | none => r
  else r

/-- What the connection makes of a response: the head, and a body or a file. -/
structure Sent where
  statusCode : ℤ
  headers : List (Bytes × Bytes)
  cookies : List Bytes
  payload : Bytes ⊕ Bytes × ℕ
  deriving DecidableEq, Repr

def sent (r : Response) : Sent where
  statusCode := r.statusCode
  headers := r.headers
  cookies := r.cookies
  payload := if r.sendfilePath = [] then .inl r.body else .inr (r.sendfilePath, r.sendfileSize)

/-! ## The blocks of a module -/

/-- A segment of execution that stands at `vm` ends at the other state. -/
inductive Vm.Ends (E : Env) : Vm → Vm → Prop where
  | halted {vm : Vm} (h : vm.halted = true) : Ends E vm vm
  | tick {vm mid last : Vm} (h : vm.halted = false) (ht : vm.tick E = .ok mid)
      (hends : Ends E mid last) : Ends E vm last

/-- `Module::error_handlers`, where 0 stands for every code, and what its chunks run
    against. -/
structure LiveModule where
  env : Env
  errorHandlers : List (ℤ × Chunk)

def LiveModule.handlerFor (m : LiveModule) (code : ℤ) : Option Chunk :=
  m.errorHandlers.lookup code <|> m.errorHandlers.lookup 0

/-- The chunk that an error runs, if any. -/
def errorChunk (mod : Option LiveModule) (code : ℤ) : Option Chunk :=
  mod.bind fun m => m.handlerFor code

/-- The end of `on_error`: only a handler that is done has its value sent and the status put
    back. -/
def finishError (H : Host) (code : ℤ) (ctx : NativeCtx) (vm : Vm) : Response :=
  match vm.status with
  | .done v =>
    let res :=
      match v with
      | .null => ctx.res
      | v =>
        if ctx.responseWritten then ctx.res
        else (ctx.res.header (ascii "Content-Type") jsonType).send (H.toJson vm.world.heap v)
    res.status code
  | _ => ctx.res

/-- `on_error`.  The machine has ended at `vm`, and `old` calls had been made before it
    started. -/
def onError (H : Host) (mod : Option LiveModule) (old : ℕ) (vm : Vm) : ErrorHandler :=
  fun code res =>
    match errorChunk mod code with
    | none => res
    | some _ => finishError H code (respondAll H old ⟨res, false⟩ vm.world.history) vm

/-- The one handler that the server registers. -/
def odioHandlers (H : Host) (mod : Option LiveModule) (old : ℕ) (vm : Vm) : ErrorHandlers where
  catchall := some (onError H mod old vm)

/-- `vm` is where the handler for this code ends, if there is one. -/
def Ran (mod : Option LiveModule) (code : ℤ) (w : World) (vm : Vm) : Prop :=
  ∀ m chunk, mod = some m → m.handlerFor code = some chunk →
    Vm.Ends m.env (Vm.start chunk [] w) vm

/-! ## Two blocks -/

/-- A host without files and templates. -/
def bareHost : Host where
  toText _ _ := []
  toJson _ _ := []
  files := { contents := fun _ => none, size := fun _ => none, canonical := fun _ => none }
  render _ _ _ := .error ""
  setCookie _ _ := []
  sessionCookie _ := []

/-- `int` refuses its argument, and other natives give null. -/
def refusing : Oracle := fun w call =>
  match call with
  | .native "int" _ =>
    { value := .null, error := "int(): 'x' no es un entero", heap := w.heap }
  | _ => { value := .null, heap := w.heap }

/-- A module with one block for 404. -/
def moduleOf (chunk : Chunk) : LiveModule := ⟨⟨[], [], refusing⟩, [(404, chunk)]⟩

/-- `status(200)  int("x")`. -/
def statusChunk : Chunk where
  code := [⟨.const, 0, default⟩, ⟨.callNative, callOperand 5 1, default⟩, ⟨.pop, 0, default⟩,
    ⟨.const, 1, default⟩, ⟨.callNative, callOperand 10 1, default⟩, ⟨.pop, 0, default⟩,
    ⟨.retNull, 0, default⟩]
  constants := [.int 200, .str "x"]

/-- A block without statements. -/
def emptyChunk : Chunk where
  code := [⟨.retNull, 0, default⟩]

theorem ran_single {chunk : Chunk} {w : World} {vm : Vm}
    (h : Vm.Ends (moduleOf chunk).env (Vm.start chunk [] w) vm) :
    Ran (some (moduleOf chunk)) 404 w vm := by
  intro m c hm hc
  cases hm
  cases hc
  exact h

/-! ## What is preserved -/

/-- The calls of the run do nothing to a response. -/
def Silent (H : Host) (old : ℕ) (vm : Vm) : Prop :=
  ∀ ctx, respondAll H old ctx vm.world.history = ctx

section Preserved

variable {H : Host} {mod : Option LiveModule} {old : ℕ} {vm : Vm} {r : Response} {code : ℤ}

theorem handleErrors_odio (h : 400 ≤ r.statusCode) :
    handleErrors (odioHandlers H mod old vm) r =
      guarded (onError H mod old vm r.statusCode) r := by
  rw [handleErrors, if_pos h]
  rfl

/-- A handler that leaves a response alone. -/
theorem guarded_same {fn : Response → Response} (h : fn r.takeBody = r.takeBody) :
    guarded fn r = if r.sseStarted || r.wsStarted then r
      else { r with sendfilePath := [], sendfileSize := 0, bodyCommitted := true } := by
  unfold guarded takenBody
  rw [h]
  cases hstream : (r.sseStarted || r.wsStarted) with
  | true => simp [Response.takeBody, Response.restoreBody, hstream]
  | false => simp [Response.takeBody, Response.restoreBody, hstream]

/-- A silent handler leaves a response alone. -/
theorem onError_silent (hsilent : Silent H old vm)
    (hend : ∀ v, vm.status = .done v → v = .null) {res : Response} (hcode : res.statusCode = code) :
    onError H mod old vm code res = res := by
  unfold onError
  split
  · rfl
  · rw [hsilent]
    unfold finishError
    split
    · next v hdone =>
      rw [hend v hdone, ← hcode]
      rfl
    · rfl

/-- **What a silent handler preserves**: everything that is sent, unless it is a file.  A
    handler that fails is as good as one that returns null. -/
theorem sent_kept_iff (hcode : 400 ≤ r.statusCode)
    (hsilent : Silent H old vm) (hend : ∀ v, vm.status = .done v → v = .null) :
    sent (handleErrors (odioHandlers H mod old vm) r) = sent r ↔
      (r.sseStarted || r.wsStarted) = true ∨ r.sendfilePath = [] := by
  have hstatus : r.takeBody.statusCode = r.statusCode := by
    unfold Response.takeBody
    split <;> rfl
  rw [handleErrors_odio hcode, guarded_same (onError_silent hsilent hend hstatus)]
  cases hstream : (r.sseStarted || r.wsStarted) with
  | true => exact ⟨fun _ => .inl rfl, fun _ => rfl⟩
  | false =>
    rw [if_neg (by decide)]
    constructor
    · intro h
      right
      by_contra hfile
      have hpayload := congrArg Sent.payload h
      simp [sent, hfile] at hpayload
    · rintro (h | hfile)
      · cases h
      · simp [sent, hfile]

theorem silent_nil {H : Host} {vm : Vm} (h : vm.world.history = []) (old : ℕ) :
    Silent H old vm := by
  intro ctx
  rw [h]
  rfl

/-- A body that stands there before. -/
theorem body_kept_empty : ∃ vm, Ran (some (moduleOf emptyChunk)) 404 {} vm ∧
    sent (handleErrors (odioHandlers bareHost (some (moduleOf emptyChunk)) 0 vm)
      ((({} : Response).status 404).jsonText (ascii "null"))) =
        sent ((({} : Response).status 404).jsonText (ascii "null")) := by
  refine ⟨_, ran_single (.tick rfl rfl (.halted rfl)), ?_⟩
  refine (sent_kept_iff (by decide) (silent_nil rfl 0) ?_).2 (.inr (by decide))
  intro v hv
  cases hv
  rfl

/-- A page for the error, sent from a file, is lost. -/
theorem file_lost : ∃ vm, Ran (some (moduleOf emptyChunk)) 404 {} vm ∧
    sent (handleErrors (odioHandlers bareHost (some (moduleOf emptyChunk)) 0 vm)
      ((({} : Response).sendFileSized (ascii "404.html") 9).status 404)) ≠
        sent ((({} : Response).sendFileSized (ascii "404.html") 9).status 404) := by
  refine ⟨_, ran_single (.tick rfl rfl (.halted rfl)), ?_⟩
  decide +kernel

end Preserved

/-! ## The status -/

/-- The refusals of `html`. -/
def htmlStatus (H : Host) (r : Response) (content : Bytes) : Option ℤ :=
  if r.bodyCommitted || !isTemplateName content then none
  else if isAbsolute content || hasParent content then some 403
  else if H.files.contents (Response.joinPath r.templatesDir content) = none then some 500
  else none

/-- The refusals of `send_file`. -/
def sendFileStatus (H : Host) (path : Bytes) : Option ℤ :=
  if hasParent path then some 403 else if H.files.size path = none then some 500 else none

/-- The status that a call sets, if any. -/
def statusSet (H : Host) (heap : Heap) (r : Response) : Call → Option ℤ
  | .native "status" (.int code :: _) => some (asInt code)
  | .native "redirect" [.str _] => some 302
  | .native "redirect" (.str _ :: .int code :: _) => some (asInt code)
  | .native "html" (a :: _) => htmlStatus H r (H.toText heap a)
  | .native "send_file" (.str path :: _) => sendFileStatus H (utf8 path)
  | .method _ "status" [.int code] => some (asInt code)
  | _ => none

/-- The status that the last calls of a history have set last, without the `old` first ones. -/
def lastStatus (H : Host) (old : ℕ) (ctx : NativeCtx) : List Event → Option ℤ
  | [] => none
  | e :: es =>
    if es.length < old then none
    else statusSet H e.heap (respondAll H old ctx es).res e.call <|> lastStatus H old ctx es

section StatusSet

variable {H : Host} {mod : Option LiveModule} {vm : Vm} {r : Response} {code : ℤ}

theorem send_statusCode (r : Response) (body : Bytes) : (r.send body).statusCode = r.statusCode := by
  unfold Response.send
  split <;> rfl

theorem text_statusCode (r : Response) (body : Bytes) : (r.text body).statusCode = r.statusCode := by
  unfold Response.text
  split
  · rfl
  · exact send_statusCode _ _

theorem html_statusCode (H : Host) (r : Response) (content : Bytes) :
    (r.html H.files content).statusCode = (htmlStatus H r content).getD r.statusCode := by
  unfold Response.html htmlStatus
  cases r.bodyCommitted with
  | true => rfl
  | false =>
  cases isTemplateName content with
  | false => rfl
  | true =>
  cases isAbsolute content || hasParent content with
  | true => rfl
  | false =>
  simp only [Bool.false_eq_true, if_false, if_true, Bool.not_true, Bool.or_self]
  show _ = ((if H.files.contents (Response.joinPath r.templatesDir content) = none then some 500
    else none : Option ℤ)).getD _
  have hdir : (r.header (ascii "Content-Type") (ascii "text/html; charset=utf-8")).templatesDir =
      r.templatesDir := rfl
  rw [hdir]
  cases H.files.contents (Response.joinPath r.templatesDir content) <;> rfl

theorem sendFile_statusCode (H : Host) (r : Response) (path : Bytes) :
    (r.sendFile H.files path).statusCode = (sendFileStatus H path).getD r.statusCode := by
  unfold Response.sendFile sendFileStatus
  cases hasParent path with
  | true => rfl
  | false =>
    simp only [Bool.false_eq_true, if_false]
    cases H.files.size path <;> rfl

/-- A native that writes the response. -/
theorem statusSet_of_ok {heap : Heap} {name : String} {args : List Value} {f : Response → Response}
    (h : fnRespond H heap name args = some (.ok f)) (r : Response) :
    (f r).statusCode = (statusSet H heap r (.native name args)).getD r.statusCode := by
  unfold fnRespond at h
  split at h
  case h_1 =>
    cases h
    exact text_statusCode r _
  case h_2 => cases h; exact html_statusCode H r _
  case h_3 => cases h; exact send_statusCode _ _
  case h_4 => cases h; exact send_statusCode _ _
  case h_6 =>
    split at h
    · cases h; exact send_statusCode _ _
    · cases h; exact send_statusCode _ _
    · cases h
  case h_8 => cases h; exact sendFile_statusCode H r _
  all_goals cases h

/-- A native that writes no response. -/
theorem statusSet_of_not_ok {heap : Heap} {name : String} {args : List Value}
    (h : ∀ f, fnRespond H heap name args ≠ some (.ok f)) (r : Response) :
    statusSet H heap r (.native name args) = none := by
  unfold statusSet
  split
  case h_7 => rfl
  case h_1 heq => cases heq; exact absurd rfl (h _)
  case h_2 heq => cases heq; exact absurd rfl (h _)
  case h_3 heq => cases heq; exact absurd rfl (h _)
  case h_4 heq => cases heq; exact absurd rfl (h _)
  case h_5 heq => cases heq; exact absurd rfl (h _)
  case h_6 heq => cases heq

/-- The modifiers, of which only one sets the status. -/
theorem statusSet_of_modify {heap : Heap} {receiver : Value} {name : String} {args : List Value}
    (r : Response) :
    ((fnModify H heap name args).elim r fun f => f r).statusCode =
      (statusSet H heap r (.method receiver name args)).getD r.statusCode := by
  have hset : ∀ s, statusSet H heap r (.method receiver name args) = s →
      s = none ∨ ∃ code, name = "status" ∧ args = [.int code] ∧ s = some (asInt code) := by
    intro s hs
    unfold statusSet at hs
    split at hs
    case h_6 code heq =>
      cases heq
      exact .inr ⟨_, rfl, rfl, hs.symm⟩
    case h_7 => exact .inl hs.symm
    all_goals contradiction
  rcases hset _ rfl with hnone | ⟨code, rfl, rfl, hsome⟩
  · rw [hnone]
    unfold fnModify
    split
    case h_1 code => cases hnone
    all_goals rfl
  · rfl

/-- **The status after a call.** -/
theorem respond_statusCode (H : Host) (w : World) (call : Call) (ctx : NativeCtx) :
    (respond H w call ctx).res.statusCode =
      (statusSet H w.heap ctx.res call).getD ctx.res.statusCode := by
  cases call with
  | native name args =>
    unfold respond
    dsimp only
    split
    · next f hf => exact statusSet_of_ok hf ctx.res
    · next hno => rw [statusSet_of_not_ok hno]; rfl
  | render plantilla datos =>
    unfold respond
    dsimp only
    split
    · exact send_statusCode _ _
    · rfl
  | method receiver name args =>
    rw [← statusSet_of_modify ctx.res]
    unfold respond
    dsimp only
    cases fnModify H w.heap name args <;> rfl
  | await name args => rfl

/-- The status after some calls. -/
theorem respondAll_statusCode (old : ℕ) (ctx : NativeCtx) (es : List Event) :
    (respondAll H old ctx es).res.statusCode =
      (lastStatus H old ctx es).getD ctx.res.statusCode := by
  induction es with
  | nil => rfl
  | cons e es ih =>
    rw [respondAll, lastStatus]
    split
    · rfl
    · rw [respond_statusCode, ih]
      cases statusSet H e.heap (respondAll H old ctx es).res e.call <;> rfl

theorem guarded_statusCode (fn : Response → Response) (r : Response) :
    (guarded fn r).statusCode = (fn r.takeBody).statusCode := by
  unfold guarded
  dsimp only
  split
  · rfl
  · unfold Response.restoreBody
    split <;> rfl

theorem takeBody_statusCode (r : Response) : r.takeBody.statusCode = r.statusCode := by
  unfold Response.takeBody
  split <;> rfl

/-- The end of a run is a value. -/
def Returns (vm : Vm) : Prop := ∃ v, vm.status = .done v

theorem finishError_returns (h : Returns vm) (ctx : NativeCtx) :
    (finishError H code ctx vm).statusCode = code := by
  obtain ⟨v, hv⟩ := h
  rw [finishError, hv]
  rfl

theorem finishError_early (h : ¬ Returns vm) (ctx : NativeCtx) :
    finishError H code ctx vm = ctx.res := by
  unfold finishError
  split
  · next v hv => exact absurd ⟨v, hv⟩ h
  · rfl

/-- **When the status is kept**: exactly if there is no handler, or its run returns a value,
    or the last of its calls that sets the status, if any, sets the same one. -/
theorem status_kept_iff (hcode : 400 ≤ r.statusCode) (old : ℕ) :
    (handleErrors (odioHandlers H mod old vm) r).statusCode = r.statusCode ↔
      errorChunk mod r.statusCode = none ∨ Returns vm ∨
        ∀ code ∈ lastStatus H old ⟨r.takeBody, false⟩ vm.world.history, code = r.statusCode := by
  rw [handleErrors_odio hcode, guarded_statusCode, onError]
  cases errorChunk mod r.statusCode with
  | none => exact ⟨fun _ => .inl rfl, fun _ => takeBody_statusCode r⟩
  | some chunk =>
    dsimp only
    by_cases hret : Returns vm
    · exact ⟨fun _ => .inr (.inl hret), fun _ => finishError_returns hret _⟩
    · rw [finishError_early hret, respondAll_statusCode]
      show (lastStatus H old ⟨r.takeBody, false⟩ vm.world.history).getD r.takeBody.statusCode =
        r.statusCode ↔ _
      rw [takeBody_statusCode]
      cases lastStatus H old ⟨r.takeBody, false⟩ vm.world.history with
      | none => exact ⟨fun _ => .inr (.inr nofun), fun _ => rfl⟩
      | some k =>
        refine ⟨fun hk => .inr (.inr fun code hcode => ?_), ?_⟩
        · exact (Option.some.inj hcode).symm.trans hk
        · rintro (h | h | h)
          · cases h
          · exact absurd h hret
          · exact h k rfl

/-- A response to which the block adds nothing. -/
theorem status_kept_empty : ∃ vm, Ran (some (moduleOf emptyChunk)) 404 {} vm ∧
    (handleErrors (odioHandlers bareHost (some (moduleOf emptyChunk)) 0 vm)
      (({} : Response).status 404)).statusCode = 404 := by
  refine ⟨_, ran_single (.tick rfl rfl (.halted rfl)), ?_⟩
  exact (status_kept_iff (r := ({} : Response).status 404) (by decide) 0).2 (.inr (.inl ⟨_, rfl⟩))

/-- The error of the block comes behind its `status(200)`. -/
theorem status_lost : ∃ vm, Ran (some (moduleOf statusChunk)) 404 {} vm ∧
    (handleErrors (odioHandlers bareHost (some (moduleOf statusChunk)) 0 vm)
      (({} : Response).status 404)).statusCode = 200 := by
  refine ⟨_, ran_single (.tick rfl rfl (.tick rfl rfl (.tick rfl rfl (.tick rfl rfl (.tick rfl rfl
    (.tick rfl rfl (.tick rfl rfl (.halted rfl)))))))), ?_⟩
  decide +kernel

end StatusSet

end Osodio.Odio
