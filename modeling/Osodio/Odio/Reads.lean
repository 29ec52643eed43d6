import Osodio.Odio.Accessors
import Osodio.Odio.Binding

/-!
# What is read outside the machine

The natives and the methods read their arguments, and the drivers of the routes read what is
awaited and what a request brings.  They look at the type first, with three exceptions: the key of
a field of the session, the time of a `sleep`, and the index that a file carries.

## Main definitions

- `CtxView` — what a native looks at before it reads
- `Reading.fnStatus`, `Reading.callMethod`, `Reading.runDb`, … — natives, methods and drivers
- `Call.reads` — what a call reads
- `Call.Apt` — the values that are not looked at have the type they are read at

## Main results

- `Call.guardedIff` — a call reads every value at its type exactly if it is apt
- `guarded_startReads` — so does the start of a request, always
-/

namespace Osodio.Odio

/-! ## What is looked at -/

/-- `NativeCtx` and what is behind it, as far as it is looked at before a value is read. -/
structure CtxView where
  /-- There is a session, and it has a secret. -/
  session : Bool := false
  sse : Bool := false
  /-- How many parts `parts` has, if it is set. -/
  parts : Option ℕ := none
  /-- The module has a driver and a pool. -/
  active : String → Bool := fun _ => false
  /-- The time of a token is over. -/
  expired : Float → Bool := fun _ => false

/-- `args[n]`; the emitter counts the arguments of a native. -/
def arg (n : ℕ) (args : List Value) : Value := args.getD n .null

/-- What a native reads, of its arguments and of the boxes behind them. -/
abbrev Reader := CtxView → List Plantilla → Heap → List Value → Reading Unit

namespace Reading

/-! ## Natives -/

/-- A test for a string, and the string. -/
def wantStr (message : String) (v : Value) : Reading String := do
  if !v.isStr then fail message
  else asStr v

/-- A test for an integer, and the integer. -/
def wantInt (message : String) (v : Value) : Reading Int64 := do
  if !v.isInt then fail message
  else asInt v

/-- The index of the template, and the dictionary with its variables. -/
def fnRenderTpl (plantillas : List Plantilla) (args : List Value) :
    Reading (Plantilla × Option ℕ) := do
  if !(arg 0 args).isInt then fail "render(): plantilla no compilada"
  else
    let idx ← asInt (arg 0 args)
    match if idx < 0 then none else plantillas[idx.toNatClampNeg]? with
    | none => fail "render(): indice de plantilla fuera de rango"
    | some p =>
      if decide (1 < args.length) && (arg 1 args).isDict then
        return (p, some (← asDict (arg 1 args)))
      else return (p, none)

def fnStatus (args : List Value) : Reading Int64 :=
  wantInt "status() espera un codigo entero" (arg 0 args)

/-- The code and the destination. -/
def fnRedirect (args : List Value) : Reading (Int64 × String) := do
  if !(arg 0 args).isStr then fail "redirect() espera el destino como string"
  else
    let code ← (if 1 < args.length then
        wantInt "el segundo argumento de redirect() es el codigo" (arg 1 args)
      else pure 302)
    return (code, ← asStr (arg 0 args))

def fnSendFile (args : List Value) : Reading String :=
  wantStr "send_file() espera una ruta como string" (arg 0 args)

def fnLen (heap : Heap) (args : List Value) : Reading Value := do
  let v := arg 0 args
  if v.isStr then return .int (Int64.ofNat (← asStr v).utf8ByteSize)
  else if v.isList then return .int (Int64.ofNat (listAt heap (← asList v)).length)
  else if v.isDict then return .int (Int64.ofNat (dictAt heap (← asDict v)).length)
  else fail ("len() no aplica a " ++ v.typeName)

/-- What `int` reads; an integer is given back as it is. -/
def fnInt (args : List Value) : Reading Unit :=
  let v := arg 0 args
  if v.isInt then .ok ()
  else if v.isFloat then discard (asFloat v)
  else if v.isBool then discard (asBool v)
  else if v.isStr then discard (asStr v)
  else fail ("int() no aplica a " ++ v.typeName)

def fnHeader (args : List Value) : Reading String :=
  wantStr "header() espera el nombre como string" (arg 0 args)

def fnQuery (args : List Value) : Reading String :=
  wantStr "query() espera el nombre como string" (arg 0 args)

def fnCookie (args : List Value) : Reading String :=
  wantStr "cookie() espera el nombre como string" (arg 0 args)

def fnForm (args : List Value) : Reading String :=
  wantStr "form() espera el nombre como string" (arg 0 args)

/-- The name of the event, if there is one. -/
def fnSseSend (C : CtxView) (args : List Value) : Reading (Option String) := do
  if !C.sse then fail "'sse.send' solo existe dentro de una ruta sse"
  else if args.length = 1 then return none
  else return some (← wantStr "el nombre del evento tiene que ser string" (arg 0 args))

/-- The key of a field of the session, which is not looked at. -/
def sessionKey (C : CtxView) (args : List Value) : Reading String :=
  if !C.session then fail "la sesion no esta configurada: falta 'session: secret ...' en app:"
  else asStr (arg 0 args)

def fnSessionGet : CtxView → List Value → Reading String := sessionKey

def fnSessionSet : CtxView → List Value → Reading String := sessionKey

/-- The key and the number. -/
def fnStateIncr (args : List Value) : Reading (Int64 × String) := do
  if !(arg 0 args).isStr then fail "state.incr() espera la clave como string"
  else
    let n ← (if 1 < args.length then wantInt "state.incr() espera un entero" (arg 1 args)
      else pure 1)
    return (n, ← asStr (arg 0 args))

/-- What is no number counts as 1. -/
def fnStateDecr (args : List Value) : Reading (Int64 × String) := do
  if !(arg 0 args).isStr then fail "state.decr() espera la clave como string"
  else
    let n ← (if decide (1 < args.length) && (arg 1 args).isInt then asInt (arg 1 args)
      else pure 1)
    return (n, ← asStr (arg 0 args))

def fnStateGet (args : List Value) : Reading String :=
  wantStr "state.get() espera la clave como string" (arg 0 args)

def fnStateSet (args : List Value) : Reading String :=
  wantStr "state.set() espera la clave como string" (arg 0 args)

def fnStateRemove (args : List Value) : Reading String :=
  wantStr "state.remove() espera la clave como string" (arg 0 args)

/-- The natives that look at everything they read. -/
def guardedFns : List (String × Reader) := [
  ("__render_tpl", fun _ plantillas _ args => discard (fnRenderTpl plantillas args)),
  ("status", fun _ _ _ args => discard (fnStatus args)),
  ("redirect", fun _ _ _ args => discard (fnRedirect args)),
  ("send_file", fun _ _ _ args => discard (fnSendFile args)),
  ("len", fun _ _ heap args => discard (fnLen heap args)),
  ("int", fun _ _ _ args => fnInt args),
  ("header", fun _ _ _ args => discard (fnHeader args)),
  ("query", fun _ _ _ args => discard (fnQuery args)),
  ("__sse_send", fun C _ _ args => discard (fnSseSend C args)),
  ("__state_incr", fun _ _ _ args => discard (fnStateIncr args)),
  ("__state_decr", fun _ _ _ args => discard (fnStateDecr args)),
  ("__state_get", fun _ _ _ args => discard (fnStateGet args)),
  ("__state_set", fun _ _ _ args => discard (fnStateSet args)),
  ("__state_remove", fun _ _ _ args => discard (fnStateRemove args)),
  ("cookie", fun _ _ _ args => discard (fnCookie args)),
  ("form", fun _ _ _ args => discard (fnForm args))]

/-- What a native reads.  The others write their arguments as text or as JSON, or have none. -/
def native (C : CtxView) (plantillas : List Plantilla) (heap : Heap) (name : String)
    (args : List Value) : Reading Unit :=
  if name = "__session_get" then discard (fnSessionGet C args)
  else if name = "__session_set" then discard (fnSessionSet C args)
  else
    match guardedFns.lookup name with
    | some f => f C plantillas heap args
    | none => .ok ()

/-! ## Methods -/

/-- `want`: the number of arguments of a method. -/
def want (got min max : ℕ) (name : String) : Reading Unit :=
  if min ≤ got ∧ got ≤ max then .ok ()
  else fail ("'" ++ name ++ "()' recibe un numero de argumentos que no admite")

def metodoStatus (args : List Value) : Reading Int64 :=
  if args.length ≠ 1 ∨ !(arg 0 args).isInt then fail "status() espera un codigo entero"
  else asInt (arg 0 args)

def metodoHeader (args : List Value) : Reading String :=
  if args.length ≠ 2 ∨ !(arg 0 args).isStr then fail "header() espera nombre y valor"
  else asStr (arg 0 args)

/-- `pick`, with the test and the read of an option. -/
def pick {α : Type} (o : Dict) (k : String) (test : Value → Bool) (read : Value → Reading α) :
    Reading (Option α) :=
  match o.lookup k with
  | some v => if test v then some <$> read v else .ok none
  | none => .ok none

/-- The options of a cookie, as they are read. -/
structure CookiePicks where
  maxAge : Option Int64
  path : Option String
  domain : Option String
  secure : Option Bool
  httpOnly : Option Bool
  sameSite : Option String

def cookiePicks (o : Dict) : Reading CookiePicks := do
  return {
    maxAge := ← pick o "max_age" Value.isInt asInt
    path := ← pick o "path" Value.isStr asStr
    domain := ← pick o "domain" Value.isStr asStr
    secure := ← pick o "secure" Value.isBool asBool
    httpOnly := ← pick o "http_only" Value.isBool asBool
    sameSite := ← pick o "same_site" Value.isStr asStr }

def metodoCookie (heap : Heap) (args : List Value) : Reading (Option CookiePicks × String) := do
  if args.length < 2 ∨ !(arg 0 args).isStr then fail "cookie() espera al menos nombre y valor"
  else
    let opts ← (if decide (2 < args.length) && (arg 2 args).isDict then
        some <$> (asDict (arg 2 args) >>= fun addr => cookiePicks (dictAt heap addr))
      else pure none)
    return (opts, ← asStr (arg 0 args))

/-- The methods of a string; the second string is that of an argument. -/
def strMethod (recv : Value) (name : String) (args : List Value) :
    Reading (String × Option String) := do
  let s ← asStr recv
  if name = "starts_with" ∨ name = "ends_with" ∨ name = "contains" then
    want args.length 1 1 name
    return (s, some (← wantStr ("'" ++ name ++ "()' espera un string") (arg 0 args)))
  else if name = "upper" ∨ name = "lower" ∨ name = "trim" then return (s, none)
  else fail ("los string no tienen el metodo '" ++ name ++ "'")

def listMethod (recv : Value) (name : String) (args : List Value) : Reading ℕ := do
  if name = "add" then
    want args.length 1 1 name
    asList recv
  else fail ("las List no tienen el metodo '" ++ name ++ "'")

/-- The index of an uploaded file, which is not looked at, and the directory. -/
def metodoSave (C : CtxView) (d : Dict) (args : List Value) : Reading (Int64 × String) := do
  match d.lookup "__idx", C.parts with
  | some idx, some parts =>
    want args.length 1 1 "save"
    if !(arg 0 args).isStr then fail "save() espera el directorio como string"
    else
      let i ← asInt idx
      if i < 0 ∨ parts ≤ i.toNatClampNeg then fail "el fichero subido ya no esta disponible"
      else return (i, ← asStr (arg 0 args))
  | _, _ => fail "save() solo existe sobre un File subido"

def dictMethod (C : CtxView) (heap : Heap) (recv : Value) (name : String) (args : List Value) :
    Reading Unit := do
  let d := dictAt heap (← asDict recv)
  if name = "save" then discard (metodoSave C d args)
  else if name = "has" then want args.length 1 1 name
  else if name = "keys" then return ()
  else fail ("los Dict no tienen el metodo '" ++ name ++ "'")

/-- `call_method`. -/
def callMethod (C : CtxView) (heap : Heap) (recv : Value) (name : String) (args : List Value) :
    Reading Unit :=
  if name = "status" then discard (metodoStatus args)
  else if name = "header" then discard (metodoHeader args)
  else if name = "cookie" then discard (metodoCookie heap args)
  else if recv.isStr then discard (strMethod recv name args)
  else if recv.isList then discard (listMethod recv name args)
  else if recv.isDict then dictMethod C heap recv name args
  else fail ("los valores de tipo " ++ recv.typeName ++ " no tienen metodos")

/-! ## Drivers -/

/-- `clamp_sleep_ms`. -/
def clampSleepMs (ms : Int64) : Int64 := if ms < 1 then 1 else ms

/-- The time of a `sleep`, which is not looked at. -/
def sleepMs (args : List Value) : Reading Int64 := do
  return clampSleepMs (← (if args.isEmpty then pure 0 else asInt (arg 0 args)))

/-- `run_db`: the module and the query, or the error in a value of its own. -/
def runDb (C : CtxView) (needsSql : Bool) (args : List Value) :
    Reading (Except String (String × Option String)) := do
  if args.isEmpty || !(arg 0 args).isStr then return .error "consulta mal formada"
  else
    let mod ← asStr (arg 0 args)
    if !C.active mod then
      return .error ("el modulo '" ++ mod ++ "' no esta configurado: falta su bloque en app:")
    else if needsSql then
      if decide (args.length < 2) || !(arg 1 args).isStr then return .error "falta la consulta SQL"
      else return .ok (mod, some (← asStr (arg 1 args)))
    else return .ok (mod, none)

/-- What the driver of a route reads when the machine waits; it is the same for the three kinds
    of routes. -/
def await (C : CtxView) (name : String) (args : List Value) : Reading Unit :=
  if name = "__db_query" ∨ name = "__db_exec" then discard (runDb C true args)
  else if name = "__db_begin" ∨ name = "__db_commit" ∨ name = "__db_rollback" ∨
      name = "__db_last_id" then discard (runDb C false args)
  else if name = "sleep" then discard (sleepMs args)
  else .ok ()

/-- `load_session`, once the signature is right and the text is JSON. -/
def loadSession (v : Value) : Reading (Option ℕ) := do
  if !v.isDict then return none
  else return some (← asDict v)

/-- The `alg` of the header of a token is the one that is expected. -/
def algIsHs256 (header : Dict) : Reading Bool := do
  match header.lookup "alg" with
  | none => return false
  | some alg =>
    if !alg.isStr then return false
    else return (← asStr alg) == "HS256"

/-- The token is before its `exp`. -/
def expPasses (C : CtxView) (payload : Dict) : Reading Bool := do
  match payload.lookup "exp" with
  | none => return true
  | some exp =>
    if exp.isNum then return !C.expired (← asFloat exp)
    else return true

def issPasses (payload : Dict) (issuer : String) : Reading Bool := do
  match payload.lookup "iss" with
  | none => return true
  | some iss =>
    if issuer == "" then return true
    else if !iss.isStr then return false
    else return (← asStr iss) == issuer

/-- `verify_jwt`, once the signature is right and the two parts are JSON. -/
def verifyJwt (C : CtxView) (heap : Heap) (header payload : Value) (issuer : String) :
    Reading Bool := do
  if !header.isDict then return false
  else
    let alg ← algIsHs256 (dictAt heap (← asDict header))
    if !alg || !payload.isDict then return false
    else
      let claims := dictAt heap (← asDict payload)
      if !(← expPasses C claims) then return false
      else issPasses claims issuer

/-- `valor_encaja`. -/
def valorEncaja (v : Value) (type : String) : Reading (Option Value) := do
  if type = "string" then return if v.isStr then some v else none
  else if type = "bool" then return if v.isBool then some v else none
  else if type = "int" ∨ type = "long" then return if v.isInt then some v else none
  else if type = "float" ∨ type = "double" then
    if !v.isNum then return none
    else return some (.float (← asFloat v))
  else return none

/-- The fields of `bind_body`, once the body is JSON; those that are absent or null are not
    compared with their type. -/
def bindFields (body : Dict) : List ClassField → Reading (List (Option Value))
  | [] => .ok []
  | f :: fs => do
    let v ← (match valueAt f.name body with
      | .null => pure none
      | v => valorEncaja v f.type)
    return v :: (← bindFields body fs)

/-- `bind_body`. -/
def bindBody (heap : Heap) (fields : List ClassField) (body : Value) :
    Reading (Option (List (Option Value))) := do
  if !body.isDict then return none
  else return some (← bindFields (dictAt heap (← asDict body)) fields)

/-- `BucleInicio`, in a template that a native draws; `BucleSiguiente` reads the same list. -/
def bucleInicio (heap : Heap) (v : Value) : Reading (List Value) := do
  if !v.isList then fail ("\x7b% for %\x7d necesita una lista, no " ++ v.typeName)
  else return listAt heap (← asList v)

/-! ## The natives look first -/

section Natives

variable {v : Value} {message : String} {args : List Value}

theorem guarded_discard {α : Type} {x : Reading α} (hx : Guarded x) : Guarded (discard x) :=
  hx.map _

theorem guarded_wantStr (hm : message ≠ "") (v : Value) : Guarded (wantStr message v) :=
  .ite (fun _ => guarded_fail.2 hm) fun h => guarded_asStr (by simpa using h)

theorem guarded_wantInt (hm : message ≠ "") (v : Value) : Guarded (wantInt message v) :=
  .ite (fun _ => guarded_fail.2 hm) fun h => guarded_asInt (by simpa using h)

/-- A text with a part that is not empty is not empty. -/
theorem append_ne_empty {s : String} (h : s ≠ "") (t : String) : s ++ t ≠ "" := by
  intro he
  exact h (String.append_eq_empty_iff.1 he).1

theorem guarded_fnRenderTpl (plantillas : List Plantilla) (args : List Value) :
    Guarded (fnRenderTpl plantillas args) := by
  refine .ite (fun _ => guarded_fail.2 (by decide)) fun h => ?_
  refine .bind (guarded_asInt (by simpa using h)) fun idx _ => ?_
  cases (if idx < 0 then none else plantillas[idx.toNatClampNeg]? : Option Plantilla) with
  | none => exact guarded_fail.2 (by decide)
  | some p =>
    refine .ite (fun hd => ?_) fun _ => guarded_pure _
    exact .bind (guarded_asDict (by simp_all)) fun _ _ => guarded_pure _

theorem guarded_fnRedirect (args : List Value) : Guarded (fnRedirect args) := by
  refine .ite (fun _ => guarded_fail.2 (by decide)) fun h => ?_
  refine .bind (.ite (fun _ => guarded_wantInt (by decide) _) fun _ => guarded_pure _) fun _ _ => ?_
  exact .bind (guarded_asStr (by simpa using h)) fun _ _ => guarded_pure _

theorem fnLen_eq (heap : Heap) (args : List Value) :
    fnLen heap args = lift (lenOf heap (arg 0 args)) := by
  unfold fnLen
  cases arg 0 args <;> rfl

theorem guarded_fnLen (heap : Heap) (args : List Value) : Guarded (fnLen heap args) := by
  rw [fnLen_eq]
  cases arg 0 args <;> first
    | exact guarded_ok _
    | exact guarded_fail.2 (append_ne_empty (s := "len() no aplica a ") (by decide) _)

theorem guarded_fnInt (args : List Value) : Guarded (fnInt args) := by
  refine .ite (fun _ => guarded_ok _) fun _ => ?_
  refine .ite (fun h => guarded_discard (guarded_asFloat ?_)) fun _ => ?_
  · cases hv : arg 0 args <;> rw [hv] at h <;> first | rfl | cases h
  refine .ite (fun h => guarded_discard (guarded_asBool h)) fun _ => ?_
  refine .ite (fun h => guarded_discard (guarded_asStr h)) fun _ => ?_
  exact guarded_fail.2 (append_ne_empty (by decide) _)

theorem guarded_fnSseSend (C : CtxView) (args : List Value) : Guarded (fnSseSend C args) := by
  refine .ite (fun _ => guarded_fail.2 (by decide)) fun _ => ?_
  refine .ite (fun _ => guarded_pure _) fun _ => ?_
  exact .bind (guarded_wantStr (by decide) _) fun _ _ => guarded_pure _

theorem guarded_fnStateIncr (args : List Value) : Guarded (fnStateIncr args) := by
  refine .ite (fun _ => guarded_fail.2 (by decide)) fun h => ?_
  refine .bind (.ite (fun _ => guarded_wantInt (by decide) _) fun _ => guarded_pure _) fun _ _ => ?_
  exact .bind (guarded_asStr (by simpa using h)) fun _ _ => guarded_pure _

theorem guarded_fnStateDecr (args : List Value) : Guarded (fnStateDecr args) := by
  refine .ite (fun _ => guarded_fail.2 (by decide)) fun h => ?_
  refine .bind (.ite (fun hn => guarded_asInt ?_) fun _ => guarded_pure _) fun _ _ => ?_
  · exact (Bool.and_eq_true_iff.1 hn).2
  exact .bind (guarded_asStr (by simpa using h)) fun _ _ => guarded_pure _

theorem guarded_of_mem {p : String × Reader} (hp : p ∈ guardedFns) (C : CtxView)
    (plantillas : List Plantilla) (heap : Heap) (args : List Value) :
    Guarded (p.2 C plantillas heap args) := by
  revert p
  simp only [guardedFns, List.forall_mem_cons, List.not_mem_nil, false_imp_iff, implies_true,
    and_true]
  exact ⟨guarded_discard (guarded_fnRenderTpl _ _),
    guarded_discard (guarded_wantInt (by decide) _), guarded_discard (guarded_fnRedirect _),
    guarded_discard (guarded_wantStr (by decide) _),
    guarded_discard (guarded_fnLen _ _), guarded_fnInt _,
    guarded_discard (guarded_wantStr (by decide) _),
    guarded_discard (guarded_wantStr (by decide) _), guarded_discard (guarded_fnSseSend _ _),
    guarded_discard (guarded_fnStateIncr _), guarded_discard (guarded_fnStateDecr _),
    guarded_discard (guarded_wantStr (by decide) _),
    guarded_discard (guarded_wantStr (by decide) _),
    guarded_discard (guarded_wantStr (by decide) _),
    guarded_discard (guarded_wantStr (by decide) _),
    guarded_discard (guarded_wantStr (by decide) _)⟩

/-- A field of the session, whose key has to be a string. -/
theorem guardedIff_sessionKey (C : CtxView) (args : List Value) :
    GuardedIff (discard (sessionKey C args)) (C.session = true → (arg 0 args).isStr = true) := by
  unfold sessionKey
  cases C.session with
  | false => exact .of_true (guarded_discard (guarded_fail.2 (by decide))) nofun
  | true =>
    cases arg 0 args with
    | str s => exact .of_true (guarded_ok ()) fun _ => rfl
    | _ => exact .of_false ⟨_, _, rfl⟩ fun h => by cases h rfl

end Natives

/-! ## The methods look first -/

section Methods

variable {recv : Value} {name : String} {args : List Value}

theorem guarded_want (got min max : ℕ) (name : String) : Guarded (want got min max name) :=
  .ite (fun _ => guarded_ok _) fun _ => guarded_fail.2 (append_ne_empty
    (append_ne_empty (by decide) _) _)

theorem guarded_metodoStatus (args : List Value) : Guarded (metodoStatus args) :=
  .ite (fun _ => guarded_fail.2 (by decide)) fun h => guarded_asInt (by simp_all)

theorem guarded_metodoHeader (args : List Value) : Guarded (metodoHeader args) :=
  .ite (fun _ => guarded_fail.2 (by decide)) fun h => guarded_asStr (by simp_all)

theorem guarded_pick {α : Type} {test : Value → Bool} {read : Value → Reading α}
    (h : ∀ v, test v = true → Guarded (read v)) (o : Dict) (k : String) :
    Guarded (pick o k test read) := by
  unfold pick
  cases o.lookup k with
  | none => exact guarded_ok _
  | some v => exact .ite (fun hv => (h v hv).map _) fun _ => guarded_ok _

theorem guarded_cookiePicks (o : Dict) : Guarded (cookiePicks o) := by
  refine .bind (guarded_pick (fun _ => guarded_asInt) o _) fun _ _ => ?_
  refine .bind (guarded_pick (fun _ => guarded_asStr) o _) fun _ _ => ?_
  refine .bind (guarded_pick (fun _ => guarded_asStr) o _) fun _ _ => ?_
  refine .bind (guarded_pick (fun _ => guarded_asBool) o _) fun _ _ => ?_
  refine .bind (guarded_pick (fun _ => guarded_asBool) o _) fun _ _ => ?_
  exact .bind (guarded_pick (fun _ => guarded_asStr) o _) fun _ _ => guarded_pure _

theorem guarded_metodoCookie (heap : Heap) (args : List Value) :
    Guarded (metodoCookie heap args) := by
  refine .ite (fun _ => guarded_fail.2 (by decide)) fun h => ?_
  refine .bind (.ite (fun hd => Guarded.map (.bind ?_ fun _ _ => guarded_cookiePicks _) _)
    fun _ => guarded_pure _) fun _ _ => ?_
  · exact guarded_asDict (Bool.and_eq_true_iff.1 hd).2
  · exact .bind (guarded_asStr (by simp_all)) fun _ _ => guarded_pure _

theorem guarded_strMethod (h : recv.isStr = true) (name : String) (args : List Value) :
    Guarded (strMethod recv name args) := by
  refine .bind (guarded_asStr h) fun s _ => ?_
  refine .ite (fun _ => ?_) fun _ => .ite (fun _ => ?_) fun _ => ?_
  · refine .bind (guarded_want _ _ _ _) fun _ _ => ?_
    exact .bind (guarded_wantStr (append_ne_empty (append_ne_empty (by decide) _) _) _)
      fun _ _ => guarded_pure _
  · exact guarded_pure _
  · exact guarded_fail.2 (append_ne_empty (append_ne_empty (by decide) _) _)

theorem guarded_listMethod (h : recv.isList = true) (name : String) (args : List Value) :
    Guarded (listMethod recv name args) := by
  refine .ite (fun _ => ?_) fun _ => ?_
  · exact .bind (guarded_want _ _ _ _) fun _ _ => guarded_asList h
  · exact guarded_fail.2 (append_ne_empty (append_ne_empty (by decide) _) _)

theorem want_ok {got n : ℕ} {name : String} {u : Unit} (h : want got n n name = .ok u) :
    got = n := by
  unfold want at h
  split at h
  · next hle => exact Nat.le_antisymm hle.2 hle.1
  · cases h

theorem eq_singleton_of_isStr (hlen : args.length = 1) (h : (arg 0 args).isStr = true) :
    ∃ dir, args = [.str dir] := by
  obtain ⟨v, rfl⟩ := List.length_eq_one_iff.1 hlen
  cases v with
  | str dir => exact ⟨dir, rfl⟩
  | _ => cases h

/-- A file is saved, whose index has to be an integer. -/
theorem guardedIff_metodoSave (C : CtxView) (d : Dict) (args : List Value) :
    GuardedIff (discard (metodoSave C d args)) (∀ idx dir, d.lookup "__idx" = some idx →
      C.parts.isSome = true → args = [.str dir] → idx.isInt = true) := by
  unfold metodoSave
  cases d.lookup "__idx" with
  | none => exact .of_true (guarded_discard (guarded_fail.2 (by decide))) nofun
  | some idx =>
    cases C.parts with
    | none => exact .of_true (guarded_discard (guarded_fail.2 (by decide))) nofun
    | some parts =>
      refine ⟨fun h => ?_, fun h => ?_⟩
      · refine guarded_discard (.bind (guarded_want _ _ _ _) fun _ hlen => ?_)
        refine .ite (fun _ => guarded_fail.2 (by decide)) fun hstr => ?_
        have hstr : (arg 0 args).isStr = true := by simpa using hstr
        obtain ⟨dir, hargs⟩ := eq_singleton_of_isStr (want_ok hlen) hstr
        refine .bind (guarded_asInt (h idx dir rfl rfl hargs)) fun _ _ => ?_
        refine .ite (fun _ => guarded_fail.2 (by decide)) fun _ => ?_
        exact .bind (guarded_asStr hstr) fun _ _ => guarded_pure _
      · push Not at h
        obtain ⟨_, dir, ⟨⟩, -, rfl, hidx⟩ := h
        cases idx with
        | int n => exact absurd rfl hidx
        | _ => exact ⟨_, _, rfl⟩

theorem guardedIff_dictMethod (C : CtxView) (heap : Heap) (addr : ℕ) (name : String)
    (args : List Value) : GuardedIff (dictMethod C heap (.dict addr) name args)
      (name = "save" → ∀ idx dir, (dictAt heap addr).lookup "__idx" = some idx →
        C.parts.isSome = true → args = [.str dir] → idx.isInt = true) := by
  change GuardedIff (if name = "save" then _ else _) _
  split
  · next hname =>
    exact (guardedIff_metodoSave C _ args).congr ⟨fun h _ => h, fun h => h hname⟩
  · next hname =>
    refine .of_true ?_ fun h => absurd h hname
    refine .ite (fun _ => guarded_want _ _ _ _) fun _ => .ite (fun _ => guarded_pure _) fun _ => ?_
    exact guarded_fail.2 (append_ne_empty (append_ne_empty (by decide) _) _)

end Methods

/-! ## Calls -/

end Reading

/-- What a call reads. -/
def Call.reads (C : CtxView) (plantillas : List Plantilla) (heap : Heap) : Call → Reading Unit
  | .native name args => Reading.native C plantillas heap name args
  | .method recv name args => Reading.callMethod C heap recv name args
  | .render _ _ => .ok ()
  | .await name args => Reading.await C name args

/-- What is read without a test has its type: the key of a field of the session, the time of a
    `sleep`, and the index in the dictionary on which `save` is called. -/
def Call.Apt (C : CtxView) (heap : Heap) : Call → Prop
  | .native name args => name ∈ ["__session_get", "__session_set"] → C.session = true →
    (arg 0 args).isStr = true
  | .method (.dict addr) name args => name = "save" → ∀ idx dir,
    (dictAt heap addr).lookup "__idx" = some idx → C.parts.isSome = true → args = [.str dir] →
    idx.isInt = true
  | .await name args => name = "sleep" → args ≠ [] → (arg 0 args).isInt = true
  | _ => True

theorem Call.apt_of_ne_save {C : CtxView} {heap : Heap} {name : String} (recv : Value)
    (args : List Value) (h : name ≠ "save") : (Call.method recv name args).Apt C heap := by
  cases recv with
  | dict addr => exact fun hs => absurd hs h
  | _ => trivial

section Calls

open Reading

variable (C : CtxView) (plantillas : List Plantilla) (heap : Heap) (name : String)
  (args : List Value)

theorem guardedIff_native : GuardedIff (Reading.native C plantillas heap name args)
    ((Call.native name args).Apt C heap) := by
  unfold Reading.native Call.Apt
  split
  · next h => exact (guardedIff_sessionKey C args).congr (by simp [h])
  split
  · next h => exact (guardedIff_sessionKey C args).congr (by simp [h])
  next hget hset =>
    refine .of_true ?_ fun h => by simp [hget, hset] at h
    cases hf : guardedFns.lookup name with
    | none => exact guarded_ok _
    | some f =>
      obtain ⟨l₁, l₂, hl, -⟩ := List.lookup_eq_some_iff.1 hf
      exact guarded_of_mem (p := (name, f)) (by rw [hl]; simp) _ _ _ _

theorem guardedIff_callMethod (recv : Value) : GuardedIff (callMethod C heap recv name args)
    ((Call.method recv name args).Apt C heap) := by
  unfold callMethod
  split
  · next h =>
    exact .of_true (guarded_discard (guarded_metodoStatus _))
      (Call.apt_of_ne_save _ _ (h ▸ by decide))
  split
  · next h =>
    exact .of_true (guarded_discard (guarded_metodoHeader _))
      (Call.apt_of_ne_save _ _ (h ▸ by decide))
  split
  · next h =>
    exact .of_true (guarded_discard (guarded_metodoCookie _ _))
      (Call.apt_of_ne_save _ _ (h ▸ by decide))
  -- the other methods depend on the receiver
  cases recv with
  | str s => exact .of_true (guarded_discard (guarded_strMethod rfl _ _)) trivial
  | list addr => exact .of_true (guarded_discard (guarded_listMethod rfl _ _)) trivial
  | dict addr => exact guardedIff_dictMethod ..
  | _ => exact .of_true (guarded_fail.2 (append_ne_empty (append_ne_empty (by decide) _) _)) trivial

theorem guarded_runDb (needsSql : Bool) : Guarded (runDb C needsSql args) := by
  refine .ite (fun _ => guarded_pure _) fun h => ?_
  refine .bind (guarded_asStr (by simp_all)) fun mod _ => ?_
  refine .ite (fun _ => guarded_pure _) fun _ => .ite (fun _ => ?_) fun _ => guarded_pure _
  refine .ite (fun _ => guarded_pure _) fun h => ?_
  exact .bind (guarded_asStr (by simp_all)) fun _ _ => guarded_pure _

/-- The time of a `sleep` has to be an integer. -/
theorem guardedIff_sleepMs :
    GuardedIff (discard (sleepMs args)) (args ≠ [] → (arg 0 args).isInt = true) := by
  cases args with
  | nil => exact .of_true (guarded_ok ()) fun h => absurd rfl h
  | cons v rest =>
    cases v with
    | int n => exact .of_true (guarded_ok ()) fun _ => rfl
    | _ => exact .of_false ⟨_, _, rfl⟩ fun h => by cases h (List.cons_ne_nil _ _)

theorem guardedIff_await : GuardedIff (Reading.await C name args)
    ((Call.await name args).Apt C heap) := by
  unfold Reading.await Call.Apt
  split
  · next h => exact .of_true (guarded_discard (guarded_runDb _ _ _)) fun hs => by simp [hs] at h
  split
  · next h => exact .of_true (guarded_discard (guarded_runDb _ _ _)) fun hs => by simp [hs] at h
  split
  · next h => exact (guardedIff_sleepMs args).congr ⟨fun hi _ => hi, fun hi => hi h⟩
  · next h => exact .of_true (guarded_ok _) fun hs => absurd hs h

/-- **A call reads every value at its type**, or raises an error first, exactly if it is apt. -/
theorem Call.guardedIff (call : Call) :
    GuardedIff (call.reads C plantillas heap) (call.Apt C heap) := by
  cases call with
  | native name args => exact guardedIff_native ..
  | method recv name args => exact guardedIff_callMethod ..
  | render plantilla datos => exact .of_true (guarded_ok _) trivial
  | await name args => exact guardedIff_await ..

end Calls

/-! ## The start of a request -/

/-- What the driver of a route reads before the handler starts: the JSON of the session, of the
    two parts of a token and of a body. -/
structure Sobre where
  cookie : Option Value := none
  token : Option (Value × Value) := none
  issuer : String := ""
  body : Option (List ClassField × Value) := none

namespace Reading

def startReads (C : CtxView) (heap : Heap) (s : Sobre) : Reading Unit := do
  (match s.cookie with
    | some v => discard (loadSession v)
    | none => pure ())
  (match s.token with
    | some (header, payload) => discard (verifyJwt C heap header payload s.issuer)
    | none => pure ())
  (match s.body with
    | some (fields, body) => discard (bindBody heap fields body)
    | none => pure ())

section Start

variable (C : CtxView) (heap : Heap)

theorem guarded_loadSession (v : Value) : Guarded (loadSession v) :=
  .ite (fun _ => guarded_pure _) fun h =>
    .bind (guarded_asDict (by simpa using h)) fun _ _ => guarded_pure _

theorem guarded_algIsHs256 (header : Dict) : Guarded (algIsHs256 header) := by
  unfold algIsHs256
  cases header.lookup "alg" with
  | none => exact guarded_pure _
  | some alg =>
    refine .ite (fun _ => guarded_pure _) fun h => ?_
    exact .bind (guarded_asStr (by simpa using h)) fun _ _ => guarded_pure _

theorem guarded_expPasses (payload : Dict) : Guarded (expPasses C payload) := by
  unfold expPasses
  cases payload.lookup "exp" with
  | none => exact guarded_pure _
  | some exp =>
    refine .ite (fun h => ?_) fun _ => guarded_pure _
    exact .bind (guarded_asFloat h) fun _ _ => guarded_pure _

theorem guarded_issPasses (payload : Dict) (issuer : String) :
    Guarded (issPasses payload issuer) := by
  unfold issPasses
  cases payload.lookup "iss" with
  | none => exact guarded_pure _
  | some iss =>
    refine .ite (fun _ => guarded_pure _) fun _ => .ite (fun _ => guarded_pure _) fun h => ?_
    exact .bind (guarded_asStr (by simpa using h)) fun _ _ => guarded_pure _

theorem guarded_verifyJwt (header payload : Value) (issuer : String) :
    Guarded (verifyJwt C heap header payload issuer) := by
  refine .ite (fun _ => guarded_pure _) fun h => ?_
  refine .bind (guarded_asDict (by simpa using h)) fun _ _ => ?_
  refine .bind (guarded_algIsHs256 _) fun _ _ => .ite (fun _ => guarded_pure _) fun h => ?_
  refine .bind (guarded_asDict (by simp_all)) fun _ _ => ?_
  refine .bind (guarded_expPasses C _) fun _ _ => .ite (fun _ => guarded_pure _) fun _ => ?_
  exact guarded_issPasses _ _

/-- A field is compared with its type as the binding of a request has it. -/
theorem valorEncaja_eq (v : Value) (type : String) :
    valorEncaja v type = .ok (Odio.valorEncaja v type) := by
  unfold valorEncaja
  by_cases hs : type = "string"
  · cases v <;> simp [hs, Odio.valorEncaja, Value.isStr, pure, Except.pure]
  by_cases hb : type = "bool"
  · cases v <;> simp [hb, Odio.valorEncaja, Value.isBool, pure, Except.pure]
  by_cases hi : type = "int" ∨ type = "long"
  · -- a type has one name
    have hf : ¬ (type = "float" ∨ type = "double") := by rintro (rfl | rfl) <;> simp at hi
    cases v <;> simp [hs, hb, hi, hf, Odio.valorEncaja, Value.isInt, pure, Except.pure]
  by_cases hf : type = "float" ∨ type = "double"
  · cases v <;> simp only [hs, hb, hi, hf, Odio.valorEncaja, if_false, if_true] <;> rfl
  · cases v <;> simp [hs, hb, hi, hf, Odio.valorEncaja, pure, Except.pure]

theorem guarded_bindFields (body : Dict) (fields : List ClassField) :
    Guarded (bindFields body fields) := by
  induction fields with
  | nil => exact guarded_ok _
  | cons f fs ih =>
    refine .bind ?_ fun _ _ => .bind ih fun _ _ => guarded_pure _
    split
    · exact guarded_pure _
    · rw [valorEncaja_eq]
      exact guarded_ok _

theorem guarded_bindBody (fields : List ClassField) (body : Value) :
    Guarded (bindBody heap fields body) := by
  refine .ite (fun _ => guarded_pure _) fun h => ?_
  refine .bind (guarded_asDict (by simpa using h)) fun _ _ => ?_
  exact .bind (guarded_bindFields _ _) fun _ _ => guarded_pure _

/-- What a request brings is read at its type, whatever it is. -/
theorem guarded_startReads (s : Sobre) : Guarded (startReads C heap s) := by
  refine .bind ?_ fun _ _ => .bind ?_ fun _ _ => ?_
  · split
    · exact guarded_discard (guarded_loadSession _)
    · exact guarded_pure _
  · split
    · exact guarded_discard (guarded_verifyJwt C heap _ _ _)
    · exact guarded_pure _
  · split
    · exact guarded_discard (guarded_bindBody heap _ _)
    · exact guarded_pure _

theorem guarded_bucleInicio (v : Value) : Guarded (bucleInicio heap v) :=
  .ite (fun _ => guarded_fail.2 (append_ne_empty (by decide) _)) fun h =>
    .bind (guarded_asList (by simpa using h)) fun _ _ => guarded_pure _

end Start

end Reading

end Osodio.Odio
