import Osodio.Http.Response
import Osodio.Odio.Vm

/-!
# Responses

What natives and methods write to the response of a request, and the response
that the driver of an endpoint makes of the result of its handler.

## Main definitions

- `NativeCtx` — the response of a request and whether a native has written it
- `Host` — what the natives need besides their arguments
- `respond` — what a call does to the response
- `finishPlain` — the end of the driver of a plain endpoint
-/

namespace Osodio.Odio

open Http (Bytes Files Response ascii jsonType)

/-- The bytes of a string. -/
def utf8 (s : String) : Bytes := s.toList.flatMap String.utf8EncodeChar

/-! ## Natives that respond -/

/-- `NativeCtx`, as far as the response goes. -/
structure NativeCtx where
  res : Response := {}
  responseWritten : Bool := false
  deriving DecidableEq, Repr

/-- What the natives need besides their arguments: how a value is written, the
    files, the pages that the templates of the module render to, and the cookies. -/
structure Host where
  /-- `to_string`. -/
  toText : Heap → Value → Bytes
  /-- `to_json_text`. -/
  toJson : Heap → Value → Bytes
  files : Files
  /-- `render_plantilla`, for the request at hand. -/
  render : World → String → Value → Except String Bytes
  /-- `build_set_cookie`, with the options of a call. -/
  setCookie : Heap → List Value → Bytes
  /-- What `end_auth` writes for the session of the request. -/
  sessionCookie : World → List Bytes

/-- `static_cast<int>`. -/
def asInt (n : Int64) : Int := n.toInt32.toInt

/-- The natives that write the response: what a call does to it, or the message of
    its error.  The other natives leave it alone. -/
def fnRespond (H : Host) (heap : Heap) (name : String) (args : List Value) :
    Option (Except String (Response → Response)) :=
  match name, args with
  | "text", a :: _ => some (.ok fun r => r.text (H.toText heap a))
  | "html", a :: _ => some (.ok fun r => r.html H.files (H.toText heap a))
  | "json", a :: _ =>
    some (.ok fun r => (r.header (ascii "Content-Type") jsonType).send (H.toJson heap a))
  | "status", .int code :: _ => some (.ok fun r => (r.status (asInt code)).send [])
  | "status", _ :: _ => some (.error "status() espera un codigo entero")
  | "redirect", .str destino :: rest =>
    match rest with
    | [] => some (.ok fun r => ((r.status 302).header (ascii "Location") (utf8 destino)).send [])
    | .int code :: _ =>
      some (.ok fun r => ((r.status (asInt code)).header (ascii "Location") (utf8 destino)).send [])
    | _ :: _ => some (.error "el segundo argumento de redirect() es el codigo")
  | "redirect", _ :: _ => some (.error "redirect() espera el destino como string")
  | "send_file", .str path :: _ => some (.ok fun r => r.sendFile H.files (utf8 path))
  | "send_file", _ :: _ => some (.error "send_file() espera una ruta como string")
  | _, _ => none

/-- The methods of every value, which modify the response and give their receiver
    back. -/
def fnModify (H : Host) (heap : Heap) (name : String) (args : List Value) :
    Option (Response → Response) :=
  match name, args with
  | "status", [.int code] => some fun r => r.status (asInt code)
  | "header", [.str key, value] => some fun r => r.header (utf8 key) (H.toText heap value)
  | "cookie", .str key :: value :: options =>
    some fun r => r.cookieLine (H.setCookie heap (.str key :: value :: options))
  | _, _ => none

/-- The context after a response has been written. -/
def NativeCtx.write (ctx : NativeCtx) (f : Response → Response) : NativeCtx :=
  { res := f ctx.res, responseWritten := true }

/-- What a call does to the response. -/
def respond (H : Host) (w : World) (call : Call) (ctx : NativeCtx) : NativeCtx :=
  match call with
  | .native name args =>
    match fnRespond H w.heap name args with
    | some (.ok f) => ctx.write f
    | _ => ctx
  | .render plantilla datos =>
    match H.render w plantilla datos with
    | .ok page =>
      ctx.write fun r => (r.header (ascii "Content-Type") (ascii "text/html; charset=utf-8")).send page
    | .error _ => ctx
  | .method _ name args =>
    match fnModify H w.heap name args with
    | some f => { ctx with res := f ctx.res }
    | none => ctx
  | .await _ _ => ctx

/-- What the last calls of a history do to the response, without the `old` first ones. -/
def respondAll (H : Host) (old : ℕ) (ctx : NativeCtx) : List Event → NativeCtx
  | [] => ctx
  | e :: es =>
    if es.length < old then ctx
    else respond H ⟨e.heap, es⟩ e.call (respondAll H old ctx es)

/-! ## The end of a handler -/

/-- How a handler ends. -/
inductive Outcome where
  | returned (v : Value)
  | raised (message : String) (loc : SourceLoc)

/-- Where an error happened, in the text of a response. -/
def errorPlace (route : String) (loc : SourceLoc) : String :=
  if loc.file = "" then route
  else loc.file ++ ":" ++ toString loc.line ++ ":" ++ toString loc.col

/-- The end of the driver of a plain endpoint: an error is a 500, and the value of
    a handler is the body unless a native has written the response. -/
def finishPlain (H : Host) (route : String) (w : World) (ctx : NativeCtx) : Outcome → Response
  | .raised message loc =>
    let (v, heap) := newDict [("error", .str message), ("en", .str (errorPlace route loc))] w.heap
    (ctx.res.status 500).jsonText (H.toJson heap v)
  | .returned v =>
    let res := (H.sessionCookie w).foldl Response.cookieLine ctx.res
    if ctx.responseWritten then res
    else
      match v with
      | .null => (res.status 204).send []
      | v => (res.header (ascii "Content-Type") jsonType).send (H.toJson w.heap v)

end Osodio.Odio
