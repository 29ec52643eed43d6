import Osodio.Http.Parser
import Osodio.Json.Writer

/-!
# Responses

`lohin::Response`: what handlers write, one operation after the other, and the
text that `build` makes of it for the connection.

## Main definitions

- `Response` — `Response::State`
- `buildSetCookie` — the line of a cookie
- `ResponseOp`, `Response.apply` — the operations of a handler
- `Response.build` — the status line, the header section and the body
- `errorResponse` — what the connection answers by itself

## Main results

- `apply_clean` — no operation puts a line break into the header section
-/

namespace Osodio.Http

open Json (digitos)

/-! ## Texts -/

def CR : UInt8 := 0x0D
def LF : UInt8 := 0x0A

def crlf : Bytes := [CR, LF]

/-- An integer as a stream writes it. -/
def decimal (i : ℤ) : Bytes := if i < 0 then 0x2D :: digitos i.natAbs else digitos i.natAbs

/-- `strip_crlf`. -/
def stripCrlf (s : Bytes) : Bytes := s.filter fun c => c != CR && c != LF

/-- The components of a path. -/
def components (path : Bytes) : List Bytes := (path.splitOn 0x2F).filter fun c => c != []

/-- `comp == ".."` for some component. -/
def hasParent (path : Bytes) : Bool := (components path).contains [0x2E, 0x2E]

/-- `is_absolute`. -/
def isAbsolute (path : Bytes) : Bool := path.head? == some 0x2F

/-- `is_template_name`. -/
def isTemplateName (s : Bytes) : Bool :=
  !s.isEmpty && !s.contains LF && !s.contains 0x3C &&
    ((ascii ".html").isSuffixOf s || (ascii ".htm").isSuffixOf s)

/-! ## Cookies -/

inductive SameSite where
  | strict
  | lax
  | none
  deriving DecidableEq, Repr

structure CookieOptions where
  path : Bytes := ascii "/"
  domain : Bytes := []
  maxAge : Option ℤ := none
  secure : Bool := false
  httpOnly : Bool := true
  sameSite : SameSite := .lax
  deriving DecidableEq, Repr

/-- `strip`: what a cookie name or value must not hold. -/
def stripCookie (s : Bytes) : Bytes :=
  s.filter fun c => !([CR, LF, 0x3B, 0x2C, 0x20, 0x09] : Bytes).contains c

/-- `build_set_cookie`.  A cookie for all sites is made a secure one. -/
def buildSetCookie (name value : Bytes) (opts : CookieOptions) : Bytes :=
  let path := stripCrlf opts.path
  let domain := stripCrlf opts.domain
  let secure := opts.secure || opts.sameSite == .none
  stripCookie name ++ ascii "=" ++ stripCookie value ++
    (if path = [] then [] else ascii "; Path=" ++ path) ++
    (if domain = [] then [] else ascii "; Domain=" ++ domain) ++
    (match opts.maxAge with
      | some age => ascii "; Max-Age=" ++ decimal age
      | none => []) ++
    (if opts.httpOnly then ascii "; HttpOnly" else []) ++
    (if secure then ascii "; Secure" else []) ++
    (match opts.sameSite with
      | .strict => ascii "; SameSite=Strict"
      | .lax => ascii "; SameSite=Lax"
      | .none => ascii "; SameSite=None")

/-! ## The response -/

/-- `Response::State`.  The fields of the header map are listed as they were added. -/
structure Response where
  statusCode : ℤ := 200
  body : Bytes := []
  templatesDir : Bytes := ascii "./templates"
  headers : List (Bytes × Bytes) := []
  cookies : List Bytes := []
  sendfilePath : Bytes := []
  sendfileSize : ℕ := 0
  sseStarted : Bool := false
  wsStarted : Bool := false
  bodyCommitted : Bool := false
  deriving DecidableEq, Repr

/-- The files that a response may be made of. -/
structure Files where
  contents : Bytes → Option Bytes
  size : Bytes → Option ℕ
  /-- `fs::canonical`. -/
  canonical : Bytes → Option Bytes

/-- `headers[key] = value`. -/
def setHeader (key value : Bytes) : List (Bytes × Bytes) → List (Bytes × Bytes)
  | [] => [(key, value)]
  | (k, v) :: rest => if k = key then (key, value) :: rest else (k, v) :: setHeader key value rest

def jsonType : Bytes := ascii "application/json; charset=utf-8"

namespace Response

def status (r : Response) (code : ℤ) : Response := { r with statusCode := code }

def header (r : Response) (key value : Bytes) : Response :=
  { r with headers := setHeader (stripCrlf key) (stripCrlf value) r.headers }

def cookieLine (r : Response) (line : Bytes) : Response :=
  { r with cookies := r.cookies ++ [line] }

def cookie (r : Response) (name value : Bytes) (opts : CookieOptions) : Response :=
  r.cookieLine (buildSetCookie name value opts)

def clearCookie (r : Response) (name : Bytes) (opts : CookieOptions) : Response :=
  r.cookieLine (buildSetCookie name [] { opts with maxAge := some 0 })

/-- A body is only written once. -/
def send (r : Response) (body : Bytes) : Response :=
  if r.bodyCommitted then r else { r with body := body, bodyCommitted := true }

def text (r : Response) (body : Bytes) : Response :=
  if r.bodyCommitted then r
  else (r.header (ascii "Content-Type") (ascii "text/plain; charset=utf-8")).send body

def jsonText (r : Response) (body : Bytes) : Response :=
  if r.bodyCommitted then r else (r.header (ascii "Content-Type") jsonType).send body

/-- An error with a fixed body, which `body_committed` does not record. -/
def refuse (r : Response) (code : ℤ) (body : Bytes) : Response :=
  { r with
    statusCode := code
    body := body
    headers := setHeader (ascii "Content-Type") jsonType r.headers }

/-- `operator/` of two paths. -/
def joinPath (dir path : Bytes) : Bytes :=
  if isAbsolute path then path
  else if dir = [] ∨ dir.getLast? = some 0x2F then dir ++ path
  else dir ++ 0x2F :: path

/-- `html`: the name of a template is read from the directory of templates. -/
def html (files : Files) (r : Response) (content : Bytes) : Response :=
  if r.bodyCommitted then r
  else
    let r := { r.header (ascii "Content-Type") (ascii "text/html; charset=utf-8") with
      bodyCommitted := true }
    if isTemplateName content then
      if isAbsolute content || hasParent content then
        r.refuse 403 (ascii "\x7b\"error\":\"Forbidden\"\x7d")
      else
        match files.contents (joinPath r.templatesDir content) with
        | none => r.refuse 500 (ascii "\x7b\"error\":\"Internal Server Error\"\x7d")
        | some page => { r with body := page }
    else { r with body := content }

/-- `send_file` with a size that is known. -/
def sendFileSized (r : Response) (path : Bytes) (size : ℕ) : Response :=
  { r with sendfilePath := path, sendfileSize := size, bodyCommitted := true }

/-- `send_file`. -/
def sendFile (files : Files) (r : Response) (path : Bytes) : Response :=
  if hasParent path then r.refuse 403 (ascii "\x7b\"error\":\"Forbidden\"\x7d")
  else
    match files.size path with
    | none => { r with statusCode := 500, body := ascii "Cannot stat file" }
    | some size => r.sendFileSized path size

/-- `serve_file_from`. -/
def serveFileFrom (files : Files) (r : Response) (root userPath : Bytes) : Response :=
  match files.canonical root with
  | none => r.refuse 500 (ascii "\x7b\"error\":\"Internal Server Error\"\x7d")
  | some root =>
    match files.canonical (joinPath root userPath) with
    | none => r.refuse 404 (ascii "\x7b\"error\":\"Not Found\"\x7d")
    | some file =>
      if (components root).isPrefixOf (components file) then r.sendFile files file
      else r.refuse 403 (ascii "\x7b\"error\":\"Forbidden\"\x7d")

/-- `take_body`. -/
def takeBody (r : Response) : Response :=
  if r.sseStarted || r.wsStarted then r
  else { r with body := [], sendfilePath := [], sendfileSize := 0, bodyCommitted := false }

/-- `restore_body`. -/
def restoreBody (r : Response) (body : Bytes) : Response :=
  if r.sseStarted || r.wsStarted then r else { r with body := body, bodyCommitted := true }

end Response

/-- What a handler does to its response. -/
inductive ResponseOp where
  | setTemplatesDir (dir : Bytes)
  | status (code : ℤ)
  | header (key value : Bytes)
  | cookie (name value : Bytes) (opts : CookieOptions)
  | clearCookie (name : Bytes) (opts : CookieOptions)
  | text (body : Bytes)
  | html (content : Bytes)
  | jsonText (body : Bytes)
  | send (body : Bytes)
  | sendFile (path : Bytes)
  | sendFileSized (path : Bytes) (size : ℕ)
  | serveFileFrom (root userPath : Bytes)
  | takeBody
  | restoreBody (body : Bytes)
  | markSseStarted
  | markWsStarted

def Response.apply (files : Files) (r : Response) : ResponseOp → Response
  | .setTemplatesDir dir => { r with templatesDir := dir }
  | .status code => r.status code
  | .header key value => r.header key value
  | .cookie name value opts => r.cookie name value opts
  | .clearCookie name opts => r.clearCookie name opts
  | .text body => r.text body
  | .html content => r.html files content
  | .jsonText body => r.jsonText body
  | .send body => r.send body
  | .sendFile path => r.sendFile files path
  | .sendFileSized path size => r.sendFileSized path size
  | .serveFileFrom root userPath => r.serveFileFrom files root userPath
  | .takeBody => r.takeBody
  | .restoreBody body => r.restoreBody body
  | .markSseStarted => { r with sseStarted := true }
  | .markWsStarted => { r with wsStarted := true }

/-- The response of a handler that has done `ops`. -/
def Response.made (files : Files) (ops : List ResponseOp) : Response :=
  ops.foldl (Response.apply files) {}

/-! ## The text of a response -/

def reasonPhrase (code : ℤ) : String :=
  match code with
  | 200 => "OK"
  | 201 => "Created"
  | 202 => "Accepted"
  | 204 => "No Content"
  | 206 => "Partial Content"
  | 301 => "Moved Permanently"
  | 302 => "Found"
  | 304 => "Not Modified"
  | 307 => "Temporary Redirect"
  | 308 => "Permanent Redirect"
  | 400 => "Bad Request"
  | 401 => "Unauthorized"
  | 403 => "Forbidden"
  | 404 => "Not Found"
  | 405 => "Method Not Allowed"
  | 408 => "Request Timeout"
  | 409 => "Conflict"
  | 410 => "Gone"
  | 413 => "Content Too Large"
  | 415 => "Unsupported Media Type"
  | 422 => "Unprocessable Entity"
  | 429 => "Too Many Requests"
  | 500 => "Internal Server Error"
  | 501 => "Not Implemented"
  | 502 => "Bad Gateway"
  | 503 => "Service Unavailable"
  | 504 => "Gateway Timeout"
  | _ => "Unknown"

namespace Response

/-- The octets that `Content-Length` announces. -/
def contentLength (r : Response) : ℕ :=
  if r.sendfilePath = [] then r.body.length else r.sendfileSize

/-- The lines of the header section, the status line first.  `fields` is the header
    map in the order in which it is walked. -/
def headLines (r : Response) (fields : List (Bytes × Bytes)) : List Bytes :=
  (ascii "HTTP/1.1 " ++ decimal r.statusCode ++ 0x20 :: ascii (reasonPhrase r.statusCode)) ::
    (ascii "Content-Length: " ++ digitos r.contentLength) ::
    (fields.map (fun f => f.1 ++ ascii ": " ++ f.2) ++
      r.cookies.map (ascii "Set-Cookie: " ++ ·))

/-- `build`: only a response that is not sent from a file has its body here. -/
def build (r : Response) (fields : List (Bytes × Bytes)) : Bytes :=
  (r.headLines fields).flatMap (· ++ crlf) ++ crlf ++
    (if r.sendfilePath = [] then r.body else [])

end Response

/-- `send_error`: the response of the connection to what it cannot serve. -/
def errorResponse (code : ℤ) (message : String) : Response :=
  ((({} : Response).status code).jsonText
    (ascii "\x7b\"error\":\"" ++ ascii message ++ ascii "\"\x7d")).header
    (ascii "Connection") (ascii "close")

/-! ## No operation breaks a line -/

/-- A text without line breaks. -/
def Unbroken (s : Bytes) : Prop := CR ∉ s ∧ LF ∉ s

instance (s : Bytes) : Decidable (Unbroken s) := inferInstanceAs (Decidable (_ ∧ _))

/-- Nothing that goes into the header section breaks a line. -/
structure Response.Clean (r : Response) : Prop where
  headers : ∀ f ∈ r.headers, Unbroken f.1 ∧ Unbroken f.2
  cookies : ∀ c ∈ r.cookies, Unbroken c

section Clean

variable {s t : Bytes} {r : Response}

theorem Unbroken.nil : Unbroken [] := by decide

theorem Unbroken.append (hs : Unbroken s) (ht : Unbroken t) : Unbroken (s ++ t) :=
  ⟨by simp [hs.1, ht.1], by simp [hs.2, ht.2]⟩

theorem Unbroken.cons {b : UInt8} (hb : b ≠ CR ∧ b ≠ LF) (hs : Unbroken s) : Unbroken (b :: s) :=
  ⟨by simp [hb.1.symm, hs.1], by simp [hb.2.symm, hs.2]⟩

theorem Unbroken.filter {p : UInt8 → Bool} (hcr : p CR = false) (hlf : p LF = false) (s : Bytes) :
    Unbroken (s.filter p) :=
  ⟨by simp [hcr], by simp [hlf]⟩

theorem unbroken_stripCrlf (s : Bytes) : Unbroken (stripCrlf s) := .filter (by decide) (by decide) s

theorem unbroken_stripCookie (s : Bytes) : Unbroken (stripCookie s) :=
  .filter (by decide) (by decide) s

theorem unbroken_digitos (n : ℕ) : Unbroken (digitos n) := by
  unfold digitos
  split
  · decide
  · have hne : ∀ d < 10, UInt8.ofNat (0x30 + d) ≠ CR ∧ UInt8.ofNat (0x30 + d) ≠ LF := by decide
    constructor
    · intro h
      obtain ⟨d, hd, hcr⟩ := List.mem_map.1 h
      exact (hne d (Nat.digits_lt_base (by decide) (List.mem_reverse.1 hd))).1 hcr
    · intro h
      obtain ⟨d, hd, hlf⟩ := List.mem_map.1 h
      exact (hne d (Nat.digits_lt_base (by decide) (List.mem_reverse.1 hd))).2 hlf

theorem unbroken_decimal (i : ℤ) : Unbroken (decimal i) := by
  unfold decimal
  split
  · exact .cons (by decide) (unbroken_digitos _)
  · exact unbroken_digitos _

theorem unbroken_setCookie (name value : Bytes) (opts : CookieOptions) :
    Unbroken (buildSetCookie name value opts) := by
  have hopt : ∀ (p : Prop) [Decidable p] {a b : Bytes}, Unbroken a → Unbroken b →
      Unbroken (if p then a else b) := by
    intro p _ a b ha hb
    split <;> assumption
  refine .append (.append (.append (.append (.append (.append (.append (.append
    (unbroken_stripCookie _) (by decide)) (unbroken_stripCookie _)) ?_) ?_) ?_) ?_) ?_) ?_
  · exact hopt _ .nil (.append (by decide) (unbroken_stripCrlf _))
  · exact hopt _ .nil (.append (by decide) (unbroken_stripCrlf _))
  · cases opts.maxAge with
    | none => exact .nil
    | some age => exact .append (by decide) (unbroken_decimal _)
  · exact hopt _ (by decide) .nil
  · exact hopt _ (by decide) .nil
  · cases opts.sameSite <;> decide

theorem mem_setHeader {key value : Bytes} {f : Bytes × Bytes} {hs : List (Bytes × Bytes)}
    (h : f ∈ setHeader key value hs) : f = (key, value) ∨ f ∈ hs := by
  induction hs with
  | nil => exact .inl (List.mem_singleton.1 h)
  | cons e hs ih =>
    obtain ⟨k, v⟩ := e
    rw [setHeader] at h
    split at h
    · exact (List.mem_cons.1 h).imp_right (List.mem_cons_of_mem _)
    · obtain rfl | h := List.mem_cons.1 h
      · exact .inr (List.mem_cons_self ..)
      · exact (ih h).imp_right (List.mem_cons_of_mem _)

/-- No key is lost. -/
theorem mem_of_mem_setHeader {key value : Bytes} {f : Bytes × Bytes} {hs : List (Bytes × Bytes)}
    (h : f ∈ hs) : ∃ f' ∈ setHeader key value hs, f'.1 = f.1 := by
  induction hs with
  | nil => cases h
  | cons e hs ih =>
    obtain ⟨k, v⟩ := e
    rw [setHeader]
    split
    · next hk =>
      obtain rfl | h := List.mem_cons.1 h
      · exact ⟨_, List.mem_cons_self .., hk.symm⟩
      · exact ⟨f, List.mem_cons_of_mem _ h, rfl⟩
    · obtain rfl | h := List.mem_cons.1 h
      · exact ⟨_, List.mem_cons_self .., rfl⟩
      · obtain ⟨f', hf', hkey⟩ := ih h
        exact ⟨f', List.mem_cons_of_mem _ hf', hkey⟩

namespace Response

theorem Clean.setHeader {key value : Bytes} (h : r.Clean) (hk : Unbroken key)
    (hv : Unbroken value) : ∀ f ∈ setHeader key value r.headers, Unbroken f.1 ∧ Unbroken f.2 := by
  intro f hf
  obtain rfl | hf := mem_setHeader hf
  · exact ⟨hk, hv⟩
  · exact h.headers f hf

theorem Clean.header (h : r.Clean) (key value : Bytes) : (r.header key value).Clean :=
  ⟨h.setHeader (unbroken_stripCrlf key) (unbroken_stripCrlf value), h.cookies⟩

theorem Clean.cookieLine (h : r.Clean) {line : Bytes} (hl : Unbroken line) :
    (r.cookieLine line).Clean := by
  refine ⟨h.headers, fun c hc => ?_⟩
  obtain hc | hc := List.mem_append.1 hc
  · exact h.cookies c hc
  · obtain rfl := List.mem_singleton.1 hc
    exact hl

theorem Clean.refuse (h : r.Clean) (code : ℤ) (body : Bytes) : (r.refuse code body).Clean :=
  ⟨h.setHeader (by decide) (by decide), h.cookies⟩

theorem Clean.send (h : r.Clean) (body : Bytes) : (r.send body).Clean := by
  unfold Response.send
  split
  · exact h
  · exact ⟨h.headers, h.cookies⟩

theorem Clean.sendFile (h : r.Clean) (files : Files) (path : Bytes) :
    (r.sendFile files path).Clean := by
  unfold Response.sendFile
  split
  · exact h.refuse ..
  · split <;> exact ⟨h.headers, h.cookies⟩

theorem Clean.html (h : r.Clean) (files : Files) (content : Bytes) :
    (r.html files content).Clean := by
  unfold Response.html
  split
  · exact h
  · have hr := h.header (ascii "Content-Type") (ascii "text/html; charset=utf-8")
    have hc : ({ r.header (ascii "Content-Type") (ascii "text/html; charset=utf-8") with
        bodyCommitted := true } : Response).Clean := ⟨hr.headers, hr.cookies⟩
    dsimp only
    split
    · split
      · exact hc.refuse ..
      · split
        · exact hc.refuse ..
        · exact ⟨hc.headers, hc.cookies⟩
    · exact ⟨hc.headers, hc.cookies⟩

/-- No operation puts a line break into the header section. -/
theorem apply_clean (files : Files) (h : r.Clean) (op : ResponseOp) : (r.apply files op).Clean := by
  cases op with
  | header key value => exact h.header key value
  | cookie name value opts => exact h.cookieLine (unbroken_setCookie ..)
  | clearCookie name opts => exact h.cookieLine (unbroken_setCookie ..)
  | text body | jsonText body =>
    simp only [apply, text, jsonText]
    split
    · exact h
    · exact (h.header ..).send _
  | html content => exact h.html files content
  | send body => exact h.send body
  | sendFile path => exact h.sendFile files path
  | serveFileFrom root userPath =>
    simp only [apply, serveFileFrom]
    split
    · exact h.refuse ..
    · split
      · exact h.refuse ..
      · split
        · exact h.sendFile ..
        · exact h.refuse ..
  | takeBody | restoreBody body =>
    simp only [apply, takeBody, restoreBody]
    split
    · exact h
    · exact ⟨h.headers, h.cookies⟩
  | setTemplatesDir | status | sendFileSized | markSseStarted | markWsStarted =>
    exact ⟨h.headers, h.cookies⟩

theorem made_clean (files : Files) (ops : List ResponseOp) : (made files ops).Clean := by
  have hfold : ∀ (r : Response), r.Clean → (ops.foldl (apply files) r).Clean := by
    induction ops with
    | nil => exact fun r h => h
    | cons op ops ih => exact fun r h => ih _ (apply_clean files h op)
  exact hfold _ ⟨nofun, nofun⟩

end Response

end Clean

end Osodio.Http
