import Osodio.Auth.Jwt
import Osodio.Http.Cookies

/-!
# Sessions

A session is kept by the client, in a cookie with a signature.  The payload can be read by
anyone, and is only taken back with the signature of the server.

## Main definitions

- `signSession`, `loadSession` — the text of the cookie
- `beginAuth`, `endAuth` — before a handler and after it
- `SessionCall` — what a handler does to its session
- `Unforgeable` — what is assumed of the signature

## Main results

- `session_kept` — the next request has the session that a handler has left, and no other
  text makes one
-/

namespace Osodio.Auth

open Json (Bytes ascii Value Charconv parseJson kMaxProfundidad)
open Http (Response ParsedRequest CookieOptions stripCookie cookieHeader cookiePair pairOf semicolon
  buildSetCookie)
open Lib (cutLast)

/-! ## The cookie -/

def kSessionCookie : Bytes := ascii "lohin_session"

/-- The text that a session is signed as. -/
def payloadOf (C : Charconv) (data : Dict) : Bytes := base64urlEncode ((Value.dict data).toJsonText C)

/-- `sign_session`. -/
def signSession (C : Charconv) (data : Dict) (secret : Bytes) : Bytes :=
  let payload := payloadOf C data
  let mac := base64urlEncode (hmacSha256 secret payload)
  payload ++ dot :: mac

/-- `load_session`. -/
def loadSession (C : Charconv) (cookie secret : Bytes) : Option Dict := do
  let (payload, given) ← cutLast dot cookie
  let expected := base64urlEncode (hmacSha256 secret payload)
  guard (constantTimeEqual given expected)
  let jsonText ← base64urlDecode payload
  objectOf C jsonText

/-! ## Around a handler -/

structure AuthConfig where
  sessionSecret : Bytes := []
  sessionMaxAge : ℤ := 86400
  sessionSecure : Bool := true
  jwtSecret : Bytes := []
  jwtIssuer : Bytes := []

structure SessionState where
  data : Dict := []
  loaded : Bool := false
  dirty : Bool := false
  secret : Bytes := []

/-- `begin_auth`: the session, and what the check of a token came to. -/
def beginAuth (C : Charconv) (clock : Clock) (cfg : AuthConfig) (req : ParsedRequest) :
    SessionState × Verdict :=
  let session : SessionState :=
    if cfg.sessionSecret = [] then {}
    else
      { secret := cfg.sessionSecret
        loaded := true
        data := ((req.cookie kSessionCookie).bind fun cookie =>
          loadSession C cookie cfg.sessionSecret).getD [] }
  let verdict :=
    if cfg.jwtSecret = [] then .rejected
    else match req.header (ascii "authorization") with
      | some auth =>
        if (ascii "Bearer ").isPrefixOf auth then
          verifyJwt C clock (auth.drop 7) cfg.jwtSecret cfg.jwtIssuer
        else .rejected
      | none => .rejected
  (session, verdict)

/-- `end_auth`: the cookie is written if the handler has touched the session. -/
def endAuth (C : Charconv) (cfg : AuthConfig) (session : SessionState) (res : Response) : Response :=
  if session.dirty = false ∨ cfg.sessionSecret = [] then res
  else
    let opts : CookieOptions :=
      { path := ascii "/", httpOnly := true, secure := cfg.sessionSecure, sameSite := .lax }
    if session.data = [] then res.clearCookie kSessionCookie opts
    else
      res.cookie kSessionCookie (signSession C session.data cfg.sessionSecret)
        { opts with maxAge := some cfg.sessionMaxAge }

/-- What a handler does to its session. -/
inductive SessionCall where
  | set (key : Bytes) (value : Value)
  | clear

/-- `fn_session_set` and `fn_session_clear`, which fail without a secret. -/
def SessionState.call (s : SessionState) : SessionCall → Option SessionState
  | .set key value =>
    if s.secret = [] then none
    else some { s with data := Json.setKey key value s.data, dirty := true }
  | .clear => if s.secret = [] then none else some { s with data := [], dirty := true }

/-! ## What comes back -/

/-- A right signature that clients present is one of a message that was signed. -/
def Unforgeable (secret : Bytes) (signed : Bytes → Prop) (presented : Bytes → Bytes → Prop) : Prop :=
  ∀ message, presented message (hmacSha256 secret message) → signed message

section Session

variable {C : Charconv} {clock : Clock} {cfg : AuthConfig} {data entries : Dict} {secret cookie : Bytes}
  {s s' : SessionState} {req : ParsedRequest} {res : Response}

/-- What is read has a signature. -/
theorem loadSession_eq_some : loadSession C cookie secret = some data ↔
    ∃ payload text, cookie = payload ++ dot :: base64urlEncode (hmacSha256 secret payload) ∧
      base64urlDecode payload = some text ∧ parseJson C text = some (.dict data) := by
  simp only [loadSession, Option.bind_eq_bind, Option.bind_eq_some_iff, Option.guard_eq_some',
    Prod.exists, exists_const, Lib.cutLast_eq_some, constantTimeEqual_iff, objectOf_eq_some]
  constructor
  · rintro ⟨payload, given, ⟨rfl, -⟩, rfl, text, hdec, hparse⟩
    exact ⟨payload, text, rfl, hdec, hparse⟩
  · rintro ⟨payload, text, rfl, hdec, hparse⟩
    exact ⟨payload, _, ⟨rfl, dot_not_mem_encode _⟩, rfl, text, hdec, hparse⟩

/-- A session is read back from its text. -/
theorem loadSession_signSession (hC : C.Inverse) (hdata : (Value.dict data).Writable)
    (hnesting : (Value.dict data).nesting ≤ kMaxProfundidad) :
    loadSession C (signSession C data secret) secret = some data :=
  loadSession_eq_some.2 ⟨payloadOf C data, (Value.dict data).toJsonText C, rfl,
    base64urlDecode_encode _, Json.parseJson_toJsonText hC hdata hnesting⟩

theorem stripCookie_eq {t : Bytes} (h : ∀ c ∈ t, c ∈ kAlphabet ∨ c = dot) : stripCookie t = t := by
  have hclean : ∀ c ∈ kAlphabet,
      ([Http.CR, Http.LF, 0x3B, 0x2C, 0x20, 0x09] : Bytes).contains c = false := by
    decide +kernel
  rw [stripCookie, List.filter_eq_self]
  intro c hc
  obtain hmem | rfl := h c hc
  · rw [hclean c hmem]
    rfl
  · decide

/-- The text of a session is that of a cookie value. -/
theorem stripCookie_signSession (data : Dict) (secret : Bytes) :
    stripCookie (signSession C data secret) = signSession C data secret := by
  apply stripCookie_eq
  intro c hc
  obtain hc | hc := List.mem_append.1 hc
  · exact .inl (alphabet_of_encode hc)
  obtain rfl | hc := List.mem_cons.1 hc
  · exact .inr rfl
  · exact .inl (alphabet_of_encode hc)

/-- A call that does not fail has a session to change. -/
theorem call_spec {c : SessionCall} (h : s.call c = some s') :
    s.secret ≠ [] ∧ s'.secret = s.secret ∧ s'.dirty = true := by
  cases c with
  | set key value =>
    obtain ⟨hsecret, h⟩ := Option.ite_none_left_eq_some.1 h
    cases h
    exact ⟨hsecret, rfl, rfl⟩
  | clear =>
    obtain ⟨hsecret, h⟩ := Option.ite_none_left_eq_some.1 h
    cases h
    exact ⟨hsecret, rfl, rfl⟩

/-- So it is after any number of them. -/
theorem calls_spec {calls : List SessionCall} (hne : calls ≠ [])
    (h : calls.foldlM SessionState.call s = some s') : s.secret ≠ [] ∧ s'.dirty = true := by
  induction calls generalizing s with
  | nil => exact absurd rfl hne
  | cons c calls ih =>
    rw [List.foldlM_cons, Option.bind_eq_bind, Option.bind_eq_some_iff] at h
    obtain ⟨s₁, hcall, h⟩ := h
    obtain ⟨hsecret, -, hdirty⟩ := call_spec hcall
    cases calls with
    | nil =>
      cases h
      exact ⟨hsecret, hdirty⟩
    | cons c' calls => exact ⟨hsecret, (ih (List.cons_ne_nil _ _) h).2⟩

/-- The session of a request with a secret. -/
theorem beginAuth_data (hsecret : cfg.sessionSecret ≠ []) :
    (beginAuth C clock cfg req).1.data = ((req.cookie kSessionCookie).bind fun cookie =>
      loadSession C cookie cfg.sessionSecret).getD [] := by
  rw [beginAuth, if_neg hsecret]

theorem beginAuth_secret : (beginAuth C clock cfg req).1.secret = cfg.sessionSecret := by
  unfold beginAuth
  dsimp only
  split
  · rename_i h
    exact h.symm
  · rfl

/-- **A session is kept.**  The response of a handler that has changed it carries a cookie,
and the next request with that cookie, alone or among others, has the same session.  Under a
signature that cannot be forged, a cookie with any other text makes no session. -/
theorem session_kept (hC : C.Inverse) (clock clock' : Clock) (cfg : AuthConfig) :
    (∀ (req : ParsedRequest) (calls : List SessionCall) (s : SessionState) (res : Response),
      calls ≠ [] → calls.foldlM SessionState.call (beginAuth C clock cfg req).1 = some s →
      (Value.dict s.data).Writable → (Value.dict s.data).nesting ≤ kMaxProfundidad →
      ∃ line, (endAuth C cfg s res).cookies = res.cookies ++ [line] ∧
        ∀ (req' : ParsedRequest) (before after : List Bytes),
          req'.header (ascii "cookie") = some (cookieHeader (before ++ pairOf line :: after)) →
          (∀ p ∈ before ++ after, semicolon ∉ p) →
          (∀ p ∈ before, ∀ kv, cookiePair p = some kv → kv.1 ≠ kSessionCookie) →
          (beginAuth C clock' cfg req').1.data = s.data) ∧
    (∀ (contents : Dict → Prop) (presented : Bytes → Bytes → Prop),
      Unforgeable cfg.sessionSecret (fun m => ∃ data, contents data ∧ m = payloadOf C data) presented →
      ∀ (req : ParsedRequest) (cookie : Bytes), req.cookie kSessionCookie = some cookie →
        (∀ payload tag, cookie = payload ++ dot :: base64urlEncode tag → presented payload tag) →
        (∀ data, contents data → cookie ≠ signSession C data cfg.sessionSecret) →
        (beginAuth C clock cfg req).1.data = []) := by
  constructor
  · intro req calls s res hne hrun hwritable hnesting
    obtain ⟨hsecret, hdirty⟩ := calls_spec hne hrun
    rw [beginAuth_secret] at hsecret
    have hkey : stripCookie kSessionCookie = kSessionCookie := by decide
    unfold endAuth
    rw [if_neg (by simp [hdirty, hsecret])]
    dsimp only
    by_cases hempty : s.data = []
    · rw [if_pos hempty]
      refine ⟨_, rfl, ?_⟩
      intro req' before after hreq hsemi hbefore
      have hcookie := Http.cookie_cookieHeader hkey (by decide) (by decide) (by decide) hreq hsemi hbefore
      rw [beginAuth_data hsecret, hcookie, hempty]
      rfl
    · rw [if_neg hempty]
      refine ⟨_, rfl, ?_⟩
      intro req' before after hreq hsemi hbefore
      have hcookie := Http.cookie_cookieHeader hkey (by decide) (by decide)
        (stripCookie_signSession s.data cfg.sessionSecret) hreq hsemi hbefore
      rw [beginAuth_data hsecret, hcookie, Option.bind_some,
        loadSession_signSession hC hwritable hnesting]
      rfl
  · intro contents presented hun req cookie hcookie hpresented hnot
    by_cases hsecret : cfg.sessionSecret = []
    · rw [beginAuth, if_pos hsecret]
    · rw [beginAuth_data hsecret, hcookie, Option.bind_some]
      cases hload : loadSession C cookie cfg.sessionSecret with
      | none => rfl
      | some data =>
        obtain ⟨payload, text, heq, -, -⟩ := loadSession_eq_some.1 hload
        obtain ⟨content, hcontent, rfl⟩ := hun payload (hpresented payload _ heq)
        exact absurd heq (hnot content hcontent)

theorem hmacSha256_ne_nil (key message : Bytes) : hmacSha256 key message ≠ [] := by
  apply List.ne_nil_of_length_pos
  show 0 < (sha256 _).length
  rw [length_sha256]
  decide

theorem session_kept_user :
    let cfg : AuthConfig := { sessionSecret := ascii "secreto" }
    let clock : Clock := ⟨1700000000, by decide, by decide⟩
    let data : Dict := [(ascii "user", .str (ascii "ana"))]
    let request (cookies : List Bytes) : ParsedRequest :=
      { headers := [(ascii "cookie", cookieHeader cookies)] }
    (∃ line, (endAuth Json.charconvOfBits cfg ⟨data, true, true, ascii "secreto"⟩ {}).cookies = [line] ∧
      (beginAuth Json.charconvOfBits clock cfg (request [ascii "a=b", pairOf line])).1.data = data) ∧
    (beginAuth Json.charconvOfBits clock cfg (request [ascii "lohin_session=x."])).1.data = [] := by
  intro cfg clock data request
  obtain ⟨hkept, hforged⟩ := session_kept Json.charconvOfBits_inverse clock clock cfg
  constructor
  · obtain ⟨line, hline, hnext⟩ := hkept {} [.set (ascii "user") (.str (ascii "ana"))]
      ⟨data, true, true, ascii "secreto"⟩ {} (List.cons_ne_nil _ _) rfl
      (.dict (by
          rintro e (_ | ⟨_, ⟨⟩⟩)
          exact ⟨⟨['u', 's', 'e', 'r'], by decide⟩, by decide⟩) (by decide) (by
          rintro e (_ | ⟨_, ⟨⟩⟩)
          exact .str ⟨['a', 'n', 'a'], by decide⟩))
      (by decide)
    refine ⟨line, hline, hnext (request [ascii "a=b", pairOf line]) [ascii "a=b"] [] rfl ?_ ?_⟩
    · decide
    · intro p hp kv hkv
      obtain rfl := List.mem_singleton.1 hp
      cases (show cookiePair (ascii "a=b") = some (ascii "a", ascii "b") by decide).symm.trans hkv
      decide
  · refine hforged (fun _ => False) (fun m t => m = ascii "x" ∧ t = []) ?_
      (request [ascii "lohin_session=x."]) (ascii "x.") (by decide) ?_ (fun _ h => h.elim)
    · rintro message ⟨-, htag⟩
      exact absurd htag (hmacSha256_ne_nil _ _)
    · intro payload tag heq
      have hcut := Lib.cutLast_eq_some.2 ⟨heq, dot_not_mem_encode tag⟩
      rw [show cutLast dot (ascii "x.") = some (ascii "x", []) by decide, Option.some.injEq,
        Prod.mk.injEq] at hcut
      obtain ⟨rfl, hempty⟩ := hcut
      have hdec := base64urlDecode_encode tag
      rw [← hempty] at hdec
      exact ⟨rfl, (Option.some.inj hdec).symm⟩

end Session

end Osodio.Auth
