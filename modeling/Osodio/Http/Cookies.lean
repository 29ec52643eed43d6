import Osodio.Http.Framing
import Osodio.Lib.Cuts

/-!
# Cookies and the head of a response

A handler sets headers and cookies from whatever texts it has.  The client finds the
lines of the head, and in the line of a cookie its attributes.  What it sends back, the
next request finds by name.

## Main definitions

- `attributesOf`, `Response.attributes` — the attributes of a cookie, as a client reads
  them and as a handler has given them
- `parseCookieHeader`, `ParsedRequest.cookie` — the cookies of a request
- `cookieHeader` — what a client sends

## Main results

- `attributesOf_setCookie` — the attributes that are read are those that were given
- `head_lines` — the head has one line for each header and each cookie, and no other
  attributes
- `cookie_cookieHeader` — a cookie is found among others
-/

namespace Osodio.Http

open Json (digitos)
open Lib (cut)

def semicolon : UInt8 := 0x3B
def equals : UInt8 := 0x3D

/-! ## The attributes of a cookie -/

def trim (s : Bytes) : Bytes := (s.dropWhile isBlank).rdropWhile isBlank

/-- An attribute, with the empty text for a value that it does not have. -/
def readAttribute (piece : Bytes) : Bytes × Bytes :=
  match cut equals piece with
  | some (name, value) => (trim name, trim value)
  | none => (trim piece, [])

/-- What a client reads behind the name and the value of a cookie. -/
def attributesOf (line : Bytes) : List (Bytes × Bytes) := ((line.splitOn semicolon).drop 1).map readAttribute

def SameSite.text : SameSite → Bytes
  | .strict => ascii "Strict"
  | .lax => ascii "Lax"
  | .none => ascii "None"

/-- The attributes that the options give. -/
def CookieOptions.attributes (opts : CookieOptions) : List (Bytes × Bytes) :=
  (if stripCrlf opts.path = [] then [] else [(ascii "Path", trim (stripCrlf opts.path))]) ++
    (if stripCrlf opts.domain = [] then [] else [(ascii "Domain", trim (stripCrlf opts.domain))]) ++
    (opts.maxAge.toList.map fun age => (ascii "Max-Age", decimal age)) ++
    (if opts.httpOnly then [(ascii "HttpOnly", [])] else []) ++
    (if opts.secure then [(ascii "Secure", [])] else []) ++ [(ascii "SameSite", opts.sameSite.text)]

/-- The texts between the semicolons. -/
def CookieOptions.pieces (opts : CookieOptions) : List Bytes :=
  (if stripCrlf opts.path = [] then [] else [ascii " Path=" ++ stripCrlf opts.path]) ++
    (if stripCrlf opts.domain = [] then [] else [ascii " Domain=" ++ stripCrlf opts.domain]) ++
    (opts.maxAge.toList.map fun age => ascii " Max-Age=" ++ decimal age) ++
    (if opts.httpOnly then [ascii " HttpOnly"] else []) ++
    (if opts.secure then [ascii " Secure"] else []) ++ [ascii " SameSite=" ++ opts.sameSite.text]

/-- A cookie for all sites is a secure one. -/
def CookieOptions.promoted (opts : CookieOptions) : CookieOptions :=
  { opts with secure := opts.secure || opts.sameSite == .none }

section Attributes

variable {α β : Type*} {name value : Bytes} {opts : CookieOptions}

theorem flatMap_ite (p : Prop) [Decidable p] (l l' : List α) (f : α → List β) :
    (if p then l else l').flatMap f = if p then l.flatMap f else l'.flatMap f := by
  split
  · rfl
  · rfl

/-- The line of a cookie, by its pieces. -/
theorem buildSetCookie_eq (name value : Bytes) (opts : CookieOptions) :
    buildSetCookie name value opts =
      (stripCookie name ++ equals :: stripCookie value) ++
        opts.promoted.pieces.flatMap (semicolon :: ·) := by
  obtain ⟨path, domain, maxAge, secure, httpOnly, sameSite⟩ := opts
  unfold buildSetCookie CookieOptions.pieces CookieOptions.promoted
  simp only [List.flatMap_append, flatMap_ite, List.flatMap_cons, List.flatMap_nil, List.append_nil,
    List.append_assoc]
  cases maxAge with
  | none =>
    cases sameSite with
    | strict => rfl
    | lax => rfl
    | none => rfl
  | some age =>
    simp only [Option.toList_some, List.map_cons, List.map_nil, List.flatMap_cons, List.flatMap_nil,
      List.append_nil]
    cases sameSite with
    | strict => rfl
    | lax => rfl
    | none => rfl

/-- The digits of an integer, and its sign. -/
theorem mem_decimal {i : ℤ} {c : UInt8} (h : c ∈ decimal i) : Json.digito c = true ∨ c = 0x2D := by
  unfold decimal at h
  split at h
  · obtain rfl | h := List.mem_cons.1 h
    · exact .inr rfl
    · exact .inl ((Json.digitos_spec _).2 c h)
  · exact .inl ((Json.digitos_spec _).2 c h)

theorem trim_eq {s : Bytes} (h : ∀ b ∈ s, isBlank b = false) : trim s = s := by
  have hhead : s.dropWhile isBlank = s := by
    apply List.dropWhile_eq_self_iff.2
    intro hl
    rw [h _ (List.getElem_mem hl)]
    decide
  rw [trim, hhead]
  apply List.rdropWhile_eq_self_iff.2
  intro hne
  rw [h _ (List.getLast_mem hne)]
  decide

/-- No piece has a semicolon if the path and the domain have none. -/
theorem semicolon_not_mem_pieces (hpath : semicolon ∉ opts.path) (hdomain : semicolon ∉ opts.domain) :
    ∀ p ∈ opts.pieces, semicolon ∉ p := by
  have hstrip : ∀ s : Bytes, semicolon ∉ s → semicolon ∉ stripCrlf s :=
    fun s h hmem => h (List.mem_filter.1 hmem).1
  have hlabel : ∀ a b : Bytes, semicolon ∉ a → semicolon ∉ b → semicolon ∉ a ++ b := by
    intro a b ha hb h
    exact (List.mem_append.1 h).elim ha hb
  have hdecimal : ∀ i, semicolon ∉ decimal i := by
    intro i h
    exact (mem_decimal h).elim (by decide) (by decide)
  intro p hp
  simp only [CookieOptions.pieces, List.mem_append, List.mem_ite_nil_left, List.mem_ite_nil_right,
    List.mem_singleton, List.mem_map, Option.mem_toList] at hp
  obtain ((((⟨-, rfl⟩ | ⟨-, rfl⟩) | ⟨age, -, rfl⟩) | ⟨-, rfl⟩) | ⟨-, rfl⟩) | rfl := hp
  · exact hlabel _ _ (by decide) (hstrip _ hpath)
  · exact hlabel _ _ (by decide) (hstrip _ hdomain)
  · exact hlabel _ _ (by decide) (hdecimal age)
  · decide
  · decide
  · cases opts.sameSite with
    | strict => decide
    | lax => decide
    | none => decide

theorem attributes_pieces (opts : CookieOptions) : opts.pieces.map readAttribute = opts.attributes := by
  have hvalue : ∀ label name value, equals ∉ label → trim label = name →
      readAttribute (label ++ equals :: value) = (name, trim value) := by
    rintro label name value hlabel rfl
    rw [readAttribute, Lib.cut_append hlabel]
  have hpath : ∀ path, readAttribute (ascii " Path=" ++ path) = (ascii "Path", trim path) :=
    fun path => hvalue (ascii " Path") _ path (by decide) (by decide)
  have hdomain : ∀ domain, readAttribute (ascii " Domain=" ++ domain) = (ascii "Domain", trim domain) :=
    fun domain => hvalue (ascii " Domain") _ domain (by decide) (by decide)
  have hage : ∀ age, readAttribute (ascii " Max-Age=" ++ decimal age) = (ascii "Max-Age", decimal age) := by
    intro age
    have hblank : ∀ b ∈ decimal age, isBlank b = false := by
      intro b hb
      obtain h | rfl := mem_decimal hb
      · exact isBlank_of_digito h
      · rfl
    rw [← trim_eq hblank, ← hvalue (ascii " Max-Age") _ (decimal age) (by decide) (by decide),
      trim_eq hblank]
    rfl
  have hsite : readAttribute (ascii " SameSite=" ++ opts.sameSite.text) =
      (ascii "SameSite", opts.sameSite.text) := by
    cases opts.sameSite with
    | strict => decide
    | lax => decide
    | none => decide
  simp only [CookieOptions.pieces, CookieOptions.attributes, List.map_append, apply_ite (List.map readAttribute), List.map_cons,
    List.map_nil, List.map_map, hpath, hdomain, hsite, Function.comp_def, hage]
  rfl

theorem semicolon_not_mem_pair (name value : Bytes) :
    semicolon ∉ stripCookie name ++ equals :: stripCookie value := by
  simp [stripCookie, semicolon, equals]

/-- A client reads the attributes of the options, if neither the path nor the domain has
    a semicolon. -/
theorem attributesOf_setCookie (name value : Bytes) (hpath : semicolon ∉ opts.path)
    (hdomain : semicolon ∉ opts.domain) :
    attributesOf (buildSetCookie name value opts) = opts.promoted.attributes := by
  rw [buildSetCookie_eq, attributesOf, Lib.splitOn_flatMap (semicolon_not_mem_pair name value)
    (@semicolon_not_mem_pieces opts.promoted hpath hdomain),
    List.drop_succ_cons, List.drop_zero, attributes_pieces]

end Attributes

/-! ## The head -/

/-- `build_sse_headers`: a stream has no length. -/
def Response.buildSseHeaders (r : Response) (fields : List (Bytes × Bytes)) : Bytes :=
  ((r.headLines fields).eraseIdx 1).flatMap (· ++ crlf) ++ crlf

/-- The name, the value and the options of the cookie that a call sets. -/
def cookieOf : ResponseOp → Option (Bytes × Bytes × CookieOptions)
  | .cookie name value opts => some (name, value, opts)
  | .clearCookie name opts => some (name, [], { opts with maxAge := some 0 })
  | _ => none

/-- The line of a cookie that was set. -/
def cookieLine (c : Bytes × Bytes × CookieOptions) : Bytes := buildSetCookie c.1 c.2.1 c.2.2

section Head

variable {files : Files} {r : Response} {fields : List (Bytes × Bytes)}

theorem send_cookies (r : Response) (body : Bytes) : (r.send body).cookies = r.cookies := by
  unfold Response.send
  split
  · rfl
  · rfl

theorem sendFile_cookies (files : Files) (r : Response) (path : Bytes) :
    (r.sendFile files path).cookies = r.cookies := by
  unfold Response.sendFile
  split
  · rfl
  · split
    · rfl
    · rfl

theorem html_cookies (files : Files) (r : Response) (content : Bytes) :
    (r.html files content).cookies = r.cookies := by
  unfold Response.html
  split
  · rfl
  · dsimp only
    split
    · split
      · rfl
      · split
        · rfl
        · rfl
    · rfl

theorem serveFileFrom_cookies (files : Files) (r : Response) (root userPath : Bytes) :
    (r.serveFileFrom files root userPath).cookies = r.cookies := by
  unfold Response.serveFileFrom
  split
  · rfl
  · split
    · rfl
    · split
      · exact sendFile_cookies files r _
      · rfl

/-- Only the calls that set a cookie do so. -/
theorem apply_cookies (files : Files) (r : Response) (op : ResponseOp) :
    (r.apply files op).cookies = r.cookies ++ ((cookieOf op).map cookieLine).toList := by
  cases op with
  | cookie name value opts => rfl
  | clearCookie name opts => rfl
  | text body | jsonText body =>
    refine Eq.trans ?_ (List.append_nil _).symm
    simp only [Response.apply, Response.text, Response.jsonText]
    split
    · rfl
    · exact send_cookies _ body
  | html content => exact (html_cookies files r content).trans (List.append_nil _).symm
  | send body => exact (send_cookies r body).trans (List.append_nil _).symm
  | sendFile path => exact (sendFile_cookies files r path).trans (List.append_nil _).symm
  | serveFileFrom root userPath =>
    exact (serveFileFrom_cookies files r root userPath).trans (List.append_nil _).symm
  | takeBody | restoreBody body =>
    refine Eq.trans ?_ (List.append_nil _).symm
    simp only [Response.apply, Response.takeBody, Response.restoreBody]
    split
    · rfl
    · rfl
  | header | setTemplatesDir | status | sendFileSized | markSseStarted | markWsStarted =>
    exact (List.append_nil _).symm

theorem made_cookies (files : Files) (ops : List ResponseOp) :
    (Response.made files ops).cookies = (ops.filterMap cookieOf).map cookieLine := by
  have hall : ∀ (ops : List ResponseOp) (r : Response),
      (ops.foldl (Response.apply files) r).cookies = r.cookies ++ (ops.filterMap cookieOf).map cookieLine := by
    intro ops
    induction ops with
    | nil => exact fun r => (List.append_nil _).symm
    | cons op ops ih =>
      intro r
      rw [List.foldl_cons, ih, apply_cookies, List.append_assoc]
      cases h : cookieOf op with
      | none => rw [List.filterMap_cons_none h]; rfl
      | some c => rw [List.filterMap_cons_some h]; rfl
  exact hall ops {}

/-- **No call breaks a head.**  A reader that stops at the first empty line finds the
status, the length, a line for each header that is stored and one for each cookie that was
set, and then the body.  Behind a cookie there are the attributes of its options, if their
path and domain have no semicolon. -/
theorem head_lines (files : Files) (ops : List ResponseOp)
    (hfields : fields.Perm (Response.made files ops).headers) :
    let r := Response.made files ops
    readHead [] (r.build fields) =
        some (r.headLines fields, if r.sendfilePath = [] then r.body else []) ∧
      readHead [] (r.buildSseHeaders fields) = some ((r.headLines fields).eraseIdx 1, []) ∧
      (∀ line ∈ r.headLines fields, line ≠ [] ∧ Unbroken line) ∧
      (r.headLines fields).drop 2 = fields.map (fun f => f.1 ++ ascii ": " ++ f.2) ++
        (ops.filterMap cookieOf).map (ascii "Set-Cookie: " ++ cookieLine ·) ∧
      ∀ c ∈ ops.filterMap cookieOf, semicolon ∉ c.2.2.path → semicolon ∉ c.2.2.domain →
        attributesOf (cookieLine c) = c.2.2.promoted.attributes := by
  intro r
  have hclean : r.Clean := Response.made_clean files ops
  have hwhole := headLines_whole hclean hfields
  have hreadable := headLines_readable hclean hfields
  refine ⟨readHead_lines hreadable, ?_, hwhole, ?_, ?_⟩
  · have hsse := @readHead_lines ((r.headLines fields).eraseIdx 1) []
      fun l hl => hreadable l (List.mem_of_mem_eraseIdx hl)
    rwa [List.append_nil] at hsse
  · show fields.map _ ++ r.cookies.map _ = _
    rw [made_cookies, List.map_map]
    rfl
  · exact fun c _ hpath hdomain => attributesOf_setCookie c.1 c.2.1 hpath hdomain

theorem head_lines_evil :
    readHead [] ((Response.made ⟨fun _ => none, fun _ => none, fun _ => none⟩
        [.header (ascii "X\r\nY") (ascii "1\r\n\r\n"), .clearCookie (ascii "a;b") {}]).build
          [(ascii "XY", ascii "1")]) =
      some ([ascii "HTTP/1.1 200 OK", ascii "Content-Length: 0", ascii "XY: 1",
        ascii "Set-Cookie: ab=; Path=/; Max-Age=0; HttpOnly; SameSite=Lax"], []) := by
  have h := @head_lines [(ascii "XY", ascii "1")] ⟨fun _ => none, fun _ => none, fun _ => none⟩
    [.header (ascii "X\r\nY") (ascii "1\r\n\r\n"), .clearCookie (ascii "a;b") {}] (by decide)
  refine h.1.trans ?_
  decide

/-- A cookie for all sites has an attribute that nobody asked for. -/
theorem promoted_to_secure :
    let opts : CookieOptions := { sameSite := .none }
    (ascii "Secure", []) ∈ attributesOf (buildSetCookie (ascii "a") (ascii "b") opts) ∧
      (ascii "Secure", []) ∉ opts.attributes := by
  decide

end Head

/-! ## The cookies of a request -/

/-- What `parse_cookie_header` makes of the text between two semicolons. -/
def cookiePair (piece : Bytes) : Option (Bytes × Bytes) :=
  match cut equals (piece.dropWhile isBlank) with
  | some (k, v) => if k = [] then none else some (k, v)
  | none => none

/-- `emplace`: what is there stays. -/
def emplace (out : List (Bytes × Bytes)) (kv : Bytes × Bytes) : List (Bytes × Bytes) :=
  if (out.lookup kv.1).isSome then out else out ++ [kv]

/-- `parse_cookie_header`. -/
def parseCookieHeader (header : Bytes) : List (Bytes × Bytes) :=
  ((header.splitOn semicolon).filterMap cookiePair).foldl emplace []

/-- `Request::header`. -/
def ParsedRequest.header (req : ParsedRequest) (name : Bytes) : Option Bytes :=
  req.headers.lookup (lower name)

/-- `Request::cookie`. -/
def ParsedRequest.cookie (req : ParsedRequest) (name : Bytes) : Option Bytes :=
  (req.header (ascii "cookie")).bind fun h => (parseCookieHeader h).lookup name

/-- What a client sends: its cookies one after the other. -/
def cookieHeader : List Bytes → Bytes
  | [] => []
  | pair :: pairs => pair ++ (pairs.map (0x20 :: ·)).flatMap (semicolon :: ·)

/-- The name and the value in the line of a cookie. -/
def pairOf (line : Bytes) : Bytes := (line.splitOn semicolon).headD []

section Requests

variable {name value header : Bytes} {req : ParsedRequest} {before after : List Bytes}

/-- A map finds what was put in first. -/
theorem lookup_emplace (pairs out : List (Bytes × Bytes)) :
    (pairs.foldl emplace out).lookup name = (out ++ pairs).lookup name := by
  induction pairs generalizing out with
  | nil => rw [List.foldl_nil, List.append_nil]
  | cons kv pairs ih =>
    obtain ⟨k, v⟩ := kv
    rw [List.foldl_cons, ih, emplace]
    split
    · rename_i hk
      rw [List.lookup_append, List.lookup_append]
      by_cases hname : name = k
      · subst hname
        obtain ⟨v', hv'⟩ := Option.isSome_iff_exists.1 hk
        rw [hv']
        rfl
      · rw [List.lookup_cons, beq_eq_false_iff_ne.2 hname]
    · rw [List.append_assoc]
      rfl

theorem cookiePair_blank (piece : Bytes) : cookiePair (0x20 :: piece) = cookiePair piece := by
  rw [cookiePair, List.dropWhile_cons_of_pos (by rfl)]
  rfl

/-- The pairs that a client sends are the pairs that are read. -/
theorem lookup_cookieHeader {pairs : List Bytes} (h : ∀ p ∈ pairs, semicolon ∉ p) :
    (parseCookieHeader (cookieHeader pairs)).lookup name = (pairs.filterMap cookiePair).lookup name := by
  rw [parseCookieHeader, lookup_emplace, List.nil_append]
  cases pairs with
  | nil => rfl
  | cons p pairs =>
    have hblank : ∀ q ∈ pairs.map (0x20 :: ·), semicolon ∉ q := by
      intro q hq
      obtain ⟨p', hp', rfl⟩ := List.mem_map.1 hq
      rw [List.mem_cons, not_or]
      exact ⟨by decide, h p' (List.mem_cons_of_mem _ hp')⟩
    have hpairs : (pairs.map (0x20 :: ·)).filterMap cookiePair = pairs.filterMap cookiePair := by
      rw [List.filterMap_map]
      exact congrArg (fun f => pairs.filterMap f) (funext cookiePair_blank)
    rw [cookieHeader, Lib.splitOn_flatMap (h p (List.mem_cons_self ..)) hblank, List.filterMap_cons,
      hpairs]
    rfl

theorem pairOf_setCookie (name value : Bytes) (opts : CookieOptions) :
    pairOf (buildSetCookie name value opts) = stripCookie name ++ equals :: stripCookie value := by
  have hpair := semicolon_not_mem_pair name value
  rw [pairOf, buildSetCookie_eq]
  cases opts.promoted.pieces with
  | nil => rw [List.flatMap_nil, List.append_nil, List.splitOn_eq_singleton hpair, List.headD_cons]
  | cons p pieces =>
    rw [List.flatMap_cons, List.cons_append, List.splitOn_append_cons_self_of_not_mem hpair,
      List.headD_cons]

/-- **A cookie is found among others**, if none of them comes before it under its name. -/
theorem cookie_cookieHeader {opts : CookieOptions} (hname : stripCookie name = name) (hne : name ≠ [])
    (heq : equals ∉ name) (hvalue : stripCookie value = value)
    (hreq : req.header (ascii "cookie") =
      some (cookieHeader (before ++ pairOf (buildSetCookie name value opts) :: after)))
    (hsemi : ∀ p ∈ before ++ after, semicolon ∉ p)
    (hbefore : ∀ p ∈ before, ∀ kv, cookiePair p = some kv → kv.1 ≠ name) :
    req.cookie name = some value := by
  have hblank : ∀ c ∈ name, isBlank c = false := by
    intro c hc
    rw [← hname, stripCookie, List.mem_filter] at hc
    have hnot : ∀ b, isBlank b = true → ([CR, LF, 0x3B, 0x2C, 0x20, 0x09] : Bytes).contains b = true := by
      intro b hb
      rw [isBlank, Bool.or_eq_true, beq_iff_eq, beq_iff_eq] at hb
      obtain rfl | rfl := hb
      · decide
      · decide
    by_contra hb
    have hstripped := hc.2
    rw [hnot c (by simpa using hb)] at hstripped
    cases hstripped
  have hpair : cookiePair (name ++ equals :: value) = some (name, value) := by
    cases name with
    | nil => exact absurd rfl hne
    | cons c name =>
      have hc : isBlank c = false := hblank c (List.mem_cons_self ..)
      rw [cookiePair, List.cons_append, List.dropWhile_cons_of_neg (by rw [hc]; exact Bool.false_ne_true),
        ← List.cons_append, Lib.cut_append heq]
      exact if_neg hne
  have hnone : (before.filterMap cookiePair).lookup name = none := by
    rw [List.lookup_eq_none_iff]
    intro kv hkv
    obtain ⟨p, hp, hsome⟩ := List.mem_filterMap.1 hkv
    exact bne_iff_ne.2 (hbefore p hp kv hsome).symm
  rw [ParsedRequest.cookie, hreq, Option.bind_some, pairOf_setCookie, hname, hvalue,
    lookup_cookieHeader, List.filterMap_append, List.lookup_append, hnone, Option.none_or,
    List.filterMap_cons_some hpair, List.lookup_cons_self]
  intro p hp
  have hown := semicolon_not_mem_pair name value
  rw [hname, hvalue] at hown
  simp only [List.mem_append, List.mem_cons] at hp
  obtain hp | rfl | hp := hp
  · exact hsemi p (List.mem_append_left _ hp)
  · exact hown
  · exact hsemi p (List.mem_append_right _ hp)

end Requests

end Osodio.Http
