import Osodio.Http.Mounts
import Osodio.Http.Response

/-!
# Static files

`try_serve_static` looks for the file that a path asks for in the directory of its mount.  It
resolves links twice, and looks twice whether it is still inside: each time it compares the
components of the root with those of the file, of which it takes for granted that there are
as many.

## Main definitions

- `FileSystem` — what is asked of `std::filesystem`
- `relative`, `hidden` — the path inside the mount, and the test for dotfiles
- `inside` — the comparison
- `tryServeStatic` — the whole

## Main results

- `safe_iff_not_above` — a file that is served is inside, and nothing is read past the end
  of a path, exactly if the path does not lead above the root
- `root_of_all_read_past_end` — a path that is absolute behind its mount does
-/

namespace Osodio.Http

/-! ## Paths -/

def dot : UInt8 := 0x2E

/-- A path as its iterator gives it: the root directory first, and an empty component behind
    a slash at the end. -/
def elements (path : Bytes) : List Bytes :=
  (if isAbsolute path then [[slash]] else []) ++ components path ++
    if components path ≠ [] ∧ path.getLast? = some slash then [[]] else []

/-- `filename`. -/
def filename (path : Bytes) : Bytes := (elements path).getLast?.getD []

/-- Where the extension of a file name begins: a dot that does not come first. -/
def extensionAt (name : Bytes) : ℕ :=
  if name = [dot] ∨ name = [dot, dot] then name.length
  else
    match name.reverse.idxOf? dot with
    | some k => if k + 1 = name.length then name.length else name.length - (k + 1)
    | none => name.length

/-- `extension`. -/
def extension (path : Bytes) : Bytes := (filename path).drop (extensionAt (filename path))

/-- `stem`. -/
def stem (path : Bytes) : Bytes := (filename path).take (extensionAt (filename path))

/-- `std::mismatch` from the first component on, with three iterators: whether the first path
    comes to its end, or nothing if the second one does before. -/
def mismatch : List Bytes → List Bytes → Option Bool
  | [], _ => some true
  | _ :: _, [] => none
  | a :: as, b :: bs => if a = b then mismatch as bs else some false

/-- The file is the root, or inside it. -/
def inside (root file : Bytes) : Option Bool := mismatch (elements root) (elements file)

/-- One of the directories that the root is in. -/
def Above (path root : Bytes) : Prop :=
  elements path <+: elements root ∧ elements path ≠ elements root

/-- What is asked of `std::filesystem`.  Nothing changes while a request is served. -/
structure FileSystem where
  canonical : Bytes → Option Bytes
  /-- `none` where it throws. -/
  weaklyCanonical : Bytes → Option Bytes
  /-- `status` without an error, and `is_regular_file`. -/
  isRegularFile : Bytes → Bool
  lastWriteTime : Bytes → Option Int64
  fileSize : Bytes → Option ℕ
  /-- Links are followed. -/
  regular_canonical : ∀ {p q}, isRegularFile p = true → canonical p = some q →
    isRegularFile q = true
  /-- A regular file is no directory that something is in. -/
  regular_not_above : ∀ {p q r}, isRegularFile q = true → canonical p = some r → ¬Above q r

/-! ## Requests -/

/-- The value of a hexadecimal digit, for `strtoul`. -/
def xdigit (c : UInt8) : Option ℕ :=
  if 0x30 ≤ c && c ≤ 0x39 then some (c.toNat - 0x30)
  else if 0x61 ≤ c && c ≤ 0x66 then some (c.toNat - 0x61 + 10)
  else if 0x41 ≤ c && c ≤ 0x46 then some (c.toNat - 0x41 + 10)
  else none

/-- `std::isspace` in the C locale. -/
def isSpace (c : UInt8) : Bool := c == 0x20 || 0x09 ≤ c && c ≤ 0x0D

/-- `strtoul` to the base 16 on two characters, if it reads both: it takes a blank or a sign
    in front of one digit. -/
def strtoul (a b : UInt8) : Option ℕ :=
  match xdigit a, xdigit b with
  | some x, some y => some (16 * x + y)
  | none, some y =>
    if isSpace a || a == 0x2B then some y
    else if a == 0x2D then some (if y = 0 then 0 else 2 ^ 64 - y)
    else none
  | _, none => none

/-- `url_decode_path`. -/
def urlDecodePath : Bytes → Bytes
  | 0x25 :: a :: b :: s =>
    match strtoul a b with
    | some v => (if v = 0 then [] else [UInt8.ofNat v]) ++ urlDecodePath s
    | none => 0x25 :: urlDecodePath (a :: b :: s)
  | c :: s => c :: urlDecodePath s
  | [] => []

/-- `rel`: the path inside the mount, which begins with a slash. -/
def relative (m : StaticMount) (path : Bytes) : Bytes :=
  let rel := urlDecodePath (path.drop m.urlPrefix.length)
  if rel.head? = some slash then rel else slash :: rel

/-- A slash, and a dot behind it. -/
def hidden : Bytes → Bool
  | a :: b :: s => a == slash && b == dot || hidden (b :: s)
  | _ => false

/-- The digits of a number to the base 16. -/
def hexText (n : ℕ) : Bytes :=
  if n = 0 then [0x30] else (Nat.digits 16 n).reverse.map Json.hexDigit

/-- `make_etag`. -/
def makeEtag (mtime : Int64) (size : ℕ) : Bytes :=
  [0x22] ++ hexText mtime.toBitVec.toNat ++ [0x2D] ++ hexText size ++ [0x22]

/-- `is_hex_hash`: what is behind the last dot or hyphen. -/
def isHexHash (s : Bytes) : Bool :=
  let seg := (s.reverse.takeWhile fun c => c != dot && c != 0x2D)
  seg.length != s.length && 8 ≤ seg.length && seg.all fun c => (xdigit c).isSome

/-- The table of `mime_for_ext`. -/
def mimeTable : List (String × String) :=
  [(".html", "text/html; charset=utf-8"), (".htm", "text/html; charset=utf-8"),
    (".css", "text/css; charset=utf-8"), (".js", "application/javascript; charset=utf-8"),
    (".json", "application/json; charset=utf-8"), (".svg", "image/svg+xml"),
    (".png", "image/png"), (".jpg", "image/jpeg"), (".jpeg", "image/jpeg"),
    (".gif", "image/gif"), (".webp", "image/webp"), (".ico", "image/x-icon"),
    (".woff", "font/woff"), (".woff2", "font/woff2"), (".ttf", "font/ttf"),
    (".pdf", "application/pdf"), (".xml", "application/xml"),
    (".txt", "text/plain; charset=utf-8"), (".wasm", "application/wasm"),
    (".mjs", "application/javascript; charset=utf-8"),
    (".map", "application/json; charset=utf-8"), (".mp4", "video/mp4"),
    (".webm", "video/webm"), (".mp3", "audio/mpeg"), (".ogg", "audio/ogg"),
    (".avif", "image/avif")]

/-- `mime_for_ext`. -/
def mimeForExt (ext : Bytes) : Bytes :=
  match mimeTable.find? fun e => ascii e.1 == ext with
  | some e => ascii e.2
  | none => ascii "application/octet-stream"

/-! ## The answer -/

/-- How `try_serve_static` ends. -/
inductive StaticAnswer where
  /-- It reads past the end of a path. -/
  | undefined
  | throws
  /-- No mount takes the path. -/
  | passes
  | answers (r : Response)

namespace StaticAnswer

variable (res : Response)

def notFound : StaticAnswer :=
  .answers ((res.status 404).jsonText (ascii "\x7b\"error\":\"Not Found\"\x7d"))

def forbidden : StaticAnswer :=
  .answers ((res.status 403).jsonText (ascii "\x7b\"error\":\"Forbidden\"\x7d"))

def misconfigured : StaticAnswer :=
  .answers ((res.status 500).jsonText (ascii "\x7b\"error\":\"Server misconfiguration\"\x7d"))

end StaticAnswer

/-- The headers of a file, and the file or `304`. -/
def serveFile (fs : FileSystem) (req : ParsedRequest) (res : Response) (file : Bytes) : StaticAnswer :=
  match fs.lastWriteTime file, fs.fileSize file with
  | some mtime, some size =>
    let etag := makeEtag mtime size
    let cacheCtrl := if isHexHash (stem file) then ascii "public, max-age=31536000, immutable"
      else ascii "public, max-age=3600, must-revalidate"
    let res := ((res.header (ascii "ETag") etag).header (ascii "Cache-Control") cacheCtrl).header
      (ascii "Content-Type") (mimeForExt (extension file))
    if req.headers.lookup (ascii "if-none-match") = some etag then
      .answers ((res.status 304).send [])
    else .answers (res.sendFileSized file size)
  | _, _ => .answers ((res.status 500).jsonText (ascii "\x7b\"error\":\"Cannot stat file\"\x7d"))

/-- The file that was found, once more looked at. -/
def serveInside (fs : FileSystem) (req : ParsedRequest) (res : Response) (root file : Bytes) :
    StaticAnswer :=
  match inside root file with
  | none => .undefined
  | some false => .forbidden res
  | some true => serveFile fs req res file

/-- `try_serve_static`. -/
def tryServeStatic (fs : FileSystem) (mounts : List StaticMount) (req : ParsedRequest)
    (res : Response) : StaticAnswer :=
  match consulted mounts req.path with
  | none => .passes
  | some m =>
    let rel := relative m req.path
    if hidden rel then .notFound res
    else
      match fs.canonical m.root with
      | none => .misconfigured res
      | some root =>
        match fs.weaklyCanonical (Response.joinPath root rel.tail) with
        | none => .throws
        | some preliminary =>
          match inside root preliminary with
          | none => .undefined
          | some false => .forbidden res
          | some true =>
            if fs.isRegularFile preliminary then
              match fs.canonical preliminary with
              | none => .notFound res
              | some file => serveInside fs req res root file
            else if m.spa then
              match fs.canonical (Response.joinPath root (ascii "index.html")) with
              | none => .notFound res
              | some file =>
                if fs.isRegularFile file then serveInside fs req res root file else .notFound res
            else .notFound res

/-! ## What is served -/

/-- The path inside the mount, resolved, is a directory that the root is in. -/
def LeadsAbove (fs : FileSystem) (mounts : List StaticMount) (req : ParsedRequest) : Prop :=
  ∃ m root preliminary, consulted mounts req.path = some m ∧
    hidden (relative m req.path) = false ∧ fs.canonical m.root = some root ∧
      fs.weaklyCanonical (Response.joinPath root (relative m req.path).tail) = some preliminary ∧
        Above preliminary root

/-- A canonical path in the root of the mount, asked for without a component that begins with
    a dot. -/
def Within (fs : FileSystem) (mounts : List StaticMount) (req : ParsedRequest) (file : Bytes) :
    Prop :=
  ∃ m root, consulted mounts req.path = some m ∧ fs.canonical m.root = some root ∧
    (∃ p, fs.canonical p = some file) ∧ elements root <+: elements file ∧
      ∀ c ∈ (relative m req.path).splitOn slash, c.head? ≠ some dot

section StaticFiles

variable {fs : FileSystem} {mounts : List StaticMount} {req : ParsedRequest} {res r : Response}
  {root file path : Bytes}

theorem mismatch_eq_none {as bs : List Bytes} :
    mismatch as bs = none ↔ bs <+: as ∧ bs ≠ as := by
  fun_induction mismatch as bs with
  | case1 bs => simp
  | case2 a as => simp
  | case3 a as bs ih =>
    rw [ih, List.prefix_cons_inj]
    simp
  | case4 a as b bs hab =>
    simp only [reduceCtorEq, false_iff, List.cons_prefix_cons]
    exact fun h => hab h.1.1.symm

theorem mismatch_eq_true {as bs : List Bytes} : mismatch as bs = some true ↔ as <+: bs := by
  fun_induction mismatch as bs with
  | case1 bs => simp
  | case2 a as => simp
  | case3 a as bs ih => rw [ih, List.prefix_cons_inj]
  | case4 a as b bs hab => simp [hab]

/-- The comparison reads past the end of a file that is above the root. -/
theorem inside_eq_none : inside root file = none ↔ Above file root := mismatch_eq_none

theorem inside_eq_true : inside root file = some true ↔ elements root <+: elements file :=
  mismatch_eq_true

theorem splitOn_cons (c : UInt8) (s : Bytes) : (c :: s).splitOn slash =
    if c = slash then [] :: s.splitOn slash else (s.splitOn slash).modifyHead (List.cons c) := by
  rw [List.splitOn_eq_splitOnP, List.splitOn_eq_splitOnP, List.splitOnP_cons_eq_if_modifyHead]
  simp

/-- What is in front of the first slash begins as the whole does. -/
theorem splitOn_head (s : Bytes) : ∃ c cs, s.splitOn slash = c :: cs ∧
    (c = [] ∨ c.head? = s.head?) := by
  cases s with
  | nil => exact ⟨[], [], rfl, .inl rfl⟩
  | cons a s =>
    rw [splitOn_cons]
    split
    · exact ⟨[], _, rfl, .inl rfl⟩
    · obtain ⟨c, cs, hs, -⟩ := splitOn_head s
      exact ⟨a :: c, cs, by rw [hs, List.modifyHead_cons], .inr rfl⟩

/-- Behind a slash, no component begins with a dot. -/
theorem not_hidden (s : Bytes) (h : hidden s = false) :
    ∀ c ∈ (s.splitOn slash).tail, c.head? ≠ some dot := by
  induction s with
  | nil => simp
  | cons a s ih =>
    have htail : hidden s = false := by
      cases s with
      | nil => rfl
      | cons b s => exact (Bool.or_eq_false_iff.1 h).2
    rw [splitOn_cons]
    split
    case isTrue ha =>
      intro c hc
      obtain ⟨d, ds, hs, hd⟩ := splitOn_head s
      rw [List.tail_cons, hs, List.mem_cons] at hc
      obtain rfl | hc := hc
      · obtain rfl | hd := hd
        · simp
        · rw [hd]
          cases s with
          | nil => simp
          | cons b s =>
            have hb := (Bool.or_eq_false_iff.1 h).1
            intro hdot
            simp [ha, Option.some.inj hdot] at hb
      · exact ih htail c (by rwa [hs])
    case isFalse =>
      rw [List.tail_modifyHead]
      exact ih htail

/-- The path inside a mount begins with a slash. -/
theorem relative_head (m : StaticMount) (path : Bytes) : ∃ s, relative m path = slash :: s := by
  simp only [relative]
  split
  case isTrue h =>
    cases hs : urlDecodePath (path.drop m.urlPrefix.length) with
    | nil => simp [hs] at h
    | cons c s =>
      rw [hs] at h
      exact ⟨s, by rw [Option.some.inj h]⟩
  case isFalse => exact ⟨_, rfl⟩

theorem relative_components {m : StaticMount} (h : hidden (relative m path) = false) :
    ∀ c ∈ (relative m path).splitOn slash, c.head? ≠ some dot := by
  obtain ⟨s, hs⟩ := relative_head m path
  have htail := not_hidden _ h
  rw [hs, splitOn_cons, if_pos rfl] at htail ⊢
  intro c hc
  obtain rfl | hc := List.mem_cons.1 hc
  · simp
  · exact htail c hc

@[simp] theorem status_sendfilePath (code : ℤ) :
    (res.status code).sendfilePath = res.sendfilePath := rfl

@[simp] theorem header_sendfilePath (key value : Bytes) :
    (res.header key value).sendfilePath = res.sendfilePath := rfl

@[simp] theorem send_sendfilePath (body : Bytes) :
    (res.send body).sendfilePath = res.sendfilePath := by
  rw [Response.send]
  split <;> rfl

@[simp] theorem jsonText_sendfilePath (body : Bytes) :
    (res.jsonText body).sendfilePath = res.sendfilePath := by
  rw [Response.jsonText]
  split
  · rfl
  · exact send_sendfilePath body

/-- Of the answers, only the file itself has a new one. -/
theorem serveFile_answers (h : serveFile fs req res file = .answers r) :
    r.sendfilePath = res.sendfilePath ∨ r.sendfilePath = file := by
  rw [serveFile] at h
  split at h
  · dsimp only at h
    split at h <;> cases h
    · exact .inl (by simp)
    · exact .inr rfl
  · cases h
    exact .inl (by simp)

theorem serveInside_ne_undefined (h : ¬Above file root) :
    serveInside fs req res root file ≠ .undefined := by
  rw [serveInside]
  split
  next hin => exact absurd (inside_eq_none.1 hin) h
  · exact nofun
  · rw [serveFile]
    split
    · dsimp only
      split <;> exact nofun
    · exact nofun

/-- A file that is served has been compared with the root. -/
theorem serveInside_answers (h : serveInside fs req res root file = .answers r) :
    r.sendfilePath = res.sendfilePath ∨
      r.sendfilePath = file ∧ elements root <+: elements file := by
  rw [serveInside] at h
  split at h
  · cases h
  · cases h
    exact .inl (by simp)
  next hin => exact (serveFile_answers h).imp_right fun hr => ⟨hr, inside_eq_true.1 hin⟩

/-- What follows the first comparison: the path itself, or the index of the mount. -/
def serveResolved (fs : FileSystem) (req : ParsedRequest) (res : Response) (m : StaticMount)
    (root preliminary : Bytes) : StaticAnswer :=
  if fs.isRegularFile preliminary then
    match fs.canonical preliminary with
    | none => .notFound res
    | some file => serveInside fs req res root file
  else if m.spa then
    match fs.canonical (Response.joinPath root (ascii "index.html")) with
    | none => .notFound res
    | some file =>
      if fs.isRegularFile file then serveInside fs req res root file else .notFound res
  else .notFound res

/-- Both times it is a regular file that is compared. -/
theorem serveResolved_cases {m : StaticMount} {preliminary : Bytes} :
    serveResolved fs req res m root preliminary = .notFound res ∨
      ∃ p file, fs.canonical p = some file ∧ fs.isRegularFile file = true ∧
        serveResolved fs req res m root preliminary = serveInside fs req res root file := by
  rw [serveResolved]
  split
  case isTrue hregular =>
    split
    · exact .inl rfl
    next file hfile =>
      exact .inr ⟨_, file, hfile, fs.regular_canonical hregular hfile, rfl⟩
  case isFalse =>
    split
    · split
      · exact .inl rfl
      next file hfile =>
        split
        case isTrue hregular => exact .inr ⟨_, file, hfile, hregular, rfl⟩
        case isFalse => exact .inl rfl
    · exact .inl rfl

theorem tryServeStatic_eq (fs : FileSystem) (mounts : List StaticMount) (req : ParsedRequest)
    (res : Response) : tryServeStatic fs mounts req res =
      match consulted mounts req.path with
      | none => .passes
      | some m =>
        if hidden (relative m req.path) then .notFound res
        else
          match fs.canonical m.root with
          | none => .misconfigured res
          | some root =>
            match fs.weaklyCanonical (Response.joinPath root (relative m req.path).tail) with
            | none => .throws
            | some preliminary =>
              match inside root preliminary with
              | none => .undefined
              | some false => .forbidden res
              | some true => serveResolved fs req res m root preliminary := rfl

/-- Nothing is read past the end but by the first comparison. -/
theorem undefined_iff_leadsAbove :
    tryServeStatic fs mounts req res = .undefined ↔ LeadsAbove fs mounts req := by
  rw [tryServeStatic_eq]
  constructor
  · intro h
    split at h
    · cases h
    next m hm =>
    split at h
    · cases h
    next hhidden =>
    split at h
    · cases h
    next root hroot =>
    split at h
    · cases h
    next preliminary hp =>
    split at h
    next hin =>
      exact ⟨m, root, preliminary, hm, by simpa using hhidden, hroot, hp, inside_eq_none.1 hin⟩
    · cases h
    · -- the second comparison is with a regular file
      obtain hr | ⟨p, file, -, hregular, hr⟩ := serveResolved_cases
      · rw [hr] at h
        cases h
      · rw [hr] at h
        exact absurd h (serveInside_ne_undefined (fs.regular_not_above hregular hroot))
  · rintro ⟨m, root, preliminary, hm, hhidden, hroot, hp, habove⟩
    simp only [hm, hhidden, hroot, hp, inside_eq_none.2 habove, Bool.false_eq_true, if_false]

/-- What is served is in the root. -/
theorem answers_within (h : tryServeStatic fs mounts req res = .answers r) :
    r.sendfilePath = res.sendfilePath ∨ Within fs mounts req r.sendfilePath := by
  rw [tryServeStatic_eq] at h
  split at h
  · cases h
  next m hm =>
  split at h
  · cases h
    exact .inl (by simp)
  next hhidden =>
  split at h
  · cases h
    exact .inl (by simp)
  next root hroot =>
  split at h
  · cases h
  next preliminary hp =>
  split at h
  · cases h
  · cases h
    exact .inl (by simp)
  · obtain hr | ⟨p, file, hfile, -, hr⟩ := serveResolved_cases
    · rw [hr] at h
      cases h
      exact .inl (by simp)
    · rw [hr] at h
      obtain hkept | ⟨rfl, hinside⟩ := serveInside_answers h
      · exact .inl hkept
      · exact .inr ⟨m, root, hm, hroot, ⟨p, hfile⟩, hinside,
          relative_components (by simpa using hhidden)⟩

end StaticFiles

/-- **Static files stay inside their root**, for every request and every file system, exactly
    if the path does not lead above the root: then the first comparison reads past the end. -/
theorem safe_iff_not_above (fs : FileSystem) (mounts : List StaticMount) (req : ParsedRequest)
    (res : Response) :
    (tryServeStatic fs mounts req res ≠ .undefined ∧
      ∀ r, tryServeStatic fs mounts req res = .answers r →
        r.sendfilePath = res.sendfilePath ∨ Within fs mounts req r.sendfilePath) ↔
      ¬LeadsAbove fs mounts req := by
  constructor
  · rintro ⟨hdefined, -⟩ habove
    exact hdefined (undefined_iff_leadsAbove.2 habove)
  · intro habove
    exact ⟨fun h => habove (undefined_iff_leadsAbove.1 h), fun r h => answers_within h⟩

/-- Three directories, one in the other, and no file. -/
def emptyPublic : FileSystem where
  canonical p :=
    if p ∈ [ascii "/", ascii "/srv", ascii "/srv/public"] then some p else none
  weaklyCanonical p := some p
  isRegularFile _ := false
  lastWriteTime _ := none
  fileSize _ := none
  regular_canonical := nofun
  regular_not_above := nofun

/-- Behind the mount the path begins with two slashes, and what is appended to the root is
    absolute: the root of all is shorter than that of the mount. -/
theorem root_of_all_read_past_end :
    tryServeStatic emptyPublic [⟨ascii "/static", ascii "/srv/public", false⟩]
      { path := ascii "/static//" } {} = .undefined := by
  rfl

end Osodio.Http
