import Osodio.Http.Output
import Osodio.Http.Response
import Osodio.Json.RoundTrip
import Mathlib.Data.List.DropRight
import Mathlib.Data.List.Perm.Basic

/-!
# The framing of a response

What a client must find on a kept-alive connection is where the next response
starts.  It reads the lines of the header section up to an empty one, takes the
length from them, and expects no body at all after `HEAD` and with some statuses.
The connection writes what the handler has left in the response, in as many pieces
as the socket asks for.

## Main definitions

- `readHead`, `Framed` — a response as a client reads it
- `Exchange`, `finishDispatch` — the connection while it answers one request
- `Sound` — the answers that the client can delimit

## Main results

- `readHead_lines` — the lines of the header section are read back
- `framed_iff_sound` — whatever the socket takes at a time, an answer is delimited or
  the connection closed if and only if it is sound
-/

namespace Osodio.Http

open Json (digito digitos)

/-! ## What a client reads -/

/-- The lines up to the first empty one, and what comes after it. -/
def readHead (line : Bytes) : Bytes → Option (List Bytes × Bytes)
  | 0x0D :: 0x0A :: rest =>
    if line = [] then some ([], rest)
    else (readHead [] rest).map fun r => (line :: r.1, r.2)
  | b :: rest => readHead (line ++ [b]) rest
  | [] => none

def isBlank (b : UInt8) : Bool := b == 0x20 || b == 0x09

/-- The name of a field, in lower case and without blanks behind it. -/
def fieldName (line : Bytes) : Bytes :=
  lower ((line.takeWhile fun b => b != 0x3A).rdropWhile isBlank)

def fieldValue (line : Bytes) : Bytes :=
  (((line.dropWhile fun b => b != 0x3A).drop 1).dropWhile isBlank).rdropWhile isBlank

def readDecimal (s : Bytes) : Option ℕ :=
  if s ≠ [] ∧ s.all digito then
    some (Nat.ofDigits 10 (s.reverse.map fun d => d.toNat - 0x30))
  else none

/-- The name is not one that delimits a message, nor the continuation of a field. -/
def PlainName (name : Bytes) : Prop :=
  (∀ b ∈ name.head?, isBlank b = false) ∧ fieldName name ≠ ascii "content-length" ∧
    fieldName name ≠ ascii "transfer-encoding"

/-- The method or the status leaves the response without a body. -/
def withoutBody (method : Bytes) (status : ℤ) : Bool :=
  method == ascii "HEAD" || (100 ≤ status && status < 200) || status == 204 || status == 304

/-- The text is one response: a status line, fields of which exactly one gives the
    length of the body and none a transfer coding, and that body or none. -/
def Framed (noBody : Bool) (text : Bytes) : Prop :=
  ∃ status fields body field n, readHead [] text = some (status :: fields, body) ∧
    ascii "HTTP/1.1 " <+: status ∧
    (∀ f ∈ fields, (∀ b ∈ f.head?, isBlank b = false) ∧
      fieldName f ≠ ascii "transfer-encoding") ∧
    fields.filter (fun f => fieldName f == ascii "content-length") = [field] ∧
    readDecimal (fieldValue field) = some n ∧
    body.length = if noBody then 0 else n

/-! ## The connection while it answers -/

/-- 16 MB. -/
def kMaxResponseBytes : ℕ := 16 * 1024 * 1024

/-- How `unordered_map` walks its entries. -/
structure Walk where
  order : List (Bytes × Bytes) → List (Bytes × Bytes)
  perm : ∀ fields, (order fields).Perm fields

structure Exchange where
  out : Output := {}
  keepAlive : Bool
  closed : Bool := false
  /-- `on_write_complete` has run. -/
  complete : Bool := false
  deriving DecidableEq, Repr

/-- `keep_alive_`, from the version and the `Connection` field of the request. -/
def keepAliveOf (q : ParsedRequest) : Bool :=
  match q.headers.lookup (ascii "connection") with
  | some value => lower value != ascii "close"
  | none => q.version == ascii "HTTP/1.1"

/-- The response with the field that `finish_dispatch` adds. -/
def withConnection (q : ParsedRequest) (r : Response) : Response :=
  r.header (ascii "Connection") (ascii (if keepAliveOf q then "keep-alive" else "close"))

namespace Exchange

/-- What follows a write function; without `keep_alive_` a complete response closes
    the connection. -/
def settle (x : Exchange) (w : Written) : Exchange :=
  match w.1 with
  | .blocked => { x with out := w.2.1 }
  | .finished => { x with out := w.2.1, complete := true, closed := x.closed || !x.keepAlive }
  | .failed => { x with out := w.2.1, closed := true }

/-- `send_response`. -/
def sendResponse (data : Bytes) (x : Exchange) (socket : List Outcome) : Exchange :=
  if kMaxResponseBytes < data.length then { x with keepAlive := false, closed := true }
  else x.settle (x.out.sendData data socket)

/-- `on_event`, with `EPOLLOUT`. -/
def writable (x : Exchange) (socket : List Outcome) : Option Exchange :=
  if x.closed || x.complete then none else some (x.settle (x.out.write socket))

end Exchange

/-- What `send_response` is given when a file cannot be opened. -/
def cannotOpen : Response :=
  ((({} : Response).status 500).jsonText
    (ascii "\x7b\"error\":\"Cannot open file\"\x7d")).header (ascii "Connection") (ascii "close")

/-- `finish_dispatch`.  `file` is what the file of the response holds while it is sent,
    unless it cannot be opened any more. -/
def finishDispatch (walk : Walk) (q : ParsedRequest) (r : Response) (file : Option Bytes)
    (socket : List Outcome) : Exchange :=
  let x : Exchange := { keepAlive := keepAliveOf q }
  let r := withConnection q r
  if r.sseStarted || r.wsStarted then { x with keepAlive := false, closed := true }
  else if r.sendfilePath ≠ [] ∧ q.method = ascii "HEAD" then
    x.sendResponse (r.build (walk.order r.headers)) socket
  else if r.sendfilePath ≠ [] then
    match file with
    | none =>
      ({ x with keepAlive := false } : Exchange).sendResponse
        (cannotOpen.build (walk.order cannotOpen.headers)) socket
    | some content =>
      ({ x with out := { file := some ⟨content, r.sendfileSize⟩ } } : Exchange).sendResponse
        (r.build (walk.order r.headers)) socket
  else x.sendResponse (r.build (walk.order r.headers)) socket

/-- The connection while it answers a request: the socket takes what it likes at
    first, and then each time that it has become writable. -/
def answering (walk : Walk) (q : ParsedRequest) (r : Response) (file : Option Bytes)
    (first : List Outcome) : Lib.System Exchange (List Outcome) where
  init := finishDispatch walk q r file first
  step := Exchange.writable

/-! ## The answers that can be delimited -/

/-- The octets behind the header section are those that the client expects. -/
def BodyFits (q : ParsedRequest) (r : Response) (file : Option Bytes) : Prop :=
  if r.sendfilePath = [] then withoutBody q.method r.statusCode = true → r.body = []
  else q.method ≠ ascii "HEAD" → ∀ content ∈ file,
    if withoutBody q.method r.statusCode then content = [] ∨ r.sendfileSize = 0
    else r.sendfileSize ≤ content.length

/-- The connection is closed after the answer, whatever it is. -/
def Closing (walk : Walk) (q : ParsedRequest) (r : Response) (file : Option Bytes) : Prop :=
  keepAliveOf q = false ∨ r.sseStarted = true ∨ r.wsStarted = true ∨
    (r.sendfilePath ≠ [] ∧ q.method ≠ ascii "HEAD" ∧ file = none) ∨
    kMaxResponseBytes <
      ((withConnection q r).build (walk.order (withConnection q r).headers)).length

/-- The client can delimit the answer, or the connection is closed after it. -/
def Sound (walk : Walk) (q : ParsedRequest) (r : Response) (file : Option Bytes) : Prop :=
  Closing walk q r file ∨ (∀ f ∈ r.headers, PlainName f.1) ∧ BodyFits q r file

/-! ## Reading a header section back -/

section Reading

variable {line rest : Bytes}

theorem readHead_text {t : Bytes} (ht : CR ∉ t) (line : Bytes) :
    readHead line (t ++ rest) = readHead (line ++ t) rest := by
  induction t generalizing line with
  | nil => rw [List.nil_append, List.append_nil]
  | cons b t ih =>
    have hb : b ≠ 0x0D := fun h => ht (h ▸ List.mem_cons_self ..)
    have hstep : readHead line (b :: (t ++ rest)) = readHead (line ++ [b]) (t ++ rest) := by
      rw [readHead]
      intro _ h
      exact absurd h hb
    rw [List.cons_append, hstep, ih fun h => ht (List.mem_cons_of_mem _ h), List.append_assoc]
    rfl

/-- The lines of a header section are read back, and so is what follows them. -/
theorem readHead_lines {lines : List Bytes} {body : Bytes}
    (h : ∀ l ∈ lines, l ≠ [] ∧ CR ∉ l) :
    readHead [] (lines.flatMap (· ++ crlf) ++ crlf ++ body) = some (lines, body) := by
  induction lines with
  | nil => rfl
  | cons l lines ih =>
    obtain ⟨hne, hcr⟩ := h l (List.mem_cons_self ..)
    have ih := ih fun l' hl' => h l' (List.mem_cons_of_mem _ hl')
    have hsplit : (l :: lines).flatMap (· ++ crlf) ++ crlf ++ body =
        l ++ (0x0D :: 0x0A :: (lines.flatMap (· ++ crlf) ++ crlf ++ body)) := by
      simp [crlf, CR, LF]
    rw [hsplit, readHead_text hcr, List.nil_append, readHead, if_neg hne, ih]
    rfl

theorem fieldName_colon (name rest : Bytes) :
    fieldName (name ++ 0x3A :: rest) = fieldName name := by
  unfold fieldName
  congr 2
  induction name with
  | nil => rfl
  | cons b name ih =>
    rw [List.cons_append, List.takeWhile_cons, List.takeWhile_cons, ih]

theorem head_colon (name rest : Bytes) :
    (∀ b ∈ (name ++ 0x3A :: rest).head?, isBlank b = false) ↔
      ∀ b ∈ name.head?, isBlank b = false := by
  cases name with
  | nil => simp [isBlank]
  | cons b name => rfl

theorem readDecimal_digitos (n : ℕ) : readDecimal (digitos n) = some n := by
  have hspec := Json.digitos_spec n
  rw [readDecimal, if_pos ⟨hspec.1, List.all_eq_true.2 hspec.2⟩, Json.ofDigits_digitos]

theorem isBlank_of_digito {b : UInt8} (h : digito b = true) : isBlank b = false := by
  rw [isBlank, Bool.or_eq_false_iff, beq_eq_false_iff_ne, beq_eq_false_iff_ne]
  constructor
  · rintro rfl
    exact absurd h (by decide)
  · rintro rfl
    exact absurd h (by decide)

theorem fieldValue_length (n : ℕ) :
    fieldValue (ascii "Content-Length: " ++ digitos n) = digitos n := by
  have hspec := Json.digitos_spec n
  have hdrop : ((ascii "Content-Length: " ++ digitos n).dropWhile fun b => b != 0x3A).drop 1 =
      0x20 :: digitos n := rfl
  have hhead : (digitos n).dropWhile isBlank = digitos n := by
    refine List.dropWhile_eq_self_iff.2 fun hl => ?_
    rw [isBlank_of_digito (hspec.2 _ (List.getElem_mem hl))]
    decide
  have hlast : (digitos n).rdropWhile isBlank = digitos n := by
    refine List.rdropWhile_eq_self_iff.2 fun hne => ?_
    rw [isBlank_of_digito (hspec.2 _ (List.getLast_mem hne))]
    decide
  rw [fieldValue, hdrop, List.dropWhile_cons_of_pos (by decide), hhead, hlast]

end Reading

/-! ## The header section of a response -/

section Head

variable {r : Response} {fields : List (Bytes × Bytes)}

/-- The lines of the header section without the status line. -/
def fieldLines (r : Response) (fields : List (Bytes × Bytes)) : List Bytes :=
  (ascii "Content-Length: " ++ digitos r.contentLength) ::
    (fields.map (fun f => f.1 ++ ascii ": " ++ f.2) ++ r.cookies.map (ascii "Set-Cookie: " ++ ·))

theorem fieldLine_eq (f : Bytes × Bytes) : f.1 ++ ascii ": " ++ f.2 = f.1 ++ 0x3A :: 0x20 :: f.2 := by
  rw [List.append_assoc]
  rfl

/-- The lines of a head are lines, and none is empty. -/
theorem headLines_whole (hclean : r.Clean) (hfields : fields.Perm r.headers) :
    ∀ l ∈ r.headLines fields, l ≠ [] ∧ Unbroken l := by
  intro l hl
  obtain rfl | hl := List.mem_cons.1 hl
  · refine ⟨nofun, ?_⟩
    have hreason : ∀ code, Unbroken (ascii (reasonPhrase code)) := by
      intro code
      unfold reasonPhrase
      split <;> decide
    exact .append (.append (by decide) (unbroken_decimal _)) (.cons (by decide) (hreason _))
  obtain rfl | hl := List.mem_cons.1 hl
  · exact ⟨nofun, Unbroken.append (by decide : Unbroken (ascii "Content-Length: "))
      (unbroken_digitos _)⟩
  obtain hl | hl := List.mem_append.1 hl
  · obtain ⟨f, hf, rfl⟩ := List.mem_map.1 hl
    obtain ⟨hk, hv⟩ := hclean.headers f (hfields.mem_iff.1 hf)
    exact ⟨by simp [ascii], (hk.append (by decide)).append hv⟩
  · obtain ⟨c, hc, rfl⟩ := List.mem_map.1 hl
    exact ⟨nofun, Unbroken.append (by decide : Unbroken (ascii "Set-Cookie: "))
      (hclean.cookies c hc)⟩

theorem headLines_readable (hclean : r.Clean) (hfields : fields.Perm r.headers) :
    ∀ l ∈ r.headLines fields, l ≠ [] ∧ CR ∉ l := by
  intro l hl
  obtain ⟨hne, hcr, -⟩ := headLines_whole hclean hfields l hl
  exact ⟨hne, hcr⟩

theorem fieldName_length (n : ℕ) :
    fieldName (ascii "Content-Length: " ++ digitos n) = ascii "content-length" :=
  fieldName_colon (ascii "Content-Length") (0x20 :: digitos n)

theorem fieldName_cookie (c : Bytes) :
    fieldName (ascii "Set-Cookie: " ++ c) = ascii "set-cookie" :=
  fieldName_colon (ascii "Set-Cookie") (0x20 :: c)

/-- The client delimits what comes after a header section if and only if no field of
    the handler has a name that delimits, and as much comes as it expects. -/
theorem framed_iff (hclean : r.Clean) (hfields : fields.Perm r.headers) (noBody : Bool)
    (body : Bytes) :
    Framed noBody ((r.headLines fields).flatMap (· ++ crlf) ++ crlf ++ body) ↔
      (∀ f ∈ r.headers, PlainName f.1) ∧ body.length = if noBody then 0 else r.contentLength := by
  have hread := @readHead_lines (r.headLines fields) body (headLines_readable hclean hfields)
  have hfilter : ∀ lines : List Bytes,
      ((ascii "Content-Length: " ++ digitos r.contentLength) :: lines).filter
          (fun f => fieldName f == ascii "content-length") =
        (ascii "Content-Length: " ++ digitos r.contentLength) ::
          lines.filter (fun f => fieldName f == ascii "content-length") := fun lines =>
    List.filter_cons_of_pos (beq_iff_eq.2 (fieldName_length _))
  constructor
  · rintro ⟨status, lines, body', field, n, hread', -, hall, hone, hn, hbody⟩
    rw [hread] at hread'
    cases hread'
    rw [hfilter, List.cons.injEq] at hone
    obtain ⟨rfl, hnone⟩ := hone
    rw [fieldValue_length, readDecimal_digitos, Option.some.injEq] at hn
    refine ⟨fun f hf => ?_, hn ▸ hbody⟩
    have hmem := List.mem_append_left (r.cookies.map (ascii "Set-Cookie: " ++ ·))
      (List.mem_map_of_mem (f := fun f => f.1 ++ ascii ": " ++ f.2) (hfields.mem_iff.2 hf))
    obtain ⟨hhead, hte⟩ := hall _ (List.mem_cons_of_mem _ hmem)
    have hcl := List.filter_eq_nil_iff.1 hnone _ hmem
    rw [beq_iff_eq] at hcl
    rw [fieldLine_eq] at hhead hte hcl
    rw [fieldName_colon] at hte hcl
    exact ⟨(head_colon _ _).1 hhead, hcl, hte⟩
  · rintro ⟨hplain, hbody⟩
    have hline : ∀ f ∈ fields.map (fun f => f.1 ++ ascii ": " ++ f.2) ++
        r.cookies.map (ascii "Set-Cookie: " ++ ·), (∀ b ∈ f.head?, isBlank b = false) ∧
          fieldName f ≠ ascii "content-length" ∧ fieldName f ≠ ascii "transfer-encoding" := by
      intro l hl
      obtain hl | hl := List.mem_append.1 hl
      · obtain ⟨f, hf, rfl⟩ := List.mem_map.1 hl
        obtain ⟨hhead, hcl, hte⟩ := hplain f (hfields.mem_iff.1 hf)
        rw [fieldLine_eq, fieldName_colon]
        exact ⟨(head_colon _ _).2 hhead, hcl, hte⟩
      · obtain ⟨c, -, rfl⟩ := List.mem_map.1 hl
        rw [fieldName_cookie]
        exact ⟨by rintro b ⟨⟩; decide, by decide, by decide⟩
    refine ⟨_, _, body, ascii "Content-Length: " ++ digitos r.contentLength, r.contentLength,
      hread, ⟨_, (List.append_assoc ..).symm⟩, ?_, ?_, ?_, hbody⟩
    · intro f hf
      obtain rfl | hf := List.mem_cons.1 hf
      · rw [fieldName_length]
        exact ⟨by rintro b ⟨⟩; decide, by decide⟩
      · exact ⟨(hline f hf).1, (hline f hf).2.2⟩
    · rw [hfilter, List.filter_eq_nil_iff.2]
      intro f hf
      rw [beq_iff_eq]
      exact (hline f hf).2.1
    · rw [fieldValue_length, readDecimal_digitos]

end Head

/-! ## What is written for an answer -/

/-- What comes after the header section. -/
def answerBody (q : ParsedRequest) (r : Response) (file : Option Bytes) : Bytes :=
  if r.sendfilePath = [] then r.body
  else if q.method = ascii "HEAD" then []
  else (file.getD []).take r.sendfileSize

/-- What is written for an answer after which the connection is kept. -/
def answerText (walk : Walk) (q : ParsedRequest) (r : Response) (file : Option Bytes) : Bytes :=
  let r := withConnection q r
  (r.headLines (walk.order r.headers)).flatMap (· ++ crlf) ++ crlf ++ answerBody q r file

/-- An exchange that writes `text` and keeps the connection. -/
structure Exchange.Answers (text : Bytes) (x : Exchange) : Prop where
  keepAlive : x.keepAlive = true
  going : x.closed = false → x.complete = false → x.out.sent ++ x.out.pending = text
  done : x.complete = true → x.out.sent = text ∧ x.closed = false

/-- An exchange that ends with the connection. -/
def Exchange.Closes (x : Exchange) : Prop :=
  x.closed = true ∨ x.keepAlive = false ∧ x.complete = false

section Answers

variable {x y : Exchange} {w : Written} {text data : Bytes} {socket : List Outcome}

theorem Exchange.settle_answers (hw : Output.Keeps text w) (hka : x.keepAlive = true)
    (hopen : x.closed = false) (hgoing : x.complete = false) : (x.settle w).Answers text := by
  obtain ⟨how, o, rest⟩ := w
  cases how with
  | blocked =>
    exact ⟨hka, fun _ _ => hw.conserved nofun, fun h => absurd (hgoing.symm.trans h) nofun⟩
  | finished =>
    refine ⟨hka, nofun, fun _ => ⟨hw.sent_eq rfl, ?_⟩⟩
    show (x.closed || !x.keepAlive) = false
    rw [hopen, hka]
    rfl
  | failed => exact ⟨hka, nofun, fun h => absurd (hgoing.symm.trans h) nofun⟩

theorem Exchange.settle_closes (w : Written) (h : x.Closes) : (x.settle w).Closes := by
  obtain ⟨how, o, rest⟩ := w
  cases how with
  | blocked => exact h
  | finished =>
    left
    show (x.closed || !x.keepAlive) = true
    obtain h | ⟨h, -⟩ := h <;> simp [h]
  | failed => exact .inl rfl

theorem Exchange.sendResponse_closes (h : x.Closes) :
    (x.sendResponse data socket).Closes := by
  unfold sendResponse
  split
  · exact .inl rfl
  · exact x.settle_closes _ h

/-- One `EPOLLOUT` of an exchange that keeps the connection. -/
theorem Exchange.writable_answers (h : x.Answers text) (hs : x.writable socket = some y) :
    y.Answers text := by
  unfold writable at hs
  split at hs
  · cases hs
  · next hgo =>
    cases hs
    rw [Bool.or_eq_true, not_or, Bool.not_eq_true, Bool.not_eq_true] at hgo
    exact settle_answers (Output.write_keeps (h.going hgo.1 hgo.2)) h.keepAlive hgo.1 hgo.2

theorem Exchange.writable_closes (h : x.Closes) (hs : x.writable socket = some y) :
    y.Closes := by
  unfold writable at hs
  split at hs
  · cases hs
  · cases hs
    exact x.settle_closes _ h

end Answers

section Finish

variable {walk : Walk} {q : ParsedRequest} {r : Response} {file : Option Bytes}

/-- An answer that ends with the connection. -/
theorem finishDispatch_closes (h : Closing walk q r file) (first : List Outcome) :
    (finishDispatch walk q r file first).Closes := by
  have hsend : ∀ (x : Exchange) (data : Bytes),
      x.Closes ∨ kMaxResponseBytes < data.length → (x.sendResponse data first).Closes := by
    intro x data hx
    obtain hx | hlarge := hx
    · exact Exchange.sendResponse_closes hx
    · unfold Exchange.sendResponse
      rw [if_pos hlarge]
      exact .inl rfl
  unfold finishDispatch
  dsimp only
  split
  · exact .inl rfl
  · next hstream =>
    -- the text of the response is too large, or the connection is not kept
    have hclose : keepAliveOf q = false ∨
        (r.sendfilePath ≠ [] ∧ q.method ≠ ascii "HEAD" ∧ file = none) ∨
        kMaxResponseBytes <
          ((withConnection q r).build (walk.order (withConnection q r).headers)).length := by
      obtain h | h | h | h | h := h
      · exact .inl h
      · exact absurd (by rw [show (withConnection q r).sseStarted = r.sseStarted from rfl, h]; rfl)
          hstream
      · exact absurd (by rw [show (withConnection q r).wsStarted = r.wsStarted from rfl, h,
          Bool.or_true]) hstream
      · exact .inr (.inl h)
      · exact .inr (.inr h)
    split
    · next hhead =>
      obtain h | ⟨-, h, -⟩ | h := hclose
      · exact hsend _ _ (.inl (.inr ⟨h, rfl⟩))
      · exact absurd hhead.2 h
      · exact hsend _ _ (.inr h)
    · split
      · cases file with
        | none => exact hsend _ _ (.inl (.inr ⟨rfl, rfl⟩))
        | some content =>
          obtain h | ⟨-, -, h⟩ | h := hclose
          · exact hsend _ _ (.inl (.inr ⟨h, rfl⟩))
          · cases h
          · exact hsend _ _ (.inr h)
      · next hpath =>
        obtain h | ⟨h, -⟩ | h := hclose
        · exact hsend _ _ (.inl (.inr ⟨h, rfl⟩))
        · exact absurd h hpath
        · exact hsend _ _ (.inr h)

/-- An answer after which the connection is kept: the response, and behind it the file
    unless the request was a `HEAD`. -/
theorem finishDispatch_eq (h : ¬ Closing walk q r file) :
    ∃ o : Output, o.writeBuf = [] ∧
      o.sent ++ ((withConnection q r).build (walk.order (withConnection q r).headers) ++
        o.filePending) = answerText walk q r file ∧
      ∀ first, finishDispatch walk q r file first =
        ({ keepAlive := true, out := o } : Exchange).settle
          (o.sendData ((withConnection q r).build (walk.order (withConnection q r).headers))
            first) := by
  simp only [Closing, not_or, not_and, Bool.not_eq_false, Bool.not_eq_true, not_lt] at h
  obtain ⟨hka, hsse, hws, hfile, hsize⟩ := h
  have hstream : ¬ ((withConnection q r).sseStarted || (withConnection q r).wsStarted) = true := by
    rw [show (withConnection q r).sseStarted = r.sseStarted from rfl,
      show (withConnection q r).wsStarted = r.wsStarted from rfl, hsse, hws]
    decide
  have hpath : (withConnection q r).sendfilePath = r.sendfilePath := rfl
  have hlen : (withConnection q r).sendfileSize = r.sendfileSize := rfl
  unfold finishDispatch answerText answerBody
  simp only [if_neg hstream, Exchange.sendResponse, if_neg (Nat.not_lt.2 hsize), hka, hpath]
  by_cases hp : r.sendfilePath = []
  · refine ⟨{}, rfl, ?_, fun first => ?_⟩
    · simp [Response.build, hpath, hp, Output.filePending]
    · rw [if_neg fun h => h.1 hp, if_neg (not_not.2 hp)]
  · by_cases hm : q.method = ascii "HEAD"
    · refine ⟨{}, rfl, ?_, fun first => ?_⟩
      · simp [Response.build, hpath, hp, hm, Output.filePending]
      · rw [if_pos ⟨hp, hm⟩]
    · obtain ⟨content, rfl⟩ := Option.ne_none_iff_exists'.1 (hfile hp hm)
      refine ⟨{ file := some ⟨content, r.sendfileSize⟩ }, rfl, ?_, fun first => ?_⟩
      · simp [Response.build, hpath, hlen, hp, hm, Output.filePending]
      · rw [if_neg fun h => hm h.2, if_pos hp]
        rfl

theorem finishDispatch_answers (h : ¬ Closing walk q r file) (first : List Outcome) :
    (finishDispatch walk q r file first).Answers (answerText walk q r file) := by
  obtain ⟨o, hbuf, htext, heq⟩ := finishDispatch_eq h
  rw [heq]
  exact Exchange.settle_answers (Output.sendData_keeps hbuf htext) rfl rfl rfl

/-- A socket that takes everything completes the answer at once. -/
theorem finishDispatch_complete (h : ¬ Closing walk q r file) :
    ∃ first, (finishDispatch walk q r file first).complete = true := by
  obtain ⟨o, -, -, heq⟩ := finishDispatch_eq h
  obtain ⟨socket, hdone⟩ := Output.sendData_drained o
    ((withConnection q r).build (walk.order (withConnection q r).headers))
  refine ⟨socket, ?_⟩
  rw [heq, Exchange.settle, hdone]

theorem bodyFits_iff (h : ¬ Closing walk q r file) :
    BodyFits q r file ↔ (answerBody q r file).length =
      if withoutBody q.method r.statusCode then 0 else r.contentLength := by
  unfold BodyFits answerBody Response.contentLength
  by_cases hp : r.sendfilePath = []
  · simp only [if_pos hp]
    cases withoutBody q.method r.statusCode <;> simp
  · simp only [if_neg hp]
    by_cases hm : q.method = ascii "HEAD"
    · simp [hm, withoutBody]
    · have hfile : file ≠ none := fun hf => h (.inr (.inr (.inr (.inl ⟨hp, hm, hf⟩))))
      obtain ⟨content, rfl⟩ := Option.ne_none_iff_exists'.1 hfile
      simp only [if_neg hm, Option.getD_some, List.length_take]
      cases withoutBody q.method r.statusCode with
      | true => simp [hm, or_comm]
      | false => simp [hm]

end Finish

/-! ## When an answer can be delimited -/

section Delimited

variable {walk : Walk} {q : ParsedRequest} {file : Option Bytes}

theorem withConnection_plain {r : Response} :
    (∀ f ∈ (withConnection q r).headers, PlainName f.1) ↔ ∀ f ∈ r.headers, PlainName f.1 := by
  have hname : stripCrlf (ascii "Connection") = ascii "Connection" := by decide
  constructor
  · intro h f hf
    obtain ⟨f', hf', hkey⟩ := mem_of_mem_setHeader hf
    exact hkey ▸ h f' hf'
  · intro h f hf
    obtain rfl | hf := mem_setHeader hf
    · show PlainName (stripCrlf (ascii "Connection"))
      rw [hname]
      exact ⟨by rintro b ⟨⟩; decide, by decide, by decide⟩
    · exact h f hf

/-- An answer after which the connection is kept is delimited if and only if it is
    sound. -/
theorem answerText_framed {r : Response} (hclean : r.Clean) (h : ¬ Closing walk q r file) :
    Framed (withoutBody q.method r.statusCode) (answerText walk q r file) ↔
      (∀ f ∈ r.headers, PlainName f.1) ∧ BodyFits q r file := by
  have hc : (withConnection q r).Clean := hclean.header ..
  rw [bodyFits_iff h, ← withConnection_plain (q := q)]
  exact framed_iff hc (walk.perm _) _ _

/-- For every response that a handler has made, every request and every file: whatever
    the socket takes at a time, a complete answer is delimited as the client expects or
    the connection is closed after it, if and only if the answer is sound. -/
theorem framed_iff_sound (walk : Walk) (files : Files) (ops : List ResponseOp) (q : ParsedRequest)
    (file : Option Bytes) :
    (∀ first events x,
      (answering walk q (Response.made files ops) file first).run events = some x →
      x.complete = true → x.closed = true ∨
        Framed (withoutBody q.method (Response.made files ops).statusCode) x.out.sent) ↔
      Sound walk q (Response.made files ops) file := by
  have hclean := Response.made_clean files ops
  generalize Response.made files ops = r at hclean
  constructor
  · intro h
    by_cases hclosing : Closing walk q r file
    · exact .inl hclosing
    · obtain ⟨first, hdone⟩ := finishDispatch_complete hclosing
      obtain ⟨hsent, hopen⟩ := (finishDispatch_answers hclosing first).done hdone
      obtain hc | hframed := h first [] _ rfl hdone
      · exact absurd (hopen.symm.trans hc) nofun
      · right
        rw [← answerText_framed hclean hclosing, ← hsent]
        exact hframed
  · intro h first events x hrun hdone
    by_cases hclosing : Closing walk q r file
    · have hinv : x.Closes := (answering walk q r file first).run_induction
        (finishDispatch_closes hclosing first) (fun _ _ _ => Exchange.writable_closes) hrun
      obtain hc | ⟨-, hc⟩ := hinv
      · exact .inl hc
      · exact absurd (hc.symm.trans hdone) nofun
    · have hinv : x.Answers (answerText walk q r file) :=
        (answering walk q r file first).run_induction
          (finishDispatch_answers hclosing first) (fun _ _ _ => Exchange.writable_answers) hrun
      right
      rw [(hinv.done hdone).1, answerText_framed hclean hclosing]
      exact h.resolve_left hclosing

end Delimited

/-! ## A `HEAD` request to an unknown path -/

/-- The fields are walked as they were added. -/
def walkAsAdded : Walk := ⟨id, fun _ => .refl _⟩

def headMissing : ParsedRequest where
  method := ascii "HEAD"
  path := ascii "/missing"
  version := ascii "HTTP/1.1"

/-- What the router does for a request without a route. -/
def notFound : List ResponseOp :=
  [.status 404, .jsonText (ascii "\x7b\"error\":\"Not Found\"\x7d")]

def noFiles : Files := ⟨fun _ => none, fun _ => none, fun _ => none⟩

theorem answering_nil (walk : Walk) (q : ParsedRequest) (r : Response) (file : Option Bytes)
    (first : List Outcome) :
    (answering walk q r file first).run [] = some (finishDispatch walk q r file first) := rfl

theorem headMissing_kept :
    ¬ Closing walkAsAdded headMissing (Response.made noFiles notFound) none := by
  rintro (h | h | h | ⟨h, -, -⟩ | h)
  · exact absurd h (by decide)
  · cases h
  · cases h
  · exact h rfl
  · exact absurd h (by decide +kernel)

/-- The response to the request has a body, and the connection is kept. -/
theorem head_answer_has_body :
    ∃ x, (answering walkAsAdded headMissing (Response.made noFiles notFound) none
        [.sent 200]).run [] = some x ∧ x.complete = true ∧ x.closed = false ∧
      ¬ Framed (withoutBody headMissing.method (Response.made noFiles notFound).statusCode)
        x.out.sent := by
  have hans := finishDispatch_answers headMissing_kept [.sent 200]
  have hdone : (finishDispatch walkAsAdded headMissing (Response.made noFiles notFound) none
      [.sent 200]).complete = true := by decide +kernel
  obtain ⟨hsent, hopen⟩ := hans.done hdone
  refine ⟨_, answering_nil .., hdone, hopen, fun hframed => ?_⟩
  have hfits : BodyFits headMissing (Response.made noFiles notFound) none := by
    refine ((answerText_framed (Response.made_clean noFiles notFound) headMissing_kept).1 ?_).2
    rw [← hsent]
    exact hframed
  have hpath : (Response.made noFiles notFound).sendfilePath = [] := by decide +kernel
  simp only [BodyFits, if_pos hpath] at hfits
  exact absurd (hfits (by decide +kernel)) (by decide +kernel)

end Osodio.Http
