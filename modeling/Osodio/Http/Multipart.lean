import Osodio.Http.Cookies

/-!
# Bodies of several parts

`parse_multipart` takes the body of a form apart: the delimiter is looked for as a text, and the
parameters of a part are looked for in the line of its header.

## Main definitions

- `parseMultipart` — `parse_multipart`
- `Parte`, `encode` — the parts of a form, and the body that they are sent as
- `Parte.Valid` — the names, types and bodies that can be sent
- `Parte.Legible` — no line of the body is a delimiter, and the name has no parameter in it

## Main results

- `parseMultipart_encode` — the parts come back as they were sent
- `front_delimiter` — a body with the delimiter at its front
-/

namespace Osodio.Http

open Lib (cut cutText)

def quote : UInt8 := 0x22

def dashes : Bytes := [0x2D, 0x2D]

/-! ## The parser -/

structure MultipartPart where
  name : Bytes := []
  filename : Bytes := []
  contentType : Bytes := []
  body : Bytes := []
  headers : List (Bytes × Bytes) := []
  deriving DecidableEq, Repr

def kMaxMultipartParts : ℕ := 256

/-- The boundary, which may stand between quotes. -/
def boundaryVal (s : Bytes) : Bytes :=
  match s.dropWhile fun c => c == 0x20 with
  | [] => []
  | c :: s =>
    if c = quote then s.takeWhile fun c => c != quote
    else (c :: s).takeWhile fun c => !(c == semicolon || c == 0x20 || c == CR)

/-- The attribute stands at the start of the value or behind a `;`. -/
def atBoundary (antes : Bytes) : Bool :=
  antes.isEmpty || (antes.rdropWhile isBlank).getLast? == some semicolon

/-- The value of a parameter, behind its `=`. -/
def parameterValue : Bytes → Bytes
  | [] => []
  | c :: s =>
    if c = quote then
      match cut quote s with
      | some (v, _) => v
      | none => []
    else (c :: s).takeWhile fun c => !(c == semicolon || c == CR || c == LF || isBlank c)

/-- `extract`, in a value of which some bytes have been looked at. -/
def extractFrom (attr antes : Bytes) : Bytes → Bytes
  | [] => []
  | c :: s =>
    if attr.isPrefixOf (c :: s) && atBoundary antes &&
        ((c :: s).drop attr.length).head? == some equals then
      parameterValue ((c :: s).drop (attr.length + 1))
    else extractFrom attr (antes ++ [c]) s

def extract (attr val : Bytes) : Bytes := extractFrom attr [] val

/-- A path cannot be made of it. -/
def sinRutas (filename : Bytes) : Bytes :=
  filename.map fun c => if c = 0x2F ∨ c = 0x5C then 0x5F else c

/-- One line of the headers of a part. -/
def headerLine (part : MultipartPart) (hline : Bytes) : MultipartPart :=
  let hline := if hline.getLast? = some CR then hline.dropLast else hline
  match cut 0x3A hline with
  | none => part
  | some (key, rest) =>
    let key := lower key
    let val := rest.dropWhile isBlank
    let part :=
      if key = ascii "content-disposition" then
        { part with name := extract (ascii "name") val
                    filename := sinRutas (extract (ascii "filename") val) }
      else if key = ascii "content-type" then { part with contentType := val }
      else part
    { part with headers := setHeader key val part.headers }

/-- A part, from the block of its headers and its body. -/
def parsePart (hdrBlock partBody : Bytes) : MultipartPart :=
  (hdrBlock.splitOn LF).foldl headerLine { body := partBody }

/-- What stands behind the end of a line. -/
def skipCrlf (s : Bytes) : Bytes := if crlf.isPrefixOf s then s.drop 2 else s

/-- The parts, behind a delimiter; there are fewer turns than bytes. -/
def parseParts (delim : Bytes) : ℕ → List MultipartPart → Bytes → List MultipartPart
  | 0, parts, _ => parts
  | n + 1, parts, s =>
    if s = [] then parts
    else
      match cutText (crlf ++ delim) s with
      | none => parts
      | some (partView, rest) =>
        match cutText (crlf ++ crlf) partView with
        | none => parts
        | some (hdrBlock, partBody) =>
          let parts := parts ++ [parsePart hdrBlock partBody]
          if kMaxMultipartParts ≤ parts.length then parts
          else if dashes.isPrefixOf rest then parts
          else parseParts delim n parts (skipCrlf rest)

/-- `parse_multipart`, with the value of `Content-Type`, if there is one. -/
def parseMultipart (ct : Option Bytes) (body : Bytes) : Option (List MultipartPart) := do
  let ct ← ct
  if !(ascii "multipart/form-data").isPrefixOf ct then none
  else
    let (_, rest) ← cutText (ascii "boundary=") ct
    let boundary := boundaryVal rest
    if boundary = [] ∨ 70 < boundary.length then none
    else
      let delim := dashes ++ boundary
      let (_, rest) ← cutText delim body
      return parseParts delim (body.length + 1) [] (skipCrlf rest)

/-! ## What is sent -/

/-- A part of a form. -/
structure Parte where
  name : Bytes
  filename : Option Bytes
  contentType : Option Bytes
  body : Bytes
  deriving DecidableEq, Repr

/-- A part as the parser gives it: what is missing is empty. -/
def MultipartPart.toParte (p : MultipartPart) : Parte where
  name := p.name
  filename := if p.filename = [] then none else some p.filename
  contentType := if p.contentType = [] then none else some p.contentType
  body := p.body

/-- The parameter of a file. -/
def filenameText : Option Bytes → Bytes
  | none => []
  | some f => ascii "; filename=" ++ [quote] ++ f ++ [quote]

/-- The line `Content-Disposition`. -/
def Parte.disposition (p : Parte) : Bytes :=
  ascii "Content-Disposition: form-data; name=" ++ [quote] ++ p.name ++ [quote] ++
    filenameText p.filename

/-- The line `Content-Type`, with the end of the line in front of it. -/
def contentTypeText : Option Bytes → Bytes
  | none => []
  | some t => crlf ++ ascii "Content-Type: " ++ t

/-- The headers of a part. -/
def Parte.head (p : Parte) : Bytes := p.disposition ++ contentTypeText p.contentType

/-- A part with its delimiter. -/
def Parte.encode (delim : Bytes) (p : Parte) : Bytes :=
  delim ++ crlf ++ p.head ++ crlf ++ crlf ++ p.body ++ crlf

/-- The body of a form. -/
def encode (boundary : Bytes) (parts : List Parte) : Bytes :=
  parts.flatMap (Parte.encode (dashes ++ boundary)) ++ dashes ++ boundary ++ dashes ++ crlf

/-- The `Content-Type` of a form; a boundary without blanks needs no quotes. -/
def formType (quoted : Bool) (boundary : Bytes) : Bytes :=
  ascii "multipart/form-data; boundary=" ++
    if quoted then [quote] ++ boundary ++ [quote] else boundary

/-! ## What can be sent -/

/-- The characters of a boundary. -/
def bchar (c : UInt8) : Bool :=
  (0x30 ≤ c && c ≤ 0x39) || (0x41 ≤ c && c ≤ 0x5A) || (0x61 ≤ c && c ≤ 0x7A) ||
    ([0x20, 0x27, 0x28, 0x29, 0x2B, 0x2C, 0x2D, 0x2E, 0x2F, 0x3A, 0x3D, 0x3F, 0x5F] : Bytes).contains c

/-- A boundary: up to 70 characters, of which the last one is no blank. -/
structure Boundary (b : Bytes) : Prop where
  length : 1 ≤ b.length ∧ b.length ≤ 70
  chars : ∀ c ∈ b, bchar c = true
  last : b.getLast? ≠ some 0x20

/-- The characters of a name between quotes. -/
def NameText (s : Bytes) : Prop :=
  quote ∉ s ∧ CR ∉ s ∧ LF ∉ s ∧ 0x2F ∉ s ∧ 0x5C ∉ s

/-- A part that can be sent with a delimiter. -/
structure Parte.Valid (delim : Bytes) (p : Parte) : Prop where
  name : NameText p.name
  filename : ∀ f ∈ p.filename, f ≠ [] ∧ NameText f
  contentType : ∀ t ∈ p.contentType, CR ∉ t ∧ LF ∉ t ∧ ∃ c ∈ t.head?, isBlank c = false
  body : ¬(crlf ++ delim) <:+: p.body

/-- There is no parameter for a file in the name, and no line of the body begins as a delimiter,
    not even the first one. -/
structure Parte.Legible (delim : Bytes) (p : Parte) : Prop where
  name : ∀ x blanks y, (∀ c ∈ blanks, isBlank c = true) →
    p.name ≠ x ++ semicolon :: blanks ++ ascii "filename=" ++ y
  body : ¬delim <+: p.body

/-! ## The headers of a part -/

section Headers

variable {name f t antes x s rest : Bytes} {p : Parte}

/-- What is behind a quote is at a boundary only behind a `;`. -/
theorem atBoundary_quote (h : atBoundary (antes ++ quote :: x) = true) :
    ∃ x' blanks, (∀ c ∈ blanks, isBlank c = true) ∧ x = x' ++ semicolon :: blanks := by
  have hne : (antes ++ quote :: x).isEmpty = false := by
    rw [List.isEmpty_eq_false_iff]
    exact List.append_ne_nil_of_right_ne_nil _ (List.cons_ne_nil _ _)
  rw [atBoundary, hne, Bool.false_or, beq_iff_eq, List.getLast?_eq_some_iff] at h
  obtain ⟨l, hl⟩ := h
  have hsplit := List.rdropWhile_append_rtakeWhile (p := isBlank) (l := antes ++ quote :: x)
  rw [hl, List.append_assoc, List.singleton_append] at hsplit
  have hblanks : ∀ c ∈ (antes ++ quote :: x).rtakeWhile isBlank, isBlank c = true :=
    fun c hc => List.mem_rtakeWhile_imp hc
  generalize (antes ++ quote :: x).rtakeWhile isBlank = blanks at hsplit hblanks
  obtain ⟨a, -, hx⟩ | ⟨a, -, hx⟩ := List.append_eq_append_iff.1 hsplit
  · -- the quote is not among the blanks
    cases a with
    | nil => exact absurd (List.cons.inj hx).1 (by decide)
    | cons c a =>
      have hmem : quote ∈ blanks := by
        rw [(List.cons.inj hx).2]
        exact List.mem_append_right _ (List.mem_cons_self ..)
      exact absurd (hblanks quote hmem) (by decide)
  · cases a with
    | nil => exact absurd (List.cons.inj hx).1 (by decide)
    | cons c a => exact ⟨a, blanks, hblanks, (List.cons.inj hx).2⟩

theorem parameterValue_quoted (hs : quote ∉ s) (rest : Bytes) :
    parameterValue (quote :: (s ++ quote :: rest)) = s := by
  rw [parameterValue, if_pos rfl, Lib.cut_append hs]

theorem extract_name (hn : quote ∉ name) (rest : Bytes) :
    extract (ascii "name") (ascii "form-data; name=" ++ quote :: (name ++ quote :: rest)) = name :=
  (show _ = parameterValue (quote :: (name ++ quote :: rest)) from rfl).trans
    (parameterValue_quoted hn rest)

theorem extract_filename_start (rest : Bytes) :
    extract (ascii "filename") (ascii "form-data; name=" ++ quote :: rest) =
      extractFrom (ascii "filename") (ascii "form-data; name=" ++ [quote]) rest := rfl

/-- A name without a parameter in it is passed over. -/
theorem extractFrom_name (attr : Bytes) (hattr : quote ∉ attr) (antes : Bytes)
    (h : ∀ x y, name = x ++ attr ++ equals :: y → atBoundary (antes ++ x) = false) (rest : Bytes) :
    extractFrom attr antes (name ++ quote :: rest) =
      extractFrom attr (antes ++ name) (quote :: rest) := by
  induction name generalizing antes with
  | nil => rw [List.append_nil, List.nil_append]
  | cons c name ih =>
    have hskip : (attr.isPrefixOf (c :: (name ++ quote :: rest)) && atBoundary antes &&
        ((c :: (name ++ quote :: rest)).drop attr.length).head? == some equals) = false := by
      rw [Bool.and_eq_false_iff, Bool.and_eq_false_iff]
      by_cases hpre : attr.isPrefixOf (c :: (name ++ quote :: rest)) = true
      · by_cases heq : ((c :: (name ++ quote :: rest)).drop attr.length).head? = some equals
        · -- the attribute is part of the name
          have hfront := Lib.prefix_of_prefix_append (x := c :: name) hattr
            (List.isPrefixOf_iff_prefix.1 hpre)
          obtain ⟨y, hy⟩ := hfront
          rw [← List.cons_append, ← hy, List.append_assoc, List.drop_left] at heq
          cases y with
          | nil => exact absurd (Option.some.inj heq) (by decide)
          | cons d y =>
            obtain rfl : d = equals := Option.some.inj heq
            exact .inl (.inr (by simpa using h [] y hy.symm))
        · exact .inr (beq_eq_false_iff_ne.2 heq)
      · exact .inl (.inl (Bool.eq_false_iff.2 hpre))
    rw [List.cons_append, extractFrom, hskip, if_neg (by decide), ih (antes ++ [c]), List.append_assoc,
      List.singleton_append]
    intro x y hname
    rw [List.append_assoc, List.singleton_append]
    exact h (c :: x) y (by rw [hname]; rfl)

theorem atBoundary_semicolon (antes : Bytes) : atBoundary (antes ++ [semicolon] ++ [0x20]) = true := by
  have hblank : isBlank 0x20 = true := by decide
  have hsemi : ¬isBlank semicolon = true := by decide
  rw [atBoundary, List.rdropWhile_concat_pos _ _ _ hblank, List.rdropWhile_concat_neg _ _ _ hsemi,
    List.getLast?_concat, beq_self_eq_true, Bool.or_true]

/-- The parameter of a file behind the name. -/
theorem extractFrom_filename (antes : Bytes) {filename : Option Bytes}
    (hf : ∀ f ∈ filename, quote ∉ f) :
    extractFrom (ascii "filename") antes (quote :: filenameText filename) = filename.getD [] := by
  cases filename with
  | none => rfl
  | some f =>
    have hstart : extractFrom (ascii "filename") antes (quote :: filenameText (some f)) =
        extractFrom (ascii "filename") (antes ++ [quote] ++ [semicolon] ++ [0x20])
          (0x66 :: (ascii "ilename=" ++ quote :: (f ++ quote :: []))) := rfl
    have hfound : ((ascii "filename").isPrefixOf
        (0x66 :: (ascii "ilename=" ++ quote :: (f ++ quote :: []))) &&
        atBoundary (antes ++ [quote] ++ [semicolon] ++ [0x20]) &&
        ((0x66 :: (ascii "ilename=" ++ quote :: (f ++ quote :: []))).drop
          (ascii "filename").length).head? == some equals) = true := by
      rw [atBoundary_semicolon]
      rfl
    rw [hstart, extractFrom, if_pos hfound]
    exact parameterValue_quoted (hf f rfl) []

theorem sinRutas_eq (hf : NameText f) : sinRutas f = f := by
  obtain ⟨-, -, -, hslash, hback⟩ := hf
  refine (List.map_congr_left fun c hc => ?_).trans (List.map_id _)
  rw [if_neg, id]
  rintro (rfl | rfl)
  · exact hslash hc
  · exact hback hc

/-- The value of `Content-Disposition`. -/
def Parte.value (p : Parte) : Bytes :=
  ascii "form-data; name=" ++ quote :: (p.name ++ quote :: filenameText p.filename)

theorem Parte.disposition_eq (p : Parte) :
    p.disposition = ascii "Content-Disposition" ++ 0x3A :: 0x20 :: p.value := by
  rw [Parte.disposition, Parte.value]
  simp only [List.append_assoc, List.cons_append, List.nil_append]
  rfl

theorem extract_value (hn : NameText p.name) (hl : ∀ x blanks y, (∀ c ∈ blanks, isBlank c = true) →
      p.name ≠ x ++ semicolon :: blanks ++ ascii "filename=" ++ y)
    (hf : ∀ f ∈ p.filename, f ≠ [] ∧ NameText f) :
    extract (ascii "name") p.value = p.name ∧
      sinRutas (extract (ascii "filename") p.value) = p.filename.getD [] := by
  refine ⟨extract_name hn.1 _, ?_⟩
  have hpass : extract (ascii "filename") p.value = p.filename.getD [] := by
    rw [Parte.value, extract_filename_start, extractFrom_name _ (by decide),
      extractFrom_filename _ fun f h => (hf f h).2.1]
    intro x y hname
    by_contra hb
    rw [Bool.not_eq_false, List.append_assoc, List.singleton_append] at hb
    obtain ⟨x', blanks, hblanks, rfl⟩ := atBoundary_quote hb
    refine hl x' blanks y hblanks (hname.trans ?_)
    have hattr : ascii "filename=" = ascii "filename" ++ [equals] := rfl
    rw [hattr]
    simp only [List.append_assoc, List.singleton_append]
  rw [hpass]
  cases hfile : p.filename with
  | none => rfl
  | some f => exact sinRutas_eq (hf f hfile).2

theorem headerLine_disposition (part : MultipartPart) (hn : NameText p.name)
    (hl : ∀ x blanks y, (∀ c ∈ blanks, isBlank c = true) →
      p.name ≠ x ++ semicolon :: blanks ++ ascii "filename=" ++ y)
    (hf : ∀ f ∈ p.filename, f ≠ [] ∧ NameText f) {line : Bytes}
    (hline : (if line.getLast? = some CR then line.dropLast else line) = p.disposition) :
    headerLine part line = { part with
      name := p.name
      filename := p.filename.getD []
      headers := setHeader (ascii "content-disposition") p.value part.headers } := by
  obtain ⟨hname, hfile⟩ := extract_value hn hl hf
  have hcut : cut 0x3A p.disposition = some (ascii "Content-Disposition", 0x20 :: p.value) := by
    rw [Parte.disposition_eq]
    exact Lib.cut_append (by decide)
  have hlower : lower (ascii "Content-Disposition") = ascii "content-disposition" := by decide
  have hvalue : (0x20 :: p.value).dropWhile isBlank = p.value := rfl
  rw [headerLine, hline, hcut]
  dsimp only
  rw [hlower, hvalue, if_pos rfl, hname, hfile]

theorem headerLine_type (part : MultipartPart) (ht : CR ∉ t ∧ LF ∉ t ∧ ∃ c ∈ t.head?, isBlank c = false) :
    headerLine part (ascii "Content-Type: " ++ t) = { part with
      contentType := t
      headers := setHeader (ascii "content-type") t part.headers } := by
  obtain ⟨hcr, -, c, hc, hblank⟩ := ht
  obtain ⟨t', rfl⟩ := List.head?_eq_some_iff.1 hc
  have hlast : ¬(ascii "Content-Type: " ++ c :: t').getLast? = some CR := by
    intro h
    obtain hmem | hmem := List.mem_append.1 (List.mem_of_getLast? h)
    · exact absurd hmem (by decide)
    · exact hcr hmem
  have hcut : cut 0x3A (ascii "Content-Type: " ++ c :: t') =
      some (ascii "Content-Type", 0x20 :: c :: t') :=
    Lib.cut_append (x := ascii "Content-Type") (by decide)
  have hlower : lower (ascii "Content-Type") = ascii "content-type" := by decide
  have hvalue : (0x20 :: c :: t').dropWhile isBlank = c :: t' := by
    rw [List.dropWhile_cons_of_pos (by decide), List.dropWhile_cons_of_neg (by rw [hblank]; decide)]
  rw [headerLine, if_neg hlast, hcut]
  dsimp only
  rw [hlower, hvalue, if_neg (by decide), if_pos rfl]

/-- No end of a line is in the headers but between them. -/
theorem Parte.disposition_clean (hn : NameText p.name) (hf : ∀ f ∈ p.filename, f ≠ [] ∧ NameText f) :
    CR ∉ p.disposition ∧ LF ∉ p.disposition := by
  have hfile : CR ∉ filenameText p.filename ∧ LF ∉ filenameText p.filename := by
    cases hfile : p.filename with
    | none => exact ⟨List.not_mem_nil, List.not_mem_nil⟩
    | some f =>
      obtain ⟨-, -, hcr, hlf, -⟩ := hf f hfile
      simp only [filenameText, List.mem_append, not_or]
      exact ⟨⟨⟨⟨by decide, by decide⟩, hcr⟩, by decide⟩, ⟨⟨by decide, by decide⟩, hlf⟩, by decide⟩
  simp only [Parte.disposition, List.mem_append, not_or]
  exact ⟨⟨⟨⟨⟨by decide, by decide⟩, hn.2.1⟩, by decide⟩, hfile.1⟩,
    ⟨⟨⟨by decide, by decide⟩, hn.2.2.1⟩, by decide⟩, hfile.2⟩

/-- What the parser makes of the headers and the body of a part. -/
theorem parsePart_head {delim : Bytes} (hp : p.Valid delim) (hl : p.Legible delim) :
    (parsePart p.head p.body).toParte = p := by
  obtain ⟨hcr, hlf⟩ := Parte.disposition_clean hp.name hp.filename
  have hname (part : MultipartPart) {line : Bytes}
      (hline : (if line.getLast? = some CR then line.dropLast else line) = p.disposition) :=
    headerLine_disposition part hp.name hl.name hp.filename hline
  have hfile : (if p.filename.getD [] = [] then none else some (p.filename.getD [])) = p.filename := by
    cases hfile : p.filename with
    | none => rfl
    | some f => exact if_neg (hp.filename f hfile).1
  cases htype : p.contentType with
  | none =>
    have hline : (if p.disposition.getLast? = some CR then p.disposition.dropLast
        else p.disposition) = p.disposition :=
      if_neg fun h => hcr (List.mem_of_getLast? h)
    rw [parsePart, Parte.head, htype, contentTypeText, List.append_nil, List.splitOn_eq_singleton hlf,
      List.foldl_cons, List.foldl_nil, hname _ hline, MultipartPart.toParte]
    dsimp only
    rw [hfile, if_pos rfl, ← htype]
  | some t =>
    have hline : (if (p.disposition ++ [CR]).getLast? = some CR then (p.disposition ++ [CR]).dropLast
        else p.disposition ++ [CR]) = p.disposition := by
      rw [List.getLast?_concat, if_pos rfl, List.dropLast_concat]
    have ht := hp.contentType t htype
    have hsplit : p.head = (p.disposition ++ [CR]) ++ LF :: (ascii "Content-Type: " ++ t) := by
      rw [Parte.head, htype, contentTypeText, List.append_assoc, List.append_assoc p.disposition]
      rfl
    have hfirst : LF ∉ p.disposition ++ [CR] := by
      rw [List.mem_append, not_or]
      exact ⟨hlf, by decide⟩
    have hsecond : LF ∉ ascii "Content-Type: " ++ t := by
      rw [List.mem_append, not_or]
      exact ⟨by decide, ht.2.1⟩
    have hne : t ≠ [] := by
      obtain ⟨-, -, c, hc, -⟩ := ht
      rintro rfl
      cases hc
    rw [parsePart, hsplit, List.splitOn_append_cons_self_of_not_mem hfirst,
      List.splitOn_eq_singleton hsecond, List.foldl_cons, List.foldl_cons, List.foldl_nil,
      hname _ hline, headerLine_type _ ht, MultipartPart.toParte]
    dsimp only
    rw [hfile, if_neg hne, ← htype]

end Headers

/-! ## The parts -/

section Parts

variable {delim b : Bytes} {p : Parte} {ps : List Parte} {parts : List MultipartPart} {n : ℕ}

/-- The text behind a delimiter. -/
def behind (delim : Bytes) : List Parte → Bytes
  | [] => dashes ++ crlf
  | p :: ps => crlf ++ (p.head ++ (crlf ++ crlf ++ (p.body ++ (crlf ++ delim ++ behind delim ps))))

theorem encode_eq (b : Bytes) (ps : List Parte) :
    encode b ps = dashes ++ b ++ behind (dashes ++ b) ps := by
  rw [encode]
  induction ps with
  | nil => simp only [List.flatMap_nil, List.nil_append, behind, List.append_assoc]
  | cons p ps ih =>
    simp only [List.append_assoc] at ih
    simp only [List.flatMap_cons, behind, Parte.encode, List.append_assoc, ih]

/-- The ends of the lines of the headers are passed over. -/
theorem cutText_head (hp : p.Valid delim) {d : UInt8} (hd : d ≠ 0x43) (pat l : Bytes) :
    Lib.cutText (CR :: LF :: d :: pat) (p.head ++ l) =
      (Lib.cutText (CR :: LF :: d :: pat) l).map fun (x, y) => (p.head ++ x, y) := by
  obtain ⟨hcr, -⟩ := Parte.disposition_clean hp.name hp.filename
  rw [Parte.head]
  cases htype : p.contentType with
  | none =>
    rw [contentTypeText, List.append_nil]
    exact Lib.cutText_skip hcr _ _
  | some t =>
    have ht := hp.contentType t htype
    have hsecond : CR ∉ LF :: (ascii "Content-Type: " ++ t) := by
      rw [List.mem_cons, List.mem_append, not_or, not_or]
      exact ⟨by decide, by decide, ht.1⟩
    have hfront : ¬CR :: LF :: d :: pat <+: CR :: (LF :: (ascii "Content-Type: " ++ t) ++ l) := by
      intro h
      have h := (List.cons_prefix_cons.1 (List.cons_prefix_cons.1 h).2).2
      exact hd (List.cons_prefix_cons.1 h).1
    have htext : contentTypeText (some t) = CR :: LF :: (ascii "Content-Type: " ++ t) := rfl
    rw [htext, List.append_assoc, Lib.cutText_skip hcr, List.cons_append, Lib.cutText_cons hfront,
      Lib.cutText_skip hsecond, Option.map_map, Option.map_map]
    refine Option.map_congr fun xy _ => ?_
    simp only [Function.comp_apply, List.append_assoc, List.cons_append]

/-- A part ends where the next delimiter begins. -/
theorem cutText_part (hb : CR ∉ b) (hp : p.Valid (dashes ++ b)) (hl : p.Legible (dashes ++ b))
    (rest : Bytes) :
    Lib.cutText (crlf ++ (dashes ++ b))
        (p.head ++ (crlf ++ crlf ++ (p.body ++ (crlf ++ (dashes ++ b) ++ rest)))) =
      some (p.head ++ (crlf ++ crlf ++ p.body), rest) := by
  have hpat : crlf ++ (dashes ++ b) = CR :: LF :: 0x2D :: 0x2D :: b := rfl
  have hdelim : CR ∉ LF :: 0x2D :: 0x2D :: b := by
    simp only [List.mem_cons, not_or]
    exact ⟨by decide, by decide, by decide, hb⟩
  have hblank : ¬CR :: LF :: 0x2D :: 0x2D :: b <+:
      CR :: ([LF] ++ CR :: ([LF] ++ (p.body ++ (CR :: LF :: 0x2D :: 0x2D :: b ++ rest)))) := by
    intro h
    have h := (List.cons_prefix_cons.1 (List.cons_prefix_cons.1 h).2).2
    exact absurd (List.cons_prefix_cons.1 h).1 (by decide)
  have hbody : ¬CR :: LF :: 0x2D :: 0x2D :: b <+:
      CR :: ([LF] ++ (p.body ++ (CR :: LF :: 0x2D :: 0x2D :: b ++ rest))) := by
    intro h
    have h := (List.cons_prefix_cons.1 (List.cons_prefix_cons.1 h).2).2
    exact hl.body (Lib.prefix_of_prefix_append (c := CR) (fun hmem =>
      hdelim (List.mem_cons_of_mem _ hmem)) h)
  have hskip : CR ∉ [LF] := by decide
  rw [hpat, cutText_head hp (by decide)]
  have htext : crlf ++ crlf ++ (p.body ++ (CR :: LF :: 0x2D :: 0x2D :: b ++ rest)) =
      CR :: ([LF] ++ CR :: ([LF] ++ (p.body ++ (CR :: LF :: 0x2D :: 0x2D :: b ++ rest)))) := rfl
  rw [htext, Lib.cutText_cons hblank, Lib.cutText_skip hskip, Lib.cutText_cons hbody,
    Lib.cutText_skip hskip, Lib.cutText_append hdelim hp.body]
  rfl

/-- The headers end at the first empty line. -/
theorem cutText_headers (hp : p.Valid delim) (s : Bytes) :
    Lib.cutText (crlf ++ crlf) (p.head ++ (crlf ++ crlf ++ s)) = some (p.head, s) := by
  have hpat : crlf ++ crlf = CR :: LF :: CR :: [LF] := rfl
  rw [hpat, cutText_head hp (by decide), Lib.cutText_prefix (by decide), Option.map_some]
  exact congrArg some (congrArg (·, s) (List.append_nil p.head))

/-- The parts that are behind a delimiter are added to those that are there. -/
theorem parseParts_behind (hb : CR ∉ b) (hps : ∀ p ∈ ps, p.Valid (dashes ++ b) ∧ p.Legible (dashes ++ b))
    (hn : ps.length < n) (hlen : parts.length + ps.length ≤ kMaxMultipartParts) :
    (parseParts (dashes ++ b) n parts (skipCrlf (behind (dashes ++ b) ps))).map
      MultipartPart.toParte = parts.map MultipartPart.toParte ++ ps := by
  induction ps generalizing n parts with
  | nil =>
    obtain ⟨n, rfl⟩ := Nat.exists_eq_succ_of_ne_zero (Nat.ne_of_gt hn)
    have hpat : crlf ++ (dashes ++ b) = CR :: LF :: 0x2D :: 0x2D :: b := rfl
    have hnone : Lib.cutText (crlf ++ (dashes ++ b)) (dashes ++ crlf) = none := by
      rw [hpat, Lib.cutText_skip (show CR ∉ dashes by decide), Lib.cutText_short, Option.map_none]
      simp only [crlf, List.length_cons, List.length_nil]
      omega
    have hskip : skipCrlf (behind (dashes ++ b) []) = dashes ++ crlf := rfl
    rw [hskip, parseParts, if_neg (by decide), hnone, List.append_nil]
  | cons p ps ih =>
    obtain ⟨n, rfl⟩ := Nat.exists_eq_succ_of_ne_zero (Nat.ne_of_gt (Nat.zero_lt_of_lt hn))
    obtain ⟨hp, hl⟩ := hps p (List.mem_cons_self ..)
    have hparse := parsePart_head hp hl
    have hskip : skipCrlf (behind (dashes ++ b) (p :: ps)) = p.head ++ (crlf ++ crlf ++
        (p.body ++ (crlf ++ (dashes ++ b) ++ behind (dashes ++ b) ps))) := rfl
    have hne : p.head ++ (crlf ++ crlf ++
        (p.body ++ (crlf ++ (dashes ++ b) ++ behind (dashes ++ b) ps))) ≠ [] :=
      List.append_ne_nil_of_right_ne_nil _ (List.cons_ne_nil _ _)
    have hgrown : (parts ++ [parsePart p.head p.body]).map MultipartPart.toParte =
        parts.map MultipartPart.toParte ++ [p] := by
      rw [List.map_append, List.map_singleton, hparse]
    rw [hskip, parseParts, if_neg hne, cutText_part hb hp hl]
    dsimp only
    rw [cutText_headers hp]
    dsimp only
    cases ps with
    | nil =>
      have hlast : dashes.isPrefixOf (behind (dashes ++ b) []) = true := rfl
      rw [if_pos hlast, ite_self, hgrown]
    | cons q ps =>
      have hlen : (parts ++ [parsePart p.head p.body]).length + (q :: ps).length ≤
          kMaxMultipartParts := by
        rw [List.length_append, List.length_singleton]
        rw [List.length_cons] at hlen
        omega
      have hmore : ¬kMaxMultipartParts ≤ (parts ++ [parsePart p.head p.body]).length := by
        rw [List.length_cons] at hlen
        omega
      have hnext : ¬dashes.isPrefixOf (behind (dashes ++ b) (q :: ps)) = true := Bool.false_ne_true
      rw [if_neg hmore, if_neg hnext, ih (fun r hr => hps r (List.mem_cons_of_mem _ hr))
        (Nat.lt_of_succ_lt_succ hn) hlen, hgrown, List.append_assoc, List.singleton_append]

end Parts

/-! ## The content type -/

section Form

variable {b : Bytes}

theorem Boundary.ne_nil (hb : Boundary b) : b ≠ [] := by
  rintro rfl
  exact absurd hb.length.1 (by decide)

theorem Boundary.not_mem (hb : Boundary b) {c : UInt8} (hc : bchar c = false) : c ∉ b := by
  intro hmem
  rw [hb.chars c hmem] at hc
  cases hc

/-- The boundary is read from the type of the form. -/
theorem boundaryVal_formType (hb : Boundary b) (quoted : Bool) (h : quoted = true ∨ 0x20 ∉ b) :
    boundaryVal (if quoted then [quote] ++ b ++ [quote] else b) = b := by
  have hquote : quote ∉ b := hb.not_mem (by decide)
  cases quoted with
  | true =>
    have hstart : boundaryVal ([quote] ++ b ++ [quote]) =
        (b ++ [quote]).takeWhile fun c => c != quote := rfl
    have hall : ∀ c ∈ b, (c != quote) = true := fun c hc => bne_iff_ne.2 fun heq => hquote (heq ▸ hc)
    rw [if_pos rfl, hstart, List.takeWhile_append_of_pos hall]
    exact List.append_nil b
  | false =>
    have hblank : 0x20 ∉ b := h.resolve_left Bool.false_ne_true
    obtain ⟨c, s, rfl⟩ := List.exists_cons_of_ne_nil hb.ne_nil
    have hc : ¬(c == 0x20) = true := fun heq => hblank (eq_of_beq heq ▸ List.mem_cons_self ..)
    have hcq : c ≠ quote := fun heq => hquote (heq ▸ List.mem_cons_self ..)
    have hsemi : semicolon ∉ c :: s := hb.not_mem (by decide)
    have hcr : CR ∉ c :: s := hb.not_mem (by decide)
    rw [if_neg Bool.false_ne_true, boundaryVal, List.dropWhile_cons_of_neg (p := (· == 0x20)) hc]
    dsimp only
    rw [if_neg hcq, List.takeWhile_eq_self_iff]
    intro d hd
    rw [Bool.not_eq_true', Bool.or_eq_false_iff, Bool.or_eq_false_iff]
    exact ⟨⟨beq_eq_false_iff_ne.2 fun heq => hsemi (heq ▸ hd),
      beq_eq_false_iff_ne.2 fun heq => hblank (heq ▸ hd)⟩,
      beq_eq_false_iff_ne.2 fun heq => hcr (heq ▸ hd)⟩

theorem length_le_behind (delim : Bytes) (ps : List Parte) : ps.length ≤ (behind delim ps).length := by
  induction ps with
  | nil => exact Nat.zero_le _
  | cons p ps ih =>
    simp only [behind, List.length_append, List.length_cons]
    have hcrlf : crlf.length = 2 := rfl
    omega

end Form

/-- **The parts of a form come back as they were sent**, with what is missing missing. -/
theorem parseMultipart_encode {b : Bytes} {ps : List Parte} (hb : Boundary b) {quoted : Bool}
    (hq : quoted = true ∨ 0x20 ∉ b) (hlen : ps.length ≤ 256)
    (hps : ∀ p ∈ ps, p.Valid (dashes ++ b) ∧ p.Legible (dashes ++ b)) :
    (parseMultipart (some (formType quoted b)) (encode b ps)).map
      (·.map MultipartPart.toParte) = some ps := by
  have hcr : CR ∉ b := hb.not_mem (by decide)
  have hform : (ascii "multipart/form-data").isPrefixOf (formType quoted b) = true := rfl
  have hboundary : Lib.cutText (ascii "boundary=") (formType quoted b) =
      some (ascii "multipart/form-data; ", if quoted then [quote] ++ b ++ [quote] else b) := rfl
  have hsize : ¬(b = [] ∨ 70 < b.length) := by
    rintro (h | h)
    · exact hb.ne_nil h
    · exact Nat.not_lt.2 hb.length.2 h
  have hfirst : Lib.cutText (dashes ++ b) (dashes ++ b ++ behind (dashes ++ b) ps) =
      some ([], behind (dashes ++ b) ps) := Lib.cutText_prefix (List.cons_ne_nil _ _) _
  have hfuel : ps.length < (dashes ++ b ++ behind (dashes ++ b) ps).length + 1 := by
    have := length_le_behind (dashes ++ b) ps
    rw [List.length_append]
    omega
  rw [parseMultipart, Option.bind_eq_bind, Option.bind_some, hform, hboundary, Option.bind_eq_bind, Option.bind_some]
  dsimp only
  rw [boundaryVal_formType hb quoted hq, if_neg hsize, encode_eq, hfirst]
  have hparts := @parseParts_behind b ps [] _ hcr hps hfuel
    (by rw [List.length_nil, Nat.zero_add]; exact hlen)
  exact congrArg some hparts

/-- A part whose name has no `;` has no parameter in it. -/
theorem name_legible {name : Bytes} (h : semicolon ∉ name) (x blanks y : Bytes) :
    name ≠ x ++ semicolon :: blanks ++ ascii "filename=" ++ y := by
  rintro rfl
  simp only [List.mem_append, not_or] at h
  exact h.1.1.2 (List.mem_cons_self ..)

theorem parseMultipart_encode_two :
    (parseMultipart (some (formType true (ascii "a b"))) (encode (ascii "a b")
      [⟨ascii "x", some (ascii "f"), some (ascii "t"), [0x0D, 0x0A, 0x2D, 0x2D]⟩,
        ⟨[], none, none, []⟩])).map (·.map MultipartPart.toParte) =
      some [⟨ascii "x", some (ascii "f"), some (ascii "t"), [0x0D, 0x0A, 0x2D, 0x2D]⟩,
        ⟨[], none, none, []⟩] := by
  refine parseMultipart_encode ⟨by decide, by decide +kernel, by decide⟩ (.inl rfl) (by decide) ?_
  rintro p (_ | ⟨_, _ | ⟨_, ⟨⟩⟩⟩)
  · refine ⟨⟨?_, ?_, ?_, by decide⟩, ⟨fun x blanks y _ => name_legible (by decide) x blanks y, by decide⟩⟩
    · exact ⟨by decide, by decide, by decide, by decide, by decide⟩
    · rintro f ⟨⟩
      exact ⟨by decide, by decide, by decide, by decide, by decide, by decide⟩
    · rintro t ⟨⟩
      exact ⟨by decide, by decide, _, rfl, by decide⟩
  · refine ⟨⟨?_, nofun, nofun, by decide⟩,
      ⟨fun x blanks y _ => name_legible List.not_mem_nil x blanks y, by decide⟩⟩
    exact ⟨by decide, by decide, by decide, by decide, by decide⟩

/-- The first line of a body is a line: a delimiter in front of it ends the part within its
    headers, and the part is lost. -/
theorem front_delimiter : Parte.Valid (ascii "--x") ⟨ascii "a", none, none, ascii "--x"⟩ ∧
    parseMultipart (some (formType false (ascii "x")))
      (encode (ascii "x") [⟨ascii "a", none, none, ascii "--x"⟩]) = some [] := by
  refine ⟨⟨?_, nofun, nofun, by decide⟩, by decide +kernel⟩
  exact ⟨by decide, by decide, by decide, by decide, by decide⟩

end Osodio.Http
