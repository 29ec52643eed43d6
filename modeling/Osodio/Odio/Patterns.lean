import Osodio.Http.Routing
import Osodio.Odio.Binding
import Osodio.Odio.Program

/-!
# Route patterns and their parameters

Three scanners read the parameters of a pattern: `pattern_params`, which decides what
a parameter of an endpoint is bound to; the router, which rewrites braces and looks at
the beginning of each segment; and `openapi_path`, for the documentation.

## Main definitions

- `patternParams`, `openapiPath`, `routerNames` — the scanners
- `Endpoint.bindParams` — what the parameters of an endpoint are bound to
- `ParamsReach` — the parameters that are bound to the path are there in a request
- `Aligned` — every parameter of a pattern is a segment of its own

## Main results

- `scanners_agree_iff` — the scanners read the same names exactly if it is
- `paramsReach_iff_aligned` — and then the parameters reach the handler
-/

namespace Osodio.Odio

open Osodio.Http

/-! ## The scanners -/

/-- The inside of `pattern_params`: the character that closes the name being read, and
    the name so far. -/
def scanNames : Option (Char × List Char) → List Char → List (List Char)
  | none, [] => []
  | some (_, name), [] => [name]
  | none, c :: cs =>
    if c = ':' then scanNames (some ('/', [])) cs
    else if c = '{' then scanNames (some ('}', [])) cs
    else scanNames none cs
  | some (close, name), c :: cs =>
    if c = close then name :: scanNames none cs else scanNames (some (close, name ++ [c])) cs

/-- `pattern_params`. -/
def patternParams (pattern : String) : List String :=
  (scanNames none pattern.toList).map String.ofList

/-- The inside of `openapi_path`: whether a name is being read. -/
def openapiChars : Bool → List Char → List Char
  | false, [] => []
  | true, [] => ['}']
  | false, c :: cs => if c = ':' then '{' :: openapiChars true cs else c :: openapiChars false cs
  | true, c :: cs =>
    if c = '/' then '}' :: '/' :: openapiChars false cs else c :: openapiChars true cs

/-- `openapi_path`. -/
def openapiPath (pattern : String) : String := String.ofList (openapiChars false pattern.toList)

/-- The names in braces of a path of OpenAPI. -/
def templateNames : Option (List Char) → List Char → List (List Char)
  | _, [] => []
  | none, c :: cs => if c = '{' then templateNames (some []) cs else templateNames none cs
  | some name, c :: cs =>
    if c = '}' then name :: templateNames none cs else templateNames (some (name ++ [c])) cs

def openapiNames (pattern : String) : List String :=
  (templateNames none (openapiPath pattern).toList).map String.ofList

/-- The names that the router registers, unless it throws. -/
def routerNames (pattern : String) : Option (List String) :=
  match normalizePattern pattern with
  | .ok norm => some (paramNames (splitPath norm))
  | .error _ => none

/-! ## Binding -/

/-- `TypeRef`. -/
inductive TypeRef where
  | mk (name : String) (args : List TypeRef) (optional : Bool)

namespace TypeRef

def name : TypeRef → String
  | mk name _ _ => name

def args : TypeRef → List TypeRef
  | mk _ args _ => args

def optional : TypeRef → Bool
  | mk _ _ optional => optional

mutual

/-- `TypeRef::str`. -/
def str : TypeRef → String
  | mk name args optional =>
    name ++ (if args.isEmpty then "" else "<" ++ ", ".intercalate (strs args) ++ ">") ++
      if optional then "?" else ""

def strs : List TypeRef → List String
  | [] => []
  | t :: ts => str t :: strs ts

end

end TypeRef

/-- A parameter as it is declared. -/
structure EndpointParam where
  type : TypeRef
  name : String
  default : Option Expr := none
  loc : SourceLoc := {}

/-- A route without its code. -/
structure Endpoint where
  method : String
  pattern : String
  patternLoc : SourceLoc := {}
  params : List EndpointParam := []

section Binding

variable (classes : String → Option ClassInfo) (r : Endpoint)

/-- The text of a default value. -/
def defaultText (p : EndpointParam) : Except Diagnostic (Option String) :=
  match p.default with
  | none => .ok none
  | some (.stringLit _ text) => .ok (some text)
  | some (.intLit _ value) => .ok (some (toString value))
  | some (.boolLit _ value) => .ok (some (if value then "true" else "false"))
  | some _ => .error ⟨p.loc, "el valor por defecto tiene que ser una constante"⟩

/-- A file, or a list of files. -/
def fileKind (t : TypeRef) : Option BindKind :=
  if t.name = "File" then some .file
  else if t.name = "List" ∧ t.args.map TypeRef.name = ["File"] then some .fileList
  else none

/-- One parameter in `bind_params`; `seenBody` says that another one is the body. -/
def Endpoint.bindParam (seenBody : Bool) (p : EndpointParam) : Except Diagnostic ParamBind :=
  let inPath := (patternParams r.pattern).contains p.name
  let noBody := r.method = "GET" ∨ r.method = "DELETE"
  match fileKind p.type with
  | some kind =>
    if inPath then
      .error ⟨p.loc, "'" ++ p.name ++ "' esta en el patron de ruta, " ++
        "asi que no puede ser un fichero subido"⟩
    else if noBody then .error ⟨p.loc, "una ruta " ++ r.method ++ " no lleva cuerpo"⟩
    else .ok { kind := kind, name := p.name, type := p.type.name }
  | none =>
    match classes p.type.name with
    | some cls =>
      if inPath then
        .error ⟨p.loc, "'" ++ p.name ++ "' esta en el patron de ruta, " ++
          "asi que no puede ser del tipo '" ++ p.type.name ++ "'"⟩
      else if seenBody then .error ⟨p.loc, "solo puede haber un parametro de cuerpo por ruta"⟩
      else if noBody then .error ⟨p.loc, "una ruta " ++ r.method ++ " no lleva cuerpo"⟩
      else .ok { kind := .body cls, name := p.name, type := p.type.name }
    | none =>
      if !isScalar p.type.name then .error ⟨p.loc, "tipo desconocido: '" ++ p.type.str ++ "'"⟩
      else if p.type.optional then
        .error ⟨p.loc, "los parametros opcionales todavia no estan implementados"⟩
      else if inPath then
        if p.default.isSome then
          .error ⟨p.loc, "un parametro de ruta no puede tener valor por defecto"⟩
        else .ok { kind := .path, name := p.name, type := p.type.name }
      else do
        let text ← defaultText p
        return { kind := .query, name := p.name, type := p.type.name, defaultText := text }

def ParamBind.isBody (b : ParamBind) : Bool :=
  match b.kind with
  | .body _ => true
  | _ => false

def Endpoint.bindEach (seenBody : Bool) : List EndpointParam → List Diagnostic × List ParamBind
  | [] => ([], [])
  | p :: ps =>
    match r.bindParam classes seenBody p with
    | .error d =>
      let rest := Endpoint.bindEach seenBody ps
      (d :: rest.1, rest.2)
    | .ok b =>
      let rest := Endpoint.bindEach (seenBody || b.isBody) ps
      (rest.1, b :: rest.2)

/-- The names of the pattern that no parameter takes. -/
def Endpoint.unbound : List Diagnostic :=
  ((patternParams r.pattern).filter fun seg => !r.params.any (·.name = seg)).map fun seg =>
    ⟨r.patternLoc, "el patron declara ':" ++ seg ++ "' pero ningun parametro lo recoge"⟩

/-- `bind_params`: what it objects to, and what each parameter is bound to.  It accepts
    the parameters if it objects to nothing. -/
def Endpoint.bindParams : List Diagnostic × List ParamBind :=
  (r.unbound ++ (r.bindEach classes false r.params).1, (r.bindEach classes false r.params).2)

end Binding

/-! ## What is meant -/

/-- A character of a name. -/
def isIdentChar (c : Char) : Bool := c.isAlphanum || c == '_' || 128 ≤ c.toNat

def IsIdentifier (name : String) : Prop := ∀ c ∈ name.toList, isIdentChar c

/-- A segment of a pattern that is a parameter from end to end, or has none in it. -/
def AlignedSegment (seg : List Char) : Prop :=
  ':' ∈ seg ∨ '{' ∈ seg →
    seg.head? = some ':' ∨ seg.head? = some '{' ∧ seg.idxOf '}' + 1 = seg.length

/-- Every parameter of the pattern is a segment of its own. -/
def Aligned (pattern : String) : Prop :=
  ∀ seg ∈ pattern.toList.splitOn '/', AlignedSegment seg

/-- The parameters that are bound to the path reach the handler: in every request that
    the router resolves to the route, when it is the only one, they are there, with
    the text that the pattern gives them; and all scanners read the same names. -/
structure ParamsReach (pattern : String) (binds : List ParamBind) : Prop where
  router : routerNames pattern = some (patternParams pattern)
  openapi : openapiNames pattern = patternParams pattern
  bound : ∀ b ∈ binds, b.kind = .path → ∀ norm method verb path params,
    normalizePattern pattern = .ok norm →
    (Router.empty.addAll [⟨method, pattern, ()⟩]).match verb path = ⟨some (), params⟩ →
    ∃ text, rawText b { params := params } = some text ∧
      (b.name, text) ∈ bindings (splitPath norm) (splitPath (dropSlash path.toList))

/-! ## One segment -/

/-- A name that stands in none of the scanners' ways. -/
def PlainName (name : List Char) : Prop := ∀ c ∈ name, c ≠ '/' ∧ c ≠ ':' ∧ c ≠ '{' ∧ c ≠ '}'

/-- A segment, the names in it, and what the router rewrites it to. -/
inductive Parts : List Char → List (List Char) → List Char → Prop
  | nil : Parts [] [] []
  | text {c : Char} {seg : List Char} {names : List (List Char)} {norm : List Char} :
      c ≠ '/' → c ≠ ':' → c ≠ '{' → Parts seg names norm → Parts (c :: seg) names (c :: norm)
  | colon {name : List Char} : PlainName name → Parts (':' :: name) [name] (':' :: name)
  | brace {name seg : List Char} {names : List (List Char)} {norm : List Char} :
      PlainName name → Parts seg names norm →
      Parts ('{' :: (name ++ '}' :: seg)) (name :: names) (':' :: (name ++ norm))

/-- A segment whose last brace is not closed. -/
inductive Unclosed : List Char → Prop
  | here {name : List Char} : PlainName name → Unclosed ('{' :: name)
  | text {c : Char} {seg : List Char} :
      c ≠ ':' → c ≠ '{' → Unclosed seg → Unclosed (c :: seg)
  | brace {name seg : List Char} : PlainName name → Unclosed seg → Unclosed ('{' :: (name ++ '}' :: seg))

/-- The name that the router finds in a segment. -/
def segNames : List Char → List (List Char)
  | ':' :: name => [name]
  | _ => []

/-- What follows a segment. -/
def Follows (tail : List Char) : Prop := tail = [] ∨ ∃ rest, tail = '/' :: rest

theorem scanNames_open (close : Char) (name cs : List Char) :
    scanNames (some (close, name)) cs =
      (name ++ cs.takeWhile (· ≠ close)) :: scanNames none (cs.dropWhile (· ≠ close)).tail := by
  induction cs generalizing name with
  | nil => simp [scanNames]
  | cons c cs ih =>
    by_cases hc : c = close
    · simp [scanNames, hc]
    · simp [scanNames, hc, ih]

theorem scanNames_tail {tail : List Char} (ht : Follows tail) :
    scanNames none tail.tail = scanNames none tail := by
  rcases ht with rfl | ⟨rest, rfl⟩
  · rfl
  · simp [scanNames]

/-- A parameter with a colon goes to the end of its segment. -/
theorem scanNames_colon {name tail : List Char} (hn : '/' ∉ name) (ht : Follows tail) :
    scanNames none (':' :: (name ++ tail)) = name :: scanNames none tail := by
  have hne : ∀ c ∈ name, (decide (c ≠ '/')) = true := by
    intro c hc
    exact decide_eq_true fun heq => hn (heq ▸ hc)
  have htake : (name ++ tail).takeWhile (· ≠ '/') = name := by
    rw [List.takeWhile_append_of_pos hne]
    rcases ht with rfl | ⟨rest, rfl⟩ <;> simp
  have hdrop : (name ++ tail).dropWhile (· ≠ '/') = tail := by
    rw [List.dropWhile_append_of_pos hne]
    rcases ht with rfl | ⟨rest, rfl⟩ <;> simp
  rw [scanNames, if_pos rfl, scanNames_open, htake, hdrop, scanNames_tail ht, List.nil_append]

/-- A parameter in braces goes to the closing one. -/
theorem scanNames_brace {name : List Char} (rest : List Char) (hn : '}' ∉ name) :
    scanNames none ('{' :: (name ++ '}' :: rest)) = name :: scanNames none rest := by
  have hne : ∀ c ∈ name, (decide (c ≠ '}')) = true := by
    intro c hc
    exact decide_eq_true fun heq => hn (heq ▸ hc)
  have htake : (name ++ '}' :: rest).takeWhile (· ≠ '}') = name := by
    rw [List.takeWhile_append_of_pos hne]
    simp
  have hdrop : (name ++ '}' :: rest).dropWhile (· ≠ '}') = '}' :: rest := by
    rw [List.dropWhile_append_of_pos hne]
    simp
  rw [scanNames, if_neg (by decide), if_pos rfl, scanNames_open, htake, hdrop, List.nil_append,
    List.tail_cons]

theorem scanNames_text {c : Char} (h1 : c ≠ ':') (h2 : c ≠ '{') (cs : List Char) :
    scanNames none (c :: cs) = scanNames none cs := by
  rw [scanNames, if_neg h1, if_neg h2]

/-- What `pattern_params` reads in a segment, if the names it reads are plain. -/
theorem scan_segment {tail : List Char} (ht : Follows tail) : ∀ seg : List Char, '/' ∉ seg →
    (∀ n ∈ scanNames none (seg ++ tail), PlainName n) →
    (∃ names norm, Parts seg names norm ∧
      scanNames none (seg ++ tail) = names ++ scanNames none tail) ∨
    tail = [] ∧ Unclosed seg
  | [], _, _ => .inl ⟨[], [], .nil, rfl⟩
  | c :: seg, hseg, hplain => by
    have hslash : c ≠ '/' := fun h => hseg (h ▸ List.mem_cons_self ..)
    have hseg' : '/' ∉ seg := fun h => hseg (List.mem_cons_of_mem _ h)
    rw [List.cons_append] at hplain ⊢
    by_cases hcolon : c = ':'
    · subst hcolon
      have hscan := scanNames_colon hseg' ht
      rw [hscan] at hplain ⊢
      exact .inl ⟨[seg], ':' :: seg, .colon (hplain seg (List.mem_cons_self ..)), rfl⟩
    by_cases hbrace : c = '{'
    · subst hbrace
      by_cases hclose : '}' ∈ seg
      · -- the name ends here, and the rest of the segment goes on
        obtain ⟨name, rest, hname, hno⟩ := List.eq_append_cons_of_mem hclose
        subst hname
        have hscan := scanNames_brace (rest ++ tail) hno
        rw [List.append_assoc, List.cons_append, hscan] at hplain ⊢
        have hname : PlainName name := hplain name (List.mem_cons_self ..)
        have hrest : '/' ∉ rest := fun h =>
          hseg' (List.mem_append_right _ (List.mem_cons_of_mem _ h))
        rcases scan_segment ht rest hrest fun n hn => hplain n (List.mem_cons_of_mem _ hn) with
          ⟨names, norm, hparts, heq⟩ | ⟨htail, hopen⟩
        · exact .inl ⟨name :: names, _, .brace hname hparts, by rw [heq]; rfl⟩
        · exact .inr ⟨htail, .brace hname hopen⟩
      · have hscan : scanNames none ('{' :: (seg ++ tail)) =
            (seg ++ tail).takeWhile (· ≠ '}') ::
              scanNames none ((seg ++ tail).dropWhile (· ≠ '}')).tail := by
          rw [scanNames, if_neg (by decide), if_pos rfl, scanNames_open, List.nil_append]
        have hne : ∀ c ∈ seg, (decide (c ≠ '}')) = true := by
          intro c hc
          exact decide_eq_true fun heq => hclose (heq ▸ hc)
        have hfirst : PlainName ((seg ++ tail).takeWhile (· ≠ '}')) :=
          hplain _ (by rw [hscan]; exact List.mem_cons_self ..)
        rw [List.takeWhile_append_of_pos hne] at hfirst
        rcases ht with rfl | ⟨rest, rfl⟩
        · rw [List.takeWhile_nil, List.append_nil] at hfirst
          exact .inr ⟨rfl, .here hfirst⟩
        · -- a name that runs over the slash
          have hmem : '/' ∈ seg ++ ('/' :: rest).takeWhile (· ≠ '}') := by simp
          exact absurd rfl (hfirst '/' hmem).1
    · rw [scanNames_text hcolon hbrace] at hplain ⊢
      rcases scan_segment ht seg hseg' hplain with ⟨names, norm, hparts, heq⟩ | ⟨htail, hopen⟩
      · exact .inl ⟨names, c :: norm, .text hslash hcolon hbrace hparts, heq⟩
      · exact .inr ⟨htail, .text hcolon hbrace hopen⟩
  termination_by seg => seg.length

/-! ## What the other scanners read in it -/

theorem normalizeChars_text {c : Char} (h : c ≠ '{') (cs : List Char) :
    normalizeChars false (c :: cs) = (normalizeChars false cs).map (c :: ·) := by
  rw [normalizeChars]
  · exact fun _ => h
  · nofun

theorem normalizeChars_plain {name : List Char} (h : PlainName name) (cs : List Char) :
    normalizeChars false (name ++ cs) = (normalizeChars false cs).map (name ++ ·) := by
  induction name with
  | nil => simp
  | cons c name ih =>
    have hc := h c (List.mem_cons_self ..)
    rw [List.cons_append, normalizeChars_text hc.2.2.1, ih fun d hd => h d (List.mem_cons_of_mem _ hd)]
    simp [Function.comp_def]

/-- Inside braces, up to the closing one. -/
theorem normalizeChars_brace {name : List Char} (h : PlainName name) (cs : List Char) :
    normalizeChars true (name ++ '}' :: cs) = (normalizeChars false cs).map (name ++ ·) := by
  induction name with
  | nil => simp [normalizeChars]
  | cons c name ih =>
    have hc := h c (List.mem_cons_self ..)
    rw [List.cons_append, normalizeChars, ih fun d hd => h d (List.mem_cons_of_mem _ hd)]
    · simp [Function.comp_def]
    · nofun
    · exact fun _ => hc.2.2.2

theorem normalizeChars_unclosed {name : List Char} (h : PlainName name) :
    normalizeChars true name = none := by
  induction name with
  | nil => rfl
  | cons c name ih =>
    rw [normalizeChars, ih fun d hd => h d (List.mem_cons_of_mem _ hd)]
    · rfl
    · nofun
    · exact fun _ => (h c (List.mem_cons_self ..)).2.2.2

theorem Parts.normalize {seg norm : List Char} {names : List (List Char)}
    (h : Parts seg names norm) (tail : List Char) :
    normalizeChars false (seg ++ tail) = (normalizeChars false tail).map (norm ++ ·) := by
  induction h with
  | nil => simp
  | text _ _ hbrace _ ih =>
    rw [List.cons_append, normalizeChars_text hbrace, ih]
    simp [Function.comp_def]
  | colon hname =>
    rw [List.cons_append, normalizeChars_text (by decide), normalizeChars_plain hname]
    simp [Function.comp_def]
  | brace hname _ ih =>
    rw [List.cons_append, normalizeChars, List.append_assoc, List.cons_append,
      normalizeChars_brace hname, ih]
    simp [Function.comp_def]

theorem Parts.notMem_norm {seg norm : List Char} {names : List (List Char)}
    (h : Parts seg names norm) : '/' ∉ norm := by
  induction h with
  | nil => simp
  | text hslash _ _ _ ih => simp [ih, Ne.symm hslash]
  | colon hname => simpa using fun hmem => (hname '/' hmem).1 rfl
  | brace hname _ ih => simpa [ih] using fun hmem => (hname '/' hmem).1 rfl

/-- In OpenAPI a name in a segment ends where the name or the segment does. -/
theorem openapiChars_name {name tail : List Char} (h : '/' ∉ name) (ht : Follows tail) :
    openapiChars true (name ++ tail) = name ++ '}' :: openapiChars false tail := by
  induction name with
  | nil =>
    rcases ht with rfl | ⟨rest, rfl⟩
    · rfl
    · simp [openapiChars]
  | cons c name ih =>
    have hc : c ≠ '/' := fun heq => h (heq ▸ List.mem_cons_self ..)
    rw [List.cons_append, openapiChars, if_neg hc, ih fun hmem => h (List.mem_cons_of_mem _ hmem)]
    rfl

theorem openapiChars_plain {name : List Char} (h : PlainName name) (cs : List Char) :
    openapiChars false (name ++ cs) = name ++ openapiChars false cs := by
  induction name with
  | nil => rfl
  | cons c name ih =>
    rw [List.cons_append, openapiChars, if_neg (h c (List.mem_cons_self ..)).2.1,
      ih fun d hd => h d (List.mem_cons_of_mem _ hd)]
    rfl

theorem templateNames_name {name acc : List Char} (h : '}' ∉ name) (cs : List Char) :
    templateNames (some acc) (name ++ '}' :: cs) = (acc ++ name) :: templateNames none cs := by
  induction name generalizing acc with
  | nil => simp [templateNames]
  | cons c name ih =>
    have hc : c ≠ '}' := fun heq => h (heq ▸ List.mem_cons_self ..)
    rw [List.cons_append, templateNames, if_neg hc, ih fun hmem => h (List.mem_cons_of_mem _ hmem)]
    simp

theorem PlainName.slash {name : List Char} (h : PlainName name) : '/' ∉ name := fun hmem => (h _ hmem).1 rfl

theorem PlainName.close {name : List Char} (h : PlainName name) : '}' ∉ name :=
  fun hmem => (h _ hmem).2.2.2 rfl

theorem Parts.openapi {seg norm tail : List Char} {names : List (List Char)}
    (h : Parts seg names norm) (ht : Follows tail) :
    templateNames none (openapiChars false (seg ++ tail)) =
      names ++ templateNames none (openapiChars false tail) := by
  induction h with
  | nil => rfl
  | text _ hcolon hbrace _ ih =>
    rw [List.cons_append, openapiChars, if_neg hcolon, templateNames, if_neg hbrace, ih]
  | colon hname =>
    rw [List.cons_append, openapiChars, if_pos rfl, openapiChars_name hname.slash ht, templateNames,
      if_pos rfl, templateNames_name hname.close]
    rfl
  | brace hname _ ih =>
    rw [List.cons_append, openapiChars, if_neg (by decide), List.append_assoc, List.cons_append,
      openapiChars_plain hname, openapiChars, if_neg (by decide), templateNames, if_pos rfl,
      templateNames_name hname.close, ih]
    rfl

/-! ## Whole patterns -/

/-- A segment without names has neither a colon nor a brace. -/
theorem Parts.names_eq_nil {seg norm : List Char} {names : List (List Char)}
    (h : Parts seg names norm) : names = [] ↔ ':' ∉ seg ∧ '{' ∉ seg := by
  induction h with
  | nil => simp
  | text _ hcolon hbrace _ ih => simp [ih, Ne.symm hcolon, Ne.symm hbrace]
  | colon _ => simp
  | brace _ _ _ => simp

theorem Parts.norm_eq_nil {seg norm : List Char} {names : List (List Char)}
    (h : Parts seg names norm) : norm = [] ↔ seg = [] := by
  cases h <;> simp

/-- The router finds one name at most, and the names that there are exactly if the
    segment is a parameter from end to end. -/
theorem Parts.segNames {seg norm : List Char} {names : List (List Char)}
    (h : Parts seg names norm) :
    (segNames norm).length ≤ names.length ∧ (segNames norm = names ↔ AlignedSegment seg) := by
  cases h with
  | nil => simp [Osodio.Odio.segNames, AlignedSegment]
  | @text c seg names norm hslash hcolon hbrace hparts =>
    have hnone : Osodio.Odio.segNames (c :: norm) = [] := by
      unfold Osodio.Odio.segNames
      split
      · next name heq => exact absurd (List.cons.inj heq).1 hcolon
      · rfl
    rw [hnone]
    refine ⟨Nat.zero_le _, ?_⟩
    rw [eq_comm, hparts.names_eq_nil]
    simp [AlignedSegment, hcolon, hbrace, Ne.symm hcolon, Ne.symm hbrace]
  | colon hname => simp [Osodio.Odio.segNames, AlignedSegment]
  | @brace name seg names norm hname hparts =>
    have hidx : ('{' :: (name ++ '}' :: seg)).idxOf '}' = name.length + 1 := by
      rw [List.idxOf_cons_ne _ (by decide), List.idxOf_append_of_notMem hname.close]
      simp
    have haligned : AlignedSegment ('{' :: (name ++ '}' :: seg)) ↔ seg = [] := by
      simp only [AlignedSegment, hidx]
      simp [← List.length_eq_zero_iff]
    rw [haligned]
    refine ⟨by simp [Osodio.Odio.segNames], ?_⟩
    simp only [Osodio.Odio.segNames, List.cons.injEq, List.append_right_eq_self, hparts.norm_eq_nil]
    constructor
    · rintro ⟨hseg, -⟩
      exact hseg
    · rintro rfl
      cases hparts
      exact ⟨rfl, rfl⟩

theorem Unclosed.normalize {seg : List Char} (h : Unclosed seg) : normalizeChars false seg = none := by
  induction h with
  | here hname => rw [normalizeChars, normalizeChars_unclosed hname]; rfl
  | text _ hbrace _ ih => rw [normalizeChars_text hbrace, ih]; rfl
  | brace hname _ ih => rw [normalizeChars, normalizeChars_brace hname, ih]; rfl

/-- The last brace of the segment comes after every closing one. -/
theorem Unclosed.getLast {seg : List Char} (h : Unclosed seg) : seg.getLast? ≠ some '}' := by
  induction h with
  | @here name hname =>
    intro hlast
    have hmem : '}' ∈ '{' :: name := List.mem_of_getLast? hlast
    simp [hname.close] at hmem
  | @text c seg _ _ hopen ih =>
    have hne : seg ≠ [] := by cases hopen <;> simp
    rwa [List.getLast?_cons_of_ne_nil hne]
  | @brace name seg _ hopen ih =>
    have hne : seg ≠ [] := by cases hopen <;> simp
    rw [← List.cons_append, List.getLast?_append_of_ne_nil _ (by simp),
      List.getLast?_cons_of_ne_nil hne]
    exact ih

theorem Unclosed.not_aligned {seg : List Char} (h : Unclosed seg) : ¬ AlignedSegment seg := by
  have hmem : '{' ∈ seg := by
    induction h with
    | here _ => simp
    | text _ _ _ ih => simp [ih]
    | brace _ _ _ => simp
  have hhead : seg.head? ≠ some ':' := by
    cases h with
    | here _ => simp
    | text hcolon _ _ => simpa using hcolon
    | brace _ _ => simp
  rintro hal
  rcases hal (.inr hmem) with hcolon | ⟨-, hidx⟩
  · exact hhead hcolon
  · refine h.getLast ?_
    have hlt : seg.idxOf '}' < seg.length := by omega
    rw [List.getLast?_eq_getElem?, show seg.length - 1 = seg.idxOf '}' by omega,
      List.getElem?_eq_getElem hlt, List.getElem_idxOf hlt]

/-- The names that the router finds in a pattern it has rewritten. -/
def namesOfNorm (norm : List Char) : List (List Char) := (norm.splitOn '/').flatMap segNames

/-- What the scanners read in a pattern whose names are plain. -/
def ScanSpec (cs : List Char) : Prop :=
  normalizeChars false cs = none ∧ ¬ (∀ seg ∈ cs.splitOn '/', AlignedSegment seg) ∨
  ∃ norm, normalizeChars false cs = some norm ∧
    templateNames none (openapiChars false cs) = scanNames none cs ∧
    (namesOfNorm norm).length ≤ (scanNames none cs).length ∧
    (namesOfNorm norm = scanNames none cs ↔ ∀ seg ∈ cs.splitOn '/', AlignedSegment seg)

/-- The last segment of a pattern. -/
theorem scan_last {seg : List Char} (hseg : '/' ∉ seg)
    (hplain : ∀ n ∈ scanNames none seg, PlainName n) : ScanSpec seg := by
  have hsplit : seg.splitOn '/' = [seg] := List.splitOn_eq_singleton hseg
  have h := scan_segment (.inl rfl) seg hseg (by rwa [List.append_nil])
  rw [List.append_nil] at h
  rcases h with ⟨names, norm, hparts, heq⟩ | ⟨-, hopen⟩
  · have hnames : scanNames none seg = names := by rw [heq, scanNames, List.append_nil]
    have hnorm := hparts.normalize []
    have hopenapi := hparts.openapi (.inl rfl)
    rw [List.append_nil] at hnorm hopenapi
    obtain ⟨hle, hiff⟩ := hparts.segNames
    refine .inr ⟨norm, by rw [hnorm]; simp [normalizeChars], ?_, ?_, ?_⟩
    · rw [hopenapi, hnames]
      simp [openapiChars, templateNames]
    · simpa [namesOfNorm, List.splitOn_eq_singleton hparts.notMem_norm, hnames] using hle
    · simpa [namesOfNorm, List.splitOn_eq_singleton hparts.notMem_norm, hnames, hsplit] using hiff
  · refine .inl ⟨hopen.normalize, fun hal => hopen.not_aligned (hal seg ?_)⟩
    rw [hsplit]
    exact List.mem_singleton_self seg

/-- A segment before others. -/
theorem scan_cons {seg rest : List Char} (hseg : '/' ∉ seg)
    (hplain : ∀ n ∈ scanNames none (seg ++ '/' :: rest), PlainName n)
    (ih : (∀ n ∈ scanNames none rest, PlainName n) → ScanSpec rest) : ScanSpec (seg ++ '/' :: rest) := by
  have ht : Follows ('/' :: rest) := .inr ⟨rest, rfl⟩
  have hslash : scanNames none ('/' :: rest) = scanNames none rest :=
    scanNames_text (by decide) (by decide) rest
  rcases scan_segment ht seg hseg hplain with ⟨names, norm, hparts, heq⟩ | ⟨htail, -⟩
  · rw [hslash] at heq
    have hrest := ih fun n hn => hplain n (by rw [heq]; exact List.mem_append_right _ hn)
    obtain ⟨hle, hiff⟩ := hparts.segNames
    unfold ScanSpec
    rw [hparts.normalize, normalizeChars_text (by decide),
      List.splitOn_append_cons_self_of_not_mem hseg, hparts.openapi ht, heq]
    rcases hrest with ⟨hnone, hnot⟩ | ⟨norm', hsome, hopenapi, hle', hiff'⟩
    · refine .inl ⟨by rw [hnone]; rfl, fun hal => hnot fun s hs => hal s ?_⟩
      exact List.mem_cons_of_mem _ hs
    · have hnames : namesOfNorm (norm ++ '/' :: norm') = segNames norm ++ namesOfNorm norm' := by
        rw [namesOfNorm, List.splitOn_append_cons_self_of_not_mem hparts.notMem_norm]
        rfl
      refine .inr ⟨norm ++ '/' :: norm', by rw [hsome]; rfl, ?_, ?_, ?_⟩
      · rw [openapiChars, if_neg (by decide), templateNames, if_neg (by decide), hopenapi]
      · rw [hnames, List.length_append, List.length_append]
        omega
      · rw [hnames, List.forall_mem_cons, ← hiff, ← hiff']
        constructor
        · intro happend
          -- neither part has more names than it should, so each has what it should
          have hlen := congrArg List.length happend
          rw [List.length_append, List.length_append] at hlen
          exact List.append_inj happend (by omega)
        · rintro ⟨h1, h2⟩
          rw [h1, h2]
  · cases htail

/-- **The scanners**: they read the same names exactly if each is a segment of its own. -/
theorem scan_spec (cs : List Char) (hplain : ∀ n ∈ scanNames none cs, PlainName n) : ScanSpec cs := by
  by_cases hslash : '/' ∈ cs
  · obtain ⟨seg, rest, heq, hseg⟩ := List.eq_append_cons_of_mem hslash
    subst heq
    exact scan_cons hseg hplain fun h => scan_spec rest h
  · exact scan_last hslash hplain
  termination_by cs.length
  decreasing_by
    rw [heq, List.length_append, List.length_cons]
    omega

/-! ## Names as strings -/

theorem splitPath_append_slash (cs : List Char) : splitPath (cs ++ ['/']) = splitPath cs := by
  unfold splitPath
  rw [List.splitOn_append_cons_self cs []]
  simp

theorem splitPath_dropSlash (cs : List Char) : splitPath (dropSlash cs) = splitPath cs := by
  unfold dropSlash
  split
  · next h =>
    have heq : cs = cs.dropLast ++ ['/'] := (List.dropLast_append_getLast? '/' h.2).symm
    conv => rhs; rw [heq]
    exact (splitPath_append_slash _).symm
  · rfl

/-- A segment is a parameter exactly if it begins with a colon. -/
theorem keyOf_ofList (c : Char) (name : List Char) :
    keyOf (String.ofList (c :: name)) = .param ↔ c = ':' := by
  unfold keyOf
  split
  · next hstar =>
    have hlist : c :: name = ['*'] := by
      rw [← String.toList_ofList (l := c :: name), hstar]
      rfl
    obtain ⟨rfl, -⟩ := List.cons.inj hlist
    exact ⟨nofun, nofun⟩
  · rw [String.toList_ofList, List.head?_cons]
    split
    · next hcolon => exact ⟨fun _ => Option.some.inj hcolon, fun _ => rfl⟩
    · next hcolon => exact ⟨nofun, fun hc => absurd (congrArg some hc) hcolon⟩

/-- The names of the parameters among some segments. -/
theorem paramNames_segments (segs : List (List Char)) :
    paramNames ((segs.filter (· ≠ [])).map String.ofList) =
      (segs.flatMap segNames).map String.ofList := by
  induction segs with
  | nil => rfl
  | cons seg segs ih =>
    rw [List.flatMap_cons, List.map_append, ← ih]
    match seg with
    | [] => rfl
    | c :: name =>
      rw [List.filter_cons_of_pos (by simp), List.map_cons]
      unfold paramNames
      by_cases hc : c = ':'
      · subst hc
        have hkey := (keyOf_ofList ':' name).2 rfl
        have hname : nameOf (String.ofList (':' :: name)) = String.ofList name := by
          rw [nameOf, hkey]
          show String.ofList (String.ofList (':' :: name)).toList.tail = _
          rw [String.toList_ofList, List.tail_cons]
        rw [List.filter_cons_of_pos (by simpa using hkey), List.map_cons, hname]
        rfl
      · have hkey : keyOf (String.ofList (c :: name)) ≠ .param :=
          fun h => hc ((keyOf_ofList c name).1 h)
        have hno : segNames (c :: name) = [] := by
          unfold segNames
          split
          · next heq => exact absurd (List.cons.inj heq).1 hc
          · rfl
        rw [List.filter_cons_of_neg (by simpa using hkey), hno]
        rfl

theorem paramNames_norm (norm : List Char) :
    paramNames (splitPath (dropSlash norm)) = (namesOfNorm norm).map String.ofList := by
  rw [splitPath_dropSlash]
  exact paramNames_segments _

theorem map_ofList_inj {xs ys : List (List Char)} :
    xs.map String.ofList = ys.map String.ofList ↔ xs = ys :=
  (List.map_injective_iff.2 fun _ _ h => by simpa using congrArg String.toList h).eq_iff

/-- The scanners read the same names exactly if each is a segment of its own. -/
theorem scanners_agree_iff {pattern : String}
    (hplain : ∀ n ∈ scanNames none pattern.toList, PlainName n) :
    routerNames pattern = some (patternParams pattern) ∧
      openapiNames pattern = patternParams pattern ↔ Aligned pattern := by
  unfold routerNames normalizePattern openapiNames openapiPath patternParams
  rcases scan_spec pattern.toList hplain with ⟨hnone, hnot⟩ | ⟨norm, hsome, hopenapi, -, hiff⟩
  · rw [hnone]
    exact ⟨fun h => absurd h.1 nofun, fun h => absurd h hnot⟩
  · rw [hsome, String.toList_ofList, hopenapi]
    simp only [paramNames_norm, Option.some.injEq, map_ofList_inj, and_true]
    exact hiff

/-! ## A router with one route -/

theorem lookup_setParam_self (name value : String) (ps : Params) :
    (setParam name value ps).lookup name = some value := by
  simp [setParam]

theorem lookup_setParam_ne {name k : String} (h : k ≠ name) (value : String) (ps : Params) :
    (setParam name value ps).lookup k = ps.lookup k := by
  rw [setParam, List.lookup_cons, beq_eq_false_iff_ne.2 h]
  exact lookup_filter_ne h ps

/-- The parameters of a search that has gone through some segments. -/
def setAll (ps : Params) (bs : Params) : Params := bs.foldl (fun ps b => setParam b.1 b.2 ps) ps

/-- A name that was bound is there, with one of the texts it was bound to. -/
theorem lookup_setAll {name : String} (ps : Params) {bs : Params} (h : name ∈ bs.map Prod.fst) :
    ∃ value, (setAll ps bs).lookup name = some value ∧ (name, value) ∈ bs := by
  induction bs using List.reverseRecOn with
  | nil => simp at h
  | append_singleton bs b ih =>
    rw [setAll, List.foldl_append]
    by_cases hb : b.1 = name
    · subst hb
      exact ⟨b.2, lookup_setParam_self .., List.mem_append_right _ (List.mem_singleton_self b)⟩
    · have hold : name ∈ bs.map Prod.fst := by
        rw [List.map_append, List.mem_append] at h
        exact h.resolve_right fun hs => hb (List.mem_singleton.1 hs).symm
      obtain ⟨value, hvalue, hmem⟩ := ih hold
      refine ⟨value, ?_, List.mem_append_left _ hmem⟩
      rw [List.foldl_cons, List.foldl_nil, lookup_setParam_ne (Ne.symm hb)]
      exact hvalue

section Chain

variable {H : Type}

/-- The only child of a node of the tree of one route. -/
theorem child_chain (segment : String) (type : NodeType) (seg : String) (segs : List String)
    (m : String) (h : H) (k : Key) :
    ((Node.mk segment type [] []).add (seg :: segs) m h).child k =
      if k = keyOf seg then some ((Node.fresh seg).add segs m h) else none := by
  rw [Node.child_add]
  rfl

/-- The search in a tree with one route: it binds each parameter in turn. -/
theorem matchRecursive_chain (segment : String) (type : NodeType) (segs vs : List String)
    (m verb : String) (h h' : H) (ps ps' : Params)
    (hfound : matchRecursive verb vs ((Node.mk segment type [] []).add segs m h) ps =
      (some h', ps')) :
    Matches (segs.map keyOf) vs ∧ ps' = setAll ps (bindings segs vs) := by
  induction segs generalizing segment type vs ps with
  | nil =>
    cases vs with
    | nil =>
      rw [matchRecursive] at hfound
      exact ⟨trivial, (congrArg Prod.snd hfound).symm⟩
    | cons v vs => cases hfound
  | cons seg segs ih =>
    cases vs with
    | nil => cases hfound
    | cons v vs =>
      have hchild := child_chain (H := H) segment type seg segs m h
      generalize (Node.mk segment type [] []).add (seg :: segs) m h = n at hfound hchild
      have hs : n.findStaticChild v = n.child (.static v) := rfl
      have hp : n.findParamChild = n.child .param := rfl
      have hw : n.findWildcardChild = n.child .wildcard := rfl
      simp only [matchRecursive, tryStatic, tryParam, tryWildcard, hs, hp, hw, hchild] at hfound
      cases hk : keyOf seg with
      | static t =>
        by_cases ht : v = t
        · subst ht
          simp only [hk, if_true, reduceCtorEq, if_false] at hfound
          split at hfound
          · next h'' ps'' hgo =>
            cases hfound
            obtain ⟨hm, hb⟩ := ih (nameOf seg) (keyOf seg).type vs ps hgo
            refine ⟨?_, ?_⟩
            · rw [List.map_cons, hk]
              exact ⟨rfl, hm⟩
            · rw [hb, bindings, hk]
              rfl
          · cases hfound
        · simp only [hk, Key.static.injEq, ht, reduceCtorEq, if_false] at hfound
          cases hfound
      | param =>
        have hseg : ((Node.fresh seg : Node H).add segs m h).segment = nameOf seg :=
          Node.segment_add ..
        simp only [hk, reduceCtorEq, if_true, if_false, hseg] at hfound
        rcases hgo : matchRecursive verb vs ((Node.fresh seg).add segs m h)
          (setParam (nameOf seg) v ps) with ⟨- | h₂, ps₂⟩
        · rw [hgo] at hfound
          cases hfound
        · rw [hgo] at hfound
          cases hfound
          obtain ⟨hm, hb⟩ := ih (nameOf seg) (keyOf seg).type vs _ hgo
          refine ⟨?_, ?_⟩
          · rw [List.map_cons, hk]
            exact hm
          · rw [hb, bindings, if_pos hk]
            rfl
      | wildcard =>
        simp only [hk, reduceCtorEq, if_true, if_false] at hfound
        cases segs with
        | nil =>
          refine ⟨?_, ?_⟩
          · rw [List.map_cons, hk]
            trivial
          · rw [bindings, hk]
            exact (congrArg Prod.snd hfound).symm
        | cons seg' segs => cases hfound

end Chain

/-- Along a path that matches, every parameter of the pattern is bound. -/
theorem bindings_names {segs vs : List String} (h : Matches (segs.map keyOf) vs) :
    (bindings segs vs).map Prod.fst = paramNames segs := by
  induction segs generalizing vs with
  | nil =>
    cases vs with
    | nil => rfl
    | cons v vs => cases h
  | cons seg segs ih =>
    cases vs with
    | nil => cases hk : keyOf seg <;> simp [hk, Matches] at h
    | cons v vs =>
      rw [List.map_cons] at h
      unfold bindings paramNames
      cases hk : keyOf seg with
      | static t =>
        rw [hk] at h
        rw [if_neg (by simp), List.filter_cons_of_neg (by simp [hk])]
        exact ih h.2
      | param =>
        rw [hk] at h
        rw [if_pos rfl, List.filter_cons_of_pos (by simp [hk]), List.map_cons, List.map_cons, ih h]
        rfl
      | wildcard =>
        rw [if_neg (by simp), List.filter_cons_of_neg (by simp [hk])]
        cases segs with
        | nil => rfl
        | cons seg' segs =>
          rw [hk] at h
          cases h

/-! ## The parameters of an endpoint -/

theorem IsIdentifier.plain {name : String} (h : IsIdentifier name) : PlainName name.toList := by
  intro c hc
  have hchar := h c hc
  refine ⟨?_, ?_, ?_, ?_⟩ <;>
    · rintro rfl
      revert hchar
      decide

section Endpoints

variable {classes : String → Option ClassInfo} {r : Endpoint}

/-- A parameter that is bound to the path is one of the pattern. -/
theorem bindParam_path {seenBody : Bool} {p : EndpointParam} {b : ParamBind}
    (h : r.bindParam classes seenBody p = .ok b) (hb : b.kind = .path) :
    b.name ∈ patternParams r.pattern := by
  simp only [Endpoint.bindParam] at h
  split at h
  · next kind hkind =>
    split at h
    · cases h
    · split at h
      · cases h
      · cases h
        unfold fileKind at hkind
        split at hkind
        · obtain rfl := Option.some.inj hkind
          cases hb
        · split at hkind
          · obtain rfl := Option.some.inj hkind
            cases hb
          · cases hkind
  · split at h
    · split at h
      · cases h
      · split at h
        · cases h
        · split at h
          · cases h
          · cases h
            cases hb
    · split at h
      · cases h
      · split at h
        · cases h
        · split at h
          · next hin =>
            split at h
            · cases h
            · cases h
              exact List.contains_iff_mem.1 hin
          · cases hd : defaultText p with
            | error d =>
              rw [hd] at h
              cases h
            | ok text =>
              rw [hd] at h
              cases h
              cases hb

theorem bindEach_path {seenBody : Bool} {ps : List EndpointParam} {b : ParamBind}
    (hmem : b ∈ (r.bindEach classes seenBody ps).2) (hb : b.kind = .path) :
    b.name ∈ patternParams r.pattern := by
  induction ps generalizing seenBody with
  | nil => simp [Endpoint.bindEach] at hmem
  | cons p ps ih =>
    unfold Endpoint.bindEach at hmem
    split at hmem
    · exact ih hmem
    · next b' hok =>
      rcases List.mem_cons.1 hmem with rfl | hmem
      · exact bindParam_path hok hb
      · exact ih hmem

/-- When the parameters are accepted, the names of the pattern are among them. -/
theorem scanNames_plain (hnames : ∀ p ∈ r.params, IsIdentifier p.name) (hacc : r.unbound = []) :
    ∀ n ∈ scanNames none r.pattern.toList, PlainName n := by
  intro n hn
  have hmem : String.ofList n ∈ patternParams r.pattern := List.mem_map_of_mem hn
  have hnone := List.map_eq_nil_iff.1 hacc
  have htaken := List.filter_eq_nil_iff.1 hnone _ hmem
  obtain ⟨p, hp, heq⟩ : ∃ p ∈ r.params, p.name = String.ofList n := by simpa using htaken
  have hplain := (hnames p hp).plain
  rwa [heq, String.toList_ofList] at hplain

/-- **Parameters in the path**: they reach the handler, and all scanners read them,
    exactly if each is a segment of its own. -/
theorem paramsReach_iff_aligned (hnames : ∀ p ∈ r.params, IsIdentifier p.name) {binds : List ParamBind}
    (hacc : r.bindParams classes = ([], binds)) : ParamsReach r.pattern binds ↔ Aligned r.pattern := by
  obtain ⟨hnone, rfl⟩ := Prod.mk.inj hacc
  have hplain := scanNames_plain hnames (List.append_eq_nil_iff.1 hnone).1
  have hagree := scanners_agree_iff hplain
  constructor
  · intro h
    exact hagree.1 ⟨h.router, h.openapi⟩
  · intro hal
    obtain ⟨hrouter, hopenapi⟩ := hagree.2 hal
    refine ⟨hrouter, hopenapi, fun b hb hpath norm method verb path params hnorm hmatch => ?_⟩
    have hname : b.name ∈ patternParams r.pattern := bindEach_path hb hpath
    have hnorm' : paramNames (splitPath norm) = patternParams r.pattern := by
      rw [routerNames, hnorm] at hrouter
      exact Option.some.inj hrouter
    have hadd : (Router.empty.addAll [⟨method, r.pattern, ()⟩] : Router Unit) =
        ⟨(Node.mk "" .static [] []).add (splitPath norm) (upper method) ()⟩ := by
      rw [Router.addAll, Router.addInternal, hnorm]
      rfl
    rw [hadd, Router.match] at hmatch
    rcases hsearch : matchRecursive verb (splitPath (dropSlash path.toList))
      ((Node.mk "" .static [] []).add (splitPath norm) (upper method) ()) [] with ⟨- | u, ps⟩
    · rw [hsearch] at hmatch
      cases hmatch
    · rw [hsearch] at hmatch
      obtain ⟨hm, hps⟩ := matchRecursive_chain _ _ _ _ _ _ _ _ _ _ hsearch
      obtain rfl : ps = params := congrArg RouteMatch.params hmatch
      have hmem : b.name ∈ (bindings (splitPath norm) (splitPath (dropSlash path.toList))).map
          Prod.fst := by
        rw [bindings_names hm, hnorm']
        exact hname
      obtain ⟨text, htext, hin⟩ := lookup_setAll [] hmem
      refine ⟨text, ?_, hin⟩
      rw [rawText, hpath, hps]
      exact htext

end Endpoints

/-- `get "/u/:id"(int id)`, with the given pattern. -/
def userEndpoint (pattern : String) : Endpoint where
  method := "GET"
  pattern := pattern
  params := [{ type := .mk "int" [] false, name := "id" }]

def userBinds : List ParamBind := [{ kind := .path, name := "id", type := "int" }]

theorem isIdentifier_id (pattern : String) : ∀ p ∈ (userEndpoint pattern).params,
    IsIdentifier p.name := by
  rintro p hp
  obtain rfl := List.mem_singleton.1 hp
  show ∀ c ∈ ['i', 'd'], isIdentChar c
  rintro c hc
  obtain rfl | hc := List.mem_cons.1 hc
  · decide
  · obtain rfl := List.mem_singleton.1 hc
    decide

theorem paramsReach_iff_aligned_user :
    (userEndpoint "/u/:id").bindParams (fun _ => none) = ([], userBinds) ∧
    ParamsReach "/u/:id" userBinds := by
  refine ⟨rfl, (@paramsReach_iff_aligned (fun _ => none) (userEndpoint "/u/:id")
    (isIdentifier_id "/u/:id") userBinds rfl).2 ?_⟩
  show ∀ seg ∈ [[], ['u'], [':', 'i', 'd']], AlignedSegment seg
  simp [AlignedSegment]

/-- A name in braces with text after it: `id` is accepted as a parameter of the path,
    but the router binds `id.json`. -/
theorem braces_with_suffix_lose_param :
    (userEndpoint "/\x7bid\x7d.json").bindParams (fun _ => none) = ([], userBinds) ∧
    (Router.empty.addAll [⟨"GET", "/\x7bid\x7d.json", ()⟩]).match "GET" "/5.json" =
      ⟨some (), [("id.json", "5.json")]⟩ ∧
    ¬ ParamsReach "/\x7bid\x7d.json" userBinds := by
  refine ⟨rfl, rfl, fun h => ?_⟩
  exact absurd h.router (by decide)

end Osodio.Odio
