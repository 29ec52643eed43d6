import Osodio.Odio.Emitter

/-!
# Compiling a program

The signatures of everything that can be called are collected first, and then
each body is compiled to a chunk.  Functions, methods and constructors go to one
table; the rules of `validate`, the routes and the error handlers have chunks of
their own.

## Main definitions

- `functionSigs`, `classSigs` — the signatures
- `Body` — what is compiled to a chunk
- `compile` — a whole program

## Main results

- `functionSigs_spec`, `methodSigs_spec`, `ctorSigs_spec`, `classSigs_spec` — the
  declaration that a signature was made for
-/

namespace Osodio.Odio

/-! ## Signatures -/

/-- The parameters without a default value come before those with one. -/
def checkDefaults : List Param → Bool → Except Diagnostic Unit
  | [], _ => .ok ()
  | p :: ps, seenDefault =>
    if p.default.isSome then checkDefaults ps true
    else if seenDefault then
      .error ⟨p.loc, "un parametro sin valor por defecto no puede ir despues de uno que lo tiene"⟩
    else checkDefaults ps false

/-- `make_sig`. -/
def makeSig (index : ℕ) (params : List Param) : Except Diagnostic FnSig := do
  checkDefaults params false
  return {
    index := index
    required := (params.filter fun p => p.default.isNone).length
    defaults := params.map (·.default) }

/-- The first half of `build_functions`.  The parser reports a name that is
    declared twice. -/
def functionSigs (index : ℕ) : List FnDecl → Except Diagnostic FunctionSigs
  | [] => .ok []
  | f :: fs => do
    if (nativeId f.name).isSome then
      throw ⟨f.loc, "'" ++ f.name ++ "' es un builtin: elige otro nombre"⟩
    if let some g := fs.find? fun g => g.name == f.name then
      throw ⟨g.loc, "la funcion '" ++ g.name ++ "' ya esta declarada"⟩
    let sig ← makeSig index f.params
    let sigs ← functionSigs (index + 1) fs
    return (f.name, sig) :: sigs

def methodSigs (cls : String) (index : ℕ) : List FnDecl → Except Diagnostic FunctionSigs
  | [] => .ok []
  | m :: ms => do
    if let some g := ms.find? fun g => g.name == m.name then
      throw ⟨g.loc, "el metodo '" ++ g.name ++ "' ya esta declarado en la clase '" ++ cls ++ "'"⟩
    let sig ← makeSig index m.params
    let sigs ← methodSigs cls (index + 1) ms
    return (m.name, sig) :: sigs

/-- The constructors by their number of parameters. -/
def ctorSigs (cls : String) (index : ℕ) : List CtorDecl → Except Diagnostic (List (ℕ × ℕ))
  | [] => .ok []
  | c :: cs => do
    if let some g := cs.find? fun g => g.params.length == c.params.length then
      throw ⟨g.loc, "ya hay un constructor de '" ++ cls ++ "' con " ++
        toString g.params.length ++ " parametro(s); se distinguen por su numero"⟩
    let sigs ← ctorSigs cls (index + 1) cs
    return (c.params.length, index) :: sigs

/-- The constructor of a class that declares none: one parameter for each field,
    in their order. -/
def implicitCtor (c : ClassDecl) : CtorDecl where
  params := c.fields.map fun f => { type := f.type, name := f.name, loc := f.loc }
  body := none
  loc := c.loc

/-- The constructors of a class. -/
def ClassDecl.allCtors (c : ClassDecl) : List CtorDecl :=
  if c.ctors.isEmpty && !c.fields.isEmpty then [implicitCtor c] else c.ctors

/-- How many entries of the table a class takes. -/
def ClassDecl.size (c : ClassDecl) : ℕ := c.methods.length + c.allCtors.length

def ClassDecl.fieldNames (c : ClassDecl) : List String := c.fields.map (·.name)

/-- `build_class_signatures`. -/
def classSigs (index : ℕ) : List ClassDecl → Except Diagnostic ClassSigs
  | [] => .ok []
  | c :: cs => do
    if let some g := cs.find? fun g => g.name == c.name then
      throw ⟨g.loc, "la clase '" ++ g.name ++ "' ya esta declarada"⟩
    let methods ← methodSigs c.name index c.methods
    let ctors ← ctorSigs c.name (index + c.methods.length) c.allCtors
    let sigs ← classSigs (index + c.size) cs
    return (c.name, { methods := methods, ctors := ctors, fields := c.fieldNames }) :: sigs

section Signatures

variable {index : ℕ} {name cls : String} {sig : FnSig}

theorem makeSig_ok {params : List Param} (h : makeSig index params = .ok sig) :
    sig.index = index ∧ sig.defaults.length = params.length := by
  simp only [makeSig, bind, Except.bind] at h
  split at h
  · cases h
  · cases h
    exact ⟨rfl, List.length_map _⟩

theorem functionSigs_cons {f : FnDecl} {fs : List FnDecl} {sigs : FunctionSigs}
    (h : functionSigs index (f :: fs) = .ok sigs) :
    ∃ sig rest, makeSig index f.params = .ok sig ∧ functionSigs (index + 1) fs = .ok rest ∧
      sigs = (f.name, sig) :: rest := by
  simp only [functionSigs, bind, Except.bind, pure, Except.pure, throw, throwThe,
    MonadExceptOf.throw] at h
  split at h
  · cases h
  split at h
  · cases h
  split at h
  · cases h
  next sig hsig =>
    split at h
    · cases h
    next rest hrest =>
      cases h
      exact ⟨sig, rest, hsig, hrest, rfl⟩

theorem methodSigs_cons {m : FnDecl} {ms : List FnDecl} {sigs : FunctionSigs}
    (h : methodSigs cls index (m :: ms) = .ok sigs) :
    ∃ sig rest, makeSig index m.params = .ok sig ∧ methodSigs cls (index + 1) ms = .ok rest ∧
      sigs = (m.name, sig) :: rest := by
  simp only [methodSigs, bind, Except.bind, pure, Except.pure, throw, throwThe,
    MonadExceptOf.throw] at h
  split at h
  · cases h
  split at h
  · cases h
  next sig hsig =>
    split at h
    · cases h
    next rest hrest =>
      cases h
      exact ⟨sig, rest, hsig, hrest, rfl⟩

theorem ctorSigs_cons {c : CtorDecl} {cs : List CtorDecl} {sigs : List (ℕ × ℕ)}
    (h : ctorSigs cls index (c :: cs) = .ok sigs) :
    ∃ rest, ctorSigs cls (index + 1) cs = .ok rest ∧ sigs = (c.params.length, index) :: rest := by
  simp only [ctorSigs, bind, Except.bind, pure, Except.pure, throw, throwThe,
    MonadExceptOf.throw] at h
  split at h
  · cases h
  split at h
  · cases h
  next rest hrest =>
    cases h
    exact ⟨rest, hrest, rfl⟩

theorem classSigs_cons {c : ClassDecl} {cs : List ClassDecl} {sigs : ClassSigs}
    (h : classSigs index (c :: cs) = .ok sigs) :
    ∃ methods ctors rest, methodSigs c.name index c.methods = .ok methods ∧
      ctorSigs c.name (index + c.methods.length) c.allCtors = .ok ctors ∧
      classSigs (index + c.size) cs = .ok rest ∧
      sigs = (c.name, ⟨methods, ctors, c.fieldNames⟩) :: rest := by
  simp only [classSigs, bind, Except.bind, pure, Except.pure, throw, throwThe,
    MonadExceptOf.throw] at h
  split at h
  · cases h
  split at h
  · cases h
  next methods hmethods =>
    split at h
    · cases h
    next ctors hctors =>
      split at h
      · cases h
      next rest hrest =>
        cases h
        exact ⟨methods, ctors, rest, hmethods, hctors, hrest, rfl⟩

/-- The function that a signature was made for. -/
theorem functionSigs_spec {fs : List FnDecl} {sigs : FunctionSigs}
    (h : functionSigs index fs = .ok sigs) (hl : sigs.lookup name = some sig) :
    ∃ k f, sig.index = index + k ∧ fs[k]? = some f ∧ f.name = name ∧
      sig.defaults.length = f.params.length := by
  induction fs generalizing index sigs with
  | nil =>
    cases h
    cases hl
  | cons f fs ih =>
    obtain ⟨sig', rest, hsig, hrest, rfl⟩ := functionSigs_cons h
    rw [List.lookup_cons] at hl
    split at hl
    · next heq =>
      cases hl
      obtain ⟨hi, hd⟩ := makeSig_ok hsig
      exact ⟨0, f, hi, rfl, (eq_of_beq heq).symm, hd⟩
    · obtain ⟨k, g, hi, hg, hn, hd⟩ := ih hrest hl
      exact ⟨k + 1, g, by omega, hg, hn, hd⟩

/-- The method that a signature was made for. -/
theorem methodSigs_spec {ms : List FnDecl} {sigs : FunctionSigs}
    (h : methodSigs cls index ms = .ok sigs) (hl : sigs.lookup name = some sig) :
    ∃ k m, sig.index = index + k ∧ ms[k]? = some m ∧ m.name = name ∧
      sig.defaults.length = m.params.length := by
  induction ms generalizing index sigs with
  | nil =>
    cases h
    cases hl
  | cons m ms ih =>
    obtain ⟨sig', rest, hsig, hrest, rfl⟩ := methodSigs_cons h
    rw [List.lookup_cons] at hl
    split at hl
    · next heq =>
      cases hl
      obtain ⟨hi, hd⟩ := makeSig_ok hsig
      exact ⟨0, m, hi, rfl, (eq_of_beq heq).symm, hd⟩
    · obtain ⟨k, g, hi, hg, hn, hd⟩ := ih hrest hl
      exact ⟨k + 1, g, by omega, hg, hn, hd⟩

/-- The constructor of a number of parameters. -/
theorem ctorSigs_spec {cs : List CtorDecl} {sigs : List (ℕ × ℕ)} {argc j : ℕ}
    (h : ctorSigs cls index cs = .ok sigs) (hl : sigs.lookup argc = some j) :
    ∃ k c, j = index + k ∧ cs[k]? = some c ∧ c.params.length = argc := by
  induction cs generalizing index sigs with
  | nil =>
    cases h
    cases hl
  | cons c cs ih =>
    obtain ⟨rest, hrest, rfl⟩ := ctorSigs_cons h
    rw [List.lookup_cons] at hl
    split at hl
    · next heq =>
      cases hl
      exact ⟨0, c, rfl, rfl, (eq_of_beq heq).symm⟩
    · obtain ⟨k, d, rfl, hd, hn⟩ := ih hrest hl
      exact ⟨k + 1, d, by omega, hd, hn⟩

/-- The class that a signature was made for, behind the classes `pre`. -/
theorem classSigs_spec {cs : List ClassDecl} {sigs : ClassSigs} {sig : ClassSig}
    (h : classSigs index cs = .ok sigs) (hl : sigs.lookup cls = some sig) :
    ∃ pre c rest, cs = pre ++ c :: rest ∧ c.name = cls ∧
      methodSigs c.name (index + (pre.map ClassDecl.size).sum) c.methods = .ok sig.methods ∧
      ctorSigs c.name (index + (pre.map ClassDecl.size).sum + c.methods.length) c.allCtors =
        .ok sig.ctors := by
  induction cs generalizing index sigs with
  | nil =>
    cases h
    cases hl
  | cons c cs ih =>
    obtain ⟨methods, ctors, rest, hm, hc, hrest, rfl⟩ := classSigs_cons h
    rw [List.lookup_cons] at hl
    split at hl
    · next heq =>
      cases hl
      exact ⟨[], c, cs, rfl, (eq_of_beq heq).symm, hm, hc⟩
    · obtain ⟨pre, d, rest', rfl, hn, hm', hc'⟩ := ih hrest hl
      refine ⟨c :: pre, d, rest', rfl, hn, ?_, ?_⟩
      · rwa [List.map_cons, List.sum_cons, ← Nat.add_assoc]
      · rwa [List.map_cons, List.sum_cons, ← Nat.add_assoc]

end Signatures

/-! ## Bodies -/

/-- What is compiled to a chunk. -/
inductive Body where
  | function (fn : FnDecl)
  | method (cls : String) (m : FnDecl)
  | ctor (cls : String) (fields : List String) (ct : CtorDecl)
  /-- A rule of `validate`, or an expression of a template. -/
  | condition (e : Expr) (names : List (String × String))
  | route (r : RouteDecl)
  | errorHandler (d : ErrorDecl)

/-- `route_method_`. -/
def Body.routeMethod : Body → String
  | function _ | method _ _ | ctor _ _ _ => "FN"
  | condition _ _ => ""
  | route r => r.method
  | errorHandler _ => "ERROR"

def Body.emit (X : Emitter) (fuel : ℕ) : Body → Emit Unit
  | function fn => emitFunction X fuel fn
  | method cls m => emitMethod X fuel cls m
  | ctor cls fields ct => emitCtor X fuel cls fields ct
  | condition e names => emitCondition X fuel e names
  | route r => emitRoute X fuel r
  | errorHandler d => emitErrorHandler X fuel d

/-- The tables that the emitter of a body is given: a function does not see the
    classes, and only routes and error handlers may render. -/
def Body.emitter (fns : FunctionSigs) (cls : ClassSigs) (imports : List String)
    (compilar : PlantillaCompiler) (b : Body) : Emitter where
  functions := some fns
  classes :=
    match b with
    | function _ => none
    | _ => some cls
  imports := some imports
  plantillas :=
    match b with
    | route _ | errorHandler _ => some compilar
    | _ => none
  routeMethod := b.routeMethod

/-- The bodies of the functions, methods and constructors of a class. -/
def ClassDecl.bodies (c : ClassDecl) : List Body :=
  c.methods.map (.method c.name) ++ c.allCtors.map (.ctor c.name c.fieldNames)

/-- The table of the module: functions, and then the classes in order. -/
def Program.table (p : Program) : List Body :=
  p.functions.map .function ++ p.classes.flatMap ClassDecl.bodies

/-- The rules of a class, each over its fields. -/
def ClassDecl.ruleBodies (c : ClassDecl) : List Body :=
  c.rules.map fun r => .condition r.condition (c.fields.map fun f => (f.name, f.type))

/-- The bodies with a chunk of their own: rules, routes and error handlers. -/
def Program.entries (p : Program) : List Body :=
  p.classes.flatMap ClassDecl.ruleBodies ++ p.routes.map .route ++ p.errors.map .errorHandler

/-! ## Compilation -/

/-- The state an emission ends in. -/
def compileBody (X : Emitter) (fuel : ℕ) (b : Body) (plantillas : List Plantilla) :
    Except Diagnostic EmitState :=
  (b.emit X fuel { plantillas := plantillas }).map Prod.snd

/-- What the emission of several bodies gives. -/
structure Emitted where
  chunks : List Chunk := []
  plantillas : List Plantilla := []
  notes : List Note := []

def compileAll (emitter : Body → Emitter) (fuel : ℕ) (plantillas : List Plantilla) :
    List Body → Except Diagnostic Emitted
  | [] => .ok { plantillas := plantillas }
  | b :: bs => do
    let s ← compileBody (emitter b) fuel b plantillas
    let rest ← compileAll emitter fuel s.plantillas bs
    return { rest with chunks := s.chunk :: rest.chunks, notes := s.notes ++ rest.notes }

/-- The scalar types, the only ones a field may have. -/
def isScalar (type : String) : Bool :=
  ["int", "long", "float", "double", "bool", "string"].contains type

def checkFields : List Field → Except Diagnostic Unit
  | [] => .ok ()
  | f :: fs =>
    if isScalar f.type then checkFields fs
    else .error ⟨f.loc, "el tipo '" ++ f.type ++ "' como campo todavia no esta " ++
      "implementado; de momento solo int, long, float, double, bool y string"⟩

/-- A compiled program.  Its chunks are in the order of `bodies`: first the table
    of functions, then the entries. -/
structure Module where
  bodies : List Body
  emitter : Body → Emitter
  chunks : List Chunk
  functionCount : ℕ
  plantillas : List Plantilla
  notes : List Note

/-- The table that `CallFunction` indexes. -/
def Module.functions (M : Module) : List Chunk := M.chunks.take M.functionCount

/-- `compile`, from the syntax trees on. -/
def compile (compilar : PlantillaCompiler) (fuel : ℕ) (p : Program) :
    Except Diagnostic Module := do
  let fns ← functionSigs 0 p.functions
  let cls ← classSigs p.functions.length p.classes
  checkFields (p.classes.flatMap (·.fields))
  let emitter := Body.emitter fns cls p.imports compilar
  let bodies := p.table ++ p.entries
  let out ← compileAll emitter fuel [] bodies
  return {
    bodies := bodies
    emitter := emitter
    chunks := out.chunks
    functionCount := p.table.length
    plantillas := out.plantillas
    notes := out.notes }

/-- A result that passes a test, such as a module that a program is compiled to. -/
theorem ok_of_any {ε α : Type} {r : Except ε α} {test : α → Bool}
    (h : r.toOption.any test = true) : ∃ a, r = .ok a ∧ test a = true := by
  cases r with
  | error e => cases h
  | ok a => exact ⟨a, rfl, h⟩

end Osodio.Odio
