import Osodio.Odio.Ast
import Osodio.Odio.Natives

/-!
# The emitter

The emitter turns a body into the code of a chunk.  It resolves names to slots,
and leaves jumps open until the block they leave is closed.  A diagnostic rejects
the whole program, so emission stops at the first one.

## Main definitions

- `Emitter` — what the emitter knows about the rest of the program
- `EmitState`, `Emit` — the state of an emission
- `resolveCall` — what a call refers to
- `emitExpr`, `emitStmt` — expressions and statements
- `emitRoute`, `emitFunction`, `emitMethod`, `emitCtor`, … — whole chunks
-/

namespace Osodio.Odio

/-! ## What the emitter knows -/

/-- What is needed to call a function: its index in the table of the module, and
    the default value of each parameter. -/
structure FnSig where
  index : ℕ
  required : ℕ
  defaults : List (Option Expr)

abbrev FunctionSigs := List (String × FnSig)

/-- What is needed to construct a class and to call its methods. -/
structure ClassSig where
  methods : List (String × FnSig) := []
  /-- From the number of parameters to the index. -/
  ctors : List (ℕ × ℕ) := []
  fields : List String := []

abbrev ClassSigs := List (String × ClassSig)

/-- `compilar_plantilla`: reads the file of a template and compiles it against
    the names that a call gives it, each with its type. -/
abbrev PlantillaCompiler := String → List (String × String) → Except String Plantilla

/-- The context of an emission.  A table that is missing holds nothing. -/
structure Emitter where
  functions : Option FunctionSigs := none
  classes : Option ClassSigs := none
  imports : Option (List String) := none
  plantillas : Option PlantillaCompiler := none
  routeMethod : String := ""

/-! ## The state of an emission -/

/-- The name of a slot.  Those that the emitter makes up have a space in the
    source, which no identifier contains. -/
inductive LocalName where
  | user (name : String)
  | aux (name : String)
  deriving DecidableEq, Repr

structure Local where
  name : LocalName
  depth : ℕ
  type : String := ""
  deriving DecidableEq, Repr

/-- The jumps out of the loop in course that are still open. -/
structure LoopCtx where
  breaks : List ℕ := []
  continues : List ℕ := []

/-- What an emission did that the statements about it restrict.  The source does
    not record it. -/
inductive Note where
  /-- A call passes this many operands, its receiver included. -/
  | operands (n : ℕ)
  /-- A default value was filled in for an argument. -/
  | defaulted
  /-- A positional argument of `render` was given and not emitted. -/
  | dropped
  /-- A native that suspends is called as if it did not. -/
  | unawaited
  deriving DecidableEq, Repr

structure Diagnostic where
  loc : SourceLoc
  message : String
  deriving DecidableEq, Repr

/-- The state of an emission.  The newest local and the innermost loop come first. -/
structure EmitState where
  chunk : Chunk := {}
  locals : List Local := []
  scopeDepth : ℕ := 0
  loops : List LoopCtx := []
  plantillas : List Plantilla := []
  notes : List Note := []

abbrev Emit := StateT EmitState (Except Diagnostic)

/-- `error`. -/
def Emit.error {α : Type} (loc : SourceLoc) (message : String) : Emit α :=
  fun _ => .error ⟨loc, message⟩

/-- `chunk_->emit`, which gives the position of the instruction. -/
def emit (op : Op) (loc : SourceLoc) (operand : ℕ := 0) : Emit ℕ := fun s =>
  .ok (s.chunk.code.length,
    { s with chunk := { s.chunk with code := s.chunk.code ++ [⟨op, operand, loc⟩] } })

/-- `chunk_->here()`. -/
def here : Emit ℕ := fun s => .ok (s.chunk.code.length, s)

/-- The code with the jump at `pos` set to go to `target`. -/
def patchCode (code : List Instr) (pos target : ℕ) : List Instr :=
  code.modify pos fun i => { i with operand := target }

/-- `chunk_->patch`. -/
def patch (pos target : ℕ) : Emit Unit := fun s =>
  .ok ((), { s with chunk := { s.chunk with code := patchCode s.chunk.code pos target } })

/-- `for (size_t j : …) chunk_->patch(j, target)`. -/
def patchAll (positions : List ℕ) (target : ℕ) : Emit Unit := fun s =>
  .ok ((), { s with chunk := { s.chunk with
    code := positions.foldl (fun code pos => patchCode code pos target) s.chunk.code } })

/-- `chunk_->add_constant`. -/
def addConstant (v : Value) : Emit ℕ := fun s =>
  .ok (s.chunk.constants.length,
    { s with chunk := { s.chunk with constants := s.chunk.constants ++ [v] } })

/-- Pushes a constant. -/
def emitConst (v : Value) (loc : SourceLoc) : Emit Unit := do
  let k ← addConstant v
  let _ ← emit .const loc k

def addTryRange (r : TryRange) : Emit Unit := fun s =>
  .ok ((), { s with chunk := { s.chunk with tryRanges := s.chunk.tryRanges ++ [r] } })

def setHasAwait : Emit Unit := fun s =>
  .ok ((), { s with chunk := { s.chunk with hasAwait := true } })

/-- `push_back` on the table of templates; no vector holds 2^63 elements. -/
def addPlantilla (p : Plantilla) : Emit ℕ := fun s =>
  if 2 ^ 63 ≤ s.plantillas.length + 1 then .error ⟨{}, "vector::_M_realloc_append"⟩
  else .ok (s.plantillas.length, { s with plantillas := s.plantillas ++ [p] })

def note (n : Note) : Emit Unit := fun s => .ok ((), { s with notes := s.notes ++ [n] })

/-! ## Locals -/

/-- The slot and the type of the newest local with a name. -/
def findLocal (name : LocalName) : List Local → Option (ℕ × String)
  | [] => none
  | l :: rest => if l.name = name then some (rest.length, l.type) else findLocal name rest

/-- `resolve_local`. -/
def resolveLocal (locals : List Local) (name : String) : Option ℕ :=
  (findLocal (.user name) locals).map Prod.fst

/-- `local_type`: empty for a name that is not declared. -/
def localType (locals : List Local) (name : String) : String :=
  ((findLocal (.user name) locals).map Prod.snd).getD ""

def getLocals : Emit (List Local) := fun s => .ok (s.locals, s)

/-- A name is declared again in the same scope. -/
def declaredInScope (name : LocalName) (depth : ℕ) (locals : List Local) : Bool :=
  (locals.takeWhile fun l => decide (depth ≤ l.depth)).any fun l => l.name = name

def LocalName.text : LocalName → String
  | user name => name
  | aux name => " " ++ name

/-- `declare_local`, which gives the slot. -/
def declareLocal (name : LocalName) (loc : SourceLoc) (type : String := "") : Emit ℕ := fun s =>
  if declaredInScope name s.scopeDepth s.locals then
    .error ⟨loc, "'" ++ name.text ++ "' ya esta declarada en este ambito"⟩
  else
    .ok (s.locals.length, { s with
      locals := ⟨name, s.scopeDepth, type⟩ :: s.locals
      chunk := { s.chunk with numLocals := max s.chunk.numLocals (s.locals.length + 1) } })

def beginScope : Emit Unit := fun s => .ok ((), { s with scopeDepth := s.scopeDepth + 1 })

def endScope : Emit Unit := fun s =>
  .ok ((), { s with
    scopeDepth := s.scopeDepth - 1
    locals := s.locals.dropWhile fun l => decide (s.scopeDepth - 1 < l.depth) })

/-! ## Loops -/

def pushLoop : Emit Unit := fun s => .ok ((), { s with loops := {} :: s.loops })

/-- `loops_.back()`. -/
def currentLoop : Emit (Option LoopCtx) := fun s => .ok (s.loops.head?, s)

def popLoop : Emit Unit := fun s => .ok ((), { s with loops := s.loops.tail })

def addBreak (pos : ℕ) : Emit Unit := fun s =>
  .ok ((), { s with loops := s.loops.modifyHead fun l => { l with breaks := l.breaks ++ [pos] } })

def addContinue (pos : ℕ) : Emit Unit := fun s =>
  .ok ((), { s with loops :=
    s.loops.modifyHead fun l => { l with continues := l.continues ++ [pos] } })

/-! ## Static types -/

/-- `es_int`. -/
def esInt (locals : List Local) : Expr → Bool
  | .intLit _ _ => true
  | .ident _ name => localType locals name == "int"
  | .binary _ op lhs rhs =>
    match op with
    | .add | .sub | .mul => esInt locals lhs && esInt locals rhs
    | _ => false
  | _ => false

/-- `tipo_de`: what is evident, or nothing. -/
def tipoDe (locals : List Local) : Expr → String
  | .stringLit _ _ => "string"
  | .intLit _ _ => "int"
  | .floatLit _ _ => "float"
  | .boolLit _ _ => "bool"
  | .ident _ name => localType locals name
  | .this _ => localType locals "this"
  | .call _ (.member _ recv name) _ _ =>
    let tipo := tipoDe locals recv
    match (metodosDe tipo).bind fun lista => lista.find? (·.nombre == name) with
    | some m => m.devuelve.getD tipo
    | none => ""
  | _ => ""

/-- `comprobar_campo`: a field on a receiver whose type is known. -/
def comprobarCampo (X : Emitter) (locals : List Local) (objeto : Expr) (campo : String)
    (loc : SourceLoc) : Except Diagnostic Unit :=
  let tr := tipoDe locals objeto
  if tr = "" then .ok ()
  else
    match (X.classes.getD []).lookup tr with
    | some cls =>
      if cls.fields.contains campo then .ok ()
      else if (cls.methods.lookup campo).isSome then
        .error ⟨loc, "'" ++ tr ++ "." ++ campo ++ "' es un metodo: hay que llamarlo con ()"⟩
      else
        let hay := ", ".intercalate cls.fields
        .error ⟨loc, "'" ++ tr ++ "' no tiene un campo '" ++ campo ++ "'" ++
          (if hay = "" then "" else "; tiene " ++ hay)⟩
    | none =>
      if (metodosDe tr).isSome && tr != "Dict" then
        .error ⟨loc, "'" ++ campo ++ "' sobre " ++ tr ++ ", que no tiene campos"⟩
      else .ok ()

/-- `comprobar_metodo_builtin`: a method against the closed list of its receiver. -/
def comprobarMetodoBuiltin (locals : List Local) (loc memberLoc : SourceLoc) (recv : Expr)
    (metodo : String) (args named : ℕ) : Except Diagnostic Unit :=
  match metodosDe (tipoDe locals recv) with
  | none => .ok ()
  | some lista =>
    match lista.find? (·.nombre == metodo) with
    | none =>
      .error ⟨memberLoc, "los valores de tipo " ++ tipoDe locals recv ++
        " no tienen el metodo '" ++ metodo ++ "'; tienen " ++
        ", ".intercalate (lista.map (·.nombre))⟩
    | some m =>
      let argc := if named = 0 then args else args + 1
      if argc < m.minArgs ∨ m.maxArgs < argc then
        .error ⟨loc, "'" ++ metodo ++ "()' espera " ++ toString m.minArgs ++
          (if m.maxArgs = m.minArgs then "" else "-" ++ toString m.maxArgs) ++
          " argumento(s), pero recibe " ++ toString argc⟩
      else .ok ()

/-! ## What a call refers to -/

/-- The target of a call. -/
inductive Callee where
  /-- A builtin, or a member of a reserved object. -/
  | native (id : ℕ) (name : String)
  /-- An operation of a database module, whose name is the first argument. -/
  | modulo (id : ℕ) (obj member : String)
  | function (name : String) (sig : FnSig)
  | ctor (name : String) (sig : ClassSig)
  | method (recvType name : String) (sig : FnSig)
  /-- A method that is found when the call is executed. -/
  | dynamic (name : String)

/-- The object reserved for some routes is used in another one. -/
def comprobarObjeto (X : Emitter) (obj : String) (loc : SourceLoc) : Except Diagnostic Unit :=
  if (obj = "sse" ∧ X.routeMethod ≠ "SSE") ∨ (obj = "ws" ∧ X.routeMethod ≠ "WS") then
    .error ⟨loc, "'" ++ obj ++ "' solo existe dentro de una ruta " ++ obj⟩
  else if obj = "error" ∧ X.routeMethod ≠ "ERROR" then
    .error ⟨loc, "'error' solo existe dentro de un 'on error'"⟩
  else .ok ()

/-- The object of a reserved member, unless a local hides it. -/
def reservedObject (locals : List Local) : Expr → Option String
  | .ident _ obj =>
    if (resolveLocal locals obj).isNone && isReservedObject obj then some obj else none
  | _ => none

/-- The class of a receiver whose declared type is one. -/
def receiverClass (X : Emitter) (locals : List Local) (recv : Expr) :
    Option (String × ClassSig) :=
  let recvType :=
    match recv with
    | .ident _ name => localType locals name
    | .this _ => localType locals "this"
    | _ => ""
  if recvType = "" then none
  else ((X.classes.getD []).lookup recvType).map (recvType, ·)

/-- The first half of `emit_call`: what `object(…)` calls, or why it cannot. -/
def resolveCall (X : Emitter) (locals : List Local) (loc : SourceLoc) (object : Expr)
    (args named : ℕ) (awaited : Bool) : Except Diagnostic Callee :=
  match object with
  | .member mloc recv name =>
    match reservedObject locals recv with
    | some obj =>
      match memberNativeId obj name with
      | none => .error ⟨mloc, "'" ++ obj ++ "' no tiene un miembro '" ++ name ++ "'"⟩
      | some id =>
        if isDbModule obj then
          if !(X.imports.getD []).contains obj then
            .error ⟨mloc, "falta 'import " ++ obj ++ "' para poder usar '" ++ obj ++ "." ++
              name ++ "'"⟩
          else if !awaited then
            .error ⟨loc, "'" ++ obj ++ "." ++ name ++ "()' es asincrono: hay que escribir " ++
              "'await " ++ obj ++ "." ++ name ++ "(...)'"⟩
          else .ok (.modulo id obj name)
        else do
          comprobarObjeto X obj mloc
          return .native id (obj ++ "." ++ name)
    | none =>
      match receiverClass X locals recv with
      | some (recvType, cls) =>
        match cls.methods.lookup name with
        | some sig => .ok (.method recvType name sig)
        | none =>
          if !cls.fields.isEmpty && !cls.fields.contains name then
            .error ⟨mloc, "'" ++ recvType ++ "' no tiene un metodo '" ++ name ++ "'"⟩
          else do
            comprobarMetodoBuiltin locals loc mloc recv name args named
            return .dynamic name
      | none => do
        comprobarMetodoBuiltin locals loc mloc recv name args named
        return .dynamic name
  | .ident iloc name =>
    match nativeId name with
    | some id => .ok (.native id name)
    | none =>
      match (X.functions.getD []).lookup name with
      | some sig => .ok (.function name sig)
      | none =>
        match (X.classes.getD []).lookup name with
        | some sig => .ok (.ctor name sig)
        | none => .error ⟨iloc, "funcion desconocida: '" ++ name ++ "'"⟩
  | _ => .error ⟨loc, "de momento solo se pueden llamar builtins o metodos"⟩

/-- Only a native that suspends is awaited. -/
def comprobarAwait (id : ℕ) (name : String) (loc : SourceLoc) (awaited : Bool) :
    Except Diagnostic Unit :=
  if (nativeAt id).isAsync && !awaited then
    .error ⟨loc, "'" ++ name ++ "()' es asincrono: hay que escribir 'await " ++ name ++ "(...)'"⟩
  else if !(nativeAt id).isAsync && awaited then
    .error ⟨loc, "'" ++ name ++ "()' no es asincrono: sobra el 'await'"⟩
  else .ok ()

def hasDotDot : List Char → Bool
  | '.' :: '.' :: _ => true
  | _ :: rest => hasDotDot rest
  | [] => false

/-- The name of a template stays below the directory of the templates. -/
def nombreValido (nombre : String) : Bool :=
  !hasDotDot nombre.toList && !nombre.startsWith "/"

/-! ## Calls

The emission of the parts of a call is passed in: `recv` for its receiver, `args`
and `named` for its arguments, `dflt` for a default value. -/

def Emit.lift {α : Type} (r : Except Diagnostic α) : Emit α := fun s => r.map (·, s)

/-- The arguments that are not written take their default values.  All of them
    have one, as a signature puts the parameters without a default value first. -/
def emitDefaults (loc : SourceLoc) (dflt : Expr → Emit Unit) : List (Option Expr) → Emit Unit
  | [] => pure ()
  | some e :: rest => do
    dflt e
    emitDefaults loc dflt rest
  | none :: _ => Emit.error loc ""

/-- `CallFunction`. -/
def emitCallFunction (loc : SourceLoc) (index argc : ℕ) : Emit Unit := do
  note (.operands argc)
  let _ ← emit .callFunction loc (callOperand index argc)

/-- The arguments of a user function or of a method, with the missing ones. -/
def emitFnArgs (loc : SourceLoc) (name : String) (espera : String) (sig : FnSig) (given : ℕ)
    (args : Emit Unit) (dflt : Expr → Emit Unit) : Emit Unit := do
  args
  if given < sig.required ∨ sig.defaults.length < given then
    Emit.error loc ("'" ++ name ++ "()' espera " ++ espera ++ " argumento(s), pero recibe " ++
      toString given)
  if given < sig.defaults.length then note .defaulted
  emitDefaults loc dflt (sig.defaults.drop given)

/-- The named arguments of a call, grouped in a dictionary. -/
def emitNamedDict (loc : SourceLoc) (count : ℕ) (named : Emit Unit) : Emit Unit := do
  named
  let _ ← emit .makeDict loc count

/-- `emit_method_call_dynamic`. -/
def emitMethodCallDynamic (loc : SourceLoc) (name : String) (given namedCount : ℕ)
    (recv args named : Emit Unit) : Emit Unit := do
  recv
  args
  if 0 < namedCount then emitNamedDict loc namedCount named
  let argc := if 0 < namedCount then given + 1 else given
  if 255 < argc then Emit.error loc "demasiados argumentos"
  note (.operands (argc + 1))
  let k ← addConstant (.str name)
  let _ ← emit .callMethod loc (callOperand k argc)

/-- `emitir_render_compilado`: compiles the template now, and emits a call of
    `__render_tpl` with its index and the named arguments. -/
def emitirRenderCompilado (compilar : PlantillaCompiler) (loc nombreLoc : SourceLoc)
    (nombre : String) (claves : List (String × String)) (named : Emit Unit) : Emit Unit := do
  if !nombreValido nombre then
    Emit.error nombreLoc ("nombre de plantilla no valido: '" ++ nombre ++ "'")
  match compilar nombre claves with
  | .error message => Emit.error nombreLoc message
  | .ok p =>
    let idx ← addPlantilla p
    emitConst (.int (Int64.ofNat idx)) loc
    emitNamedDict loc claves.length named
    let _ ← emit .callNative loc (callOperand renderTplId 2)

/-- A builtin, or a member of a reserved object. -/
def emitNativeCall (X : Emitter) (loc : SourceLoc) (id : ℕ) (name : String)
    (positional : List Expr) (keys : List (String × SourceLoc × Expr)) (awaited : Bool)
    (args named : Emit Unit) : Emit Unit := do
  let locals ← getLocals
  Emit.lift (comprobarAwait id name loc awaited)
  if !keys.isEmpty && name != "render" then
    Emit.error loc ("'" ++ name ++ "()' no admite argumentos con nombre")
  if name = "render" then
    match positional with
    | .stringLit nombreLoc nombre :: extra =>
      match X.plantillas with
      | none => Emit.error loc "render() no se puede usar aqui"
      | some compilar =>
        if !extra.isEmpty then note .dropped
        emitirRenderCompilado compilar loc nombreLoc nombre
          (keys.map fun k => (k.1, tipoDe locals k.2.2)) named
    | _ => Emit.error loc ("render() necesita el nombre de la plantilla escrito, no una " ++
        "variable. Para elegir entre varias, usa un if con nombres " ++
        "literales: cada rama queda comprobada al compilar")
  else
    args
    let argc := positional.length
    let d := nativeAt id
    if argc < d.minArgs ∨ d.maxArgs.any (· < argc) then
      Emit.error loc ("'" ++ name ++ "()' espera " ++ toString d.minArgs ++
        (if d.maxArgs = some d.minArgs then ""
          else match d.maxArgs with
            | none => " o mas"
            | some n => "-" ++ toString n) ++
        " argumento(s), pero recibe " ++ toString argc)
    if 255 < argc then Emit.error loc "demasiados argumentos"
    if d.isAsync then setHasAwait
    note (.operands argc)
    let _ ← emit (if d.isAsync then .callAsync else .callNative) loc (callOperand id argc)

/-- An operation of a database module. -/
def emitModuleCall (loc : SourceLoc) (id : ℕ) (obj member : String) (given : ℕ)
    (keys : List (String × SourceLoc × Expr)) (args : Emit Unit) : Emit Unit := do
  emitConst (.str obj) loc
  args
  if let (_, kloc, _) :: _ := keys then
    Emit.error kloc "las consultas no admiten argumentos con nombre"
  let argc := given + 1
  let d := nativeAt id
  if argc < d.minArgs then
    Emit.error loc ("'" ++ obj ++ "." ++ member ++ "()' espera al menos la consulta SQL")
  if d.maxArgs.any (· < argc) then
    Emit.error loc ("'" ++ obj ++ "." ++ member ++ "()' no lleva argumentos")
  if 255 < argc then Emit.error loc "demasiados argumentos"
  setHasAwait
  note (.operands argc)
  let _ ← emit .callAsync loc (callOperand id argc)

/-- `emit_call`. -/
def emitCall (X : Emitter) (loc : SourceLoc) (object : Expr) (positional : List Expr)
    (keys : List (String × SourceLoc × Expr)) (awaited : Bool)
    (recv args named : Emit Unit) (dflt : Expr → Emit Unit) : Emit Unit := do
  let locals ← getLocals
  match ← Emit.lift
      (resolveCall X locals loc object positional.length keys.length awaited) with
  | .modulo id obj member => emitModuleCall loc id obj member positional.length keys args
  | .native id name => emitNativeCall X loc id name positional keys awaited args named
  | .function name sig =>
    let espera := toString sig.required ++
      (if sig.defaults.length = sig.required then "" else " a " ++ toString sig.defaults.length)
    emitFnArgs loc name espera sig positional.length (do
      args
      if let (_, kloc, _) :: _ := keys then
        Emit.error kloc "una funcion de usuario no admite argumentos con nombre") dflt
    if 255 < sig.defaults.length then Emit.error loc "demasiados argumentos"
    emitCallFunction loc sig.index sig.defaults.length
  | .ctor name sig =>
    args
    if let (_, kloc, _) :: _ := keys then
      Emit.error kloc "un constructor no admite argumentos con nombre"
    match sig.ctors.lookup positional.length with
    | none =>
      let opciones := ", ".intercalate (sig.ctors.map fun c => toString c.1)
      Emit.error loc ("'" ++ name ++ "' no tiene constructor de " ++
        toString positional.length ++ " parametro(s)" ++
        (if opciones = "" then "" else "; los hay de " ++ opciones))
    | some index => emitCallFunction loc index positional.length
  | .method recvType name sig =>
    recv
    emitFnArgs loc (recvType ++ "." ++ name) (toString sig.required) sig positional.length (do
      args
      if let (_, kloc, _) :: _ := keys then
        Emit.error kloc "un metodo no admite argumentos con nombre") dflt
    emitCallFunction loc sig.index (sig.defaults.length + 1)
  | .dynamic name =>
    emitMethodCallDynamic loc name positional.length keys.length recv args named

/-! ## Expressions -/

/-- A local that has to exist. -/
def emitLoad (name : String) (loc : SourceLoc) (missing : String) : Emit Unit := do
  match resolveLocal (← getLocals) name with
  | some slot => let _ ← emit .loadLocal loc slot
  | none => Emit.error loc missing

/-- A member read as a value: a field of the session, a member of a reserved
    object, or a field of a dictionary. -/
def emitMember (X : Emitter) (loc : SourceLoc) (object : Expr) (name : String)
    (obj : Emit Unit) : Emit Unit := do
  let locals ← getLocals
  let reserved := reservedObject locals object
  if reserved = some "session" ∧ memberNativeId "session" name = none then
    emitConst (.str name) loc
    let _ ← emit .callNative loc (callOperand sessionGetId 1)
  else
    match reserved with
    | some o =>
      match memberNativeId o name with
      | none => Emit.error loc ("'" ++ o ++ "' no tiene un miembro '" ++ name ++ "'")
      | some id =>
        if 0 < (nativeAt id).minArgs then
          Emit.error loc ("'" ++ o ++ "." ++ name ++
            "' es una operacion: hay que llamarla con ()")
        Emit.lift (comprobarObjeto X o loc)
        if (nativeAt id).isAsync then note .unawaited
        let _ ← emit .callNative loc (callOperand id 0)
    | none =>
      Emit.lift (comprobarCampo X locals object name loc)
      obj
      let k ← addConstant (.str name)
      let _ ← emit .getMember loc k

def StepOp.op : StepOp → Op
  | .inc => .add
  | .dec => .sub

/-- The operation of an operator, specialised when both sides are known to be
    integers. -/
def binaryOp (ints : Bool) : BinOp → Op
  | .add => if ints then .addInt else .add
  | .sub => if ints then .subInt else .sub
  | .mul => if ints then .mulInt else .mul
  | .div => .div
  | .mod => .mod
  | .eq => .eq
  | .ne => .ne
  | .lt => if ints then .ltInt else .lt
  | .le => if ints then .leInt else .le
  | .gt => if ints then .gtInt else .gt
  | .ge => if ints then .geInt else .ge

/-- A local of the emitter that takes the value on top of the stack. -/
def emitAux (name : String) (loc : SourceLoc) : Emit ℕ := do
  let slot ← declareLocal (.aux name) loc
  let _ ← emit .storeLocal loc slot
  return slot

/-- `++` and `--` on a variable. -/
def emitStepLocal (loc : SourceLoc) (kind : StepKind) (op : StepOp) (slot : ℕ) : Emit Unit := do
  if kind = .post then let _ ← emit .loadLocal loc slot
  let _ ← emit .loadLocal loc slot
  emitConst (.int 1) loc
  let _ ← emit op.op loc
  let _ ← emit .storeLocal loc slot
  if kind = .pre then let _ ← emit .loadLocal loc slot

/-- After `SetMember` or `SetIndex`, which leave the new value. -/
def emitStepResult (loc : SourceLoc) (kind : StepKind) (prev : ℕ) : Emit Unit := do
  if kind = .post then
    let _ ← emit .pop loc
    let _ ← emit .loadLocal loc prev

/-- `++` and `--` on a field: the receiver is evaluated once. -/
def emitStepMember (loc : SourceLoc) (kind : StepKind) (op : StepOp) (name : String)
    (object : Emit Unit) : Emit Unit := do
  beginScope
  let k ← addConstant (.str name)
  object
  let obj ← emitAux "recep" loc
  let _ ← emit .loadLocal loc obj
  let _ ← emit .getMember loc k
  let prev ← emitAux "previo" loc
  let _ ← emit .loadLocal loc obj
  let _ ← emit .loadLocal loc prev
  emitConst (.int 1) loc
  let _ ← emit op.op loc
  let _ ← emit .setMember loc k
  emitStepResult loc kind prev
  endScope

/-- `++` and `--` on an element: the container and the index are evaluated once. -/
def emitStepIndex (loc : SourceLoc) (kind : StepKind) (op : StepOp)
    (object index : Emit Unit) : Emit Unit := do
  beginScope
  object
  let cont ← emitAux "contened" loc
  index
  let idx ← emitAux "indice" loc
  let _ ← emit .loadLocal loc cont
  let _ ← emit .loadLocal loc idx
  let _ ← emit .getIndex loc
  let prev ← emitAux "previo" loc
  let _ ← emit .loadLocal loc cont
  let _ ← emit .loadLocal loc idx
  let _ ← emit .loadLocal loc prev
  emitConst (.int 1) loc
  let _ ← emit op.op loc
  let _ ← emit .setIndex loc
  emitStepResult loc kind prev
  endScope

mutual

/-- `emit_expr`, with the emission of the default values of the callees. -/
def emitExprWith (X : Emitter) (dflt : Expr → Emit Unit) : Expr → Emit Unit
  | .stringLit loc text => emitConst (.str text) loc
  | .intLit loc value => emitConst (.int value) loc
  | .floatLit loc value => emitConst (.float value) loc
  | .boolLit loc value => emitConst (.bool value) loc
  | .nullLit loc => emitConst .null loc
  | .ident loc text =>
    emitLoad text loc (if (nativeId text).isSome then
      "'" ++ text ++ "' es un builtin: hay que llamarlo, no usarlo como valor"
      else "'" ++ text ++ "' no esta declarada")
  | .this loc => emitLoad "this" loc "'this' solo existe dentro de un metodo o un constructor"
  | .unary loc op lhs => do
    emitExprWith X dflt lhs
    let _ ← emit (if op = .not then .not else .neg) loc
  | .logical loc op lhs rhs => do
    emitExprWith X dflt lhs
    let j ← emit (if op = .and then .jumpIfFalsePeek else .jumpIfTruePeek) loc
    emitExprWith X dflt rhs
    patch j (← here)
  | .binary loc op lhs rhs => do
    emitExprWith X dflt lhs
    emitExprWith X dflt rhs
    let locals ← getLocals
    let _ ← emit (binaryOp (esInt locals lhs && esInt locals rhs) op) loc
  | .ternary loc cond lhs rhs => do
    emitExprWith X dflt cond
    let toElse ← emit .jumpIfFalse loc
    emitExprWith X dflt lhs
    let toEnd ← emit .jump loc
    patch toElse (← here)
    emitExprWith X dflt rhs
    patch toEnd (← here)
  | .listLit loc items => do
    emitExprsWith X dflt items
    let _ ← emit .makeList loc items.length
  | .dictLit loc entries => do
    emitEntriesWith X dflt entries
    let _ ← emit .makeDict loc entries.length
  | .index loc object idx => do
    emitExprWith X dflt object
    emitExprWith X dflt idx
    let _ ← emit .getIndex loc
  | .member loc object text => emitMember X loc object text (emitExprWith X dflt object)
  | .call loc object args named =>
    emitCall X loc object args named false
      (match object with
        | .member _ recv _ => emitExprWith X dflt recv
        | _ => pure ())
      (emitExprsWith X dflt args) (emitNamedWith X dflt named) dflt
  | .await _ (.call loc object args named) =>
    emitCall X loc object args named true
      (match object with
        | .member _ recv _ => emitExprWith X dflt recv
        | _ => pure ())
      (emitExprsWith X dflt args) (emitNamedWith X dflt named) dflt
  | .await loc _ =>
    Emit.error loc "'await' solo se aplica a una llamada asincrona (de momento: sleep)"
  | .step loc kind op (.ident tloc name) => do
    match resolveLocal (← getLocals) name with
    | some slot => emitStepLocal loc kind op slot
    | none => Emit.error tloc ("'" ++ name ++ "' no esta declarada")
  | .step loc kind op (.member _ object name) =>
    emitStepMember loc kind op name (emitExprWith X dflt object)
  | .step loc kind op (.index _ object idx) =>
    emitStepIndex loc kind op (emitExprWith X dflt object) (emitExprWith X dflt idx)
  | .step loc _ _ _ =>
    Emit.error loc "'++' y '--' solo se aplican a una variable, un campo o un elemento indexado"
  termination_by structural e => e

def emitExprsWith (X : Emitter) (dflt : Expr → Emit Unit) : List Expr → Emit Unit
  | [] => pure ()
  | e :: es => do
    emitExprWith X dflt e
    emitExprsWith X dflt es
  termination_by structural es => es

def emitEntriesWith (X : Emitter) (dflt : Expr → Emit Unit) : List (Expr × Expr) → Emit Unit
  | [] => pure ()
  | (key, value) :: es => do
    emitExprWith X dflt key
    emitExprWith X dflt value
    emitEntriesWith X dflt es
  termination_by structural es => es

def emitNamedWith (X : Emitter) (dflt : Expr → Emit Unit) :
    List (String × SourceLoc × Expr) → Emit Unit
  | [] => pure ()
  | (name, loc, value) :: es => do
    emitConst (.str name) loc
    emitExprWith X dflt value
    emitNamedWith X dflt es
  termination_by structural es => es

end

/-- `emit_expr`.  The default values of a callee may call functions with default
    values in turn; `fuel` bounds how deep they nest, which the source does not. -/
def emitExpr (X : Emitter) : ℕ → Expr → Emit Unit
  | 0 => fun e => Emit.error e.loc ""
  | fuel + 1 => emitExprWith X (emitExpr X fuel)

/-! ## Statements -/

/-- `target = value`. -/
def emitAssign (X : Emitter) (loc : SourceLoc) (target value : Expr)
    (expr : Expr → Emit Unit) : Emit Unit := do
  let locals ← getLocals
  match target with
  | .member _ object name =>
    if reservedObject locals object = some "session" then
      emitConst (.str name) loc
      expr value
      let _ ← emit .callNative loc (callOperand sessionSetId 2)
      let _ ← emit .pop loc
    else
      Emit.lift (comprobarCampo X locals object name loc)
      expr object
      expr value
      let k ← addConstant (.str name)
      let _ ← emit .setMember loc k
      let _ ← emit .pop loc
  | .index _ object idx =>
    expr object
    expr idx
    expr value
    let _ ← emit .setIndex loc
    let _ ← emit .pop loc
  | .ident tloc name =>
    match resolveLocal locals name with
    | none => Emit.error tloc ("'" ++ name ++ "' no esta declarada")
    | some slot =>
      expr value
      let _ ← emit .storeLocal loc slot
  | _ => Emit.error loc "solo se puede asignar a una variable o a un campo"

/-- `if not cond: return otherwise`, of `require` and of the guards of a group. -/
def emitRequire (loc : SourceLoc) (cond otherwise : Emit Unit) : Emit Unit := do
  cond
  let toOk ← emit .jumpIfFalse loc
  let skip ← emit .jump loc
  patch toOk (← here)
  otherwise
  let _ ← emit .ret loc
  patch skip (← here)

/-- The header of a `for`: the items, their count and the index take slots of
    their own, and the variable another one.  Gives those four slots. -/
def emitForHeader (loc : SourceLoc) (type name : String) (target : Emit Unit) :
    Emit (ℕ × ℕ × ℕ × ℕ) := do
  target
  let _ ← emit .iterList loc
  let items ← emitAux "items" loc
  let _ ← emit .loadLocal loc items
  let _ ← emit .callNative loc (callOperand lenId 1)
  let count ← emitAux "count" loc
  emitConst (.int 0) loc
  let index ← emitAux "index" loc
  let var ← declareLocal (.user name) loc type
  return (items, count, index, var)

/-- The slot of the variable of a `catch`, or the error is discarded. -/
def emitCatchVar (loc : SourceLoc) : Option String → Emit Unit
  | some name => do
    let slot ← declareLocal (.user name) loc
    let _ ← emit .storeLocal loc slot
  | none => do
    let _ ← emit .pop loc

mutual

/-- `emit_stmt`, with the emission of expressions. -/
def emitStmt (X : Emitter) (expr : Expr → Emit Unit) : Stmt → Emit Unit
  | .returnStmt loc (some value) => do
    expr value
    let _ ← emit .ret loc
  | .returnStmt loc none => do
    let _ ← emit .retNull loc
  | .exprStmt loc value => do
    expr value
    let _ ← emit .pop loc
  | .varDecl loc type name value => do
    match value with
    | some e => expr e
    | none => emitConst .null loc
    let slot ← declareLocal (.user name) loc type
    let _ ← emit .storeLocal loc slot
  | .assign loc target value => emitAssign X loc target value expr
  | .ifStmt loc cond body orelse => do
    expr cond
    let toElse ← emit .jumpIfFalse loc
    beginScope
    emitStmts X expr body
    endScope
    if orelse.isEmpty then
      patch toElse (← here)
    else
      let toEnd ← emit .jump loc
      patch toElse (← here)
      beginScope
      emitStmts X expr orelse
      endScope
      patch toEnd (← here)
  | .whileStmt loc cond body => do
    let start ← here
    expr cond
    let toEnd ← emit .jumpIfFalse loc
    pushLoop
    beginScope
    emitStmts X expr body
    endScope
    let loop ← currentLoop
    -- in a `while`, `continue` evaluates the condition again
    patchAll ((loop.map (·.continues)).getD []) start
    let _ ← emit .jump loc start
    patch toEnd (← here)
    patchAll ((loop.map (·.breaks)).getD []) (← here)
    popLoop
  | .requireStmt loc cond otherwise => emitRequire loc (expr cond) (expr otherwise)
  | .breakStmt loc => do
    if (← currentLoop).isNone then Emit.error loc "'break' fuera de un bucle"
    addBreak (← emit .jump loc)
  | .continueStmt loc => do
    if (← currentLoop).isNone then Emit.error loc "'continue' fuera de un bucle"
    addContinue (← emit .jump loc)
  | .forStmt loc type name target body => do
    beginScope
    let (items, count, index, var) ← emitForHeader loc type name (expr target)
    let start ← here
    let _ ← emit .loadLocal loc index
    let _ ← emit .loadLocal loc count
    let _ ← emit .lt loc
    let toEnd ← emit .jumpIfFalse loc
    let _ ← emit .loadLocal loc items
    let _ ← emit .loadLocal loc index
    let _ ← emit .getIndex loc
    let _ ← emit .storeLocal loc var
    pushLoop
    beginScope
    emitStmts X expr body
    endScope
    let loop ← currentLoop
    -- `continue` goes to the increment: otherwise the loop would not advance
    patchAll ((loop.map (·.continues)).getD []) (← here)
    let _ ← emit .loadLocal loc index
    emitConst (.int 1) loc
    let _ ← emit .add loc
    let _ ← emit .storeLocal loc index
    let _ ← emit .jump loc start
    patch toEnd (← here)
    patchAll ((loop.map (·.breaks)).getD []) (← here)
    popLoop
    endScope
  | .tryStmt loc body name orelse => do
    let first ← here
    beginScope
    emitStmts X expr body
    endScope
    let stop ← here
    let toEnd ← emit .jump loc
    addTryRange ⟨first, stop, ← here⟩
    beginScope
    emitCatchVar loc name
    emitStmts X expr orelse
    endScope
    patch toEnd (← here)
  termination_by structural s => s

def emitStmts (X : Emitter) (expr : Expr → Emit Unit) : List Stmt → Emit Unit
  | [] => pure ()
  | s :: ss => do
    emitStmt X expr s
    emitStmts X expr ss
  termination_by structural ss => ss

end

/-- `emit_block`. -/
def emitBlock (X : Emitter) (expr : Expr → Emit Unit) (body : Block) : Emit Unit := do
  beginScope
  emitStmts X expr body
  endScope

/-! ## Chunks -/

def declareParams : List Param → Emit Unit
  | [] => pure ()
  | p :: ps => do
    let _ ← declareLocal (.user p.name) p.loc p.type
    declareParams ps

def emitGuards (expr : Expr → Emit Unit) : List Guard → Emit Unit
  | [] => pure ()
  | g :: gs => do
    emitRequire g.loc (expr g.condition) (expr g.otherwise)
    emitGuards expr gs

/-- `emit_route`: the guards of the groups come before the body. -/
def emitRoute (X : Emitter) (fuel : ℕ) (route : RouteDecl) : Emit Unit := do
  declareParams route.params
  emitGuards (emitExpr X fuel) route.guards
  emitBlock X (emitExpr X fuel) route.body
  let _ ← emit .retNull route.loc

/-- `emit_function`. -/
def emitFunction (X : Emitter) (fuel : ℕ) (fn : FnDecl) : Emit Unit := do
  declareParams fn.params
  emitBlock X (emitExpr X fuel) fn.body
  let _ ← emit .retNull fn.loc

/-- `emit_method`: `this` is parameter 0. -/
def emitMethod (X : Emitter) (fuel : ℕ) (cls : String) (m : FnDecl) : Emit Unit := do
  let _ ← declareLocal (.user "this") m.loc cls
  declareParams m.params
  emitBlock X (emitExpr X fuel) m.body
  let _ ← emit .retNull m.loc

/-- The fields of a new instance, all of them `null`. -/
def emitFields (loc : SourceLoc) : List String → Emit Unit
  | [] => pure ()
  | f :: fs => do
    emitConst (.str f) loc
    emitConst .null loc
    emitFields loc fs

/-- A constructor without a body: each parameter goes to the field of its name. -/
def emitFieldInits (loc : SourceLoc) (cls : String) (fields : List String) (self : ℕ) :
    List Param → Emit Unit
  | [] => pure ()
  | p :: ps => do
    if !fields.contains p.name then
      Emit.error p.loc ("'" ++ p.name ++ "' no es un campo de '" ++ cls ++ "'")
    let _ ← emit .loadLocal loc self
    emitLoad p.name loc ""
    let k ← addConstant (.str p.name)
    let _ ← emit .setMember loc k
    let _ ← emit .pop loc
    emitFieldInits loc cls fields self ps

/-- `emit_ctor`. -/
def emitCtor (X : Emitter) (fuel : ℕ) (cls : String) (fields : List String) (ct : CtorDecl) :
    Emit Unit := do
  declareParams ct.params
  let self ← declareLocal (.user "this") ct.loc cls
  emitFields ct.loc fields
  let _ ← emit .makeDict ct.loc fields.length
  let _ ← emit .storeLocal ct.loc self
  match ct.body with
  | some body => emitBlock X (emitExpr X fuel) body
  | none => emitFieldInits ct.loc cls fields self ct.params
  let _ ← emit .loadLocal ct.loc self
  let _ ← emit .ret ct.loc

/-- `emit_condition`: a loose expression over some names. -/
def emitCondition (X : Emitter) (fuel : ℕ) (e : Expr) (names : List (String × String)) :
    Emit Unit := do
  declareParams (names.map fun n => { type := n.2, name := n.1, loc := e.loc })
  emitExpr X fuel e
  let _ ← emit .ret e.loc

/-- `emit_error_handler`. -/
def emitErrorHandler (X : Emitter) (fuel : ℕ) (decl : ErrorDecl) : Emit Unit := do
  emitBlock X (emitExpr X fuel) decl.body
  let _ ← emit .retNull decl.loc

end Osodio.Odio
