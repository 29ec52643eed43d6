import Osodio.Odio.Program
import Osodio.Odio.Structured

/-!
# The meaning of programs

A big-step semantics of the source.  It knows variables and their values, and neither slots nor an
operand stack nor jumps: an expression has a value or raises an error, a block is executed in the
scope that it opens, and a loop is executed again.

## Main definitions

- `Variable`, `Scope`, `Store` — the variables in scope, and what is shared
- `Program.target` — what a call refers to
- `Strict` — an expression whose operands are evaluated first
- `Completion` — how an expression or a statement ends
- `Means` — the meaning of the pieces of a program
-/

namespace Osodio.Odio

/-! ## Variables -/

structure Variable where
  name : String
  type : String
  value : Value

/-- The variables in scope, the newest one first. -/
abbrev Scope := List Variable

/-- What the meaning of a piece depends on and changes. -/
structure Store where
  vars : Scope
  world : World

namespace Scope

/-- The newest variable with a name. -/
def var (vars : Scope) (name : String) : Option Variable := vars.find? (·.name == name)

/-- Assigns to the newest variable with a name. -/
def assign (name : String) (v : Value) : Scope → Scope
  | [] => []
  | x :: vars => if x.name = name then { x with value := v } :: vars else x :: assign name v vars

/-- What is known of the variables without running the program. -/
def locals (vars : Scope) : List Local := vars.map fun x => ⟨.user x.name, 0, x.type⟩

/-- The parameters of a body are its first variables. -/
def ofParams (params : List Param) (args : List Value) : Scope :=
  (List.zipWith (fun p v => ⟨p.name, p.type, v⟩) params args).reverse

end Scope

/-- The variables that the body of a call begins with. -/
def Body.scope : Body → List Value → Scope
  | function fn, args => Scope.ofParams fn.params args
  | method cls m, this :: args => Scope.ofParams m.params args ++ [⟨"this", cls, this⟩]
  | method _ _, [] => []
  | ctor _ _ ct, args => Scope.ofParams ct.params args
  | condition e names, args =>
    Scope.ofParams (names.map fun n => { type := n.2, name := n.1, loc := e.loc }) args
  | route r, args => Scope.ofParams r.params args
  | errorHandler _, _ => []

/-! ## Calls -/

/-- What a call refers to. -/
inductive Callable where
  | native (id : ℕ) (name : String)
  | modulo (id : ℕ) (obj : String)
  | function (fn : FnDecl)
  | ctor (cls : ClassDecl)
  | method (recv : Expr) (cls : ClassDecl) (m : FnDecl)
  | dynamic (recv : Expr) (name : String)

/-- The classes that are visible in a body. -/
def Program.classesOf (p : Program) : Body → List ClassDecl
  | .function _ => []
  | _ => p.classes

/-- The class of a variable, or of `this`. -/
def Program.classOf (p : Program) (b : Body) (vars : Scope) (recv : Expr) : Option ClassDecl :=
  recv.localName.bind fun x =>
    let type := localType vars.locals x
    if type = "" then none else (p.classesOf b).find? (·.name == type)

/-- What is called by `object(…)`: a member of a reserved object, a method of the class of a
    variable or any other method; or a native, a function or a class, by its name. -/
def Program.target (p : Program) (b : Body) (vars : Scope) : Expr → Option Callable
  | .member _ recv name =>
    match reservedObject vars.locals recv with
    | some obj => (memberNativeId obj name).map fun id =>
        if isDbModule obj then .modulo id obj else .native id (obj ++ "." ++ name)
    | none =>
      match (p.classOf b vars recv).bind fun c => (c.methods.find? (·.name == name)).map (c, ·) with
      | some (c, m) => some (.method recv c m)
      | none => some (.dynamic recv name)
  | .ident _ name =>
    match nativeId name with
    | some id => some (.native id name)
    | none =>
      match p.functions.find? (·.name == name) with
      | some fn => some (.function fn)
      | none => ((p.classesOf b).find? (·.name == name)).map .ctor
  | _ => none

/-! ## Operands, and what is done with them -/

/-- What a program runs against.  An `await` is answered by the driver. -/
structure Setting where
  program : Program
  env : Env
  compilar : PlantillaCompiler
  driver : Driver

/-- What is done with values: an answer or an error, and what is shared after it. -/
abbrev Action := List Value → ExceptT String (StateM World) Value

/-- An operation on boxes. -/
def onHeap (f : Heap → OpResult) : ExceptT String (StateM World) Value := fun w =>
  match f w.heap with
  | .ok (v, heap) => (.ok v, { w with heap := heap })
  | .error message => (.error message, w)

namespace Action

/-- An operation on one value, on two or on three. -/
def unary (f : Heap → Value → OpResult) : Action
  | [a] => onHeap (f · a)
  | _ => throw ""

def binary (f : Heap → Value → Value → OpResult) : Action
  | [a, b] => onHeap (f · a b)
  | _ => throw ""

def ternary (f : Heap → Value → Value → Value → OpResult) : Action
  | [a, b, v] => onHeap (f · a b v)
  | _ => throw ""

def list : Action := fun items => onHeap fun heap => .ok (newList items heap)

def dict : Action := fun keysAndValues => onHeap (makeDict · keysAndValues)

def native (E : Env) (id : ℕ) : Action := fun args w => callNative E w id args

/-- A method, whose last `named` arguments have names and become one dictionary. -/
def method (E : Env) (name : String) (named : ℕ) : Action
  | recv :: args => do
    if named = 0 then fun w => E.oracle.ask w (.method recv name args)
    else
      let d ← dict (args.drop (args.length - named * 2))
      fun w => E.oracle.ask w (.method recv name (args.take (args.length - named * 2) ++ [d]))
  | [] => throw ""

/-- The template `nombre` is given a dictionary of its arguments. -/
def render (E : Env) (nombre : String) : Action := fun keysAndValues => do
  let d ← dict keysAndValues
  fun w => E.oracle.ask w (.render nombre d)

end Action

def BinOp.eval : BinOp → Heap → Value → Value → OpResult
  | .add => addValues
  | .sub => arithmetic .sub
  | .mul => arithmetic .mul
  | .div => arithmetic .div
  | .mod => arithmetic .mod
  | .eq => eqValues
  | .ne => neValues
  | .lt => compareValues .lt
  | .le => compareValues .le
  | .gt => compareValues .gt
  | .ge => compareValues .ge

def StepOp.eval : StepOp → Heap → Value → Value → OpResult
  | .inc => addValues
  | .dec => arithmetic .sub

/-- `++` and `--`: what is read is written back one more or one less. -/
def stepPlace (kind : StepKind) (op : StepOp) (read : Heap → OpResult)
    (write : Value → Heap → OpResult) : ExceptT String (StateM World) Value := do
  let prev ← onHeap read
  let next ← onHeap (op.eval · prev (.int 1))
  let v ← onHeap (write next)
  return if kind = .post then prev else v

namespace Action

/-- `++` and `--` on a field. -/
def stepMember (kind : StepKind) (op : StepOp) (name : String) : Action
  | [a] => stepPlace kind op (getMember name · a) fun v heap => setMember name heap a v
  | _ => throw ""

/-- `++` and `--` on an element. -/
def stepIndex (kind : StepKind) (op : StepOp) : Action
  | [a, k] => stepPlace kind op (getIndex · a k) fun v heap => setIndex heap a k v
  | _ => throw ""

end Action

inductive Operand where
  | const (v : Value)
  | expr (e : Expr)

/-- The operands of named arguments: their names and their values in turn. -/
def namedOperands (named : List (String × SourceLoc × Expr)) : List Operand :=
  named.flatMap fun k => [.const (.str k.1), .expr k.2.2]

/-- What is done once the operands have values. -/
inductive Doing where
  | act (a : Action)
  | call (b : Body)
  | await (id : ℕ)

/-- An expression whose operands are evaluated first, from left to right. -/
structure Strict where
  operands : List Operand
  loc : SourceLoc
  doing : Doing

/-- The operands of a call to a function with parameters.  Those that are missing are the default
    values, which have the meaning that they have where the call is. -/
def argOperands (params : List Param) (args : List Expr) : Option (List Operand) :=
  if args.length ≤ params.length then
    ((params.drop args.length).mapM Param.default).map fun ds => (args ++ ds).map .expr
  else none

def Setting.strictCall (S : Setting) (b : Body) (vars : Scope) (c : CallExpr) : Option Strict := do
  let args := c.args.map Operand.expr
  match ← S.program.target b vars c.object with
  | .native id name =>
    if name = "render" then
      let .stringLit _ nombre :: _ := c.args | none
      let .ok p := S.compilar nombre (c.named.map fun k => (k.1, tipoDe vars.locals k.2.2)) | none
      some ⟨namedOperands c.named, c.loc, .act (.render S.env p.nombre)⟩
    else some ⟨args, c.loc, if (nativeAt id).isAsync then .await id else .act (.native S.env id)⟩
  | .modulo id obj => some ⟨.const (.str obj) :: args, c.loc, .await id⟩
  | .function fn => (argOperands fn.params c.args).map fun os => ⟨os, c.loc, .call (.function fn)⟩
  | .ctor cls =>
    (cls.allCtors.find? (·.params.length == c.args.length)).map fun ct =>
      ⟨args, c.loc, .call (.ctor cls.name cls.fieldNames ct)⟩
  | .method recv cls m => (argOperands m.params c.args).map fun os =>
      ⟨.expr recv :: os, c.loc, .call (.method cls.name m)⟩
  | .dynamic recv name =>
    some ⟨.expr recv :: args ++ namedOperands c.named, c.loc,
      .act (.method S.env name c.named.length)⟩

/-- The expressions whose operands are evaluated first. -/
def Setting.strict (S : Setting) (b : Body) (vars : Scope) (e : Expr) : Option Strict :=
  match e with
  | .unary loc op e =>
    some ⟨[.expr e], loc, .act (.unary (if op = .not then notValue else negate))⟩
  | .binary loc op l r => some ⟨[.expr l, .expr r], loc, .act (.binary op.eval)⟩
  | .listLit loc items => some ⟨items.map .expr, loc, .act .list⟩
  | .dictLit loc entries =>
    some ⟨entries.flatMap fun kv => [.expr kv.1, .expr kv.2], loc, .act .dict⟩
  | .index loc o i => some ⟨[.expr o, .expr i], loc, .act (.binary getIndex)⟩
  | .member loc o name =>
    match reservedObject vars.locals o with
    | some obj =>
      match memberNativeId obj name with
      | some id =>
        if (nativeAt id).isAsync then none else some ⟨[], loc, .act (.native S.env id)⟩
      | none => some ⟨[.const (.str name)], loc, .act (.native S.env sessionGetId)⟩
    | none => some ⟨[.expr o], loc, .act (.unary (getMember name))⟩
  | .step loc kind op (.member _ o name) =>
    some ⟨[.expr o], loc, .act (.stepMember kind op name)⟩
  | _ => e.asCall.bind (S.strictCall b vars)

/-- An assignment to a field of the session, to a field or to an element. -/
def Setting.place (S : Setting) (vars : Scope) : Stmt → Option (List Operand × SourceLoc × Action)
  | .assign loc (.member _ o name) e =>
    if reservedObject vars.locals o = some "session" then
      some ([.const (.str name), .expr e], loc, .native S.env sessionSetId)
    else some ([.expr o, .expr e], loc, .binary (setMember name))
  | .assign loc (.index _ o i) e => some ([.expr o, .expr i, .expr e], loc, .ternary setIndex)
  | _ => none

/-! ## Outcomes -/

/-- How the evaluation of operands or the execution of a statement ends. -/
inductive Completion where
  | vals (vs : List Value)
  | done
  | brk
  | cont
  | ret (v : Value)
  | raise (message : String) (loc : SourceLoc)

/-- The value of the operand in front. -/
def Completion.push (v : Value) : Completion → Completion
  | vals vs => vals (v :: vs)
  | o => o

/-- After a turn with this outcome, a loop goes on. -/
def Completion.goesOn : Completion → Bool
  | done | cont => true
  | _ => false

/-- A body, or a loop, is left with this outcome. -/
def Completion.leaves : Completion → Bool
  | ret _ | raise _ _ => true
  | _ => false

/-! ## Meaning -/

/-- The pieces of a program that have a meaning. -/
inductive Item where
  | expr (e : Expr)
  | operands (os : List Operand)
  | stmt (s : Stmt)
  | block (ss : Block)
  /-- The rest of a `for`, from the item at `i` on. -/
  | each (loc : SourceLoc) (type name : String) (body : Block) (items : Value) (count i : Int64)
  | body

/-- The expression that a statement begins with. -/
def Stmt.subject : Stmt → Option Expr
  | returnStmt _ e => e
  | exprStmt _ e => some e
  | varDecl _ _ _ e => e
  | assign _ (.ident _ _) e => some e
  | ifStmt _ e _ _ => some e
  | whileStmt _ e _ => some e
  | forStmt _ _ _ e _ => some e
  | requireStmt _ e _ => some e
  | _ => none

def Guard.stmt (g : Guard) : Stmt := .requireStmt g.loc g.condition g.otherwise

/-- The statements of a body.  The guards of the groups of a route come first. -/
def Body.block : Body → Option Block
  | function fn => some fn.body
  | method _ m => some m.body
  | route r => some (r.guards.map Guard.stmt ++ r.body)
  | errorHandler d => some d.body
  | ctor _ _ _ | condition _ _ => none

/-- The statements of a constructor.  Without a body it assigns its parameters to the fields of
    their names. -/
def CtorDecl.block (ct : CtorDecl) : Block :=
  ct.body.getD <| ct.params.map fun p =>
    .assign ct.loc (.member ct.loc (.this ct.loc) p.name) (.ident ct.loc p.name)

/-- The variables that are left when those of a block are dropped. -/
def Scope.leave (vars opened inner : Scope) : Scope := inner.drop (opened.length - vars.length)

/-- **The meaning of the pieces of a program**, in the body `b`. -/
inductive Means (S : Setting) : Body → Item → Store → Completion → Store → Prop where
  -- expressions
  | literal {b e v σ} (h : e.literal = some v) : Means S b (.expr e) σ (.vals [v]) σ
  | variable {b e name x σ} (h : e.localName = some name) (hx : σ.vars.var name = some x) :
      Means S b (.expr e) σ (.vals [x.value]) σ
  | act {b e T a vs v w σ σ₁} (h : S.strict b σ.vars e = some T) (hT : T.doing = .act a)
      (ho : Means S b (.operands T.operands) σ (.vals vs) σ₁) (ha : a vs σ₁.world = (.ok v, w)) :
      Means S b (.expr e) σ (.vals [v]) ⟨σ₁.vars, w⟩
  | actFails {b e T a vs message w σ σ₁} (h : S.strict b σ.vars e = some T) (hT : T.doing = .act a)
      (ho : Means S b (.operands T.operands) σ (.vals vs) σ₁)
      (ha : a vs σ₁.world = (.error message, w)) :
      Means S b (.expr e) σ (.raise message T.loc) ⟨σ₁.vars, w⟩
  | call {b e T f vs v σ σ₁ σ₂} (h : S.strict b σ.vars e = some T) (hT : T.doing = .call f)
      (ho : Means S b (.operands T.operands) σ (.vals vs) σ₁)
      (hf : Means S f .body ⟨f.scope vs, σ₁.world⟩ (.ret v) σ₂) :
      Means S b (.expr e) σ (.vals [v]) ⟨σ₁.vars, σ₂.world⟩
  | callFails {b e T f vs message loc σ σ₁ σ₂} (h : S.strict b σ.vars e = some T)
      (hT : T.doing = .call f) (ho : Means S b (.operands T.operands) σ (.vals vs) σ₁)
      (hf : Means S f .body ⟨f.scope vs, σ₁.world⟩ (.raise message loc) σ₂) :
      Means S b (.expr e) σ (.raise message loc) ⟨σ₁.vars, σ₂.world⟩
  | await {b e T id vs v w σ σ₁} (h : S.strict b σ.vars e = some T) (hT : T.doing = .await id)
      (ho : Means S b (.operands T.operands) σ (.vals vs) σ₁)
      (hD : S.driver σ₁.world id vs = (v, w)) : Means S b (.expr e) σ (.vals [v]) ⟨σ₁.vars, w⟩
  | operandRaises {b e T message loc σ σ₁} (h : S.strict b σ.vars e = some T)
      (ho : Means S b (.operands T.operands) σ (.raise message loc) σ₁) :
      Means S b (.expr e) σ (.raise message loc) σ₁
  | logicalDecides {b loc op l r v σ σ₁} (hl : Means S b (.expr l) σ (.vals [v]) σ₁)
      (hv : op.decides (v.truthy σ₁.world.heap) = true) :
      Means S b (.expr (.logical loc op l r)) σ (.vals [v]) σ₁
  | logicalGoes {b loc op l r v o σ σ₁ σ₂} (hl : Means S b (.expr l) σ (.vals [v]) σ₁)
      (hv : op.decides (v.truthy σ₁.world.heap) = false) (hr : Means S b (.expr r) σ₁ o σ₂) :
      Means S b (.expr (.logical loc op l r)) σ o σ₂
  | logicalRaises {b loc op l r message at' σ σ₁}
      (hl : Means S b (.expr l) σ (.raise message at') σ₁) :
      Means S b (.expr (.logical loc op l r)) σ (.raise message at') σ₁
  | ternary {b loc c l r v o σ σ₁ σ₂} (hc : Means S b (.expr c) σ (.vals [v]) σ₁)
      (h : Means S b (.expr (if v.truthy σ₁.world.heap then l else r)) σ₁ o σ₂) :
      Means S b (.expr (.ternary loc c l r)) σ o σ₂
  | ternaryRaises {b loc c l r message at' σ σ₁}
      (hc : Means S b (.expr c) σ (.raise message at') σ₁) :
      Means S b (.expr (.ternary loc c l r)) σ (.raise message at') σ₁
  | stepLocal {b loc kind op tloc name x v w σ} (hx : σ.vars.var name = some x)
      (hv : onHeap (op.eval · x.value (.int 1)) σ.world = (.ok v, w)) :
      Means S b (.expr (.step loc kind op (.ident tloc name))) σ
        (.vals [if kind = .post then x.value else v]) ⟨σ.vars.assign name v, w⟩
  | stepLocalFails {b loc kind op tloc name x message w σ} (hx : σ.vars.var name = some x)
      (hv : onHeap (op.eval · x.value (.int 1)) σ.world = (.error message, w)) :
      Means S b (.expr (.step loc kind op (.ident tloc name))) σ (.raise message loc) ⟨σ.vars, w⟩
  | stepIndex {b loc kind op tloc o i a k v w σ σ₁ σ₂}
      (ho : Means S b (.expr o) σ (.vals [a]) σ₁) (hi : Means S b (.expr i) σ₁ (.vals [k]) σ₂)
      (hv : Action.stepIndex kind op [a, k] σ₂.world = (.ok v, w)) :
      Means S b (.expr (.step loc kind op (.index tloc o i))) σ (.vals [v]) ⟨σ₂.vars, w⟩
  | stepIndexFails {b loc kind op tloc o i a k message w σ σ₁ σ₂}
      (ho : Means S b (.expr o) σ (.vals [a]) σ₁) (hi : Means S b (.expr i) σ₁ (.vals [k]) σ₂)
      (hv : Action.stepIndex kind op [a, k] σ₂.world = (.error message, w)) :
      Means S b (.expr (.step loc kind op (.index tloc o i))) σ (.raise message loc) ⟨σ₂.vars, w⟩
  | stepIndexObject {b loc kind op tloc o i message at' σ σ₁}
      (ho : Means S b (.expr o) σ (.raise message at') σ₁) :
      Means S b (.expr (.step loc kind op (.index tloc o i))) σ (.raise message at') σ₁
  | stepIndexPlace {b loc kind op tloc o i a message at' σ σ₁ σ₂}
      (ho : Means S b (.expr o) σ (.vals [a]) σ₁)
      (hi : Means S b (.expr i) σ₁ (.raise message at') σ₂) :
      Means S b (.expr (.step loc kind op (.index tloc o i))) σ (.raise message at') σ₂
  -- operands
  | operandsNil {b σ} : Means S b (.operands []) σ (.vals []) σ
  | operandsConst {b v os o σ σ₁} (h : Means S b (.operands os) σ o σ₁) :
      Means S b (.operands (.const v :: os)) σ (o.push v) σ₁
  | operandsCons {b e v os o σ σ₁ σ₂} (he : Means S b (.expr e) σ (.vals [v]) σ₁)
      (h : Means S b (.operands os) σ₁ o σ₂) :
      Means S b (.operands (.expr e :: os)) σ (o.push v) σ₂
  | operandsStops {b e os message loc σ σ₁} (he : Means S b (.expr e) σ (.raise message loc) σ₁) :
      Means S b (.operands (.expr e :: os)) σ (.raise message loc) σ₁
  -- statements
  | subjectRaises {b s e message loc σ σ₁} (h : s.subject = some e)
      (he : Means S b (.expr e) σ (.raise message loc) σ₁) :
      Means S b (.stmt s) σ (.raise message loc) σ₁
  | returns {b loc e v σ σ₁} (he : Means S b (.expr e) σ (.vals [v]) σ₁) :
      Means S b (.stmt (.returnStmt loc (some e))) σ (.ret v) σ₁
  | returnsNull {b loc σ} : Means S b (.stmt (.returnStmt loc none)) σ (.ret .null) σ
  | discards {b loc e v σ σ₁} (he : Means S b (.expr e) σ (.vals [v]) σ₁) :
      Means S b (.stmt (.exprStmt loc e)) σ .done σ₁
  | declares {b loc type name e v σ σ₁} (he : Means S b (.expr e) σ (.vals [v]) σ₁) :
      Means S b (.stmt (.varDecl loc type name (some e))) σ .done
        ⟨⟨name, type, v⟩ :: σ₁.vars, σ₁.world⟩
  | declaresNull {b loc type name σ} :
      Means S b (.stmt (.varDecl loc type name none)) σ .done
        ⟨⟨name, type, .null⟩ :: σ.vars, σ.world⟩
  | assigns {b loc tloc name e v σ σ₁} (he : Means S b (.expr e) σ (.vals [v]) σ₁) :
      Means S b (.stmt (.assign loc (.ident tloc name) e)) σ .done
        ⟨σ₁.vars.assign name v, σ₁.world⟩
  | stores {b s os loc a vs v w σ σ₁} (h : S.place σ.vars s = some (os, loc, a))
      (ho : Means S b (.operands os) σ (.vals vs) σ₁) (ha : a vs σ₁.world = (.ok v, w)) :
      Means S b (.stmt s) σ .done ⟨σ₁.vars, w⟩
  | storeFails {b s os loc a vs message w σ σ₁} (h : S.place σ.vars s = some (os, loc, a))
      (ho : Means S b (.operands os) σ (.vals vs) σ₁) (ha : a vs σ₁.world = (.error message, w)) :
      Means S b (.stmt s) σ (.raise message loc) ⟨σ₁.vars, w⟩
  | storeRaises {b s os loc a message at' σ σ₁} (h : S.place σ.vars s = some (os, loc, a))
      (ho : Means S b (.operands os) σ (.raise message at') σ₁) :
      Means S b (.stmt s) σ (.raise message at') σ₁
  | branches {b loc c body orelse v o σ σ₁ σ₂} (hc : Means S b (.expr c) σ (.vals [v]) σ₁)
      (h : Means S b (.block (if v.truthy σ₁.world.heap then body else orelse)) σ₁ o σ₂) :
      Means S b (.stmt (.ifStmt loc c body orelse)) σ o σ₂
  | whileEnds {b loc c body v σ σ₁} (hc : Means S b (.expr c) σ (.vals [v]) σ₁)
      (hv : v.truthy σ₁.world.heap = false) :
      Means S b (.stmt (.whileStmt loc c body)) σ .done σ₁
  | whileGoes {b loc c body v o o' σ σ₁ σ₂ σ₃} (hc : Means S b (.expr c) σ (.vals [v]) σ₁)
      (hv : v.truthy σ₁.world.heap = true) (hb : Means S b (.block body) σ₁ o σ₂)
      (ho : o.goesOn = true) (h : Means S b (.stmt (.whileStmt loc c body)) σ₂ o' σ₃) :
      Means S b (.stmt (.whileStmt loc c body)) σ o' σ₃
  | whileBreaks {b loc c body v σ σ₁ σ₂} (hc : Means S b (.expr c) σ (.vals [v]) σ₁)
      (hv : v.truthy σ₁.world.heap = true) (hb : Means S b (.block body) σ₁ .brk σ₂) :
      Means S b (.stmt (.whileStmt loc c body)) σ .done σ₂
  | whileLeaves {b loc c body v o σ σ₁ σ₂} (hc : Means S b (.expr c) σ (.vals [v]) σ₁)
      (hv : v.truthy σ₁.world.heap = true) (hb : Means S b (.block body) σ₁ o σ₂)
      (ho : o.leaves = true) : Means S b (.stmt (.whileStmt loc c body)) σ o σ₂
  | forStarts {b loc type name e body v items heap count o σ σ₁ σ₂}
      (he : Means S b (.expr e) σ (.vals [v]) σ₁)
      (hi : iterList σ₁.world.heap v = .ok (items, heap))
      (hn : lenOf heap items = .ok (.int count))
      (h : Means S b (.each loc type name body items count 0)
        ⟨σ₁.vars, { σ₁.world with heap := heap }⟩ o σ₂) :
      Means S b (.stmt (.forStmt loc type name e body)) σ o σ₂
  | forFails {b loc type name e body v message σ σ₁}
      (he : Means S b (.expr e) σ (.vals [v]) σ₁)
      (hi : iterList σ₁.world.heap v = .error message) :
      Means S b (.stmt (.forStmt loc type name e body)) σ (.raise message loc) σ₁
  | requireHolds {b loc c e v σ σ₁} (hc : Means S b (.expr c) σ (.vals [v]) σ₁)
      (hv : v.truthy σ₁.world.heap = true) : Means S b (.stmt (.requireStmt loc c e)) σ .done σ₁
  | requireReturns {b loc c e v u σ σ₁ σ₂} (hc : Means S b (.expr c) σ (.vals [v]) σ₁)
      (hv : v.truthy σ₁.world.heap = false) (he : Means S b (.expr e) σ₁ (.vals [u]) σ₂) :
      Means S b (.stmt (.requireStmt loc c e)) σ (.ret u) σ₂
  | requireRaises {b loc c e v message at' σ σ₁ σ₂} (hc : Means S b (.expr c) σ (.vals [v]) σ₁)
      (hv : v.truthy σ₁.world.heap = false)
      (he : Means S b (.expr e) σ₁ (.raise message at') σ₂) :
      Means S b (.stmt (.requireStmt loc c e)) σ (.raise message at') σ₂
  | breaks {b loc σ} : Means S b (.stmt (.breakStmt loc)) σ .brk σ
  | continues {b loc σ} : Means S b (.stmt (.continueStmt loc)) σ .cont σ
  | tries {b loc body name orelse o σ σ₁} (hb : Means S b (.block body) σ o σ₁)
      (ho : ∀ message at', o ≠ .raise message at') :
      Means S b (.stmt (.tryStmt loc body name orelse)) σ o σ₁
  | catches {b loc body name orelse message at' v heap o σ σ₁ σ₂}
      (hb : Means S b (.block body) σ (.raise message at') σ₁)
      (hv : errorValue message σ₁.world.heap = (v, heap))
      (h : Means S b (.block orelse)
        ⟨⟨name, "", v⟩ :: σ₁.vars, { σ₁.world with heap := heap }⟩ o σ₂) :
      Means S b (.stmt (.tryStmt loc body (some name) orelse)) σ o ⟨σ₂.vars.tail, σ₂.world⟩
  | catchesBare {b loc body orelse message at' v heap o σ σ₁ σ₂}
      (hb : Means S b (.block body) σ (.raise message at') σ₁)
      (hv : errorValue message σ₁.world.heap = (v, heap))
      (h : Means S b (.block orelse) ⟨σ₁.vars, { σ₁.world with heap := heap }⟩ o σ₂) :
      Means S b (.stmt (.tryStmt loc body none orelse)) σ o σ₂
  -- the turns of a `for`
  | eachEnds {b loc type name body items count i σ} (hi : ¬ i < count) :
      Means S b (.each loc type name body items count i) σ .done σ
  | eachFails {b loc type name body items count i message σ} (hi : i < count)
      (hv : getIndex σ.world.heap items (.int i) = .error message) :
      Means S b (.each loc type name body items count i) σ (.raise message loc) σ
  | eachGoes {b loc type name body items count i v heap o o' σ σ₁ σ₂} (hi : i < count)
      (hv : getIndex σ.world.heap items (.int i) = .ok (v, heap))
      (hb : Means S b (.block body)
        ⟨⟨name, type, v⟩ :: σ.vars, { σ.world with heap := heap }⟩ o σ₁)
      (ho : o.goesOn = true)
      (h : Means S b (.each loc type name body items count (i + 1))
        ⟨σ₁.vars.tail, σ₁.world⟩ o' σ₂) :
      Means S b (.each loc type name body items count i) σ o' σ₂
  | eachBreaks {b loc type name body items count i v heap σ σ₁} (hi : i < count)
      (hv : getIndex σ.world.heap items (.int i) = .ok (v, heap))
      (hb : Means S b (.block body)
        ⟨⟨name, type, v⟩ :: σ.vars, { σ.world with heap := heap }⟩ .brk σ₁) :
      Means S b (.each loc type name body items count i) σ .done ⟨σ₁.vars.tail, σ₁.world⟩
  | eachLeaves {b loc type name body items count i v heap o σ σ₁} (hi : i < count)
      (hv : getIndex σ.world.heap items (.int i) = .ok (v, heap))
      (hb : Means S b (.block body)
        ⟨⟨name, type, v⟩ :: σ.vars, { σ.world with heap := heap }⟩ o σ₁)
      (ho : o.leaves = true) :
      Means S b (.each loc type name body items count i) σ o ⟨σ₁.vars.tail, σ₁.world⟩
  -- blocks
  | blockNil {b σ} : Means S b (.block []) σ .done σ
  | blockCons {b s ss o σ σ₁ σ₂} (hs : Means S b (.stmt s) σ .done σ₁)
      (h : Means S b (.block ss) σ₁ o σ₂) :
      Means S b (.block (s :: ss)) σ o ⟨σ.vars.leave σ₁.vars σ₂.vars, σ₂.world⟩
  | blockStops {b s ss o σ σ₁} (hs : Means S b (.stmt s) σ o σ₁) (ho : o ≠ .done) :
      Means S b (.block (s :: ss)) σ o σ₁
  -- bodies
  | bodyEnds {b ss σ σ₁} (h : b.block = some ss) (hb : Means S b (.block ss) σ .done σ₁) :
      Means S b .body σ (.ret .null) σ₁
  | bodyLeaves {b ss o σ σ₁} (h : b.block = some ss) (hb : Means S b (.block ss) σ o σ₁)
      (ho : o.leaves = true) : Means S b .body σ o σ₁
  | ctorEnds {cls fields ct this heap x σ σ₁}
      (hd : makeDict σ.world.heap (fields.flatMap fun f => [.str f, .null]) = .ok (this, heap))
      (hb : Means S (.ctor cls fields ct) (.block ct.block)
        ⟨⟨"this", cls, this⟩ :: σ.vars, { σ.world with heap := heap }⟩ .done σ₁)
      (hx : σ₁.vars.var "this" = some x) :
      Means S (.ctor cls fields ct) .body σ (.ret x.value) σ₁
  | ctorLeaves {cls fields ct this heap o σ σ₁}
      (hd : makeDict σ.world.heap (fields.flatMap fun f => [.str f, .null]) = .ok (this, heap))
      (hb : Means S (.ctor cls fields ct) (.block ct.block)
        ⟨⟨"this", cls, this⟩ :: σ.vars, { σ.world with heap := heap }⟩ o σ₁)
      (ho : o.leaves = true) : Means S (.ctor cls fields ct) .body σ o σ₁
  | conditionHas {e names v σ σ₁}
      (he : Means S (.condition e names) (.expr e) σ (.vals [v]) σ₁) :
      Means S (.condition e names) .body σ (.ret v) σ₁
  | conditionRaises {e names message loc σ σ₁}
      (he : Means S (.condition e names) (.expr e) σ (.raise message loc) σ₁) :
      Means S (.condition e names) .body σ (.raise message loc) σ₁

end Osodio.Odio
