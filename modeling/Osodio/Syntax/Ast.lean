import Osodio.Json.Writer
import Osodio.Syntax.Token

/-!
# What the parser builds

One record for all expressions and one for all statements: a kind, and the fields that kinds of
node use, which are absent in the others.  Nothing in the types says that a node has the children
of its kind.  Positions are left out.

## Main definitions

- `TypeRef`, `Expr`, `Stmt`, `Block` — types, expressions and statements
- `FnDecl`, `ClassDecl`, `RouteDecl`, `AppDecl`, … — declarations
- `Program` — what the files of a project add to
-/

namespace Osodio.Syntax

open Osodio.Json (Double)

/-! ## Types -/

/-- A type, with the parameters of `List<T>` and of `Dict<K, V>`. -/
structure TypeRef where
  name : String := ""
  args : List TypeRef := []
  optional : Bool := false
  deriving Repr

/-! ## Expressions -/

inductive ExprKind where
  | stringLit | intLit | floatLit | boolLit | nullLit
  | ident | this | member | index | call
  | unary | binary | ternary | await
  | preStep | postStep
  | listLit | dictLit
  deriving DecidableEq, Repr

/-- A node.  The text is that of a string, a name or an operator. -/
structure Expr where
  kind : ExprKind
  -- literals
  text : String := ""
  intValue : ℤ := 0
  floatValue : Double := ⟨0⟩
  boolValue : Bool := false
  -- structure
  object : Option Expr := none
  lhs : Option Expr := none
  rhs : Option Expr := none
  args : List (String × Expr) := []
  items : List Expr := []
  entries : List (Expr × Expr) := []

/-! ## Statements -/

inductive StmtKind where
  | returnStmt | exprStmt | varDecl | assign
  | ifStmt | whileStmt | forStmt | requireStmt | tryStmt | breakStmt | continueStmt
  deriving DecidableEq, Repr

/-- A statement.  The chain of an `else if` is a statement of `orelse`. -/
structure Stmt where
  kind : StmtKind
  value : Option Expr := none
  target : Option Expr := none
  type : TypeRef := {}
  name : String := ""
  body : List Stmt := []
  orelse : List Stmt := []

abbrev Block := List Stmt

/-! ## Declarations -/

/-- A parameter of an endpoint or of a function. -/
structure Param where
  type : TypeRef := {}
  name : String := ""
  defaultValue : Option Expr := none

/-- A field of a class. -/
structure Field where
  type : TypeRef := {}
  name : String := ""

/-- A rule of a `validate` block. -/
structure ValidateRule where
  condition : Option Expr := none
  message : String := ""

structure FnDecl where
  returnType : TypeRef := {}
  name : String := ""
  params : List Param := []
  body : Block := []

/-- A constructor.  Without a body it assigns each parameter to the field of its name. -/
structure CtorDecl where
  params : List Param := []
  body : Block := []
  hasBody : Bool := false

structure ClassDecl where
  name : String := ""
  fields : List Field := []
  rules : List ValidateRule := []
  methods : List FnDecl := []
  ctors : List CtorDecl := []

/-- `require X else Y` in a group. -/
structure Guard where
  condition : Option Expr := none
  otherwise : Option Expr := none

structure RouteDecl where
  method : String := ""
  pattern : String := ""
  params : List Param := []
  origins : List String := []
  guards : List Guard := []
  body : Block := []

/-- What to serve for a code; 0 stands for all of them. -/
structure ErrorDecl where
  code : ℤ := 0
  body : Block := []

structure StaticMount where
  urlPrefix : String := ""
  fsRoot : String := ""
  spa : Bool := false

/-- The block `app:`.  Each module has the options of its block. -/
structure AppDecl where
  name : String := ""
  version : String := ""
  port : ℤ := 8080
  templatesDir : String := "./templates"
  statics : List StaticMount := []
  docs : Bool := false
  health : Bool := false
  metrics : Bool := false
  sessionSecret : String := ""
  sessionMaxAge : ℤ := 86400
  sessionSecure : Bool := true
  jwtSecret : String := ""
  jwtIssuer : String := ""
  modules : List (String × List (String × String)) := []
  present : Bool := false

structure Program where
  imports : List String := []
  classes : List ClassDecl := []
  functions : List FnDecl := []
  routes : List RouteDecl := []
  errors : List ErrorDecl := []
  app : AppDecl := {}

end Osodio.Syntax
