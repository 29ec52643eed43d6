import Osodio.Odio.Bytecode

/-!
# Syntax trees

What the parser hands to the emitter.  A compound assignment has already become
an assignment, an `elif` an `if` inside the `else`, and the named arguments of a
call come after the positional ones.

## Main definitions

- `Expr`, `Stmt`, `Block` — expressions and statements
- `Param`, `FnDecl`, `CtorDecl`, `RouteDecl`, … — the declarations that have code
-/

namespace Osodio.Odio

inductive UnOp where
  | not
  | neg
  deriving DecidableEq, Repr

inductive BinOp where
  | add | sub | mul | div | mod
  | eq | ne | lt | le | gt | ge
  deriving DecidableEq, Repr

/-- `and` and `or`. -/
inductive LogOp where
  | and
  | or
  deriving DecidableEq, Repr

/-- The operator of `++` and of `--`. -/
inductive StepOp where
  | inc
  | dec
  deriving DecidableEq, Repr

/-- Whether a step gives the new value or the previous one. -/
inductive StepKind where
  | pre
  | post
  deriving DecidableEq, Repr

/-- An expression.  A named argument carries its name and its position. -/
inductive Expr where
  | stringLit (loc : SourceLoc) (text : String)
  | intLit (loc : SourceLoc) (value : Int64)
  | floatLit (loc : SourceLoc) (value : Float)
  | boolLit (loc : SourceLoc) (value : Bool)
  | nullLit (loc : SourceLoc)
  | ident (loc : SourceLoc) (text : String)
  | this (loc : SourceLoc)
  | member (loc : SourceLoc) (object : Expr) (text : String)
  | index (loc : SourceLoc) (object idx : Expr)
  | call (loc : SourceLoc) (object : Expr) (args : List Expr)
      (named : List (String × SourceLoc × Expr))
  | unary (loc : SourceLoc) (op : UnOp) (lhs : Expr)
  | binary (loc : SourceLoc) (op : BinOp) (lhs rhs : Expr)
  | logical (loc : SourceLoc) (op : LogOp) (lhs rhs : Expr)
  | ternary (loc : SourceLoc) (cond lhs rhs : Expr)
  | await (loc : SourceLoc) (lhs : Expr)
  | step (loc : SourceLoc) (kind : StepKind) (op : StepOp) (target : Expr)
  | listLit (loc : SourceLoc) (items : List Expr)
  | dictLit (loc : SourceLoc) (entries : List (Expr × Expr))
  deriving Inhabited

def Expr.loc : Expr → SourceLoc
  | stringLit loc _ | intLit loc _ | floatLit loc _ | boolLit loc _ | nullLit loc
  | ident loc _ | this loc | member loc _ _ | index loc _ _ | call loc _ _ _
  | unary loc _ _ | binary loc _ _ _ | logical loc _ _ _ | ternary loc _ _ _
  | await loc _ | step loc _ _ _ | listLit loc _ | dictLit loc _ => loc

/-- A statement.  `type` is the name of the declared type. -/
inductive Stmt where
  | returnStmt (loc : SourceLoc) (value : Option Expr)
  | exprStmt (loc : SourceLoc) (value : Expr)
  | varDecl (loc : SourceLoc) (type name : String) (value : Option Expr)
  | assign (loc : SourceLoc) (target value : Expr)
  | ifStmt (loc : SourceLoc) (cond : Expr) (body orelse : List Stmt)
  | whileStmt (loc : SourceLoc) (cond : Expr) (body : List Stmt)
  | forStmt (loc : SourceLoc) (type name : String) (target : Expr) (body : List Stmt)
  | requireStmt (loc : SourceLoc) (cond otherwise : Expr)
  | tryStmt (loc : SourceLoc) (body : List Stmt) (name : Option String) (orelse : List Stmt)
  | breakStmt (loc : SourceLoc)
  | continueStmt (loc : SourceLoc)
  deriving Inhabited

abbrev Block := List Stmt

/-! ## Declarations -/

/-- A parameter of an endpoint or of a function. -/
structure Param where
  type : String
  name : String
  default : Option Expr := none
  loc : SourceLoc := {}

/-- A function, or a method of a class. -/
structure FnDecl where
  name : String
  params : List Param
  body : Block
  loc : SourceLoc := {}

/-- A constructor.  Without a body it assigns each parameter to the field of the
    same name. -/
structure CtorDecl where
  params : List Param
  body : Option Block
  loc : SourceLoc := {}

/-- A field of a class. -/
structure Field where
  type : String
  name : String
  loc : SourceLoc := {}

/-- A rule of a `validate` block. -/
structure ValidateRule where
  condition : Expr
  message : String

structure ClassDecl where
  name : String
  fields : List Field := []
  rules : List ValidateRule := []
  methods : List FnDecl := []
  ctors : List CtorDecl := []
  loc : SourceLoc := {}

/-- `require X else Y` declared by a group. -/
structure Guard where
  condition : Expr
  otherwise : Expr
  loc : SourceLoc := {}

structure RouteDecl where
  method : String
  pattern : String := "/"
  params : List Param := []
  guards : List Guard := []
  body : Block
  loc : SourceLoc := {}

/-- `on error 404:`, or `on error:` with code 0. -/
structure ErrorDecl where
  code : ℕ := 0
  body : Block
  loc : SourceLoc := {}

structure Program where
  imports : List String := []
  classes : List ClassDecl := []
  functions : List FnDecl := []
  routes : List RouteDecl := []
  errors : List ErrorDecl := []

end Osodio.Odio
