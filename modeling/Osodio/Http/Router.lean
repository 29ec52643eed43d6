import Mathlib.Data.List.Infix

/-!
# The router

Routes live in a tree of segments.  A node has static children, and at most one
child for a parameter and one for a wildcard, so the patterns of all routes share
the nodes of their common prefixes.

## Main definitions

- `normalizePattern`, `splitPath` — the segments of a pattern and of a path
- `Node`, `Node.add` — the tree, and the registration of a pattern
- `matchRecursive` — the search, with its table of parameters
- `Router.addInternal`, `Router.match` — the interface
-/

namespace Osodio.Http

/-! ## Patterns -/

/-- The inside of `normalize_pattern`: braces become a colon.  `open` says that a
    brace is open. -/
def normalizeChars : Bool → List Char → Option (List Char)
  | false, [] => some []
  | true, [] => none
  | false, '{' :: cs => (normalizeChars true cs).map (':' :: ·)
  | true, '}' :: cs => normalizeChars false cs
  | b, c :: cs => (normalizeChars b cs).map (c :: ·)

/-- A slash at the end goes, unless it is all there is. -/
def dropSlash (cs : List Char) : List Char :=
  if 1 < cs.length ∧ cs.getLast? = some '/' then cs.dropLast else cs

/-- `normalize_pattern`. -/
def normalizePattern (pattern : String) : Except String (List Char) :=
  match normalizeChars false pattern.toList with
  | some cs => .ok (dropSlash cs)
  | none => .error ("lohin::Router: unterminated '\x7b' in pattern: " ++ pattern)

/-- `split_path`: the segments that are not empty. -/
def splitPath (cs : List Char) : List String :=
  ((cs.splitOn '/').filter (· ≠ [])).map String.ofList

/-! ## The tree -/

inductive NodeType where
  | static
  | param
  | wildcard
  deriving DecidableEq, Repr

inductive Node (H : Type) where
  | mk (segment : String) (type : NodeType) (handlers : List (String × H))
      (children : List (Node H))

/-- Which child of a node a segment of a pattern belongs to. -/
inductive Key where
  | static (segment : String)
  | param
  | wildcard
  deriving DecidableEq, Repr

/-- The child of a segment. -/
def keyOf (seg : String) : Key :=
  if seg = "*" then .wildcard
  else if seg.toList.head? = some ':' then .param
  else .static seg

/-- The name in a segment: without the colon, if it is a parameter. -/
def nameOf (seg : String) : String :=
  match keyOf seg with
  | .param => String.ofList seg.toList.tail
  | _ => seg

def Key.type : Key → NodeType
  | static _ => .static
  | param => .param
  | wildcard => .wildcard

namespace Node

variable {H : Type}

def segment : Node H → String
  | mk segment _ _ _ => segment

def type : Node H → NodeType
  | mk _ type _ _ => type

def handlers : Node H → List (String × H)
  | mk _ _ handlers _ => handlers

def children : Node H → List (Node H)
  | mk _ _ _ children => children

/-- The tests of `find_static_child`, `find_param_child` and `find_wildcard_child`. -/
def hasKey (n : Node H) : Key → Bool
  | .static seg => n.type = .static ∧ n.segment = seg
  | .param => n.type = .param
  | .wildcard => n.type = .wildcard

def findStaticChild (n : Node H) (seg : String) : Option (Node H) :=
  n.children.find? (·.hasKey (.static seg))

def findParamChild (n : Node H) : Option (Node H) := n.children.find? (·.hasKey .param)

def findWildcardChild (n : Node H) : Option (Node H) := n.children.find? (·.hasKey .wildcard)

end Node

section Tree

variable {H : Type}

/-- `handlers[method] = handler`. -/
def setHandler (method : String) (handler : H) (hs : List (String × H)) : List (String × H) :=
  (method, handler) :: hs.filter fun p => p.1 ≠ method

/-- Changes the first child with a key, or a new one at the end. -/
def modifyChild (key : Key) (fresh : Node H) (f : Node H → Node H) :
    List (Node H) → List (Node H)
  | [] => [f fresh]
  | c :: cs => if c.hasKey key then f c :: cs else c :: modifyChild key fresh f cs

/-- The node that a segment gets when there is none. -/
def Node.fresh (seg : String) : Node H := mk (nameOf seg) (keyOf seg).type [] []

/-- The walk of `add_internal` down the segments of a pattern. -/
def Node.add : Node H → List String → String → H → Node H
  | mk segment type handlers children, [], method, handler =>
    mk segment type (setHandler method handler handlers) children
  | mk segment type handlers children, seg :: segs, method, handler =>
    mk segment type handlers (modifyChild (keyOf seg) (fresh seg)
      (fun c => c.add segs method handler) children)

/-- The parameters found so far. -/
abbrev Params := List (String × String)

/-- `params[name] = value`. -/
def setParam (name value : String) (params : Params) : Params :=
  (name, value) :: params.filter fun p => p.1 ≠ name

/-- `params.erase(name)`. -/
def eraseParam (name : String) (params : Params) : Params :=
  params.filter fun p => p.1 ≠ name

/-- The handler of a node for a method, or else the one for all methods. -/
def Node.serve (n : Node H) (method : String) : Option H :=
  (n.handlers.lookup method).or (n.handlers.lookup "*")

/-- Tries the child of a static segment; `go` is the search below it. -/
def tryStatic (go : Node H → Params → Option H × Params) (n : Node H) (seg : String)
    (params : Params) : Option H × Params :=
  match n.findStaticChild seg with
  | some next => go next params
  | none => (none, params)

/-- Tries the child of a parameter, and takes its name back if that fails. -/
def tryParam (go : Node H → Params → Option H × Params) (n : Node H) (seg : String)
    (params : Params) : Option H × Params :=
  match n.findParamChild with
  | some next =>
    match go next (setParam next.segment seg params) with
    | (some handler, params) => (some handler, params)
    | (none, params) => (none, eraseParam next.segment params)
  | none => (none, params)

/-- Tries the wildcard, which matches everything that remains. -/
def tryWildcard (method : String) (n : Node H) (params : Params) : Option H × Params :=
  match n.findWildcardChild with
  | some next => (next.serve method, params)
  | none => (none, params)

/-- `match_recursive`: the handler, if one was found, and the parameters. -/
def matchRecursive (method : String) : List String → Node H → Params → Option H × Params
  | [], n, params => (n.serve method, params)
  | seg :: rest, n, params =>
    match tryStatic (matchRecursive method rest) n seg params with
    | (some handler, params) => (some handler, params)
    | (none, params) =>
      match tryParam (matchRecursive method rest) n seg params with
      | (some handler, params) => (some handler, params)
      | (none, params) => tryWildcard method n params

/-! ## The router -/

structure Router (H : Type) where
  root : Node H

/-- A call of `add_internal`. -/
structure Registration (H : Type) where
  method : String
  pattern : String
  handler : H

def Router.empty : Router H := ⟨.mk "" .static [] []⟩

/-- `std::transform` with `toupper`. -/
def upper (s : String) : String := String.ofList (s.toList.map Char.toUpper)

/-- `add_internal`. -/
def Router.addInternal (r : Router H) (reg : Registration H) : Except String (Router H) :=
  match normalizePattern reg.pattern with
  | .ok norm => .ok ⟨r.root.add (splitPath norm) (upper reg.method) reg.handler⟩
  | .error message => .error message

/-- A sequence of registrations.  One that throws leaves the router as it is. -/
def Router.addAll (r : Router H) : List (Registration H) → Router H
  | [] => r
  | reg :: regs =>
    match r.addInternal reg with
    | .ok r' => r'.addAll regs
    | .error _ => r.addAll regs

structure RouteMatch (H : Type) where
  handler : Option H
  params : Params
  deriving DecidableEq, Repr

/-- `Router::match`. -/
def Router.match (r : Router H) (method path : String) : RouteMatch H :=
  let (handler, params) :=
    matchRecursive method (splitPath (dropSlash path.toList)) r.root []
  -- the parameters of a search that fails are not given out
  ⟨handler, if handler.isSome then params else []⟩

end Tree

end Osodio.Http
