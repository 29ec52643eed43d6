import Osodio.Odio.Value

/-!
# Operations on values

What the instructions of the virtual machine do with their operands.  An
operation gives a value and the boxes after it, or the message of its error.

## Main definitions

- `addValues`, `arithmetic`, `compareValues` — the operators
- `getIndex`, `setIndex`, `getMember`, `setMember` — access to the containers
- `iterList`, `makeDict`, `errorValue` — the containers that the code builds
-/

namespace Osodio.Odio

/-- What an operation gives, or the message of its error. -/
abbrev OpResult := Except String (Value × Heap)

/-! ## Operators -/

/-- `+` wants both sides of the same kind. -/
def addValues (heap : Heap) : Value → Value → OpResult
  | .str x, .str y => .ok (.str (x ++ y), heap)
  | .str x, b => .error ("no se puede sumar " ++ (Value.str x).typeName ++ " y " ++
      b.typeName ++ "; para concatenar usa str(): \"...\" + str(x)")
  | a, .str y => .error ("no se puede sumar " ++ a.typeName ++ " y " ++
      (Value.str y).typeName ++ "; para concatenar usa str(): \"...\" + str(x)")
  | .int x, .int y => .ok (.int (x + y), heap)
  | .list x, .list y => .ok (newList (listAt heap x ++ listAt heap y) heap)
  | a, b =>
    if a.isNum && b.isNum then .ok (.float (a.asFloat + b.asFloat), heap)
    else .error ("no se puede sumar " ++ a.typeName ++ " y " ++ b.typeName)

/-- The operators between numbers other than `+`. -/
inductive Arith where
  | sub
  | mul
  | div
  | mod
  deriving DecidableEq, Repr

/-- `-`, `*`, `/` and `%`. -/
def arithmetic (op : Arith) (heap : Heap) (a b : Value) : OpResult :=
  if !(a.isNum && b.isNum) then
    .error ("operacion aritmetica entre " ++ a.typeName ++ " y " ++ b.typeName)
  else
    match op, a, b with
    | .mod, .int x, .int y =>
      if y == 0 then .error "modulo por cero" else .ok (.int (x % y), heap)
    | .mod, _, _ => .error "'%' solo aplica a enteros"
    | .div, .int x, .int y =>
      if (Value.int y).asFloat == 0 then .error "division por cero"
      else if x % y == 0 then .ok (.int (x / y), heap)
      else .ok (.float ((Value.int x).asFloat / (Value.int y).asFloat), heap)
    | .div, a, b =>
      if b.asFloat == 0 then .error "division por cero"
      else .ok (.float (a.asFloat / b.asFloat), heap)
    | .sub, .int x, .int y => .ok (.int (x - y), heap)
    | .mul, .int x, .int y => .ok (.int (x * y), heap)
    | .sub, a, b => .ok (.float (a.asFloat - b.asFloat), heap)
    | .mul, a, b => .ok (.float (a.asFloat * b.asFloat), heap)

/-- The order comparisons. -/
inductive Cmp where
  | lt
  | le
  | gt
  | ge
  deriving DecidableEq, Repr

/-- `compare`: the order of two numbers or of two strings, if they have one. -/
def compare (op : Cmp) : Value → Value → Option Bool
  | .int x, .int y =>
    some <| match op with
    | .lt => x < y
    | .le => x ≤ y
    | .gt => y < x
    | .ge => y ≤ x
  | .str x, .str y =>
    some <| match op with
    | .lt => x < y
    | .le => !decide (y < x)
    | .gt => y < x
    | .ge => !decide (x < y)
  | a, b =>
    if a.isNum && b.isNum then
      some <| match op with
      | .lt => a.asFloat < b.asFloat
      | .le => a.asFloat ≤ b.asFloat
      | .gt => b.asFloat < a.asFloat
      | .ge => b.asFloat ≤ a.asFloat
    else none

/-- `<`, `<=`, `>` and `>=`. -/
def compareValues (op : Cmp) (heap : Heap) (a b : Value) : OpResult :=
  match compare op a b with
  | some r => .ok (.bool r, heap)
  | none => .error ("no se pueden comparar " ++ a.typeName ++ " y " ++ b.typeName)

/-- `==`. -/
def eqValues (heap : Heap) (a b : Value) : OpResult := .ok (.bool (a.equals heap b), heap)

/-- `!=`. -/
def neValues (heap : Heap) (a b : Value) : OpResult := .ok (.bool !(a.equals heap b), heap)

/-- The unary `-`. -/
def negate (heap : Heap) : Value → OpResult
  | .int i => .ok (.int (-i), heap)
  | .float d => .ok (.float (-d), heap)
  | a => .error ("no se puede negar " ++ a.typeName)

/-- `not`. -/
def notValue (heap : Heap) (a : Value) : OpResult := .ok (.bool !(a.truthy heap), heap)

/-! ## Containers -/

/-- The place of an index in a list, or why it has none. -/
def position (items : List Value) (i : Int64) : Except String ℕ :=
  if i < 0 ∨ Int64.ofNat items.length ≤ i then
    .error ("indice fuera de rango: " ++ toString i ++ " (tamano " ++
      toString items.length ++ ")")
  else .ok i.toNatClampNeg

/-- `obj[idx]`. -/
def getIndex (heap : Heap) : Value → Value → OpResult
  | .list addr, .int i => do
    let at' ← position (listAt heap addr) i
    return ((listAt heap addr).getD at' .null, heap)
  | .list _, _ => .error "el indice de una List tiene que ser int"
  | .dict addr, .str k => .ok (valueAt k (dictAt heap addr), heap)
  | .dict _, _ => .error "la clave de un Dict tiene que ser string"
  | obj, _ => .error ("no se puede indexar " ++ obj.typeName)

/-- `obj[idx] = v`, which gives `v`. -/
def setIndex (heap : Heap) : Value → Value → Value → OpResult
  | .list addr, .int i, v => do
    let at' ← position (listAt heap addr) i
    return (v, heap.set addr (.list ((listAt heap addr).set at' v)))
  | .list _, _, _ => .error "el indice de una List tiene que ser int"
  | .dict addr, .str k, v => .ok (v, heap.set addr (.dict (setKey k v (dictAt heap addr))))
  | .dict _, _, _ => .error "la clave de un Dict tiene que ser string"
  | obj, _, _ => .error ("no se puede indexar " ++ obj.typeName)

/-- `obj.name`. -/
def getMember (name : String) (heap : Heap) : Value → OpResult
  | .dict addr => .ok (valueAt name (dictAt heap addr), heap)
  | obj => .error ("'" ++ name ++ "' sobre " ++ obj.typeName ++ ", que no tiene campos")

/-- `obj.name = v`, which gives `v`. -/
def setMember (name : String) (heap : Heap) : Value → Value → OpResult
  | .dict addr, v => .ok (v, heap.set addr (.dict (setKey name v (dictAt heap addr))))
  | obj, _ => .error ("no se puede asignar '" ++ name ++ "' sobre " ++ obj.typeName)

/-- What a `for` goes through: a list itself, a dictionary by its keys. -/
def iterList (heap : Heap) : Value → OpResult
  | .list addr => .ok (.list addr, heap)
  | .dict addr => .ok (newList ((dictAt heap addr).map fun p => .str p.1) heap)
  | v => .error ("no se puede recorrer " ++ v.typeName ++ " con 'for'")

/-- The pairs of a dictionary literal, entered from left to right. -/
def pairsFrom (d : Dict) : List Value → Except String Dict
  | .str k :: v :: rest => pairsFrom (setKey k v d) rest
  | k :: _ :: _ => .error ("la clave de un Dict tiene que ser string, no " ++ k.typeName)
  | _ => .ok d

/-- A dictionary from its keys and values in turn. -/
def makeDict (heap : Heap) (keysAndValues : List Value) : OpResult := do
  let d ← pairsFrom [] keysAndValues
  return newDict d heap

/-- `error_value`: what a `catch` is given. -/
def errorValue (message : String) (heap : Heap) : Value × Heap :=
  newDict [("message", .str message)] heap

/-- `len`: bytes of a string, or elements of a container. -/
def lenOf (heap : Heap) : Value → Except String Value
  | .str s => .ok (.int (Int64.ofNat s.utf8ByteSize))
  | .list addr => .ok (.int (Int64.ofNat (listAt heap addr).length))
  | .dict addr => .ok (.int (Int64.ofNat (dictAt heap addr).length))
  | v => .error ("len() no aplica a " ++ v.typeName)

end Osodio.Odio
