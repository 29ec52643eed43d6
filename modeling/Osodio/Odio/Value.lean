import Mathlib.Data.Nat.Notation

/-!
# Values of the language

A scalar is held in the value itself.  Lists and dictionaries live in boxes that
several values may share, so a value holds the address of its box.

## Main definitions

- `Value` — a runtime value
- `Obj`, `Heap` — the boxes of lists and dictionaries
- `Value.typeName`, `Value.truthy`, `Value.equals` — what the language observes
  of a value without changing it
-/

namespace Osodio.Odio

/-- A runtime value; `list` and `dict` hold the address of their box. -/
inductive Value where
  | null
  | bool (b : Bool)
  | int (i : Int64)
  | float (d : Float)
  | str (s : String)
  | list (addr : ℕ)
  | dict (addr : ℕ)
  deriving Repr, Inhabited

/-- `Value::Dict`: the pairs in the order of insertion, one for each key. -/
abbrev Dict := List (String × Value)

/-- The contents of a box. -/
inductive Obj where
  | list (items : List Value)
  | dict (pairs : Dict)
  deriving Repr, Inhabited

/-- The boxes, by address. -/
abbrev Heap := List Obj

/-! ## Boxes -/

/-- The items of the list at an address. -/
def listAt (heap : Heap) (addr : ℕ) : List Value :=
  match heap[addr]? with
  | some (.list items) => items
  | _ => []

/-- The pairs of the dictionary at an address. -/
def dictAt (heap : Heap) (addr : ℕ) : Dict :=
  match heap[addr]? with
  | some (.dict pairs) => pairs
  | _ => []

/-- A list in a new box. -/
def newList (items : List Value) (heap : Heap) : Value × Heap :=
  (.list heap.length, heap ++ [.list items])

/-- A dictionary in a new box. -/
def newDict (pairs : Dict) (heap : Heap) : Value × Heap :=
  (.dict heap.length, heap ++ [.dict pairs])

@[simp] theorem listAt_newList (items : List Value) (heap : Heap) :
    listAt (newList items heap).2 heap.length = items := by
  simp [listAt, newList]

/-- `d[k] = v`: a key that exists keeps its place. -/
def setKey (k : String) (v : Value) : Dict → Dict
  | [] => [(k, v)]
  | (k', v') :: rest => if k' = k then (k, v) :: rest else (k', v') :: setKey k v rest

@[simp] theorem lookup_setKey_self (k : String) (v : Value) (d : Dict) :
    (setKey k v d).lookup k = some v := by
  induction d with
  | nil => simp [setKey]
  | cons p rest ih =>
    obtain ⟨k', v'⟩ := p
    unfold setKey
    split
    · simp
    · next hne => simpa [List.lookup_cons, beq_eq_false_iff_ne.2 (Ne.symm hne)] using ih

/-- `it == d.end() ? Value::null() : it->second`. -/
def valueAt (k : String) (d : Dict) : Value := (d.lookup k).getD .null

/-! ## Reading a value -/

namespace Value

/-- The name that error messages use. -/
def typeName : Value → String
  | .null => "null"
  | .bool _ => "bool"
  | .int _ => "int"
  | .float _ => "float"
  | .str _ => "string"
  | .list _ => "List"
  | .dict _ => "Dict"

/-- `null`, `false`, zero, the empty string and the empty containers are false. -/
def truthy (heap : Heap) : Value → Bool
  | .null => false
  | .bool b => b
  | .int i => i != 0
  | .float d => d != 0
  | .str s => s != ""
  | .list addr => !(listAt heap addr).isEmpty
  | .dict addr => !(dictAt heap addr).isEmpty

/-- A number as a double. -/
def asFloat : Value → Float
  | .float d => d
  | .int i => i.toFloat
  | _ => 0

/-- `is_num`. -/
def isNum : Value → Bool
  | .int _ | .float _ => true
  | _ => false

/-- Both are scalars of the same type with the same contents, or both numbers
    with the same value. -/
def equalScalars : Value → Value → Bool
  | .int x, .int y => x == y
  | .null, .null => true
  | .bool x, .bool y => x == y
  | .str x, .str y => x == y
  | x, y => x.isNum && y.isNum && x.asFloat == y.asFloat

/-- `equals` cut off after a number of nested calls. -/
def equalsUpTo (heap : Heap) : ℕ → Value → Value → Bool
  | 0, _, _ => false
  | n + 1, .list x, .list y =>
    let xs := listAt heap x
    let ys := listAt heap y
    xs.length == ys.length && (xs.zip ys).all fun p => equalsUpTo heap n p.1 p.2
  | n + 1, .dict x, .dict y =>
    let xs := dictAt heap x
    let ys := dictAt heap y
    xs.length == ys.length && xs.all fun p =>
      match ys.lookup p.1 with
      | some v => equalsUpTo heap n p.2 v
      | none => false
  | _ + 1, x, y => equalScalars x y

/-- Structural equality.  A comparison that returns never makes the same pair of
    boxes wait for itself, so its calls nest at most once for each pair. -/
def equals (heap : Heap) (x y : Value) : Bool :=
  equalsUpTo heap (heap.length * heap.length + 1) x y

end Value

end Osodio.Odio
