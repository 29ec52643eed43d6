import Osodio.Odio.Vm

/-!
# Accessors

A value is a tag and a union.  The source looks at the tag with one function and reads the union
with another one, which does not look: what it reads of a value of another type is undefined.
Here are the operations of the machine as they are written with these functions.

## Main definitions

- `Reading` — a piece of the source that reads values
- `Reading.asInt`, `Reading.asStr`, … — the functions that read
- `Reading.addValues`, `Reading.arithmetic`, `Reading.getIndex`, … — the operations

## Main results

- `Reading.addValues_eq`, `Reading.getIndex_eq`, … — an operation reads every value at its type,
  and does what the patterns of `Osodio.Odio.Operations` say
-/

namespace Osodio.Odio

/-! ## Reading a value -/

/-- What a value can be read as; `num` is what `as_float` reads. -/
inductive Tipo where
  | bool
  | int
  | num
  | str
  | list
  | dict
  deriving DecidableEq, Repr

/-- What ends a piece of the source. -/
inductive Stop where
  /-- An error of the language. -/
  | error (message : String)
  /-- A value is read at a type that it does not have. -/
  | confusion (v : Value) (t : Tipo)
  deriving Repr

/-- A piece of the source that reads values. -/
abbrev Reading := Except Stop

namespace Value

def isBool : Value → Bool
  | .bool _ => true
  | _ => false

def isInt : Value → Bool
  | .int _ => true
  | _ => false

def isFloat : Value → Bool
  | .float _ => true
  | _ => false

def isStr : Value → Bool
  | .str _ => true
  | _ => false

def isList : Value → Bool
  | .list _ => true
  | _ => false

def isDict : Value → Bool
  | .dict _ => true
  | _ => false

end Value

namespace Reading

/-- The error of a test that fails. -/
def fail {α : Type} (message : String) : Reading α := .error (.error message)

def asBool : Value → Reading Bool
  | .bool b => .ok b
  | v => .error (.confusion v .bool)

def asInt : Value → Reading Int64
  | .int n => .ok n
  | v => .error (.confusion v .int)

/-- `as_float` looks whether it has a double, and reads an integer otherwise. -/
def asFloat : Value → Reading Float
  | .float d => .ok d
  | .int n => .ok n.toFloat
  | v => .error (.confusion v .num)

def asStr : Value → Reading String
  | .str s => .ok s
  | v => .error (.confusion v .str)

/-- The address of the box of a list. -/
def asList : Value → Reading ℕ
  | .list addr => .ok addr
  | v => .error (.confusion v .list)

/-- The address of the box of a dictionary. -/
def asDict : Value → Reading ℕ
  | .dict addr => .ok addr
  | v => .error (.confusion v .dict)

/-- What an operation that does not read gives. -/
def lift {α : Type} : Except String α → Reading α
  | .ok a => .ok a
  | .error message => fail message

/-! ## Tests before reads -/

/-- A piece that looks before it reads: it gets through, or ends with the text of an error. -/
def Guarded {α : Type} (x : Reading α) : Prop :=
  ∀ s, x = .error s → ∃ message, message ≠ "" ∧ s = .error message

section Guarded

variable {α β : Type} {x y : Reading α} {f : α → Reading β} {v : Value} {message : String}

@[simp] theorem guarded_ok (a : α) : Guarded (.ok a : Reading α) := nofun

@[simp] theorem guarded_pure (a : α) : Guarded (pure a : Reading α) := nofun

@[simp] theorem guarded_fail : Guarded (fail message : Reading α) ↔ message ≠ "" := by
  constructor
  · intro h
    obtain ⟨m, hm, he⟩ := h _ rfl
    cases he
    exact hm
  · rintro h s hs
    cases hs
    exact ⟨message, h, rfl⟩

theorem Guarded.bind (hx : Guarded x) (hf : ∀ a, x = .ok a → Guarded (f a)) :
    Guarded (x >>= f) := by
  cases x with
  | ok a => exact hf a rfl
  | error s =>
    intro s' h
    cases h
    exact hx s rfl

theorem Guarded.map (hx : Guarded x) (g : α → β) : Guarded (g <$> x) := by
  cases x with
  | ok a => exact guarded_ok _
  | error s =>
    intro s' h
    cases h
    exact hx s rfl

theorem Guarded.ite {c : Prop} [Decidable c] (hx : c → Guarded x) (hy : ¬ c → Guarded y) :
    Guarded (if c then x else y) := by
  split
  · next h => exact hx h
  · next h => exact hy h

theorem guarded_asBool (h : v.isBool = true) : Guarded (asBool v) := by
  cases v <;> first | exact guarded_ok _ | cases h

theorem guarded_asInt (h : v.isInt = true) : Guarded (asInt v) := by
  cases v <;> first | exact guarded_ok _ | cases h

theorem guarded_asFloat (h : v.isNum = true) : Guarded (asFloat v) := by
  cases v <;> first | exact guarded_ok _ | cases h

theorem guarded_asStr (h : v.isStr = true) : Guarded (asStr v) := by
  cases v <;> first | exact guarded_ok _ | cases h

theorem guarded_asList (h : v.isList = true) : Guarded (asList v) := by
  cases v <;> first | exact guarded_ok _ | cases h

theorem guarded_asDict (h : v.isDict = true) : Guarded (asDict v) := by
  cases v <;> first | exact guarded_ok _ | cases h

end Guarded

/-- A piece looks before it reads if `p` holds, and reads a value at another type otherwise. -/
structure GuardedIff {α : Type} (x : Reading α) (p : Prop) : Prop where
  guarded : p → Guarded x
  confuses : ¬ p → ∃ v t, x = .error (.confusion v t)

section GuardedIff

variable {α : Type} {x : Reading α} {p q : Prop}

theorem GuardedIff.of_true (hx : Guarded x) (hp : p) : GuardedIff x p :=
  ⟨fun _ => hx, fun h => absurd hp h⟩

theorem GuardedIff.of_false (hx : ∃ v t, x = .error (.confusion v t)) (hp : ¬ p) :
    GuardedIff x p :=
  ⟨fun h => absurd h hp, fun _ => hx⟩

theorem GuardedIff.congr (h : GuardedIff x p) (hpq : p ↔ q) : GuardedIff x q :=
  ⟨fun hq => h.guarded (hpq.2 hq), fun hq => h.confuses fun hp => hq (hpq.1 hp)⟩

end GuardedIff

/-! ## Operators -/

def numericPair (a b : Value) : Bool := a.isNum && b.isNum

/-- `generico_add`. -/
def addValues (heap : Heap) (a b : Value) : Reading (Value × Heap) := do
  if a.isStr && b.isStr then return (.str ((← asStr a) ++ (← asStr b)), heap)
  else if a.isStr || b.isStr then
    fail ("no se puede sumar " ++ a.typeName ++ " y " ++ b.typeName ++
      "; para concatenar usa str(): \"...\" + str(x)")
  else if numericPair a b then
    if a.isInt && b.isInt then return (.int ((← asInt a) + (← asInt b)), heap)
    else return (.float ((← asFloat a) + (← asFloat b)), heap)
  else if a.isList && b.isList then
    return newList (listAt heap (← asList a) ++ listAt heap (← asList b)) heap
  else fail ("no se puede sumar " ++ a.typeName ++ " y " ++ b.typeName)

/-- `generico_arit`. -/
def arithmetic (op : Arith) (heap : Heap) (a b : Value) : Reading (Value × Heap) := do
  if !numericPair a b then
    fail ("operacion aritmetica entre " ++ a.typeName ++ " y " ++ b.typeName)
  else
    let ints := a.isInt && b.isInt
    match op with
    | .mod =>
      if !ints then fail "'%' solo aplica a enteros"
      else if (← asInt b) == 0 then fail "modulo por cero"
      else return (.int ((← asInt a) % (← asInt b)), heap)
    | .div =>
      if (← asFloat b) == 0 then fail "division por cero"
      -- the remainder is read only of integers
      else if ← (if ints then return (← asInt a) % (← asInt b) == 0 else return false) then
        return (.int ((← asInt a) / (← asInt b)), heap)
      else return (.float ((← asFloat a) / (← asFloat b)), heap)
    | .sub =>
      if ints then return (.int ((← asInt a) - (← asInt b)), heap)
      else return (.float ((← asFloat a) - (← asFloat b)), heap)
    | .mul =>
      if ints then return (.int ((← asInt a) * (← asInt b)), heap)
      else return (.float ((← asFloat a) * (← asFloat b)), heap)

/-- `compare`: nothing when it leaves `ok` false. -/
def compare (op : Cmp) (a b : Value) : Reading (Option Bool) := do
  if numericPair a b then
    if a.isInt && b.isInt then
      let x ← asInt a
      let y ← asInt b
      return some <| match op with
        | .lt => x < y
        | .le => x ≤ y
        | .gt => y < x
        | .ge => y ≤ x
    else
      let x ← asFloat a
      let y ← asFloat b
      return some <| match op with
        | .lt => x < y
        | .le => x ≤ y
        | .gt => y < x
        | .ge => y ≤ x
  else if a.isStr && b.isStr then
    let x ← asStr a
    let y ← asStr b
    return some <| match op with
      | .lt => x < y
      | .le => !decide (y < x)
      | .gt => y < x
      | .ge => !decide (x < y)
  else return none

/-- `generico_cmp`. -/
def compareValues (op : Cmp) (heap : Heap) (a b : Value) : Reading (Value × Heap) := do
  match ← compare op a b with
  | some r => return (.bool r, heap)
  | none => fail ("no se pueden comparar " ++ a.typeName ++ " y " ++ b.typeName)

/-- `Op::Neg`. -/
def negate (heap : Heap) (a : Value) : Reading (Value × Heap) := do
  if a.isInt then return (.int (-(← asInt a)), heap)
  else if a.isFloat then return (.float (-(← asFloat a)), heap)
  else fail ("no se puede negar " ++ a.typeName)

section Operators

variable (heap : Heap) (a b : Value)

theorem addValues_eq : addValues heap a b = lift (Odio.addValues heap a b) := by
  cases a <;> cases b <;> rfl

theorem arithmetic_eq (op : Arith) :
    arithmetic op heap a b = lift (Odio.arithmetic op heap a b) := by
  cases op with
  | mod =>
    cases a <;> cases b <;> try rfl
    next x y =>
      change (if y == 0 then _ else _) = lift (if y == 0 then _ else _)
      split <;> rfl
  | div =>
    have hfloat : ∀ x y : Float, (if y == 0 then fail "division por cero"
        else .ok (Value.float (x / y), heap)) = lift (if y == 0 then .error "division por cero"
        else .ok (Value.float (x / y), heap)) := by
      intro x y
      split <;> rfl
    cases a <;> cases b <;> try first | rfl | exact hfloat ..
    next x y =>
      change (if y.toFloat == 0 then _ else if x % y == 0 then _ else _) =
        lift (if y.toFloat == 0 then _ else if x % y == 0 then _ else _)
      split
      · rfl
      · split <;> rfl
  | sub => cases a <;> cases b <;> rfl
  | mul => cases a <;> cases b <;> rfl

theorem compareValues_eq (op : Cmp) :
    compareValues op heap a b = lift (Odio.compareValues op heap a b) := by
  cases a <;> cases b <;> rfl

theorem negate_eq : negate heap a = lift (Odio.negate heap a) := by cases a <;> rfl

end Operators

/-! ## Integers known to the emitter -/

/-- `generico_arit`, for the code of an instruction. -/
def genericoArit (op : Op) : Heap → Value → Value → Reading (Value × Heap) :=
  match op.sinEspecializar with
  | .mod => arithmetic .mod
  | .div => arithmetic .div
  | .sub => arithmetic .sub
  | _ => arithmetic .mul

/-- `generico_cmp`, likewise. -/
def genericoCmp (op : Op) : Heap → Value → Value → Reading (Value × Heap) :=
  match op.sinEspecializar with
  | .lt => compareValues .lt
  | .le => compareValues .le
  | .gt => compareValues .gt
  | _ => compareValues .ge

/-- `Op::AddInt` and the like: without two integers the generic code runs. -/
def especializada (op : Op) (heap : Heap) (va vb : Value) : Reading (Value × Heap) := do
  if !va.isInt || !vb.isInt then
    match op with
    | .addInt => addValues heap va vb
    | .subInt | .mulInt => genericoArit op heap va vb
    | _ => genericoCmp op heap va vb
  else
    let x ← asInt va
    let y ← asInt vb
    match op with
    | .addInt => return (.int (x + y), heap)
    | .subInt => return (.int (x - y), heap)
    | .mulInt => return (.int (x * y), heap)
    | .ltInt => return (.bool (x < y), heap)
    | .leInt => return (.bool (x ≤ y), heap)
    | .gtInt => return (.bool (y < x), heap)
    | _ => return (.bool (y ≤ x), heap)

section Operators

variable (op : Op) (heap : Heap) (a b : Value)

theorem genericoArit_eq : genericoArit op heap a b = lift (Vm.genericoArit op heap a b) := by
  unfold genericoArit Vm.genericoArit
  cases op.sinEspecializar <;> exact arithmetic_eq ..

theorem genericoCmp_eq : genericoCmp op heap a b = lift (Vm.genericoCmp op heap a b) := by
  unfold genericoCmp Vm.genericoCmp
  cases op.sinEspecializar <;> exact compareValues_eq ..

theorem especializada_eq : especializada op heap a b = lift (Vm.especializada op heap a b) := by
  -- without two integers both sides are the generic code
  have hgeneric : (match op with
      | .addInt => addValues heap a b
      | .subInt | .mulInt => genericoArit op heap a b
      | _ => genericoCmp op heap a b) = lift (match op with
      | .addInt => Odio.addValues heap a b
      | .subInt | .mulInt => Vm.genericoArit op heap a b
      | _ => Vm.genericoCmp op heap a b) := by
    split
    · exact addValues_eq ..
    · exact genericoArit_eq ..
    · exact genericoArit_eq ..
    · exact genericoCmp_eq ..
  cases a with
  | int x =>
    cases b with
    | int y => cases op <;> rfl
    | _ => exact hgeneric
  | _ => exact hgeneric

end Operators

/-! ## Containers -/

/-- `Op::GetIndex`. -/
def getIndex (heap : Heap) (obj idx : Value) : Reading (Value × Heap) := do
  if obj.isList then
    if !idx.isInt then fail "el indice de una List tiene que ser int"
    else
      let i ← asInt idx
      let l := listAt heap (← asList obj)
      return (l.getD (← lift (position l i)) .null, heap)
  else if obj.isDict then
    if !idx.isStr then fail "la clave de un Dict tiene que ser string"
    else
      let d := dictAt heap (← asDict obj)
      return (valueAt (← asStr idx) d, heap)
  else fail ("no se puede indexar " ++ obj.typeName)

/-- `Op::SetIndex`. -/
def setIndex (heap : Heap) (obj idx v : Value) : Reading (Value × Heap) := do
  if obj.isList then
    if !idx.isInt then fail "el indice de una List tiene que ser int"
    else
      let i ← asInt idx
      let addr ← asList obj
      let l := listAt heap addr
      return (v, heap.set addr (.list (l.set (← lift (position l i)) v)))
  else if obj.isDict then
    if !idx.isStr then fail "la clave de un Dict tiene que ser string"
    else
      let addr ← asDict obj
      return (v, heap.set addr (.dict (setKey (← asStr idx) v (dictAt heap addr))))
  else fail ("no se puede indexar " ++ obj.typeName)

/-- `Op::GetMember`, whose name is a constant. -/
def getMember (constant : Value) (heap : Heap) (obj : Value) : Reading (Value × Heap) := do
  let name ← asStr constant
  if !obj.isDict then
    fail ("'" ++ name ++ "' sobre " ++ obj.typeName ++ ", que no tiene campos")
  else return (valueAt name (dictAt heap (← asDict obj)), heap)

/-- `Op::SetMember`. -/
def setMember (constant : Value) (heap : Heap) (obj v : Value) : Reading (Value × Heap) := do
  let name ← asStr constant
  if !obj.isDict then
    fail ("no se puede asignar '" ++ name ++ "' sobre " ++ obj.typeName)
  else
    let addr ← asDict obj
    return (v, heap.set addr (.dict (setKey name v (dictAt heap addr))))

/-- `Op::IterList`. -/
def iterList (heap : Heap) (v : Value) : Reading (Value × Heap) := do
  if v.isList then return (v, heap)
  else if v.isDict then
    return newList ((dictAt heap (← asDict v)).map fun p => .str p.1) heap
  else fail ("no se puede recorrer " ++ v.typeName ++ " con 'for'")

/-- The keys and values of a dictionary literal, in turn. -/
def pairsFrom (d : Dict) : List Value → Reading Dict
  | k :: v :: rest => do
    if !k.isStr then fail ("la clave de un Dict tiene que ser string, no " ++ k.typeName)
    else pairsFrom (setKey (← asStr k) v d) rest
  | _ => .ok d

/-- `Op::MakeDict`. -/
def makeDict (heap : Heap) (keysAndValues : List Value) : Reading (Value × Heap) := do
  return newDict (← pairsFrom [] keysAndValues) heap

section Containers

variable (heap : Heap) (obj idx v : Value)

theorem getIndex_eq : getIndex heap obj idx = lift (Odio.getIndex heap obj idx) := by
  cases obj <;> cases idx <;> try rfl
  next addr i =>
    change (do
        return ((listAt heap addr).getD (← lift (position (listAt heap addr) i)) _, heap)) =
      lift (do let at' ← position (listAt heap addr) i; return (_, heap))
    cases position (listAt heap addr) i <;> rfl

theorem setIndex_eq : setIndex heap obj idx v = lift (Odio.setIndex heap obj idx v) := by
  cases obj <;> cases idx <;> try rfl
  next addr i =>
    change (do return (v, heap.set addr (.list ((listAt heap addr).set
        (← lift (position (listAt heap addr) i)) v)))) =
      lift (do let at' ← position (listAt heap addr) i; return (v, heap.set addr _))
    cases position (listAt heap addr) i <;> rfl

theorem getMember_eq (name : String) :
    getMember (.str name) heap obj = lift (Odio.getMember name heap obj) := by cases obj <;> rfl

theorem setMember_eq (name : String) :
    setMember (.str name) heap obj v = lift (Odio.setMember name heap obj v) := by
  cases obj <;> rfl

theorem iterList_eq : iterList heap v = lift (Odio.iterList heap v) := by cases v <;> rfl

theorem pairsFrom_eq (d : Dict) :
    ∀ l : List Value, pairsFrom d l = lift (Odio.pairsFrom d l)
  | [] => rfl
  | [v] => by cases v <;> rfl
  | k :: v :: rest => by
    cases k with
    | str s => exact pairsFrom_eq (setKey s v d) rest
    | _ => rfl

theorem makeDict_eq (keysAndValues : List Value) :
    makeDict heap keysAndValues = lift (Odio.makeDict heap keysAndValues) := by
  rw [makeDict, pairsFrom_eq, Odio.makeDict]
  cases Odio.pairsFrom [] keysAndValues <;> rfl

end Containers

end Reading

end Osodio.Odio
