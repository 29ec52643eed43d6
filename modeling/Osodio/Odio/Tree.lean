import Osodio.Odio.Emitter
import Osodio.Odio.Vm

/-!
# Structured code

Between a body and the flat code of its chunk stands a tree of code: it has the
instructions of the chunk, with their constants resolved, and the loops, branches
and `try` blocks of the body.  One relation says which tree a piece of source
becomes, and another one that a tree is laid out in a chunk.

## Main definitions

- `Atom`, `Tree` — structured code
- `Atom.Encodes`, `Lay` — a tree laid out between two positions of a chunk
- `ExprTree`, `StmtTree` — the tree of an expression and of a statement
-/

namespace Osodio.Odio

/-! ## Trees -/

/-- An instruction that goes on to the next one, with its constant resolved. -/
inductive Atom where
  | const (v : Value)
  | loadLocal (slot : ℕ)
  | storeLocal (slot : ℕ)
  | pop
  /-- An operation on values without an operand. -/
  | op (o : Op)
  | makeList (n : ℕ)
  | makeDict (n : ℕ)
  | getMember (name : String)
  | setMember (name : String)
  | callFunction (index argc : ℕ)
  | callMethod (name : String) (argc : ℕ)
  | callNative (id argc : ℕ)
  | callAsync (id argc : ℕ)

/-- Structured code. -/
inductive Tree where
  | nil
  | atom (a : Atom) (loc : SourceLoc)
  | seq (t u : Tree)
  | ret (loc : SourceLoc)
  | retNull (loc : SourceLoc)
  /-- The right-hand side of an `and` or an `or`. -/
  | peek (op : LogOp) (t : Tree) (loc : SourceLoc)
  | cond (t u : Tree) (loc : SourceLoc)
  | when (t : Tree) (loc : SourceLoc)
  | unless (t : Tree) (loc : SourceLoc)
  /-- A loop; `toHead` says that `continue` goes to the head and not to the step. -/
  | loop (head body step : Tree) (toHead : Bool) (loc : SourceLoc)
  | brk (loc : SourceLoc)
  | cont (loc : SourceLoc)
  | tryCatch (body handler : Tree) (loc : SourceLoc)

/-! ## Operations on values -/

def Op.unary : Op → Option (Heap → Value → OpResult)
  | .neg => some negate
  | .not => some notValue
  | .iterList => some Odio.iterList
  | _ => none

def Op.binary : Op → Option (Heap → Value → Value → OpResult)
  | .add => some addValues
  | .sub => some (arithmetic .sub)
  | .mul => some (arithmetic .mul)
  | .div => some (arithmetic .div)
  | .mod => some (arithmetic .mod)
  | .eq => some eqValues
  | .ne => some neValues
  | .lt => some (compareValues .lt)
  | .le => some (compareValues .le)
  | .gt => some (compareValues .gt)
  | .ge => some (compareValues .ge)
  | .addInt => some (Vm.especializada .addInt)
  | .subInt => some (Vm.especializada .subInt)
  | .mulInt => some (Vm.especializada .mulInt)
  | .ltInt => some (Vm.especializada .ltInt)
  | .leInt => some (Vm.especializada .leInt)
  | .gtInt => some (Vm.especializada .gtInt)
  | .geInt => some (Vm.especializada .geInt)
  | .getIndex => some Odio.getIndex
  | _ => none

def Op.ternary : Op → Option (Heap → Value → Value → Value → OpResult)
  | .setIndex => some Odio.setIndex
  | _ => none

/-- How many values an operation takes, if it is one on values. -/
def Op.arity (o : Op) : Option ℕ :=
  if o.unary.isSome then some 1
  else if o.binary.isSome then some 2
  else if o.ternary.isSome then some 3
  else none

/-! ## Layout -/

/-- The operation code of an atom. -/
def Atom.code : Atom → Op
  | const _ => .const
  | loadLocal _ => .loadLocal
  | storeLocal _ => .storeLocal
  | pop => .pop
  | op o => o
  | makeList _ => .makeList
  | makeDict _ => .makeDict
  | getMember _ => .getMember
  | setMember _ => .setMember
  | callFunction _ _ => .callFunction
  | callMethod _ _ => .callMethod
  | callNative _ _ => .callNative
  | callAsync _ _ => .callAsync

/-- A function, a method or a constructor that takes `argc` operands is at an
    index of the table. -/
def Emitter.Callable (X : Emitter) (index argc : ℕ) : Prop :=
  (∃ name sig, (X.functions.getD []).lookup name = some sig ∧ sig.index = index ∧
    sig.defaults.length = argc) ∨
  (∃ cls sig name m, (X.classes.getD []).lookup cls = some sig ∧
    sig.methods.lookup name = some m ∧ m.index = index ∧ m.defaults.length + 1 = argc) ∨
  (∃ cls sig, (X.classes.getD []).lookup cls = some sig ∧ sig.ctors.lookup argc = some index)

/-- A chunk, with what it was emitted against: the tables of its emitter, and the
    templates and the notes of the whole module. -/
structure Context where
  emitter : Emitter
  chunk : Chunk
  plantillas : List Plantilla
  notes : List Note

/-- The operand `k` encodes an atom. -/
def Atom.Encodes (K : Context) : Atom → ℕ → Prop
  | const v, k => K.chunk.constants[k]? = some v
  | loadLocal slot, k | storeLocal slot, k => k = slot ∧ slot < K.chunk.numLocals
  | pop, k => k = 0
  | op o, k => k = 0 ∧ o.arity.isSome
  | makeList n, k | makeDict n, k => k = n
  | getMember name, k | setMember name, k => K.chunk.constants[k]? = some (.str name)
  | callFunction index argc, k =>
    k = callOperand index argc ∧ K.emitter.Callable index argc ∧ .operands argc ∈ K.notes
  | callMethod name argc, k => argc ≤ 255 ∧ .operands (argc + 1) ∈ K.notes ∧
    ∃ j, k = callOperand j argc ∧ K.chunk.constants[j]? = some (.str name)
  | callNative id argc, k => k = callOperand id argc ∧ id < kNatives.length ∧ argc ≤ 255 ∧
    ((nativeAt id).isAsync → .unawaited ∈ K.notes)
  | callAsync id argc, k => k = callOperand id argc ∧ id < kNatives.length ∧ argc ≤ 255 ∧
    K.chunk.hasAwait = true

/-- The instruction at `p`, whose innermost `try` is the head of `nest`. -/
structure InstrAt (K : Context) (nest : List TryRange) (p : ℕ) (op : Op) (operand : ℕ)
    (loc : SourceLoc) : Prop where
  code : K.chunk.code[p]? = some ⟨op, operand, loc⟩
  handler : findHandler K.chunk.tryRanges p = nest.head?

/-- `Lay K lt nest t a b`: the tree `t` is laid out from `a` up to `b`.  `lt` holds
    the targets of `break` and `continue`, and `nest` the `try` ranges around. -/
inductive Lay (K : Context) : Option (ℕ × ℕ) → List TryRange → Tree → ℕ → ℕ → Prop where
  | nil {lt nest a} : Lay K lt nest .nil a a
  | atom {lt nest a k t loc} (hi : InstrAt K nest a t.code k loc) (he : t.Encodes K k) :
      Lay K lt nest (.atom t loc) a (a + 1)
  | seq {lt nest t u a b c} (ht : Lay K lt nest t a b) (hu : Lay K lt nest u b c) :
      Lay K lt nest (.seq t u) a c
  | ret {lt nest a loc} (hi : InstrAt K nest a .ret 0 loc) : Lay K lt nest (.ret loc) a (a + 1)
  | retNull {lt nest a loc} (hi : InstrAt K nest a .retNull 0 loc) :
      Lay K lt nest (.retNull loc) a (a + 1)
  | peek {lt nest op t loc a b}
      (hi : InstrAt K nest a (if op = .and then .jumpIfFalsePeek else .jumpIfTruePeek) b loc)
      (ht : Lay K lt nest t (a + 1) b) : Lay K lt nest (.peek op t loc) a b
  | cond {lt nest t u loc a b c} (hi : InstrAt K nest a .jumpIfFalse (b + 1) loc)
      (ht : Lay K lt nest t (a + 1) b) (hj : InstrAt K nest b .jump c loc)
      (hu : Lay K lt nest u (b + 1) c) : Lay K lt nest (.cond t u loc) a c
  | when {lt nest t loc a b} (hi : InstrAt K nest a .jumpIfFalse b loc)
      (ht : Lay K lt nest t (a + 1) b) : Lay K lt nest (.when t loc) a b
  | unless {lt nest t loc a b} (hi : InstrAt K nest a .jumpIfFalse (a + 2) loc)
      (hj : InstrAt K nest (a + 1) .jump b loc) (ht : Lay K lt nest t (a + 2) b) :
      Lay K lt nest (.unless t loc) a b
  | loop {lt nest head body step toHead loc a b c d}
      (hh : Lay K lt nest head a b) (hi : InstrAt K nest b .jumpIfFalse (d + 1) loc)
      (hb : Lay K (some (d + 1, if toHead then a else c)) nest body (b + 1) c)
      (hs : Lay K lt nest step c d) (hj : InstrAt K nest d .jump a loc) :
      Lay K lt nest (.loop head body step toHead loc) a (d + 1)
  | brk {nest brk cont loc a} (hi : InstrAt K nest a .jump brk loc) :
      Lay K (some (brk, cont)) nest (.brk loc) a (a + 1)
  | cont {nest brk cont loc a} (hi : InstrAt K nest a .jump cont loc) :
      Lay K (some (brk, cont)) nest (.cont loc) a (a + 1)
  | tryCatch {lt nest body handler loc a b c}
      (hb : Lay K lt (⟨a, b, b + 1⟩ :: nest) body a b)
      (hj : InstrAt K nest b .jump c loc)
      (hh : Lay K lt nest handler (b + 1) c) :
      Lay K lt nest (.tryCatch body handler loc) a c

theorem Lay.le {K : Context} {lt : Option (ℕ × ℕ)} {nest : List TryRange} {t : Tree} {a b : ℕ}
    (h : Lay K lt nest t a b) : a ≤ b := by
  induction h <;> omega

/-! ## The tree of an expression -/

/-- The value of a literal. -/
def Expr.literal : Expr → Option Value
  | .stringLit _ text => some (.str text)
  | .intLit _ value => some (.int value)
  | .floatLit _ value => some (.float value)
  | .boolLit _ value => some (.bool value)
  | .nullLit _ => some .null
  | _ => none

/-- The local that a name or `this` stands for. -/
def Expr.localName : Expr → Option String
  | .ident _ text => some text
  | .this _ => some "this"
  | _ => none

/-- A call, and whether it is awaited. -/
structure CallExpr where
  loc : SourceLoc
  object : Expr
  args : List Expr
  named : List (String × SourceLoc × Expr)
  awaited : Bool

def Expr.asCall : Expr → Option CallExpr
  | .call loc object args named => some ⟨loc, object, args, named, false⟩
  | .await _ (.call loc object args named) => some ⟨loc, object, args, named, true⟩
  | _ => none

/-- The receiver of a method call. -/
def Expr.receiver : Expr → Option Expr
  | .member _ recv _ => some recv
  | _ => none

/-- The pieces of source that expressions consist of. -/
inductive ExprItem where
  | expr (e : Expr)
  | exprs (es : List Expr)
  | entries (es : List (Expr × Expr))
  | named (es : List (String × SourceLoc × Expr))

/-- `t` and then the atom `a`. -/
def Tree.andThen (t : Tree) (a : Atom) (loc : SourceLoc) : Tree := .seq t (.atom a loc)

/-- The atoms of a list, one after the other. -/
def Tree.atoms (loc : SourceLoc) : List Atom → Tree
  | [] => .nil
  | a :: as => .seq (.atom a loc) (Tree.atoms loc as)

/-- The code of `++` or `--` on a variable. -/
def stepLocalAtoms (kind : StepKind) (op : StepOp) (slot : ℕ) : List Atom :=
  (if kind = .post then [.loadLocal slot] else []) ++
  [.loadLocal slot, .const (.int 1), .op op.op, .storeLocal slot] ++
  (if kind = .pre then [.loadLocal slot] else [])

/-- What a step leaves once the new value is on top. -/
def stepResultAtoms (kind : StepKind) (prev : ℕ) : List Atom :=
  if kind = .post then [.pop, .loadLocal prev] else []

/-- The code of `++` or `--` on a field, after its receiver; `n` slots are taken. -/
def stepMemberAtoms (kind : StepKind) (op : StepOp) (name : String) (n : ℕ) : List Atom :=
  [.storeLocal n, .loadLocal n, .getMember name, .storeLocal (n + 1), .loadLocal n,
    .loadLocal (n + 1), .const (.int 1), .op op.op, .setMember name] ++
  stepResultAtoms kind (n + 1)

/-- The code of `++` or `--` on an element, after its index; `n` slots are taken. -/
def stepIndexAtoms (kind : StepKind) (op : StepOp) (n : ℕ) : List Atom :=
  [.storeLocal (n + 1), .loadLocal n, .loadLocal (n + 1), .op .getIndex,
    .storeLocal (n + 2), .loadLocal n, .loadLocal (n + 1), .loadLocal (n + 2),
    .const (.int 1), .op op.op, .op .setIndex] ++
  stepResultAtoms kind (n + 2)

/-- A slot of the emitter. -/
def auxLocal (depth : ℕ) (name : String) : Local := ⟨.aux name, depth, ""⟩

/-- A native that suspends is called with `CallAsync`. -/
def nativeAtom (id argc : ℕ) : Atom :=
  if (nativeAt id).isAsync then .callAsync id argc else .callNative id argc

/-- The tree of a piece of an expression, with the locals `Γ` in scope. -/
inductive ExprTree (X : Emitter) (N : List Note) (P : List Plantilla) :
    List Local → ExprItem → Tree → Prop where
  | literal {Γ e v} (h : e.literal = some v) :
      ExprTree X N P Γ (.expr e) (.atom (.const v) e.loc)
  | «local» {Γ e name slot} (h : e.localName = some name)
      (hs : resolveLocal Γ name = some slot) :
      ExprTree X N P Γ (.expr e) (.atom (.loadLocal slot) e.loc)
  | unary {Γ loc op e t} (ht : ExprTree X N P Γ (.expr e) t) :
      ExprTree X N P Γ (.expr (.unary loc op e))
        (t.andThen (.op (if op = .not then .not else .neg)) loc)
  | logical {Γ loc op l r t u} (ht : ExprTree X N P Γ (.expr l) t)
      (hu : ExprTree X N P Γ (.expr r) u) :
      ExprTree X N P Γ (.expr (.logical loc op l r)) (.seq t (.peek op u loc))
  | binary {Γ loc op l r t u} (ht : ExprTree X N P Γ (.expr l) t)
      (hu : ExprTree X N P Γ (.expr r) u) :
      ExprTree X N P Γ (.expr (.binary loc op l r))
        (.seq t (u.andThen (.op (binaryOp (esInt Γ l && esInt Γ r) op)) loc))
  | ternary {Γ loc c l r s t u} (hs : ExprTree X N P Γ (.expr c) s)
      (ht : ExprTree X N P Γ (.expr l) t) (hu : ExprTree X N P Γ (.expr r) u) :
      ExprTree X N P Γ (.expr (.ternary loc c l r)) (.seq s (.cond t u loc))
  | listLit {Γ loc items t} (ht : ExprTree X N P Γ (.exprs items) t) :
      ExprTree X N P Γ (.expr (.listLit loc items)) (t.andThen (.makeList items.length) loc)
  | dictLit {Γ loc entries t} (ht : ExprTree X N P Γ (.entries entries) t) :
      ExprTree X N P Γ (.expr (.dictLit loc entries))
        (t.andThen (.makeDict entries.length) loc)
  | index {Γ loc o i t u} (ht : ExprTree X N P Γ (.expr o) t)
      (hu : ExprTree X N P Γ (.expr i) u) :
      ExprTree X N P Γ (.expr (.index loc o i)) (.seq t (u.andThen (.op .getIndex) loc))
  | sessionGet {Γ loc o name} (hr : reservedObject Γ o = some "session")
      (hm : memberNativeId "session" name = none) :
      ExprTree X N P Γ (.expr (.member loc o name))
        (.seq (.atom (.const (.str name)) loc) (.atom (.callNative sessionGetId 1) loc))
  | memberNative {Γ loc o name obj id} (hr : reservedObject Γ o = some obj)
      (hm : memberNativeId obj name = some id)
      (ha : (nativeAt id).isAsync → .unawaited ∈ N) :
      ExprTree X N P Γ (.expr (.member loc o name)) (.atom (.callNative id 0) loc)
  | member {Γ loc o name t} (hr : reservedObject Γ o = none)
      (ht : ExprTree X N P Γ (.expr o) t) :
      ExprTree X N P Γ (.expr (.member loc o name)) (t.andThen (.getMember name) loc)
  | callNative {Γ e c id name t} (h : e.asCall = some c)
      (hc : resolveCall X Γ c.loc c.object c.args.length c.named.length c.awaited =
        .ok (.native id name))
      (hn : name ≠ "render") (hk : c.named = [])
      (ht : ExprTree X N P Γ (.exprs c.args) t) :
      ExprTree X N P Γ (.expr e) (t.andThen (nativeAtom id c.args.length) c.loc)
  | render {Γ e c id nloc nombre extra idx p t} (h : e.asCall = some c)
      (hc : resolveCall X Γ c.loc c.object c.args.length c.named.length c.awaited =
        .ok (.native id "render"))
      (ha : c.args = .stringLit nloc nombre :: extra) (hx : extra ≠ [] → .dropped ∈ N)
      (hp : P[idx]? = some p) (hidx : idx + 1 < 2 ^ 63)
      (hcompila : ∃ compilar, X.plantillas = some compilar ∧
        compilar nombre (c.named.map fun k => (k.1, tipoDe Γ k.2.2)) = .ok p)
      (ht : ExprTree X N P Γ (.named c.named) t) :
      ExprTree X N P Γ (.expr e)
        (.seq (.atom (.const (.int (Int64.ofNat idx))) c.loc)
          (.seq (t.andThen (.makeDict c.named.length) c.loc)
            (.atom (.callNative renderTplId 2) c.loc)))
  | modulo {Γ e c id obj member t} (h : e.asCall = some c)
      (hc : resolveCall X Γ c.loc c.object c.args.length c.named.length c.awaited =
        .ok (.modulo id obj member))
      (hk : c.named = []) (ht : ExprTree X N P Γ (.exprs c.args) t) :
      ExprTree X N P Γ (.expr e)
        (.seq (.atom (.const (.str obj)) c.loc)
          (t.andThen (.callAsync id (c.args.length + 1)) c.loc))
  | function {Γ e c name sig ds t u} (h : e.asCall = some c)
      (hc : resolveCall X Γ c.loc c.object c.args.length c.named.length c.awaited =
        .ok (.function name sig))
      (hk : c.named = []) (hle : c.args.length ≤ sig.defaults.length)
      (hd : sig.defaults.drop c.args.length = ds.map some)
      (hN : ds ≠ [] → .defaulted ∈ N)
      (ht : ExprTree X N P Γ (.exprs c.args) t) (hu : ExprTree X N P Γ (.exprs ds) u) :
      ExprTree X N P Γ (.expr e)
        ((t.seq u).andThen (.callFunction sig.index sig.defaults.length) c.loc)
  | ctor {Γ e c name sig index t} (h : e.asCall = some c)
      (hc : resolveCall X Γ c.loc c.object c.args.length c.named.length c.awaited =
        .ok (.ctor name sig))
      (hk : c.named = []) (hi : sig.ctors.lookup c.args.length = some index)
      (ht : ExprTree X N P Γ (.exprs c.args) t) :
      ExprTree X N P Γ (.expr e) (t.andThen (.callFunction index c.args.length) c.loc)
  | method {Γ e c recv type name sig ds s t u} (h : e.asCall = some c)
      (hc : resolveCall X Γ c.loc c.object c.args.length c.named.length c.awaited =
        .ok (.method type name sig))
      (hr : c.object.receiver = some recv)
      (hk : c.named = []) (hle : c.args.length ≤ sig.defaults.length)
      (hd : sig.defaults.drop c.args.length = ds.map some)
      (hN : ds ≠ [] → .defaulted ∈ N)
      (hs : ExprTree X N P Γ (.expr recv) s)
      (ht : ExprTree X N P Γ (.exprs c.args) t) (hu : ExprTree X N P Γ (.exprs ds) u) :
      ExprTree X N P Γ (.expr e)
        ((s.seq (t.seq u)).andThen (.callFunction sig.index (sig.defaults.length + 1)) c.loc)
  | dynamic {Γ e c recv name s t} (h : e.asCall = some c)
      (hc : resolveCall X Γ c.loc c.object c.args.length c.named.length c.awaited =
        .ok (.dynamic name))
      (hr : c.object.receiver = some recv) (hk : c.named = [])
      (hs : ExprTree X N P Γ (.expr recv) s) (ht : ExprTree X N P Γ (.exprs c.args) t) :
      ExprTree X N P Γ (.expr e) ((s.seq t).andThen (.callMethod name c.args.length) c.loc)
  | dynamicNamed {Γ e c recv name s t u} (h : e.asCall = some c)
      (hc : resolveCall X Γ c.loc c.object c.args.length c.named.length c.awaited =
        .ok (.dynamic name))
      (hr : c.object.receiver = some recv) (hk : c.named ≠ [])
      (hs : ExprTree X N P Γ (.expr recv) s) (ht : ExprTree X N P Γ (.exprs c.args) t)
      (hu : ExprTree X N P Γ (.named c.named) u) :
      ExprTree X N P Γ (.expr e)
        ((s.seq (t.seq (u.andThen (.makeDict c.named.length) c.loc))).andThen
          (.callMethod name (c.args.length + 1)) c.loc)
  | stepLocal {Γ loc kind op tloc name slot} (hs : resolveLocal Γ name = some slot) :
      ExprTree X N P Γ (.expr (.step loc kind op (.ident tloc name)))
        (.atoms loc (stepLocalAtoms kind op slot))
  | stepMember {Γ loc kind op tloc o name t} (ht : ExprTree X N P Γ (.expr o) t) :
      ExprTree X N P Γ (.expr (.step loc kind op (.member tloc o name)))
        (.seq t (.atoms loc (stepMemberAtoms kind op name Γ.length)))
  | stepIndex {Γ loc kind op tloc o i d t u} (ht : ExprTree X N P Γ (.expr o) t)
      (hu : ExprTree X N P (auxLocal d "contened" :: Γ) (.expr i) u) :
      ExprTree X N P Γ (.expr (.step loc kind op (.index tloc o i)))
        (.seq (t.andThen (.storeLocal Γ.length) loc)
          (.seq u (.atoms loc (stepIndexAtoms kind op Γ.length))))
  | exprsNil {Γ} : ExprTree X N P Γ (.exprs []) .nil
  | exprsCons {Γ e es t u} (ht : ExprTree X N P Γ (.expr e) t)
      (hu : ExprTree X N P Γ (.exprs es) u) : ExprTree X N P Γ (.exprs (e :: es)) (.seq t u)
  | entriesNil {Γ} : ExprTree X N P Γ (.entries []) .nil
  | entriesCons {Γ k v es s t u} (hs : ExprTree X N P Γ (.expr k) s)
      (ht : ExprTree X N P Γ (.expr v) t) (hu : ExprTree X N P Γ (.entries es) u) :
      ExprTree X N P Γ (.entries ((k, v) :: es)) (.seq s (.seq t u))
  | namedNil {Γ} : ExprTree X N P Γ (.named []) .nil
  | namedCons {Γ name loc v es t u} (ht : ExprTree X N P Γ (.expr v) t)
      (hu : ExprTree X N P Γ (.named es) u) :
      ExprTree X N P Γ (.named ((name, loc, v) :: es))
        (.seq (.atom (.const (.str name)) loc) (.seq t u))

/-! ## The tree of a statement -/

inductive StmtItem where
  | stmt (s : Stmt)
  | stmts (ss : List Stmt)

/-- The items, the count and the index of a `for`. -/
def forLocals (depth : ℕ) (Γ : List Local) : List Local :=
  auxLocal depth "index" :: auxLocal depth "count" :: auxLocal depth "items" :: Γ

/-- The header of a `for`, after its target; `n` slots are taken. -/
def forHeaderAtoms (n : ℕ) : List Atom :=
  [.op .iterList, .storeLocal n, .loadLocal n, .callNative lenId 1, .storeLocal (n + 1),
    .const (.int 0), .storeLocal (n + 2)]

/-- The test of a `for`. -/
def forTestAtoms (n : ℕ) : List Atom := [.loadLocal (n + 2), .loadLocal (n + 1), .op .lt]

/-- The next item becomes the variable of a `for`. -/
def forItemAtoms (n : ℕ) : List Atom :=
  [.loadLocal n, .loadLocal (n + 2), .op .getIndex, .storeLocal (n + 3)]

/-- The increment of a `for`. -/
def forStepAtoms (n : ℕ) : List Atom :=
  [.loadLocal (n + 2), .const (.int 1), .op .add, .storeLocal (n + 2)]

/-- The tree of a piece of a body, with the locals before and after it. -/
inductive StmtTree (X : Emitter) (N : List Note) (P : List Plantilla) :
    List Local → StmtItem → Tree → List Local → Prop where
  | returnValue {Γ loc e t} (ht : ExprTree X N P Γ (.expr e) t) :
      StmtTree X N P Γ (.stmt (.returnStmt loc (some e))) (.seq t (.ret loc)) Γ
  | returnNull {Γ loc} : StmtTree X N P Γ (.stmt (.returnStmt loc none)) (.retNull loc) Γ
  | exprStmt {Γ loc e t} (ht : ExprTree X N P Γ (.expr e) t) :
      StmtTree X N P Γ (.stmt (.exprStmt loc e)) (t.andThen .pop loc) Γ
  | varInit {Γ loc type name e t d} (ht : ExprTree X N P Γ (.expr e) t) :
      StmtTree X N P Γ (.stmt (.varDecl loc type name (some e)))
        (t.andThen (.storeLocal Γ.length) loc) (⟨.user name, d, type⟩ :: Γ)
  | varNull {Γ loc type name d} :
      StmtTree X N P Γ (.stmt (.varDecl loc type name none))
        (.seq (.atom (.const .null) loc) (.atom (.storeLocal Γ.length) loc))
        (⟨.user name, d, type⟩ :: Γ)
  | assignSession {Γ loc mloc o name e t} (hr : reservedObject Γ o = some "session")
      (ht : ExprTree X N P Γ (.expr e) t) :
      StmtTree X N P Γ (.stmt (.assign loc (.member mloc o name) e))
        (.seq (.atom (.const (.str name)) loc)
          (.seq t (.atoms loc [.callNative sessionSetId 2, .pop]))) Γ
  | assignMember {Γ loc mloc o name e t u} (hr : reservedObject Γ o ≠ some "session")
      (ht : ExprTree X N P Γ (.expr o) t) (hu : ExprTree X N P Γ (.expr e) u) :
      StmtTree X N P Γ (.stmt (.assign loc (.member mloc o name) e))
        (.seq t (.seq u (.atoms loc [.setMember name, .pop]))) Γ
  | assignIndex {Γ loc iloc o i e s t u} (hs : ExprTree X N P Γ (.expr o) s)
      (ht : ExprTree X N P Γ (.expr i) t) (hu : ExprTree X N P Γ (.expr e) u) :
      StmtTree X N P Γ (.stmt (.assign loc (.index iloc o i) e))
        (.seq s (.seq t (.seq u (.atoms loc [.op .setIndex, .pop])))) Γ
  | assignLocal {Γ loc iloc name e slot t} (hs : resolveLocal Γ name = some slot)
      (ht : ExprTree X N P Γ (.expr e) t) :
      StmtTree X N P Γ (.stmt (.assign loc (.ident iloc name) e))
        (t.andThen (.storeLocal slot) loc) Γ
  | ifThen {Γ Γ' loc c body t u} (ht : ExprTree X N P Γ (.expr c) t)
      (hu : StmtTree X N P Γ (.stmts body) u Γ') :
      StmtTree X N P Γ (.stmt (.ifStmt loc c body [])) (.seq t (.when u loc)) Γ
  | ifElse {Γ Γ' Γ'' loc c body orelse s t u} (hne : orelse ≠ [])
      (hs : ExprTree X N P Γ (.expr c) s) (ht : StmtTree X N P Γ (.stmts body) t Γ')
      (hu : StmtTree X N P Γ (.stmts orelse) u Γ'') :
      StmtTree X N P Γ (.stmt (.ifStmt loc c body orelse)) (.seq s (.cond t u loc)) Γ
  | whileStmt {Γ Γ' loc c body t u} (ht : ExprTree X N P Γ (.expr c) t)
      (hu : StmtTree X N P Γ (.stmts body) u Γ') :
      StmtTree X N P Γ (.stmt (.whileStmt loc c body)) (.loop t u .nil true loc) Γ
  | forStmt {Γ Γ' loc type name target body d t u}
      (ht : ExprTree X N P Γ (.expr target) t)
      (hu : StmtTree X N P (⟨.user name, d, type⟩ :: forLocals d Γ) (.stmts body) u Γ') :
      StmtTree X N P Γ (.stmt (.forStmt loc type name target body))
        (.seq (.seq t (.atoms loc (forHeaderAtoms Γ.length)))
          (.loop (.atoms loc (forTestAtoms Γ.length))
            (.seq (.atoms loc (forItemAtoms Γ.length)) u)
            (.atoms loc (forStepAtoms Γ.length)) false loc)) Γ
  | requireStmt {Γ loc c o t u} (ht : ExprTree X N P Γ (.expr c) t)
      (hu : ExprTree X N P Γ (.expr o) u) :
      StmtTree X N P Γ (.stmt (.requireStmt loc c o))
        (.seq t (.unless (.seq u (.ret loc)) loc)) Γ
  | breakStmt {Γ loc} : StmtTree X N P Γ (.stmt (.breakStmt loc)) (.brk loc) Γ
  | continueStmt {Γ loc} : StmtTree X N P Γ (.stmt (.continueStmt loc)) (.cont loc) Γ
  | tryNamed {Γ Γ' Γ'' loc body name orelse d t u} (ht : StmtTree X N P Γ (.stmts body) t Γ')
      (hu : StmtTree X N P (⟨.user name, d, ""⟩ :: Γ) (.stmts orelse) u Γ'') :
      StmtTree X N P Γ (.stmt (.tryStmt loc body (some name) orelse))
        (.tryCatch t (.seq (.atom (.storeLocal Γ.length) loc) u) loc) Γ
  | tryBare {Γ Γ' Γ'' loc body orelse t u} (ht : StmtTree X N P Γ (.stmts body) t Γ')
      (hu : StmtTree X N P Γ (.stmts orelse) u Γ'') :
      StmtTree X N P Γ (.stmt (.tryStmt loc body none orelse))
        (.tryCatch t (.seq (.atom .pop loc) u) loc) Γ
  | stmtsNil {Γ} : StmtTree X N P Γ (.stmts []) .nil Γ
  | stmtsCons {Γ Γ' Γ'' s ss t u} (ht : StmtTree X N P Γ (.stmt s) t Γ')
      (hu : StmtTree X N P Γ' (.stmts ss) u Γ'') :
      StmtTree X N P Γ (.stmts (s :: ss)) (.seq t u) Γ''

end Osodio.Odio
