import Mathlib.Algebra.Order.Ring.Int
import Mathlib.Data.List.Nodup
import Osodio.Odio.Chunks

/-!
# The operands of calls

A call is packed into one word: the index of what it calls, and below it, in eight bits, how many
operands it passes.  The number of operands on the stack is that of the code before the call.

## Main definitions

- `Tree.net` — how many values the code of a tree leaves on the stack
- `Calls` — what a call of the source calls, behind the code of its operands
- `CallAt` — an instruction is such a call
- `Instr.Decodes` — what the machine reads from the word is what was packed

## Main results

- `Compiled.callable` — an index in a signature leads to its body
- `ExprTree.net_eq` — the code of an expression leaves its value
- `Tree.Ready.at` — every call of a chunk is one of the source
- `CallAt.decodes_iff` — one call
- `calls_decode` — every call of an accepted program
-/

namespace Osodio.Odio

/-! ## The table -/

section Table

variable {p : Program} {pre rest : List ClassDecl} {c : ClassDecl} {b : Body} {k : ℕ}

theorem length_bodies (c : ClassDecl) : c.bodies.length = c.size := by
  simp [ClassDecl.bodies, ClassDecl.size]

/-- The bodies of a class come behind the functions and the classes before it. -/
theorem Program.table_class (hp : p.classes = pre ++ c :: rest) (hb : c.bodies[k]? = some b) :
    p.table[p.functions.length + (pre.map ClassDecl.size).sum + k]? = some b := by
  have hlen : (pre.flatMap ClassDecl.bodies).length = (pre.map ClassDecl.size).sum := by
    rw [List.length_flatMap]
    exact congrArg List.sum (List.map_congr_left fun c _ => length_bodies c)
  have hk : k < c.bodies.length := (List.getElem?_eq_some_iff.1 hb).1
  have htable : p.table = (p.functions.map Body.function ++ pre.flatMap ClassDecl.bodies) ++
      (c.bodies ++ rest.flatMap ClassDecl.bodies) := by
    rw [Program.table, hp, List.flatMap_append, List.flatMap_cons, List.append_assoc]
  rw [htable, List.getElem?_append_right (by simp [hlen])]
  rw [List.length_append, List.length_map, hlen, Nat.add_sub_cancel_left,
    List.getElem?_append_left hk]
  exact hb

/-- **An index in a signature leads to the body it was made for**, which takes the operands that
    the signature stands for. -/
theorem Compiled.callable {M : Module} (h : Compiled p M) {caller : Body} {index argc : ℕ}
    (hX : (M.emitter caller).Callable index argc) :
    ∃ callee, p.table[index]? = some callee ∧ callee.arity = argc := by
  obtain ⟨fns, cls, compilar, hfns, hcls, hem⟩ := h.emitter
  have hclass : ∀ {name sig}, ((M.emitter caller).classes.getD []).lookup name = some sig →
      cls.lookup name = some sig := by
    intro name sig hl
    rw [hem] at hl
    cases caller <;> first | exact hl | cases hl
  rcases hX with ⟨name, sig, hl, rfl, rfl⟩ | ⟨name, sig, m, fsig, hl, hm, rfl, rfl⟩ |
    ⟨name, sig, hl, hc⟩
  · rw [hem] at hl
    obtain ⟨k, f, hi, hf, -, hd⟩ := functionSigs_spec hfns hl
    refine ⟨.function f, ?_, hd.symm⟩
    have hk : k < p.functions.length := (List.getElem?_eq_some_iff.1 hf).1
    rw [hi, Nat.zero_add, Program.table, List.getElem?_append_left (by simpa using hk),
      List.getElem?_map, hf]
    rfl
  · obtain ⟨pre, c, rest, hp, -, hms, -⟩ := classSigs_spec hcls (hclass hl)
    obtain ⟨k, f, hi, hf, -, hd⟩ := methodSigs_spec hms hm
    have hk : k < c.methods.length := (List.getElem?_eq_some_iff.1 hf).1
    refine ⟨.method c.name f, ?_, by rw [hd]; rfl⟩
    rw [hi]
    refine Program.table_class hp ?_
    rw [ClassDecl.bodies, List.getElem?_append_left (by simpa using hk), List.getElem?_map, hf]
    rfl
  · obtain ⟨pre, c, rest, hp, -, -, hcs⟩ := classSigs_spec hcls (hclass hl)
    obtain ⟨k, ct, hi, hct, rfl⟩ := ctorSigs_spec hcs hc
    refine ⟨.ctor c.name c.fieldNames ct, ?_, rfl⟩
    rw [hi, Nat.add_assoc]
    refine Program.table_class hp ?_
    rw [ClassDecl.bodies, List.getElem?_append_right (by simp), List.length_map,
      Nat.add_sub_cancel_left, List.getElem?_map, hct]
    rfl

/-- The table comes first among the bodies. -/
theorem Compiled.bodies_table {M : Module} (h : Compiled p M) {index : ℕ} {callee : Body}
    (hc : p.table[index]? = some callee) : M.bodies[index]? = some callee := by
  rw [h.bodies]
  exact (List.getElem?_append_left (List.getElem?_eq_some_iff.1 hc).1).trans hc

end Table


/-! ## What a tree leaves on the stack -/

/-- The values that an atom leaves, less those that it takes. -/
def Atom.net : Atom → ℤ
  | const _ | loadLocal _ => 1
  | storeLocal _ | pop => -1
  | op o => 1 - (o.arity.getD 1 : ℕ)
  | makeList n => 1 - n
  | makeDict n => 1 - 2 * n
  | getMember _ => 0
  | setMember _ => -1
  | callFunction _ argc | callNative _ argc | callAsync _ argc => 1 - argc
  | callMethod _ argc => -argc

/-- The values that a tree leaves, less those that it takes.  Statements leave none. -/
def Tree.net : Tree → ℤ
  | atom a _ => a.net
  | seq t u => t.net + u.net
  | peek _ t _ => t.net - 1
  | cond t _ _ => t.net - 1
  | _ => 0

/-- The values of a piece of an expression. -/
def ExprItem.width : ExprItem → ℤ
  | expr _ => 1
  | exprs es => es.length
  | entries es => 2 * es.length
  | named es => 2 * es.length

section Net

variable {X : Emitter} {N : List Note} {P : List Plantilla} {Γ : List Local} {item : ExprItem}
  {t u : Tree} {a : Atom} {loc : SourceLoc}

@[simp] theorem Tree.net_nil : Tree.nil.net = 0 := rfl

@[simp] theorem Tree.net_atom : (Tree.atom a loc).net = a.net := rfl

@[simp] theorem Tree.net_seq : (Tree.seq t u).net = t.net + u.net := rfl

@[simp] theorem Tree.net_andThen : (t.andThen a loc).net = t.net + a.net := rfl

@[simp] theorem Tree.net_peek {op : LogOp} : (Tree.peek op t loc).net = t.net - 1 := rfl

@[simp] theorem Tree.net_cond : (Tree.cond t u loc).net = t.net - 1 := rfl

@[simp] theorem Tree.net_atoms {as : List Atom} :
    (Tree.atoms loc as).net = (as.map Atom.net).sum := by
  induction as with
  | nil => rfl
  | cons a as ih =>
    rw [Tree.atoms, Tree.net_seq, Tree.net_atom, ih, List.map_cons, List.sum_cons]

theorem net_binaryOp (ints : Bool) (op : BinOp) : (Atom.op (binaryOp ints op)).net = -1 := by
  cases ints <;> cases op <;> rfl

theorem net_stepOp (op : StepOp) : (Atom.op op.op).net = -1 := by
  cases op <;> rfl

theorem net_nativeAtom (id argc : ℕ) : (nativeAtom id argc).net = 1 - argc := by
  unfold nativeAtom
  split <;> rfl

/-- **The code of an expression leaves its value**, and that of several expressions one for each. -/
theorem ExprTree.net_eq (h : ExprTree X N P Γ item t) : t.net = item.width := by
  induction h with
  | literal | «local» => rfl
  | @unary Γ loc op e t ht ih =>
    rw [Tree.net_andThen, ih]
    split <;> rfl
  | logical _ _ iht ihu => rw [Tree.net_seq, Tree.net_peek, iht, ihu]; rfl
  | binary _ _ iht ihu =>
    rw [Tree.net_seq, Tree.net_andThen, iht, ihu, net_binaryOp]
    rfl
  | ternary _ _ _ ihs iht ihu => rw [Tree.net_seq, Tree.net_cond, ihs, iht]; rfl
  | listLit _ ih => simp [ih, Atom.net, ExprItem.width]
  | dictLit _ ih => simp [ih, Atom.net, ExprItem.width]
  | index _ _ iht ihu => rw [Tree.net_seq, Tree.net_andThen, iht, ihu]; rfl
  | sessionGet | memberNative => rfl
  | member _ _ ih => rw [Tree.net_andThen, ih]; rfl
  | callNative _ _ _ _ _ ih =>
    rw [Tree.net_andThen, ih, net_nativeAtom]
    simp [ExprItem.width]
  | render _ _ _ _ _ _ _ _ ih => simp [ih, Atom.net, ExprItem.width]
  | modulo _ _ _ _ ih =>
    simp only [Tree.net_seq, Tree.net_atom, Tree.net_andThen, ih, Atom.net, ExprItem.width]
    omega
  | @function Γ e c name sig ds t u _ _ _ hle hd _ _ _ iht ihu =>
    have hlen := congrArg List.length hd
    rw [List.length_drop, List.length_map] at hlen
    simp only [Tree.net_andThen, Tree.net_seq, iht, ihu, Atom.net, ExprItem.width]
    omega
  | ctor _ _ _ _ _ ih => simp [ih, Atom.net, ExprItem.width]
  | @method Γ e c recv type name sig ds s t u _ _ _ _ hle hd _ _ _ _ ihs iht ihu =>
    have hlen := congrArg List.length hd
    rw [List.length_drop, List.length_map] at hlen
    simp only [Tree.net_andThen, Tree.net_seq, ihs, iht, ihu, Atom.net, ExprItem.width]
    omega
  | dynamic _ _ _ _ _ _ ihs iht =>
    simp only [Tree.net_andThen, Tree.net_seq, ihs, iht, Atom.net, ExprItem.width]
    omega
  | dynamicNamed _ _ _ _ _ _ _ ihs iht ihu =>
    simp only [Tree.net_andThen, Tree.net_seq, ihs, iht, ihu, Atom.net, ExprItem.width]
    omega
  | @stepLocal Γ loc kind op tloc name slot hs =>
    rw [Tree.net_atoms]
    cases kind <;> cases op <;> rfl
  | @stepMember Γ loc kind op tloc o name t _ ih =>
    rw [Tree.net_seq, ih, Tree.net_atoms]
    cases kind <;> cases op <;> rfl
  | @stepIndex Γ loc kind op tloc o i d t u _ _ iht ihu =>
    rw [Tree.net_seq, Tree.net_seq, Tree.net_andThen, iht, ihu, Tree.net_atoms]
    cases kind <;> cases op <;> rfl
  | exprsNil | entriesNil | namedNil => rfl
  | exprsCons _ _ iht ihu =>
    simp only [Tree.net_seq, iht, ihu, ExprItem.width, List.length_cons]
    omega
  | entriesCons _ _ _ ihs iht ihu =>
    simp only [Tree.net_seq, ihs, iht, ihu, ExprItem.width, List.length_cons]
    omega
  | namedCons _ _ iht ihu =>
    simp only [Tree.net_seq, Tree.net_atom, Atom.net, iht, ihu, ExprItem.width, List.length_cons]
    omega

end Net

/-! ## Calls of the source -/

def Op.isCall : Op → Bool
  | .callFunction | .callMethod | .callNative | .callAsync => true
  | _ => false

/-- The operands that an atom passes, the receiver of a method among them. -/
def Atom.operands : Atom → ℕ
  | callFunction _ argc | callNative _ argc | callAsync _ argc => argc
  | callMethod _ argc => argc + 1
  | _ => 0

/-- The call `c` of the source is resolved to `callee`, with the locals `Γ` in scope. -/
structure CallExpr.Resolves (X : Emitter) (Γ : List Local) (c : CallExpr) (callee : Callee) :
    Prop where
  source : ∃ e : Expr, e.asCall = some c
  resolved : resolveCall X Γ c.loc c.object c.args.length c.named.length c.awaited = .ok callee

section Calls

variable (X : Emitter) (N : List Note) (P : List Plantilla)

/-- `Calls u a`: the code `u` of the operands of a call is followed by the atom `a` of what the
    source resolves the call to, with the locals of some place in scope. -/
inductive Calls : Tree → Atom → Prop where
  | native {Γ : List Local} {c : CallExpr} {id name t} (hc : c.Resolves X Γ (.native id name))
      (hn : name ≠ "render") (hk : c.named = [])
      (ht : ExprTree X N P Γ (.exprs c.args) t) : Calls t (nativeAtom id c.args.length)
  | render {Γ : List Local} {c : CallExpr} {id v t} (hc : c.Resolves X Γ (.native id "render"))
      (ht : ExprTree X N P Γ (.named c.named) t) :
      Calls (.seq (.atom (.const v) c.loc) (t.andThen (.makeDict c.named.length) c.loc))
        (.callNative renderTplId 2)
  | modulo {Γ : List Local} {c : CallExpr} {id obj member t}
      (hc : c.Resolves X Γ (.modulo id obj member)) (hk : c.named = [])
      (ht : ExprTree X N P Γ (.exprs c.args) t) :
      Calls (.seq (.atom (.const (.str obj)) c.loc) t) (.callAsync id (c.args.length + 1))
  | function {Γ : List Local} {c : CallExpr} {name sig ds t u}
      (hc : c.Resolves X Γ (.function name sig)) (hk : c.named = [])
      (hle : c.args.length ≤ sig.defaults.length)
      (hd : sig.defaults.drop c.args.length = ds.map some)
      (ht : ExprTree X N P Γ (.exprs c.args) t) (hu : ExprTree X N P Γ (.exprs ds) u) :
      Calls (t.seq u) (.callFunction sig.index sig.defaults.length)
  | ctor {Γ : List Local} {c : CallExpr} {name sig index t} (hc : c.Resolves X Γ (.ctor name sig))
      (hk : c.named = []) (hi : sig.ctors.lookup c.args.length = some index)
      (ht : ExprTree X N P Γ (.exprs c.args) t) : Calls t (.callFunction index c.args.length)
  | method {Γ : List Local} {c : CallExpr} {recv type name sig ds s t u}
      (hc : c.Resolves X Γ (.method type name sig)) (hr : c.object.receiver = some recv)
      (hk : c.named = []) (hle : c.args.length ≤ sig.defaults.length)
      (hd : sig.defaults.drop c.args.length = ds.map some)
      (hs : ExprTree X N P Γ (.expr recv) s) (ht : ExprTree X N P Γ (.exprs c.args) t)
      (hu : ExprTree X N P Γ (.exprs ds) u) :
      Calls (s.seq (t.seq u)) (.callFunction sig.index (sig.defaults.length + 1))
  | dynamic {Γ : List Local} {c : CallExpr} {recv name s t} (hc : c.Resolves X Γ (.dynamic name))
      (hr : c.object.receiver = some recv) (hk : c.named = [])
      (hs : ExprTree X N P Γ (.expr recv) s) (ht : ExprTree X N P Γ (.exprs c.args) t) :
      Calls (s.seq t) (.callMethod name c.args.length)
  /-- The named arguments are one more operand, a dictionary. -/
  | dynamicNamed {Γ : List Local} {c : CallExpr} {recv name s t u}
      (hc : c.Resolves X Γ (.dynamic name)) (hr : c.object.receiver = some recv)
      (hk : c.named ≠ []) (hs : ExprTree X N P Γ (.expr recv) s)
      (ht : ExprTree X N P Γ (.exprs c.args) t)
      (hu : ExprTree X N P Γ (.named c.named) u) :
      Calls (s.seq (t.seq (u.andThen (.makeDict c.named.length) c.loc)))
        (.callMethod name (c.args.length + 1))
  /-- `session.name`, read. -/
  | sessionGet {Γ : List Local} {o name loc} (hr : reservedObject Γ o = some "session")
      (hm : memberNativeId "session" name = none) :
      Calls (.atom (.const (.str name)) loc) (.callNative sessionGetId 1)
  /-- A member of a reserved object, read. -/
  | memberNative {Γ : List Local} {o name obj id} (hr : reservedObject Γ o = some obj)
      (hm : memberNativeId obj name = some id) : Calls .nil (.callNative id 0)
  /-- `session.name = e`. -/
  | sessionSet {Γ : List Local} {o name e t loc} (hr : reservedObject Γ o = some "session")
      (ht : ExprTree X N P Γ (.expr e) t) :
      Calls (.seq (.atom (.const (.str name)) loc) t) (.callNative sessionSetId 2)
  /-- The items of a `for` are counted. -/
  | count {n loc} : Calls (.atom (.loadLocal n) loc) (.callNative lenId 1)

variable {X N P} {t u : Tree} {a : Atom}

/-- **As many operands as a call passes are pushed before it.** -/
theorem Calls.net_eq (h : Calls X N P u a) : u.net = a.operands := by
  cases h with
  | native hc hn hk ht =>
    rw [ht.net_eq, nativeAtom]
    split <;> rfl
  | render hc ht => simp [ht.net_eq, Atom.net, ExprItem.width, Atom.operands]
  | modulo hc hk ht =>
    simp only [Tree.net_seq, Tree.net_atom, ht.net_eq, Atom.net, ExprItem.width, Atom.operands]
    omega
  | function hc hk hle hd ht hu =>
    have hlen := congrArg List.length hd
    rw [List.length_drop, List.length_map] at hlen
    simp only [Tree.net_seq, ht.net_eq, hu.net_eq, ExprItem.width, Atom.operands]
    omega
  | ctor hc hk hi ht => exact ht.net_eq
  | method hc hr hk hle hd hs ht hu =>
    have hlen := congrArg List.length hd
    rw [List.length_drop, List.length_map] at hlen
    simp only [Tree.net_seq, hs.net_eq, ht.net_eq, hu.net_eq, ExprItem.width, Atom.operands]
    omega
  | dynamic hc hr hk hs ht =>
    simp only [Tree.net_seq, hs.net_eq, ht.net_eq, ExprItem.width, Atom.operands]
    omega
  | dynamicNamed hc hr hk hs ht hu =>
    simp only [Tree.net_seq, Tree.net_andThen, hs.net_eq, ht.net_eq, hu.net_eq, Atom.net,
      ExprItem.width, Atom.operands]
    omega
  | sessionGet | memberNative | count => rfl
  | sessionSet hr ht => simp [ht.net_eq, Atom.net, ExprItem.width, Atom.operands]

end Calls

/-! ## Every call is one of the source -/

/-- Every call of a tree comes after its operands, where `R` is the relation between the operands
    of a call and the call. -/
inductive Tree.Ready (R : Tree → Atom → Prop) : Tree → Prop where
  | nil : Ready R .nil
  | atom {a loc} (h : a.code.isCall = false) : Ready R (.atom a loc)
  | call {u a loc} (h : R u a) (hu : Ready R u) : Ready R (u.andThen a loc)
  | alone {a loc} (h : R .nil a) : Ready R (.atom a loc)
  | seq {t u} (ht : Ready R t) (hu : Ready R u) : Ready R (.seq t u)
  /-- The operands of a call may begin before the tree that the call is in. -/
  | assoc {t u v} (h : Ready R (.seq (.seq t u) v)) : Ready R (.seq t (.seq u v))
  | ret {loc} : Ready R (.ret loc)
  | retNull {loc} : Ready R (.retNull loc)
  | peek {op t loc} (ht : Ready R t) : Ready R (.peek op t loc)
  | cond {t u loc} (ht : Ready R t) (hu : Ready R u) : Ready R (.cond t u loc)
  | when {t loc} (ht : Ready R t) : Ready R (.when t loc)
  | unless {t loc} (ht : Ready R t) : Ready R (.unless t loc)
  | loop {head body step toHead loc} (hh : Ready R head) (hb : Ready R body) (hs : Ready R step) :
      Ready R (.loop head body step toHead loc)
  | brk {loc} : Ready R (.brk loc)
  | cont {loc} : Ready R (.cont loc)
  | tryCatch {body handler loc} (hb : Ready R body) (hh : Ready R handler) :
      Ready R (.tryCatch body handler loc)

section Ready

variable {R : Tree → Atom → Prop} {K : Context} {t : Tree} {a b p : ℕ} {i : Instr}

theorem Tree.Ready.atoms {loc : SourceLoc} {as : List Atom}
    (h : ∀ a ∈ as, a.code.isCall = false) : Ready R (Tree.atoms loc as) := by
  induction as with
  | nil => exact .nil
  | cons a as ih =>
    obtain ⟨ha, has⟩ := List.forall_mem_cons.1 h
    exact .seq (.atom ha) (ih has)

/-- The instruction `i` at `p` is the call `a`, behind the code `u` of its operands. -/
structure PlacedCall (R : Tree → Atom → Prop) (K : Context) (p : ℕ) (i : Instr) (a : Atom) :
    Prop where
  op : i.op = a.code
  encodes : a.Encodes K i.operand
  operands : ∃ u start lt nest, R u a ∧ Lay K lt nest u start p

theorem InstrAt.not_call {nest : List TryRange} {op : Op} {k : ℕ} {loc : SourceLoc}
    (h : InstrAt K nest p op k loc) (hop : op.isCall = false) (hi : K.chunk.code[p]? = some i) :
    i.op.isCall = false := by
  obtain rfl : i = ⟨op, k, loc⟩ := Option.some.inj (hi.symm.trans h.code)
  exact hop

/-- **A call in the code of a tree that is ready has its operands before it.** -/
theorem Tree.Ready.placed (h : t.Ready R) {lt : Option (ℕ × ℕ)} {nest : List TryRange}
    (hl : Lay K lt nest t a b) (hap : a ≤ p) (hpb : p < b) (hi : K.chunk.code[p]? = some i)
    (hcall : i.op.isCall = true) : ∃ call, PlacedCall R K p i call := by
  -- an instruction that is no call is not the one at `p`
  have hne : ∀ {nest q op k loc}, InstrAt K nest q op k loc → op.isCall = false → p ≠ q := by
    rintro nest q op k loc hq hop rfl
    have := hq.not_call hop hi
    rw [hcall] at this
    cases this
  induction h generalizing lt nest a b with
  | nil =>
    cases hl
    omega
  | atom h =>
    cases hl with
    | atom hia _ => exact absurd (by omega) (hne hia h)
  | @call u call loc h _ ih =>
    cases hl with
    | @seq _ _ _ _ _ m _ hu hc =>
      by_cases hpm : p < m
      · exact ih hu hap hpm
      · cases hc with
        | atom hia he =>
          obtain rfl : p = m := by omega
          obtain rfl : i = ⟨_, _, _⟩ := Option.some.inj (hi.symm.trans hia.code)
          exact ⟨call, rfl, he, u, a, lt, nest, h, hu⟩
  | @alone call loc h =>
    cases hl with
    | atom hia he =>
      obtain rfl : p = a := by omega
      obtain rfl : i = ⟨_, _, _⟩ := Option.some.inj (hi.symm.trans hia.code)
      exact ⟨call, rfl, he, .nil, p, lt, nest, h, .nil⟩
  | seq _ _ iht ihu =>
    cases hl with
    | @seq _ _ _ _ _ m _ ht hu =>
      by_cases hpm : p < m
      · exact iht ht hap hpm
      · exact ihu hu (by omega) hpb
  | assoc _ ih =>
    cases hl with
    | seq ht h =>
      cases h with
      | seq hu hv => exact ih (.seq (.seq ht hu) hv) hap hpb
  | ret =>
    cases hl with
    | ret hia => exact absurd (by omega) (hne hia rfl)
  | retNull =>
    cases hl with
    | retNull hia => exact absurd (by omega) (hne hia rfl)
  | peek _ ih =>
    cases hl with
    | peek hia ht =>
      have := hne hia (by split <;> rfl)
      exact ih ht (by omega) hpb
  | cond _ _ iht ihu =>
    cases hl with
    | @cond _ _ _ _ _ _ m _ hia ht hja hu =>
      have := hne hia rfl
      have := hne hja rfl
      by_cases hpm : p < m
      · exact iht ht (by omega) hpm
      · exact ihu hu (by omega) hpb
  | when _ ih =>
    cases hl with
    | when hia ht =>
      have := hne hia rfl
      exact ih ht (by omega) hpb
  | «unless» _ ih =>
    cases hl with
    | «unless» hia hja ht =>
      have := hne hia rfl
      have := hne hja rfl
      exact ih ht (by omega) hpb
  | loop _ _ _ ihh ihb ihs =>
    cases hl with
    | @loop _ _ _ _ _ _ _ _ m c d hh hia hb hs hja =>
      have := hne hia rfl
      have := hne hja rfl
      by_cases hpm : p < m
      · exact ihh hh hap hpm
      · by_cases hpc : p < c
        · exact ihb hb (by omega) hpc
        · exact ihs hs (by omega) (by omega)
  | brk =>
    cases hl with
    | brk hia => exact absurd (by omega) (hne hia rfl)
  | cont =>
    cases hl with
    | cont hia => exact absurd (by omega) (hne hia rfl)
  | tryCatch _ _ ihb ihh =>
    cases hl with
    | @tryCatch _ _ _ _ _ _ m _ hb hja hh =>
      have := hne hja rfl
      by_cases hpm : p < m
      · exact ihb hb hap hpm
      · exact ihh hh (by omega) hpb

end Ready

section Bodies

variable {X : Emitter} {N : List Note} {P : List Plantilla} {Γ Γ' : List Local}
  {item : ExprItem} {t : Tree} {b : Body}

theorem isCall_binaryOp (ints : Bool) (op : BinOp) : (binaryOp ints op).isCall = false := by
  cases ints <;> cases op <;> rfl

/-- The calls of an expression come after their operands. -/
theorem ExprTree.ready (h : ExprTree X N P Γ item t) : t.Ready (Calls X N P) := by
  induction h with
  | literal h | «local» h => exact .atom rfl
  | unary _ ih =>
    refine .seq ih (.atom ?_)
    split <;> rfl
  | logical _ _ iht ihu => exact .seq iht (.peek ihu)
  | binary _ _ iht ihu => exact .seq iht (.seq ihu (.atom (isCall_binaryOp _ _)))
  | ternary _ _ _ ihs iht ihu => exact .seq ihs (.cond iht ihu)
  | listLit _ ih | dictLit _ ih | member _ _ ih => exact .seq ih (.atom rfl)
  | index _ _ iht ihu => exact .seq iht (.seq ihu (.atom rfl))
  | sessionGet hr hm => exact .call (.sessionGet hr hm) (.atom rfl)
  | memberNative hr hm => exact .alone (.memberNative hr hm)
  | callNative h hc hn hk ht ih => exact .call (.native ⟨⟨_, h⟩, hc⟩ hn hk ht) ih
  | render h hc ha hx hp hidx hcompila ht ih =>
    exact .assoc (.call (.render ⟨⟨_, h⟩, hc⟩ ht) (.seq (.atom rfl) (.seq ih (.atom rfl))))
  | modulo h hc hk ht ih =>
    exact .assoc (.call (.modulo ⟨⟨_, h⟩, hc⟩ hk ht) (.seq (.atom rfl) ih))
  | function h hc hk hle hd hN ht hu iht ihu =>
    exact .call (.function ⟨⟨_, h⟩, hc⟩ hk hle hd ht hu) (.seq iht ihu)
  | ctor h hc hk hi ht ih => exact .call (.ctor ⟨⟨_, h⟩, hc⟩ hk hi ht) ih
  | method h hc hr hk hle hd hN hs ht hu ihs iht ihu =>
    exact .call (.method ⟨⟨_, h⟩, hc⟩ hr hk hle hd hs ht hu) (.seq ihs (.seq iht ihu))
  | dynamic h hc hr hk hs ht ihs iht =>
    exact .call (.dynamic ⟨⟨_, h⟩, hc⟩ hr hk hs ht) (.seq ihs iht)
  | dynamicNamed h hc hr hk hs ht hu ihs iht ihu =>
    exact .call (.dynamicNamed ⟨⟨_, h⟩, hc⟩ hr hk hs ht hu)
      (.seq ihs (.seq iht (.seq ihu (.atom rfl))))
  | @stepLocal Γ loc kind op tloc name slot hs =>
    refine .atoms ?_
    cases kind <;> cases op <;> simp [stepLocalAtoms, Atom.code, Op.isCall, StepOp.op]
  | @stepMember Γ loc kind op tloc o name t _ ih =>
    refine .seq ih (.atoms ?_)
    cases kind <;> cases op <;>
      simp [stepMemberAtoms, stepResultAtoms, Atom.code, Op.isCall, StepOp.op]
  | @stepIndex Γ loc kind op tloc o i d t u _ _ iht ihu =>
    refine .seq (.seq iht (.atom rfl)) (.seq ihu (.atoms ?_))
    cases kind <;> cases op <;>
      simp [stepIndexAtoms, stepResultAtoms, Atom.code, Op.isCall, StepOp.op]
  | exprsNil | entriesNil | namedNil => exact .nil
  | exprsCons _ _ iht ihu => exact .seq iht ihu
  | entriesCons _ _ _ ihs iht ihu => exact .seq ihs (.seq iht ihu)
  | namedCons _ _ iht ihu => exact .seq (.atom rfl) (.seq iht ihu)

theorem ready_forHeader {t : Tree} {loc : SourceLoc} (n : ℕ) (h : t.Ready (Calls X N P)) :
    (t.seq (.atoms loc (forHeaderAtoms n))).Ready (Calls X N P) := by
  -- the loading of the items and their count stand in the middle of the header
  have hcount : (Tree.atoms loc [.loadLocal n, .callNative lenId 1, .storeLocal (n + 1),
      .const (.int 0), .storeLocal (n + 2)]).Ready (Calls X N P) :=
    .assoc (.seq (.call .count (.atom rfl)) (.atoms (by simp [Atom.code, Op.isCall])))
  exact .seq h (.seq (.atom rfl) (.seq (.atom rfl) hcount))

/-- The calls of a statement come after their operands. -/
theorem StmtTree.ready {item : StmtItem} (h : StmtTree X N P Γ item t Γ') :
    t.Ready (Calls X N P) := by
  have hatoms : ∀ {loc as}, (∀ a ∈ as, a.code.isCall = false) →
      (Tree.atoms loc as).Ready (Calls X N P) := .atoms
  induction h with
  | returnValue ht => exact .seq ht.ready .ret
  | returnNull => exact .retNull
  | exprStmt ht => exact .seq ht.ready (.atom rfl)
  | varInit ht => exact .seq ht.ready (.atom rfl)
  | varNull => exact .seq (.atom rfl) (.atom rfl)
  | assignSession hr ht =>
    exact .assoc (.assoc (.seq (.call (.sessionSet hr ht) (.seq (.atom rfl) ht.ready))
      (.seq (.atom rfl) .nil)))
  | assignMember _ ht hu =>
    exact .seq ht.ready (.seq hu.ready (hatoms (by simp [Atom.code, Op.isCall])))
  | assignIndex hs ht hu =>
    exact .seq hs.ready (.seq ht.ready (.seq hu.ready (hatoms (by simp [Atom.code, Op.isCall]))))
  | assignLocal _ ht => exact .seq ht.ready (.atom rfl)
  | ifThen ht _ ih => exact .seq ht.ready (.when ih)
  | ifElse _ hs _ _ iht ihu => exact .seq hs.ready (.cond iht ihu)
  | whileStmt ht _ ih => exact .loop ht.ready ih .nil
  | forStmt ht _ ih =>
    refine .seq (ready_forHeader _ ht.ready) (.loop (hatoms ?_) (.seq (hatoms ?_) ih) (hatoms ?_))
    · simp [forTestAtoms, Atom.code, Op.isCall]
    · simp [forItemAtoms, Atom.code, Op.isCall]
    · simp [forStepAtoms, Atom.code, Op.isCall]
  | requireStmt ht hu => exact .seq ht.ready (.unless (.seq hu.ready .ret))
  | breakStmt => exact .brk
  | continueStmt => exact .cont
  | tryNamed _ _ iht ihu => exact .tryCatch iht (.seq (.atom rfl) ihu)
  | tryBare _ _ iht ihu => exact .tryCatch iht (.seq (.atom rfl) ihu)
  | stmtsNil => exact .nil
  | stmtsCons _ _ iht ihu => exact .seq iht ihu

theorem GuardsTree.ready {gs : List Guard} (h : GuardsTree X N P Γ gs t) :
    t.Ready (Calls X N P) := by
  induction h with
  | nil => exact .nil
  | cons ht hu _ ih => exact .seq (.seq ht.ready (.unless (.seq hu.ready .ret))) ih

/-- The calls of a body come after their operands. -/
theorem BodyTree.ready (h : BodyTree X N P b t) : t.Ready (Calls X N P) := by
  cases h with
  | function ht => exact .seq ht.ready .retNull
  | method ht => exact .seq ht.ready .retNull
  | ctor hb ht =>
    refine .seq (.atoms ?_) (.seq ht.ready (.seq (.atom rfl) .ret))
    simp +contextual [instanceAtoms, Atom.code, Op.isCall, or_imp]
  | ctorFields hb hi =>
    refine .seq (.atoms ?_) (.seq (.atoms ?_) (.seq (.atom rfl) .ret))
    · simp +contextual [instanceAtoms, Atom.code, Op.isCall, or_imp]
    · simp +contextual [fieldInitAtoms, Atom.code, Op.isCall, or_imp]
  | condition ht => exact .seq ht.ready .ret
  | route ht hu => exact .seq ht.ready (.seq hu.ready .retNull)
  | errorHandler ht => exact .seq ht.ready .retNull

end Bodies

/-! ## Words -/

namespace Instr

variable (i : Instr)

/-- The operand, in the 32 bits that an instruction has for it. -/
def word : ℕ := i.operand % 2 ^ 32

/-- The receiver of a method is not counted in the word. -/
def uncounted : ℕ := if i.op = .callMethod then 1 else 0

/-- The machine reads the index and the number of operands of a call from its word. -/
structure Decodes (index n : ℕ) : Prop where
  callee : calleeOf i.word = index
  count : argcOf i.word + i.uncounted = n

/-- The word has room for an index and a number of operands. -/
structure Room (index n : ℕ) : Prop where
  index : index < 2 ^ 24
  count : n ≤ 255 + i.uncounted

end Instr

/-- The index that stands for what an atom calls, in its operand `k`: in the table of functions, in
    that of the natives, or of the constant with the name of a method. -/
def Atom.Names (K : Context) (k : ℕ) : Atom → ℕ → Prop
  | callFunction index _, j | callNative index _, j | callAsync index _, j => j = index
  | callMethod name argc, j =>
    K.chunk.constants[j]? = some (.str name) ∧ k = callOperand j argc
  | _, _ => False

/-- The instruction `i` at `p` is a call that the source resolves to the entry `index`, and the
    code before it pushes `n` operands. -/
def CallAt (K : Context) (p : ℕ) (i : Instr) (index n : ℕ) : Prop :=
  ∃ a, PlacedCall (fun u a => Calls K.emitter K.notes K.plantillas u a ∧ u.net = n) K p i a ∧
    a.Names K i.operand index

section Words

variable {K : Context} {p index argc n : ℕ} {i : Instr} {a : Atom}

/-- One word: the index and the count come back exactly if they fit. -/
theorem callOperand_decodes :
    (calleeOf (callOperand index argc % 2 ^ 32) = index ∧
      argcOf (callOperand index argc % 2 ^ 32) = argc) ↔ index < 2 ^ 24 ∧ argc ≤ 255 := by
  by_cases hargc : argc ≤ 255
  · rw [callOperand_eq_add index hargc, calleeOf, argcOf, Nat.shiftRight_eq_div_pow,
      show (0xFF : ℕ) = 2 ^ 8 - 1 from rfl, Nat.and_two_pow_sub_one_eq_mod]
    omega
  · refine iff_of_false (fun h => hargc ?_) fun h => hargc h.2
    rw [← h.2]
    exact argcOf_le _

theorem operands_eq_of_calls {u : Tree} {X : Emitter} {N : List Note} {P : List Plantilla}
    (h : Calls X N P u a ∧ u.net = n) : a.operands = n := by
  have := h.1.net_eq.symm.trans h.2
  exact_mod_cast this

theorem CallAt.operand_eq (h : CallAt K p i index n) :
    ∃ argc, i.operand = callOperand index argc ∧ n = argc + i.uncounted ∧
      (i.op = .callFunction → K.emitter.Callable index n) := by
  obtain ⟨a, ⟨hop, henc, u, start, lt, nest, hR, -⟩, hnames⟩ := h
  have hn := operands_eq_of_calls hR
  rw [Instr.uncounted, hop]
  cases a with
  | callFunction j argc =>
    obtain rfl : index = j := hnames
    obtain rfl : argc = n := hn
    exact ⟨argc, henc.1, rfl, fun _ => henc.2.1⟩
  | callMethod name argc => exact ⟨argc, hnames.2, hn.symm, nofun⟩
  | callNative id argc =>
    obtain rfl : index = id := hnames
    exact ⟨argc, henc.1, hn.symm, nofun⟩
  | callAsync id argc =>
    obtain rfl : index = id := hnames
    exact ⟨argc, henc.1, hn.symm, nofun⟩
  | _ => exact absurd hnames id

/-- **One call** is decoded to what it calls exactly if there is room for it in the word. -/
theorem CallAt.decodes_iff (h : CallAt K p i index n) : i.Decodes index n ↔ i.Room index n := by
  obtain ⟨argc, hoperand, rfl, -⟩ := h.operand_eq
  have hword := @callOperand_decodes index argc
  rw [← hoperand] at hword
  constructor
  · rintro ⟨hcallee, hcount⟩
    obtain ⟨hi, ha⟩ := hword.1 ⟨hcallee, Nat.add_right_cancel hcount⟩
    exact ⟨hi, Nat.add_le_add_right ha _⟩
  · rintro ⟨hi, ha⟩
    obtain ⟨hcallee, hcount⟩ := hword.2 ⟨hi, Nat.le_of_add_le_add_right ha⟩
    exact ⟨hcallee, congrArg (· + i.uncounted) hcount⟩

/-- A call behind its operands is one that the source resolves. -/
theorem PlacedCall.callAt (h : PlacedCall (Calls K.emitter K.notes K.plantillas) K p i a)
    (hcall : i.op.isCall = true) : ∃ index n, CallAt K p i index n := by
  obtain ⟨hop, henc, u, start, lt, nest, hR, hl⟩ := h
  have hplaced : PlacedCall
      (fun u b => Calls K.emitter K.notes K.plantillas u b ∧ u.net = a.operands) K p i a :=
    ⟨hop, henc, u, start, lt, nest, ⟨hR, hR.net_eq⟩, hl⟩
  rw [hop] at hcall
  cases a with
  | callFunction index argc => exact ⟨index, _, _, hplaced, rfl⟩
  | callMethod name argc =>
    obtain ⟨-, -, j, hk, hj⟩ := henc
    exact ⟨j, _, _, hplaced, hj, hk⟩
  | callNative id argc => exact ⟨id, _, _, hplaced, rfl⟩
  | callAsync id argc => exact ⟨id, _, _, hplaced, rfl⟩
  | op o =>
    -- an operation on values is no call
    have harity := henc.2
    cases o <;> first | exact absurd harity (by decide) | cases hcall
  | _ => cases hcall

end Words

/-! ## Programs -/

/-- What the emitter makes of the bodies of a module and of the expressions of its templates. -/
inductive Module.Emits (M : Module) : Body → Context → Prop where
  | own {b c} (h : (b, c) ∈ M.bodies.zip M.chunks) :
      M.Emits b ⟨M.emitter b, c, M.plantillas, M.notes⟩
  | plantilla {fuel ps s} {e : Expr} {names : List (String × String)}
      (h : compileBody (M.emitter (.condition e names)) fuel (.condition e names) ps = .ok s) :
      M.Emits (.condition e names)
        ⟨M.emitter (.condition e names), s.chunk, s.plantillas, s.notes⟩

section Programs

variable {p : Program} {M : Module} {b : Body} {K : Context} {pos : ℕ} {i : Instr}

theorem Module.Emits.tree (hK : M.Emits b K) (h : Compiled p M) :
    K.emitter = M.emitter b ∧ ∃ t, BodyTree K.emitter K.notes K.plantillas b t ∧
      Lay K none [] t 0 K.chunk.code.length := by
  cases hK with
  | own hmem => exact ⟨rfl, (List.forall₂_iff_zip.1 h.chunks).2 hmem |>.tree⟩
  | plantilla hs =>
    exact ⟨rfl, (compileBody_spec hs List.prefix_rfl (List.Subset.refl _)).2.tree⟩

/-- Every call of a program that compiles is one that the source resolves. -/
theorem Module.Emits.callAt (hK : M.Emits b K) (h : Compiled p M)
    (hi : K.chunk.code[pos]? = some i) (hcall : i.op.isCall = true) :
    ∃ index n, CallAt K pos i index n := by
  obtain ⟨-, t, ht, hl⟩ := hK.tree h
  have hpos : pos < K.chunk.code.length := (List.getElem?_eq_some_iff.1 hi).1
  obtain ⟨a, ha⟩ := ht.ready.placed hl (Nat.zero_le pos) hpos hi hcall
  exact ha.callAt hcall

theorem CallAt.callee {index n : ℕ} (hc : CallAt K pos i index n) (hK : M.Emits b K)
    (h : Compiled p M) (hop : i.op = .callFunction) :
    ∃ callee, M.bodies[index]? = some callee ∧ callee.arity = n := by
  obtain ⟨-, -, -, hcallable⟩ := hc.operand_eq
  have hX := hcallable hop
  rw [(hK.tree h).1] at hX
  obtain ⟨callee, htable, harity⟩ := h.callable hX
  exact ⟨callee, h.bodies_table htable, harity⟩

end Programs

/-! ## A wide constructor -/

/-- The parameter `aaaaa…`, which is different for each number. -/
def anchoParam (k : ℕ) : Param where
  type := "int"
  name := String.ofList (List.replicate (k + 5) 'a')
  loc := {}

def anchuraCtor (n : ℕ) : CtorDecl where
  params := (List.range n).map anchoParam
  body := some []

def anchuraReturn (n : ℕ) : Stmt :=
  .returnStmt {} (some (.call {} (.ident {} "C") (List.replicate n (.intLit {} 0)) []))

def anchuraRoute (n : ℕ) : RouteDecl where
  method := "GET"
  params := [{ type := "int", name := "x", loc := {} }]
  body := [anchuraReturn n]

/-- A class with a constructor of `n` parameters, and the route `x` that calls it. -/
def anchura (n : ℕ) : Program where
  classes := [{ name := "C", ctors := [anchuraCtor n] }]
  routes := [anchuraRoute n]

section Wide

variable {X : Emitter} {s : EmitState} {n : ℕ}

theorem declaredInScope_eq_false {name : LocalName} (h : name ∉ s.locals.map Local.name) :
    declaredInScope name s.scopeDepth s.locals = false := by
  rw [declaredInScope, List.any_eq_false]
  intro l hl heq
  have hmem : l ∈ s.locals := (List.takeWhile_prefix _).subset hl
  exact h (List.mem_map.2 ⟨l, hmem, of_decide_eq_true heq⟩)

/-- Parameters with different names are declared. -/
theorem declareParams_ok {params : List Param} (hnodup : (params.map Param.name).Nodup)
    (hnew : ∀ p ∈ params, LocalName.user p.name ∉ s.locals.map Local.name) :
    ∃ s', declareParams params s = .ok ((), s') ∧
      s'.locals.map Local.name =
        (params.map fun p => LocalName.user p.name).reverse ++ s.locals.map Local.name := by
  induction params generalizing s with
  | nil => exact ⟨s, rfl, rfl⟩
  | cons p ps ih =>
    rw [List.map_cons, List.nodup_cons] at hnodup
    obtain ⟨hp, hps⟩ := List.forall_mem_cons.1 hnew
    have hdecl : declareLocal (.user p.name) p.loc p.type s =
        .ok (s.locals.length, s.declare (.user p.name) p.type) :=
      declareLocal_ok.2 ⟨declaredInScope_eq_false hp, rfl, rfl⟩
    have hrest : ∀ q ∈ ps, LocalName.user q.name ∉
        (s.declare (.user p.name) p.type).locals.map Local.name := by
      intro q hq
      rw [EmitState.declare, List.map_cons, List.mem_cons, not_or]
      refine ⟨fun heq => ?_, hps q hq⟩
      injection heq with heq
      exact hnodup.1 (List.mem_map.2 ⟨q, hq, heq⟩)
    obtain ⟨s', hs', hnames⟩ := ih hnodup.2 hrest
    refine ⟨s', Emit.bind_ok.2 ⟨_, _, hdecl, hs'⟩, ?_⟩
    rw [hnames]
    simp [EmitState.declare]

theorem name_anchoParam (k : ℕ) : (anchoParam k).name.length = k + 5 := by
  rw [anchoParam, String.length_ofList, List.length_replicate]

theorem nodup_anchoParam (n : ℕ) : (((List.range n).map anchoParam).map Param.name).Nodup := by
  rw [List.map_map]
  refine List.Nodup.map (Function.Injective.of_comp (f := String.length) fun a b h => ?_)
    List.nodup_range
  have hlen : (anchoParam a).name.length = (anchoParam b).name.length := h
  rw [name_anchoParam, name_anchoParam] at hlen
  omega

/-- The constructor is emitted. -/
theorem emitCtor_anchura (n : ℕ) (ps : List Plantilla) :
    ∃ s, compileBody X 1 (.ctor "C" [] (anchuraCtor n)) ps = .ok s := by
  obtain ⟨s₁, hs₁, hnames⟩ := declareParams_ok (s := { plantillas := ps }) (nodup_anchoParam n)
    (fun _ _ => List.not_mem_nil)
  have hthis : LocalName.user "this" ∉ s₁.locals.map Local.name := by
    rw [hnames]
    simp only [List.map_nil, List.append_nil, List.mem_reverse, List.mem_map, not_exists, not_and]
    rintro p ⟨k, -, rfl⟩ heq
    injection heq with heq
    have hlen := congrArg String.length heq
    rw [name_anchoParam] at hlen
    have : "this".length = 4 := rfl
    omega
  have hdecl : declareLocal (.user "this") {} "C" s₁ =
      .ok (s₁.locals.length, s₁.declare (.user "this") "C") :=
    declareLocal_ok.2 ⟨declaredInScope_eq_false hthis, rfl, rfl⟩
  have hemit : ∃ s', emitCtor X 1 "C" [] (anchuraCtor n) { plantillas := ps } = .ok ((), s') :=
    ⟨_, Emit.bind_ok.2 ⟨(), s₁, hs₁, Emit.bind_ok.2 ⟨_, _, hdecl, rfl⟩⟩⟩
  obtain ⟨s', hs'⟩ := hemit
  refine ⟨s', ?_⟩
  rw [compileBody, Body.emit, hs']
  rfl

theorem emitExprs_zeros (dflt : Expr → Emit Unit) (n : ℕ) (s : EmitState) :
    ∃ s', emitExprsWith X dflt (List.replicate n (.intLit {} 0)) s = .ok ((), s') := by
  induction n generalizing s with
  | zero => exact ⟨s, rfl⟩
  | succ n ih =>
    obtain ⟨s₁, hs₁⟩ : ∃ s₁, emitExprWith X dflt (.intLit {} 0) s = .ok ((), s₁) := ⟨_, rfl⟩
    obtain ⟨s₂, hs₂⟩ := ih s₁
    exact ⟨s₂, Emit.bind_ok.2 ⟨_, _, hs₁, hs₂⟩⟩

theorem resolveCall_anchura {Γ : List Local} {sig : ClassSig} {k : ℕ}
    (hf : X.functions.getD [] = []) (hc : X.classes.getD [] = [("C", sig)]) :
    resolveCall X Γ {} (.ident {} "C") k 0 false = .ok (.ctor "C" sig) := by
  have hnative : nativeId "C" = none := by decide +kernel
  simp only [resolveCall, hnative, hf, hc]
  rfl

theorem emitCall_anchura {sig : ClassSig} (hf : X.functions.getD [] = [])
    (hc : X.classes.getD [] = [("C", sig)]) (hi : sig.ctors.lookup n = some 0) (s : EmitState) :
    ∃ s', emitExpr X 1 (.call {} (.ident {} "C") (List.replicate n (.intLit {} 0)) []) s =
      .ok ((), s') := by
  obtain ⟨s₁, hs₁⟩ := emitExprs_zeros (X := X) (emitExpr X 0) n s
  refine ⟨(s₁.addNote (.operands (List.replicate n (Expr.intLit {} 0)).length)).push
    ⟨.callFunction, callOperand 0 (List.replicate n (Expr.intLit {} 0)).length, {}⟩,
    Emit.bind_ok.2 ⟨s.locals, s, rfl, Emit.bind_ok.2 ⟨.ctor "C" sig, s, ?_,
      Emit.bind_ok.2 ⟨(), s₁, hs₁, ?_⟩⟩⟩⟩
  · exact Emit.lift_ok.2 ⟨resolveCall_anchura hf hc, rfl⟩
  · rw [← List.length_replicate (n := n) (a := Expr.intLit {} 0)] at hi
    simp only [hi]
    exact emitCallFunction_ok.2 rfl

/-- The route is emitted. -/
theorem emitRoute_anchura {c : ClassSig} (hf : X.functions.getD [] = [])
    (hc : X.classes.getD [] = [("C", c)]) (hi : c.ctors.lookup n = some 0)
    (ps : List Plantilla) : ∃ s, compileBody X 1 (.route (anchuraRoute n)) ps = .ok s := by
  obtain ⟨s₁, hs₁⟩ : ∃ s₁, declareParams (anchuraRoute n).params { plantillas := ps } =
      .ok ((), s₁) := ⟨_, rfl⟩
  obtain ⟨s₂, hs₂⟩ : ∃ s₂, beginScope s₁ = .ok ((), s₂) := ⟨_, rfl⟩
  obtain ⟨s₃, hs₃⟩ := emitCall_anchura hf hc hi s₂
  obtain ⟨s₄, hs₄⟩ : ∃ s₄, emitStmt X (emitExpr X 1) (anchuraReturn n) s₂ = .ok ((), s₄) :=
    ⟨_, Emit.bind_ok.2 ⟨_, _, hs₃, rfl⟩⟩
  obtain ⟨s₅, hs₅⟩ : ∃ s₅, emitRoute X 1 (anchuraRoute n) { plantillas := ps } = .ok ((), s₅) :=
    ⟨_, Emit.bind_ok.2 ⟨_, _, hs₁, Emit.bind_ok.2 ⟨_, _, rfl, Emit.bind_ok.2 ⟨_, _,
      Emit.bind_ok.2 ⟨_, _, hs₂, Emit.bind_ok.2 ⟨_, _, Emit.bind_ok.2 ⟨_, _, hs₄, rfl⟩, rfl⟩⟩,
      rfl⟩⟩⟩⟩
  refine ⟨s₅, ?_⟩
  rw [compileBody, Body.emit, hs₅]
  rfl

/-- A constructor of any number of parameters is accepted, and so is its call. -/
theorem anchura_compiles (n : ℕ) :
    ∃ M, compile (fun _ _ => .error "") 1 (anchura n) = .ok M ∧
      M.bodies = [.ctor "C" [] (anchuraCtor n), .route (anchuraRoute n)] ∧
      M.emitter = Body.emitter [] [("C", { ctors := [(n, 0)] })] [] (fun _ _ => .error "") := by
  set em := Body.emitter [] [("C", { ctors := [(n, 0)] })] [] (fun _ _ => .error "") with hem
  have hsigs : classSigs (anchura n).functions.length (anchura n).classes =
      .ok [("C", { ctors := [(n, 0)] })] := by
    have hlen : (anchuraCtor n).params.length = n := by simp [anchuraCtor]
    change Except.ok [("C", ({ ctors := [((anchuraCtor n).params.length, 0)] } : ClassSig))] = _
    rw [hlen]
  obtain ⟨s₁, hs₁⟩ := emitCtor_anchura (X := em (.ctor "C" [] (anchuraCtor n))) n []
  obtain ⟨s₂, hs₂⟩ := emitRoute_anchura (X := em (.route (anchuraRoute n))) (n := n)
    (c := { ctors := [(n, 0)] }) rfl rfl (by simp) s₁.plantillas
  have hall : compileAll em 1 [] ((anchura n).table ++ (anchura n).entries) =
      .ok ⟨[s₁.chunk, s₂.chunk], s₂.plantillas, s₁.notes ++ (s₂.notes ++ [])⟩ := by
    change compileAll em 1 [] [.ctor "C" [] (anchuraCtor n), .route (anchuraRoute n)] = _
    rw [compileAll, hs₁]
    change (compileAll em 1 s₁.plantillas [.route (anchuraRoute n)]).bind _ = _
    rw [compileAll, hs₂]
    rfl
  have hfns : functionSigs 0 (anchura n).functions = .ok [] := rfl
  have hfields : checkFields ((anchura n).classes.flatMap (·.fields)) = .ok () := rfl
  simp only [compile, hfns, hsigs, hfields, bind, Except.bind]
  rw [show (anchura n).imports = [] from rfl, ← hem, hall]
  exact ⟨_, rfl, rfl, rfl⟩

theorem ExprTree.anchura_inv {N : List Note} {P : List Plantilla} {Γ : List Local} {t : Tree}
    {sig : ClassSig} (hf : X.functions.getD [] = []) (hc : X.classes.getD [] = [("C", sig)])
    (hi : sig.ctors.lookup n = some 0)
    (h : ExprTree X N P Γ
      (.expr (.call {} (.ident {} "C") (List.replicate n (.intLit {} 0)) [])) t) :
    ∃ u, Calls X N P u (.callFunction 0 n) ∧ t = u.andThen (.callFunction 0 n) {} := by
  have hlen := List.length_replicate (n := n) (a := Expr.intLit {} 0)
  have hres : ∀ {c : CallExpr} {callee : Callee},
      Expr.asCall (.call {} (.ident {} "C") (List.replicate n (.intLit {} 0)) []) = some c →
      resolveCall X Γ c.loc c.object c.args.length c.named.length c.awaited = .ok callee →
      callee = .ctor "C" sig ∧ c.args.length = n ∧ c.loc = {} := by
    intro c callee h hcall
    obtain rfl := Option.some.inj h
    exact ⟨Except.ok.inj (hcall.symm.trans (resolveCall_anchura hf hc)), hlen, rfl⟩
  cases h with
  | literal h => cases h
  | «local» h => cases h
  | @ctor _ _ c name sig' index t h hc' hk hi' ht =>
    obtain ⟨hcallee, hn, hloc⟩ := hres h hc'
    injection hcallee with hname hsig
    have hindex : index = 0 := by
      rw [hsig, hn, hi] at hi'
      exact (Option.some.inj hi').symm
    rw [hindex, hn, hloc]
    refine ⟨t, ?_, rfl⟩
    have := Calls.ctor ⟨⟨_, h⟩, hc'⟩ hk hi' ht
    rwa [hindex, hn] at this
  | callNative h hc' => cases (hres h hc').1
  | render h hc' => cases (hres h hc').1
  | modulo h hc' => cases (hres h hc').1
  | function h hc' => cases (hres h hc').1
  | method h hc' => cases (hres h hc').1
  | dynamic h hc' => cases (hres h hc').1
  | dynamicNamed h hc' => cases (hres h hc').1

/-- The call of the constructor passes as many operands. -/
theorem anchura_call (n : ℕ) :
    ∃ M K pos i, compile (fun _ _ => .error "") 1 (anchura n) = .ok M ∧
      M.Emits (.route (anchuraRoute n)) K ∧ K.chunk.code[pos]? = some i ∧ i.op = .callFunction ∧
      CallAt K pos i 0 n := by
  obtain ⟨M, hM, hbodies, hem⟩ := anchura_compiles n
  obtain ⟨c, hc, -⟩ := (compile_spec hM).get (i := 1) (b := .route (anchuraRoute n))
    (by rw [hbodies]; rfl)
  have hmem : (Body.route (anchuraRoute n), c) ∈ M.bodies.zip M.chunks := by
    refine List.mem_of_getElem? (i := 1) (List.getElem?_zip_eq_some.2 ⟨?_, hc⟩)
    rw [hbodies]
    rfl
  have hK : M.Emits _ _ := .own hmem
  obtain ⟨-, t, ht, hl⟩ := hK.tree (compile_spec hM)
  -- the route is its only statement, which returns the call
  cases ht with
  | route hg hs =>
  cases hs with
  | stmtsCons hs _ =>
  cases hs with
  | returnValue he =>
  obtain ⟨u, hcalls, rfl⟩ := ExprTree.anchura_inv (by rw [hem]; rfl) (by rw [hem]; rfl)
    (by simp) he
  cases hl with
  | seq _ hl =>
  cases hl with
  | seq hl _ =>
  cases hl with
  | seq hl _ =>
  cases hl with
  | seq hl _ =>
  cases hl with
  | @seq _ _ _ _ _ m _ hu hl =>
  cases hl with
  | atom hi he =>
    exact ⟨M, _, m, _, hM, hK, hi.code, rfl, _,
      ⟨rfl, he, u, _, _, _, ⟨hcalls, hcalls.net_eq⟩, hu⟩, rfl⟩

end Wide

/-! ## Decoding -/

/-- **Call operands decode** to what was called.  Every call of an accepted program is one of the
    source, and the machine reads the index of what it resolves to and the number of operands that
    were pushed exactly if there is room for both in the word; the index of a function, method or
    constructor leads to its body. -/
theorem calls_decode {compilar : PlantillaCompiler} {fuel : ℕ} {p : Program} {M : Module} {b : Body}
    {K : Context} {pos : ℕ} {i : Instr} (h : compile compilar fuel p = .ok M) (hK : M.Emits b K)
    (hi : K.chunk.code[pos]? = some i) (hcall : i.op.isCall = true) :
    (∃ index n, CallAt K pos i index n) ∧
      ∀ index n, CallAt K pos i index n →
        (i.Decodes index n ↔ i.Room index n) ∧
          (i.op = .callFunction → ∃ callee, M.bodies[index]? = some callee ∧ callee.arity = n) :=
  ⟨hK.callAt (compile_spec h) hi hcall, fun _ _ hc =>
    ⟨hc.decodes_iff, hc.callee hK (compile_spec h)⟩⟩

/-- A call of a constructor of one parameter. -/
theorem calls_decode_anchura :
    ∃ M K pos i, compile (fun _ _ => .error "") 1 (anchura 1) = .ok M ∧
      M.Emits (.route (anchuraRoute 1)) K ∧ K.chunk.code[pos]? = some i ∧ CallAt K pos i 0 1 ∧
      i.Decodes 0 1 := by
  obtain ⟨M, K, pos, i, hM, hK, hi, hop, hcall⟩ := anchura_call 1
  have hiff := ((calls_decode hM hK hi (by rw [hop]; rfl)).2 0 1 hcall).1
  exact ⟨M, K, pos, i, hM, hK, hi, hcall, hiff.2 ⟨by decide, Nat.le_add_right_of_le (by decide)⟩⟩

/-- A constructor of 256 parameters: the machine reads another callee, without operands. -/
theorem constructor_of_256 :
    ∃ M K pos i, compile (fun _ _ => .error "") 1 (anchura 256) = .ok M ∧
      M.Emits (.route (anchuraRoute 256)) K ∧ K.chunk.code[pos]? = some i ∧
      CallAt K pos i 0 256 ∧ ¬ i.Decodes 0 256 ∧ i.Decodes 1 0 := by
  obtain ⟨M, K, pos, i, hM, hK, hi, hop, hcall⟩ := anchura_call 256
  obtain ⟨argc, hoperand, hn, -⟩ := hcall.operand_eq
  have huncounted : i.uncounted = 0 := by rw [Instr.uncounted, hop]; rfl
  rw [huncounted] at hn
  obtain rfl : argc = 256 := hn.symm
  refine ⟨M, K, pos, i, hM, hK, hi, hcall, fun h => ?_, ?_⟩
  · have := (hcall.decodes_iff.1 h).count
    rw [huncounted] at this
    omega
  · refine ⟨?_, ?_⟩
    · rw [Instr.word, hoperand]
      decide
    · rw [Instr.word, hoperand, huncounted]
      decide

end Osodio.Odio
