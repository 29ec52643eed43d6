import Osodio.Odio.Machine
import Osodio.Odio.Resolution
import Osodio.Odio.Specialisation

/-!
# What is done with operands

The code of an expression whose operands are evaluated first is that of its operands, and then a few
instructions, which do what the meaning of the expression does with their values.

## Main definitions

- `Atom.acts` — what atoms do one after the other
- `OperandTree` — the trees of operands
- `Action.DoneBy` — atoms that do what an action does
- `Strict.Runs` — a tree that does what a strict expression does

## Main results

- `Action.stepMember_done`, `acts_stepIndex` — `++` and `--`
- `ExprTree.strict` — the tree of an expression whose operands are evaluated first
-/

namespace Osodio.Odio

/-! ## Atoms one after the other -/

/-- What atoms do, up to the first that fails. -/
def Atom.acts (E : Env) : List Atom → FrameState → Option (FrameState × Option String)
  | [], s => some (s, none)
  | a :: as, s =>
    match a.act E s with
    | some (s', none) => Atom.acts E as s'
    | r => r

/-- How atoms end. -/
def Exit.ofMessage (loc : SourceLoc) : Option String → Exit
  | none => .fall
  | some message => .raise message loc

/-- The state after an operation with the result `r`: the operands are `st`, below the value if there
    is one, and the first `n` slots are those of `f`. -/
def FrameState.Gives (n : ℕ) (f : ℕ → Value) (st : List Value) (r : Except String Value × World)
    (x : FrameState × Option String) : Prop :=
  x.1.world = r.2 ∧ (∀ k < n, x.1.slots k = f k) ∧
    match r.1 with
    | .ok v => x.2 = none ∧ x.1.stack = v :: st
    | .error message => x.2 = some message

section Atoms

variable {E : Env} {D : Driver} {F : ℕ → Tree → Prop} {a : Atom} {as bs : List Atom}
  {s s' : FrameState} {st : List Value} {r : Option String} {loc : SourceLoc} {n : ℕ}
  {f : ℕ → Value}

theorem Atom.acts_cons (h : a.act E s = some (s', none)) :
    Atom.acts E (a :: as) s = Atom.acts E as s' := by
  rw [Atom.acts, h]

theorem Atom.acts_stops {message : String} (h : a.act E s = some (s', some message)) :
    Atom.acts E (a :: as) s = some (s', some message) := by
  rw [Atom.acts, h]

theorem Atom.acts_one : Atom.acts E [a] s = a.act E s := by
  rw [Atom.acts]
  cases a.act E s with
  | none => rfl
  | some x =>
    obtain ⟨s', r⟩ := x
    cases r <;> rfl

/-- Atoms are executed one after the other. -/
theorem Tree.ExecAll.atoms (h : Atom.acts E as s = some (s', r)) :
    Tree.ExecAll E D F (as.map (Tree.atom · loc)) s (.ofMessage loc r) s' := by
  induction as generalizing s with
  | nil =>
    cases h
    exact .nil
  | cons a as ih =>
    cases ha : a.act E s with
    | none =>
      rw [Atom.acts, ha] at h
      cases h
    | some x =>
      obtain ⟨s₁, r₁⟩ := x
      cases r₁ with
      | none =>
        rw [Atom.acts_cons ha] at h
        exact .cons (.atom ha) (ih h)
      | some message =>
        rw [Atom.acts_stops ha] at h
        cases h
        exact .stops (.atomFails ha) (by simp [Exit.ofMessage])

theorem Tree.Runs.atoms (loc : SourceLoc) (as : List Atom) :
    Tree.Runs E D F (as.map (Tree.atom · loc)) (.atoms loc as) := by
  induction as with
  | nil => exact .nil
  | cons a as ih => exact .seq (.one _) ih

/-- The result of an operation on top of `st`. -/
theorem FrameState.gives_settleCall (st : List Value) (r : Except String Value × World) :
    FrameState.Gives n s.slots st r (s.settleCall st r) := by
  obtain ⟨r, w⟩ := r
  cases r with
  | error message => exact ⟨rfl, fun k _ => rfl, rfl⟩
  | ok v => exact ⟨rfl, fun k _ => rfl, rfl, rfl⟩

/-- An operation on boxes that changes nothing else. -/
theorem FrameState.settle_onHeap (s : FrameState) (st : List Value) (op : Heap → OpResult) :
    s.settle st (op s.world.heap) = s.settleCall st (onHeap op s.world) := by
  simp only [onHeap]
  cases op s.world.heap with
  | error message => rfl
  | ok p => rfl

end Atoms

/-! ## Operands -/

/-- The tree of an operand. -/
inductive OperandTree (X : Emitter) (N : List Note) (P : List Plantilla) (Γ : List Local) :
    Operand → Tree → Prop where
  | const {v loc} : OperandTree X N P Γ (.const v) (.atom (.const v) loc)
  | expr {e t} (ht : ExprTree X N P Γ (.expr e) t) : OperandTree X N P Γ (.expr e) t

section Operands

variable {E : Env} {D : Driver} {F : ℕ → Tree → Prop} {X : Emitter} {N : List Note}
  {P : List Plantilla} {Γ : List Local} {t : Tree}

theorem ExprTree.operands {es : List Expr} (h : ExprTree X N P Γ (.exprs es) t) :
    ∃ ts, List.Forall₂ (OperandTree X N P Γ) (es.map Operand.expr) ts ∧ Tree.Runs E D F ts t := by
  induction es generalizing t with
  | nil =>
    cases h
    exact ⟨[], .nil, .nil⟩
  | cons e es ih =>
    cases h with
    | exprsCons ht hu =>
    obtain ⟨us, hus, hruns⟩ := ih hu
    exact ⟨_ :: us, .cons (.expr ht) hus, .seq (.one _) hruns⟩

theorem ExprTree.pairs {es : List (Expr × Expr)} (h : ExprTree X N P Γ (.entries es) t) :
    ∃ ts, List.Forall₂ (OperandTree X N P Γ)
      (es.flatMap fun kv => [Operand.expr kv.1, Operand.expr kv.2]) ts ∧ Tree.Runs E D F ts t := by
  induction es generalizing t with
  | nil =>
    cases h
    exact ⟨[], .nil, .nil⟩
  | cons kv es ih =>
    cases h with
    | entriesCons hs ht hu =>
    obtain ⟨us, hus, hruns⟩ := ih hu
    exact ⟨_ :: _ :: us, .cons (.expr hs) (.cons (.expr ht) hus),
      .seq (.one _) (.seq (.one _) hruns)⟩

theorem ExprTree.namedPairs {es : List (String × SourceLoc × Expr)}
    (h : ExprTree X N P Γ (.named es) t) :
    ∃ ts, List.Forall₂ (OperandTree X N P Γ) (namedOperands es) ts ∧ Tree.Runs E D F ts t := by
  induction es generalizing t with
  | nil =>
    cases h
    exact ⟨[], .nil, .nil⟩
  | cons k es ih =>
    cases h with
    | namedCons ht hu =>
    obtain ⟨us, hus, hruns⟩ := ih hu
    exact ⟨_ :: _ :: us, .cons .const (.cons (.expr ht) hus),
      .seq (.one _) (.seq (.one _) hruns)⟩

end Operands

/-! ## Actions -/

/-- The atoms `us` do with `k` operands what `a` does, above the values `consts`. -/
def Action.DoneBy (E : Env) (n k : ℕ) (consts : List Value) (us : List Atom) (a : Action) : Prop :=
  ∀ (vs : List Value) (st : List Value) (f : ℕ → Value) (w : World), vs.length = k →
    ∃ x, Atom.acts E us ⟨vs.reverse ++ (consts.reverse ++ st), f, w⟩ = some x ∧
      FrameState.Gives n f st (a vs w) x

section Actions

variable {E : Env} {n k : ℕ} {consts : List Value} {u : Atom} {us : List Atom} {a : Action}

/-- One atom that gives the result. -/
theorem Action.DoneBy.one (h : ∀ vs st f w, vs.length = k →
    u.act E ⟨vs.reverse ++ (consts.reverse ++ st), f, w⟩ =
      some (FrameState.settleCall ⟨vs.reverse ++ (consts.reverse ++ st), f, w⟩ st (a vs w))) :
    Action.DoneBy E n k consts [u] a :=
  fun vs st f w hk => ⟨_, Atom.acts_one.trans (h vs st f w hk), FrameState.gives_settleCall st _⟩

theorem Action.unary_done {o : Op} {g : Heap → Value → OpResult} (h : o.unary = some g) :
    Action.DoneBy E n 1 [] [.op o] (.unary g) := by
  refine .one fun vs st f w hk => ?_
  obtain ⟨x, rfl⟩ := List.length_eq_one_iff.1 hk
  simp only [Atom.act, Op.act, h, List.reverse_singleton, List.reverse_nil, List.nil_append,
    List.singleton_append]
  exact congrArg some (FrameState.settle_onHeap _ st (g · x))

theorem Action.binary_done {o : Op} {g : Heap → Value → Value → OpResult} (h : o.binary = some g) :
    Action.DoneBy E n 2 [] [.op o] (.binary g) := by
  refine .one fun vs st f w hk => ?_
  obtain ⟨x, y, rfl⟩ := List.length_eq_two.1 hk
  have hu : o.unary = none := by cases o <;> cases h <;> rfl
  simp only [Atom.act, Op.act, hu, h]
  exact congrArg some (FrameState.settle_onHeap _ st (g · x y))

theorem Action.ternary_done : Action.DoneBy E n 3 [] [.op .setIndex] (.ternary setIndex) := by
  refine .one fun vs st f w hk => ?_
  obtain ⟨x, y, z, rfl⟩ := List.length_eq_three.1 hk
  exact congrArg some (FrameState.settle_onHeap _ st (setIndex · x y z))

theorem Action.getMember_done (name : String) :
    Action.DoneBy E n 1 [] [.getMember name] (.unary (getMember name)) := by
  refine .one fun vs st f w hk => ?_
  obtain ⟨x, rfl⟩ := List.length_eq_one_iff.1 hk
  exact congrArg some (FrameState.settle_onHeap _ st (getMember name · x))

theorem Action.setMember_done (name : String) :
    Action.DoneBy E n 2 [] [.setMember name] (.binary (setMember name)) := by
  refine .one fun vs st f w hk => ?_
  obtain ⟨x, y, rfl⟩ := List.length_eq_two.1 hk
  exact congrArg some (FrameState.settle_onHeap _ st (setMember name · x y))

/-- Constants one after the other. -/
theorem Atom.acts_consts (vs : List Value) (as : List Atom) (st : List Value) (f : ℕ → Value)
    (w : World) : Atom.acts E (vs.map Atom.const ++ as) ⟨st, f, w⟩ =
      Atom.acts E as ⟨vs.reverse ++ st, f, w⟩ := by
  induction vs generalizing st with
  | nil => rfl
  | cons v vs ih =>
    rw [List.reverse_cons, List.append_assoc]
    exact ih (v :: st)

/-- The operands of an action are the last ones. -/
theorem take_operands {vs : List Value} (st : List Value) (hk : vs.length = k) :
    k ≤ (vs.reverse ++ st).length ∧ ((vs.reverse ++ st).take k).reverse = vs ∧
      (vs.reverse ++ st).drop k = st := by
  subst hk
  rw [List.take_left' vs.length_reverse, List.drop_left' vs.length_reverse, List.reverse_reverse,
    List.length_append, List.length_reverse]
  exact ⟨Nat.le_add_right _ _, rfl, rfl⟩

theorem Action.list_done : Action.DoneBy E n k [] [.makeList k] .list := by
  refine .one fun vs st f w hk => ?_
  obtain ⟨hle, htake, hdrop⟩ := take_operands st hk
  simp only [Atom.act, List.reverse_nil, List.nil_append, if_pos hle, htake, hdrop]
  exact congrArg some (FrameState.settle_onHeap _ st fun heap => .ok (newList vs heap))

theorem Atom.makeDict_act {vs : List Value} (st : List Value) (f : ℕ → Value) (w : World)
    (hk : vs.length = k * 2) : (Atom.makeDict k).act E ⟨vs.reverse ++ st, f, w⟩ =
      some (FrameState.settleCall ⟨vs.reverse ++ st, f, w⟩ st (Action.dict vs w)) := by
  obtain ⟨hle, htake, hdrop⟩ := take_operands st hk
  simp only [Atom.act, if_pos hle, htake, hdrop]
  exact congrArg some (FrameState.settle_onHeap _ st (Odio.makeDict · vs))

theorem Action.dict_done : Action.DoneBy E n (k * 2) [] [.makeDict k] .dict :=
  .one fun _ st f w hk => Atom.makeDict_act st f w hk

theorem Atom.callNative_act {id : ℕ} (hsync : (nativeAt id).isAsync = false) (vs st : List Value)
    (f : ℕ → Value) (w : World) :
    (Atom.callNative id vs.length).act E ⟨vs.reverse ++ st, f, w⟩ =
      some (FrameState.settleCall ⟨vs.reverse ++ st, f, w⟩ st (Odio.callNative E w id vs)) := by
  obtain ⟨hle, htake, hdrop⟩ := take_operands st (rfl : vs.length = vs.length)
  have hcond : vs.length ≤ (vs.reverse ++ st).length ∧ (nativeAt id).isAsync = false := ⟨hle, hsync⟩
  simp only [Atom.act, if_pos hcond, htake, hdrop]

theorem Action.native_done {id : ℕ} (hsync : (nativeAt id).isAsync = false) :
    Action.DoneBy E n k [] [.callNative id k] (.native E id) := by
  refine .one fun vs st f w hk => ?_
  subst hk
  exact Atom.callNative_act hsync vs st f w

theorem Action.method_done {name : String} :
    Action.DoneBy E n (k + 1) [] [.callMethod name k] (.method E name 0) := by
  refine .one fun vs st f w hk => ?_
  cases vs with
  | nil => cases hk
  | cons recv args =>
    obtain ⟨-, htake, hdrop⟩ := take_operands (recv :: st) (Nat.succ.inj hk)
    simp only [Atom.act, List.reverse_nil, List.nil_append, List.reverse_cons, List.append_assoc,
      List.singleton_append, htake, hdrop]
    rfl

/-- The last operands become one dictionary, and an atom does the rest. -/
theorem Action.DoneBy.dict {m : ℕ} {r : Action} (h : ∀ vs st f w, vs.length = m + 1 →
    u.act E ⟨vs.reverse ++ (consts.reverse ++ st), f, w⟩ =
      some (FrameState.settleCall ⟨vs.reverse ++ (consts.reverse ++ st), f, w⟩ st (r vs w)))
    (ha : ∀ vs : List Value, vs.length = m + k * 2 →
      a vs = do let d ← Action.dict (vs.drop m); r (vs.take m ++ [d])) :
    Action.DoneBy E n (m + k * 2) consts [.makeDict k, u] a := by
  intro vs st f w hk
  have hdrop : (vs.drop m).length = k * 2 := by rw [List.length_drop]; omega
  have hvs : vs.reverse ++ (consts.reverse ++ st) =
      (vs.drop m).reverse ++ ((vs.take m).reverse ++ (consts.reverse ++ st)) := by
    rw [← List.append_assoc (vs.drop m).reverse, ← List.reverse_append, List.take_append_drop]
  have hact : (Atom.makeDict k).act E ⟨vs.reverse ++ (consts.reverse ++ st), f, w⟩ =
      some (FrameState.settleCall ⟨vs.reverse ++ (consts.reverse ++ st), f, w⟩
        ((vs.take m).reverse ++ (consts.reverse ++ st)) (Action.dict (vs.drop m) w)) := by
    rw [hvs]
    exact Atom.makeDict_act _ f w hdrop
  have hbind : a vs w = ((do let d ← Action.dict (vs.drop m); r (vs.take m ++ [d])) :
      ExceptT String (StateM World) Value) w := by rw [ha vs hk]
  generalize hd : Action.dict (vs.drop m) w = d at hact
  obtain ⟨d, w'⟩ := d
  cases d with
  | error message =>
    refine ⟨_, Atom.acts_stops hact, ?_⟩
    have hfails : a vs w = (.error message, w') := by
      rw [hbind]
      simp only [bind, ExceptT.bind, ExceptT.mk, StateT.bind, hd]
      rfl
    rw [hfails]
    exact ⟨rfl, fun k _ => rfl, rfl⟩
  | ok d =>
    have hlen : (vs.take m ++ [d]).length = m + 1 := by
      rw [List.length_append, List.length_take]
      simp only [List.length_singleton]
      omega
    have hgoes : a vs w = r (vs.take m ++ [d]) w' := by
      rw [hbind]
      simp only [bind, ExceptT.bind, ExceptT.mk, StateT.bind, hd]
      rfl
    have hu := h (vs.take m ++ [d]) st f w' hlen
    rw [List.reverse_append, List.append_assoc] at hu
    refine ⟨_, (Atom.acts_cons hact).trans (Atom.acts_one.trans hu), ?_⟩
    rw [hgoes]
    exact FrameState.gives_settleCall st _

theorem Action.methodNamed_done {name : String} {m : ℕ} (hk : k ≠ 0) :
    Action.DoneBy E n (m + 1 + k * 2) [] [.makeDict k, .callMethod name (m + 1)]
      (.method E name k) := by
  refine .dict (r := .method E name 0) (fun vs st f w hlen => ?_) fun vs hlen => ?_
  · cases vs with
    | nil => cases hlen
    | cons recv args =>
      obtain ⟨-, htake, hdrop⟩ := take_operands (recv :: st) (Nat.succ.inj hlen)
      simp only [Atom.act, List.reverse_nil, List.nil_append, List.reverse_cons, List.append_assoc,
        List.singleton_append, htake, hdrop]
      rfl
  · cases vs with
    | nil =>
      simp only [List.length_nil] at hlen
      omega
    | cons recv args =>
      have hm : args.length - k * 2 = m := by
        simp only [List.length_cons] at hlen
        omega
      simp only [Action.method, hk, if_false, hm]
      rfl

theorem Action.render_done {idx : ℕ} {p : Plantilla} (hp : E.plantillas[idx]? = some p)
    (hidx : idx + 1 < 2 ^ 63) :
    Action.DoneBy E n (k * 2) [.int (Int64.ofNat idx)] [.makeDict k, .callNative renderTplId 2]
      (.render E p.nombre) := by
  rw [← Nat.zero_add (k * 2)]
  refine .dict (r := fun vs w => E.oracle.ask w (.render p.nombre (vs.headD .null)))
    (fun vs st f w hlen => ?_) fun vs hlen => rfl
  obtain ⟨d, rfl⟩ := List.length_eq_one_iff.1 hlen
  have hint : (Int64.ofNat idx).toInt = idx := Int64.toInt_ofNat_of_lt (by omega)
  have hnat : ¬ Int64.ofNat idx < 0 := by
    rw [Int64.lt_iff_toInt_lt, hint, Int64.toInt_zero]
    omega
  have hidx' : (Int64.ofNat idx).toNatClampNeg = idx := Int64.toNatClampNeg_ofNat_of_lt (by omega)
  have hcall : callNative E w renderTplId [.int (Int64.ofNat idx), d] =
      E.oracle.ask w (.render p.nombre d) := by
    have hrender : callNative E w renderTplId [.int (Int64.ofNat idx), d] =
        fnRenderTpl E w [.int (Int64.ofNat idx), d] := rfl
    rw [hrender]
    simp only [fnRenderTpl, hnat, if_false, hidx', hp]
    rfl
  have hsync : (nativeAt renderTplId).isAsync = false := rfl
  have hact := Atom.callNative_act (E := E) hsync [.int (Int64.ofNat idx), d] st f w
  rwa [hcall] at hact

theorem StepOp.act (op : StepOp) {f : ℕ → Value} {w : World} (u v : Value) (st : List Value) :
    (Atom.op op.op).act E ⟨v :: u :: st, f, w⟩ =
      some (FrameState.settleCall ⟨v :: u :: st, f, w⟩ st (onHeap (op.eval · u v) w)) := by
  cases op with
  | inc => exact congrArg some (FrameState.settle_onHeap _ st (addValues · u v))
  | dec => exact congrArg some (FrameState.settle_onHeap _ st (arithmetic .sub · u v))

/-- The second half of a step: the value that was read is in the slot `j`, and `u` writes what it
    becomes. -/
theorem acts_step (kind : StepKind) (op : StepOp) {f : ℕ → Value} {w : World} {prev : Value}
    {pre st : List Value} {j : ℕ} {write : Value → Heap → OpResult} (hj : f j = prev)
    (hu : ∀ next w, u.act E ⟨next :: (pre ++ st), f, w⟩ =
      some (FrameState.settleCall ⟨next :: (pre ++ st), f, w⟩ st (onHeap (write next) w))) :
    ∃ x, Atom.acts E ([.const (.int 1), .op op.op, u] ++ stepResultAtoms kind j)
        ⟨prev :: (pre ++ st), f, w⟩ = some x ∧
      FrameState.Gives n f st ((do
        let next ← onHeap (op.eval · prev (.int 1))
        let v ← onHeap (write next)
        return if kind = .post then prev else v : ExceptT String (StateM World) Value) w) x := by
  have hop := StepOp.act (E := E) op (f := f) (w := w) prev (.int 1) (pre ++ st)
  have hconst : (Atom.const (.int 1)).act E ⟨prev :: (pre ++ st), f, w⟩ =
      some (⟨.int 1 :: prev :: (pre ++ st), f, w⟩, none) := rfl
  rw [List.cons_append, Atom.acts_cons hconst, List.cons_append]
  simp only [bind, ExceptT.bind, ExceptT.mk, StateT.bind]
  generalize onHeap (op.eval · prev (.int 1)) w = r at hop ⊢
  obtain ⟨r, w₁⟩ := r
  cases r with
  | error message => exact ⟨_, Atom.acts_stops hop, rfl, fun k _ => rfl, rfl⟩
  | ok next =>
    rw [Atom.acts_cons hop, List.cons_append]
    have hwrite := hu next w₁
    simp only [ExceptT.bindCont, bind, StateT.bind]
    generalize onHeap (write next) w₁ = r at hwrite ⊢
    obtain ⟨r, w₂⟩ := r
    cases r with
    | error message => exact ⟨_, Atom.acts_stops hwrite, rfl, fun k _ => rfl, rfl⟩
    | ok v =>
      rw [Atom.acts_cons hwrite]
      subst hj
      cases kind with
      | pre => exact ⟨_, rfl, rfl, fun k _ => rfl, rfl, rfl⟩
      | post => exact ⟨_, rfl, rfl, fun k _ => rfl, rfl, rfl⟩

/-- What is read is the first half of a step. -/
theorem stepPlace_fails {kind : StepKind} {op : StepOp} {w w' : World} {read : Heap → OpResult}
    {write : Value → Heap → OpResult} {message : String}
    (h : onHeap read w = (.error message, w')) :
    stepPlace kind op read write w = (.error message, w') := by
  simp only [stepPlace, bind, ExceptT.bind, ExceptT.mk, StateT.bind, h]
  rfl

theorem stepPlace_reads {kind : StepKind} {op : StepOp} {w w' : World} {read : Heap → OpResult}
    {write : Value → Heap → OpResult} {prev : Value} (h : onHeap read w = (.ok prev, w')) :
    stepPlace kind op read write w = (do
      let next ← onHeap (op.eval · prev (.int 1))
      let v ← onHeap (write next)
      return if kind = .post then prev else v : ExceptT String (StateM World) Value) w' := by
  simp only [stepPlace, bind, ExceptT.bind, ExceptT.mk, StateT.bind, h]
  rfl

theorem FrameState.Gives.below {f g : ℕ → Value} {st : List Value}
    {r : Except String Value × World} {x : FrameState × Option String}
    (h : FrameState.Gives n g st r x) (hg : ∀ k < n, g k = f k) : FrameState.Gives n f st r x :=
  ⟨h.1, fun k hk => (h.2.1 k hk).trans (hg k hk), h.2.2⟩

theorem Atom.load_act {f : ℕ → Value} {w : World} {j : ℕ} {v : Value} (st : List Value)
    (h : f j = v) : (Atom.loadLocal j).act E ⟨st, f, w⟩ = some (⟨v :: st, f, w⟩, none) := by
  subst h
  rfl

theorem Atom.store_act {f : ℕ → Value} {w : World} {j : ℕ} {v : Value} (st : List Value) :
    (Atom.storeLocal j).act E ⟨v :: st, f, w⟩ = some (⟨st, Function.update f j v, w⟩, none) := rfl

/-- The field of the receiver on the stack is read and written. -/
theorem Action.stepMember_done (kind : StepKind) (op : StepOp) (name : String) :
    Action.DoneBy E n 1 [] (stepMemberAtoms kind op name n) (.stepMember kind op name) := by
  intro vs st f w hk
  obtain ⟨a, rfl⟩ := List.length_eq_one_iff.1 hk
  change ∃ x, Atom.acts E (stepMemberAtoms kind op name n) ⟨a :: st, f, w⟩ = some x ∧
    FrameState.Gives n f st (stepPlace kind op (getMember name · a)
      (fun v heap => setMember name heap a v) w) x
  obtain ⟨g, hg⟩ : ∃ g, Function.update f n a = g := ⟨_, rfl⟩
  have hn : g n = a := hg ▸ Function.update_self ..
  have hbelow : ∀ k < n, g k = f k :=
    fun k hk => hg ▸ Function.update_of_ne (Nat.ne_of_lt hk) _ _
  have hget : (Atom.getMember name).act E ⟨a :: st, g, w⟩ =
      some (FrameState.settleCall ⟨a :: st, g, w⟩ st (onHeap (getMember name · a) w)) :=
    congrArg some (FrameState.settle_onHeap _ st (getMember name · a))
  simp only [stepMemberAtoms, List.cons_append, List.nil_append]
  rw [Atom.acts_cons (Atom.store_act st), hg, Atom.acts_cons (Atom.load_act st hn)]
  generalize hr : onHeap (getMember name · a) w = r at hget
  obtain ⟨r, w'⟩ := r
  cases r with
  | error message =>
    refine ⟨_, Atom.acts_stops hget, ?_⟩
    rw [stepPlace_fails hr]
    exact ⟨rfl, hbelow, rfl⟩
  | ok prev =>
    obtain ⟨g', hg'⟩ : ∃ g', Function.update g (n + 1) prev = g' := ⟨_, rfl⟩
    have hbelow' : ∀ k < n + 1, g' k = g k :=
      fun k hk => hg' ▸ Function.update_of_ne (Nat.ne_of_lt hk) _ _
    have hn' : g' n = a := (hbelow' n (Nat.lt_succ_self n)).trans hn
    have hprev : g' (n + 1) = prev := hg' ▸ Function.update_self ..
    obtain ⟨x, hx, hgives⟩ := @acts_step E n (.setMember name) kind op g' w' prev [a] st (n + 1)
      (fun v heap => setMember name heap a v) hprev fun next w =>
        congrArg some (FrameState.settle_onHeap _ st (setMember name · a next))
    refine ⟨x, ?_, stepPlace_reads hr ▸ hgives.below fun k hk => ?_⟩
    · rw [Atom.acts_cons hget, Atom.acts_cons (Atom.store_act st), hg',
        Atom.acts_cons (Atom.load_act st hn'), Atom.acts_cons (Atom.load_act _ hprev)]
      exact hx
    · exact (hbelow' k (Nat.lt_succ_of_lt hk)).trans (hbelow k hk)

/-- The element of the container in the slot `n`, at the index on the stack, is read and written. -/
theorem acts_stepIndex (kind : StepKind) (op : StepOp) {f : ℕ → Value} {w : World} {a : Value}
    (i : Value) (st : List Value) (hn : f n = a) :
    ∃ x, Atom.acts E (stepIndexAtoms kind op n) ⟨i :: st, f, w⟩ = some x ∧
      FrameState.Gives n f st (Action.stepIndex kind op [a, i] w) x := by
  change ∃ x, Atom.acts E (stepIndexAtoms kind op n) ⟨i :: st, f, w⟩ = some x ∧
    FrameState.Gives n f st (stepPlace kind op (getIndex · a i)
      (fun v heap => setIndex heap a i v) w) x
  obtain ⟨g, hg⟩ : ∃ g, Function.update f (n + 1) i = g := ⟨_, rfl⟩
  have hi : g (n + 1) = i := hg ▸ Function.update_self ..
  have hbelow : ∀ k < n + 1, g k = f k :=
    fun k hk => hg ▸ Function.update_of_ne (Nat.ne_of_lt hk) _ _
  have hn' : g n = a := (hbelow n (Nat.lt_succ_self n)).trans hn
  have hget : (Atom.op .getIndex).act E ⟨i :: a :: st, g, w⟩ =
      some (FrameState.settleCall ⟨i :: a :: st, g, w⟩ st (onHeap (getIndex · a i) w)) :=
    congrArg some (FrameState.settle_onHeap _ st (getIndex · a i))
  simp only [stepIndexAtoms, List.cons_append, List.nil_append]
  rw [Atom.acts_cons (Atom.store_act st), hg, Atom.acts_cons (Atom.load_act st hn'),
    Atom.acts_cons (Atom.load_act _ hi)]
  generalize hr : onHeap (getIndex · a i) w = r at hget
  obtain ⟨r, w'⟩ := r
  cases r with
  | error message =>
    refine ⟨_, Atom.acts_stops hget, ?_⟩
    rw [stepPlace_fails hr]
    exact ⟨rfl, fun k hk => hbelow k (Nat.lt_succ_of_lt hk), rfl⟩
  | ok prev =>
    obtain ⟨g', hg'⟩ : ∃ g', Function.update g (n + 2) prev = g' := ⟨_, rfl⟩
    have hbelow' : ∀ k < n + 2, g' k = g k :=
      fun k hk => hg' ▸ Function.update_of_ne (Nat.ne_of_lt hk) _ _
    have ha : g' n = a := (hbelow' n (by omega)).trans hn'
    have hi' : g' (n + 1) = i := (hbelow' (n + 1) (by omega)).trans hi
    have hprev : g' (n + 2) = prev := hg' ▸ Function.update_self ..
    obtain ⟨x, hx, hgives⟩ := @acts_step E n (.op .setIndex) kind op g' w' prev [i, a] st (n + 2)
      (fun v heap => setIndex heap a i v) hprev fun next w =>
        congrArg some (FrameState.settle_onHeap _ st (setIndex · a i next))
    refine ⟨x, ?_, stepPlace_reads hr ▸ hgives.below fun k hk => ?_⟩
    · rw [Atom.acts_cons hget, Atom.acts_cons (Atom.store_act st), hg',
        Atom.acts_cons (Atom.load_act st ha), Atom.acts_cons (Atom.load_act _ hi'),
        Atom.acts_cons (Atom.load_act _ hprev)]
      exact hx
    · exact (hbelow' k (by omega)).trans (hbelow k (by omega))

end Actions

/-! ## Strict expressions -/

/-- The module is that of the program, with its templates. -/
structure Setting.Linked (S : Setting) (M : Module) : Prop where
  compiled : Compiled S.program M
  emitter : ∃ fns cls, functionSigs 0 S.program.functions = .ok fns ∧
    classSigs S.program.functions.length S.program.classes = .ok cls ∧
    M.emitter = Body.emitter fns cls S.program.imports S.compilar
  plantillas : S.env.plantillas = M.plantillas

/-- The atoms `us` do what is done with the operands of an expression, above the values `consts`. -/
def Strict.Performed (E : Env) (table : List Body) (n : ℕ) (T : Strict) (consts : List Value)
    (us : List Atom) : Prop :=
  match T.doing with
  | .act a => a.DoneBy E n T.operands.length consts us
  | .call b => consts = [] ∧ b.arity = T.operands.length ∧
      ∃ index, us = [.callFunction index T.operands.length] ∧ table[index]? = some b
  | .await id => consts = [] ∧ us = [.callAsync id T.operands.length]

/-- The tree of an expression has the trees of its operands, and then the atoms that do the rest. -/
def Strict.Runs (S : Setting) (M : Module) (b : Body) (Γ : List Local) (T : Strict) (t : Tree) :
    Prop :=
  ∃ (consts : List Value) (ts : List Tree) (us : List Atom),
    List.Forall₂ (OperandTree (M.emitter b) M.notes M.plantillas Γ) T.operands ts ∧
    Tree.Runs S.env S.driver (M.TreeAt S.program)
      (consts.map (fun v => Tree.atom (.const v) T.loc) ++ (ts ++ us.map (Tree.atom · T.loc))) t ∧
    T.Performed S.env S.program.table Γ.length consts us

section Expressions

variable {S : Setting} {M : Module} {b : Body} {Γ : List Local} {vars : Scope} {e : Expr} {t : Tree}
  {T : Strict} {c : CallExpr}

theorem binaryOp_binary (ints : Bool) (op : BinOp) : (binaryOp ints op).binary = some op.eval := by
  cases ints with
  | false => cases op <;> rfl
  | true =>
    cases op with
    | add => exact congrArg some Vm.especializada_addInt
    | sub => exact congrArg some (Vm.especializada_arit (.inl rfl))
    | mul => exact congrArg some (Vm.especializada_arit (.inr rfl))
    | lt => exact congrArg some (Vm.especializada_cmp (.inl rfl))
    | le => exact congrArg some (Vm.especializada_cmp (.inr (.inl rfl)))
    | gt => exact congrArg some (Vm.especializada_cmp (.inr (.inr (.inl rfl))))
    | ge => exact congrArg some (Vm.especializada_cmp (.inr (.inr (.inr rfl))))
    | _ => rfl

theorem mapM_eq_some {α β : Type} {f : α → Option β} {xs : List α} {ys : List β}
    (h : xs.mapM f = some ys) : xs.map f = ys.map some := by
  induction xs generalizing ys with
  | nil =>
    cases h
    rfl
  | cons x xs ih =>
    rw [List.mapM_cons] at h
    obtain ⟨y, hy, h⟩ := Option.bind_eq_some_iff.1 h
    obtain ⟨zs, hzs, h⟩ := Option.bind_eq_some_iff.1 h
    cases h
    rw [List.map_cons, List.map_cons, hy, ih hzs]

/-- The operands of a call are its arguments and the default values that the emitter takes. -/
theorem argOperands_eq {params : List Param} {args ds : List Expr} {os : List Operand}
    {sig : FnSig} (h : argOperands params args = some os)
    (hsig : sig.defaults = params.map Param.default)
    (hd : sig.defaults.drop args.length = ds.map some) :
    os = args.map .expr ++ ds.map .expr ∧ os.length = sig.defaults.length := by
  rw [argOperands] at h
  split at h
  · next hle =>
    obtain ⟨ds', hds, rfl⟩ := Option.map_eq_some_iff.1 h
    have hds' := mapM_eq_some hds
    rw [List.map_drop, ← hsig, hd] at hds'
    obtain rfl := List.map_injective_iff.2 (Option.some_injective _) hds'
    have hlen := congrArg List.length hd
    rw [List.length_drop, List.length_map] at hlen
    rw [hsig, List.length_map] at hlen ⊢
    refine ⟨List.map_append, ?_⟩
    rw [List.length_map, List.length_append]
    omega
  · cases h

theorem length_namedOperands (named : List (String × SourceLoc × Expr)) :
    (namedOperands named).length = named.length * 2 := by
  simp [namedOperands, List.length_flatMap, List.map_const']

theorem Setting.strict_call (h : e.asCall = some c) :
    S.strict b vars e = S.strictCall b vars c := by
  cases e with
  | call loc object args named =>
    cases h
    rfl
  | await loc e =>
    cases e with
    | call cloc object args named =>
      cases h
      rfl
    | _ => cases h
  | _ => cases h

/-- The trees of the operands and the atoms behind them, in the order in which they are executed. -/
theorem Strict.Runs.of {all : List Tree} (consts : List Value) {ts : List Tree} (us : List Atom)
    (ho : List.Forall₂ (OperandTree (M.emitter b) M.notes M.plantillas Γ) T.operands ts)
    (ht : Tree.Runs S.env S.driver (M.TreeAt S.program) all t)
    (hall : all = consts.map (fun v => Tree.atom (.const v) T.loc) ++
      (ts ++ us.map (Tree.atom · T.loc)))
    (ha : T.Performed S.env S.program.table Γ.length consts us) : T.Runs S M b Γ t :=
  ⟨consts, ts, us, ho, hall ▸ ht, ha⟩

/-- **The tree of a strict expression** has the trees of its operands, and then the atoms that do the
    rest. -/
theorem ExprTree.strict (hL : S.Linked M)
    (h : ExprTree (M.emitter b) M.notes M.plantillas Γ (.expr e) t) (hΓ : Alike Γ vars.locals)
    (hs : S.strict b vars e = some T) : T.Runs S M b Γ t := by
  obtain ⟨fns, cls, hfns, hcls, hem⟩ := hL.emitter
  have hS := S.program.signed hfns hcls
  have hcall : ∀ {c : CallExpr} {callee : Callee}, resolveCall (M.emitter b) Γ c.loc c.object
      c.args.length c.named.length c.awaited = .ok callee →
      ∃ T, S.program.target b vars c.object = some T ∧ callee.Denotes S.program.table c.object T :=
    fun h => resolveCall_denotes hS (congrFun hem b) hΓ h
  cases h with
  | literal h => cases e <;> cases h <;> cases hs
  | «local» h hslot => cases e <;> cases h <;> cases hs
  | @unary _ loc op e t ht =>
    cases hs
    refine .of [] [.op (if op = .not then .not else .neg)] (.cons (.expr ht) .nil)
      (.seq (.one _) (.one _)) rfl ?_
    refine Action.unary_done ?_
    split <;> rfl
  | logical ht hu => cases hs
  | binary ht hu =>
    cases hs
    exact .of [] [.op (binaryOp _ _)] (.cons (.expr ht) (.cons (.expr hu) .nil))
      (.seq (.one _) (.seq (.one _) (.one _))) rfl (Action.binary_done (binaryOp_binary _ _))
  | ternary _ _ _ => cases hs
  | @listLit _ loc items t ht =>
    cases hs
    obtain ⟨ts, hts, hruns⟩ := ht.operands
    refine .of [] [.makeList items.length] hts (.seq hruns (.one _)) rfl ?_
    rw [Strict.Performed, List.length_map]
    exact Action.list_done
  | @dictLit _ loc entries t ht =>
    cases hs
    obtain ⟨ts, hts, hruns⟩ := ht.pairs
    have hlen : (entries.flatMap fun kv => [Operand.expr kv.1, .expr kv.2]).length =
        entries.length * 2 := by simp [List.length_flatMap, List.map_const']
    refine .of [] [.makeDict entries.length] hts (.seq hruns (.one _)) rfl ?_
    rw [Strict.Performed, hlen]
    exact Action.dict_done
  | index ht hu =>
    cases hs
    exact .of [] [.op .getIndex] (.cons (.expr ht) (.cons (.expr hu) .nil))
      (.seq (.one _) (.seq (.one _) (.one _))) rfl (Action.binary_done rfl)
  | sessionGet hr hm =>
    rw [hΓ.reservedObject] at hr
    simp only [Setting.strict, hr, hm] at hs
    cases hs
    exact .of [] [.callNative sessionGetId 1] (.cons .const .nil) (.seq (.one _) (.one _)) rfl
      (Action.native_done rfl)
  | @memberNative _ _ _ _ _ id hr hm ha =>
    rw [hΓ.reservedObject] at hr
    simp only [Setting.strict, hr, hm] at hs
    split at hs
    · cases hs
    · next hsync =>
      cases hs
      exact .of [] [.callNative id 0] .nil (.one _) rfl
        (Action.native_done (Bool.eq_false_iff.2 hsync))
  | @member _ _ _ name _ hr ht =>
    rw [hΓ.reservedObject] at hr
    simp only [Setting.strict, hr] at hs
    cases hs
    exact .of [] [.getMember name] (.cons (.expr ht) .nil) (.seq (.one _) (.one _)) rfl
      (Action.getMember_done _)
  | stepLocal _ => cases hs
  | stepMember ht =>
    cases hs
    exact .of [] (stepMemberAtoms _ _ _ Γ.length) (.cons (.expr ht) .nil)
      (.seq (.one _) (.atoms _ _)) rfl (Action.stepMember_done _ _ _)
  | stepIndex _ _ => cases hs
  | @callNative _ _ c id name t h hc hn hk ht =>
    obtain ⟨T', hT', hden⟩ := hcall hc
    cases hden with
    | native =>
    rw [Setting.strict_call h, Setting.strictCall, hT'] at hs
    simp only [bind, Option.bind_some, if_neg hn] at hs
    cases hs
    obtain ⟨ts, hts, hruns⟩ := ht.operands
    refine .of [] [nativeAtom id c.args.length] hts (.seq hruns (.one _)) rfl ?_
    have hlen : (c.args.map Operand.expr).length = c.args.length := List.length_map _
    by_cases hasync : (nativeAt id).isAsync = true
    · simp only [Strict.Performed, nativeAtom, hasync, if_true, hlen]
      exact ⟨trivial, trivial⟩
    · simp only [Strict.Performed, nativeAtom, hasync, hlen]
      exact Action.native_done (Bool.eq_false_iff.2 hasync)
  | @render _ _ c id nloc nombre extra idx q t h hc ha hx hp hidx hcompila ht =>
    obtain ⟨T', hT', hden⟩ := hcall hc
    cases hden with
    | native =>
    obtain ⟨compilar, hX, hcompila⟩ := hcompila
    have hcompilar : compilar = S.compilar := by
      rw [hem] at hX
      cases b <;> cases hX <;> rfl
    have hkeys : (c.named.map fun k => (k.1, tipoDe vars.locals k.2.2)) =
        c.named.map fun k => (k.1, tipoDe Γ k.2.2) :=
      List.map_congr_left fun k _ => by rw [hΓ.tipoDe]
    rw [Setting.strict_call h, Setting.strictCall, hT'] at hs
    simp only [bind, Option.bind_some, if_true, ha, hkeys, ← hcompilar, hcompila] at hs
    cases hs
    obtain ⟨ts, hts, hruns⟩ := ht.namedPairs
    refine .of [.int (Int64.ofNat idx)] [.makeDict c.named.length, .callNative renderTplId 2] hts
      (.seq (.one _) (.seq (.seq hruns (.one _)) (.one _))) (by simp) ?_
    rw [Strict.Performed, length_namedOperands]
    exact Action.render_done (hL.plantillas ▸ hp) hidx
  | @modulo _ _ c id obj member t h hc hk ht =>
    obtain ⟨T', hT', hden⟩ := hcall hc
    cases hden with
    | modulo =>
    rw [Setting.strict_call h, Setting.strictCall, hT'] at hs
    cases hs
    obtain ⟨ts, hts, hruns⟩ := ht.operands
    refine .of [] [.callAsync id (c.args.length + 1)] (.cons .const hts)
      (.seq (.one _) (.seq hruns (.one _))) rfl ?_
    simp [Strict.Performed]
  | @function _ _ c name sig ds t u h hc hk hle hd hN ht hu =>
    obtain ⟨T', hT', hden⟩ := hcall hc
    cases hden with
    | @function _ _ fn hsig =>
    rw [Setting.strict_call h, Setting.strictCall, hT'] at hs
    obtain ⟨os, hos, rfl⟩ := Option.map_eq_some_iff.1 hs
    obtain ⟨rfl, hlen⟩ := argOperands_eq hos hsig.defaults hd
    obtain ⟨ts, hts, htruns⟩ := ht.operands
    obtain ⟨us, hus, huruns⟩ := hu.operands
    refine .of [] [.callFunction sig.index sig.defaults.length] (List.rel_append hts hus)
      (.seq (.seq htruns huruns) (.one _)) rfl ?_
    have harity : sig.defaults.length = (Body.function fn).arity := by
      rw [hsig.defaults, List.length_map]
      rfl
    exact ⟨rfl, harity.symm.trans hlen.symm, sig.index, by rw [← hlen], hsig.body⟩
  | @ctor _ _ c name sig index t h hc hk hi ht =>
    obtain ⟨T', hT', hden⟩ := hcall hc
    cases hden with
    | @ctor _ _ d hsig =>
    rw [Setting.strict_call h, Setting.strictCall, hT'] at hs
    obtain ⟨ct, hct, rfl⟩ := Option.map_eq_some_iff.1 hs
    have hrel := lookup_rel (fun d' s (h : SignsCtor S.program.table d d' s) => h.arity) hsig.ctors
      c.args.length
    rw [hct, hi] at hrel
    obtain ⟨ts, hts, hruns⟩ := ht.operands
    refine .of [] [.callFunction index c.args.length] hts (.seq hruns (.one _)) rfl ?_
    cases hrel with
    | some hsig =>
      have hlen : (c.args.map Operand.expr).length = c.args.length := List.length_map _
      exact ⟨rfl, hsig.arity.symm.trans hlen.symm, index, by rw [hlen], hsig.body⟩
  | @method _ _ c recv type name sig ds s t u h hc hr hk hle hd hN hs' ht hu =>
    obtain ⟨T', hT', hden⟩ := hcall hc
    cases hden with
    | @method _ _ _ recv' d m hr' hsig =>
    obtain rfl := Option.some.inj (hr.symm.trans hr')
    rw [Setting.strict_call h, Setting.strictCall, hT'] at hs
    obtain ⟨os, hos, rfl⟩ := Option.map_eq_some_iff.1 hs
    obtain ⟨rfl, hlen⟩ := argOperands_eq hos hsig.defaults hd
    obtain ⟨ts, hts, htruns⟩ := ht.operands
    obtain ⟨us, hus, huruns⟩ := hu.operands
    refine .of [] [.callFunction sig.index (sig.defaults.length + 1)]
      (.cons (.expr hs') (List.rel_append hts hus))
      (.seq (.seq (.one _) (.seq htruns huruns)) (.one _)) rfl ?_
    have harity : sig.defaults.length + 1 = (Body.method d.name m).arity := by
      rw [hsig.defaults, List.length_map]
      rfl
    exact ⟨rfl, harity.symm.trans (congrArg (· + 1) hlen.symm), sig.index, by rw [← hlen]; rfl,
      hsig.body⟩
  | @dynamic _ _ c recv name s t h hc hr hk hs' ht =>
    obtain ⟨T', hT', hden⟩ := hcall hc
    cases hden with
    | @dynamic _ recv' hr' =>
    obtain rfl := Option.some.inj (hr.symm.trans hr')
    rw [Setting.strict_call h, Setting.strictCall, hT'] at hs
    cases hs
    obtain ⟨ts, hts, hruns⟩ := ht.operands
    have hos : c.args.map Operand.expr ++ namedOperands c.named = c.args.map Operand.expr := by
      rw [hk]
      exact List.append_nil _
    rw [← hos] at hts
    refine .of [] [.callMethod name c.args.length] (.cons (.expr hs') hts)
      (.seq (.seq (.one _) hruns) (.one _)) rfl ?_
    have hlen : (Operand.expr recv :: (c.args.map Operand.expr ++ namedOperands c.named)).length =
        c.args.length + 1 := by rw [hos, List.length_cons, List.length_map]
    have hzero : c.named.length = 0 := by rw [hk]; rfl
    rw [Strict.Performed, List.cons_append, hlen, hzero]
    exact Action.method_done
  | @dynamicNamed _ _ c recv name s t u h hc hr hk hs' ht hu =>
    obtain ⟨T', hT', hden⟩ := hcall hc
    cases hden with
    | @dynamic _ recv' hr' =>
    obtain rfl := Option.some.inj (hr.symm.trans hr')
    rw [Setting.strict_call h, Setting.strictCall, hT'] at hs
    cases hs
    obtain ⟨ts, hts, htruns⟩ := ht.operands
    obtain ⟨us, hus, huruns⟩ := hu.namedPairs
    refine .of [] [.makeDict c.named.length, .callMethod name (c.args.length + 1)]
      (.cons (.expr hs') (List.rel_append hts hus))
      (.seq (.seq (.one _) (.seq htruns (.seq huruns (.one _)))) (.one _)) (by simp) ?_
    have hlen : (Operand.expr recv :: (c.args.map Operand.expr ++ namedOperands c.named)).length =
        c.args.length + 1 + c.named.length * 2 := by
      rw [List.length_cons, List.length_append, List.length_map, length_namedOperands]
      omega
    rw [Strict.Performed, List.cons_append, hlen]
    exact Action.methodNamed_done fun hnil => hk (List.length_eq_zero_iff.1 hnil)

end Expressions

end Osodio.Odio
