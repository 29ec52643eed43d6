import Osodio.Odio.Actions

/-!
# Structured code does what its source means

The code of a piece of a program ends as the meaning of the piece does: with the same values on the
stack, the same variables in the slots, and the same boxes and history.

## Main definitions

- `Ends` — how the code of a piece of a program ends
- `Item.Simulated` — the code of a piece does what the piece means

## Main results

- `Means.simulated` — the code of every piece does what the piece means
-/

namespace Osodio.Odio

/-! ## How code ends -/

/-- How the code of a piece ends that ends with this outcome. -/
def Completion.exit : Completion → Exit
  | vals _ | done => .fall
  | brk => .brk
  | cont => .cont
  | ret v => .ret v
  | raise message loc => .raise message loc

/-- The values that are left on the stack. -/
def Completion.left : Completion → List Value
  | vals vs => vs
  | _ => []

/-- An outcome of statements. -/
def Completion.ends : Completion → Bool
  | vals _ => false
  | _ => true

/-- The locals after a statement. -/
def Completion.locals (Γ Γ' : List Local) : Completion → List Local
  | done => Γ'
  | _ => Γ

/-- The execution `R` ends as a piece of a program does, on top of the operands `st`. -/
def Ends (R : Exit → FrameState → Prop) (Γ : List Local) (αs st : List Value) (o : Completion)
    (σ : Store) : Prop :=
  ∃ s, R o.exit s ∧ s.world = σ.world ∧ Held s.slots Γ σ.vars αs ∧
    (o.leaves = false → s.stack = o.left.reverse ++ st)

/-- The execution of a tree. -/
abbrev Setting.Exec (S : Setting) (M : Module) (t : Tree) (s : FrameState) :
    Exit → FrameState → Prop :=
  Tree.Exec S.env S.driver (M.TreeAt S.program) t s

/-- The execution of trees one after the other. -/
abbrev Setting.ExecAll (S : Setting) (M : Module) (ts : List Tree) (s : FrameState) :
    Exit → FrameState → Prop :=
  Tree.ExecAll S.env S.driver (M.TreeAt S.program) ts s

section Ends

variable {R R' : Exit → FrameState → Prop} {Γ : List Local} {αs st st' vs : List Value} {v : Value}
  {o : Completion} {σ : Store} {message : String} {loc : SourceLoc}

theorem Ends.vals (h : Ends R Γ αs st (.vals vs) σ) :
    ∃ f, R .fall ⟨vs.reverse ++ st, f, σ.world⟩ ∧ Held f Γ σ.vars αs := by
  obtain ⟨⟨stack, f, w⟩, hR, hw, hf, hs⟩ := h
  obtain rfl : stack = vs.reverse ++ st := hs rfl
  cases hw
  exact ⟨f, hR, hf⟩

theorem Ends.raised (h : Ends R Γ αs st (.raise message loc) σ) :
    ∃ stack f, R (.raise message loc) ⟨stack, f, σ.world⟩ ∧ Held f Γ σ.vars αs := by
  obtain ⟨⟨stack, f, w⟩, hR, hw, hf, -⟩ := h
  cases hw
  exact ⟨stack, f, hR, hf⟩

theorem Ends.of_vals {f : ℕ → Value} (hR : R .fall ⟨vs.reverse ++ st, f, σ.world⟩)
    (hf : Held f Γ σ.vars αs) : Ends R Γ αs st (.vals vs) σ := ⟨_, hR, rfl, hf, fun _ => rfl⟩

theorem Ends.of_done {f : ℕ → Value} (hR : R o.exit ⟨st, f, σ.world⟩) (hf : Held f Γ σ.vars αs)
    (ho : o.left = []) : Ends R Γ αs st o σ := ⟨_, hR, rfl, hf, fun _ => by rw [ho]; rfl⟩

theorem Ends.done (h : Ends R Γ αs st o σ) (ho : o.left = []) (hl : o.leaves = false) :
    ∃ f, R o.exit ⟨st, f, σ.world⟩ ∧ Held f Γ σ.vars αs := by
  obtain ⟨⟨stack, f, w⟩, hR, hw, hf, hs⟩ := h
  obtain rfl : stack = st := by simpa [ho] using hs hl
  cases hw
  exact ⟨f, hR, hf⟩

theorem Ends.of_raised {f : ℕ → Value} {stack : List Value}
    (hR : R (.raise message loc) ⟨stack, f, σ.world⟩) (hf : Held f Γ σ.vars αs) :
    Ends R Γ αs st (.raise message loc) σ := ⟨_, hR, rfl, hf, by simp [Completion.leaves]⟩

/-- A larger piece that ends where one of its parts ends. -/
theorem Ends.mono (h : Ends R Γ αs st o σ) (hR : ∀ s, R o.exit s → R' o.exit s) :
    Ends R' Γ αs st o σ := by
  obtain ⟨s, hs, hrest⟩ := h
  exact ⟨s, hR s hs, hrest⟩

/-- An error leaves the operands of any piece around it. -/
theorem Ends.raises (h : Ends R Γ αs st (.raise message loc) σ)
    (hR : ∀ s, R (.raise message loc) s → R' (.raise message loc) s) :
    Ends R' Γ αs st' (.raise message loc) σ := by
  obtain ⟨stack, f, hs, hf⟩ := h.raised
  exact .of_raised (hR _ hs) hf

end Ends

/-! ## The code of expressions -/

section Expressions

variable {S : Setting} {M : Module} {b : Body} {X : Emitter} {N : List Note} {P : List Plantilla}
  {Γ : List Local} {e l r c : Expr} {t : Tree} {T : Strict} {loc : SourceLoc} {v : Value}
  {name : String}

theorem ExprTree.of_literal (h : ExprTree X N P Γ (.expr e) t) (he : e.literal = some v) :
    t = .atom (.const v) e.loc := by
  cases h with
  | literal h =>
    cases h.symm.trans he
    rfl
  | «local» h => cases e <;> cases h <;> cases he
  | callNative h | render h | modulo h | function h | ctor h | method h | dynamic h
  | dynamicNamed h => cases e <;> cases he <;> cases h
  | _ => cases he

theorem ExprTree.of_localName (h : ExprTree X N P Γ (.expr e) t) (he : e.localName = some name) :
    ∃ slot, resolveLocal Γ name = some slot ∧ t = .atom (.loadLocal slot) e.loc := by
  cases h with
  | literal h => cases e <;> cases h <;> cases he
  | «local» h hslot =>
    cases h.symm.trans he
    exact ⟨_, hslot, rfl⟩
  | callNative h | render h | modulo h | function h | ctor h | method h | dynamic h
  | dynamicNamed h => cases e <;> cases he <;> cases h
  | _ => cases he

theorem ExprTree.of_logical {op : LogOp} (h : ExprTree X N P Γ (.expr (.logical loc op l r)) t) :
    ∃ u v, ExprTree X N P Γ (.expr l) u ∧ ExprTree X N P Γ (.expr r) v ∧
      t = .seq u (.peek op v loc) := by
  cases h with
  | logical ht hu => exact ⟨_, _, ht, hu, rfl⟩
  | literal h | «local» h | callNative h | render h | modulo h | function h | ctor h | method h
  | dynamic h | dynamicNamed h => cases h

theorem ExprTree.of_ternary (h : ExprTree X N P Γ (.expr (.ternary loc c l r)) t) :
    ∃ s u v, ExprTree X N P Γ (.expr c) s ∧ ExprTree X N P Γ (.expr l) u ∧
      ExprTree X N P Γ (.expr r) v ∧ t = .seq s (.cond u v loc) := by
  cases h with
  | ternary hs ht hu => exact ⟨_, _, _, hs, ht, hu, rfl⟩
  | literal h | «local» h | callNative h | render h | modulo h | function h | ctor h | method h
  | dynamic h | dynamicNamed h => cases h

theorem ExprTree.of_stepLocal {kind : StepKind} {op : StepOp} {tloc : SourceLoc}
    (h : ExprTree X N P Γ (.expr (.step loc kind op (.ident tloc name))) t) :
    ∃ slot, resolveLocal Γ name = some slot ∧ t = .atoms loc (stepLocalAtoms kind op slot) := by
  cases h with
  | stepLocal hs => exact ⟨_, hs, rfl⟩
  | literal h | «local» h | callNative h | render h | modulo h | function h | ctor h | method h
  | dynamic h | dynamicNamed h => cases h

theorem ExprTree.of_stepIndex {kind : StepKind} {op : StepOp} {tloc : SourceLoc}
    (h : ExprTree X N P Γ (.expr (.step loc kind op (.index tloc l r))) t) :
    ∃ d u v, ExprTree X N P Γ (.expr l) u ∧
      ExprTree X N P (auxLocal d "contened" :: Γ) (.expr r) v ∧
      t = .seq (u.andThen (.storeLocal Γ.length) loc)
        (.seq v (.atoms loc (stepIndexAtoms kind op Γ.length))) := by
  cases h with
  | stepIndex ht hu => exact ⟨_, _, _, ht, hu, rfl⟩
  | literal h | «local» h | callNative h | render h | modulo h | function h | ctor h | method h
  | dynamic h | dynamicNamed h => cases h

/-- The constants below the operands. -/
theorem Tree.ExecAll.consts (consts : List Value) (loc : SourceLoc) (st : List Value)
    (f : ℕ → Value) (w : World) :
    S.ExecAll M (consts.map fun v => Tree.atom (.const v) loc) ⟨st, f, w⟩ .fall
      ⟨consts.reverse ++ st, f, w⟩ := by
  induction consts generalizing st with
  | nil => exact .nil
  | cons v consts ih =>
    rw [List.reverse_cons, List.append_assoc]
    exact .cons (.atom rfl) (ih (v :: st))

/-- Where the operands of a strict expression stand, and what follows them. -/
theorem Strict.Runs.split (h : T.Runs S M b Γ t) (st : List Value) :
    ∃ (consts : List Value) (ts : List Tree) (us : List Atom),
      List.Forall₂ (OperandTree (M.emitter b) M.notes M.plantillas Γ) T.operands ts ∧
      T.Performed S.env S.program.table Γ.length consts us ∧
      (∀ {f w s x s'}, S.ExecAll M ts ⟨consts.reverse ++ st, f, w⟩ .fall s →
        S.ExecAll M (us.map (Tree.atom · T.loc)) s x s' → S.Exec M t ⟨st, f, w⟩ x s') ∧
      ∀ {f w x s'}, S.ExecAll M ts ⟨consts.reverse ++ st, f, w⟩ x s' → x ≠ .fall →
        S.Exec M t ⟨st, f, w⟩ x s' := by
  obtain ⟨consts, ts, us, hts, hruns, hdone⟩ := h
  refine ⟨consts, ts, us, hts, hdone, fun hs hus => ?_, fun hs hx => ?_⟩
  · exact hruns _ _ _ ((Tree.ExecAll.consts consts T.loc st _ _).append (hs.append hus))
  · exact hruns _ _ _ ((Tree.ExecAll.consts consts T.loc st _ _).append (hs.stopped hx))

end Expressions

/-! ## The code of statements -/

/-- The loop of a `for`, whose items, count and index are in the slots from `n` on. -/
def forLoop (loc : SourceLoc) (n : ℕ) (body : Tree) : Tree :=
  .loop (.atoms loc (forTestAtoms n)) (.seq (.atoms loc (forItemAtoms n)) body)
    (.atoms loc (forStepAtoms n)) false loc

section Statements

variable {S : Setting} {M : Module} {b : Body} {X : Emitter} {N : List Note} {P : List Plantilla}
  {Γ Γ' : List Local} {vars : Scope} {e : Expr} {stmt : Stmt} {t : Tree} {loc : SourceLoc}

/-- A statement ends with the error of the expression that it begins with. -/
theorem StmtTree.of_subject (h : StmtTree X N P Γ (.stmt stmt) t Γ') (he : stmt.subject = some e) :
    ∃ u, ExprTree X N P Γ (.expr e) u ∧ ∀ {s s' message l},
      S.Exec M u s (.raise message l) s' → S.Exec M t s (.raise message l) s' := by
  have hne : ∀ {message l}, Exit.raise message l ≠ .fall := by simp
  cases h with
  | returnValue ht | exprStmt ht | varInit ht | assignLocal _ ht | ifThen ht _ | ifElse _ ht _ _
  | requireStmt ht _ =>
    cases he
    exact ⟨_, ht, fun h => .seqStops h hne⟩
  | whileStmt ht _ =>
    cases he
    exact ⟨_, ht, fun h => .loopHeadStops h hne⟩
  | forStmt ht _ =>
    cases he
    exact ⟨_, ht, fun h => .seqStops (.seqStops h hne) hne⟩
  | _ => cases he

/-- **An assignment** to a field or to an element has the trees of its operands, and then the atoms
    that do the rest. -/
theorem StmtTree.of_place {os : List Operand} {a : Action}
    (h : StmtTree (M.emitter b) M.notes M.plantillas Γ (.stmt stmt) t Γ') (hΓ : Alike Γ vars.locals)
    (hs : S.place vars stmt = some (os, loc, a)) :
    Γ' = Γ ∧ ∃ (ts : List Tree) (us : List Atom),
      List.Forall₂ (OperandTree (M.emitter b) M.notes M.plantillas Γ) os ts ∧
      Tree.Runs S.env S.driver (M.TreeAt S.program)
        (ts ++ (us ++ [Atom.pop]).map (Tree.atom · loc)) t ∧
      a.DoneBy S.env Γ.length os.length [] us := by
  cases h with
  | assignSession hr ht =>
    rw [hΓ.reservedObject] at hr
    rw [Setting.place, if_pos hr] at hs
    cases hs
    exact ⟨rfl, _, [.callNative sessionSetId 2], .cons .const (.cons (.expr ht) .nil),
      .of_eq (.seq (.one _) (.seq (.one _) (.atoms _ _))) rfl, Action.native_done rfl⟩
  | assignMember hr ht hu =>
    rw [hΓ.reservedObject] at hr
    rw [Setting.place, if_neg hr] at hs
    cases hs
    exact ⟨rfl, _, [.setMember _], .cons (.expr ht) (.cons (.expr hu) .nil),
      .of_eq (.seq (.one _) (.seq (.one _) (.atoms _ _))) rfl, Action.setMember_done _⟩
  | assignIndex hs' ht hu =>
    cases hs
    exact ⟨rfl, _, [.op .setIndex], .cons (.expr hs') (.cons (.expr ht) (.cons (.expr hu) .nil)),
      .of_eq (.seq (.one _) (.seq (.one _) (.seq (.one _) (.atoms _ _)))) rfl,
      Action.ternary_done⟩
  | _ => cases hs

/-- A statement declares one variable or none. -/
theorem StmtTree.declared (h : StmtTree X N P Γ (.stmt stmt) t Γ') :
    Γ' = Γ ∨ ∃ d name type, Γ' = ⟨.user name, d, type⟩ :: Γ := by
  cases h with
  | varInit _ | varNull => exact .inr ⟨_, _, _, rfl⟩
  | _ => exact .inl rfl

end Statements

/-! ## Simulation -/

/-- The locals that the code of a body begins with. -/
def Body.locals : Body → List Local
  | function fn => paramLocals fn.params
  | method cls m => paramLocals m.params ++ [⟨.user "this", 0, cls⟩]
  | ctor _ _ ct => paramLocals ct.params
  | condition e names => paramLocals (names.map fun n => { type := n.2, name := n.1, loc := e.loc })
  | route r => paramLocals r.params
  | errorHandler _ => []

/-- **The code of a piece does what the piece means**, from where the slots hold the variables. -/
def Item.Simulated (S : Setting) (M : Module) (b : Body) (σ : Store) (o : Completion) (σ' : Store) :
    Item → Prop
  | expr e => ∀ {Γ αs f t} (st : List Value),
      ExprTree (M.emitter b) M.notes M.plantillas Γ (.expr e) t → Held f Γ σ.vars αs →
      Ends (S.Exec M t ⟨st, f, σ.world⟩) Γ αs st o σ'
  | operands os =>
    ((∃ vs, o = .vals vs ∧ vs.length = os.length) ∨ ∃ message loc, o = .raise message loc) ∧
    ∀ {Γ αs f ts} (st : List Value),
      List.Forall₂ (OperandTree (M.emitter b) M.notes M.plantillas Γ) os ts →
      Held f Γ σ.vars αs → Ends (S.ExecAll M ts ⟨st, f, σ.world⟩) Γ αs st o σ'
  | stmt s => o.ends = true ∧ ∀ {Γ Γ' αs f t},
      StmtTree (M.emitter b) M.notes M.plantillas Γ (.stmt s) t Γ' → Held f Γ σ.vars αs →
      Ends (S.Exec M t ⟨[], f, σ.world⟩) (o.locals Γ Γ') αs [] o σ'
  | block ss => o.ends = true ∧ ∀ {Γ Γ' αs f t},
      StmtTree (M.emitter b) M.notes M.plantillas Γ (.stmts ss) t Γ' → Held f Γ σ.vars αs →
      Ends (S.Exec M t ⟨[], f, σ.world⟩) Γ αs [] o σ'
  | each loc type name ss items count i => o.ends = true ∧ ∀ {Γ Γ' αs f d u},
      StmtTree (M.emitter b) M.notes M.plantillas (⟨.user name, d, type⟩ :: forLocals d Γ)
        (.stmts ss) u Γ' →
      Held f (forLocals d Γ) σ.vars (.int i :: .int count :: items :: αs) →
      Ends (S.Exec M (forLoop loc Γ.length u) ⟨[], f, σ.world⟩) Γ αs [] o σ'
  | body => ∀ {f t}, BodyTree (M.emitter b) M.notes M.plantillas b t → Held f b.locals σ.vars [] →
      ∃ s, S.Exec M t ⟨[], f, σ.world⟩ o.exit s ∧ s.world = σ'.world

/-- The outcome of an operation at `loc`. -/
def Completion.ofResult (loc : SourceLoc) : Except String Value → Completion
  | .ok v => .vals [v]
  | .error message => .raise message loc

section Expressions

variable {S : Setting} {M : Module} {b f : Body} {σ σ₁ σ₂ : Store} {e l r c : Expr} {T : Strict}
  {vs : List Value} {v : Value} {w : World} {o : Completion} {message : String} {loc at' : SourceLoc}
  {name : String}

/-- The state after an operation is that of its outcome. -/
theorem FrameState.Gives.ends {R : Exit → FrameState → Prop} {Γ : List Local} {αs st : List Value}
    {g : ℕ → Value} {vars : Scope} {res : Except String Value} {s : FrameState} {m : Option String}
    (h : FrameState.Gives Γ.length g st (res, w) (s, m)) (hg : Held g Γ vars αs)
    (hR : R (.ofMessage loc m) s) : Ends R Γ αs st (.ofResult loc res) ⟨vars, w⟩ := by
  obtain ⟨stack, slots, w'⟩ := s
  obtain ⟨rfl, hslots, hres⟩ := h
  cases res with
  | ok v =>
    obtain ⟨rfl, rfl⟩ := hres
    exact .of_vals hR (hg.congr hslots)
  | error message =>
    obtain rfl := hres
    exact .of_raised hR (hg.congr hslots)

theorem simulated_literal (h : e.literal = some v) :
    Item.Simulated S M b σ (.vals [v]) σ (.expr e) := by
  intro Γ αs f t st ht hf
  obtain rfl := ht.of_literal h
  exact .of_vals (.atom rfl) hf

theorem simulated_variable {x : Variable} (h : e.localName = some name)
    (hx : σ.vars.var name = some x) : Item.Simulated S M b σ (.vals [x.value]) σ (.expr e) := by
  intro Γ αs f t st ht hf
  obtain ⟨slot, hslot, rfl⟩ := ht.of_localName h
  exact .of_vals (.atom (Atom.load_act st (hf.value hslot hx))) hf

/-- What is done with the operands is done by the atoms behind them. -/
theorem simulated_act {a : Action} {res : Except String Value} (hL : S.Linked M)
    (h : S.strict b σ.vars e = some T) (hT : T.doing = .act a)
    (ho : Item.Simulated S M b σ (.vals vs) σ₁ (.operands T.operands))
    (ha : a vs σ₁.world = (res, w)) :
    Item.Simulated S M b σ (.ofResult T.loc res) ⟨σ₁.vars, w⟩ (.expr e) := by
  intro Γ αs f t st ht hf
  obtain ⟨consts, ts, us, hts, hdone, hgoes, -⟩ := (ht.strict hL hf.alike h).split st
  obtain ⟨hlen | ⟨_, _, hlen⟩, hrun⟩ := ho
  · obtain ⟨vs', hvs, hlen⟩ := hlen
    cases hvs
    obtain ⟨f₁, hR, hf₁⟩ := (hrun (consts.reverse ++ st) hts hf).vals
    rw [Strict.Performed, hT] at hdone
    obtain ⟨⟨s, m⟩, hacts, hgives⟩ := hdone vs st f₁ σ₁.world hlen
    rw [ha] at hgives
    exact hgives.ends hf₁ (hgoes hR (Tree.ExecAll.atoms hacts))
  · cases hlen

theorem simulated_operands (hL : S.Linked M) (h : S.strict b σ.vars e = some T)
    (ho : Item.Simulated S M b σ (.raise message loc) σ₁ (.operands T.operands)) :
    Item.Simulated S M b σ (.raise message loc) σ₁ (.expr e) := by
  intro Γ αs f t st ht hf
  obtain ⟨consts, ts, us, hts, -, -, hstops⟩ := (ht.strict hL hf.alike h).split st
  exact (ho.2 (consts.reverse ++ st) hts hf).raises fun s hs => hstops hs (by simp)

/-- The tree of a body that is called. -/
theorem Setting.Linked.callee (hL : S.Linked M) {index : ℕ}
    (hc : S.program.table[index]? = some f) :
    ∃ u, M.TreeAt S.program index u ∧ BodyTree (M.emitter f) M.notes M.plantillas f u := by
  obtain ⟨c, hfn, hK, -⟩ := hL.compiled.function hc
  obtain ⟨-, u, hu, hlay⟩ := hK.tree hL.compiled
  exact ⟨u, ⟨f, c, hc, hfn, hu, hlay⟩, hu⟩

/-- The first slots hold the parameters. -/
theorem held_params {Γ : List Local} {vars : Scope} {αs : List Value} {g : ℕ → Value}
    {params : List Param} {args : List Value} (hg : Held g Γ vars αs)
    (hlen : args.length = params.length)
    (ha : ∀ i, (hi : i < args.length) → g (Γ.length + i) = args[i]) :
    Held g (paramLocals params ++ Γ) (Scope.ofParams params args ++ vars) αs := by
  induction params generalizing Γ vars args with
  | nil =>
    obtain rfl := List.length_eq_zero_iff.1 hlen
    exact hg
  | cons p params ih =>
    cases args with
    | nil => cases hlen
    | cons v args =>
      have hp : Held g (⟨.user p.name, 0, p.type⟩ :: Γ) (⟨p.name, p.type, v⟩ :: vars) αs :=
        .user hg (ha 0 (Nat.succ_pos _))
      have hrest := ih hp (Nat.succ.inj hlen) fun i hi => by
        have := ha (i + 1) (Nat.succ_lt_succ hi)
        rwa [← Nat.add_assoc, Nat.add_right_comm] at this
      simpa [paramLocals, Scope.ofParams] using hrest

/-- **A call begins** with its operands in the slots of the parameters. -/
theorem Body.held (f : Body) (hlen : f.arity = vs.length) :
    Held (fun k => vs.getD k .null) f.locals (f.scope vs) [] := by
  have hparams : ∀ {params : List Param}, vs.length = params.length →
      Held (fun k => vs.getD k .null) (paramLocals params) (Scope.ofParams params vs) [] := by
    intro params hlen
    have := held_params (g := fun k => vs.getD k .null) .nil hlen fun i hi => by simp [hi]
    simpa using this
  cases f with
  | function fn => exact hparams hlen.symm
  | method cls m =>
    cases vs with
    | nil => cases hlen
    | cons this args =>
      refine held_params (.user .nil rfl) (Nat.succ.inj hlen).symm fun i hi => ?_
      simp [Nat.add_comm 1 i, hi]
  | ctor cls fields ct => exact hparams hlen.symm
  | condition e names => exact hparams (by rw [List.length_map]; exact hlen.symm)
  | route r => exact hparams hlen.symm
  | errorHandler d => exact .nil

theorem enter_operands {g : ℕ → Value} (vs st : List Value) :
    FrameState.enter ⟨vs.reverse ++ st, g, w⟩ vs.length = ⟨[], fun k => vs.getD k .null, w⟩ := by
  obtain ⟨-, htake, -⟩ := take_operands st (rfl : vs.length = vs.length)
  rw [FrameState.enter, htake]

/-- **A call** of a body that returns or fails. -/
theorem simulated_call (hL : S.Linked M) (h : S.strict b σ.vars e = some T)
    (hT : T.doing = .call f) (ho : Item.Simulated S M b σ (.vals vs) σ₁ (.operands T.operands))
    (hf : Item.Simulated S M f ⟨f.scope vs, σ₁.world⟩ o σ₂ .body) :
    (∀ v, o = .ret v → Item.Simulated S M b σ (.vals [v]) ⟨σ₁.vars, σ₂.world⟩ (.expr e)) ∧
    ∀ message loc, o = .raise message loc →
      Item.Simulated S M b σ (.raise message loc) ⟨σ₁.vars, σ₂.world⟩ (.expr e) := by
  have hcall : ∀ {Γ αs g t} (st : List Value),
      ExprTree (M.emitter b) M.notes M.plantillas Γ (.expr e) t → Held g Γ σ.vars αs →
      ∃ g₁ index u s, Held g₁ Γ σ₁.vars αs ∧ M.TreeAt S.program index u ∧
        S.Exec M u (FrameState.enter ⟨vs.reverse ++ st, g₁, σ₁.world⟩ vs.length) o.exit s ∧
        s.world = σ₂.world ∧
        ∀ {x s'}, S.Exec M (.atom (.callFunction index vs.length) T.loc)
          ⟨vs.reverse ++ st, g₁, σ₁.world⟩ x s' → S.Exec M t ⟨st, g, σ.world⟩ x s' := by
    intro Γ αs g t st ht hg
    obtain ⟨consts, ts, us, hts, hdone, hgoes, -⟩ := (ht.strict hL hg.alike h).split st
    rw [Strict.Performed, hT] at hdone
    obtain ⟨rfl, harity, index, rfl, hindex⟩ := hdone
    obtain ⟨⟨vs', hvs, hlen⟩ | ⟨_, _, hvs⟩, hrun⟩ := ho
    · cases hvs
      obtain ⟨g₁, hR, hg₁⟩ := (hrun st hts hg).vals
      obtain ⟨u, hu, hbody⟩ := hL.callee hindex
      obtain ⟨s, hs, hw⟩ := hf hbody (f.held (harity.trans hlen.symm))
      refine ⟨g₁, index, u, s, hg₁, hu, ?_, hw, fun hx => hgoes hR ?_⟩
      · rw [enter_operands]
        exact hs
      · rw [hlen] at hx
        exact .one hx
    · cases hvs
  have hle : ∀ st : List Value, vs.length ≤ (vs.reverse ++ st).length :=
    fun st => (take_operands st (rfl : vs.length = vs.length)).1
  have hdrop : ∀ st : List Value, (vs.reverse ++ st).drop vs.length = st :=
    fun st => (take_operands st (rfl : vs.length = vs.length)).2.2
  constructor
  · rintro v rfl Γ αs g t st ht hg
    obtain ⟨g₁, index, u, s, hg₁, hu, hs, hw, hgoes⟩ := hcall st ht hg
    have hx := hgoes (.call hu (hle st) hs)
    rw [hdrop, hw] at hx
    exact .of_vals hx hg₁
  · rintro message loc rfl Γ αs g t st ht hg
    obtain ⟨g₁, index, u, s, hg₁, hu, hs, hw, hgoes⟩ := hcall st ht hg
    have hx := hgoes (.callFails hu (hle st) hs)
    rw [hw] at hx
    exact .of_raised hx hg₁

theorem simulated_await {id : ℕ} (hL : S.Linked M) (h : S.strict b σ.vars e = some T)
    (hT : T.doing = .await id) (ho : Item.Simulated S M b σ (.vals vs) σ₁ (.operands T.operands))
    (hD : S.driver σ₁.world id vs = (v, w)) :
    Item.Simulated S M b σ (.vals [v]) ⟨σ₁.vars, w⟩ (.expr e) := by
  intro Γ αs g t st ht hg
  obtain ⟨consts, ts, us, hts, hdone, hgoes, -⟩ := (ht.strict hL hg.alike h).split st
  rw [Strict.Performed, hT] at hdone
  obtain ⟨rfl, rfl⟩ := hdone
  obtain ⟨⟨vs', hvs, hlen⟩ | ⟨_, _, hvs⟩, hrun⟩ := ho
  · cases hvs
    obtain ⟨g₁, hR, hg₁⟩ := (hrun st hts hg).vals
    obtain ⟨hle, htake, hdrop⟩ := take_operands st hlen
    have hx := hgoes hR (.one (.await hle (htake ▸ hD)))
    rw [hdrop] at hx
    exact .of_vals hx hg₁
  · cases hvs

theorem simulated_logical {op : LogOp} (hl : Item.Simulated S M b σ (.vals [v]) σ₁ (.expr l))
    (hdecides : op.decides (v.truthy σ₁.world.heap) = true) :
    Item.Simulated S M b σ (.vals [v]) σ₁ (.expr (.logical loc op l r)) := by
  intro Γ αs f t st ht hf
  obtain ⟨u, u', hu, -, rfl⟩ := ht.of_logical
  obtain ⟨f₁, hR, hf₁⟩ := (hl st hu hf).vals
  exact .of_vals (.seq hR (.peekDecides hdecides)) hf₁

theorem simulated_logicalGoes {op : LogOp}
    (hl : Item.Simulated S M b σ (.vals [v]) σ₁ (.expr l))
    (hdecides : op.decides (v.truthy σ₁.world.heap) = false)
    (hr : Item.Simulated S M b σ₁ o σ₂ (.expr r)) :
    Item.Simulated S M b σ o σ₂ (.expr (.logical loc op l r)) := by
  intro Γ αs f t st ht hf
  obtain ⟨u, u', hu, hu', rfl⟩ := ht.of_logical
  obtain ⟨f₁, hR, hf₁⟩ := (hl st hu hf).vals
  exact (hr st hu' hf₁).mono fun s hs => .seq hR (.peekGoes hdecides hs)

theorem simulated_logicalRaises {op : LogOp}
    (hl : Item.Simulated S M b σ (.raise message at') σ₁ (.expr l)) :
    Item.Simulated S M b σ (.raise message at') σ₁ (.expr (.logical loc op l r)) := by
  intro Γ αs f t st ht hf
  obtain ⟨u, u', hu, -, rfl⟩ := ht.of_logical
  exact (hl st hu hf).raises fun s hs => .seqStops hs (by simp)

theorem simulated_ternary (hc : Item.Simulated S M b σ (.vals [v]) σ₁ (.expr c))
    (h : Item.Simulated S M b σ₁ o σ₂ (.expr (if v.truthy σ₁.world.heap then l else r))) :
    Item.Simulated S M b σ o σ₂ (.expr (.ternary loc c l r)) := by
  intro Γ αs f t st ht hf
  obtain ⟨s, u, u', hs, hu, hu', rfl⟩ := ht.of_ternary
  obtain ⟨f₁, hR, hf₁⟩ := (hc st hs hf).vals
  have hbranch : ExprTree (M.emitter b) M.notes M.plantillas Γ
      (.expr (if v.truthy σ₁.world.heap then l else r))
      (if v.truthy σ₁.world.heap then u else u') := by
    split
    · exact hu
    · exact hu'
  exact (h st hbranch hf₁).mono fun s hs => .seq hR (.cond hs)

theorem simulated_ternaryRaises (hc : Item.Simulated S M b σ (.raise message at') σ₁ (.expr c)) :
    Item.Simulated S M b σ (.raise message at') σ₁ (.expr (.ternary loc c l r)) := by
  intro Γ αs f t st ht hf
  obtain ⟨s, u, u', hs, -, -, rfl⟩ := ht.of_ternary
  exact (hc st hs hf).raises fun s hs => .seqStops hs (by simp)

/-- What `++` and `--` on a variable compute. -/
theorem acts_stepLocal (kind : StepKind) {op : StepOp} {f : ℕ → Value} (st : List Value) {slot : ℕ}
    {u : Value} {res : Except String Value} (hslot : f slot = u)
    (hv : onHeap (op.eval · u (.int 1)) σ.world = (res, w)) :
    ∃ stack, Atom.acts S.env (stepLocalAtoms kind op slot) ⟨st, f, σ.world⟩ =
      match res with
      | .ok v => some (⟨(if kind = .post then u else v) :: st, Function.update f slot v, w⟩, none)
      | .error message => some (⟨stack, f, w⟩, some message) := by
  have hload := fun st => Atom.load_act (E := S.env) (w := σ.world) st hslot
  have hconst : ∀ st : List Value, (Atom.const (.int 1)).act S.env ⟨st, f, σ.world⟩ =
      some (⟨.int 1 :: st, f, σ.world⟩, none) := fun st => rfl
  have hop := fun st => StepOp.act (E := S.env) op (f := f) (w := σ.world) u (.int 1) st
  rw [hv] at hop
  cases kind with
  | pre =>
    simp only [stepLocalAtoms, reduceCtorEq, if_false, if_true, List.nil_append, List.cons_append]
    rw [Atom.acts_cons (hload st), Atom.acts_cons (hconst _)]
    cases res with
    | error message => exact ⟨st, Atom.acts_stops (hop st)⟩
    | ok v =>
      refine ⟨st, (Atom.acts_cons (hop st)).trans ?_⟩
      rw [Atom.acts_cons (Atom.store_act st)]
      exact Atom.acts_one.trans (Atom.load_act st (Function.update_self ..))
  | post =>
    simp only [stepLocalAtoms, reduceCtorEq, if_false, if_true, List.nil_append, List.cons_append]
    rw [Atom.acts_cons (hload st), Atom.acts_cons (hload _), Atom.acts_cons (hconst _)]
    cases res with
    | error message => exact ⟨u :: st, Atom.acts_stops (hop (u :: st))⟩
    | ok v => exact ⟨st, (Atom.acts_cons (hop (u :: st))).trans rfl⟩

theorem simulated_stepLocal {kind : StepKind} {op : StepOp} {tloc : SourceLoc} {x : Variable}
    (hx : σ.vars.var name = some x)
    (hv : onHeap (op.eval · x.value (.int 1)) σ.world = (.ok v, w)) :
    Item.Simulated S M b σ (.vals [if kind = .post then x.value else v])
      ⟨σ.vars.assign name v, w⟩ (.expr (.step loc kind op (.ident tloc name))) := by
  intro Γ αs f t st ht hf
  obtain ⟨slot, hslot, rfl⟩ := ht.of_stepLocal
  obtain ⟨stack, hacts⟩ := acts_stepLocal (S := S) kind st (hf.value hslot hx) hv
  exact .of_vals (Tree.Runs.atoms loc _ _ _ _ (Tree.ExecAll.atoms hacts)) (hf.assign hslot)

theorem simulated_stepLocalFails {kind : StepKind} {op : StepOp} {tloc : SourceLoc} {x : Variable}
    (hx : σ.vars.var name = some x)
    (hv : onHeap (op.eval · x.value (.int 1)) σ.world = (.error message, w)) :
    Item.Simulated S M b σ (.raise message loc) ⟨σ.vars, w⟩
      (.expr (.step loc kind op (.ident tloc name))) := by
  intro Γ αs f t st ht hf
  obtain ⟨slot, hslot, rfl⟩ := ht.of_stepLocal
  obtain ⟨stack, hacts⟩ := acts_stepLocal (S := S) kind st (hf.value hslot hx) hv
  exact .of_raised (Tree.Runs.atoms loc _ _ _ _ (Tree.ExecAll.atoms hacts)) hf

/-- `++` and `--` on an element. -/
theorem simulated_stepIndex {kind : StepKind} {op : StepOp} {tloc : SourceLoc} {a k : Value}
    {res : Except String Value} (ho : Item.Simulated S M b σ (.vals [a]) σ₁ (.expr l))
    (hi : Item.Simulated S M b σ₁ (.vals [k]) σ₂ (.expr r))
    (hv : Action.stepIndex kind op [a, k] σ₂.world = (res, w)) :
    Item.Simulated S M b σ (.ofResult loc res) ⟨σ₂.vars, w⟩
      (.expr (.step loc kind op (.index tloc l r))) := by
  intro Γ αs f t st ht hf
  obtain ⟨d, u, u', hu, hu', rfl⟩ := ht.of_stepIndex
  obtain ⟨f₁, hR, hf₁⟩ := (ho st hu hf).vals
  obtain ⟨f₂, hR₂, hf₂⟩ := (hi st hu' (hf₁.declareAux (v := a))).vals
  obtain ⟨hf₂, ha⟩ := hf₂.auxTail
  obtain ⟨⟨s, m⟩, hacts, hgives⟩ := acts_stepIndex (E := S.env) kind op (w := σ₂.world) k st ha
  rw [hv] at hgives
  refine hgives.ends hf₂ (.seq (.andThen hR (.atom (Atom.store_act st))) (.seq hR₂ ?_))
  exact Tree.Runs.atoms loc _ _ _ _ (Tree.ExecAll.atoms hacts)

theorem simulated_stepIndexObject {kind : StepKind} {op : StepOp} {tloc : SourceLoc}
    (ho : Item.Simulated S M b σ (.raise message at') σ₁ (.expr l)) :
    Item.Simulated S M b σ (.raise message at') σ₁
      (.expr (.step loc kind op (.index tloc l r))) := by
  intro Γ αs f t st ht hf
  obtain ⟨d, u, u', hu, -, rfl⟩ := ht.of_stepIndex
  exact (ho st hu hf).raises fun s hs => .seqStops (.seqStops hs (by simp)) (by simp)

theorem simulated_stepIndexPlace {kind : StepKind} {op : StepOp} {tloc : SourceLoc} {a : Value}
    (ho : Item.Simulated S M b σ (.vals [a]) σ₁ (.expr l))
    (hi : Item.Simulated S M b σ₁ (.raise message at') σ₂ (.expr r)) :
    Item.Simulated S M b σ (.raise message at') σ₂
      (.expr (.step loc kind op (.index tloc l r))) := by
  intro Γ αs f t st ht hf
  obtain ⟨d, u, u', hu, hu', rfl⟩ := ht.of_stepIndex
  obtain ⟨f₁, hR, hf₁⟩ := (ho st hu hf).vals
  obtain ⟨stack, f₂, hR₂, hf₂⟩ := (hi st hu' (hf₁.declareAux (v := a))).raised
  exact .of_raised (.seq (.andThen hR (.atom (Atom.store_act st))) (.seqStops hR₂ (by simp)))
    hf₂.auxTail.1

/-! ### Operands -/

theorem simulated_operandsNil : Item.Simulated S M b σ (.vals []) σ (.operands []) := by
  refine ⟨.inl ⟨[], rfl, rfl⟩, fun {Γ αs f ts} st hts hf => ?_⟩
  cases hts
  exact .of_vals .nil hf

theorem simulated_operandsConst {os : List Operand}
    (h : Item.Simulated S M b σ o σ₁ (.operands os)) :
    Item.Simulated S M b σ (o.push v) σ₁ (.operands (.const v :: os)) := by
  obtain ⟨ho, hrun⟩ := h
  refine ⟨?_, fun {Γ αs f ts} st hts hf => ?_⟩
  · rcases ho with ⟨vs, rfl, hlen⟩ | ⟨message, loc, rfl⟩
    · exact .inl ⟨v :: vs, rfl, congrArg (· + 1) hlen⟩
    · exact .inr ⟨message, loc, rfl⟩
  · cases hts with
    | @cons _ _ _ ts ht hts =>
    cases ht with
    | @const _ loc =>
    have hconst : ∀ {x s}, S.ExecAll M ts ⟨v :: st, f, σ.world⟩ x s →
        S.ExecAll M (.atom (.const v) loc :: ts) ⟨st, f, σ.world⟩ x s := fun h => .cons (.atom rfl) h
    rcases ho with ⟨vs, rfl, hlen⟩ | ⟨message, loc, rfl⟩
    · obtain ⟨f₁, hR, hf₁⟩ := (hrun (v :: st) hts hf).vals
      refine .of_vals (hconst ?_) hf₁
      rwa [List.reverse_cons, List.append_assoc]
    · exact (hrun (v :: st) hts hf).raises fun s hs => hconst hs

theorem simulated_operandsCons {os : List Operand}
    (he : Item.Simulated S M b σ (.vals [v]) σ₁ (.expr e))
    (h : Item.Simulated S M b σ₁ o σ₂ (.operands os)) :
    Item.Simulated S M b σ (o.push v) σ₂ (.operands (.expr e :: os)) := by
  obtain ⟨ho, hrun⟩ := h
  refine ⟨?_, fun {Γ αs f ts} st hts hf => ?_⟩
  · rcases ho with ⟨vs, rfl, hlen⟩ | ⟨message, loc, rfl⟩
    · exact .inl ⟨v :: vs, rfl, congrArg (· + 1) hlen⟩
    · exact .inr ⟨message, loc, rfl⟩
  · cases hts with
    | cons ht hts =>
    cases ht with
    | expr ht =>
    obtain ⟨f₁, hR, hf₁⟩ := (he st ht hf).vals
    rcases ho with ⟨vs, rfl, hlen⟩ | ⟨message, loc, rfl⟩
    · obtain ⟨f₂, hR₂, hf₂⟩ := (hrun (v :: st) hts hf₁).vals
      have hvs : (v :: vs).reverse ++ st = vs.reverse ++ v :: st := by
        rw [List.reverse_cons, List.append_assoc, List.singleton_append]
      rw [← hvs] at hR₂
      exact .of_vals (.cons hR hR₂) hf₂
    · exact (hrun (v :: st) hts hf₁).raises fun s hs => .cons hR hs

theorem simulated_operandsStops {os : List Operand}
    (he : Item.Simulated S M b σ (.raise message loc) σ₁ (.expr e)) :
    Item.Simulated S M b σ (.raise message loc) σ₁ (.operands (.expr e :: os)) := by
  refine ⟨.inr ⟨message, loc, rfl⟩, fun {Γ αs f ts} st hts hf => ?_⟩
  cases hts with
  | cons ht hts =>
  cases ht with
  | expr ht => exact (he st ht hf).raises fun s hs => .stops hs (by simp)

end Expressions

/-! ### Statements -/

section Statements

variable {S : Setting} {M : Module} {b : Body} {σ σ₁ σ₂ σ₃ : Store} {e c : Expr} {stmt : Stmt}
  {vs : List Value} {v u : Value} {w : World} {o o' : Completion} {message name type : String}
  {loc at' tloc : SourceLoc} {body orelse : Block} {a : Action} {os : List Operand}

theorem Completion.locals_self (o : Completion) (Γ : List Local) : o.locals Γ Γ = Γ := by
  cases o <;> rfl

theorem simulated_subject (h : stmt.subject = some e)
    (he : Item.Simulated S M b σ (.raise message loc) σ₁ (.expr e)) :
    Item.Simulated S M b σ (.raise message loc) σ₁ (.stmt stmt) := by
  refine ⟨rfl, fun {Γ Γ' αs f t} ht hf => ?_⟩
  obtain ⟨u, hu, hraise⟩ := ht.of_subject h
  exact (he [] hu hf).raises fun s hs => hraise hs

theorem simulated_returns (he : Item.Simulated S M b σ (.vals [v]) σ₁ (.expr e)) :
    Item.Simulated S M b σ (.ret v) σ₁ (.stmt (.returnStmt loc (some e))) := by
  refine ⟨rfl, fun {Γ Γ' αs f t} ht hf => ?_⟩
  cases ht with
  | returnValue ht =>
  obtain ⟨f₁, hR, hf₁⟩ := (he [] ht hf).vals
  exact .of_done (.seq hR .ret) hf₁ rfl

theorem simulated_returnsNull :
    Item.Simulated S M b σ (.ret .null) σ (.stmt (.returnStmt loc none)) := by
  refine ⟨rfl, fun {Γ Γ' αs f t} ht hf => ?_⟩
  cases ht with
  | returnNull => exact .of_done .retNull hf rfl

theorem simulated_breaks : Item.Simulated S M b σ .brk σ (.stmt (.breakStmt loc)) := by
  refine ⟨rfl, fun {Γ Γ' αs f t} ht hf => ?_⟩
  cases ht with
  | breakStmt => exact .of_done .brk hf rfl

theorem simulated_continues : Item.Simulated S M b σ .cont σ (.stmt (.continueStmt loc)) := by
  refine ⟨rfl, fun {Γ Γ' αs f t} ht hf => ?_⟩
  cases ht with
  | continueStmt => exact .of_done .cont hf rfl

theorem simulated_discards (he : Item.Simulated S M b σ (.vals [v]) σ₁ (.expr e)) :
    Item.Simulated S M b σ .done σ₁ (.stmt (.exprStmt loc e)) := by
  refine ⟨rfl, fun {Γ Γ' αs f t} ht hf => ?_⟩
  cases ht with
  | exprStmt ht =>
  obtain ⟨f₁, hR, hf₁⟩ := (he [] ht hf).vals
  exact .of_done (.andThen hR (.atom rfl)) hf₁ rfl

theorem simulated_declares (he : Item.Simulated S M b σ (.vals [v]) σ₁ (.expr e)) :
    Item.Simulated S M b σ .done ⟨⟨name, type, v⟩ :: σ₁.vars, σ₁.world⟩
      (.stmt (.varDecl loc type name (some e))) := by
  refine ⟨rfl, fun {Γ Γ' αs f t} ht hf => ?_⟩
  cases ht with
  | varInit ht =>
  obtain ⟨f₁, hR, hf₁⟩ := (he [] ht hf).vals
  exact .of_done (.andThen hR (.atom (Atom.store_act []))) hf₁.declare rfl

theorem simulated_declaresNull :
    Item.Simulated S M b σ .done ⟨⟨name, type, .null⟩ :: σ.vars, σ.world⟩
      (.stmt (.varDecl loc type name none)) := by
  refine ⟨rfl, fun {Γ Γ' αs f t} ht hf => ?_⟩
  cases ht with
  | varNull => exact .of_done (.seq (.atom rfl) (.atom (Atom.store_act []))) hf.declare rfl

theorem simulated_assigns (he : Item.Simulated S M b σ (.vals [v]) σ₁ (.expr e)) :
    Item.Simulated S M b σ .done ⟨σ₁.vars.assign name v, σ₁.world⟩
      (.stmt (.assign loc (.ident tloc name) e)) := by
  refine ⟨rfl, fun {Γ Γ' αs f t} ht hf => ?_⟩
  cases ht with
  | assignLocal hslot ht =>
  obtain ⟨f₁, hR, hf₁⟩ := (he [] ht hf).vals
  exact .of_done (.andThen hR (.atom (Atom.store_act []))) (hf₁.assign hslot) rfl

/-- An assignment to a field or to an element. -/
theorem simulated_stores (h : S.place σ.vars stmt = some (os, loc, a))
    (ho : Item.Simulated S M b σ (.vals vs) σ₁ (.operands os)) (ha : a vs σ₁.world = (.ok v, w)) :
    Item.Simulated S M b σ .done ⟨σ₁.vars, w⟩ (.stmt stmt) := by
  refine ⟨rfl, fun {Γ Γ' αs f t} ht hf => ?_⟩
  obtain ⟨rfl, ts, us, hts, hruns, hdone⟩ := ht.of_place hf.alike h
  obtain ⟨⟨vs', hvs, hlen⟩ | ⟨_, _, hvs⟩, hrun⟩ := ho
  · cases hvs
    obtain ⟨f₁, hR, hf₁⟩ := (hrun [] hts hf).vals
    obtain ⟨⟨⟨stack, g, w'⟩, m⟩, hacts, hgives⟩ := hdone vs [] f₁ σ₁.world hlen
    rw [ha] at hgives
    obtain ⟨rfl, hslots, rfl, rfl⟩ := hgives
    refine .of_done (hruns _ _ _ (hR.append ?_)) (hf₁.congr hslots) rfl
    rw [List.map_append]
    exact (Tree.ExecAll.atoms hacts).append (.one (.atom rfl))
  · cases hvs

theorem simulated_storeFails (h : S.place σ.vars stmt = some (os, loc, a))
    (ho : Item.Simulated S M b σ (.vals vs) σ₁ (.operands os))
    (ha : a vs σ₁.world = (.error message, w)) :
    Item.Simulated S M b σ (.raise message loc) ⟨σ₁.vars, w⟩ (.stmt stmt) := by
  refine ⟨rfl, fun {Γ Γ' αs f t} ht hf => ?_⟩
  obtain ⟨rfl, ts, us, hts, hruns, hdone⟩ := ht.of_place hf.alike h
  obtain ⟨⟨vs', hvs, hlen⟩ | ⟨_, _, hvs⟩, hrun⟩ := ho
  · cases hvs
    obtain ⟨f₁, hR, hf₁⟩ := (hrun [] hts hf).vals
    obtain ⟨⟨⟨stack, g, w'⟩, m⟩, hacts, hgives⟩ := hdone vs [] f₁ σ₁.world hlen
    rw [ha] at hgives
    obtain ⟨rfl, hslots, rfl⟩ := hgives
    have hus : S.ExecAll M ((us ++ [Atom.pop]).map (Tree.atom · loc))
        ⟨vs.reverse ++ [], f₁, σ₁.world⟩ (.raise message loc) ⟨stack, g, w'⟩ := by
      rw [List.map_append]
      exact (Tree.ExecAll.atoms hacts).stopped (by simp [Exit.ofMessage])
    exact .of_raised (hruns _ _ _ (hR.append hus)) (hf₁.congr hslots)
  · cases hvs

theorem simulated_storeRaises (h : S.place σ.vars stmt = some (os, loc, a))
    (ho : Item.Simulated S M b σ (.raise message at') σ₁ (.operands os)) :
    Item.Simulated S M b σ (.raise message at') σ₁ (.stmt stmt) := by
  refine ⟨rfl, fun {Γ Γ' αs f t} ht hf => ?_⟩
  obtain ⟨rfl, ts, us, hts, hruns, -⟩ := ht.of_place hf.alike h
  exact (ho.2 [] hts hf).raises fun s hs => hruns _ _ _ (hs.stopped (by simp))

theorem simulated_branches (hc : Item.Simulated S M b σ (.vals [v]) σ₁ (.expr c))
    (h : Item.Simulated S M b σ₁ o σ₂ (.block (if v.truthy σ₁.world.heap then body else orelse))) :
    Item.Simulated S M b σ o σ₂ (.stmt (.ifStmt loc c body orelse)) := by
  refine ⟨h.1, fun {Γ Γ' αs f t} ht hf => ?_⟩
  cases ht with
  | ifThen ht hu =>
    rw [o.locals_self]
    obtain ⟨f₁, hR, hf₁⟩ := (hc [] ht hf).vals
    by_cases hv : v.truthy σ₁.world.heap = true
    · rw [if_pos hv] at h
      exact (h.2 hu hf₁).mono fun s hs => .seq hR (.whenTrue hv hs)
    · rw [if_neg hv] at h
      refine (h.2 .stmtsNil hf₁).mono fun s hs => .seq hR ?_
      generalize o.exit = x at hs
      cases hs
      exact .whenFalse (Bool.eq_false_iff.2 hv)
  | ifElse hne hs ht hu =>
    rw [o.locals_self]
    obtain ⟨f₁, hR, hf₁⟩ := (hc [] hs hf).vals
    by_cases hv : v.truthy σ₁.world.heap = true
    · rw [if_pos hv] at h
      exact (h.2 ht hf₁).mono fun s hs => .seq hR (.cond (by rwa [if_pos hv]))
    · rw [if_neg hv] at h
      exact (h.2 hu hf₁).mono fun s hs => .seq hR (.cond (by rwa [if_neg hv]))

theorem simulated_requireHolds (hc : Item.Simulated S M b σ (.vals [v]) σ₁ (.expr c))
    (hv : v.truthy σ₁.world.heap = true) :
    Item.Simulated S M b σ .done σ₁ (.stmt (.requireStmt loc c e)) := by
  refine ⟨rfl, fun {Γ Γ' αs f t} ht hf => ?_⟩
  cases ht with
  | requireStmt ht hu =>
  obtain ⟨f₁, hR, hf₁⟩ := (hc [] ht hf).vals
  exact .of_done (.seq hR (.unlessTrue hv)) hf₁ rfl

theorem simulated_requireReturns (hc : Item.Simulated S M b σ (.vals [v]) σ₁ (.expr c))
    (hv : v.truthy σ₁.world.heap = false)
    (he : Item.Simulated S M b σ₁ (.vals [u]) σ₂ (.expr e)) :
    Item.Simulated S M b σ (.ret u) σ₂ (.stmt (.requireStmt loc c e)) := by
  refine ⟨rfl, fun {Γ Γ' αs f t} ht hf => ?_⟩
  cases ht with
  | requireStmt ht hu =>
  obtain ⟨f₁, hR, hf₁⟩ := (hc [] ht hf).vals
  obtain ⟨f₂, hR₂, hf₂⟩ := (he [] hu hf₁).vals
  exact .of_done (.seq hR (.unlessFalse hv (.seq hR₂ .ret))) hf₂ rfl

theorem simulated_requireRaises (hc : Item.Simulated S M b σ (.vals [v]) σ₁ (.expr c))
    (hv : v.truthy σ₁.world.heap = false)
    (he : Item.Simulated S M b σ₁ (.raise message at') σ₂ (.expr e)) :
    Item.Simulated S M b σ (.raise message at') σ₂ (.stmt (.requireStmt loc c e)) := by
  refine ⟨rfl, fun {Γ Γ' αs f t} ht hf => ?_⟩
  cases ht with
  | requireStmt ht hu =>
  obtain ⟨f₁, hR, hf₁⟩ := (hc [] ht hf).vals
  exact (he [] hu hf₁).raises fun s hs => .seq hR (.unlessFalse hv (.seqStops hs (by simp)))

theorem simulated_tries (hb : Item.Simulated S M b σ o σ₁ (.block body))
    (ho : ∀ message at', o ≠ .raise message at') {n : Option String} :
    Item.Simulated S M b σ o σ₁ (.stmt (.tryStmt loc body n orelse)) := by
  have hx : ∀ message l, o.exit ≠ .raise message l := by
    intro message l hx
    cases o <;> cases hx
    exact ho _ _ rfl
  refine ⟨hb.1, fun {Γ Γ' αs f t} ht hf => ?_⟩
  cases ht with
  | tryNamed ht hu | tryBare ht hu =>
    rw [o.locals_self]
    exact (hb.2 ht hf).mono fun s hs => .tryFalls hs hx

/-- The variable of a handler is the error. -/
theorem simulated_catches {heap : Heap}
    (hb : Item.Simulated S M b σ (.raise message at') σ₁ (.block body))
    (hv : errorValue message σ₁.world.heap = (v, heap))
    (h : Item.Simulated S M b ⟨⟨name, "", v⟩ :: σ₁.vars, { σ₁.world with heap := heap }⟩ o σ₂
      (.block orelse)) :
    Item.Simulated S M b σ o ⟨σ₂.vars.tail, σ₂.world⟩
      (.stmt (.tryStmt loc body (some name) orelse)) := by
  refine ⟨h.1, fun {Γ Γ' αs f t} ht hf => ?_⟩
  cases ht with
  | tryNamed ht hu =>
  rw [o.locals_self]
  obtain ⟨stack, f₁, hR, hf₁⟩ := (hb.2 ht hf).raised
  obtain ⟨s, hs, hw, hheld, hstack⟩ := h.2 hu (hf₁.declare (v := v))
  refine ⟨s, .tryCatches hR ?_, hw, hheld.tail, hstack⟩
  have hcaught : (⟨stack, f₁, σ₁.world⟩ : FrameState).caught message =
      ⟨[v], f₁, { σ₁.world with heap := heap }⟩ := by
    simp only [FrameState.caught, hv]
  rw [hcaught]
  exact .seq (.atom (Atom.store_act [])) hs

theorem simulated_catchesBare {heap : Heap}
    (hb : Item.Simulated S M b σ (.raise message at') σ₁ (.block body))
    (hv : errorValue message σ₁.world.heap = (v, heap))
    (h : Item.Simulated S M b ⟨σ₁.vars, { σ₁.world with heap := heap }⟩ o σ₂ (.block orelse)) :
    Item.Simulated S M b σ o σ₂ (.stmt (.tryStmt loc body none orelse)) := by
  refine ⟨h.1, fun {Γ Γ' αs f t} ht hf => ?_⟩
  cases ht with
  | tryBare ht hu =>
  rw [o.locals_self]
  obtain ⟨stack, f₁, hR, hf₁⟩ := (hb.2 ht hf).raised
  refine (h.2 hu hf₁).mono fun s hs => .tryCatches hR ?_
  have hcaught : (⟨stack, f₁, σ₁.world⟩ : FrameState).caught message =
      ⟨[v], f₁, { σ₁.world with heap := heap }⟩ := by
    simp only [FrameState.caught, hv]
  rw [hcaught]
  exact .seq (.atom rfl) hs

/-! ### Loops -/

theorem simulated_whileEnds (hc : Item.Simulated S M b σ (.vals [v]) σ₁ (.expr c))
    (hv : v.truthy σ₁.world.heap = false) :
    Item.Simulated S M b σ .done σ₁ (.stmt (.whileStmt loc c body)) := by
  refine ⟨rfl, fun {Γ Γ' αs f t} ht hf => ?_⟩
  cases ht with
  | whileStmt ht hu =>
  obtain ⟨f₁, hR, hf₁⟩ := (hc [] ht hf).vals
  exact .of_done (.loopEnds hR hv) hf₁ rfl

/-- The outcomes after which a loop goes on. -/
theorem Completion.of_goesOn (h : o.goesOn = true) : o = .done ∨ o = .cont := by
  cases o with
  | done => exact .inl rfl
  | cont => exact .inr rfl
  | _ => cases h

/-- The outcomes with which a loop is left. -/
theorem Completion.of_leaves (h : o.leaves = true) :
    o.exit ≠ .fall ∧ o.exit ≠ .brk ∧ o.exit ≠ .cont := by
  cases o with
  | ret v => simp [Completion.exit]
  | raise message loc => simp [Completion.exit]
  | _ => cases h

theorem simulated_whileGoes (hc : Item.Simulated S M b σ (.vals [v]) σ₁ (.expr c))
    (hv : v.truthy σ₁.world.heap = true) (hb : Item.Simulated S M b σ₁ o σ₂ (.block body))
    (ho : o.goesOn = true) (h : Item.Simulated S M b σ₂ o' σ₃ (.stmt (.whileStmt loc c body))) :
    Item.Simulated S M b σ o' σ₃ (.stmt (.whileStmt loc c body)) := by
  refine ⟨h.1, fun {Γ Γ' αs f t} ht hf => ?_⟩
  have hloop := ht
  cases ht with
  | whileStmt ht hu =>
  obtain ⟨f₁, hR, hf₁⟩ := (hc [] ht hf).vals
  rcases Completion.of_goesOn ho with rfl | rfl
  · obtain ⟨f₂, hR₂, hf₂⟩ := (hb.2 hu hf₁).done rfl rfl
    exact (h.2 hloop hf₂).mono fun s hs => .loopGoes hR hv hR₂ (.inl rfl) .nil hs
  · obtain ⟨f₂, hR₂, hf₂⟩ := (hb.2 hu hf₁).done rfl rfl
    exact (h.2 hloop hf₂).mono fun s hs => .loopContinues hR hv hR₂ hs

theorem simulated_whileBreaks (hc : Item.Simulated S M b σ (.vals [v]) σ₁ (.expr c))
    (hv : v.truthy σ₁.world.heap = true) (hb : Item.Simulated S M b σ₁ .brk σ₂ (.block body)) :
    Item.Simulated S M b σ .done σ₂ (.stmt (.whileStmt loc c body)) := by
  refine ⟨rfl, fun {Γ Γ' αs f t} ht hf => ?_⟩
  cases ht with
  | whileStmt ht hu =>
  obtain ⟨f₁, hR, hf₁⟩ := (hc [] ht hf).vals
  obtain ⟨f₂, hR₂, hf₂⟩ := (hb.2 hu hf₁).done rfl rfl
  exact .of_done (.loopBreaks hR hv hR₂) hf₂ rfl

theorem simulated_whileLeaves (hc : Item.Simulated S M b σ (.vals [v]) σ₁ (.expr c))
    (hv : v.truthy σ₁.world.heap = true) (hb : Item.Simulated S M b σ₁ o σ₂ (.block body))
    (ho : o.leaves = true) :
    Item.Simulated S M b σ o σ₂ (.stmt (.whileStmt loc c body)) := by
  refine ⟨hb.1, fun {Γ Γ' αs f t} ht hf => ?_⟩
  cases ht with
  | whileStmt ht hu =>
  rw [o.locals_self]
  obtain ⟨f₁, hR, hf₁⟩ := (hc [] ht hf).vals
  exact (hb.2 hu hf₁).mono fun s hs => .loopLeaves hR hv hs (Completion.of_leaves ho)

/-- The header of a `for` puts its items, their number and the first index into three slots. -/
theorem acts_forHeader {E : Env} {n : ℕ} {f : ℕ → Value} {heap : Heap} {items : Value}
    {count : Int64} (hi : iterList w.heap v = .ok (items, heap))
    (hn : lenOf heap items = .ok (.int count)) :
    Atom.acts E (forHeaderAtoms n) ⟨[v], f, w⟩ =
      some (⟨[], Function.update (Function.update (Function.update f n items) (n + 1) (.int count))
        (n + 2) (.int 0), { w with heap := heap }⟩, none) := by
  have hiter : (Atom.op .iterList).act E ⟨[v], f, w⟩ =
      some (⟨[items], f, { w with heap := heap }⟩, none) := by
    change some (FrameState.settle _ [] (iterList w.heap v)) = _
    rw [hi]
    rfl
  have hlen : (Atom.callNative lenId 1).act E
      ⟨[items], Function.update f n items, { w with heap := heap }⟩ =
      some (⟨[.int count], Function.update f n items, { w with heap := heap }⟩, none) := by
    refine (Atom.callNative_act rfl [items] [] _ _).trans ?_
    have hcall : callNative E { w with heap := heap } lenId [items] =
        (lenOf heap items, { w with heap := heap }) := rfl
    rw [hcall, hn]
    rfl
  rw [forHeaderAtoms, Atom.acts_cons hiter, Atom.acts_cons (Atom.store_act []),
    Atom.acts_cons (Atom.load_act [] (Function.update_self ..)), Atom.acts_cons hlen,
    Atom.acts_cons (Atom.store_act [])]
  rfl

theorem acts_forHeader_fails {E : Env} {n : ℕ} {f : ℕ → Value}
    (hi : iterList w.heap v = .error message) :
    Atom.acts E (forHeaderAtoms n) ⟨[v], f, w⟩ = some (⟨[], f, w⟩, some message) := by
  have hiter : (Atom.op .iterList).act E ⟨[v], f, w⟩ = some (⟨[], f, w⟩, some message) := by
    change some (FrameState.settle _ [] (iterList w.heap v)) = _
    rw [hi]
    rfl
  rw [forHeaderAtoms, Atom.acts_stops hiter]

theorem simulated_forStarts {heap : Heap} {items : Value} {count : Int64}
    (he : Item.Simulated S M b σ (.vals [v]) σ₁ (.expr e))
    (hi : iterList σ₁.world.heap v = .ok (items, heap)) (hn : lenOf heap items = .ok (.int count))
    (h : Item.Simulated S M b ⟨σ₁.vars, { σ₁.world with heap := heap }⟩ o σ₂
      (.each loc type name body items count 0)) :
    Item.Simulated S M b σ o σ₂ (.stmt (.forStmt loc type name e body)) := by
  refine ⟨h.1, fun {Γ Γ' αs f t} ht hf => ?_⟩
  cases ht with
  | @forStmt _ _ _ _ _ _ _ d _ _ ht hu =>
  rw [o.locals_self]
  obtain ⟨f₁, hR, hf₁⟩ := (he [] ht hf).vals
  have hheader := Tree.Runs.atoms (E := S.env) (D := S.driver) (F := M.TreeAt S.program) loc _ _ _ _
    (Tree.ExecAll.atoms (acts_forHeader (E := S.env) (n := Γ.length) (f := f₁) hi hn))
  have hslots : Held (Function.update (Function.update (Function.update f₁ Γ.length items)
      (Γ.length + 1) (.int count)) (Γ.length + 2) (.int 0)) (forLocals d Γ) σ₁.vars
      (.int 0 :: .int count :: items :: αs) := hf₁.declareAux.declareAux.declareAux
  exact (h.2 hu hslots).mono fun s hs => .seq (.seq hR hheader) hs

theorem simulated_forFails (he : Item.Simulated S M b σ (.vals [v]) σ₁ (.expr e))
    (hi : iterList σ₁.world.heap v = .error message) :
    Item.Simulated S M b σ (.raise message loc) σ₁ (.stmt (.forStmt loc type name e body)) := by
  refine ⟨rfl, fun {Γ Γ' αs f t} ht hf => ?_⟩
  cases ht with
  | forStmt ht hu =>
  obtain ⟨f₁, hR, hf₁⟩ := (he [] ht hf).vals
  have hheader := Tree.Runs.atoms (E := S.env) (D := S.driver) (F := M.TreeAt S.program) loc _ _ _ _
    (Tree.ExecAll.atoms (acts_forHeader_fails (E := S.env) (n := Γ.length) (f := f₁) hi))
  exact .of_raised (.seqStops (.seq hR hheader) (by simp)) hf₁

/-- The slots of a `for`. -/
theorem Held.forSlots {f : ℕ → Value} {d : ℕ} {Γ : List Local} {vars : Scope} {αs : List Value}
    {items i count : Value} (h : Held f (forLocals d Γ) vars (i :: count :: items :: αs)) :
    Held f Γ vars αs ∧ f Γ.length = items ∧ f (Γ.length + 1) = count ∧ f (Γ.length + 2) = i := by
  obtain ⟨h, hi⟩ := h.auxTail
  obtain ⟨h, hcount⟩ := h.auxTail
  obtain ⟨h, hitems⟩ := h.auxTail
  exact ⟨h, hitems, hcount, hi⟩

/-- The test of a `for` compares its index with the number of its items. -/
theorem exec_forTest {E : Env} {D : Driver} {F : ℕ → Tree → Prop} {n : ℕ} {f : ℕ → Value}
    {i count : Int64} (hi : f (n + 2) = .int i) (hcount : f (n + 1) = .int count) :
    Tree.Exec E D F (.atoms loc (forTestAtoms n)) ⟨[], f, w⟩ .fall
      ⟨[.bool (decide (i < count))], f, w⟩ := by
  have hacts : Atom.acts E (forTestAtoms n) ⟨[], f, w⟩ =
      some (⟨[.bool (decide (i < count))], f, w⟩, none) := by
    rw [forTestAtoms, Atom.acts_cons (Atom.load_act [] hi), Atom.acts_cons (Atom.load_act _ hcount)]
    rfl
  exact Tree.Runs.atoms loc _ _ _ _ (Tree.ExecAll.atoms hacts)

/-- The next item of a `for` goes to its variable. -/
theorem acts_forItem {E : Env} {n : ℕ} {f : ℕ → Value} {items i : Value}
    (hitems : f n = items) (hi : f (n + 2) = i) :
    Atom.acts E (forItemAtoms n) ⟨[], f, w⟩ =
      match getIndex w.heap items i with
      | .ok (v, heap) => some (⟨[], Function.update f (n + 3) v, { w with heap := heap }⟩, none)
      | .error message => some (⟨[], f, w⟩, some message) := by
  have hget : (Atom.op .getIndex).act E ⟨[i, items], f, w⟩ =
      some (FrameState.settle ⟨[i, items], f, w⟩ [] (getIndex w.heap items i)) := rfl
  rw [forItemAtoms, Atom.acts_cons (Atom.load_act [] hitems), Atom.acts_cons (Atom.load_act _ hi)]
  cases hr : getIndex w.heap items i with
  | error message =>
    rw [hr] at hget
    exact Atom.acts_stops hget
  | ok p =>
    rw [hr] at hget
    exact (Atom.acts_cons hget).trans rfl

theorem exec_forItem {E : Env} {D : Driver} {F : ℕ → Tree → Prop} {n : ℕ} {f : ℕ → Value}
    {items i : Value} {heap : Heap} (hitems : f n = items) (hi : f (n + 2) = i)
    (hv : getIndex w.heap items i = .ok (v, heap)) :
    Tree.Exec E D F (.atoms loc (forItemAtoms n)) ⟨[], f, w⟩ .fall
      ⟨[], Function.update f (n + 3) v, { w with heap := heap }⟩ := by
  have hacts := acts_forItem (E := E) (w := w) hitems hi
  rw [hv] at hacts
  exact Tree.Runs.atoms loc _ _ _ _ (Tree.ExecAll.atoms hacts)

/-- The step of a `for` adds one to its index. -/
theorem exec_forStep {E : Env} {D : Driver} {F : ℕ → Tree → Prop} {n : ℕ} {f : ℕ → Value}
    {i : Int64} (hi : f (n + 2) = .int i) :
    Tree.Exec E D F (.atoms loc (forStepAtoms n)) ⟨[], f, w⟩ .fall
      ⟨[], Function.update f (n + 2) (.int (i + 1)), w⟩ := by
  have hacts : Atom.acts E (forStepAtoms n) ⟨[], f, w⟩ =
      some (⟨[], Function.update f (n + 2) (.int (i + 1)), w⟩, none) := by
    rw [forStepAtoms, Atom.acts_cons (Atom.load_act [] hi)]
    rfl
  exact Tree.Runs.atoms loc _ _ _ _ (Tree.ExecAll.atoms hacts)

variable {items : Value} {count i : Int64} {heap : Heap}

theorem truthy_decide (p : Prop) [Decidable p] (heap : Heap) :
    (Value.bool (decide p)).truthy heap = decide p := rfl

theorem simulated_eachEnds (hi : ¬ i < count) :
    Item.Simulated S M b σ .done σ (.each loc type name body items count i) := by
  refine ⟨rfl, fun {Γ Γ' αs f d u} hu hf => ?_⟩
  obtain ⟨hf, -, hcount, hindex⟩ := hf.forSlots
  exact .of_done (.loopEnds (exec_forTest hindex hcount) (decide_eq_false hi)) hf rfl

theorem simulated_eachFails (hi : i < count)
    (hv : getIndex σ.world.heap items (.int i) = .error message) :
    Item.Simulated S M b σ (.raise message loc) σ (.each loc type name body items count i) := by
  refine ⟨rfl, fun {Γ Γ' αs f d u} hu hf => ?_⟩
  obtain ⟨hf, hitems, hcount, hindex⟩ := hf.forSlots
  have hacts := acts_forItem (E := S.env) (w := σ.world) hitems hindex
  rw [hv] at hacts
  have hitem := Tree.Runs.atoms (E := S.env) (D := S.driver) (F := M.TreeAt S.program) loc _ _ _ _
    (Tree.ExecAll.atoms hacts)
  exact .of_raised (.loopLeaves (exec_forTest hindex hcount) (decide_eq_true hi)
    (.seqStops hitem (by simp)) (by simp)) hf

/-- A turn of a `for` begins with its variable. -/
theorem each_turn (loc : SourceLoc) (hv : getIndex σ.world.heap items (.int i) = .ok (v, heap))
    (hb : Item.Simulated S M b ⟨⟨name, type, v⟩ :: σ.vars, { σ.world with heap := heap }⟩ o σ₁
      (.block body)) {Γ Γ' : List Local} {αs : List Value} {f : ℕ → Value} {d : ℕ} {t : Tree}
    (ht : StmtTree (M.emitter b) M.notes M.plantillas (⟨.user name, d, type⟩ :: forLocals d Γ)
      (.stmts body) t Γ')
    (hf : Held f (forLocals d Γ) σ.vars (.int i :: .int count :: items :: αs)) :
    S.Exec M (.atoms loc (forTestAtoms Γ.length)) ⟨[], f, σ.world⟩ .fall
        ⟨[.bool (decide (i < count))], f, σ.world⟩ ∧
      Ends (S.Exec M (.seq (.atoms loc (forItemAtoms Γ.length)) t) ⟨[], f, σ.world⟩)
        (⟨.user name, d, type⟩ :: forLocals d Γ) (.int i :: .int count :: items :: αs) [] o σ₁ := by
  obtain ⟨-, hitems, hcount, hindex⟩ := hf.forSlots
  exact ⟨exec_forTest hindex hcount, (hb.2 ht hf.declare).mono fun s hs =>
    .seq (exec_forItem hitems hindex hv) hs⟩

theorem simulated_eachGoes (hi : i < count)
    (hv : getIndex σ.world.heap items (.int i) = .ok (v, heap))
    (hb : Item.Simulated S M b ⟨⟨name, type, v⟩ :: σ.vars, { σ.world with heap := heap }⟩ o σ₁
      (.block body)) (ho : o.goesOn = true)
    (h : Item.Simulated S M b ⟨σ₁.vars.tail, σ₁.world⟩ o' σ₂
      (.each loc type name body items count (i + 1))) :
    Item.Simulated S M b σ o' σ₂ (.each loc type name body items count i) := by
  refine ⟨h.1, fun {Γ Γ' αs f d u} hu hf => ?_⟩
  obtain ⟨htest, hturn⟩ := each_turn loc hv hb hu hf
  have hgoes : o.left = [] ∧ o.leaves = false ∧
      (o.exit = .fall ∨ o.exit = .cont ∧ false = false) := by
    rcases Completion.of_goesOn ho with rfl | rfl
    · exact ⟨rfl, rfl, .inl rfl⟩
    · exact ⟨rfl, rfl, .inr ⟨rfl, rfl⟩⟩
  obtain ⟨f₁, hR, hf₁⟩ := hturn.done hgoes.1 hgoes.2.1
  obtain ⟨hf₂, hitems, hcount, hindex⟩ := hf₁.tail.forSlots
  have hnext : Held (Function.update f₁ (Γ.length + 2) (.int (i + 1))) (forLocals d Γ) σ₁.vars.tail
      (.int (i + 1) :: .int count :: items :: αs) :=
    (Held.aux (.aux hf₂ hitems) hcount).declareAux
  exact (h.2 hu hnext).mono fun s hs =>
    .loopGoes htest (decide_eq_true hi) hR hgoes.2.2 (exec_forStep hindex) hs

theorem simulated_eachBreaks (hi : i < count)
    (hv : getIndex σ.world.heap items (.int i) = .ok (v, heap))
    (hb : Item.Simulated S M b ⟨⟨name, type, v⟩ :: σ.vars, { σ.world with heap := heap }⟩ .brk σ₁
      (.block body)) :
    Item.Simulated S M b σ .done ⟨σ₁.vars.tail, σ₁.world⟩
      (.each loc type name body items count i) := by
  refine ⟨rfl, fun {Γ Γ' αs f d u} hu hf => ?_⟩
  obtain ⟨htest, hturn⟩ := each_turn loc hv hb hu hf
  obtain ⟨f₁, hR, hf₁⟩ := hturn.done rfl rfl
  exact .of_done (.loopBreaks htest (decide_eq_true hi) hR) hf₁.tail.forSlots.1 rfl

theorem simulated_eachLeaves (hi : i < count)
    (hv : getIndex σ.world.heap items (.int i) = .ok (v, heap))
    (hb : Item.Simulated S M b ⟨⟨name, type, v⟩ :: σ.vars, { σ.world with heap := heap }⟩ o σ₁
      (.block body)) (ho : o.leaves = true) :
    Item.Simulated S M b σ o ⟨σ₁.vars.tail, σ₁.world⟩
      (.each loc type name body items count i) := by
  refine ⟨hb.1, fun {Γ Γ' αs f d u} hu hf => ?_⟩
  obtain ⟨htest, s, hR, hw, hheld, hstack⟩ := each_turn loc hv hb hu hf
  exact ⟨s, .loopLeaves htest (decide_eq_true hi) hR (Completion.of_leaves ho), hw,
    hheld.tail.forSlots.1, hstack⟩

/-! ### Blocks -/

theorem simulated_blockNil : Item.Simulated S M b σ .done σ (.block []) := by
  refine ⟨rfl, fun {Γ Γ' αs f t} ht hf => ?_⟩
  cases ht with
  | stmtsNil => exact .of_done .nil hf rfl

/-- The variables of a block are dropped at its end. -/
theorem simulated_blockCons {ss : Block} (hs : Item.Simulated S M b σ .done σ₁ (.stmt stmt))
    (h : Item.Simulated S M b σ₁ o σ₂ (.block ss)) :
    Item.Simulated S M b σ o ⟨σ.vars.leave σ₁.vars σ₂.vars, σ₂.world⟩ (.block (stmt :: ss)) := by
  refine ⟨h.1, fun {Γ Γ' αs f t} ht hf => ?_⟩
  cases ht with
  | stmtsCons ht hu =>
  obtain ⟨f₁, hR, hf₁⟩ := (hs.2 ht hf).done rfl rfl
  obtain ⟨s, hR₂, hw, hheld, hstack⟩ := h.2 hu hf₁
  exact ⟨s, .seq hR hR₂, hw, hf.leave ht.declared hf₁ hheld, hstack⟩

theorem simulated_blockStops {ss : Block} (hs : Item.Simulated S M b σ o σ₁ (.stmt stmt))
    (ho : o ≠ .done) : Item.Simulated S M b σ o σ₁ (.block (stmt :: ss)) := by
  refine ⟨hs.1, fun {Γ Γ' αs f t} ht hf => ?_⟩
  have hx : o.exit ≠ .fall := by
    obtain ⟨hends, -⟩ := hs
    cases o with
    | done => exact absurd rfl ho
    | vals vs => cases hends
    | _ => simp [Completion.exit]
  have hlocals : ∀ Γ', o.locals Γ Γ' = Γ := by
    intro Γ'
    cases o with
    | done => exact absurd rfl ho
    | _ => rfl
  cases ht with
  | stmtsCons ht hu =>
  have hends := hs.2 ht hf
  rw [hlocals] at hends
  exact hends.mono fun s hs => .seqStops hs hx

end Statements

/-! ### Bodies -/

section Bodies

variable {E : Env} {D : Driver} {F : ℕ → Tree → Prop} {S : Setting} {M : Module} {b : Body}
  {X : Emitter} {N : List Note} {P : List Plantilla} {Γ Γ' : List Local} {t u k : Tree}
  {s s' : FrameState} {x : Exit} {σ σ₁ : Store} {v : Value} {o : Completion} {ss : Block}
  {loc : SourceLoc} {cls : String} {fields : List String} {ct : CtorDecl}

/-- How trees are put together does not matter. -/
theorem Tree.Exec.assoc :
    Tree.Exec E D F (.seq (.seq t u) k) s x s' ↔ Tree.Exec E D F (.seq t (.seq u k)) s x s' := by
  constructor
  · intro h
    cases h with
    | seq h hk =>
      cases h with
      | seq ht hu => exact .seq ht (.seq hu hk)
      | seqStops _ hx => exact absurd rfl hx
    | seqStops h hx =>
      cases h with
      | seq ht hu => exact .seq ht (.seqStops hu hx)
      | seqStops ht _ => exact .seqStops ht hx
  · intro h
    cases h with
    | seq ht h =>
      cases h with
      | seq hu hk => exact .seq (.seq ht hu) hk
      | seqStops hu hx => exact .seqStops (.seq ht hu) hx
    | seqStops ht hx => exact .seqStops (.seqStops ht hx) hx

theorem Tree.Exec.seq_mono {k' : Tree} (h : Tree.Exec E D F (.seq t k) s x s')
    (hk : ∀ s, Tree.Exec E D F k s x s' → Tree.Exec E D F k' s x s') :
    Tree.Exec E D F (.seq t k') s x s' := by
  cases h with
  | seq ht h => exact .seq ht (hk _ h)
  | seqStops ht hx => exact .seqStops ht hx

theorem Tree.Exec.atoms_append {as bs : List Atom}
    (h : Tree.Exec E D F (.seq (.atoms loc as) (.atoms loc bs)) s x s') :
    Tree.Exec E D F (.atoms loc (as ++ bs)) s x s' := by
  induction as generalizing s with
  | nil =>
    cases h with
    | seq hnil h =>
      cases hnil
      exact h
    | seqStops hnil hx =>
      cases hnil
      exact absurd rfl hx
  | cons a as ih => exact (Tree.Exec.assoc.1 h).seq_mono fun s hs => ih hs

/-- The guards of a route are the first statements of its body. -/
theorem GuardsTree.block {gs : List Guard} {body : Block} (h : GuardsTree X N P Γ gs t)
    (hu : StmtTree X N P Γ (.stmts body) u Γ') :
    ∃ v, StmtTree X N P Γ (.stmts (gs.map Guard.stmt ++ body)) v Γ' ∧
      ∀ {k s x s'}, Tree.Exec E D F (.seq v k) s x s' →
        Tree.Exec E D F (.seq t (.seq u k)) s x s' := by
  induction h with
  | nil => exact ⟨u, hu, fun h => .seq .nil h⟩
  | cons ht hg _ ih =>
    obtain ⟨v, hv, hexec⟩ := ih
    refine ⟨_, .stmtsCons (.requireStmt ht hg) hv, fun h => ?_⟩
    exact Tree.Exec.assoc.2 ((Tree.Exec.assoc.1 h).seq_mono fun s hs => hexec hs)

/-- The tree of a body that is a block. -/
theorem BodyTree.block (h : BodyTree X N P b t) (hb : b.block = some ss) :
    ∃ u Γ' loc, StmtTree X N P b.locals (.stmts ss) u Γ' ∧
      ∀ {s x s'}, Tree.Exec E D F (.seq u (.retNull loc)) s x s' → Tree.Exec E D F t s x s' := by
  cases h with
  | function ht | method ht | errorHandler ht =>
    cases hb
    exact ⟨_, _, _, ht, fun h => h⟩
  | route hg ht =>
    cases hb
    obtain ⟨v, hv, hexec⟩ := hg.block ht
    exact ⟨v, _, _, hv, hexec⟩
  | ctor _ _ | ctorFields _ _ | condition _ => cases hb

theorem simulated_bodyEnds (h : b.block = some ss)
    (hb : Item.Simulated S M b σ .done σ₁ (.block ss)) :
    Item.Simulated S M b σ (.ret .null) σ₁ .body := by
  intro f t ht hf
  obtain ⟨u, Γ', loc, hu, hexec⟩ := ht.block h
  obtain ⟨f₁, hR, -⟩ := (hb.2 hu hf).done rfl rfl
  exact ⟨_, hexec (.seq hR .retNull), rfl⟩

theorem simulated_bodyLeaves (h : b.block = some ss)
    (hb : Item.Simulated S M b σ o σ₁ (.block ss)) (ho : o.leaves = true) :
    Item.Simulated S M b σ o σ₁ .body := by
  intro f t ht hf
  obtain ⟨u, Γ', loc, hu, hexec⟩ := ht.block h
  obtain ⟨s, hR, hw, -⟩ := hb.2 hu hf
  exact ⟨s, hexec (.seqStops hR (Completion.of_leaves ho).1), hw⟩

/-- A constructor makes its instance. -/
theorem exec_instance {n : ℕ} {f : ℕ → Value} {w : World} {this : Value} {heap : Heap}
    (hd : makeDict w.heap (fields.flatMap fun f => [.str f, .null]) = .ok (this, heap)) :
    Tree.Exec E D F (.atoms loc (instanceAtoms fields n)) ⟨[], f, w⟩ .fall
      ⟨[], Function.update f n this, { w with heap := heap }⟩ := by
  have hconsts : (fields.flatMap fun f => [Atom.const (.str f), .const .null]) =
      (fields.flatMap fun f => [Value.str f, .null]).map Atom.const := by
    rw [List.map_flatMap]
    rfl
  have hlen : (fields.flatMap fun f => [Value.str f, .null]).length = fields.length * 2 := by
    simp [List.length_flatMap, List.map_const']
  have hdict := Atom.makeDict_act (E := E) [] f w hlen
  have haction : Action.dict (fields.flatMap fun f => [Value.str f, .null]) w =
      (.ok this, { w with heap := heap }) := by
    simp only [Action.dict, onHeap, hd]
  rw [haction] at hdict
  have hacts : Atom.acts E (instanceAtoms fields n) ⟨[], f, w⟩ =
      some (⟨[], Function.update f n this, { w with heap := heap }⟩, none) := by
    rw [instanceAtoms, hconsts, Atom.acts_consts, Atom.acts_cons hdict]
    rfl
  exact Tree.Runs.atoms loc _ _ _ _ (Tree.ExecAll.atoms hacts)

/-- The assignments of a constructor without a body. -/
theorem fieldInits_tree (loc : SourceLoc) {self : ℕ} {params : List Param}
    {inits : List (String × ℕ)}
    (hself : resolveLocal Γ "this" = some self)
    (hi : List.Forall₂ (fun (p : Param) i => i.1 = p.name ∧ resolveLocal Γ p.name = some i.2) params
      inits) :
    ∃ u, StmtTree X N P Γ (.stmts (params.map fun p =>
        .assign loc (.member loc (.this loc) p.name) (.ident loc p.name))) u Γ ∧
      ∀ {s x s'}, Tree.Exec E D F u s x s' →
        Tree.Exec E D F (.atoms loc (fieldInitAtoms self inits)) s x s' := by
  induction hi with
  | nil => exact ⟨.nil, .stmtsNil, fun h => h⟩
  | @cons p i params inits hi _ ih =>
    obtain ⟨name, slot⟩ := i
    obtain ⟨rfl, hslot⟩ := hi
    obtain ⟨u, hu, hexec⟩ := ih
    have hthis : ExprTree X N P Γ (.expr (.this loc)) (.atom (.loadLocal self) loc) :=
      .local rfl hself
    have hname : ExprTree X N P Γ (.expr (.ident loc p.name)) (.atom (.loadLocal slot) loc) :=
      .local rfl hslot
    refine ⟨_, .stmtsCons (.assignMember (by simp [reservedObject]) hthis hname) hu,
      fun {s x s'} h => ?_⟩
    have hone : Tree.Exec E D F (.seq (.atoms loc [.loadLocal self, .loadLocal slot,
        .setMember p.name, .pop]) (.atoms loc (fieldInitAtoms self inits))) s x s' :=
      h.seq_mono fun s hs => hexec hs
    exact hone.atoms_append

/-- The tree of a constructor. -/
theorem BodyTree.ctorBlock (h : BodyTree X N P (.ctor cls fields ct) t) :
    ∃ u Γ', StmtTree X N P (ctorLocals cls ct.params) (.stmts ct.block) u Γ' ∧
      ∀ {s x s'}, Tree.Exec E D F (.seq (.atoms ct.loc (instanceAtoms fields ct.params.length))
        (.seq u (.seq (.atom (.loadLocal ct.params.length) ct.loc) (.ret ct.loc)))) s x s' →
        Tree.Exec E D F t s x s' := by
  cases h with
  | ctor hb ht =>
    rw [CtorDecl.block, hb]
    exact ⟨_, _, ht, fun h => h⟩
  | ctorFields hb hi =>
    have hself : resolveLocal (ctorLocals cls ct.params) "this" = some ct.params.length := by
      rw [resolveLocal, ctorLocals, findLocal_cons, if_pos rfl, length_paramLocals]
      rfl
    obtain ⟨u, hu, hexec⟩ := fieldInits_tree (E := E) (D := D) (F := F) ct.loc hself hi
    rw [CtorDecl.block, hb]
    refine ⟨u, _, hu, fun h => h.seq_mono fun s hs => ?_⟩
    cases hs with
    | seq hu hrest => exact .seq (hexec hu) hrest
    | seqStops hu hx => exact .seqStops (hexec hu) hx

theorem simulated_ctor {this : Value} {heap : Heap} {f : ℕ → Value}
    (hd : makeDict σ.world.heap (fields.flatMap fun f => [.str f, .null]) = .ok (this, heap))
    (hb : Item.Simulated S M (.ctor cls fields ct)
      ⟨⟨"this", cls, this⟩ :: σ.vars, { σ.world with heap := heap }⟩ o σ₁ (.block ct.block))
    (ht : BodyTree (M.emitter (.ctor cls fields ct)) M.notes M.plantillas (.ctor cls fields ct) t)
    (hf : Held f (Body.ctor cls fields ct).locals σ.vars []) :
    ∃ u s, S.Exec M u ⟨[], Function.update f ct.params.length this,
        { σ.world with heap := heap }⟩ o.exit s ∧ s.world = σ₁.world ∧
      Held s.slots (ctorLocals cls ct.params) σ₁.vars [] ∧
      (o.leaves = false → s.stack = o.left.reverse ++ []) ∧
      ∀ {x s'}, S.Exec M (.seq u (.seq (.atom (.loadLocal ct.params.length) ct.loc) (.ret ct.loc)))
        ⟨[], Function.update f ct.params.length this, { σ.world with heap := heap }⟩ x s' →
        S.Exec M t ⟨[], f, σ.world⟩ x s' := by
  obtain ⟨u, Γ', hu, hexec⟩ := ht.ctorBlock (E := S.env) (D := S.driver) (F := M.TreeAt S.program)
  have hthis : Held (Function.update f ct.params.length this) (ctorLocals cls ct.params)
      (⟨"this", cls, this⟩ :: σ.vars) [] := by
    have hdecl : Held (Function.update f (paramLocals ct.params).length this)
        (ctorLocals cls ct.params) (⟨"this", cls, this⟩ :: σ.vars) [] := hf.declare
    rwa [length_paramLocals] at hdecl
  obtain ⟨s, hR, hw, hheld, hstack⟩ := hb.2 hu hthis
  exact ⟨u, s, hR, hw, hheld, hstack, fun h => hexec (.seq (exec_instance hd) h)⟩

theorem simulated_ctorEnds {this : Value} {heap : Heap} {y : Variable}
    (hd : makeDict σ.world.heap (fields.flatMap fun f => [.str f, .null]) = .ok (this, heap))
    (hb : Item.Simulated S M (.ctor cls fields ct)
      ⟨⟨"this", cls, this⟩ :: σ.vars, { σ.world with heap := heap }⟩ .done σ₁ (.block ct.block))
    (hx : σ₁.vars.var "this" = some y) :
    Item.Simulated S M (.ctor cls fields ct) σ (.ret y.value) σ₁ .body := by
  intro f t ht hf
  obtain ⟨u, ⟨stack, g, w⟩, hR, rfl, hheld, hstack, hexec⟩ := simulated_ctor hd hb ht hf
  have hself : resolveLocal (ctorLocals cls ct.params) "this" = some ct.params.length := by
    rw [resolveLocal, ctorLocals, findLocal_cons, if_pos rfl, length_paramLocals]
    rfl
  exact ⟨_, hexec (.seq hR (.seq (.atom (Atom.load_act _ (hheld.value hself hx))) .ret)), rfl⟩

theorem simulated_ctorLeaves {this : Value} {heap : Heap}
    (hd : makeDict σ.world.heap (fields.flatMap fun f => [.str f, .null]) = .ok (this, heap))
    (hb : Item.Simulated S M (.ctor cls fields ct)
      ⟨⟨"this", cls, this⟩ :: σ.vars, { σ.world with heap := heap }⟩ o σ₁ (.block ct.block))
    (ho : o.leaves = true) : Item.Simulated S M (.ctor cls fields ct) σ o σ₁ .body := by
  intro f t ht hf
  obtain ⟨u, s, hR, hw, -, -, hexec⟩ := simulated_ctor hd hb ht hf
  exact ⟨s, hexec (.seqStops hR (Completion.of_leaves ho).1), hw⟩

theorem simulated_conditionHas {e : Expr} {names : List (String × String)}
    (he : Item.Simulated S M (.condition e names) σ (.vals [v]) σ₁ (.expr e)) :
    Item.Simulated S M (.condition e names) σ (.ret v) σ₁ .body := by
  intro f t ht hf
  cases ht with
  | condition ht =>
  obtain ⟨f₁, hR, -⟩ := (he [] ht hf).vals
  exact ⟨_, .seq hR .ret, rfl⟩

theorem simulated_conditionRaises {e : Expr} {names : List (String × String)} {message : String}
    (he : Item.Simulated S M (.condition e names) σ (.raise message loc) σ₁ (.expr e)) :
    Item.Simulated S M (.condition e names) σ (.raise message loc) σ₁ .body := by
  intro f t ht hf
  cases ht with
  | condition ht =>
  obtain ⟨stack, f₁, hR, -⟩ := (he [] ht hf).raised
  exact ⟨_, .seqStops hR (by simp [Completion.exit]), rfl⟩

/-- **The code of every piece of a program does what the piece means.** -/
theorem Means.simulated {item : Item} (hL : S.Linked M) (h : Means S b item σ o σ₁) :
    item.Simulated S M b σ o σ₁ := by
  induction h with
  | literal h => exact simulated_literal h
  | «variable» h hx => exact simulated_variable h hx
  | act h hT _ ha ih => exact simulated_act hL h hT ih ha
  | actFails h hT _ ha ih => exact simulated_act hL h hT ih ha
  | call h hT _ _ iho ihf => exact (simulated_call hL h hT iho ihf).1 _ rfl
  | callFails h hT _ _ iho ihf => exact (simulated_call hL h hT iho ihf).2 _ _ rfl
  | await h hT _ hD ih => exact simulated_await hL h hT ih hD
  | operandRaises h _ ih => exact simulated_operands hL h ih
  | logicalDecides _ hv ih => exact simulated_logical ih hv
  | logicalGoes _ hv _ ihl ihr => exact simulated_logicalGoes ihl hv ihr
  | logicalRaises _ ih => exact simulated_logicalRaises ih
  | ternary _ _ ihc ih => exact simulated_ternary ihc ih
  | ternaryRaises _ ih => exact simulated_ternaryRaises ih
  | stepLocal hx hv => exact simulated_stepLocal hx hv
  | stepLocalFails hx hv => exact simulated_stepLocalFails hx hv
  | stepIndex _ _ hv iho ihi => exact simulated_stepIndex iho ihi hv
  | stepIndexFails _ _ hv iho ihi => exact simulated_stepIndex iho ihi hv
  | stepIndexObject _ ih => exact simulated_stepIndexObject ih
  | stepIndexPlace _ _ iho ihi => exact simulated_stepIndexPlace iho ihi
  | operandsNil => exact simulated_operandsNil
  | operandsConst _ ih => exact simulated_operandsConst ih
  | operandsCons _ _ ihe ih => exact simulated_operandsCons ihe ih
  | operandsStops _ ih => exact simulated_operandsStops ih
  | subjectRaises h _ ih => exact simulated_subject h ih
  | returns _ ih => exact simulated_returns ih
  | returnsNull => exact simulated_returnsNull
  | discards _ ih => exact simulated_discards ih
  | declares _ ih => exact simulated_declares ih
  | declaresNull => exact simulated_declaresNull
  | assigns _ ih => exact simulated_assigns ih
  | stores h _ ha ih => exact simulated_stores h ih ha
  | storeFails h _ ha ih => exact simulated_storeFails h ih ha
  | storeRaises h _ ih => exact simulated_storeRaises h ih
  | branches _ _ ihc ih => exact simulated_branches ihc ih
  | whileEnds _ hv ih => exact simulated_whileEnds ih hv
  | whileGoes _ hv _ ho _ ihc ihb ih => exact simulated_whileGoes ihc hv ihb ho ih
  | whileBreaks _ hv _ ihc ihb => exact simulated_whileBreaks ihc hv ihb
  | whileLeaves _ hv _ ho ihc ihb => exact simulated_whileLeaves ihc hv ihb ho
  | forStarts _ hi hn _ ihe ih => exact simulated_forStarts ihe hi hn ih
  | forFails _ hi ih => exact simulated_forFails ih hi
  | requireHolds _ hv ih => exact simulated_requireHolds ih hv
  | requireReturns _ hv _ ihc ihe => exact simulated_requireReturns ihc hv ihe
  | requireRaises _ hv _ ihc ihe => exact simulated_requireRaises ihc hv ihe
  | breaks => exact simulated_breaks
  | continues => exact simulated_continues
  | tries _ ho ih => exact simulated_tries ih ho
  | catches _ hv _ ihb ih => exact simulated_catches ihb hv ih
  | catchesBare _ hv _ ihb ih => exact simulated_catchesBare ihb hv ih
  | eachEnds hi => exact simulated_eachEnds hi
  | eachFails hi hv => exact simulated_eachFails hi hv
  | eachGoes hi hv _ ho _ ihb ih => exact simulated_eachGoes hi hv ihb ho ih
  | eachBreaks hi hv _ ihb => exact simulated_eachBreaks hi hv ihb
  | eachLeaves hi hv _ ho ihb => exact simulated_eachLeaves hi hv ihb ho
  | blockNil => exact simulated_blockNil
  | blockCons _ _ ihs ih => exact simulated_blockCons ihs ih
  | blockStops _ ho ih => exact simulated_blockStops ih ho
  | bodyEnds h _ ih => exact simulated_bodyEnds h ih
  | bodyLeaves h _ ho ih => exact simulated_bodyLeaves h ih ho
  | ctorEnds hd _ hx ih => exact simulated_ctorEnds hd ih hx
  | ctorLeaves hd _ ho ih => exact simulated_ctorLeaves hd ih ho
  | conditionHas _ ih => exact simulated_conditionHas ih
  | conditionRaises _ ih => exact simulated_conditionRaises ih

end Bodies

end Osodio.Odio
