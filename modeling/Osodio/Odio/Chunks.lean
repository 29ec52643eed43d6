import Mathlib.Data.List.Forall2
import Osodio.Odio.Statements

/-!
# The chunks of a module

The chunk of a body is its tree, laid out from the first instruction to the last.
A module that compiles has such a chunk for each of its bodies.

## Main definitions

- `GuardsTree`, `BodyTree` — the tree of the guards of a route and of a whole body

## Main results

- `compileBody_spec` — the chunk of a body is the layout of its tree
- `compile_spec` — so is every chunk of a module that compiles
-/

namespace Osodio.Odio

/-! ## Trees of bodies -/

section Trees

variable (X : Emitter) (N : List Note) (P : List Plantilla)

/-- The tree of the guards of a route, the outermost group first. -/
inductive GuardsTree (Γ : List Local) : List Guard → Tree → Prop where
  | nil : GuardsTree Γ [] .nil
  | cons {g gs t u v} (ht : ExprTree X N P Γ (.expr g.condition) t)
      (hu : ExprTree X N P Γ (.expr g.otherwise) u) (hv : GuardsTree Γ gs v) :
      GuardsTree Γ (g :: gs) (.seq (.seq t (.unless (.seq u (.ret g.loc)) g.loc)) v)

/-- A constructor makes the instance first. -/
def instanceAtoms (fields : List String) (self : ℕ) : List Atom :=
  fields.flatMap (fun f => [.const (.str f), .const .null]) ++
    [.makeDict fields.length, .storeLocal self]

/-- A parameter goes to the field of its name. -/
def fieldInitAtoms (self : ℕ) (inits : List (String × ℕ)) : List Atom :=
  inits.flatMap fun i => [.loadLocal self, .loadLocal i.2, .setMember i.1, .pop]

/-- The locals of a constructor. -/
def ctorLocals (cls : String) (params : List Param) : List Local :=
  ⟨.user "this", 0, cls⟩ :: paramLocals params

/-- The tree of a body. -/
inductive BodyTree : Body → Tree → Prop where
  | function {fn t Γ'}
      (ht : StmtTree X N P (paramLocals fn.params) (.stmts fn.body) t Γ') :
      BodyTree (.function fn) (.seq t (.retNull fn.loc))
  | method {cls m t Γ'}
      (ht : StmtTree X N P (paramLocals m.params ++ [⟨.user "this", 0, cls⟩]) (.stmts m.body)
        t Γ') :
      BodyTree (.method cls m) (.seq t (.retNull m.loc))
  | ctor {cls fields ct body t Γ'} (hb : ct.body = some body)
      (ht : StmtTree X N P (ctorLocals cls ct.params) (.stmts body) t Γ') :
      BodyTree (.ctor cls fields ct)
        (.seq (.atoms ct.loc (instanceAtoms fields ct.params.length))
          (.seq t (.seq (.atom (.loadLocal ct.params.length) ct.loc) (.ret ct.loc))))
  | ctorFields {cls fields ct inits} (hb : ct.body = none)
      (hi : List.Forall₂ (fun p i => i.1 = p.name ∧
        resolveLocal (ctorLocals cls ct.params) p.name = some i.2) ct.params inits) :
      BodyTree (.ctor cls fields ct)
        (.seq (.atoms ct.loc (instanceAtoms fields ct.params.length))
          (.seq (.atoms ct.loc (fieldInitAtoms ct.params.length inits))
            (.seq (.atom (.loadLocal ct.params.length) ct.loc) (.ret ct.loc))))
  | condition {e names t}
      (ht : ExprTree X N P (paramLocals (names.map fun n =>
        { type := n.2, name := n.1, loc := e.loc })) (.expr e) t) :
      BodyTree (.condition e names) (.seq t (.ret e.loc))
  | route {r t u Γ'} (ht : GuardsTree X N P (paramLocals r.params) r.guards t)
      (hu : StmtTree X N P (paramLocals r.params) (.stmts r.body) u Γ') :
      BodyTree (.route r) (.seq t (.seq u (.retNull r.loc)))
  | errorHandler {d t Γ'} (ht : StmtTree X N P [] (.stmts d.body) t Γ') :
      BodyTree (.errorHandler d) (.seq t (.retNull d.loc))

end Trees

/-! ## Emitting a body -/

section Bodies

variable {X : Emitter} {fuel : ℕ} {s s' : EmitState} {loc : SourceLoc}

theorem declareParams_grows {params : List Param} (h : declareParams params s = .ok ((), s')) :
    Grows s s' ∧ s'.here = s.here := by
  induction params generalizing s with
  | nil =>
    obtain ⟨-, rfl⟩ := Emit.pure_ok.1 h
    exact ⟨.refl s, rfl⟩
  | cons p ps ih =>
    obtain ⟨_, s₁, h₁, h₂⟩ := Emit.bind_ok.1 h
    obtain ⟨-, -, rfl⟩ := declareLocal_ok.1 h₁
    obtain ⟨hg, hh⟩ := ih h₂
    exact ⟨(Grows.declare s (.user p.name) p.type).trans hg, hh⟩

theorem emitBlock_spec {body : Block} (hg : s.Good)
    (h : emitBlock X (emitExpr X fuel) body s = .ok ((), s')) :
    ∃ t Γ', ScopeDone X t s s' ∧ ∀ N P, s'.notes ⊆ N → s'.plantillas <+: P →
      StmtTree X N P s.locals (.stmts body) t Γ' := by
  rw [emitBlock, beginScope_bind] at h
  obtain ⟨_, s₁, hbody, hend⟩ := Emit.bind_ok.1 h
  obtain rfl := endScope_ok.1 hend
  obtain ⟨t, Γ', ht⟩ := emitStmts_spec (emitExpr_spec fuel) body s.locals _ s₁ hg.openScope rfl
    hbody
  exact ⟨t, Γ', ht.scope hg rfl, ht.tree⟩

theorem emitGuards_spec {gs : List Guard} (hg : s.Good)
    (h : emitGuards (emitExpr X fuel) gs s = .ok ((), s')) :
    ∃ t, Emission X s s' t ∧ Stays s s' ∧ ∀ N P, s'.notes ⊆ N → s'.plantillas <+: P →
      GuardsTree X N P s.locals gs t := by
  induction gs generalizing s with
  | nil =>
    obtain ⟨-, rfl⟩ := Emit.pure_ok.1 h
    exact ⟨.nil, .refl s, ⟨rfl, rfl, rfl⟩, fun _ _ _ _ => .nil⟩
  | cons g gs ih =>
    obtain ⟨_, s₁, h₁, h₂⟩ := Emit.bind_ok.1 h
    obtain ⟨t, u, hr⟩ := emitRequire_spec (emitExpr_spec fuel g.condition)
      (emitExpr_spec fuel g.otherwise) hg rfl h₁
    obtain ⟨v, hv, hs, htree⟩ := ih (hg.grows hr.toGrows hr.locals_eq hr.depth_eq) h₂
    refine ⟨_, hr.toEmission.seq hv, hr.toStays.trans hs, fun N P hN hP => ?_⟩
    have hN' := List.Subset.trans hv.notes.subset hN
    have hP' := hv.plantillas.trans hP
    refine .cons (hr.cond N P hN' hP') (hr.otherwise N P hN' hP') ?_
    rw [← hr.locals_eq]
    exact htree N P hN hP

/-! ### Constructors -/

theorem emitFields_spec {r : EmitState} {fields : List String} {as : List Atom} {Δ : List Local}
    {s₁ : EmitState} (h : emitFields loc fields s = .ok ((), s₁))
    (has : Straight X r loc as Δ s₁ s') :
    Straight X r loc (fields.flatMap (fun f => [.const (.str f), .const .null]) ++ as) Δ s s' := by
  induction fields generalizing s with
  | nil =>
    obtain ⟨-, rfl⟩ := Emit.pure_ok.1 h
    exact has
  | cons f fs ih =>
    rw [emitFields, emitConst_bind, emitConst_bind] at h
    exact .const rfl (.const rfl (ih h))

/-- A constant that the rest of the line refers to. -/
theorem Straight.addConst {r : EmitState} {as : List Atom} {Δ : List Local} {v : Value}
    (has : Retains r (s.addConst v) →
      Straight X (s.addConst v) loc as Δ (s.addConst v) s') : Straight X r loc as Δ s s' := by
  intro hw hr
  have hg : Grows s (s.addConst v) := .addConst s v
  have h := has (hr.trans hg.toRetains) (hw.grows hg) (.refl _)
  exact ⟨(Emission.of_grows hg rfl).after_nil h.toEmission, h.locals_eq, h.depth_eq, h.loops_eq⟩

theorem emitLoad_ok {name missing : String} {u : Unit} :
    emitLoad name loc missing s = .ok (u, s') ↔
      ∃ slot, resolveLocal s.locals name = some slot ∧ s.push ⟨.loadLocal, slot, loc⟩ = s' := by
  have hload : emitLoad name loc missing s = (resolveLocal s.locals name).elim
      (Emit.error loc missing s) fun slot => .ok ((), s.push ⟨.loadLocal, slot, loc⟩) := by
    rw [emitLoad]
    cases hl : resolveLocal s.locals name <;>
      simp only [getLocals, bind, StateT.bind, Except.bind, hl] <;> rfl
  rw [hload]
  cases resolveLocal s.locals name with
  | none => simpa using Emit.error_ok
  | some slot => simp

theorem emitFieldInits_spec {cls : String} {fields : List String} {params : List Param}
    {self : ℕ} (hself : self < s.chunk.numLocals) (hl : s.locals.length ≤ s.chunk.numLocals)
    (h : emitFieldInits loc cls fields self params s = .ok ((), s')) :
    ∃ inits, List.Forall₂ (fun p i => i.1 = p.name ∧
        resolveLocal s.locals p.name = some i.2) params inits ∧
      Straight X s loc (fieldInitAtoms self inits) [] s s' := by
  induction params generalizing s with
  | nil =>
    obtain ⟨-, rfl⟩ := Emit.pure_ok.1 h
    exact ⟨[], .nil, .nil rfl⟩
  | cons p ps ih =>
    simp only [emitFieldInits, Emit.guard_ok] at h
    obtain ⟨-, h⟩ := h
    rw [emit_bind] at h
    obtain ⟨_, _, hload, h⟩ := Emit.bind_ok.1 h
    obtain ⟨slot, hslot, rfl⟩ := emitLoad_ok.1 hload
    obtain ⟨_, _, hk, h⟩ := Emit.bind_ok.1 h
    obtain ⟨rfl, rfl⟩ := addConstant_ok.1 hk
    rw [emit_bind, emit_bind] at h
    have hlt : slot < s.chunk.numLocals := (resolveLocal_lt hslot).trans_le hl
    obtain ⟨inits, hi, hline⟩ := ih (s := (((((s.push ⟨.loadLocal, self, loc⟩).push
      ⟨.loadLocal, slot, loc⟩).addConst (.str p.name)).push
        ⟨.setMember, s.chunk.constants.length, loc⟩).push ⟨.pop, 0, loc⟩)) hself hl h
    refine ⟨(p.name, slot) :: inits, .cons ⟨rfl, hslot⟩ hi, ?_⟩
    refine .load hself rfl (.load hlt rfl (.addConst fun _ => .setMember ?_ rfl (.pop rfl
      fun hw _ => hline hw (.refl _))))
    simp [EmitState.addConst, EmitState.push]

theorem Straight.makeDict {r : EmitState} {as : List Atom} {Δ : List Local} {n : ℕ}
    (has : Straight X r loc as Δ (s.push ⟨.makeDict, n, loc⟩) s') :
    Straight X r loc (.makeDict n :: as) Δ s s' :=
  .push (a := .makeDict n) rfl (fun hw _ => .makeDict hw n) has

/-! ### Whole bodies -/

/-- How many values a call gives to a body. -/
def Body.arity : Body → ℕ
  | .function fn => fn.params.length
  | .method _ m => m.params.length + 1
  | .ctor _ _ ct => ct.params.length
  | .condition _ names => names.length
  | .route r => r.params.length
  | .errorHandler _ => 0

/-- What was emitted from `s` to `s'` is the tree `t` of the body `b`. -/
structure BodyDone (X : Emitter) (b : Body) (t : Tree) (s s' : EmitState) : Prop
    extends Emission X s s' t where
  arity_le : b.arity ≤ s'.chunk.numLocals
  tree : ∀ N P, s'.notes ⊆ N → s'.plantillas <+: P → BodyTree X N P b t

theorem length_paramLocals (params : List Param) : (paramLocals params).length = params.length := by
  simp [paramLocals]

/-- The parameters of a body. -/
theorem declareParams_spec {params : List Param} (hg : s.Good) (hd : s.scopeDepth = 0)
    (h : declareParams params s = .ok ((), s')) :
    s'.Good ∧ s'.locals = paramLocals params ++ s.locals ∧ s'.scopeDepth = 0 ∧
      Emission X s s' .nil ∧ params.length + s.locals.length ≤ s'.chunk.numLocals := by
  obtain ⟨hg', hd', hl⟩ := declareParams_place hg hd h
  obtain ⟨hgr, hh⟩ := declareParams_grows h
  refine ⟨hg', hl, hd', .of_grows hgr hh, ?_⟩
  have hs := hg'.slots
  rwa [hl, List.length_append, length_paramLocals] at hs

/-- The block of a body, and the `null` that it returns at its end. -/
theorem emitTail_spec {body : Block} (hg : s.Good)
    (h : (do
      emitBlock X (emitExpr X fuel) body
      let _ ← emit .retNull loc : Emit Unit) s = .ok ((), s')) :
    ∃ t Γ', Emission X s s' (.seq t (.retNull loc)) ∧ ∀ N P, s'.notes ⊆ N →
      s'.plantillas <+: P → StmtTree X N P s.locals (.stmts body) t Γ' := by
  obtain ⟨_, s₁, hb, h⟩ := Emit.bind_ok.1 h
  obtain ⟨t, Γ', ht, htree⟩ := emitBlock_spec hg hb
  rw [emit_bind] at h
  obtain ⟨-, rfl⟩ := Emit.pure_ok.1 h
  exact ⟨t, Γ', ht.toEmission.seq (.retNull (ht.good hg).toWf), htree⟩

theorem emitFunction_spec {fn : FnDecl} (hg : s.Good) (hd : s.scopeDepth = 0) (hl : s.locals = [])
    (h : emitFunction X fuel fn s = .ok ((), s')) : ∃ t, BodyDone X (.function fn) t s s' := by
  obtain ⟨_, s₁, hp, h⟩ := Emit.bind_ok.1 h
  obtain ⟨hg₁, hl₁, -, he₁, hn⟩ := declareParams_spec (X := X) hg hd hp
  obtain ⟨t, Γ', ht, htree⟩ := emitTail_spec hg₁ h
  rw [hl, List.append_nil] at hl₁
  rw [hl₁] at htree
  exact ⟨_, he₁.after_nil ht, (Nat.le_of_add_right_le hn).trans ht.numLocals,
    fun N P hN hP => .function (htree N P hN hP)⟩

theorem emitMethod_spec {cls : String} {m : FnDecl} (hg : s.Good) (hd : s.scopeDepth = 0)
    (hl : s.locals = []) (h : emitMethod X fuel cls m s = .ok ((), s')) :
    ∃ t, BodyDone X (.method cls m) t s s' := by
  obtain ⟨_, s₀, hthis, h⟩ := Emit.bind_ok.1 h
  obtain ⟨-, -, rfl⟩ := declareLocal_ok.1 hthis
  obtain ⟨_, s₁, hp, h⟩ := Emit.bind_ok.1 h
  obtain ⟨hg₁, hl₁, -, he₁, hn⟩ := declareParams_spec (X := X) (hg.declare (.user "this") cls) hd hp
  obtain ⟨t, Γ', ht, htree⟩ := emitTail_spec hg₁ h
  have hthis : (s.declare (.user "this") cls).locals = [⟨.user "this", 0, cls⟩] := by
    simp [EmitState.declare, hl, hd]
  rw [hthis] at hl₁ hn
  rw [hl₁] at htree
  have he : Emission X s s₁ .nil :=
    (Emission.of_grows (.declare s (.user "this") cls) rfl).after_nil he₁
  exact ⟨_, he.after_nil ht, hn.trans ht.numLocals,
    fun N P hN hP => .method (htree N P hN hP)⟩

theorem emitRoute_spec {r : RouteDecl} (hg : s.Good) (hd : s.scopeDepth = 0) (hl : s.locals = [])
    (h : emitRoute X fuel r s = .ok ((), s')) : ∃ t, BodyDone X (.route r) t s s' := by
  obtain ⟨_, s₁, hp, h⟩ := Emit.bind_ok.1 h
  obtain ⟨hg₁, hl₁, -, he₁, hn⟩ := declareParams_spec (X := X) hg hd hp
  obtain ⟨_, s₂, hgs, h⟩ := Emit.bind_ok.1 h
  obtain ⟨t, ht, hs, hguards⟩ := emitGuards_spec hg₁ hgs
  have hg₂ := hg₁.grows ht.toGrows hs.locals_eq hs.depth_eq
  obtain ⟨u, Γ', hu, htree⟩ := emitTail_spec hg₂ h
  rw [hl, List.append_nil] at hl₁
  rw [hl₁] at hguards
  rw [hs.locals_eq, hl₁] at htree
  refine ⟨_, he₁.after_nil (ht.seq hu), ?_, fun N P hN hP => .route ?_ (htree N P hN hP)⟩
  · exact (Nat.le_of_add_right_le hn).trans (ht.numLocals.trans hu.numLocals)
  · exact hguards N P (List.Subset.trans hu.notes.subset hN) (hu.plantillas.trans hP)

theorem emitErrorHandler_spec {d : ErrorDecl} (hg : s.Good) (hl : s.locals = [])
    (h : emitErrorHandler X fuel d s = .ok ((), s')) :
    ∃ t, BodyDone X (.errorHandler d) t s s' := by
  obtain ⟨t, Γ', ht, htree⟩ := emitTail_spec hg h
  rw [hl] at htree
  exact ⟨_, ht, Nat.zero_le _, fun N P hN hP => .errorHandler (htree N P hN hP)⟩

theorem emitCondition_spec {e : Expr} {names : List (String × String)} (hg : s.Good)
    (hd : s.scopeDepth = 0) (hl : s.locals = [])
    (h : emitCondition X fuel e names s = .ok ((), s')) :
    ∃ t, BodyDone X (.condition e names) t s s' := by
  obtain ⟨_, s₁, hp, h⟩ := Emit.bind_ok.1 h
  obtain ⟨hg₁, hl₁, -, he₁, hn⟩ := declareParams_spec (X := X) hg hd hp
  rw [hl, List.append_nil] at hl₁
  obtain ⟨_, s₂, he, h⟩ := Emit.bind_ok.1 h
  obtain ⟨t, ht⟩ := emitExpr_spec fuel e _ s₁ s₂ hg₁ hl₁ he
  rw [emit_bind] at h
  obtain ⟨-, rfl⟩ := Emit.pure_ok.1 h
  have hret : Emission X s₂ _ (.ret e.loc) := .ret (ht.good hg₁).toWf
  have harity := (Nat.le_of_add_right_le hn).trans (ht.numLocals.trans hret.numLocals)
  rw [List.length_map] at harity
  exact ⟨_, he₁.after_nil (ht.toEmission.seq hret), harity,
    fun N P hN hP => .condition (ht.later hret.toGrows hN hP)⟩

/-- After its body, a constructor returns the instance. -/
theorem emitThis_spec {self : ℕ} (hw : s.Wf) (hs : self < s.chunk.numLocals)
    (h : (do
      let _ ← emit .loadLocal loc self
      let _ ← emit .ret loc : Emit Unit) s = .ok ((), s')) :
    Emission X s s' (.seq (.atom (.loadLocal self) loc) (.ret loc)) := by
  rw [emit_bind, emit_bind] at h
  obtain ⟨-, rfl⟩ := Emit.pure_ok.1 h
  have hload : Emission X s _ (.atom (.loadLocal self) loc) := .load hw hs
  exact hload.seq (.ret (hload.wf hw))

theorem emitCtor_spec {cls : String} {fields : List String} {ct : CtorDecl} (hg : s.Good)
    (hd : s.scopeDepth = 0) (hl : s.locals = [])
    (h : emitCtor X fuel cls fields ct s = .ok ((), s')) :
    ∃ t, BodyDone X (.ctor cls fields ct) t s s' := by
  obtain ⟨_, s₁, hp, h⟩ := Emit.bind_ok.1 h
  obtain ⟨hg₁, hl₁, hd₁, he₁, hn⟩ := declareParams_spec (X := X) hg hd hp
  rw [hl, List.append_nil] at hl₁
  obtain ⟨_, _, hthis, h⟩ := Emit.bind_ok.1 h
  obtain ⟨-, rfl, rfl⟩ := declareLocal_ok.1 hthis
  obtain ⟨_, s₂, hf, h⟩ := Emit.bind_ok.1 h
  rw [emit_bind, emit_bind] at h
  have hg₂ := hg₁.declare (.user "this") cls
  have hl₂ : (s₁.declare (.user "this") cls).locals = ctorLocals cls ct.params := by
    simp [EmitState.declare, ctorLocals, hl₁, hd₁]
  have hself : s₁.locals.length < (s₁.declare (.user "this") cls).chunk.numLocals :=
    s₁.declare_slot _ _
  have hmake : Straight X (s₁.declare (.user "this") cls) ct.loc
      (instanceAtoms fields s₁.locals.length) [] _ _ :=
    emitFields_spec hf (.makeDict (.store hself rfl (.nil rfl)))
  have hmake := hmake hg₂.toWf (.refl _)
  have hlen : s₁.locals.length = ct.params.length := by rw [hl₁, length_paramLocals]
  rw [hlen] at hself hmake h
  have hg₃ := hmake.good hg₂
  have hthis : Emission X s₁ _ .nil := .of_grows (.declare s₁ (.user "this") cls) rfl
  have hstart := (he₁.after_nil hthis).after_nil hmake.toEmission
  have harity := hself.le
  have hself₃ := hself.trans_le hmake.numLocals
  cases hb : ct.body with
  | some body =>
    simp only [hb] at h
    obtain ⟨_, s₄, hblock, h⟩ := Emit.bind_ok.1 h
    obtain ⟨t, Γ', ht, htree⟩ := emitBlock_spec hg₃ hblock
    have hend := emitThis_spec (X := X) (ht.good hg₃).toWf (hself₃.trans_le ht.numLocals) h
    rw [hmake.locals_eq, List.nil_append, hl₂] at htree
    exact ⟨_, hstart.seq (ht.toEmission.seq hend),
      harity.trans (hmake.numLocals.trans (ht.numLocals.trans hend.numLocals)),
      fun N P hN hP => .ctor hb (htree N P (List.Subset.trans hend.notes.subset hN)
        (hend.plantillas.trans hP))⟩
  | none =>
    simp only [hb] at h
    obtain ⟨_, s₄, hinits, h⟩ := Emit.bind_ok.1 h
    obtain ⟨inits, hi, hline⟩ := emitFieldInits_spec (X := X) hself₃ hg₃.slots hinits
    have hline := hline hg₃.toWf (.refl _)
    have hend := emitThis_spec (X := X) (hline.good hg₃).toWf
      (hself₃.trans_le hline.numLocals) h
    rw [hmake.locals_eq, List.nil_append, hl₂] at hi
    exact ⟨_, hstart.seq (hline.toEmission.seq hend),
      harity.trans (hmake.numLocals.trans (hline.numLocals.trans hend.numLocals)),
      fun N P hN hP => .ctorFields hb hi⟩

/-- Every body that is compiled is compiled to its tree. -/
theorem emit_spec {b : Body} (hg : s.Good) (hd : s.scopeDepth = 0) (hl : s.locals = [])
    (h : b.emit X fuel s = .ok ((), s')) : ∃ t, BodyDone X b t s s' := by
  cases b with
  | function fn => exact emitFunction_spec hg hd hl h
  | method cls m => exact emitMethod_spec hg hd hl h
  | ctor cls fields ct => exact emitCtor_spec hg hd hl h
  | condition e names => exact emitCondition_spec hg hd hl h
  | route r => exact emitRoute_spec hg hd hl h
  | errorHandler d => exact emitErrorHandler_spec hg hl h

end Bodies

/-! ## Chunks -/

/-- The chunk `c` is the layout of the tree of `b`. -/
structure ChunkOf (X : Emitter) (N : List Note) (P : List Plantilla) (b : Body) (c : Chunk) :
    Prop where
  arity_le : b.arity ≤ c.numLocals
  tries : ∀ r ∈ c.tryRanges,
    r.first ≤ r.stop ∧ r.stop ≤ c.code.length ∧ r.catchPc ≤ c.code.length
  tree : ∃ t, BodyTree X N P b t ∧ Lay ⟨X, c, P, N⟩ none [] t 0 c.code.length

/-- A layout stays one where more notes were taken. -/
theorem Lay.more_notes {X : Emitter} {c : Chunk} {P : List Plantilla} {n N : List Note}
    {lt : Option (ℕ × ℕ)} {nest : List TryRange} {t : Tree} {a b : ℕ} (hn : n ⊆ N)
    (h : Lay ⟨X, c, P, n⟩ lt nest t a b) : Lay ⟨X, c, P, N⟩ lt nest t a b := by
  have hi : ∀ {nest p op k loc}, InstrAt ⟨X, c, P, n⟩ nest p op k loc →
      InstrAt ⟨X, c, P, N⟩ nest p op k loc := fun h => ⟨h.code, h.handler⟩
  induction h with
  | nil => exact .nil
  | @atom lt nest a k t loc h he =>
    refine .atom (hi h) ?_
    cases t with
    | callFunction index argc => exact ⟨he.1, he.2.1, hn he.2.2⟩
    | callMethod name argc => exact ⟨he.1, hn he.2.1, he.2.2⟩
    | callNative id argc => exact ⟨he.1, he.2.1, he.2.2.1, fun ha => hn (he.2.2.2 ha)⟩
    | _ => exact he
  | seq _ _ iht ihu => exact .seq iht ihu
  | ret h => exact .ret (hi h)
  | retNull h => exact .retNull (hi h)
  | peek h _ ih => exact .peek (hi h) ih
  | cond h _ hj _ iht ihu => exact .cond (hi h) iht (hi hj) ihu
  | when h _ ih => exact .when (hi h) ih
  | «unless» h hj _ ih => exact .unless (hi h) (hi hj) ih
  | loop _ h _ _ hj ihh ihb ihs => exact .loop ihh (hi h) ihb ihs (hi hj)
  | brk h => exact .brk (hi h)
  | cont h => exact .cont (hi h)
  | tryCatch _ hj _ ihb ihh => exact .tryCatch ihb (hi hj) ihh

/-- A body that is compiled after the templates `ps`. -/
theorem compileBody_spec {X : Emitter} {fuel : ℕ} {b : Body} {ps P : List Plantilla}
    {N : List Note} {s : EmitState} (h : compileBody X fuel b ps = .ok s)
    (hP : s.plantillas <+: P) (hN : s.notes ⊆ N) :
    ps <+: s.plantillas ∧ ChunkOf X N P b s.chunk := by
  have he : b.emit X fuel { plantillas := ps } = .ok ((), s) := by
    rw [compileBody] at h
    cases hb : b.emit X fuel { plantillas := ps } with
    | error d => simp [hb, Except.map] at h
    | ok r =>
      obtain ⟨_, s'⟩ := r
      simp only [hb, Except.map, Except.ok.injEq] at h
      rw [h]
  have hg : EmitState.Good { plantillas := ps } := ⟨⟨nofun, nofun⟩, nofun, le_rfl⟩
  obtain ⟨t, ht⟩ := emit_spec hg rfl rfl he
  have hloops : s.loops = [] := by
    have := ht.loops
    cases hs : s.loops with
    | nil => rfl
    | cons c cs => simp [hs, LoopsGrow] at this
  have htries : ∀ r ∈ s.chunk.tryRanges, r.first ≤ r.stop ∧ r.stop ≤ s.chunk.code.length ∧
      r.catchPc ≤ s.chunk.code.length := by
    obtain ⟨new, hnew, hin⟩ := ht.tries
    rw [List.nil_append] at hnew
    intro r hr
    exact (hin r (hnew ▸ hr)).2
  refine ⟨ht.plantillas, ht.arity_le, htries, t, ht.tree N P hN hP, ?_⟩
  refine Lay.more_notes hN (ht.lay ⟨X, s.chunk, P, s.notes⟩ none [] rfl ⟨?_, ?_, ?_, ?_, ?_, ?_,
    ?_, ?_⟩)
  · intro p _ _
    rw [hloops]
    exact (map_closeJump_none _).symm
  · intro p _ _
    rw [List.head?_nil, Option.or_none]
  · exact fun hne => absurd hloops hne
  · exact List.prefix_rfl
  · exact le_rfl
  · exact id
  · exact hP
  · exact List.prefix_rfl

/-! ## Modules -/

section Modules

variable {emitter : Body → Emitter} {fuel : ℕ} {bs : List Body} {b : Body} {i : ℕ}

theorem compileAll_cons {ps : List Plantilla} {out : Emitted}
    (h : compileAll emitter fuel ps (b :: bs) = .ok out) :
    ∃ s rest, compileBody (emitter b) fuel b ps = .ok s ∧
      compileAll emitter fuel s.plantillas bs = .ok rest ∧
      out = ⟨s.chunk :: rest.chunks, rest.plantillas, s.notes ++ rest.notes⟩ := by
  rw [compileAll] at h
  cases hs : compileBody (emitter b) fuel b ps with
  | error d =>
    rw [hs] at h
    cases h
  | ok s =>
    cases hr : compileAll emitter fuel s.plantillas bs with
    | error d =>
      simp only [hs, bind, Except.bind, hr] at h
      cases h
    | ok rest =>
      simp only [hs, bind, Except.bind, hr, pure, Except.pure, Except.ok.injEq] at h
      exact ⟨s, rest, rfl, hr, h.symm⟩

/-- Every chunk of a list of bodies is the layout of the tree of its body. -/
theorem compileAll_spec {ps : List Plantilla} {out : Emitted}
    (h : compileAll emitter fuel ps bs = .ok out) :
    ps <+: out.plantillas ∧ ∀ N P, out.notes ⊆ N → out.plantillas <+: P →
      List.Forall₂ (fun b c => ChunkOf (emitter b) N P b c) bs out.chunks := by
  induction bs generalizing ps out with
  | nil =>
    obtain rfl : { plantillas := ps } = out := Except.ok.inj h
    exact ⟨List.prefix_rfl, fun _ _ _ _ => .nil⟩
  | cons b bs ih =>
    obtain ⟨s, rest, hb, hbs, rfl⟩ := compileAll_cons h
    obtain ⟨hps, hall⟩ := ih hbs
    refine ⟨(compileBody_spec hb List.prefix_rfl (List.Subset.refl _)).1.trans hps,
      fun N P hN hP => .cons ?_ (hall N P ?_ hP)⟩
    · exact (compileBody_spec hb (hps.trans hP)
        (List.Subset.trans (List.subset_append_left _ _) hN)).2
    · exact List.Subset.trans (List.subset_append_right _ _) hN

/-- What a module that compiles is made of. -/
structure Compiled (p : Program) (M : Module) : Prop where
  bodies : M.bodies = p.table ++ p.entries
  functionCount : M.functionCount = p.table.length
  chunks : List.Forall₂ (fun b c => ChunkOf (M.emitter b) M.notes M.plantillas b c) M.bodies
    M.chunks
  emitter : ∃ fns cls compilar, functionSigs 0 p.functions = .ok fns ∧
    classSigs p.functions.length p.classes = .ok cls ∧
    M.emitter = Body.emitter fns cls p.imports compilar

theorem compile_spec {compilar : PlantillaCompiler} {p : Program} {M : Module}
    (h : compile compilar fuel p = .ok M) : Compiled p M := by
  simp only [compile, bind, Except.bind, pure, Except.pure] at h
  cases hf : functionSigs 0 p.functions with
  | error d => simp [hf] at h
  | ok fns =>
  cases hc : classSigs p.functions.length p.classes with
  | error d => simp [hf, hc] at h
  | ok cls =>
  cases hs : checkFields (p.classes.flatMap (·.fields)) with
  | error d => simp [hf, hc, hs] at h
  | ok _ =>
  cases ha : compileAll (Body.emitter fns cls p.imports compilar) fuel [] (p.table ++ p.entries) with
  | error d => simp [hf, hc, hs, ha] at h
  | ok out =>
    simp only [hf, hc, hs, ha, Except.ok.injEq] at h
    subst h
    exact ⟨rfl, rfl, (compileAll_spec ha).2 _ _ (List.Subset.refl _) List.prefix_rfl,
      fns, cls, compilar, hf, hc, rfl⟩

/-- The chunk at an index is that of the body there. -/
theorem Compiled.get {p : Program} {M : Module} (h : Compiled p M) {b : Body}
    (hb : M.bodies[i]? = some b) :
    ∃ c, M.chunks[i]? = some c ∧ ChunkOf (M.emitter b) M.notes M.plantillas b c := by
  have hlen := h.chunks.length_eq
  obtain ⟨hi, hb⟩ := List.getElem?_eq_some_iff.1 hb
  refine ⟨M.chunks.get ⟨i, hlen ▸ hi⟩, List.getElem?_eq_getElem _, ?_⟩
  have := List.forall₂_iff_get.1 h.chunks |>.2 i hi (hlen ▸ hi)
  simpa [hb] using this

end Modules

end Osodio.Odio
