import Osodio.Odio.Bodies

/-!
# Emitting statements

What a statement, a block and a whole chunk are emitted to, by induction on the
size of the source.

## Main definitions

- `StmtDone` — an emission has emitted the tree of a piece of a body
- `EmitsStmt` — every emission that succeeds does so

## Main results

- `emitStmts_spec` — a body is emitted to its tree
-/

namespace Osodio.Odio

/-! ## Emitting a piece of a body -/

/-- What was emitted from `s` to `s'` is the tree `t` of a piece of a body, which
    leaves the locals `Γ'`. -/
structure StmtDone (X : Emitter) (Γ : List Local) (item : StmtItem) (t : Tree)
    (Γ' : List Local) (s s' : EmitState) : Prop extends Emission X s s' t where
  locals_eq : s'.locals = Γ'
  depth_eq : s'.scopeDepth = s.scopeDepth
  slots : s'.locals.length ≤ s'.chunk.numLocals
  declared : ∃ Δ, Γ' = Δ ++ Γ ∧ ∀ l ∈ Δ, l.depth = s.scopeDepth
  tree : ∀ N P, s'.notes ⊆ N → s'.plantillas <+: P → StmtTree X N P Γ item t Γ'

/-- An emission that succeeds emits a piece of a body. -/
def EmitsStmt (X : Emitter) (m : Emit Unit) (item : StmtItem) : Prop :=
  ∀ Γ s s', s.Good → s.locals = Γ → m s = .ok ((), s') → ∃ t Γ', StmtDone X Γ item t Γ' s s'

section Statements

variable {X : Emitter} {Γ Γ' : List Local} {item : StmtItem} {s s₁ s₂ s' : EmitState} {t u : Tree}
  {loc : SourceLoc}

theorem StmtDone.good (h : StmtDone X Γ item t Γ' s s') (hg : s.Good) (hΓ : s.locals = Γ) :
    s'.Good where
  toWf := hg.toWf.grows h.toGrows
  depth l hl := by
    obtain ⟨Δ, hΔ, hd⟩ := h.declared
    rw [h.locals_eq, hΔ] at hl
    rw [h.depth_eq]
    obtain hl | hl := List.mem_append.1 hl
    · exact (hd l hl).le
    · exact hg.depth l (hΓ ▸ hl)
  slots := h.slots

/-- A statement that declares nothing. -/
theorem StmtDone.of_stays (hg : s.Good) (hΓ : s.locals = Γ) (h : Emission X s s' t)
    (hl : s'.locals = s.locals) (hd : s'.scopeDepth = s.scopeDepth)
    (ht : ∀ N P, s'.notes ⊆ N → s'.plantillas <+: P → StmtTree X N P Γ item t Γ) :
    StmtDone X Γ item t Γ s s' where
  toEmission := h
  locals_eq := hl.trans hΓ
  depth_eq := hd
  slots := by
    rw [hl]
    exact hg.slots.trans h.numLocals
  declared := ⟨[], rfl, nofun⟩
  tree := ht

/-- The tree does not depend on what is emitted later. -/
theorem StmtDone.later (h : StmtDone X Γ item t Γ' s s₁) {n N : List Note} {p P : List Plantilla}
    (hn : s₁.notes <+: n) (hp : s₁.plantillas <+: p) (hN : n ⊆ N) (hP : p <+: P) :
    StmtTree X N P Γ item t Γ' :=
  h.tree N P (List.Subset.trans hn.subset hN) (hp.trans hP)

theorem EmitsStmt.error {message : String} : EmitsStmt X (Emit.error loc message) item :=
  fun _ _ _ _ _ h => absurd h Emit.error_ok

/-! ### Simple statements -/

section Simple

variable {e : Expr} {me : Emit Unit}

theorem emitReturn_spec (he : EmitsExpr X me (.expr e)) :
    EmitsStmt X (do me; let _ ← emit .ret loc) (.stmt (.returnStmt loc (some e))) := by
  intro Γ s s' hg hΓ h
  simp only [Emit.bind_ok, emit_ok, Emit.pure_ok] at h
  obtain ⟨_, s₁, he', _, _, ⟨-, rfl⟩, -, rfl⟩ := h
  obtain ⟨t, ht⟩ := he Γ s s₁ hg hΓ he'
  have hret : Emission X s₁ _ (.ret loc) := .ret (ht.good hg).toWf
  exact ⟨_, Γ, .of_stays hg hΓ (ht.toEmission.seq hret) ht.locals_eq ht.depth_eq
    fun N P hN hP => .returnValue (ht.later hret.toGrows hN hP)⟩

theorem emitReturnNull_spec :
    EmitsStmt X (do let _ ← emit .retNull loc) (.stmt (.returnStmt loc none)) := by
  intro Γ s s' hg hΓ h
  simp only [Emit.bind_ok, emit_ok, Emit.pure_ok] at h
  obtain ⟨_, _, ⟨-, rfl⟩, -, rfl⟩ := h
  exact ⟨_, Γ, .of_stays hg hΓ (.retNull hg.toWf) rfl rfl fun _ _ _ _ => .returnNull⟩

theorem emitExprStmt_spec (he : EmitsExpr X me (.expr e)) :
    EmitsStmt X (do me; let _ ← emit .pop loc) (.stmt (.exprStmt loc e)) := by
  intro Γ s s' hg hΓ h
  simp only [Emit.bind_ok, emit_ok, Emit.pure_ok] at h
  obtain ⟨_, s₁, he', _, _, ⟨-, rfl⟩, -, rfl⟩ := h
  obtain ⟨t, ht⟩ := he Γ s s₁ hg hΓ he'
  have hpop : Emission X s₁ _ (.atom .pop loc) := .pop (ht.good hg).toWf
  exact ⟨_, Γ, .of_stays hg hΓ (ht.toEmission.seq hpop) ht.locals_eq ht.depth_eq
    fun N P hN hP => .exprStmt (ht.later hpop.toGrows hN hP)⟩

/-- A new local takes the value on top. -/
theorem StmtDone.declare {type name : String} (hg : s.Good) (hΓ : s.locals = Γ)
    (h : Emission X s s₁ t) (hs : Stays s s₁)
    (ht : ∀ N P, s₁.notes ⊆ N → s₁.plantillas <+: P →
      StmtTree X N P Γ item (t.andThen (.storeLocal Γ.length) loc)
        (⟨.user name, s.scopeDepth, type⟩ :: Γ)) :
    StmtDone X Γ item (t.andThen (.storeLocal Γ.length) loc)
      (⟨.user name, s.scopeDepth, type⟩ :: Γ) s
      ((s₁.declare (.user name) type).push ⟨.storeLocal, s₁.locals.length, loc⟩) := by
  have hΓ₁ : s₁.locals = Γ := hs.locals_eq.trans hΓ
  have hw₁ : s₁.Wf := hg.toWf.grows h.toGrows
  have hstore : Emission X s₁ _ (.atom (.storeLocal s₁.locals.length) loc) :=
    .declareStore hw₁ (.user name) type
  have he := h.seq hstore
  rw [hΓ₁] at he
  refine ⟨?_, ?_, hs.depth_eq, ?_, ⟨[_], rfl, by simp⟩, fun N P hN hP => ht N P ?_ ?_⟩
  · rw [hΓ₁]
    exact he
  · simp [EmitState.declare, EmitState.push, hΓ₁, hs.depth_eq]
  · exact (@List.length_cons _ _ s₁.locals).le.trans (le_max_right _ _)
  · exact List.Subset.trans hstore.notes.subset hN
  · exact hstore.plantillas.trans hP

theorem emitVarInit_spec {type name : String} (he : EmitsExpr X me (.expr e)) :
    EmitsStmt X (do
      me
      let slot ← declareLocal (.user name) loc type
      let _ ← emit .storeLocal loc slot) (.stmt (.varDecl loc type name (some e))) := by
  intro Γ s s' hg hΓ h
  simp only [Emit.bind_ok, declareLocal_ok, emit_ok, Emit.pure_ok] at h
  obtain ⟨_, s₁, he', _, _, ⟨-, rfl, rfl⟩, _, _, ⟨-, rfl⟩, -, rfl⟩ := h
  obtain ⟨t, ht⟩ := he Γ s s₁ hg hΓ he'
  exact ⟨_, _, .declare hg hΓ ht.toEmission ht.toStays fun N P hN hP =>
    .varInit (ht.tree N P hN hP)⟩

theorem emitVarNull_spec {type name : String} :
    EmitsStmt X (do
      emitConst .null loc
      let slot ← declareLocal (.user name) loc type
      let _ ← emit .storeLocal loc slot) (.stmt (.varDecl loc type name none)) := by
  intro Γ s s' hg hΓ h
  simp only [Emit.bind_ok, emitConst_ok, declareLocal_ok, emit_ok, Emit.pure_ok] at h
  obtain ⟨_, _, rfl, _, _, ⟨-, rfl, rfl⟩, _, _, ⟨-, rfl⟩, -, rfl⟩ := h
  exact ⟨_, _, .declare hg hΓ (.const hg.toWf .null) ⟨rfl, rfl, rfl⟩ fun _ _ _ _ => .varNull⟩

theorem emitRequireStmt_spec {c o : Expr} {mc mo : Emit Unit} (hc : EmitsExpr X mc (.expr c))
    (ho : EmitsExpr X mo (.expr o)) :
    EmitsStmt X (emitRequire loc mc mo) (.stmt (.requireStmt loc c o)) := by
  intro Γ s s' hg hΓ h
  obtain ⟨t, u, hr⟩ := emitRequire_spec hc ho hg hΓ h
  exact ⟨_, Γ, .of_stays hg hΓ hr.toEmission hr.locals_eq hr.depth_eq fun N P hN hP =>
    .requireStmt (hr.cond N P hN hP) (hr.otherwise N P hN hP)⟩

/-- A jump that the innermost loop closes. -/
theorem EmitsStmt.leaving {add : ℕ → Emit Unit} {next : EmitState → EmitState} {message : String}
    (hadd : ∀ s : EmitState, add s.here (s.push ⟨.jump, 0, loc⟩) = .ok ((), next s))
    (hs : ∀ s, s.Wf → s.loops ≠ [] → Emission X s (next s) t)
    (hl : ∀ s, (next s).locals = s.locals) (hd : ∀ s, (next s).scopeDepth = s.scopeDepth)
    (ht : ∀ N P Γ, StmtTree X N P Γ item t Γ) :
    EmitsStmt X (do
      if (← currentLoop).isNone then Emit.error loc message
      add (← emit .jump loc)) item := by
  intro Γ s s' hg hΓ h
  simp only [Emit.bind_ok, currentLoop_ok, Emit.guard_ok, emit_ok] at h
  obtain ⟨_, _, ⟨rfl, rfl⟩, hn, _, _, ⟨rfl, rfl⟩, h⟩ := h
  rw [hadd, Except.ok.injEq, Prod.mk.injEq] at h
  obtain ⟨-, rfl⟩ := h
  have hne : s.loops ≠ [] := by
    intro h
    exact hn (by rw [h]; rfl)
  exact ⟨t, Γ, .of_stays hg hΓ (hs s hg.toWf hne) (hl s) (hd s) fun N P _ _ => ht N P Γ⟩

theorem emitBreak_spec {message : String} :
    EmitsStmt X (do
      if (← currentLoop).isNone then Emit.error loc message
      addBreak (← emit .jump loc)) (.stmt (.breakStmt loc)) :=
  .leaving (fun _ => rfl) (fun _ => .brk) (fun _ => rfl) (fun _ => rfl) fun _ _ _ => .breakStmt

theorem emitContinue_spec {message : String} :
    EmitsStmt X (do
      if (← currentLoop).isNone then Emit.error loc message
      addContinue (← emit .jump loc)) (.stmt (.continueStmt loc)) :=
  .leaving (fun _ => rfl) (fun _ => .cont) (fun _ => rfl) (fun _ => rfl)
    fun _ _ _ => .continueStmt

theorem emitAssign_spec {target value : Expr} {expr : Expr → Emit Unit}
    (he : ∀ e, EmitsExpr X (expr e) (.expr e)) :
    EmitsStmt X (emitAssign X loc target value expr) (.stmt (.assign loc target value)) := by
  intro Γ s s' hg hΓ h
  simp only [emitAssign, Emit.bind_ok, getLocals_ok] at h
  obtain ⟨_, _, ⟨hΓ', rfl⟩, h⟩ := h
  rw [hΓ] at hΓ'
  subst hΓ'
  split at h
  · next mloc object name =>
    split at h
    · next hr =>
      simp only [Emit.bind_ok, emitConst_ok, emit_ok, Emit.pure_ok] at h
      obtain ⟨_, _, rfl, _, s₁, he', _, s₂, ⟨-, e₁⟩, _, s₃, ⟨-, e₂⟩, -, e₃⟩ := h
      have hname : Emission X s _ (.atom (.const (.str name)) loc) := .const hg.toWf _
      have hg' := hg.grows hname.toGrows rfl rfl
      obtain ⟨t, ht⟩ := he value Γ _ s₁ hg' hΓ he'
      have hline : Straight X s₁ loc [.callNative sessionSetId 2, .pop] [] s₁ s' :=
        .callNative (by decide) (by decide) (by decide) e₁ (.pop e₂ (.nil e₃))
      have hl := hline (ht.good hg').toWf (.refl _)
      refine ⟨_, Γ, .of_stays hg hΓ (hname.seq (ht.toEmission.seq hl.toEmission))
        (hl.locals_eq.trans ht.locals_eq) (hl.depth_eq.trans ht.depth_eq)
        fun N P hN hP => .assignSession hr (ht.later hl.toGrows hN hP)⟩
    · next hr =>
      simp only [Emit.bind_ok, Emit.lift_ok, addConstant_ok, emit_ok, Emit.pure_ok] at h
      obtain ⟨_, _, ⟨-, rfl⟩, _, s₁, ho', _, s₂, he', _, s₃, ⟨rfl, e₁⟩, _, s₄, ⟨-, e₂⟩, _, s₅,
        ⟨-, e₃⟩, -, e₄⟩ := h
      obtain ⟨t, ht⟩ := he object Γ s s₁ hg hΓ ho'
      have hg₁ := ht.good hg
      obtain ⟨u, hu⟩ := he value Γ s₁ s₂ hg₁ (ht.locals_eq.trans hΓ) he'
      have hw₂ := (hu.good hg₁).toWf
      have hk : Emission X s₂ s₃ .nil := .of_grows (e₁ ▸ .addConst s₂ _) (e₁ ▸ rfl)
      have hline : Straight X s₃ loc [.setMember name, .pop] [] s₃ s' :=
        .setMember (by rw [← e₁]; simp [EmitState.addConst]) e₂ (.pop e₃ (.nil e₄))
      have hl := hline (hw₂.grows hk.toGrows) (.refl _)
      have hs₃ : s₃.locals = s₂.locals ∧ s₃.scopeDepth = s₂.scopeDepth := by
        rw [← e₁]
        exact ⟨rfl, rfl⟩
      have hl' := hk.after_nil hl.toEmission
      refine ⟨_, Γ, .of_stays hg hΓ (ht.toEmission.seq (hu.toEmission.seq hl')) ?_ ?_
        fun N P hN hP => .assignMember hr (ht.later (hu.toGrows.trans hl'.toGrows) hN hP)
          (hu.later hl'.toGrows hN hP)⟩
      · exact (hl.locals_eq.trans hs₃.1).trans (hu.locals_eq.trans ht.locals_eq)
      · exact (hl.depth_eq.trans hs₃.2).trans (hu.depth_eq.trans ht.depth_eq)
  · next iloc object idx =>
    simp only [Emit.bind_ok, emit_ok, Emit.pure_ok] at h
    obtain ⟨_, s₁, ho', _, s₂, hi', _, s₃, he', _, s₄, ⟨-, e₁⟩, _, s₅, ⟨-, e₂⟩, -, e₃⟩ := h
    obtain ⟨r, hr⟩ := he object Γ s s₁ hg hΓ ho'
    have hg₁ := hr.good hg
    obtain ⟨t, ht⟩ := he idx Γ s₁ s₂ hg₁ (hr.locals_eq.trans hΓ) hi'
    have hg₂ := ht.good hg₁
    obtain ⟨u, hu⟩ := he value Γ s₂ s₃ hg₂ (ht.locals_eq.trans (hr.locals_eq.trans hΓ)) he'
    have hline : Straight X s₃ loc [.op .setIndex, .pop] [] s₃ s' :=
      .op (by decide) e₁ (.pop e₂ (.nil e₃))
    have hl := hline (hu.good hg₂).toWf (.refl _)
    refine ⟨_, Γ, .of_stays hg hΓ
      (hr.toEmission.seq (ht.toEmission.seq (hu.toEmission.seq hl.toEmission))) ?_ ?_
      fun N P hN hP => .assignIndex ?_ ?_ (hu.later hl.toGrows hN hP)⟩
    · exact hl.locals_eq.trans (hu.locals_eq.trans (ht.locals_eq.trans hr.locals_eq))
    · exact hl.depth_eq.trans (hu.depth_eq.trans (ht.depth_eq.trans hr.depth_eq))
    · exact hr.later (ht.toGrows.trans (hu.toGrows.trans hl.toGrows)) hN hP
    · exact ht.later (hu.toGrows.trans hl.toGrows) hN hP
  · next iloc name =>
    cases hs : resolveLocal Γ name with
    | none =>
      simp only [hs] at h
      exact absurd h Emit.error_ok
    | some slot =>
      simp only [hs, Emit.bind_ok, emit_ok, Emit.pure_ok] at h
      obtain ⟨_, s₁, he', _, _, ⟨-, rfl⟩, -, rfl⟩ := h
      obtain ⟨t, ht⟩ := he value Γ s s₁ hg hΓ he'
      have hg₁ := ht.good hg
      have hlt : slot < s₁.chunk.numLocals := by
        refine (resolveLocal_lt hs).trans_le ?_
        rw [← hΓ, ← ht.locals_eq]
        exact hg₁.slots
      have hstore : Emission X s₁ _ (.atom (.storeLocal slot) loc) := .store hg₁.toWf hlt
      exact ⟨_, Γ, .of_stays hg hΓ (ht.toEmission.seq hstore) ht.locals_eq ht.depth_eq
        fun N P hN hP => .assignLocal hs (ht.later hstore.toGrows hN hP)⟩
  · exact absurd h Emit.error_ok

end Simple

/-! ### Scopes -/

/-- What was emitted from `s` to `s'` is the tree `t` of a scope that is closed again. -/
structure ScopeDone (X : Emitter) (t : Tree) (s s' : EmitState) : Prop
    extends Emission X s s' t where
  locals_eq : s'.locals = s.locals
  depth_eq : s'.scopeDepth = s.scopeDepth

theorem ScopeDone.good (h : ScopeDone X t s s') (hg : s.Good) : s'.Good :=
  hg.grows h.toGrows h.locals_eq h.depth_eq

theorem ScopeDone.close {Δ : List Local} (hg : s.Good) (h : Emission X s.openScope s₁ t)
    (hl : s₁.locals = Δ ++ s.locals) (hΔ : ∀ l ∈ Δ, l.depth = s.scopeDepth + 1)
    (hd : s₁.scopeDepth = s.scopeDepth + 1) : ScopeDone X t s s₁.closeScope where
  toEmission := ((Emission.of_grows (.openScope s) rfl).after_nil h).before_nil
    (.of_grows (.closeScope s₁) rfl)
  locals_eq := closeScope_locals hg.depth hl hΔ hd
  depth_eq := by
    show s₁.scopeDepth - 1 = s.scopeDepth
    omega

theorem EmitState.Good.enter (hg : s.Good) : s.enter.Good where
  loops ctx hc j hj := by
    obtain rfl | hc := List.mem_cons.1 hc
    · cases hj
    · exact hg.loops ctx hc j hj
  tries := hg.tries
  depth := hg.depth
  slots := hg.slots

/-- The statements of a scope. -/
theorem StmtDone.scope (h : StmtDone X Γ item t Γ' s.openScope s₁) (hg : s.Good)
    (hΓ : s.locals = Γ) : ScopeDone X t s s₁.closeScope := by
  obtain ⟨Δ, hΔ, hd⟩ := h.declared
  refine .close (Δ := Δ) hg h.toEmission ?_ hd h.depth_eq
  rw [h.locals_eq, hΔ, hΓ]

/-- The end of a loop, as the emitter writes it. -/
theorem EmitState.endLoop_eq (s : EmitState) (start exit : ℕ) (ctx : LoopCtx) :
    (((s.push ⟨.jump, start, loc⟩).patch exit (s.push ⟨.jump, start, loc⟩).here).patchAll
      ctx.breaks ((s.push ⟨.jump, start, loc⟩).patch exit
        (s.push ⟨.jump, start, loc⟩).here).here).leave = s.endLoop loc start exit ctx := by
  rw [EmitState.here_patch, EmitState.here_push]
  rfl

/-! ### Branches -/

section Branches

variable {c : Expr} {mc mt me : Emit Unit} {body orelse : List Stmt}

theorem emitIf_spec (hc : EmitsExpr X mc (.expr c)) (ht : EmitsStmt X mt (.stmts body))
    (he : EmitsStmt X me (.stmts orelse)) :
    EmitsStmt X (do
      mc
      let toElse ← emit .jumpIfFalse loc
      beginScope
      mt
      endScope
      if orelse.isEmpty then
        patch toElse (← here)
      else
        let toEnd ← emit .jump loc
        patch toElse (← here)
        beginScope
        me
        endScope
        patch toEnd (← here)) (.stmt (.ifStmt loc c body orelse)) := by
  intro Γ s s' hg hΓ h
  simp only [Emit.bind_ok, emit_ok, beginScope_ok, endScope_ok] at h
  obtain ⟨_, s₁, hc', _, _, ⟨rfl, rfl⟩, _, _, rfl, _, s₂, ht', _, _, rfl, h⟩ := h
  obtain ⟨r, hr⟩ := hc Γ s s₁ hg hΓ hc'
  have hg₁ := hr.good hg
  have hg₁' := hg₁.grows (.push s₁ ⟨.jumpIfFalse, 0, loc⟩) rfl rfl
  have hΓ₁ : s₁.locals = Γ := hr.locals_eq.trans hΓ
  obtain ⟨t, Γt, hbody⟩ := ht Γ _ s₂ hg₁'.openScope hΓ₁ ht'
  have hs₂ := hbody.scope hg₁' hΓ₁
  have hg₂ := hs₂.good hg₁'
  have hl₂ : s₂.closeScope.locals = s.locals := hs₂.locals_eq.trans hr.locals_eq
  have hd₂ : s₂.closeScope.scopeDepth = s.scopeDepth := hs₂.depth_eq.trans hr.depth_eq
  split at h
  · next hempty =>
    obtain rfl : orelse = [] := by simpa using hempty
    simp only [Emit.bind_ok, here_ok, patch_ok] at h
    obtain ⟨_, _, ⟨rfl, rfl⟩, rfl⟩ := h
    have hwhen := Emission.when hg₁.toWf hs₂.toEmission
    refine ⟨_, Γ, .of_stays hg hΓ (hr.toEmission.seq hwhen) hl₂ hd₂ fun N P hN hP => ?_⟩
    exact .ifThen (hr.later hwhen.toGrows hN hP) (hbody.tree N P hN hP)
  · next hempty =>
    simp only [Emit.bind_ok, emit_ok, here_ok, patch_ok, beginScope_ok, endScope_ok] at h
    obtain ⟨_, _, ⟨rfl, rfl⟩, _, _, ⟨rfl, rfl⟩, _, _, rfl, _, _, rfl, _, s₃, he', _, _, rfl, _, _,
      ⟨rfl, rfl⟩, rfl⟩ := h
    rw [EmitState.here_push] at he'
    have g₂ : Grows s₁ ((s₂.closeScope.push ⟨.jump, 0, loc⟩).patch s₁.here
        (s₂.closeScope.here + 1)) :=
      ((Grows.push s₁ ⟨.jumpIfFalse, 0, loc⟩).trans (hs₂.toGrows.trans (.push _ _))).patch le_rfl _
    have hg₂' := hg₁.grows g₂ hs₂.locals_eq hs₂.depth_eq
    obtain ⟨u, Γu, helse⟩ := he Γ _ s₃ hg₂'.openScope (hl₂.trans hΓ) he'
    have hs₃ := helse.scope hg₂' (hl₂.trans hΓ)
    have hcond := Emission.cond hg₁.toWf hs₂.toEmission hs₃.toEmission
    refine ⟨_, Γ, .of_stays hg hΓ (hr.toEmission.seq hcond) (hs₃.locals_eq.trans hl₂)
      (hs₃.depth_eq.trans hd₂) fun N P hN hP => ?_⟩
    exact .ifElse (by simpa using hempty) (hr.later hcond.toGrows hN hP)
      (hbody.later hs₃.notes hs₃.plantillas hN hP) (helse.tree N P hN hP)

theorem emitWhile_spec (hc : EmitsExpr X mc (.expr c)) (ht : EmitsStmt X mt (.stmts body)) :
    EmitsStmt X (do
      let start ← here
      mc
      let toEnd ← emit .jumpIfFalse loc
      pushLoop
      beginScope
      mt
      endScope
      let loop ← currentLoop
      patchAll ((loop.map (·.continues)).getD []) start
      let _ ← emit .jump loc start
      patch toEnd (← here)
      patchAll ((loop.map (·.breaks)).getD []) (← here)
      popLoop) (.stmt (.whileStmt loc c body)) := by
  intro Γ s s' hg hΓ h
  simp only [Emit.bind_ok, emit_ok, here_ok, patch_ok, patchAll_ok, pushLoop_ok, popLoop_ok,
    currentLoop_ok, beginScope_ok, endScope_ok] at h
  obtain ⟨_, _, ⟨rfl, rfl⟩, _, s₁, hc', _, _, ⟨rfl, rfl⟩, _, _, rfl, _, _, rfl, _, s₂, ht', _, _,
    rfl, _, _, ⟨rfl, rfl⟩, _, _, rfl, _, _, ⟨-, rfl⟩, _, _, ⟨rfl, rfl⟩, _, _, rfl, _, _,
    ⟨rfl, rfl⟩, _, _, rfl, rfl⟩ := h
  obtain ⟨r, hr⟩ := hc Γ s s₁ hg hΓ hc'
  have hg₁ := hr.good hg
  have hΓ₁ : s₁.locals = Γ := hr.locals_eq.trans hΓ
  have hg₁' : (s₁.push ⟨.jumpIfFalse, 0, loc⟩).enter.Good :=
    (hg₁.grows (.push s₁ ⟨.jumpIfFalse, 0, loc⟩) rfl rfl).enter
  obtain ⟨t, Γt, hbody⟩ := ht Γ _ s₂ hg₁'.openScope hΓ₁ ht'
  have hs₂ := hbody.scope hg₁' hΓ₁
  obtain ⟨ctx, hb⟩ := hs₂.toEmission.body
  have hl : s₂.closeScope.loops.head? = some ctx := by rw [hb.loops]; rfl
  simp only [hl, Option.map_some, Option.getD_some, EmitState.endLoop_eq]
  have hloop := @Emission.loop _ _ _ _ _ _ _ _ [] true _ _ hg.toWf hr.toEmission hb rfl
    (.refl _) rfl
  refine ⟨_, Γ, .of_stays hg hΓ hloop (hs₂.locals_eq.trans hr.locals_eq)
    (hs₂.depth_eq.trans hr.depth_eq) fun N P hN hP => ?_⟩
  have hcond := hr.tree N P (List.Subset.trans hbody.notes.subset hN) (hbody.plantillas.trans hP)
  exact .whileStmt hcond (hbody.tree N P hN hP)

theorem emitTry_spec {name : Option String} (ht : EmitsStmt X mt (.stmts body))
    (he : EmitsStmt X me (.stmts orelse)) :
    EmitsStmt X (do
      let first ← here
      beginScope
      mt
      endScope
      let stop ← here
      let toEnd ← emit .jump loc
      addTryRange ⟨first, stop, ← here⟩
      beginScope
      emitCatchVar loc name
      me
      endScope
      patch toEnd (← here)) (.stmt (.tryStmt loc body name orelse)) := by
  intro Γ s s' hg hΓ h
  simp only [Emit.bind_ok, emit_ok, here_ok, patch_ok, addTryRange_ok, beginScope_ok,
    endScope_ok] at h
  obtain ⟨_, _, ⟨rfl, rfl⟩, _, _, rfl, _, s₁, ht', _, _, rfl, _, _, ⟨rfl, rfl⟩, _, _, ⟨rfl, rfl⟩,
    _, _, ⟨rfl, rfl⟩, _, _, rfl, _, _, rfl, _, s₂, hv, _, s₃, he', _, _, rfl, _, _, ⟨rfl, rfl⟩,
    rfl⟩ := h
  obtain ⟨t, Γt, hbody⟩ := ht Γ _ s₁ hg.openScope hΓ ht'
  have hs₁ := hbody.scope hg hΓ
  have hg₁ := hs₁.good hg
  have hΓ₁ : s₁.closeScope.locals = Γ := hs₁.locals_eq.trans hΓ
  have gtry : Grows s ((s₁.closeScope.push ⟨.jump, 0, loc⟩).addTry
      ⟨s.here, s₁.closeScope.here, s₁.closeScope.here + 1⟩) :=
    (hs₁.toGrows.trans (.push _ _)).addTry le_rfl hs₁.here_le (by simp) (by simp)
  have hg₂ := hg.grows gtry hs₁.locals_eq hs₁.depth_eq
  rw [EmitState.here_push] at hv
  -- the handler takes the error off the stack, or into the slot of its name
  suffices hh : ∃ u, ScopeDone X u ((s₁.closeScope.push ⟨.jump, 0, loc⟩).addTry
      ⟨s.here, s₁.closeScope.here, s₁.closeScope.here + 1⟩) s₃.closeScope ∧
      ∀ N P, s₃.notes ⊆ N → s₃.plantillas <+: P →
        StmtTree X N P Γ (.stmt (.tryStmt loc body name orelse)) (.tryCatch t u loc) Γ by
    obtain ⟨u, hu, htree⟩ := hh
    exact ⟨_, Γ, .of_stays hg hΓ (.tryCatch hg.toWf hs₁.toEmission hu.toEmission)
      (hu.locals_eq.trans hs₁.locals_eq) (hu.depth_eq.trans hs₁.depth_eq) htree⟩
  cases name with
  | none =>
    simp only [emitCatchVar, Emit.bind_ok, emit_ok, Emit.pure_ok] at hv
    obtain ⟨_, _, ⟨-, rfl⟩, -, rfl⟩ := hv
    have hpop : Emission X _ _ (.atom .pop loc) := .pop hg₂.openScope.toWf
    obtain ⟨u, Γu, helse⟩ := he Γ _ s₃ (hg₂.openScope.grows hpop.toGrows rfl rfl) hΓ₁ he'
    obtain ⟨Δ, hΔ, hd⟩ := helse.declared
    refine ⟨_, .close (Δ := Δ) hg₂ (hpop.seq helse.toEmission) ?_ hd helse.depth_eq,
      fun N P hN hP => .tryBare (hbody.later (helse.notes) helse.plantillas hN hP)
        (helse.tree N P hN hP)⟩
    rw [helse.locals_eq, hΔ, ← hΓ₁]
    rfl
  | some n =>
    simp only [emitCatchVar, Emit.bind_ok, declareLocal_ok, emit_ok, Emit.pure_ok] at hv
    obtain ⟨_, _, ⟨-, rfl, rfl⟩, _, _, ⟨-, rfl⟩, -, rfl⟩ := hv
    have hstore : Emission X _ _ (.atom (.storeLocal s₁.closeScope.locals.length) loc) :=
      .declareStore hg₂.openScope.toWf (.user n) ""
    obtain ⟨u, Γu, helse⟩ := he (⟨.user n, s₁.closeScope.scopeDepth + 1, ""⟩ :: Γ) _ s₃
      ((hg₂.openScope.declare (.user n) "").grows (.push _ _) rfl rfl) (congrArg _ hΓ₁) he'
    obtain ⟨Δ, hΔ, hd⟩ := helse.declared
    refine ⟨_, .close (Δ := Δ ++ [⟨.user n, s₁.closeScope.scopeDepth + 1, ""⟩]) hg₂
      (hstore.seq helse.toEmission) ?_ ?_ helse.depth_eq, fun N P hN hP => ?_⟩
    · rw [helse.locals_eq, hΔ, ← hΓ₁, List.append_assoc]
      rfl
    · intro l hl
      obtain hl | hl := List.mem_append.1 hl
      · exact hd l hl
      · obtain rfl := List.mem_singleton.1 hl
        rfl
    · rw [hΓ₁]
      exact .tryNamed (hbody.later helse.notes helse.plantillas hN hP) (helse.tree N P hN hP)

end Branches

/-! ### `for` -/

section Forward

variable {β : Type}

theorem emit_bind (op : Op) (k : ℕ) (f : ℕ → Emit β) (s : EmitState) :
    (emit op loc k >>= f) s = f s.here (s.push ⟨op, k, loc⟩) := rfl

theorem emitConst_bind (v : Value) (f : Unit → Emit β) (s : EmitState) :
    (emitConst v loc >>= f) s =
      f () ((s.addConst v).push ⟨.const, s.chunk.constants.length, loc⟩) := rfl

theorem here_bind (f : ℕ → Emit β) (s : EmitState) : (here >>= f) s = f s.here s := rfl

theorem patch_bind (pos target : ℕ) (f : Unit → Emit β) (s : EmitState) :
    (patch pos target >>= f) s = f () (s.patch pos target) := rfl

theorem patchAll_bind (positions : List ℕ) (target : ℕ) (f : Unit → Emit β) (s : EmitState) :
    (patchAll positions target >>= f) s = f () (s.patchAll positions target) := rfl

theorem pushLoop_bind (f : Unit → Emit β) (s : EmitState) :
    (pushLoop >>= f) s = f () s.enter := rfl

theorem popLoop_bind (f : Unit → Emit β) (s : EmitState) :
    (popLoop >>= f) s = f () s.leave := rfl

theorem currentLoop_bind (f : Option LoopCtx → Emit β) (s : EmitState) :
    (currentLoop >>= f) s = f s.loops.head? s := rfl

theorem beginScope_bind (f : Unit → Emit β) (s : EmitState) :
    (beginScope >>= f) s = f () s.openScope := rfl

theorem endScope_bind (f : Unit → Emit β) (s : EmitState) :
    (endScope >>= f) s = f () s.closeScope := rfl

end Forward

section For

variable {type name : String} {target : Expr} {me mt : Emit Unit} {body : List Stmt}

/-- The header of a `for` was emitted from `s` to `s'`. -/
structure ForHeaderDone (X : Emitter) (Γ : List Local) (loc : SourceLoc) (type name : String)
    (target : Expr) (t : Tree) (s s' : EmitState) : Prop
    extends Emission X s s' (.seq t (.atoms loc (forHeaderAtoms Γ.length))) where
  locals_eq : s'.locals = ⟨.user name, s.scopeDepth, type⟩ :: forLocals s.scopeDepth Γ
  depth_eq : s'.scopeDepth = s.scopeDepth
  slots : s'.locals.length ≤ s'.chunk.numLocals
  tree : ∀ N P, s'.notes ⊆ N → s'.plantillas <+: P → ExprTree X N P Γ (.expr target) t

/-- The locals of a `for`, with its variable. -/
def forScope (depth : ℕ) (type name : String) (Γ : List Local) : List Local :=
  ⟨.user name, depth, type⟩ :: forLocals depth Γ

theorem ForHeaderDone.good (h : ForHeaderDone X Γ loc type name target t s s') (hg : s.Good)
    (hΓ : s.locals = Γ) : s'.Good where
  toWf := hg.toWf.grows h.toGrows
  depth l hl := by
    rw [h.depth_eq]
    rw [h.locals_eq, forLocals] at hl
    simp only [List.mem_cons] at hl
    obtain rfl | rfl | rfl | rfl | hl := hl
    · exact le_rfl
    · exact le_rfl
    · exact le_rfl
    · exact le_rfl
    · exact hg.depth l (hΓ ▸ hl)
  slots := h.slots

theorem emitForHeader_spec {items count index var : ℕ} (he : EmitsExpr X me (.expr target))
    (hg : s.Good) (hΓ : s.locals = Γ)
    (h : emitForHeader loc type name me s = .ok ((items, count, index, var), s')) :
    items = Γ.length ∧ count = Γ.length + 1 ∧ index = Γ.length + 2 ∧ var = Γ.length + 3 ∧
      ∃ t, ForHeaderDone X Γ loc type name target t s s' := by
  simp only [emitForHeader, Emit.bind_ok, emit_ok, emitAux_ok, emitConst_ok, declareLocal_ok,
    Emit.pure_ok, Prod.mk.injEq] at h
  obtain ⟨_, s₁, he', _, s₂, ⟨-, e₁⟩, _, s₃, ⟨-, n₁, e₂⟩, _, s₄, ⟨-, e₃⟩, _, s₅, ⟨-, e₄⟩, _, s₆,
    ⟨-, n₂, e₅⟩, _, s₇, e₆, _, s₈, ⟨-, n₃, e₇⟩, _, _, ⟨-, n₄, rfl⟩, ⟨rfl, rfl, rfl, rfl⟩, rfl⟩ := h
  subst n₁ n₂ n₃ n₄
  obtain ⟨t, ht⟩ := he Γ s s₁ hg hΓ he'
  have hΓ₂ : s₂.locals = Γ := by
    subst e₁
    exact ht.locals_eq.trans hΓ
  have hn₂ : s₂.locals.length = Γ.length := congrArg _ hΓ₂
  have hn₅ : s₅.locals.length = s₂.locals.length + 1 := by
    subst e₄ e₃ e₂
    rfl
  have hn₇ : s₇.locals.length = s₂.locals.length + 2 := by
    subst e₆ e₅ e₄ e₃ e₂
    rfl
  have hd₅ : s₅.scopeDepth = s₂.scopeDepth := by
    subst e₄ e₃ e₂
    rfl
  have hd₇ : s₇.scopeDepth = s₂.scopeDepth := by
    subst e₆ e₅ e₄ e₃ e₂
    rfl
  have hd₂ : s₂.scopeDepth = s.scopeDepth := by
    subst e₁
    exact ht.depth_eq
  have hline : Straight X s₁ loc [.op .iterList, .storeLocal s₂.locals.length,
      .loadLocal s₂.locals.length, .callNative lenId 1, .storeLocal s₅.locals.length,
      .const (.int 0), .storeLocal s₇.locals.length]
      ([] ++ [auxLocal s₇.scopeDepth "index"] ++ [auxLocal s₅.scopeDepth "count"] ++
        [auxLocal s₂.scopeDepth "items"]) s₁ s₈ :=
    .op (by decide) e₁ (.declare e₂ fun _ hitems => .load hitems e₃ (.callNative (by decide)
      (by decide) (by decide) e₄ (.declare e₅ fun _ _ => .const e₆ (.declare e₇ fun _ _ =>
        .nil rfl))))
  have hl := hline (ht.good hg).toWf (.refl _)
  rw [hn₇, hn₅, hn₂] at hl
  have hn₈ : s₈.locals.length = Γ.length + 3 := by
    rw [hl.locals_eq, ht.locals_eq, hΓ]
    simp
  have hvar : Emission X s₈ (s₈.declare (.user name) type) .nil :=
    .of_grows (.declare s₈ (.user name) type) rfl
  refine ⟨hn₂, by omega, by omega, hn₈, t, (ht.toEmission.seq hl.toEmission).before_nil hvar, ?_,
    hl.depth_eq.trans ht.depth_eq, (@List.length_cons _ _ s₈.locals).le.trans (le_max_right _ _),
    fun N P hN hP => ht.later (hl.toGrows.trans hvar.toGrows) hN hP⟩
  show ⟨.user name, s₈.scopeDepth, type⟩ :: s₈.locals = _
  rw [hl.locals_eq, hl.depth_eq, ht.depth_eq, ht.locals_eq, hΓ, hd₇, hd₅, hd₂]
  rfl

section Lines

variable {n : ℕ}

theorem forTest_line (hw : s.Wf) (hn : n + 3 ≤ s.chunk.numLocals) :
    Line X loc (forTestAtoms n) [] s
      (((s.push ⟨.loadLocal, n + 2, loc⟩).push ⟨.loadLocal, n + 1, loc⟩).push ⟨.lt, 0, loc⟩) := by
  have h : Straight X s loc (forTestAtoms n) [] s _ :=
    .load (by omega) rfl (.load (by omega) rfl (.op (by decide) rfl (.nil rfl)))
  exact h hw (.refl _)

theorem forItem_line (hw : s.Wf) (hn : n + 4 ≤ s.chunk.numLocals) :
    Line X loc (forItemAtoms n) [] s
      ((((s.push ⟨.loadLocal, n, loc⟩).push ⟨.loadLocal, n + 2, loc⟩).push ⟨.getIndex, 0, loc⟩).push
        ⟨.storeLocal, n + 3, loc⟩) := by
  have h : Straight X s loc (forItemAtoms n) [] s _ :=
    .load (by omega) rfl (.load (by omega) rfl (.op (by decide) rfl (.store (by omega) rfl
      (.nil rfl))))
  exact h hw (.refl _)

theorem forStep_line (hw : s.Wf) (hn : n + 3 ≤ s.chunk.numLocals) :
    Line X loc (forStepAtoms n) [] s
      (((((s.push ⟨.loadLocal, n + 2, loc⟩).addConst (.int 1)).push
        ⟨.const, s.chunk.constants.length, loc⟩).push ⟨.add, 0, loc⟩).push
          ⟨.storeLocal, n + 2, loc⟩) := by
  have h : Straight X s loc (forStepAtoms n) [] s _ :=
    .load (by omega) rfl (.const rfl (.op (by decide) rfl (.store (by omega) rfl (.nil rfl))))
  exact h hw (.refl _)

end Lines

theorem Line.good {as : List Atom} (h : Line X loc as [] s s') (hg : s.Good) : s'.Good :=
  hg.grows h.toGrows h.locals_eq h.depth_eq

theorem emitFor_spec (he : EmitsExpr X me (.expr target)) (ht : EmitsStmt X mt (.stmts body)) :
    EmitsStmt X (do
      beginScope
      let (items, count, index, var) ← emitForHeader loc type name me
      let start ← here
      let _ ← emit .loadLocal loc index
      let _ ← emit .loadLocal loc count
      let _ ← emit .lt loc
      let toEnd ← emit .jumpIfFalse loc
      let _ ← emit .loadLocal loc items
      let _ ← emit .loadLocal loc index
      let _ ← emit .getIndex loc
      let _ ← emit .storeLocal loc var
      pushLoop
      beginScope
      mt
      endScope
      let loop ← currentLoop
      patchAll ((loop.map (·.continues)).getD []) (← here)
      let _ ← emit .loadLocal loc index
      emitConst (.int 1) loc
      let _ ← emit .add loc
      let _ ← emit .storeLocal loc index
      let _ ← emit .jump loc start
      patch toEnd (← here)
      patchAll ((loop.map (·.breaks)).getD []) (← here)
      popLoop
      endScope) (.stmt (.forStmt loc type name target body)) := by
  intro Γ s s' hg hΓ h
  rw [beginScope_bind] at h
  obtain ⟨⟨items, count, index, var⟩, s₁, hhead, h⟩ := Emit.bind_ok.1 h
  obtain ⟨rfl, rfl, rfl, rfl, t, hh⟩ := emitForHeader_spec he hg.openScope hΓ hhead
  simp only [emit_bind, here_bind, pushLoop_bind, beginScope_bind] at h
  obtain ⟨_, s₂, ht', h⟩ := Emit.bind_ok.1 h
  simp only [emit_bind, emitConst_bind, here_bind, patch_bind, patchAll_bind, popLoop_bind,
    currentLoop_bind, endScope_bind, endScope_ok] at h
  have hg₁ := hh.good hg.openScope hΓ
  have hslots : Γ.length + 4 ≤ s₁.chunk.numLocals := by
    have hlen := hh.slots
    rw [hh.locals_eq] at hlen
    exact hlen
  have htest : Line X loc (forTestAtoms Γ.length) [] s₁ _ := forTest_line hg₁.toWf (by omega)
  have hgt := (htest.good hg₁).grows (.push _ ⟨.jumpIfFalse, 0, loc⟩) rfl rfl
  have hitem : Line X loc (forItemAtoms Γ.length) [] _ _ := forItem_line hgt.toWf hslots
  have hgi := (hitem.good hgt).enter
  obtain ⟨u, Γu, hbody⟩ := ht (forScope (s.scopeDepth + 1) type name Γ) _ s₂ hgi.openScope
    hh.locals_eq ht'
  have hs₂ := hbody.scope hgi hh.locals_eq
  obtain ⟨ctx, hb⟩ := hs₂.toEmission.body
  have hl : s₂.closeScope.loops.head? = some ctx := by rw [hb.loops]; rfl
  have hb' := hb.before hgt.toWf hitem.toEmission rfl
  simp only [hl, Option.map_some, Option.getD_some, EmitState.endLoop_eq] at h
  subst h
  -- the increment, where `continue` goes
  have gcont := @Grows.patchAll _ _ hs₂.toGrows ctx.continues
    (fun j hj => (hb.opened j (List.mem_append_right _ hj)).1) s₂.closeScope.here
  have hwc := hgi.toWf.grows gcont
  have hnl : s₁.chunk.numLocals ≤ s₂.closeScope.chunk.numLocals :=
    (htest.numLocals.trans hitem.numLocals).trans hs₂.numLocals
  have hstep : Line X loc (forStepAtoms Γ.length) [] _ _ := forStep_line hwc (by
    show Γ.length + 3 ≤ s₂.closeScope.chunk.numLocals
    omega)
  have hloop := @Emission.loop _ _ _ _ _ loc _ _ _ false _ _ hg₁.toWf htest.toEmission hb' rfl
    hstep.toEmission hstep.loops_eq
  have hl₂ : s₂.closeScope.locals = forScope (s.scopeDepth + 1) type name Γ :=
    hs₂.locals_eq.trans hh.locals_eq
  have hd₂ : s₂.closeScope.scopeDepth = s.scopeDepth + 1 := hs₂.depth_eq.trans hh.depth_eq
  have hscope := ScopeDone.close
    (Δ := [⟨.user name, s.scopeDepth + 1, type⟩, auxLocal (s.scopeDepth + 1) "index",
      auxLocal (s.scopeDepth + 1) "count", auxLocal (s.scopeDepth + 1) "items"])
    hg (hh.toEmission.seq hloop) (by rw [hΓ]; exact hl₂) (by simp [auxLocal]) hd₂
  refine ⟨_, Γ, .of_stays hg hΓ hscope.toEmission hscope.locals_eq hscope.depth_eq
    fun N P hN hP => .forStmt ?_ (hbody.tree N P hN hP)⟩
  exact hh.tree N P (List.Subset.trans (hitem.notes.trans hbody.notes).subset hN)
    ((hitem.plantillas.trans hbody.plantillas).trans hP)

end For

/-! ## The induction -/

theorem EmitsStmt.nil : EmitsStmt X (pure ()) (.stmts []) := by
  intro Γ s s' hg hΓ h
  obtain ⟨-, rfl⟩ := Emit.pure_ok.1 h
  exact ⟨_, Γ, .of_stays hg hΓ (.refl s) rfl rfl fun _ _ _ _ => .stmtsNil⟩

theorem EmitsStmt.cons {st : Stmt} {ss : List Stmt} {m ms : Emit Unit}
    (hm : EmitsStmt X m (.stmt st)) (hms : EmitsStmt X ms (.stmts ss)) :
    EmitsStmt X (do m; ms) (.stmts (st :: ss)) := by
  intro Γ s s' hg hΓ h
  obtain ⟨_, s₁, h₁, h₂⟩ := Emit.bind_ok.1 h
  obtain ⟨t, Γ₁, ht⟩ := hm Γ s s₁ hg hΓ h₁
  obtain ⟨u, Γ₂, hu⟩ := hms Γ₁ s₁ s' (ht.good hg hΓ) ht.locals_eq h₂
  obtain ⟨Δ₁, hΔ₁, hd₁⟩ := ht.declared
  obtain ⟨Δ₂, hΔ₂, hd₂⟩ := hu.declared
  refine ⟨_, Γ₂, ht.toEmission.seq hu.toEmission, hu.locals_eq, hu.depth_eq.trans ht.depth_eq,
    hu.slots, ⟨Δ₂ ++ Δ₁, ?_, ?_⟩, fun N P hN hP => ?_⟩
  · rw [hΔ₂, hΔ₁, List.append_assoc]
  · intro l hl
    obtain hl | hl := List.mem_append.1 hl
    · exact (hd₂ l hl).trans ht.depth_eq
    · exact hd₁ l hl
  · exact .stmtsCons (ht.later hu.notes hu.plantillas hN hP) (hu.tree N P hN hP)

mutual

/-- A statement that is emitted is emitted to its tree. -/
theorem emitStmt_spec {expr : Expr → Emit Unit} (he : ∀ e, EmitsExpr X (expr e) (.expr e))
    (st : Stmt) : EmitsStmt X (emitStmt X expr st) (.stmt st) := by
  cases st with
  | returnStmt loc value =>
    cases value with
    | none => exact emitReturnNull_spec
    | some e => exact emitReturn_spec (he e)
  | exprStmt loc e => exact emitExprStmt_spec (he e)
  | varDecl loc type name value =>
    cases value with
    | none => exact emitVarNull_spec
    | some e => exact emitVarInit_spec (he e)
  | assign loc target value => exact emitAssign_spec he
  | ifStmt loc c body orelse =>
    exact emitIf_spec (he c) (emitStmts_spec he body) (emitStmts_spec he orelse)
  | whileStmt loc c body => exact emitWhile_spec (he c) (emitStmts_spec he body)
  | forStmt loc type name target body =>
    exact emitFor_spec (he target) (emitStmts_spec he body)
  | requireStmt loc c o => exact emitRequireStmt_spec (he c) (he o)
  | breakStmt loc => exact emitBreak_spec
  | continueStmt loc => exact emitContinue_spec
  | tryStmt loc body name orelse =>
    exact emitTry_spec (emitStmts_spec he body) (emitStmts_spec he orelse)
  termination_by structural st

theorem emitStmts_spec {expr : Expr → Emit Unit} (he : ∀ e, EmitsExpr X (expr e) (.expr e))
    (ss : List Stmt) : EmitsStmt X (emitStmts X expr ss) (.stmts ss) := by
  cases ss with
  | nil => exact EmitsStmt.nil
  | cons st ss => exact (emitStmt_spec he st).cons (emitStmts_spec he ss)
  termination_by structural ss

end

end Statements

end Osodio.Odio
