import Osodio.Odio.Emission

/-!
# Emitting expressions

The pieces put together: calls, and then expressions, by induction on the fuel of
the default values and on the size of the source.

## Main definitions

- `ExprItem.size` — the size on which inductions on expressions go down
- `RequireDone` — what a `require` or a guard is emitted to

## Main results

- `emitCall_spec`, `emitExpr_spec` — what a call and an expression are emitted to
- `emitRequire_spec` — what a requirement is emitted to
-/

namespace Osodio.Odio

section Calls

variable {X : Emitter} {Γ : List Local} {item : ExprItem} {s s₁ s' : EmitState} {t : Tree}
  {loc : SourceLoc}

/-- A native that is called after its arguments. -/
theorem Emission.native {id argc : ℕ} (hw : s.Wf) (hid : id < kNatives.length)
    (hargc : argc ≤ 255) (ha : (nativeAt id).isAsync = true → s.chunk.hasAwait = true) :
    Emission X s (s.push ⟨if (nativeAt id).isAsync then .callAsync else .callNative,
      callOperand id argc, loc⟩) (.atom (nativeAtom id argc) loc) := by
  unfold nativeAtom
  split
  · next hasync =>
    exact .atom hw (.callAsync id argc) fun _ _ _ _ hc =>
      ⟨rfl, hid, hargc, hc.hasAwait (ha hasync)⟩
  · next hsync =>
    exact .callNative hw hid hargc fun h => absurd h hsync

theorem emitRender_spec {e : Expr} {c : CallExpr} {id : ℕ} {nloc : SourceLoc} {nombre : String}
    {extra : List Expr} {compilar : PlantillaCompiler} {named : Emit Unit}
    (he : e.asCall = some c)
    (hc : resolveCall X Γ c.loc c.object c.args.length c.named.length c.awaited =
      .ok (.native id "render"))
    (ha : c.args = .stringLit nloc nombre :: extra) (hX : X.plantillas = some compilar)
    (hnamed : EmitsExpr X named (.named c.named)) (hg : s.Good) (hΓ : s.locals = Γ)
    (hx : extra ≠ [] → .dropped ∈ s.notes)
    (h : emitirRenderCompilado compilar c.loc nloc nombre
      (c.named.map fun k => (k.1, tipoDe Γ k.2.2)) named s = .ok ((), s')) :
    ∃ t, ExprDone X Γ (.expr e) t s s' := by
  simp only [emitirRenderCompilado, Emit.guard_ok] at h
  obtain ⟨-, h⟩ := h
  cases hp : compilar nombre (c.named.map fun k => (k.1, tipoDe Γ k.2.2)) with
  | error message =>
    rw [hp] at h
    exact absurd h Emit.error_ok
  | ok p =>
    simp only [hp, Emit.bind_ok, addPlantilla_ok, emitConst_ok, emitNamedDict, emit_ok,
      Emit.pure_ok, List.length_map] at h
    obtain ⟨_, _, ⟨hidx, rfl, rfl⟩, _, s₁, hs₁, _, s₃, ⟨_, s₂, hn, _, _, ⟨-, rfl⟩, -, rfl⟩, _, _,
      ⟨-, rfl⟩, -, rfl⟩ := h
    have hw₀ : (s.addPlant p).Wf := hg.toWf.grows (.addPlant s p)
    have hk : Emission X (s.addPlant p) s₁ (.atom (.const (.int (Int64.ofNat s.plantillas.length)))
        c.loc) := by
      rw [← hs₁]
      exact .const hw₀ _
    have hg₁ : s₁.Good := by
      rw [← hs₁]
      exact hg.grows ((Grows.addPlant s p).trans (hs₁ ▸ hk.toGrows)) rfl rfl
    have hl₁ : Stays s s₁ := by
      rw [← hs₁]
      exact ⟨rfl, rfl, rfl⟩
    obtain ⟨t, ht⟩ := hnamed Γ s₁ s₂ hg₁ (hl₁.locals_eq.trans hΓ) hn
    have hw₂ := (ht.good hg₁).toWf
    have hdict : Emission X s₂ _ (.atom (.makeDict c.named.length) c.loc) := .makeDict hw₂ _
    have hcall : Emission X _ _ (.atom (.callNative renderTplId 2) c.loc) :=
      .callNative_sync (hdict.wf hw₂) (by decide) (by decide) (by decide)
    have hs : Stays s s₂ := hl₁.trans ht.toStays
    refine ⟨_, (Emission.of_grows (.addPlant s p) rfl).after_nil
      (hk.seq ((ht.toEmission.seq hdict).seq hcall)), ⟨hs.1, hs.2, hs.3⟩, fun N P hN hP => ?_⟩
    have hP₀ : (s.addPlant p).plantillas <+: P :=
      (hk.plantillas.trans ht.plantillas).trans hP
    refine .render he hc ha (fun hne => hN ?_) ?_ hidx ⟨compilar, hX, hp⟩
      (ht.later (hdict.toGrows.trans hcall.toGrows) hN hP)
    · exact ((Grows.addPlant s p).trans (hk.toGrows.trans ht.toGrows)).notes.subset (hx hne)
    · obtain ⟨rest, hrest⟩ := hP₀
      simp [← hrest, EmitState.addPlant]

theorem emitNativeCall_spec {e : Expr} {c : CallExpr} {id : ℕ} {name : String}
    {args named : Emit Unit} (he : e.asCall = some c)
    (hc : resolveCall X Γ c.loc c.object c.args.length c.named.length c.awaited =
      .ok (.native id name))
    (hargs : EmitsExpr X args (.exprs c.args)) (hnamed : EmitsExpr X named (.named c.named))
    (hg : s.Good) (hΓ : s.locals = Γ)
    (h : emitNativeCall X c.loc id name c.args c.named c.awaited args named s = .ok ((), s')) :
    ∃ t, ExprDone X Γ (.expr e) t s s' := by
  simp only [emitNativeCall, Emit.bind_ok, getLocals_ok, Emit.guard_ok] at h
  obtain ⟨_, _, ⟨rfl, rfl⟩, _, _, haw, hkeys, h⟩ := h
  obtain ⟨-, rfl⟩ := Emit.lift_ok.1 haw
  rw [hΓ] at h
  by_cases hr : name = "render"
  · subst hr
    rw [if_pos rfl] at h
    cases ha : c.args with
    | nil =>
      rw [ha] at h
      exact absurd h Emit.error_ok
    | cons a extra =>
      rw [ha] at h
      cases a with
      | stringLit nloc nombre =>
        cases hX : X.plantillas with
        | none =>
          rw [hX] at h
          exact absurd h Emit.error_ok
        | some compilar =>
          simp only [hX] at h
          split at h
          · simp only [Emit.bind_ok, note_ok] at h
            obtain ⟨_, _, rfl, h⟩ := h
            have hg' : (s.addNote .dropped).Good := hg.grows (.addNote s _) rfl rfl
            obtain ⟨t, ht⟩ := emitRender_spec he hc ha hX hnamed hg' hΓ
              (fun _ => by simp [EmitState.addNote]) h
            exact ⟨t, (Emission.of_grows (.addNote s _) rfl).after_nil ht.toEmission,
              ⟨ht.locals_eq, ht.depth_eq, ht.loops_eq⟩, ht.tree⟩
          · next hextra =>
            refine emitRender_spec he hc ha hX hnamed hg hΓ (fun hne => absurd ?_ hextra) h
            cases extra with
            | nil => exact absurd rfl hne
            | cons => rfl
      | _ => exact absurd h Emit.error_ok
  · rw [if_neg hr] at h
    simp only [Emit.bind_ok, Emit.guard_ok, not_lt] at h
    obtain ⟨_, s₁, hargs', -, hle, h⟩ := h
    obtain ⟨t, ht⟩ := hargs Γ s s₁ hg hΓ hargs'
    have hg₁ := ht.good hg
    have hid : id < kNatives.length := resolveCall_known hc
    have hk : c.named = [] := by
      cases hn : c.named with
      | nil => rfl
      | cons k ks => simp [hn, hr] at hkeys
    split at h
    · next hasync =>
      simp only [Emit.bind_ok, setHasAwait_ok, note_ok, emit_ok, Emit.pure_ok] at h
      obtain ⟨_, _, rfl, _, _, rfl, _, _, ⟨-, rfl⟩, -, rfl⟩ := h
      have g : Grows s₁ (s₁.awaits.addNote (.operands c.args.length)) :=
        (Grows.awaits s₁).trans (.addNote _ _)
      have hcall : Emission X _ _ (.atom (nativeAtom id c.args.length) c.loc) :=
        .native (hg₁.toWf.grows g) hid hle fun _ => rfl
      rw [if_pos hasync] at hcall
      exact ⟨_, ht.toEmission.seq ((Emission.of_grows g rfl).after_nil hcall),
        ⟨ht.locals_eq, ht.depth_eq, ht.loops_eq⟩, fun N P hN hP =>
        .callNative he hc hr hk (ht.later (g.trans hcall.toGrows) hN hP)⟩
    · next hasync =>
      simp only [Emit.bind_ok, note_ok, emit_ok, Emit.pure_ok] at h
      obtain ⟨_, _, rfl, _, _, ⟨-, rfl⟩, -, rfl⟩ := h
      have g : Grows s₁ (s₁.addNote (.operands c.args.length)) := .addNote _ _
      have hcall : Emission X _ _ (.atom (nativeAtom id c.args.length) c.loc) :=
        .native (hg₁.toWf.grows g) hid hle fun h => absurd h hasync
      rw [if_neg hasync] at hcall
      exact ⟨_, ht.toEmission.seq ((Emission.of_grows g rfl).after_nil hcall),
        ⟨ht.locals_eq, ht.depth_eq, ht.loops_eq⟩, fun N P hN hP =>
        .callNative he hc hr hk (ht.later (g.trans hcall.toGrows) hN hP)⟩

theorem emitModuleCall_spec {e : Expr} {c : CallExpr} {id : ℕ} {obj member : String}
    {args : Emit Unit} (he : e.asCall = some c)
    (hc : resolveCall X Γ c.loc c.object c.args.length c.named.length c.awaited =
      .ok (.modulo id obj member))
    (hargs : EmitsExpr X args (.exprs c.args)) (hg : s.Good) (hΓ : s.locals = Γ)
    (h : emitModuleCall c.loc id obj member c.args.length c.named args s = .ok ((), s')) :
    ∃ t, ExprDone X Γ (.expr e) t s s' := by
  cases hn : c.named with
  | cons k ks =>
    simp only [emitModuleCall, hn, Emit.bind_ok] at h
    obtain ⟨_, _, -, _, _, -, _, _, h, -⟩ := h
    exact absurd h Emit.error_ok
  | nil =>
    simp only [emitModuleCall, hn, Emit.bind_ok, emitConst_ok, Emit.guard_ok, setHasAwait_ok,
      note_ok, emit_ok, Emit.pure_ok, not_lt] at h
    obtain ⟨_, s₁, hs₁, _, s₂, hargs', -, -, hle, _, _, rfl, _, _, rfl, _, _, ⟨-, rfl⟩, -, rfl⟩ := h
    have hk : Emission X s s₁ (.atom (.const (.str obj)) c.loc) := by
      rw [← hs₁]
      exact .const hg.toWf _
    have hs : Stays s s₁ := by
      rw [← hs₁]
      exact ⟨rfl, rfl, rfl⟩
    have hg₁ := hg.grows hk.toGrows hs.locals_eq hs.depth_eq
    obtain ⟨t, ht⟩ := hargs Γ s₁ s₂ hg₁ (hs.locals_eq.trans hΓ) hargs'
    have g : Grows s₂ (s₂.awaits.addNote (.operands (c.args.length + 1))) :=
      (Grows.awaits s₂).trans (.addNote _ _)
    have hcall : Emission X _ _ (.atom (.callAsync id (c.args.length + 1)) c.loc) :=
      .atom ((ht.good hg₁).toWf.grows g) (.callAsync id (c.args.length + 1)) fun _ _ _ _ hK =>
        ⟨rfl, resolveCall_known hc, hle, hK.hasAwait rfl⟩
    have hs₂ : Stays s s₂ := hs.trans ht.toStays
    exact ⟨_, hk.seq (ht.toEmission.seq ((Emission.of_grows g rfl).after_nil hcall)),
      ⟨hs₂.1, hs₂.2, hs₂.3⟩, fun N P hN hP =>
      .modulo he hc hn (ht.later (g.trans hcall.toGrows) hN hP)⟩

/-- A call of something of the module, after its operands. -/
theorem Emission.callFunction {index argc : ℕ} (hw : s.Wf) (hX : X.Callable index argc) :
    Emission X s ((s.addNote (.operands argc)).push ⟨.callFunction, callOperand index argc, loc⟩)
      (.atom (.callFunction index argc) loc) :=
  (Emission.of_grows (.addNote s (.operands argc)) rfl).after_nil
    (.atom (hw.grows (.addNote s _)) (.callFunction index argc) fun K _ _ he hK =>
      ⟨rfl, he ▸ hX, hK.notes.subset (by simp [EmitState.addNote, EmitState.push])⟩)

theorem emitCallFunction_ok {index argc : ℕ} :
    emitCallFunction loc index argc s = .ok ((), s') ↔
      (s.addNote (.operands argc)).push ⟨.callFunction, callOperand index argc, loc⟩ = s' := by
  simp only [emitCallFunction, Emit.bind_ok, note_ok, emit_ok, Emit.pure_ok]
  constructor
  · rintro ⟨_, _, rfl, _, _, ⟨-, rfl⟩, -, rfl⟩
    rfl
  · rintro rfl
    exact ⟨(), _, rfl, _, _, ⟨rfl, rfl⟩, trivial, rfl⟩

theorem emitFnArgs_positional {name espera message : String} {sig : FnSig} {given : ℕ}
    {keys : List (String × SourceLoc × Expr)} {args : Emit Unit} {dflt : Expr → Emit Unit}
    (h : emitFnArgs loc name espera sig given (do
        args
        if let (_, kloc, _) :: _ := keys then Emit.error kloc message) dflt s = .ok ((), s')) :
    keys = [] ∧ emitFnArgs loc name espera sig given args dflt s = .ok ((), s') := by
  unfold emitFnArgs at h ⊢
  rw [Emit.bind_ok] at h ⊢
  obtain ⟨_, s₁, hargs, hrest⟩ := h
  obtain ⟨hargs, hk⟩ := positional_ok.1 hargs
  exact ⟨hk, _, s₁, hargs, hrest⟩

theorem Emitter.callable_function {name : String} {sig : FnSig}
    (h : (X.functions.getD []).lookup name = some sig) :
    X.Callable sig.index sig.defaults.length :=
  .inl ⟨name, sig, h, rfl, rfl⟩

/-- A call of a user function, whose missing arguments are filled in. -/
theorem emitFunctionCall_spec {e : Expr} {c : CallExpr} {name espera message message' : String}
    {sig : FnSig} {args : Emit Unit} {dflt : Expr → Emit Unit} (he : e.asCall = some c)
    (hc : resolveCall X Γ c.loc c.object c.args.length c.named.length c.awaited =
      .ok (.function name sig))
    (hargs : EmitsExpr X args (.exprs c.args)) (hd : ∀ e, EmitsExpr X (dflt e) (.expr e))
    (hg : s.Good) (hΓ : s.locals = Γ)
    (h : (do
      emitFnArgs c.loc name espera sig c.args.length (do
        args
        if let (_, kloc, _) :: _ := c.named then Emit.error kloc message) dflt
      if 255 < sig.defaults.length then Emit.error c.loc message'
      emitCallFunction c.loc sig.index sig.defaults.length) s = .ok ((), s')) :
    ∃ t, ExprDone X Γ (.expr e) t s s' := by
  simp only [Emit.bind_ok, Emit.guard_ok, emitCallFunction_ok] at h
  obtain ⟨_, s₁, hfn, -, rfl⟩ := h
  obtain ⟨hk, hfn⟩ := emitFnArgs_positional hfn
  obtain ⟨ds, t, u, hd⟩ := emitFnArgs_spec hargs hd hg hΓ hfn
  have hg₁ : s₁.Good := hg.grows hd.toGrows hd.locals_eq hd.depth_eq
  have hcall : Emission X s₁ _ (.atom (.callFunction sig.index sig.defaults.length) c.loc) :=
    .callFunction hg₁.toWf (Emitter.callable_function (resolveCall_known hc))
  refine ⟨_, hd.toEmission.seq hcall, ⟨hd.locals_eq, hd.depth_eq, hd.loops_eq⟩,
    fun N P hN hP => ?_⟩
  have hN₁ := List.Subset.trans hcall.notes.subset hN
  have hP₁ := hcall.plantillas.trans hP
  exact .function he hc hk hd.le hd.defaults (fun hne => hN₁ (hd.noted hne))
    (hd.given N P hN₁ hP₁) (hd.missing N P hN₁ hP₁)

theorem emitCtorCall_spec {e : Expr} {c : CallExpr} {name : String} {sig : ClassSig}
    {index : ℕ} {args : Emit Unit} (he : e.asCall = some c)
    (hc : resolveCall X Γ c.loc c.object c.args.length c.named.length c.awaited =
      .ok (.ctor name sig))
    (hk : c.named = []) (hi : sig.ctors.lookup c.args.length = some index)
    (hargs : EmitsExpr X args (.exprs c.args)) (hg : s.Good) (hΓ : s.locals = Γ)
    (hargs' : args s = .ok ((), s₁))
    (h : emitCallFunction c.loc index c.args.length s₁ = .ok ((), s')) :
    ∃ t, ExprDone X Γ (.expr e) t s s' := by
  obtain rfl := emitCallFunction_ok.1 h
  obtain ⟨t, ht⟩ := hargs Γ s s₁ hg hΓ hargs'
  have hcall : Emission X s₁ _ (.atom (.callFunction index c.args.length) c.loc) :=
    .callFunction (ht.good hg).toWf (.inr (.inr ⟨name, sig, resolveCall_known hc, hi⟩))
  exact ⟨_, ht.toEmission.seq hcall, ⟨ht.locals_eq, ht.depth_eq, ht.loops_eq⟩,
    fun N P hN hP => .ctor he hc hk hi (ht.later hcall.toGrows hN hP)⟩

/-- A call of a method whose class is known. -/
theorem emitMethodCall_spec {e o : Expr} {c : CallExpr} {type name full espera message : String}
    {sig : FnSig} {recv args : Emit Unit} {dflt : Expr → Emit Unit} (he : e.asCall = some c)
    (hc : resolveCall X Γ c.loc c.object c.args.length c.named.length c.awaited =
      .ok (.method type name sig)) (ho : c.object.receiver = some o)
    (hrecv : EmitsExpr X recv (.expr o)) (hargs : EmitsExpr X args (.exprs c.args))
    (hd : ∀ e, EmitsExpr X (dflt e) (.expr e)) (hg : s.Good) (hΓ : s.locals = Γ)
    (h : (do
      recv
      emitFnArgs c.loc full espera sig c.args.length (do
        args
        if let (_, kloc, _) :: _ := c.named then Emit.error kloc message) dflt
      emitCallFunction c.loc sig.index (sig.defaults.length + 1)) s = .ok ((), s')) :
    ∃ t, ExprDone X Γ (.expr e) t s s' := by
  simp only [Emit.bind_ok, emitCallFunction_ok] at h
  obtain ⟨_, s₀, hrecv', _, s₁, hfn, rfl⟩ := h
  obtain ⟨r, hr⟩ := hrecv Γ s s₀ hg hΓ hrecv'
  have hg₀ := hr.good hg
  obtain ⟨hk, hfn⟩ := emitFnArgs_positional hfn
  obtain ⟨ds, t, u, hd⟩ := emitFnArgs_spec hargs hd hg₀ (hr.locals_eq.trans hΓ) hfn
  have hg₁ : s₁.Good := hg₀.grows hd.toGrows hd.locals_eq hd.depth_eq
  obtain ⟨-, cls, hcls, hm⟩ := resolveCall_known hc
  have hcall : Emission X s₁ _
      (.atom (.callFunction sig.index (sig.defaults.length + 1)) c.loc) :=
    .callFunction hg₁.toWf (.inr (.inl ⟨type, cls, name, sig, hcls, hm, rfl, rfl⟩))
  have hs : Stays s s₁ := hr.toStays.trans hd.toStays
  refine ⟨_, (hr.toEmission.seq hd.toEmission).seq hcall, ⟨hs.1, hs.2, hs.3⟩,
    fun N P hN hP => ?_⟩
  have hN₁ := List.Subset.trans hcall.notes.subset hN
  have hP₁ := hcall.plantillas.trans hP
  exact .method he hc ho hk hd.le hd.defaults (fun hne => hN₁ (hd.noted hne))
    (hr.later hd.toGrows hN₁ hP₁) (hd.given N P hN₁ hP₁) (hd.missing N P hN₁ hP₁)

/-- The call of a method by its name, after its operands. -/
theorem emitCallMethod_spec {name : String} {argc : ℕ} (hw : s.Wf) (hle : argc ≤ 255)
    (h : (do
      note (.operands (argc + 1))
      let k ← addConstant (.str name)
      let _ ← emit .callMethod loc (callOperand k argc)) s = .ok ((), s')) :
    Emission X s s' (.atom (.callMethod name argc) loc) ∧ Stays s s' := by
  simp only [Emit.bind_ok, note_ok, addConstant_ok, emit_ok, Emit.pure_ok] at h
  obtain ⟨_, _, rfl, _, _, ⟨rfl, rfl⟩, _, _, ⟨-, rfl⟩, -, rfl⟩ := h
  have g : Grows s ((s.addNote (.operands (argc + 1))).addConst (.str name)) :=
    (Grows.addNote s _).trans (.addConst _ _)
  refine ⟨(Emission.of_grows g rfl).after_nil
    (.atom (hw.grows g) (.callMethod name argc) fun K _ _ _ hK => ⟨hle, ?_, _, rfl, ?_⟩),
    rfl, rfl, rfl⟩
  · exact hK.notes.subset (by simp [EmitState.addNote, EmitState.addConst, EmitState.push])
  · exact getElem?_extended hK.constants
      (by simp [EmitState.addNote, EmitState.addConst, EmitState.push])

/-- A call of a method that is found when the call is executed. -/
theorem emitMethodCallDynamic_spec {e o : Expr} {c : CallExpr} {name : String}
    {recv args named : Emit Unit} (he : e.asCall = some c)
    (hc : resolveCall X Γ c.loc c.object c.args.length c.named.length c.awaited =
      .ok (.dynamic name)) (ho : c.object.receiver = some o)
    (hrecv : EmitsExpr X recv (.expr o)) (hargs : EmitsExpr X args (.exprs c.args))
    (hnamed : EmitsExpr X named (.named c.named)) (hg : s.Good) (hΓ : s.locals = Γ)
    (h : emitMethodCallDynamic c.loc name c.args.length c.named.length recv args named s =
      .ok ((), s')) :
    ∃ t, ExprDone X Γ (.expr e) t s s' := by
  simp only [emitMethodCallDynamic, Emit.bind_ok] at h
  obtain ⟨_, s₀, hrecv', _, s₁, hargs', h⟩ := h
  obtain ⟨r, hr⟩ := hrecv Γ s s₀ hg hΓ hrecv'
  have hg₀ := hr.good hg
  obtain ⟨t, ht⟩ := hargs Γ s₀ s₁ hg₀ (hr.locals_eq.trans hΓ) hargs'
  have hg₁ := ht.good hg₀
  have hs₁ : Stays s s₁ := hr.toStays.trans ht.toStays
  cases hn : c.named with
  | nil =>
    simp only [hn, List.length_nil, lt_irrefl, if_false, Emit.guard_ok, not_lt] at h
    obtain ⟨hcall, hs⟩ := emitCallMethod_spec (X := X) hg₁.toWf h.1 h.2
    have hs' : Stays s s' := hs₁.trans hs
    exact ⟨_, (hr.toEmission.seq ht.toEmission).seq hcall, ⟨hs'.1, hs'.2, hs'.3⟩,
      fun N P hN hP => .dynamic he hc ho hn
        (hr.later (ht.toGrows.trans hcall.toGrows) hN hP) (ht.later hcall.toGrows hN hP)⟩
  | cons k ks =>
    have hpos : 0 < c.named.length := by simp [hn]
    simp only [hpos, if_true] at h
    rw [Emit.bind_ok] at h
    obtain ⟨_, s₃, hdict', h⟩ := h
    rw [Emit.guard_ok, not_lt] at h
    simp only [emitNamedDict, Emit.bind_ok, emit_ok, Emit.pure_ok] at hdict'
    obtain ⟨_, s₂, hnamed', _, _, ⟨-, rfl⟩, -, rfl⟩ := hdict'
    obtain ⟨u, hu⟩ := hnamed Γ s₁ s₂ hg₁ (hs₁.locals_eq.trans hΓ) hnamed'
    have hdict : Emission X s₂ _ (.atom (.makeDict c.named.length) c.loc) :=
      .makeDict (hu.good hg₁).toWf _
    obtain ⟨hcall, hs⟩ := emitCallMethod_spec (X := X) (hdict.wf (hu.good hg₁).toWf) h.1 h.2
    have hs₂ : Stays s s₂ := hs₁.trans hu.toStays
    have hs₃ : Stays s (s₂.push ⟨.makeDict, c.named.length, c.loc⟩) := ⟨hs₂.1, hs₂.2, hs₂.3⟩
    have hs' : Stays s s' := hs₃.trans hs
    have g : Grows s₂ s' := hdict.toGrows.trans hcall.toGrows
    exact ⟨_, (hr.toEmission.seq (ht.toEmission.seq (hu.toEmission.seq hdict))).seq hcall,
      ⟨hs'.1, hs'.2, hs'.3⟩, fun N P hN hP => .dynamicNamed he hc ho (by simp [hn])
        (hr.later (ht.toGrows.trans (hu.toGrows.trans g)) hN hP)
        (ht.later (hu.toGrows.trans g) hN hP) (hu.later g hN hP)⟩

theorem emitCall_spec {e : Expr} {c : CallExpr} {recv args named : Emit Unit}
    {dflt : Expr → Emit Unit} (he : e.asCall = some c)
    (hrecv : ∀ o, c.object.receiver = some o → EmitsExpr X recv (.expr o))
    (hargs : EmitsExpr X args (.exprs c.args)) (hnamed : EmitsExpr X named (.named c.named))
    (hd : ∀ e, EmitsExpr X (dflt e) (.expr e)) :
    EmitsExpr X (emitCall X c.loc c.object c.args c.named c.awaited recv args named dflt)
      (.expr e) := by
  intro Γ s s' hg hΓ h
  simp only [emitCall, Emit.bind_ok, getLocals_ok, Emit.lift_ok] at h
  obtain ⟨_, _, ⟨rfl, rfl⟩, callee, _, ⟨hc, rfl⟩, h⟩ := h
  rw [hΓ] at hc
  cases callee with
  | native id name => exact emitNativeCall_spec he hc hargs hnamed hg hΓ h
  | modulo id obj member => exact emitModuleCall_spec he hc hargs hg hΓ h
  | function name sig => exact emitFunctionCall_spec he hc hargs hd hg hΓ h
  | ctor name sig =>
    simp only [Emit.bind_ok] at h
    obtain ⟨_, s₁, hargs', h⟩ := h
    cases hk : c.named with
    | cons k ks =>
      rw [hk] at h
      obtain ⟨_, _, h, -⟩ := Emit.bind_ok.1 h
      exact absurd h Emit.error_ok
    | nil =>
      cases hi : sig.ctors.lookup c.args.length with
      | none =>
        simp only [hk, hi] at h
        exact absurd h Emit.error_ok
      | some index =>
        simp only [hk, hi] at h
        exact emitCtorCall_spec he hc hk hi hargs hg hΓ hargs' h
  | method type name sig =>
    obtain ⟨o, ho⟩ := Option.isSome_iff_exists.1 (resolveCall_known hc).1
    exact emitMethodCall_spec he hc ho (hrecv o ho) hargs hd hg hΓ h
  | dynamic name =>
    obtain ⟨o, ho⟩ := Option.isSome_iff_exists.1 (resolveCall_known hc)
    exact emitMethodCallDynamic_spec he hc ho (hrecv o ho) hargs hnamed hg hΓ h

end Calls

/-! ## Expressions -/

/-- The size of a piece of an expression, on which inductions go down. -/
noncomputable def ExprItem.size : ExprItem → ℕ
  | expr e => sizeOf e
  | exprs es => sizeOf es
  | entries es => sizeOf es
  | named es => sizeOf es

section Size

variable {loc mloc : SourceLoc} {name : String} {e c l r o i k v : Expr}

@[simp] theorem ExprItem.size_unary {op : UnOp} :
    (expr e).size < (expr (.unary loc op e)).size := by
  simp only [size, Expr.unary.sizeOf_spec]
  omega

@[simp] theorem ExprItem.size_logical {op : LogOp} :
    (expr l).size < (expr (.logical loc op l r)).size ∧
      (expr r).size < (expr (.logical loc op l r)).size := by
  simp only [size, Expr.logical.sizeOf_spec]
  omega

@[simp] theorem ExprItem.size_binary {op : BinOp} :
    (expr l).size < (expr (.binary loc op l r)).size ∧
      (expr r).size < (expr (.binary loc op l r)).size := by
  simp only [size, Expr.binary.sizeOf_spec]
  omega

@[simp] theorem ExprItem.size_ternary :
    (expr c).size < (expr (.ternary loc c l r)).size ∧
      (expr l).size < (expr (.ternary loc c l r)).size ∧
      (expr r).size < (expr (.ternary loc c l r)).size := by
  simp only [size, Expr.ternary.sizeOf_spec]
  omega

@[simp] theorem ExprItem.size_listLit {items : List Expr} :
    (exprs items).size < (expr (.listLit loc items)).size := by
  simp only [size, Expr.listLit.sizeOf_spec]
  omega

@[simp] theorem ExprItem.size_dictLit {es : List (Expr × Expr)} :
    (entries es).size < (expr (.dictLit loc es)).size := by
  simp only [size, Expr.dictLit.sizeOf_spec]
  omega

@[simp] theorem ExprItem.size_index :
    (expr o).size < (expr (.index loc o i)).size ∧
      (expr i).size < (expr (.index loc o i)).size := by
  simp only [size, Expr.index.sizeOf_spec]
  omega

@[simp] theorem ExprItem.size_member : (expr o).size < (expr (.member loc o name)).size := by
  simp only [size, Expr.member.sizeOf_spec]
  omega

@[simp] theorem ExprItem.size_stepMember {kind : StepKind} {op : StepOp} :
    (expr o).size < (expr (.step loc kind op (.member mloc o name))).size := by
  simp only [size, Expr.step.sizeOf_spec, Expr.member.sizeOf_spec]
  omega

@[simp] theorem ExprItem.size_stepIndex {kind : StepKind} {op : StepOp} :
    (expr o).size < (expr (.step loc kind op (.index mloc o i))).size ∧
      (expr i).size < (expr (.step loc kind op (.index mloc o i))).size := by
  simp only [size, Expr.step.sizeOf_spec, Expr.index.sizeOf_spec]
  omega

@[simp] theorem ExprItem.size_exprs {es : List Expr} :
    (expr e).size < (exprs (e :: es)).size ∧ (exprs es).size < (exprs (e :: es)).size := by
  simp only [size, List.cons.sizeOf_spec]
  omega

@[simp] theorem ExprItem.size_entries {es : List (Expr × Expr)} :
    (expr k).size < (entries ((k, v) :: es)).size ∧
      (expr v).size < (entries ((k, v) :: es)).size ∧
      (entries es).size < (entries ((k, v) :: es)).size := by
  simp only [size, List.cons.sizeOf_spec, Prod.mk.sizeOf_spec]
  omega

@[simp] theorem ExprItem.size_named {es : List (String × SourceLoc × Expr)} :
    (expr v).size < (named ((name, loc, v) :: es)).size ∧
      (named es).size < (named ((name, loc, v) :: es)).size := by
  simp only [size, List.cons.sizeOf_spec, Prod.mk.sizeOf_spec]
  omega

end Size

theorem ExprItem.induction {P : ExprItem → Prop}
    (h : ∀ item, (∀ item' : ExprItem, item'.size < item.size → P item') → P item)
    (item : ExprItem) : P item :=
  (measure ExprItem.size).wf.induction item h

/-- The emission of a piece of an expression. -/
def emitItem (X : Emitter) (dflt : Expr → Emit Unit) : ExprItem → Emit Unit
  | .expr e => emitExprWith X dflt e
  | .exprs es => emitExprsWith X dflt es
  | .entries es => emitEntriesWith X dflt es
  | .named es => emitNamedWith X dflt es

section Expressions

variable {X : Emitter} {dflt : Expr → Emit Unit}

theorem Expr.receiver_size {object o : Expr} (h : object.receiver = some o) :
    sizeOf o < sizeOf object := by
  cases object with
  | member loc recv name =>
    cases h
    rw [Expr.member.sizeOf_spec]
    omega
  | _ => cases h

/-- The emission of the receiver of a call, if it has one. -/
def emitReceiver (X : Emitter) (dflt : Expr → Emit Unit) : Expr → Emit Unit
  | .member _ recv _ => emitExprWith X dflt recv
  | _ => pure ()

theorem emitExprWith_call {e : Expr} {c : CallExpr} (he : e.asCall = some c) :
    emitExprWith X dflt e = emitCall X c.loc c.object c.args c.named c.awaited
      (emitReceiver X dflt c.object) (emitExprsWith X dflt c.args)
      (emitNamedWith X dflt c.named) dflt := by
  cases e with
  | call loc object args named =>
    cases he
    cases object <;> rfl
  | await loc lhs =>
    cases lhs with
    | call cloc object args named =>
      cases he
      cases object <;> rfl
    | _ => cases he
  | _ => cases he

/-- The parts of a call are smaller than the call. -/
structure CallExpr.Within (c : CallExpr) (e : Expr) : Prop where
  receiver : ∀ o, c.object.receiver = some o → sizeOf o < sizeOf e
  args : sizeOf c.args < sizeOf e
  named : sizeOf c.named < sizeOf e

theorem Expr.asCall_within {e : Expr} {c : CallExpr} (he : e.asCall = some c) : c.Within e := by
  cases e with
  | call loc object args named =>
    cases he
    refine ⟨fun o ho => ?_, ?_, ?_⟩
    · have : sizeOf o < sizeOf object := Expr.receiver_size ho
      rw [Expr.call.sizeOf_spec]
      omega
    · show sizeOf args < _
      rw [Expr.call.sizeOf_spec]
      omega
    · show sizeOf named < _
      rw [Expr.call.sizeOf_spec]
      omega
  | await loc lhs =>
    cases lhs with
    | call cloc object args named =>
      cases he
      refine ⟨fun o ho => ?_, ?_, ?_⟩
      · have : sizeOf o < sizeOf object := Expr.receiver_size ho
        rw [Expr.await.sizeOf_spec, Expr.call.sizeOf_spec]
        omega
      · show sizeOf args < _
        rw [Expr.await.sizeOf_spec, Expr.call.sizeOf_spec]
        omega
      · show sizeOf named < _
        rw [Expr.await.sizeOf_spec, Expr.call.sizeOf_spec]
        omega
    | _ => cases he
  | _ => cases he

theorem emitCallExpr_spec (hd : ∀ e, EmitsExpr X (dflt e) (.expr e)) {e : Expr} {c : CallExpr}
    (he : e.asCall = some c)
    (ih : ∀ item : ExprItem, item.size < sizeOf e → EmitsExpr X (emitItem X dflt item) item) :
    EmitsExpr X (emitExprWith X dflt e) (.expr e) := by
  have hc := Expr.asCall_within he
  rw [emitExprWith_call he]
  refine emitCall_spec he (fun o ho => ?_) (ih (.exprs c.args) hc.args)
    (ih (.named c.named) hc.named) hd
  have hrecv := ih (.expr o) (hc.receiver o ho)
  cases hobj : c.object with
  | member mloc recv name =>
    rw [hobj] at ho
    cases ho
    exact hrecv
  | _ =>
    rw [hobj] at ho
    cases ho

theorem EmitsExpr.error {loc : SourceLoc} {message : String} {item : ExprItem} :
    EmitsExpr X (Emit.error loc message) item :=
  fun _ _ _ _ _ h => absurd h Emit.error_ok

theorem emitStep_spec {loc tloc : SourceLoc} {kind : StepKind} {op : StepOp}
    {name message : String} :
    EmitsExpr X (do
      match resolveLocal (← getLocals) name with
      | some slot => emitStepLocal loc kind op slot
      | none => Emit.error tloc message) (.expr (.step loc kind op (.ident tloc name))) := by
  intro Γ s s' hg hΓ h
  simp only [Emit.bind_ok, getLocals_ok] at h
  obtain ⟨_, _, ⟨rfl, rfl⟩, h⟩ := h
  cases hs : resolveLocal s.locals name with
  | none =>
    rw [hs] at h
    exact absurd h Emit.error_ok
  | some slot =>
    rw [hs] at h
    have hl := emitStepLocal_spec (X := X) ((resolveLocal_lt hs).trans_le hg.slots) h hg.toWf
      (.refl s)
    exact ⟨_, hl.toEmission, ⟨hl.locals_eq, hl.depth_eq, hl.loops_eq⟩,
      fun _ _ _ _ => .stepLocal (hΓ ▸ hs)⟩

theorem emitItem_spec (hd : ∀ e, EmitsExpr X (dflt e) (.expr e)) (item : ExprItem) :
    EmitsExpr X (emitItem X dflt item) item := by
  induction item using ExprItem.induction with
  | h item ih =>
  cases item with
  | expr e =>
    rw [emitItem]
    cases e with
    | stringLit loc text =>
      rw [emitExprWith]
      exact emitConst_spec (e := .stringLit loc text) rfl
    | intLit loc value =>
      rw [emitExprWith]
      exact emitConst_spec (e := .intLit loc value) rfl
    | floatLit loc value =>
      rw [emitExprWith]
      exact emitConst_spec (e := .floatLit loc value) rfl
    | boolLit loc value =>
      rw [emitExprWith]
      exact emitConst_spec (e := .boolLit loc value) rfl
    | nullLit loc =>
      rw [emitExprWith]
      exact emitConst_spec (e := .nullLit loc) rfl
    | ident loc name =>
      rw [emitExprWith]
      exact emitLoad_spec (e := .ident loc name) rfl
    | this loc =>
      rw [emitExprWith]
      exact emitLoad_spec (e := .this loc) rfl
    | unary loc op e =>
      rw [emitExprWith]
      have he := ih (.expr e) (by simp)
      exact he.andThen (a := .op (if op = .not then .not else .neg))
        (fun _ hw => .op hw (by cases op <;> decide)) fun _ _ _ _ ht => .unary ht
    | logical loc op l r =>
      rw [emitExprWith]
      exact emitLogical_spec (ih (.expr l) (by simp))
        (ih (.expr r) (by simp))
    | binary loc op l r =>
      rw [emitExprWith]
      exact emitBinary_spec (ih (.expr l) (by simp))
        (ih (.expr r) (by simp))
    | ternary loc c l r =>
      rw [emitExprWith]
      exact emitTernary_spec (ih (.expr c) (by simp))
        (ih (.expr l) (by simp))
        (ih (.expr r) (by simp))
    | listLit loc items =>
      rw [emitExprWith]
      exact (ih (.exprs items) (by simp)).andThen (a := .makeList items.length)
        (fun _ hw => .makeList hw _) fun _ _ _ _ ht => .listLit ht
    | dictLit loc entries =>
      rw [emitExprWith]
      exact (ih (.entries entries) (by simp)).andThen
        (a := .makeDict entries.length) (fun _ hw => .makeDict hw _)
        fun _ _ _ _ ht => .dictLit ht
    | index loc o i =>
      rw [emitExprWith]
      exact emitIndex_spec (ih (.expr o) (by simp))
        (ih (.expr i) (by simp))
    | member loc o name =>
      rw [emitExprWith]
      exact emitMember_spec (ih (.expr o) (by simp))
    | call loc object args named => exact emitCallExpr_spec hd rfl ih
    | await loc lhs =>
      cases lhs with
      | call cloc object args named => exact emitCallExpr_spec hd rfl ih
      | _ => exact EmitsExpr.error
    | step loc kind op target =>
      cases target with
      | ident tloc name =>
        rw [emitExprWith]
        exact emitStep_spec
      | member tloc o name =>
        rw [emitExprWith]
        exact emitStepMember_spec (ih (.expr o) (by simp))
      | index tloc o i =>
        rw [emitExprWith]
        exact emitStepIndex_spec (ih (.expr o) (by simp))
          (ih (.expr i) (by simp))
      | _ => exact EmitsExpr.error
  | exprs es =>
    rw [emitItem]
    cases es with
    | nil => exact emitNil_spec fun _ _ _ => .exprsNil
    | cons e es =>
      exact (ih (.expr e) (by simp)).seq
        (ih (.exprs es) (by simp)) fun _ _ _ _ _ ht hu => .exprsCons ht hu
  | entries es =>
    rw [emitItem]
    cases es with
    | nil => exact emitNil_spec fun _ _ _ => .entriesNil
    | cons e es =>
      obtain ⟨k, v⟩ := e
      exact emitEntry_spec (ih (.expr k) (by simp))
        (ih (.expr v) (by simp))
        (ih (.entries es) (by simp))
  | named es =>
    rw [emitItem]
    cases es with
    | nil => exact emitNil_spec fun _ _ _ => .namedNil
    | cons e es =>
      obtain ⟨name, loc, v⟩ := e
      exact emitNamedArg_spec (ih (.expr v) (by simp))
        (ih (.named es) (by simp))

/-- An expression that is emitted is emitted to its tree. -/
theorem emitExpr_spec (fuel : ℕ) (e : Expr) : EmitsExpr X (emitExpr X fuel e) (.expr e) := by
  induction fuel generalizing e with
  | zero => exact EmitsExpr.error
  | succ fuel ih => exact emitItem_spec ih (.expr e)

/-! ### Requirements -/

/-- What a `require`, or a guard of a group, is emitted to. -/
structure RequireDone (X : Emitter) (Γ : List Local) (loc : SourceLoc) (c o : Expr) (t u : Tree)
    (s s' : EmitState) : Prop
    extends Emission X s s' (.seq t (.unless (.seq u (.ret loc)) loc)), Stays s s' where
  cond : ∀ N P, s'.notes ⊆ N → s'.plantillas <+: P → ExprTree X N P Γ (.expr c) t
  otherwise : ∀ N P, s'.notes ⊆ N → s'.plantillas <+: P → ExprTree X N P Γ (.expr o) u

theorem emitRequire_spec {Γ : List Local} {s s' : EmitState} {loc : SourceLoc} {c o : Expr}
    {mc mo : Emit Unit} (hc : EmitsExpr X mc (.expr c)) (ho : EmitsExpr X mo (.expr o))
    (hg : s.Good) (hΓ : s.locals = Γ) (h : emitRequire loc mc mo s = .ok ((), s')) :
    ∃ t u, RequireDone X Γ loc c o t u s s' := by
  simp only [emitRequire, Emit.bind_ok, emit_ok, here_ok, patch_ok] at h
  obtain ⟨_, s₁, hc', _, _, ⟨rfl, rfl⟩, _, _, ⟨rfl, rfl⟩, _, _, ⟨rfl, rfl⟩, _, _, rfl, _, s₂, ho',
    _, _, ⟨-, rfl⟩, _, _, ⟨rfl, rfl⟩, rfl⟩ := h
  simp only [EmitState.here_push] at ho' ⊢
  obtain ⟨t, ht⟩ := hc Γ s s₁ hg hΓ hc'
  have hg₁ := ht.good hg
  have g : Grows s₁ (((s₁.push ⟨.jumpIfFalse, 0, loc⟩).push ⟨.jump, 0, loc⟩).patch s₁.here
      (s₁.here + 2)) := ((Grows.push s₁ _).trans (.push _ _)).patch le_rfl _
  have hg₂ := hg₁.grows g rfl rfl
  obtain ⟨u, hu⟩ := ho Γ _ s₂ hg₂ (ht.locals_eq.trans hΓ) ho'
  have hret : Emission X s₂ _ (.ret loc) := .ret (hu.good hg₂).toWf
  have hreq := Emission.unless hg₁.toWf (hu.toEmission.seq hret)
  rw [EmitState.here_push] at hreq
  exact ⟨t, u, ht.toEmission.seq hreq, ⟨hu.locals_eq.trans ht.locals_eq,
    hu.depth_eq.trans ht.depth_eq, hu.loops_eq.trans ht.loops_eq⟩,
    fun N P hN hP => ht.later hreq.toGrows hN hP, fun N P hN hP => hu.tree N P hN hP⟩

end Expressions

/-! ### Parameters -/

/-- The locals that parameters are declared to, the last one first. -/
def paramLocals (params : List Param) : List Local :=
  (params.map fun p => ⟨.user p.name, 0, p.type⟩).reverse

theorem declareParams_place {params : List Param} {s s' : EmitState} (hg : s.Good)
    (hd : s.scopeDepth = 0) (h : declareParams params s = .ok ((), s')) :
    s'.Good ∧ s'.scopeDepth = 0 ∧ s'.locals = paramLocals params ++ s.locals := by
  induction params generalizing s with
  | nil =>
    obtain ⟨-, rfl⟩ := Emit.pure_ok.1 h
    exact ⟨hg, hd, rfl⟩
  | cons p ps ih =>
    obtain ⟨_, s₁, h₁, h₂⟩ := Emit.bind_ok.1 h
    obtain ⟨-, -, rfl⟩ := declareLocal_ok.1 h₁
    obtain ⟨hg', hd', hl⟩ := ih (hg.declare (.user p.name) p.type) hd h₂
    refine ⟨hg', hd', hl.trans ?_⟩
    simp [paramLocals, EmitState.declare, hd]

end Osodio.Odio
