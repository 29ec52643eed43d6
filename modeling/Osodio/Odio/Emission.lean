import Osodio.Odio.Layout
import Osodio.Odio.Program

/-!
# What the emitter emits

An emission that succeeds has emitted the tree of its source.  The pieces that
expressions consist of come first, each with the emission of its parts given.

## Main definitions

- `EmitState.Good` — the locals of a state fit its scopes and its chunk
- `EmitsExpr` — an emission gives the tree of a piece of an expression

## Main results

- `emitTernary_spec`, `emitMember_spec`, `emitStepIndex_spec`, `emitFnArgs_spec`, … — one
  lemma for each function of the emitter
-/

namespace Osodio.Odio

/-! ## Running an emission -/

theorem Emit.bind_ok {α β : Type} {x : Emit α} {f : α → Emit β} {s s' : EmitState} {b : β} :
    (x >>= f) s = .ok (b, s') ↔ ∃ a s₁, x s = .ok (a, s₁) ∧ f a s₁ = .ok (b, s') := by
  have he : (x >>= f) s = (x s).bind fun r => f r.1 r.2 := rfl
  rw [he]
  cases x s with
  | error d => simp [Except.bind]
  | ok r =>
    obtain ⟨a, s₁⟩ := r
    simp [Except.bind]

theorem Emit.pure_ok {α : Type} {a b : α} {s s' : EmitState} :
    (pure a : Emit α) s = .ok (b, s') ↔ a = b ∧ s = s' := by
  have he : (pure a : Emit α) s = .ok (a, s) := rfl
  rw [he, Except.ok.injEq, Prod.mk.injEq]

/-- A check that ends the emission with a diagnostic. -/
theorem Emit.guard_ok {β : Type} {c : Prop} [Decidable c] {loc : SourceLoc} {message : String}
    {f : Unit → Emit β} {m : Emit β} {s s' : EmitState} {b : β} :
    (if c then Emit.error loc message >>= f else m) s = .ok (b, s') ↔
      ¬ c ∧ m s = .ok (b, s') := by
  by_cases hc : c
  · have he : (Emit.error loc message >>= f) s = .error ⟨loc, message⟩ := rfl
    simp [hc, he]
  · simp [hc]

theorem Emit.error_ok {α : Type} {loc : SourceLoc} {message : String} {s s' : EmitState}
    {a : α} : ¬ (Emit.error loc message : Emit α) s = .ok (a, s') := by
  intro h
  cases h

theorem Emit.lift_ok {α : Type} {r : Except Diagnostic α} {s s' : EmitState} {a : α} :
    Emit.lift r s = .ok (a, s') ↔ r = .ok a ∧ s = s' := by
  cases r with
  | error d => simp [Emit.lift, Except.map]
  | ok b => simp [Emit.lift, Except.map]

/-! ## The primitives -/

namespace EmitState

/-- The state with one more constant. -/
def addConst (s : EmitState) (v : Value) : EmitState :=
  { s with chunk := { s.chunk with constants := s.chunk.constants ++ [v] } }

def addNote (s : EmitState) (n : Note) : EmitState := { s with notes := s.notes ++ [n] }

def awaits (s : EmitState) : EmitState := { s with chunk := { s.chunk with hasAwait := true } }

/-- The state with a new local, in a slot of its own. -/
def declare (s : EmitState) (name : LocalName) (type : String) : EmitState :=
  { s with
    locals := ⟨name, s.scopeDepth, type⟩ :: s.locals
    chunk := { s.chunk with numLocals := max s.chunk.numLocals (s.locals.length + 1) } }

def addPlant (s : EmitState) (p : Plantilla) : EmitState :=
  { s with plantillas := s.plantillas ++ [p] }

def openScope (s : EmitState) : EmitState := { s with scopeDepth := s.scopeDepth + 1 }

def closeScope (s : EmitState) : EmitState :=
  { s with
    scopeDepth := s.scopeDepth - 1
    locals := s.locals.dropWhile fun l => decide (s.scopeDepth - 1 < l.depth) }

@[simp] theorem here_addConst (s : EmitState) (v : Value) : (s.addConst v).here = s.here := rfl

@[simp] theorem here_addNote (s : EmitState) (n : Note) : (s.addNote n).here = s.here := rfl

@[simp] theorem here_awaits (s : EmitState) : s.awaits.here = s.here := rfl

@[simp] theorem here_declare (s : EmitState) (name : LocalName) (type : String) :
    (s.declare name type).here = s.here := rfl

@[simp] theorem here_openScope (s : EmitState) : s.openScope.here = s.here := rfl

@[simp] theorem here_closeScope (s : EmitState) : s.closeScope.here = s.here := rfl

end EmitState

section Primitives

variable {s s' : EmitState} {u : Unit} {n : ℕ} {loc : SourceLoc}

theorem emit_ok {op : Op} {k : ℕ} :
    emit op loc k s = .ok (n, s') ↔ s.here = n ∧ s.push ⟨op, k, loc⟩ = s' := by
  simp [emit, EmitState.here, EmitState.push]

theorem here_ok : here s = .ok (n, s') ↔ s.here = n ∧ s = s' := by
  simp [here, EmitState.here]

theorem patch_ok {pos target : ℕ} :
    patch pos target s = .ok (u, s') ↔ s.patch pos target = s' := by
  simp [patch, EmitState.patch]

theorem patchAll_ok {positions : List ℕ} {target : ℕ} :
    patchAll positions target s = .ok (u, s') ↔ s.patchAll positions target = s' := by
  simp [patchAll, EmitState.patchAll]

theorem addConstant_ok {v : Value} :
    addConstant v s = .ok (n, s') ↔ s.chunk.constants.length = n ∧ s.addConst v = s' := by
  simp [addConstant, EmitState.addConst]

theorem emitConst_ok {v : Value} : emitConst v loc s = .ok (u, s') ↔
    (s.addConst v).push ⟨.const, s.chunk.constants.length, loc⟩ = s' := by
  simp only [emitConst, Emit.bind_ok, addConstant_ok, emit_ok, Emit.pure_ok]
  constructor
  · rintro ⟨_, _, ⟨rfl, rfl⟩, _, _, ⟨-, rfl⟩, -, rfl⟩
    rfl
  · rintro rfl
    exact ⟨_, _, ⟨rfl, rfl⟩, _, _, ⟨rfl, rfl⟩, trivial, rfl⟩

theorem addTryRange_ok {r : TryRange} : addTryRange r s = .ok (u, s') ↔ s.addTry r = s' := by
  simp [addTryRange, EmitState.addTry]

theorem setHasAwait_ok : setHasAwait s = .ok (u, s') ↔ s.awaits = s' := by
  simp [setHasAwait, EmitState.awaits]

theorem addPlantilla_ok {p : Plantilla} : addPlantilla p s = .ok (n, s') ↔
    s.plantillas.length + 1 < 2 ^ 63 ∧ s.plantillas.length = n ∧ s.addPlant p = s' := by
  unfold addPlantilla
  split
  · next h => simp; omega
  · next h => simp [EmitState.addPlant]; omega

theorem note_ok {m : Note} : note m s = .ok (u, s') ↔ s.addNote m = s' := by
  simp [note, EmitState.addNote]

theorem declareLocal_ok {name : LocalName} {type : String} :
    declareLocal name loc type s = .ok (n, s') ↔
      declaredInScope name s.scopeDepth s.locals = false ∧ s.locals.length = n ∧
        s.declare name type = s' := by
  unfold declareLocal
  split
  · next h => simp [h]
  · next h => simp [h, EmitState.declare]

theorem emitAux_ok {name : String} : emitAux name loc s = .ok (n, s') ↔
    declaredInScope (.aux name) s.scopeDepth s.locals = false ∧ s.locals.length = n ∧
      (s.declare (.aux name) "").push ⟨.storeLocal, s.locals.length, loc⟩ = s' := by
  simp only [emitAux, Emit.bind_ok, declareLocal_ok, emit_ok, Emit.pure_ok]
  constructor
  · rintro ⟨_, _, ⟨h, rfl, rfl⟩, _, _, ⟨-, rfl⟩, rfl, rfl⟩
    exact ⟨h, rfl, rfl⟩
  · rintro ⟨h, rfl, rfl⟩
    exact ⟨_, _, ⟨h, rfl, rfl⟩, _, _, ⟨rfl, rfl⟩, rfl, rfl⟩

theorem beginScope_ok : beginScope s = .ok (u, s') ↔ s.openScope = s' := by
  simp [beginScope, EmitState.openScope]

theorem endScope_ok : endScope s = .ok (u, s') ↔ s.closeScope = s' := by
  simp [endScope, EmitState.closeScope]

theorem getLocals_ok {ls : List Local} :
    getLocals s = .ok (ls, s') ↔ s.locals = ls ∧ s = s' := by
  simp [getLocals]

theorem pushLoop_ok : pushLoop s = .ok (u, s') ↔ s.enter = s' := by
  simp [pushLoop, EmitState.enter]

theorem popLoop_ok : popLoop s = .ok (u, s') ↔ s.leave = s' := by
  simp [popLoop, EmitState.leave]

theorem currentLoop_ok {l : Option LoopCtx} :
    currentLoop s = .ok (l, s') ↔ s.loops.head? = l ∧ s = s' := by
  simp [currentLoop]

end Primitives

/-! ## States that fit -/

/-- The positions of a state lie in its code, its locals in the slots of its chunk
    and in its scopes. -/
structure EmitState.Good (s : EmitState) : Prop extends s.Wf where
  depth : ∀ l ∈ s.locals, l.depth ≤ s.scopeDepth
  slots : s.locals.length ≤ s.chunk.numLocals

theorem EmitState.Good.grows {s s' : EmitState} (hg : s.Good) (h : Grows s s')
    (hl : s'.locals = s.locals) (hd : s'.scopeDepth = s.scopeDepth) : s'.Good where
  toWf := hg.toWf.grows h
  depth := by
    rw [hl, hd]
    exact hg.depth
  slots := by
    rw [hl]
    exact hg.slots.trans h.numLocals

theorem EmitState.Good.declare {s : EmitState} (hg : s.Good) (name : LocalName)
    (type : String) : (s.declare name type).Good where
  loops := hg.loops
  tries := hg.tries
  depth l hl := by
    rcases List.mem_cons.1 hl with rfl | hl
    · exact le_rfl
    · exact hg.depth l hl
  slots := le_max_right _ _

theorem EmitState.Good.openScope {s : EmitState} (hg : s.Good) : s.openScope.Good where
  loops := hg.loops
  tries := hg.tries
  depth l hl := (hg.depth l hl).trans (Nat.le_succ _)
  slots := hg.slots

/-- What a scope declared is forgotten with it. -/
theorem dropWhile_scope {Γ Δ : List Local} {d : ℕ} (hΓ : ∀ l ∈ Γ, l.depth ≤ d)
    (hΔ : ∀ l ∈ Δ, d < l.depth) :
    (Δ ++ Γ).dropWhile (fun l => decide (d < l.depth)) = Γ := by
  rw [List.dropWhile_append_of_pos fun l hl => decide_eq_true (hΔ l hl)]
  cases Γ with
  | nil => rfl
  | cons l Γ =>
    have := hΓ l (by simp)
    exact List.dropWhile_cons_of_neg (by simpa using this)

section Growth

variable {X : Emitter} {s s' : EmitState}

theorem Grows.addConst (s : EmitState) (v : Value) : Grows s (s.addConst v) :=
  ⟨⟨⟨[v], rfl⟩, le_rfl, id, List.prefix_rfl, List.prefix_rfl⟩, List.prefix_rfl, .refl _ _ _,
    .refl _ _ _⟩

theorem Grows.addNote (s : EmitState) (n : Note) : Grows s (s.addNote n) :=
  ⟨⟨List.prefix_rfl, le_rfl, id, List.prefix_rfl, ⟨[n], rfl⟩⟩, List.prefix_rfl, .refl _ _ _,
    .refl _ _ _⟩

theorem Grows.awaits (s : EmitState) : Grows s s.awaits :=
  ⟨⟨List.prefix_rfl, le_rfl, fun _ => rfl, List.prefix_rfl, List.prefix_rfl⟩,
    List.prefix_rfl, .refl _ _ _, .refl _ _ _⟩

theorem Grows.declare (s : EmitState) (name : LocalName) (type : String) :
    Grows s (s.declare name type) :=
  ⟨⟨List.prefix_rfl, le_max_left _ _, id, List.prefix_rfl, List.prefix_rfl⟩,
    List.prefix_rfl, .refl _ _ _, .refl _ _ _⟩

theorem Grows.addPlant (s : EmitState) (p : Plantilla) : Grows s (s.addPlant p) :=
  ⟨⟨List.prefix_rfl, le_rfl, id, ⟨[p], rfl⟩, List.prefix_rfl⟩, List.prefix_rfl,
    .refl _ _ _, .refl _ _ _⟩

theorem Grows.openScope (s : EmitState) : Grows s s.openScope :=
  ⟨⟨List.prefix_rfl, le_rfl, id, List.prefix_rfl, List.prefix_rfl⟩, List.prefix_rfl,
    .refl _ _ _, .refl _ _ _⟩

theorem Grows.closeScope (s : EmitState) : Grows s s.closeScope :=
  ⟨⟨List.prefix_rfl, le_rfl, id, List.prefix_rfl, List.prefix_rfl⟩, List.prefix_rfl,
    .refl _ _ _, .refl _ _ _⟩

end Growth

/-! ## Pieces of expressions -/

/-- An expression leaves the scopes and the loops as they are. -/
structure Stays (s s' : EmitState) : Prop where
  locals_eq : s'.locals = s.locals
  depth_eq : s'.scopeDepth = s.scopeDepth
  loops_eq : s'.loops = s.loops

theorem Stays.trans {s₁ s₂ s₃ : EmitState} (h : Stays s₁ s₂) (h' : Stays s₂ s₃) :
    Stays s₁ s₃ :=
  ⟨h'.locals_eq.trans h.locals_eq, h'.depth_eq.trans h.depth_eq, h'.loops_eq.trans h.loops_eq⟩

/-- What was emitted from `s` to `s'` is the tree `t` of a piece of an expression. -/
structure ExprDone (X : Emitter) (Γ : List Local) (item : ExprItem) (t : Tree)
    (s s' : EmitState) : Prop extends Emission X s s' t, Stays s s' where
  tree : ∀ N P, s'.notes ⊆ N → s'.plantillas <+: P → ExprTree X N P Γ item t

/-- An emission that succeeds emits a piece of an expression. -/
def EmitsExpr (X : Emitter) (m : Emit Unit) (item : ExprItem) : Prop :=
  ∀ Γ s s', s.Good → s.locals = Γ → m s = .ok ((), s') → ∃ t, ExprDone X Γ item t s s'

section Expressions

variable {X : Emitter} {Γ : List Local} {item : ExprItem} {s s₁ s' : EmitState} {t : Tree}
  {loc : SourceLoc}

theorem ExprDone.good (h : ExprDone X Γ item t s s₁) (hg : s.Good) : s₁.Good :=
  hg.grows h.toGrows h.locals_eq h.depth_eq

/-- The tree does not depend on what is emitted later. -/
theorem ExprDone.later (h : ExprDone X Γ item t s s₁) (g : Grows s₁ s') {N : List Note}
    {P : List Plantilla} (hN : s'.notes ⊆ N) (hP : s'.plantillas <+: P) :
    ExprTree X N P Γ item t :=
  h.tree N P (List.Subset.trans g.notes.subset hN) (g.plantillas.trans hP)

theorem Emission.const (hw : s.Wf) (v : Value) : Emission X s
    ((s.addConst v).push ⟨.const, s.chunk.constants.length, loc⟩) (.atom (.const v) loc) := by
  have hw' : (s.addConst v).Wf := hw.grows (.addConst s v)
  refine (Emission.of_grows (.addConst s v) rfl).after_nil (.atom hw' (.const v) ?_)
  intro K lt nest _ hc
  have h : s.chunk.constants ++ [v] <+: K.chunk.constants := hc.constants
  obtain ⟨rest, hrest⟩ := h
  simp [Atom.Encodes, ← hrest]

theorem Emission.op {o : Op} (hw : s.Wf) (ho : o.arity.isSome) :
    Emission X s (s.push ⟨o, 0, loc⟩) (.atom (.op o) loc) :=
  .atom hw (.op o) fun _ _ _ _ _ => ⟨rfl, ho⟩

theorem Emission.load {slot : ℕ} (hw : s.Wf) (hs : slot < s.chunk.numLocals) :
    Emission X s (s.push ⟨.loadLocal, slot, loc⟩) (.atom (.loadLocal slot) loc) :=
  .atom hw (.loadLocal slot) fun _ _ _ _ hc => ⟨rfl, hs.trans_le hc.numLocals⟩

theorem Emission.store {slot : ℕ} (hw : s.Wf) (hs : slot < s.chunk.numLocals) :
    Emission X s (s.push ⟨.storeLocal, slot, loc⟩) (.atom (.storeLocal slot) loc) :=
  .atom hw (.storeLocal slot) fun _ _ _ _ hc => ⟨rfl, hs.trans_le hc.numLocals⟩

theorem Emission.pop (hw : s.Wf) : Emission X s (s.push ⟨.pop, 0, loc⟩) (.atom .pop loc) :=
  .atom hw .pop fun _ _ _ _ _ => rfl

theorem resolveLocal_lt {name : String} {slot : ℕ} (h : resolveLocal Γ name = some slot) :
    slot < Γ.length := by
  unfold resolveLocal at h
  induction Γ with
  | nil => cases h
  | cons l Γ ih =>
    simp only [findLocal] at h
    split at h
    · obtain rfl : Γ.length = slot := by simpa using h
      simp
    · exact (ih h).trans (Nat.lt_succ_self _)

theorem StepOp.arity (op : StepOp) : op.op.arity.isSome := by
  cases op <;> decide

theorem binaryOp_arity (ints : Bool) (op : BinOp) : (binaryOp ints op).arity.isSome := by
  cases ints <;> cases op <;> decide

/-! ### Literals and names -/

theorem emitConst_spec {e : Expr} {v : Value} (h : e.literal = some v) :
    EmitsExpr X (emitConst v e.loc) (.expr e) := by
  intro Γ s s' hg _ hr
  simp only [emitConst, Emit.bind_ok, addConstant_ok, emit_ok, Emit.pure_ok] at hr
  obtain ⟨_, _, ⟨rfl, rfl⟩, _, _, ⟨rfl, rfl⟩, -, rfl⟩ := hr
  exact ⟨_, .const hg.toWf v, ⟨rfl, rfl, rfl⟩, fun _ _ _ _ => .literal h⟩

theorem emitLoad_spec {e : Expr} {name : String} {missing : String}
    (h : e.localName = some name) : EmitsExpr X (emitLoad name e.loc missing) (.expr e) := by
  intro Γ s s' hg hΓ hr
  simp only [emitLoad, Emit.bind_ok, getLocals_ok] at hr
  obtain ⟨_, _, ⟨rfl, rfl⟩, hr⟩ := hr
  cases hs : resolveLocal s.locals name with
  | none =>
    rw [hs] at hr
    exact absurd hr Emit.error_ok
  | some slot =>
    simp only [hs, Emit.bind_ok, emit_ok, Emit.pure_ok] at hr
    obtain ⟨_, _, ⟨rfl, rfl⟩, -, rfl⟩ := hr
    have hlt := (resolveLocal_lt hs).trans_le hg.slots
    exact ⟨_, .load hg.toWf hlt, ⟨rfl, rfl, rfl⟩, fun _ _ _ _ => .local h (hΓ ▸ hs)⟩

/-! ### Operators -/

theorem Emission.makeList (hw : s.Wf) (n : ℕ) :
    Emission X s (s.push ⟨.makeList, n, loc⟩) (.atom (.makeList n) loc) :=
  .atom hw (.makeList n) fun _ _ _ _ _ => rfl

theorem Emission.makeDict (hw : s.Wf) (n : ℕ) :
    Emission X s (s.push ⟨.makeDict, n, loc⟩) (.atom (.makeDict n) loc) :=
  .atom hw (.makeDict n) fun _ _ _ _ _ => rfl

/-- A piece of an expression, and then an operation on what it leaves. -/
theorem EmitsExpr.andThen {m : Emit Unit} {item' : ExprItem} {a : Atom} {k : ℕ}
    (hm : EmitsExpr X m item)
    (ha : ∀ s : EmitState, s.Wf → Emission X s (s.push ⟨a.code, k, loc⟩) (.atom a loc))
    (ht : ∀ N P Γ t, ExprTree X N P Γ item t → ExprTree X N P Γ item' (t.andThen a loc)) :
    EmitsExpr X (do m; let _ ← emit a.code loc k) item' := by
  intro Γ s s' hg hΓ hr
  simp only [Emit.bind_ok, emit_ok, Emit.pure_ok] at hr
  obtain ⟨_, s₁, hm', _, _, ⟨rfl, rfl⟩, -, rfl⟩ := hr
  obtain ⟨t, h⟩ := hm Γ s s₁ hg hΓ hm'
  exact ⟨_, h.toEmission.seq (ha s₁ (h.good hg).toWf), ⟨h.locals_eq, h.depth_eq, h.loops_eq⟩,
    fun N P hN hP => ht N P Γ t (h.tree N P hN hP)⟩

theorem emitLogical_spec {op : LogOp} {l r : Expr} {ml mr : Emit Unit}
    (hl : EmitsExpr X ml (.expr l)) (hr : EmitsExpr X mr (.expr r)) :
    EmitsExpr X (do
      ml
      let j ← emit (if op = .and then .jumpIfFalsePeek else .jumpIfTruePeek) loc
      mr
      patch j (← here)) (.expr (.logical loc op l r)) := by
  intro Γ s s' hg hΓ h
  simp only [Emit.bind_ok, emit_ok, here_ok, patch_ok] at h
  obtain ⟨_, s₁, hl', _, _, ⟨rfl, rfl⟩, _, s₂, hr', _, _, ⟨rfl, rfl⟩, rfl⟩ := h
  obtain ⟨t, ht⟩ := hl Γ s s₁ hg hΓ hl'
  have hg₁ := ht.good hg
  obtain ⟨u, hu⟩ := hr Γ _ s₂ (hg₁.grows (.push _ _) rfl rfl) (ht.locals_eq.trans hΓ) hr'
  have g₂ : Grows s₁ s₂ := (Grows.push _ _).trans hu.toGrows
  refine ⟨_, ht.toEmission.seq (.peek hg₁.toWf hu.toEmission), ?_, fun N P hN hP => ?_⟩
  · exact ⟨hu.locals_eq.trans ht.locals_eq, hu.depth_eq.trans ht.depth_eq,
      hu.loops_eq.trans ht.loops_eq⟩
  · exact .logical (ht.later g₂ hN hP) (hu.tree N P hN hP)

theorem emitBinary_spec {op : BinOp} {l r : Expr} {ml mr : Emit Unit}
    (hl : EmitsExpr X ml (.expr l)) (hr : EmitsExpr X mr (.expr r)) :
    EmitsExpr X (do
      ml
      mr
      let locals ← getLocals
      let _ ← emit (binaryOp (esInt locals l && esInt locals r) op) loc)
      (.expr (.binary loc op l r)) := by
  intro Γ s s' hg hΓ h
  simp only [Emit.bind_ok, emit_ok, getLocals_ok, Emit.pure_ok] at h
  obtain ⟨_, s₁, hl', _, s₂, hr', _, _, ⟨rfl, rfl⟩, _, _, ⟨rfl, rfl⟩, -, rfl⟩ := h
  obtain ⟨t, ht⟩ := hl Γ s s₁ hg hΓ hl'
  have hg₁ := ht.good hg
  have hΓ₁ : s₁.locals = Γ := ht.locals_eq.trans hΓ
  obtain ⟨u, hu⟩ := hr Γ s₁ s₂ hg₁ hΓ₁ hr'
  have hΓ₂ : s₂.locals = Γ := hu.locals_eq.trans hΓ₁
  refine ⟨_, ht.toEmission.seq (hu.toEmission.seq (.op (hu.good hg₁).toWf
    (binaryOp_arity _ op))), ?_, fun N P hN hP => ?_⟩
  · exact ⟨hu.locals_eq.trans ht.locals_eq, hu.depth_eq.trans ht.depth_eq,
      hu.loops_eq.trans ht.loops_eq⟩
  · rw [hΓ₂]
    exact .binary (ht.later hu.toGrows hN hP) (hu.tree N P hN hP)

theorem emitIndex_spec {o i : Expr} {mo mi : Emit Unit}
    (ho : EmitsExpr X mo (.expr o)) (hi : EmitsExpr X mi (.expr i)) :
    EmitsExpr X (do
      mo
      mi
      let _ ← emit .getIndex loc) (.expr (.index loc o i)) := by
  intro Γ s s' hg hΓ h
  simp only [Emit.bind_ok, emit_ok, Emit.pure_ok] at h
  obtain ⟨_, s₁, ho', _, s₂, hi', _, _, ⟨rfl, rfl⟩, -, rfl⟩ := h
  obtain ⟨t, ht⟩ := ho Γ s s₁ hg hΓ ho'
  have hg₁ := ht.good hg
  obtain ⟨u, hu⟩ := hi Γ s₁ s₂ hg₁ (ht.locals_eq.trans hΓ) hi'
  refine ⟨_, ht.toEmission.seq (hu.toEmission.seq (.op (hu.good hg₁).toWf (by decide))), ?_,
    fun N P hN hP => ?_⟩
  · exact ⟨hu.locals_eq.trans ht.locals_eq, hu.depth_eq.trans ht.depth_eq,
      hu.loops_eq.trans ht.loops_eq⟩
  · exact .index (ht.later hu.toGrows hN hP) (hu.tree N P hN hP)

theorem emitTernary_spec {c l r : Expr} {mc ml mr : Emit Unit}
    (hc : EmitsExpr X mc (.expr c)) (hl : EmitsExpr X ml (.expr l))
    (hr : EmitsExpr X mr (.expr r)) :
    EmitsExpr X (do
      mc
      let toElse ← emit .jumpIfFalse loc
      ml
      let toEnd ← emit .jump loc
      patch toElse (← here)
      mr
      patch toEnd (← here)) (.expr (.ternary loc c l r)) := by
  intro Γ s s' hg hΓ h
  simp only [Emit.bind_ok, emit_ok, here_ok, patch_ok] at h
  obtain ⟨_, s₁, hc', _, _, ⟨rfl, rfl⟩, _, s₂, hl', _, _, ⟨rfl, rfl⟩, _, _, ⟨rfl, rfl⟩, _, _,
    rfl, _, s₃, hr', _, _, ⟨rfl, rfl⟩, rfl⟩ := h
  rw [EmitState.here_push] at hr'
  obtain ⟨t, ht⟩ := hc Γ s s₁ hg hΓ hc'
  have hg₁ := ht.good hg
  have g₁ := Grows.push s₁ ⟨.jumpIfFalse, 0, loc⟩
  obtain ⟨u, hu⟩ := hl Γ _ s₂ (hg₁.grows g₁ rfl rfl) (ht.locals_eq.trans hΓ) hl'
  have g₂ : Grows s₁ ((s₂.push ⟨.jump, 0, loc⟩).patch s₁.here (s₂.here + 1)) :=
    ((g₁.trans hu.toGrows).trans (.push _ _)).patch le_rfl _
  have hg₂ := hg₁.grows g₂ hu.locals_eq hu.depth_eq
  obtain ⟨v, hv⟩ := hr Γ _ s₃ hg₂ (hu.locals_eq.trans (ht.locals_eq.trans hΓ)) hr'
  have g₃ : Grows s₁ s₃ := g₂.trans hv.toGrows
  refine ⟨_, ht.toEmission.seq (.cond hg₁.toWf hu.toEmission hv.toEmission), ?_,
    fun N P hN hP => ?_⟩
  · exact ⟨hv.locals_eq.trans (hu.locals_eq.trans ht.locals_eq),
      hv.depth_eq.trans (hu.depth_eq.trans ht.depth_eq),
      hv.loops_eq.trans (hu.loops_eq.trans ht.loops_eq)⟩
  · have hN₂ : s₂.notes ⊆ N := List.Subset.trans hv.notes.subset hN
    have hP₂ : s₂.plantillas <+: P := hv.plantillas.trans hP
    exact .ternary (ht.later g₃ hN hP) (hu.tree N P hN₂ hP₂) (hv.tree N P hN hP)

/-! ### Members -/

theorem Emission.callNative {id argc : ℕ} (hw : s.Wf) (hid : id < kNatives.length)
    (hargc : argc ≤ 255) (ha : (nativeAt id).isAsync → .unawaited ∈ s.notes) :
    Emission X s (s.push ⟨.callNative, callOperand id argc, loc⟩)
      (.atom (.callNative id argc) loc) :=
  .atom hw (.callNative id argc) fun _ _ _ _ hc =>
    ⟨rfl, hid, hargc, fun h => hc.notes.subset (ha h)⟩

theorem Emission.callNative_sync {id argc : ℕ} (hw : s.Wf) (hid : id < kNatives.length)
    (hargc : argc ≤ 255) (ha : (nativeAt id).isAsync = false) :
    Emission X s (s.push ⟨.callNative, callOperand id argc, loc⟩)
      (.atom (.callNative id argc) loc) :=
  .callNative hw hid hargc fun h => by simp [ha] at h

/-- A constant of a name that the next instruction uses. -/
theorem Emission.named (hw : s.Wf) {a : Atom} {name : String}
    (ha : ∀ K : Context, K.chunk.constants[s.chunk.constants.length]? = some (.str name) →
      a.Encodes K s.chunk.constants.length) :
    Emission X s ((s.addConst (.str name)).push ⟨a.code, s.chunk.constants.length, loc⟩)
      (.atom a loc) := by
  have hw' : (s.addConst (.str name)).Wf := hw.grows (.addConst s _)
  refine (Emission.of_grows (.addConst s _) rfl).after_nil (.atom hw' a ?_)
  intro K lt nest _ hc
  have h : s.chunk.constants ++ [.str name] <+: K.chunk.constants := hc.constants
  obtain ⟨rest, hrest⟩ := h
  exact ha K (by simp [← hrest])

theorem emitMember_spec {o : Expr} {name : String} {mo : Emit Unit}
    (ho : EmitsExpr X mo (.expr o)) :
    EmitsExpr X (emitMember X loc o name mo) (.expr (.member loc o name)) := by
  intro Γ s s' hg hΓ h
  simp only [emitMember, Emit.bind_ok, getLocals_ok] at h
  obtain ⟨_, _, ⟨rfl, rfl⟩, h⟩ := h
  rw [hΓ] at h
  split at h
  · next hs =>
    simp only [emitConst, Emit.bind_ok, addConstant_ok, emit_ok, Emit.pure_ok] at h
    obtain ⟨_, _, ⟨_, _, ⟨rfl, rfl⟩, _, _, ⟨rfl, rfl⟩, -, rfl⟩, _, _, ⟨rfl, rfl⟩, -, rfl⟩ := h
    have h₁ : Emission X s _ (.atom (.const (.str name)) loc) := .const hg.toWf _
    have h₂ : Emission X _ _ (.atom (.callNative sessionGetId 1) loc) :=
      .callNative_sync (hg.toWf.grows h₁.toGrows) (by decide) (by decide) (by decide)
    exact ⟨_, h₁.seq h₂, ⟨rfl, rfl, rfl⟩, fun _ _ _ _ => .sessionGet hs.1 hs.2⟩
  · cases hr : reservedObject Γ o with
    | some obj =>
      cases hid : memberNativeId obj name with
      | none =>
        simp only [hr, hid] at h
        exact absurd h Emit.error_ok
      | some id =>
        simp only [hr, hid] at h
        rw [Emit.guard_ok, Emit.bind_ok] at h
        obtain ⟨-, _, _, hobj, h⟩ := h
        obtain ⟨-, rfl⟩ := Emit.lift_ok.1 hobj
        have hlt := memberNativeId_lt hid
        split at h
        · next ha =>
          simp only [Emit.bind_ok, note_ok, emit_ok, Emit.pure_ok] at h
          obtain ⟨_, _, rfl, _, _, ⟨rfl, rfl⟩, -, rfl⟩ := h
          have h₁ : Emission X (s.addNote .unawaited) _ (.atom (.callNative id 0) loc) :=
            .callNative (hg.toWf.grows (.addNote s .unawaited)) hlt (by decide)
              fun _ => by simp [EmitState.addNote]
          exact ⟨_, (Emission.of_grows (.addNote s .unawaited) rfl).after_nil h₁,
            ⟨rfl, rfl, rfl⟩, fun N _ hN _ => .memberNative hr hid fun _ =>
              hN (by simp [EmitState.addNote, EmitState.push])⟩
        · next ha =>
          simp only [Emit.bind_ok, emit_ok, Emit.pure_ok] at h
          obtain ⟨_, _, ⟨rfl, rfl⟩, -, rfl⟩ := h
          exact ⟨_, .callNative hg.toWf hlt (by decide) fun h => absurd h ha, ⟨rfl, rfl, rfl⟩,
            fun N _ hN _ => .memberNative hr hid fun h => absurd h ha⟩
    | none =>
      simp only [hr, Emit.bind_ok, addConstant_ok, emit_ok, Emit.pure_ok] at h
      obtain ⟨_, _, hcampo, _, s₁, ho', _, _, ⟨rfl, rfl⟩, _, _, ⟨rfl, rfl⟩, -, rfl⟩ := h
      obtain ⟨-, rfl⟩ := Emit.lift_ok.1 hcampo
      obtain ⟨t, ht⟩ := ho Γ s s₁ hg hΓ ho'
      exact ⟨_, ht.toEmission.seq (.named (ht.good hg).toWf (a := .getMember name)
        fun K hK => hK), ⟨ht.locals_eq, ht.depth_eq, ht.loops_eq⟩,
        fun N P hN hP => .member hr (ht.tree N P hN hP)⟩

/-! ### Straight code -/

theorem Emission.wf (h : Emission X s s' t) (hw : s.Wf) : s'.Wf := hw.grows h.toGrows

theorem getElem?_extended {α : Type} {l l' : List α} {k : ℕ} {v : α} (h : l <+: l')
    (hk : l[k]? = some v) : l'[k]? = some v := by
  obtain ⟨rest, rfl⟩ := h
  rw [List.getElem?_append_left (List.getElem?_eq_some_iff.1 hk).1, hk]

/-- From `s` to `s'` the atoms `as` were emitted, and the locals `Δ` declared. -/
structure Line (X : Emitter) (loc : SourceLoc) (as : List Atom) (Δ : List Local)
    (s s' : EmitState) : Prop extends Emission X s s' (.atoms loc as) where
  locals_eq : s'.locals = Δ ++ s.locals
  depth_eq : s'.scopeDepth = s.scopeDepth
  loops_eq : s'.loops = s.loops

/-- The same, from any state that has what `r` has. -/
def Straight (X : Emitter) (r : EmitState) (loc : SourceLoc) (as : List Atom) (Δ : List Local)
    (s s' : EmitState) : Prop :=
  s.Wf → Retains r s → Line X loc as Δ s s'

section Straight

variable {r : EmitState} {as : List Atom} {Δ : List Local} {k : ℕ}

theorem Straight.nil (e : s = s') : Straight X r loc [] [] s s' := by
  intro _ _
  subst e
  exact ⟨.refl s, rfl, rfl, rfl⟩

/-- One atom, emitted to `s₁`, and the rest. -/
theorem Straight.cons {a : Atom} (hs : Stays s s₁)
    (ha : s.Wf → Retains r s → Emission X s s₁ (.atom a loc))
    (has : Straight X r loc as Δ s₁ s') : Straight X r loc (a :: as) Δ s s' := by
  intro hw hr
  have h₁ := ha hw hr
  have h₂ := has (h₁.wf hw) (hr.trans h₁.toRetains)
  exact ⟨h₁.seq h₂.toEmission, h₂.locals_eq.trans (congrArg _ hs.locals_eq),
    h₂.depth_eq.trans hs.depth_eq, h₂.loops_eq.trans hs.loops_eq⟩

theorem Straight.push {a : Atom} (e : s.push ⟨a.code, k, loc⟩ = s₁)
    (ha : s.Wf → Retains r s → Emission X s (s.push ⟨a.code, k, loc⟩) (.atom a loc))
    (has : Straight X r loc as Δ s₁ s') : Straight X r loc (a :: as) Δ s s' := by
  subst e
  have hs : Stays s (s.push ⟨a.code, k, loc⟩) := ⟨rfl, rfl, rfl⟩
  exact .cons hs ha has

theorem Straight.load (hk : k < r.chunk.numLocals) (e : s.push ⟨.loadLocal, k, loc⟩ = s₁)
    (has : Straight X r loc as Δ s₁ s') : Straight X r loc (.loadLocal k :: as) Δ s s' :=
  .push e (fun hw hr => .load hw (hk.trans_le hr.numLocals)) has

theorem Straight.store (hk : k < r.chunk.numLocals) (e : s.push ⟨.storeLocal, k, loc⟩ = s₁)
    (has : Straight X r loc as Δ s₁ s') : Straight X r loc (.storeLocal k :: as) Δ s s' :=
  .push e (fun hw hr => .store hw (hk.trans_le hr.numLocals)) has

theorem Straight.op {o : Op} (ho : o.arity.isSome) (e : s.push ⟨o, 0, loc⟩ = s₁)
    (has : Straight X r loc as Δ s₁ s') : Straight X r loc (.op o :: as) Δ s s' :=
  .push e (fun hw _ => .op hw ho) has

theorem Straight.pop (e : s.push ⟨.pop, 0, loc⟩ = s₁) (has : Straight X r loc as Δ s₁ s') :
    Straight X r loc (.pop :: as) Δ s s' :=
  .push e (fun hw _ => .pop hw) has

theorem Straight.callNative {id argc : ℕ} (hid : id < kNatives.length) (hargc : argc ≤ 255)
    (ha : (nativeAt id).isAsync = false)
    (e : s.push ⟨.callNative, callOperand id argc, loc⟩ = s₁)
    (has : Straight X r loc as Δ s₁ s') : Straight X r loc (.callNative id argc :: as) Δ s s' :=
  .push e (fun hw _ => .callNative_sync hw hid hargc ha) has

theorem Straight.const {v : Value}
    (e : (s.addConst v).push ⟨.const, s.chunk.constants.length, loc⟩ = s₁)
    (has : Straight X r loc as Δ s₁ s') : Straight X r loc (.const v :: as) Δ s s' := by
  subst e
  have hs : Stays s ((s.addConst v).push ⟨.const, s.chunk.constants.length, loc⟩) :=
    ⟨rfl, rfl, rfl⟩
  exact .cons hs (fun hw _ => .const hw v) has

theorem Straight.getMember {name : String} (hk : r.chunk.constants[k]? = some (.str name))
    (e : s.push ⟨.getMember, k, loc⟩ = s₁) (has : Straight X r loc as Δ s₁ s') :
    Straight X r loc (.getMember name :: as) Δ s s' :=
  .push (a := .getMember name) e (fun hw hr => .atom hw _ fun _ _ _ _ hc =>
    getElem?_extended (hr.constants.trans hc.constants) hk) has

theorem Straight.setMember {name : String} (hk : r.chunk.constants[k]? = some (.str name))
    (e : s.push ⟨.setMember, k, loc⟩ = s₁) (has : Straight X r loc as Δ s₁ s') :
    Straight X r loc (.setMember name :: as) Δ s s' :=
  .push (a := .setMember name) e (fun hw hr => .atom hw _ fun _ _ _ _ hc =>
    getElem?_extended (hr.constants.trans hc.constants) hk) has

theorem EmitState.declare_slot (s : EmitState) (name : LocalName) (type : String) :
    s.locals.length < (s.declare name type).chunk.numLocals :=
  Nat.lt_of_lt_of_le (Nat.lt_succ_self _) (le_max_right _ _)

/-- A new slot, and the value that it takes. -/
theorem Emission.declareStore (hw : s.Wf) (name : LocalName) (type : String) :
    Emission X s ((s.declare name type).push ⟨.storeLocal, s.locals.length, loc⟩)
      (.atom (.storeLocal s.locals.length) loc) :=
  (Emission.of_grows (.declare s name type) rfl).after_nil
    (.store (hw.grows (.declare s name type)) (s.declare_slot name type))

theorem Straight.declare {name : LocalName} {type : String}
    (e : (s.declare name type).push ⟨.storeLocal, s.locals.length, loc⟩ = s₁)
    (has : Retains r s₁ → s.locals.length < s₁.chunk.numLocals →
      Straight X s₁ loc as Δ s₁ s') :
    Straight X r loc (.storeLocal s.locals.length :: as) (Δ ++ [⟨name, s.scopeDepth, type⟩])
      s s' := by
  subst e
  intro hw hr
  have h₁ : Emission X s _ (.atom (.storeLocal s.locals.length) loc) :=
    .declareStore hw name type
  have h₂ := has (hr.trans h₁.toRetains) (s.declare_slot name type) (h₁.wf hw) (.refl _)
  refine ⟨h₁.seq h₂.toEmission, ?_, h₂.depth_eq, h₂.loops_eq⟩
  rw [h₂.locals_eq, List.append_assoc]
  rfl

end Straight

/-! ### Steps -/

theorem emitStepLocal_spec {kind : StepKind} {op : StepOp} {slot : ℕ}
    (hs : slot < s.chunk.numLocals) (h : emitStepLocal loc kind op slot s = .ok ((), s')) :
    Straight X s loc (stepLocalAtoms kind op slot) [] s s' := by
  cases kind with
  | pre =>
    simp only [emitStepLocal, reduceCtorEq, if_false, if_true, Emit.bind_ok, emitConst_ok,
      emit_ok, Emit.pure_ok] at h
    obtain ⟨_, _, ⟨-, e₁⟩, _, _, e₂, _, _, ⟨-, e₃⟩, _, _, ⟨-, e₄⟩, _, _, ⟨-, e₅⟩, -, e₆⟩ := h
    exact .load hs e₁ (.const e₂ (.op op.arity e₃ (.store hs e₄ (.load hs e₅ (.nil e₆)))))
  | post =>
    simp only [emitStepLocal, reduceCtorEq, if_false, if_true, Emit.bind_ok, emitConst_ok,
      emit_ok, Emit.pure_ok] at h
    obtain ⟨_, _, ⟨-, e₁⟩, _, _, ⟨-, e₂⟩, _, _, e₃, _, _, ⟨-, e₄⟩, _, _, ⟨-, e₅⟩, -, e₆⟩ := h
    exact .load hs e₁ (.load hs e₂ (.const e₃ (.op op.arity e₄ (.store hs e₅ (.nil e₆)))))

theorem emitStepResult_spec {r : EmitState} {kind : StepKind} {prev : ℕ}
    (hp : prev < r.chunk.numLocals) (h : emitStepResult loc kind prev s = .ok ((), s')) :
    Straight X r loc (stepResultAtoms kind prev) [] s s' := by
  cases kind with
  | pre =>
    simp only [emitStepResult, reduceCtorEq, if_false, Emit.pure_ok, true_and] at h
    exact .nil h
  | post =>
    simp only [emitStepResult, if_true, Emit.bind_ok, emit_ok, Emit.pure_ok] at h
    obtain ⟨_, _, ⟨-, e₁⟩, _, _, ⟨-, e₂⟩, -, e₃⟩ := h
    exact .pop e₁ (.load hp e₂ (.nil e₃))

/-- Closing a scope that declared `Δ`. -/
theorem closeScope_locals {Δ Γ : List Local} {d : ℕ} (hΓ : ∀ l ∈ Γ, l.depth ≤ d)
    (hl : s'.locals = Δ ++ Γ) (hΔ : ∀ l ∈ Δ, l.depth = d + 1) (hd : s'.scopeDepth = d + 1) :
    s'.closeScope.locals = Γ := by
  have hd' : s'.scopeDepth - 1 = d := by omega
  show s'.locals.dropWhile _ = _
  rw [hl, hd']
  refine dropWhile_scope hΓ fun l hl => ?_
  rw [hΔ l hl]
  exact Nat.lt_succ_self _

theorem closeScope_stays {Δ : List Local} (hg : s.Good) (hl : s'.locals = Δ ++ s.locals)
    (hΔ : ∀ l ∈ Δ, l.depth = s.scopeDepth + 1) (hd : s'.scopeDepth = s.scopeDepth + 1)
    (hloops : s'.loops = s.loops) : Stays s s'.closeScope where
  locals_eq := closeScope_locals hg.depth hl hΔ hd
  depth_eq := by
    show s'.scopeDepth - 1 = s.scopeDepth
    omega
  loops_eq := hloops

theorem emitStepMember_spec {kind : StepKind} {op : StepOp} {o : Expr} {name : String}
    {tloc : SourceLoc} {mo : Emit Unit} (ho : EmitsExpr X mo (.expr o)) :
    EmitsExpr X (emitStepMember loc kind op name mo)
      (.expr (.step loc kind op (.member tloc o name))) := by
  intro Γ s s' hg hΓ h
  simp only [emitStepMember, Emit.bind_ok, emitConst_ok, emitAux_ok, beginScope_ok,
    addConstant_ok, emit_ok, endScope_ok] at h
  obtain ⟨_, s₀, b₀, _, _, ⟨n₀, b₁⟩, _, s₁, ho', _, s₂, ⟨-, n₁, e₁⟩, _, s₃, ⟨-, e₂⟩, _, s₄,
    ⟨-, e₃⟩, _, s₅, ⟨-, n₂, e₄⟩, _, s₆, ⟨-, e₅⟩, _, s₇, ⟨-, e₆⟩, _, s₈, e₇, _, s₉, ⟨-, e₈⟩, _,
    s₁₀, ⟨-, e₉⟩, _, s₁₁, hres, hend⟩ := h
  subst b₀ n₀ b₁ n₁ n₂ hend
  have hg₀ : (s.openScope.addConst (.str name)).Good := hg.openScope.grows (.addConst _ _) rfl rfl
  obtain ⟨t, ht⟩ := ho Γ _ s₁ hg₀ hΓ ho'
  have hΓ₁ : s₁.locals = Γ := ht.locals_eq.trans hΓ
  have hd : s₁.scopeDepth = s.scopeDepth + 1 := ht.depth_eq
  have hk : s₁.chunk.constants[s.chunk.constants.length]? = some (.str name) :=
    getElem?_extended ht.constants (by simp [EmitState.addConst, EmitState.openScope])
  have hline : Straight X s₁ loc (stepMemberAtoms kind op name s₁.locals.length)
      ([] ++ [auxLocal s₄.scopeDepth "previo"] ++ [auxLocal s₁.scopeDepth "recep"])
      s₁ s₁₁ := by
    refine .declare e₁ fun hr₂ hobj => .load hobj e₂ (.getMember ?_ e₃ ?_)
    · exact getElem?_extended hr₂.constants hk
    have hn : s₄.locals.length = s₁.locals.length + 1 := by
      subst e₃ e₂ e₁
      rfl
    rw [← hn]
    refine .declare e₄ fun hr₅ hprev => ?_
    have hobj' := hobj.trans_le hr₅.numLocals
    exact .load hobj' e₅ (.load hprev e₆ (.const e₇ (.op op.arity e₈
      (.setMember (getElem?_extended (hr₂.trans hr₅).constants hk) e₉
        (emitStepResult_spec hprev hres)))))
  have hbegin : Emission X s (s.openScope.addConst (.str name)) .nil :=
    .of_grows ((Grows.openScope s).trans (.addConst _ _)) rfl
  have hl := hline (ht.good hg₀).toWf (.refl _)
  have hd₄ : s₄.scopeDepth = s₁.scopeDepth := by
    subst e₃ e₂ e₁
    rfl
  refine ⟨_, (hbegin.after_nil (ht.toEmission.seq hl.toEmission)).before_nil
    (.of_grows (.closeScope s₁₁) rfl), ?_, fun N P hN hP => ?_⟩
  · refine closeScope_stays hg (hl.locals_eq.trans (congrArg _ (hΓ₁.trans hΓ.symm))) ?_
      (hl.depth_eq.trans hd) (hl.loops_eq.trans ht.loops_eq)
    simp [auxLocal, hd, hd₄]
  · rw [hΓ₁]
    exact .stepMember (ht.later (hl.toGrows.trans (.closeScope s₁₁)) hN hP)

theorem emitStepIndex_spec {kind : StepKind} {op : StepOp} {o i : Expr} {tloc : SourceLoc}
    {mo mi : Emit Unit} (ho : EmitsExpr X mo (.expr o)) (hi : EmitsExpr X mi (.expr i)) :
    EmitsExpr X (emitStepIndex loc kind op mo mi)
      (.expr (.step loc kind op (.index tloc o i))) := by
  intro Γ s s' hg hΓ h
  simp only [emitStepIndex, Emit.bind_ok, emitConst_ok, emitAux_ok, beginScope_ok,
    emit_ok, endScope_ok] at h
  obtain ⟨_, s₀, b₀, _, s₁, ho', _, s₂, ⟨-, n₁, e₁⟩, _, s₃, hi', _, s₄, ⟨-, n₂, e₂⟩, _, s₅,
    ⟨-, e₃⟩, _, s₆, ⟨-, e₄⟩, _, s₇, ⟨-, e₅⟩, _, s₈, ⟨-, n₃, e₆⟩, _, s₉, ⟨-, e₇⟩, _, s₁₀, ⟨-, e₈⟩,
    _, s₁₁, ⟨-, e₉⟩, _, s₁₂, f₁, _, s₁₃, ⟨-, f₂⟩, _, s₁₄, ⟨-, f₃⟩, _, s₁₅, hres, hend⟩ := h
  subst b₀ n₁ n₂ n₃ e₁ hend
  obtain ⟨t, ht⟩ := ho Γ _ s₁ hg.openScope hΓ ho'
  have hg₁ := ht.good hg.openScope
  have hΓ₁ : s₁.locals = Γ := ht.locals_eq.trans hΓ
  have hd : s₁.scopeDepth = s.scopeDepth + 1 := ht.depth_eq
  have hcont : Emission X s₁ _ (.atom (.storeLocal s₁.locals.length) loc) :=
    .declareStore hg₁.toWf (.aux "contened") ""
  have hg₂ := (hg₁.declare (.aux "contened") "").grows
    (.push _ ⟨.storeLocal, s₁.locals.length, loc⟩) rfl rfl
  obtain ⟨u, hu⟩ := hi (auxLocal s₁.scopeDepth "contened" :: Γ) _ s₃ hg₂ (congrArg _ hΓ₁) hi'
  have hΓ₃ : s₃.locals = auxLocal s₁.scopeDepth "contened" :: Γ :=
    hu.locals_eq.trans (congrArg _ hΓ₁)
  have hd₃ : s₃.scopeDepth = s₁.scopeDepth := hu.depth_eq
  have hn₁ : s₁.locals.length = Γ.length := congrArg _ hΓ₁
  have hn₃ : s₃.locals.length = Γ.length + 1 := by rw [hΓ₃, List.length_cons]
  have hn₇ : s₇.locals.length = s₃.locals.length + 1 := by
    subst e₅ e₄ e₃ e₂
    rfl
  have hcont₃ : s₁.locals.length < s₃.chunk.numLocals := by
    have := (hu.good hg₂).slots
    omega
  have hline : Straight X s₃ loc ([.storeLocal s₃.locals.length, .loadLocal s₁.locals.length,
      .loadLocal s₃.locals.length, .op .getIndex, .storeLocal s₇.locals.length,
      .loadLocal s₁.locals.length, .loadLocal s₃.locals.length, .loadLocal s₇.locals.length,
      .const (.int 1), .op op.op, .op .setIndex] ++ stepResultAtoms kind s₇.locals.length)
      ([] ++ [auxLocal s₇.scopeDepth "previo"] ++ [auxLocal s₃.scopeDepth "indice"])
      s₃ s₁₅ := by
    refine .declare e₂ fun hr₄ hidx => .load (hcont₃.trans_le hr₄.numLocals) e₃
      (.load hidx e₄ (.op (by decide) e₅ (.declare e₆ fun hr₈ hprev => ?_)))
    have hcont₈ := hcont₃.trans_le (hr₄.trans hr₈).numLocals
    exact .load hcont₈ e₇ (.load (hidx.trans_le hr₈.numLocals) e₈ (.load hprev e₉ (.const f₁
      (.op op.arity f₂ (.op (by decide) f₃ (emitStepResult_spec hprev hres))))))
  have hl := hline (hu.good hg₂).toWf (.refl _)
  have hd₇ : s₇.scopeDepth = s₃.scopeDepth := by
    subst e₅ e₄ e₃ e₂
    rfl
  have gclose : Grows s₃ s₁₅.closeScope := hl.toGrows.trans (.closeScope s₁₅)
  rw [hn₇, hn₃, hn₁] at hl
  refine ⟨_, (((Emission.of_grows (.openScope s) rfl).after_nil
    ((ht.toEmission.seq hcont).seq (hu.toEmission.seq hl.toEmission))).before_nil
    (.of_grows (.closeScope s₁₅) rfl)), ?_, fun N P hN hP => ?_⟩
  · refine closeScope_stays (Δ := [auxLocal s₇.scopeDepth "previo",
      auxLocal s₃.scopeDepth "indice", auxLocal s₁.scopeDepth "contened"]) hg ?_ ?_
      (hl.depth_eq.trans (hd₃.trans hd))
      (hl.loops_eq.trans (hu.loops_eq.trans ht.loops_eq))
    · rw [hl.locals_eq, hΓ₃, hΓ]
      rfl
    · simp [auxLocal, hd, hd₃, hd₇]
  · rw [hn₁]
    have g : Grows s₁ s₁₅.closeScope := (hcont.toGrows.trans hu.toGrows).trans gclose
    exact .stepIndex (ht.later g hN hP) (hu.later gclose hN hP)

/-! ### Lists -/

theorem emitNil_spec (ht : ∀ N P Γ, ExprTree X N P Γ item .nil) :
    EmitsExpr X (pure ()) item := by
  intro Γ s s' hg hΓ h
  obtain ⟨-, rfl⟩ := Emit.pure_ok.1 h
  exact ⟨_, .refl s, ⟨rfl, rfl, rfl⟩, fun N P _ _ => ht N P Γ⟩

/-- Two pieces of expressions, one after the other. -/
theorem EmitsExpr.seq {item' item'' : ExprItem} {m m' : Emit Unit} (hm : EmitsExpr X m item)
    (hm' : EmitsExpr X m' item') (ht : ∀ N P Γ t u, ExprTree X N P Γ item t →
      ExprTree X N P Γ item' u → ExprTree X N P Γ item'' (.seq t u)) :
    EmitsExpr X (do m; m') item'' := by
  intro Γ s s' hg hΓ h
  simp only [Emit.bind_ok] at h
  obtain ⟨_, s₁, h₁, h₂⟩ := h
  obtain ⟨t, ht'⟩ := hm Γ s s₁ hg hΓ h₁
  obtain ⟨u, hu⟩ := hm' Γ s₁ s' (ht'.good hg) (ht'.locals_eq.trans hΓ) h₂
  exact ⟨_, ht'.toEmission.seq hu.toEmission, ht'.toStays.trans hu.toStays,
    fun N P hN hP => ht N P Γ t u (ht'.later hu.toGrows hN hP) (hu.tree N P hN hP)⟩

theorem emitEntry_spec {k v : Expr} {es : List (Expr × Expr)} {mk mv ms : Emit Unit}
    (hk : EmitsExpr X mk (.expr k)) (hv : EmitsExpr X mv (.expr v))
    (hs : EmitsExpr X ms (.entries es)) :
    EmitsExpr X (do mk; mv; ms) (.entries ((k, v) :: es)) := by
  intro Γ s s' hg hΓ h
  simp only [Emit.bind_ok] at h
  obtain ⟨_, s₁, h₁, _, s₂, h₂, h₃⟩ := h
  obtain ⟨t, ht⟩ := hk Γ s s₁ hg hΓ h₁
  have hg₁ := ht.good hg
  obtain ⟨u, hu⟩ := hv Γ s₁ s₂ hg₁ (ht.locals_eq.trans hΓ) h₂
  obtain ⟨v, hv⟩ := hs Γ s₂ s' (hu.good hg₁) (hu.locals_eq.trans (ht.locals_eq.trans hΓ)) h₃
  exact ⟨_, ht.toEmission.seq (hu.toEmission.seq hv.toEmission),
    ht.toStays.trans (hu.toStays.trans hv.toStays), fun N P hN hP =>
      .entriesCons (ht.later (hu.toGrows.trans hv.toGrows) hN hP)
        (hu.later hv.toGrows hN hP) (hv.tree N P hN hP)⟩

theorem emitNamedArg_spec {name : String} {v : Expr} {es : List (String × SourceLoc × Expr)}
    {mv ms : Emit Unit} (hv : EmitsExpr X mv (.expr v)) (hs : EmitsExpr X ms (.named es)) :
    EmitsExpr X (do emitConst (.str name) loc; mv; ms) (.named ((name, loc, v) :: es)) := by
  intro Γ s s' hg hΓ h
  simp only [emitConst, Emit.bind_ok, addConstant_ok, emit_ok, Emit.pure_ok] at h
  obtain ⟨_, _, ⟨_, _, ⟨rfl, rfl⟩, _, _, ⟨rfl, rfl⟩, -, rfl⟩, _, s₂, h₂, h₃⟩ := h
  have hk : Emission X s _ (.atom (.const (.str name)) loc) := .const hg.toWf _
  have hg₁ := hg.grows hk.toGrows rfl rfl
  obtain ⟨u, hu⟩ := hv Γ _ s₂ hg₁ hΓ h₂
  obtain ⟨v, hv⟩ := hs Γ s₂ s' (hu.good hg₁) (hu.locals_eq.trans hΓ) h₃
  exact ⟨_, hk.seq (hu.toEmission.seq hv.toEmission),
    ⟨hv.locals_eq.trans hu.locals_eq, hv.depth_eq.trans hu.depth_eq,
      hv.loops_eq.trans hu.loops_eq⟩, fun N P hN hP =>
      .namedCons (hu.later hv.toGrows hN hP) (hv.tree N P hN hP)⟩

/-! ### Calls -/

/-- What `resolveCall` promises of its result. -/
def Callee.Known (X : Emitter) (object : Expr) : Callee → Prop
  | .native id _ | .modulo id _ _ => id < kNatives.length
  | .function name sig => (X.functions.getD []).lookup name = some sig
  | .ctor name sig => (X.classes.getD []).lookup name = some sig
  | .method type name sig => object.receiver.isSome ∧
    ∃ cls, (X.classes.getD []).lookup type = some cls ∧ cls.methods.lookup name = some sig
  | .dynamic _ => object.receiver.isSome

theorem receiverClass_lookup {recv : Expr} {type : String} {cls : ClassSig}
    (h : receiverClass X Γ recv = some (type, cls)) :
    (X.classes.getD []).lookup type = some cls := by
  have key : ∀ tr : String, (if tr = "" then none
      else ((X.classes.getD []).lookup tr).map (tr, ·)) = some (type, cls) →
      (X.classes.getD []).lookup type = some cls := by
    intro tr htr
    split at htr
    · cases htr
    · obtain ⟨c, hc, he⟩ := Option.map_eq_some_iff.1 htr
      cases he
      exact hc
  exact key _ h

theorem resolveCall_known {object : Expr} {args named : ℕ} {awaited : Bool} {c : Callee}
    (h : resolveCall X Γ loc object args named awaited = .ok c) : c.Known X object := by
  unfold resolveCall at h
  split at h
  · next mloc recv name =>
    split at h
    · next obj _ =>
      split at h
      · cases h
      · next id hid =>
        have hlt := memberNativeId_lt hid
        split at h
        · split at h
          · cases h
          · split at h
            · cases h
            · cases h
              exact hlt
        · cases ho : comprobarObjeto X obj mloc with
          | error d =>
            rw [ho] at h
            cases h
          | ok u =>
            rw [ho] at h
            cases h
            exact hlt
    · have hdyn : ∀ {r : Except Diagnostic Unit}, (r >>= fun _ => pure (.dynamic name)) = .ok c →
          c.Known X (.member mloc recv name) := by
        intro r hr
        cases r with
        | error d => cases hr
        | ok u =>
          cases hr
          exact rfl
      split at h
      · next type cls hcls =>
        split at h
        · next sig hsig =>
          cases h
          exact ⟨rfl, cls, receiverClass_lookup hcls, hsig⟩
        · split at h
          · cases h
          · exact hdyn h
      · exact hdyn h
  · split at h
    · next id hid =>
      cases h
      exact nativeId_lt hid
    · split at h
      · next sig hsig =>
        cases h
        exact hsig
      · split at h
        · next sig hsig =>
          cases h
          exact hsig
        · cases h
  · cases h

/-- Only the arguments without a name are emitted. -/
theorem positional_ok {keys : List (String × SourceLoc × Expr)} {message : String}
    {m : Emit Unit} : (do
      m
      if let (_, kloc, _) :: _ := keys then Emit.error kloc message) s = .ok ((), s') ↔
      m s = .ok ((), s') ∧ keys = [] := by
  cases keys with
  | nil =>
    simp only [Emit.bind_ok, Emit.pure_ok, and_true]
    constructor
    · rintro ⟨_, _, h, -, rfl⟩
      exact h
    · intro h
      exact ⟨_, _, h, trivial, rfl⟩
  | cons k ks =>
    simp only [Emit.bind_ok, reduceCtorEq, and_false, iff_false]
    rintro ⟨_, _, -, h⟩
    exact Emit.error_ok h

theorem emitDefaults_spec {dflt : Expr → Emit Unit}
    (hd : ∀ e, EmitsExpr X (dflt e) (.expr e)) {l : List (Option Expr)} (hg : s.Good)
    (hΓ : s.locals = Γ) (h : emitDefaults loc dflt l s = .ok ((), s')) :
    ∃ ds u, l = ds.map some ∧ ExprDone X Γ (.exprs ds) u s s' := by
  induction l generalizing s with
  | nil =>
    obtain ⟨-, rfl⟩ := Emit.pure_ok.1 h
    exact ⟨[], .nil, rfl, .refl s, ⟨rfl, rfl, rfl⟩, fun _ _ _ _ => .exprsNil⟩
  | cons d l ih =>
    cases d with
    | none => exact absurd h Emit.error_ok
    | some e =>
      simp only [emitDefaults, Emit.bind_ok] at h
      obtain ⟨_, s₁, h₁, h₂⟩ := h
      obtain ⟨t, ht⟩ := hd e Γ s s₁ hg hΓ h₁
      obtain ⟨ds, u, rfl, hu⟩ := ih (ht.good hg) (ht.locals_eq.trans hΓ) h₂
      exact ⟨e :: ds, _, rfl, ht.toEmission.seq hu.toEmission, ht.toStays.trans hu.toStays,
        fun N P hN hP => .exprsCons (ht.later hu.toGrows hN hP) (hu.tree N P hN hP)⟩

/-- What the arguments of a function or of a method are emitted to. -/
structure FnArgsDone (X : Emitter) (Γ : List Local) (sig : FnSig) (args ds : List Expr)
    (t u : Tree) (s s' : EmitState) : Prop extends Emission X s s' (t.seq u), Stays s s' where
  le : args.length ≤ sig.defaults.length
  defaults : sig.defaults.drop args.length = ds.map some
  noted : ds ≠ [] → .defaulted ∈ s'.notes
  given : ∀ N P, s'.notes ⊆ N → s'.plantillas <+: P → ExprTree X N P Γ (.exprs args) t
  missing : ∀ N P, s'.notes ⊆ N → s'.plantillas <+: P → ExprTree X N P Γ (.exprs ds) u

theorem emitFnArgs_spec {name espera : String} {sig : FnSig} {args : List Expr} {m : Emit Unit}
    {dflt : Expr → Emit Unit} (hm : EmitsExpr X m (.exprs args))
    (hd : ∀ e, EmitsExpr X (dflt e) (.expr e)) (hg : s.Good) (hΓ : s.locals = Γ)
    (h : emitFnArgs loc name espera sig args.length m dflt s = .ok ((), s')) :
    ∃ ds t u, FnArgsDone X Γ sig args ds t u s s' := by
  simp only [emitFnArgs, Emit.bind_ok, Emit.guard_ok, not_or, not_lt] at h
  obtain ⟨_, s₁, h₁, ⟨-, hle⟩, h⟩ := h
  obtain ⟨t, ht⟩ := hm Γ s s₁ hg hΓ h₁
  have hg₁ := ht.good hg
  have hΓ₁ : s₁.locals = Γ := ht.locals_eq.trans hΓ
  split at h
  · next hlt =>
    simp only [Emit.bind_ok, note_ok] at h
    obtain ⟨_, _, rfl, h⟩ := h
    have hg₂ : (s₁.addNote .defaulted).Good := hg₁.grows (.addNote _ _) rfl rfl
    obtain ⟨ds, u, hds, hu⟩ := emitDefaults_spec hd hg₂ hΓ₁ h
    have g : Grows s₁ s' := (Grows.addNote s₁ .defaulted).trans hu.toGrows
    refine ⟨ds, t, u, ?_, ?_, hle, hds, fun _ => ?_, fun N P hN hP => ht.later g hN hP, hu.tree⟩
    · exact ht.toEmission.seq ((Emission.of_grows (.addNote s₁ _) rfl).after_nil hu.toEmission)
    · exact ⟨hu.locals_eq.trans ht.locals_eq, hu.depth_eq.trans ht.depth_eq,
        hu.loops_eq.trans ht.loops_eq⟩
    · exact hu.notes.subset (by simp [EmitState.addNote])
  · next hlt =>
    obtain ⟨ds, u, hds, hu⟩ := emitDefaults_spec hd hg₁ hΓ₁ h
    have hnil : ds = [] := by
      rw [List.drop_of_length_le (by omega)] at hds
      exact List.map_eq_nil_iff.1 hds.symm
    exact ⟨ds, t, u, ht.toEmission.seq hu.toEmission, ht.toStays.trans hu.toStays, hle, hds,
      fun hne => absurd hnil hne, fun N P hN hP => ht.later hu.toGrows hN hP, hu.tree⟩

end Expressions

end Osodio.Odio
