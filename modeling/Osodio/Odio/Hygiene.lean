import Osodio.Odio.Bodies

/-!
# Copied expressions

The guards of a group are emitted into each of its routes, and the default value
of a parameter into each call that leaves it out.  Neither belongs to the scope of
its copy.  A copy is hygienic where it is emitted to what it would be without the
names of the locals there; it is so exactly where it mentions none of them.

## Main definitions

- `EmitState.hidden` — the state of an emission whose locals have lost their names
- `Copied`, `Hygienic` — what is copied, and the copies that no local captures
- `names`, `Copied.names` — the names that are looked up

## Main results

- `emitItem_blind` — an emission that looks up no local does not see them
- `hygienic_iff_unshadowed` — when a copy is hygienic
-/

namespace Osodio.Odio

/-! ## Locals without names -/

/-- The local with its slot and its scope, and without its name. -/
def Local.hidden (l : Local) : Local :=
  match l.name with
  | .user _ => { l with name := .aux "oculto", type := "" }
  | .aux _ => l

/-- The state in which no name is declared. -/
def EmitState.hidden (s : EmitState) : EmitState :=
  { s with locals := s.locals.map Local.hidden }

/-- None of the names is declared. -/
def Unbound (B : List String) (Γ : List Local) : Prop :=
  ∀ n ∈ B, resolveLocal Γ n = none

section Hidden

variable {B : List String} {Γ : List Local} {n : String}

@[simp] theorem Local.hidden_depth (l : Local) : l.hidden.depth = l.depth := by
  unfold Local.hidden
  split <;> rfl

theorem Local.hidden_ne_user (l : Local) (n : String) : l.hidden.name ≠ .user n := by
  unfold Local.hidden
  split
  · simp
  · next a h => simp [h]

theorem Local.hidden_eq_aux {l : Local} {a : String} (ha : a ≠ "oculto") :
    l.hidden.name = .aux a ↔ l.name = .aux a := by
  unfold Local.hidden
  split
  · next u h => simp [h, ha.symm]
  · rfl

theorem findLocal_hidden (Γ : List Local) (n : String) :
    findLocal (.user n) (Γ.map Local.hidden) = none := by
  induction Γ with
  | nil => rfl
  | cons l Γ ih => simp [findLocal, Local.hidden_ne_user, ih]

@[simp] theorem resolveLocal_hidden (Γ : List Local) (n : String) :
    resolveLocal (Γ.map Local.hidden) n = none := by
  simp [resolveLocal, findLocal_hidden]

@[simp] theorem localType_hidden (Γ : List Local) (n : String) :
    localType (Γ.map Local.hidden) n = "" := by
  simp [localType, findLocal_hidden]

theorem localType_of_unbound (h : resolveLocal Γ n = none) : localType Γ n = "" := by
  have hf : findLocal (.user n) Γ = none := Option.map_eq_none_iff.1 h
  simp [localType, hf]

theorem declaredInScope_hidden {a : String} (ha : a ≠ "oculto") (d : ℕ) (Γ : List Local) :
    declaredInScope (.aux a) d (Γ.map Local.hidden) = declaredInScope (.aux a) d Γ := by
  simp only [declaredInScope, List.takeWhile_map, List.any_map, Function.comp_def,
    Local.hidden_depth, Local.hidden_eq_aux ha]

theorem Unbound.mono {B' : List String} (h : Unbound B Γ) (hB : B' ⊆ B) : Unbound B' Γ :=
  fun n hn => h n (hB hn)

theorem Unbound.aux {l : Local} {a : String} (h : Unbound B Γ) (hl : l.name = .aux a) :
    Unbound B (l :: Γ) := by
  intro n hn
  have := h n hn
  simp only [resolveLocal, findLocal, hl, reduceCtorEq, if_false] at this ⊢
  exact this

theorem findLocal_dropWhile {name : LocalName} {p : Local → Bool} (h : findLocal name Γ = none) :
    findLocal name (Γ.dropWhile p) = none := by
  induction Γ with
  | nil => rfl
  | cons l Γ ih =>
    simp only [findLocal] at h
    split at h
    · cases h
    · next hl =>
      rw [List.dropWhile_cons]
      split
      · exact ih h
      · simp [findLocal, hl, h]

theorem Unbound.dropWhile (h : Unbound B Γ) (p : Local → Bool) : Unbound B (Γ.dropWhile p) := by
  intro n hn
  have hf : findLocal (.user n) Γ = none := Option.map_eq_none_iff.1 (h n hn)
  simp [resolveLocal, findLocal_dropWhile hf]

end Hidden

/-! ## The names of an expression -/

def Expr.isRender : Expr → Bool
  | .ident _ name => name == "render"
  | _ => false

/-- The names of the default values that a call fills in. -/
def missingNames (X : Emitter) (dflt : Expr → List String) (object : Expr) (given : ℕ) :
    List String :=
  match object with
  | .ident _ name =>
    if (nativeId name).isSome then []
    else match (X.functions.getD []).lookup name with
      | some sig => (sig.defaults.drop given).flatMap fun d => (d.map dflt).getD []
      | none => []
  | _ => []

mutual

/-- The names that the emission of an expression looks up among the locals. -/
def namesWith (X : Emitter) (dflt : Expr → List String) : Expr → List String
  | .ident _ name => [name]
  | .this _ => ["this"]
  | .unary _ _ e => namesWith X dflt e
  | .binary _ _ l r => namesWith X dflt l ++ namesWith X dflt r
  | .logical _ _ l r => namesWith X dflt l ++ namesWith X dflt r
  | .ternary _ c l r => namesWith X dflt c ++ (namesWith X dflt l ++ namesWith X dflt r)
  | .listLit _ items => exprsNames X dflt items
  | .dictLit _ entries => entriesNames X dflt entries
  | .index _ o i => namesWith X dflt o ++ namesWith X dflt i
  | .member _ o _ => namesWith X dflt o
  | .call _ object args named =>
    (match object with
      | .member _ recv _ => namesWith X dflt recv
      | _ => []) ++
    -- the positional arguments of `render` are not emitted
    ((if object.isRender then [] else exprsNames X dflt args) ++
      (namedNames X dflt named ++ missingNames X dflt object args.length))
  | .await _ (.call _ object args named) =>
    (match object with
      | .member _ recv _ => namesWith X dflt recv
      | _ => []) ++
    ((if object.isRender then [] else exprsNames X dflt args) ++
      (namedNames X dflt named ++ missingNames X dflt object args.length))
  | .step _ _ _ (.ident _ name) => [name]
  | .step _ _ _ (.member _ o _) => namesWith X dflt o
  | .step _ _ _ (.index _ o i) => namesWith X dflt o ++ namesWith X dflt i
  | _ => []
  termination_by structural e => e

def exprsNames (X : Emitter) (dflt : Expr → List String) : List Expr → List String
  | [] => []
  | e :: es => namesWith X dflt e ++ exprsNames X dflt es
  termination_by structural es => es

def entriesNames (X : Emitter) (dflt : Expr → List String) : List (Expr × Expr) → List String
  | [] => []
  | (key, value) :: es =>
    namesWith X dflt key ++ (namesWith X dflt value ++ entriesNames X dflt es)
  termination_by structural es => es

def namedNames (X : Emitter) (dflt : Expr → List String) :
    List (String × SourceLoc × Expr) → List String
  | [] => []
  | (_, _, value) :: es => namesWith X dflt value ++ namedNames X dflt es
  termination_by structural es => es

end

/-- The names of an expression, those of the default values that it fills in
    included. -/
def names (X : Emitter) : ℕ → Expr → List String
  | 0 => fun _ => []
  | fuel + 1 => namesWith X (names X fuel)

def itemNames (X : Emitter) (dflt : Expr → List String) : ExprItem → List String
  | .expr e => namesWith X dflt e
  | .exprs es => exprsNames X dflt es
  | .entries es => entriesNames X dflt es
  | .named es => namedNames X dflt es

section Names

variable {X : Emitter} {dflt : Expr → List String} {loc : SourceLoc}

theorem namesWith_literal {e : Expr} {v : Value} (h : e.literal = some v) :
    namesWith X dflt e = [] := by
  cases e with
  | stringLit | intLit | floatLit | boolLit | nullLit => rfl
  | _ => cases h

theorem namesWith_localName {e : Expr} {n : String} (h : e.localName = some n) :
    namesWith X dflt e = [n] := by
  cases e with
  | ident | this =>
    cases h
    rfl
  | _ => cases h

@[simp] theorem namesWith_ident (n : String) : namesWith X dflt (.ident loc n) = [n] := rfl

@[simp] theorem namesWith_this : namesWith X dflt (.this loc) = ["this"] := rfl

@[simp] theorem namesWith_unary {op : UnOp} (e : Expr) :
    namesWith X dflt (.unary loc op e) = namesWith X dflt e := rfl

@[simp] theorem namesWith_binary {op : BinOp} (l r : Expr) :
    namesWith X dflt (.binary loc op l r) = namesWith X dflt l ++ namesWith X dflt r := rfl

@[simp] theorem namesWith_logical {op : LogOp} (l r : Expr) :
    namesWith X dflt (.logical loc op l r) = namesWith X dflt l ++ namesWith X dflt r := rfl

@[simp] theorem namesWith_ternary (c l r : Expr) :
    namesWith X dflt (.ternary loc c l r) =
      namesWith X dflt c ++ (namesWith X dflt l ++ namesWith X dflt r) := rfl

@[simp] theorem namesWith_listLit (es : List Expr) :
    namesWith X dflt (.listLit loc es) = exprsNames X dflt es := rfl

@[simp] theorem namesWith_dictLit (es : List (Expr × Expr)) :
    namesWith X dflt (.dictLit loc es) = entriesNames X dflt es := rfl

@[simp] theorem namesWith_index (o i : Expr) :
    namesWith X dflt (.index loc o i) = namesWith X dflt o ++ namesWith X dflt i := rfl

@[simp] theorem namesWith_member (o : Expr) (m : String) :
    namesWith X dflt (.member loc o m) = namesWith X dflt o := rfl

theorem namesWith_methodCall {mloc : SourceLoc} (o : Expr) (m : String) (args : List Expr)
    (ks : List (String × SourceLoc × Expr)) :
    namesWith X dflt (.call loc (.member mloc o m) args ks) = namesWith X dflt o ++
      ((if (Expr.member mloc o m).isRender then [] else exprsNames X dflt args) ++
        (namedNames X dflt ks ++ missingNames X dflt (.member mloc o m) args.length)) := rfl

@[simp] theorem namesWith_stepLocal {kind : StepKind} {op : StepOp} {tloc : SourceLoc}
    (n : String) : namesWith X dflt (.step loc kind op (.ident tloc n)) = [n] := rfl

@[simp] theorem namesWith_stepMember {kind : StepKind} {op : StepOp} {tloc : SourceLoc}
    (o : Expr) (m : String) :
    namesWith X dflt (.step loc kind op (.member tloc o m)) = namesWith X dflt o := rfl

@[simp] theorem namesWith_stepIndex {kind : StepKind} {op : StepOp} {tloc : SourceLoc}
    (o i : Expr) : namesWith X dflt (.step loc kind op (.index tloc o i)) =
      namesWith X dflt o ++ namesWith X dflt i := rfl

@[simp] theorem exprsNames_nil : exprsNames X dflt [] = [] := rfl

@[simp] theorem exprsNames_cons (e : Expr) (es : List Expr) :
    exprsNames X dflt (e :: es) = namesWith X dflt e ++ exprsNames X dflt es := rfl

@[simp] theorem entriesNames_nil : entriesNames X dflt [] = [] := rfl

@[simp] theorem entriesNames_cons (k v : Expr) (es : List (Expr × Expr)) :
    entriesNames X dflt ((k, v) :: es) =
      namesWith X dflt k ++ (namesWith X dflt v ++ entriesNames X dflt es) := rfl

@[simp] theorem namedNames_nil : namedNames X dflt [] = [] := rfl

@[simp] theorem namedNames_cons (k : String × SourceLoc × Expr)
    (ks : List (String × SourceLoc × Expr)) :
    namedNames X dflt (k :: ks) = namesWith X dflt k.2.2 ++ namedNames X dflt ks := rfl

end Names

/-! ## Copies -/

/-- What the emitter copies: the guards of the groups around a route, or the
    default values of the parameters that a call leaves out. -/
inductive Copied where
  | guards (gs : List Guard)
  | defaults (loc : SourceLoc) (ds : List (Option Expr))

def Copied.emit (X : Emitter) (fuel : ℕ) : Copied → Emit Unit
  | guards gs => emitGuards (emitExpr X fuel) gs
  | defaults loc ds => emitDefaults loc (emitExpr X fuel) ds

def Copied.names (X : Emitter) (fuel : ℕ) : Copied → List String
  | guards gs => gs.flatMap fun g => Odio.names X fuel g.condition ++ Odio.names X fuel g.otherwise
  | defaults _ ds => ds.flatMap fun d => (d.map (Odio.names X fuel)).getD []

/-- What is copied in the state `s` is emitted there to what it is emitted to with no
    parameter and no local in scope. -/
def Hygienic (X : Emitter) (fuel : ℕ) (c : Copied) (s : EmitState) : Prop :=
  c.emit X fuel s.hidden = (c.emit X fuel s).map fun r => (r.1, r.2.hidden)

/-! ## Emissions that do not see the locals -/

/-- An emission with none of the names `B` declared is the same without names. -/
def Blind {α : Type} (B : List String) (m : Emit α) : Prop :=
  ∀ s a s', Unbound B s.locals → m s = .ok (a, s') →
    m s.hidden = .ok (a, s'.hidden) ∧ Unbound B s'.locals

section Blind

variable {α β : Type} {B : List String} {loc : SourceLoc}

theorem Blind.error {message : String} : Blind B (Emit.error loc message : Emit α) :=
  fun _ _ _ _ h => absurd h Emit.error_ok

theorem Blind.pure (a : α) : Blind B (pure a : Emit α) := by
  intro s b s' hs h
  obtain ⟨rfl, rfl⟩ := Emit.pure_ok.1 h
  exact ⟨rfl, hs⟩

theorem Blind.bind {m : Emit α} {f : α → Emit β} (hm : Blind B m) (hf : ∀ a, Blind B (f a)) :
    Blind B (m >>= f) := by
  intro s b s' hs h
  obtain ⟨a, s₁, h₁, h₂⟩ := Emit.bind_ok.1 h
  obtain ⟨h₁, hs₁⟩ := hm s a s₁ hs h₁
  obtain ⟨h₂, hs₂⟩ := hf a s₁ b s' hs₁ h₂
  exact ⟨Emit.bind_ok.2 ⟨a, _, h₁, h₂⟩, hs₂⟩

theorem Blind.ite {c : Prop} [Decidable c] {m m' : Emit α} (hm : Blind B m)
    (hm' : Blind B m') : Blind B (if c then m else m') := by
  split
  · exact hm
  · exact hm'

/-- What is done with the locals does not depend on their names. -/
theorem Blind.locals {f : List Local → Emit α}
    (hf : ∀ Γ, Unbound B Γ → f (Γ.map Local.hidden) = f Γ ∧ Blind B (f Γ)) :
    Blind B (getLocals >>= f) := by
  intro s a s' hs h
  obtain ⟨Γ, _, hΓ, h⟩ := Emit.bind_ok.1 h
  obtain ⟨rfl, rfl⟩ := getLocals_ok.1 hΓ
  obtain ⟨he, hb⟩ := hf s.locals hs
  obtain ⟨h, hs'⟩ := hb s a s' hs h
  exact ⟨Emit.bind_ok.2 ⟨_, _, getLocals_ok.2 ⟨rfl, rfl⟩, he ▸ h⟩, hs'⟩

theorem Blind.lift (r : Except Diagnostic α) : Blind B (Emit.lift r) := by
  intro s a s' hs h
  obtain ⟨rfl, rfl⟩ := Emit.lift_ok.1 h
  exact ⟨rfl, hs⟩

theorem Blind.emit (op : Op) (k : ℕ) : Blind B (emit op loc k) := by
  intro s a s' hs h
  obtain ⟨rfl, rfl⟩ := emit_ok.1 h
  exact ⟨rfl, hs⟩

theorem Blind.here : Blind B here := by
  intro s a s' hs h
  obtain ⟨rfl, rfl⟩ := here_ok.1 h
  exact ⟨rfl, hs⟩

theorem Blind.patch (pos target : ℕ) : Blind B (patch pos target) := by
  intro s a s' hs h
  obtain rfl := patch_ok.1 h
  exact ⟨rfl, hs⟩

theorem Blind.addConstant (v : Value) : Blind B (addConstant v) := by
  intro s a s' hs h
  obtain ⟨rfl, rfl⟩ := addConstant_ok.1 h
  exact ⟨rfl, hs⟩

theorem Blind.emitConst (v : Value) : Blind B (emitConst v loc) :=
  .bind (.addConstant v) fun k => .bind (.emit _ k) fun _ => .pure _

theorem Blind.note (n : Note) : Blind B (note n) := by
  intro s a s' hs h
  obtain rfl := note_ok.1 h
  exact ⟨rfl, hs⟩

theorem Blind.setHasAwait : Blind B setHasAwait := by
  intro s a s' hs h
  obtain rfl := setHasAwait_ok.1 h
  exact ⟨rfl, hs⟩

theorem Blind.addPlantilla (p : Plantilla) : Blind B (addPlantilla p) := by
  intro s a s' hs h
  obtain ⟨hlt, rfl, rfl⟩ := addPlantilla_ok.1 h
  exact ⟨addPlantilla_ok.2 ⟨hlt, rfl, rfl⟩, hs⟩

theorem Blind.beginScope : Blind B beginScope := by
  intro s a s' hs h
  obtain rfl := beginScope_ok.1 h
  exact ⟨rfl, hs⟩

theorem Blind.endScope : Blind B endScope := by
  intro s a s' hs h
  obtain rfl := endScope_ok.1 h
  refine ⟨endScope_ok.2 ?_, hs.dropWhile _⟩
  simp only [EmitState.closeScope, EmitState.hidden, List.dropWhile_map, Function.comp_def,
    Local.hidden_depth]

theorem Blind.emitAux {a : String} (ha : a ≠ "oculto") : Blind B (emitAux a loc) := by
  intro s n s' hs h
  obtain ⟨hd, rfl, rfl⟩ := emitAux_ok.1 h
  refine ⟨emitAux_ok.2 ⟨?_, by simp [EmitState.hidden], ?_⟩, hs.aux rfl⟩
  · exact (declaredInScope_hidden ha _ _).trans hd
  · simp [EmitState.hidden, EmitState.declare, EmitState.push, Local.hidden]

end Blind

/-! ## What an emission asks of the locals -/

section Static

variable {X : Emitter} {dflt : Expr → List String} {Γ : List Local}

theorem Unbound.left {A B : List String} (h : Unbound (A ++ B) Γ) : Unbound A Γ :=
  h.mono (List.subset_append_left A B)

theorem Unbound.right {A B : List String} (h : Unbound (A ++ B) Γ) : Unbound B Γ :=
  h.mono (List.subset_append_right A B)

theorem localType_eq_hidden {n : String} (h : resolveLocal Γ n = none) :
    localType (Γ.map Local.hidden) n = localType Γ n := by
  rw [localType_hidden, localType_of_unbound h]

theorem esInt_hidden {e : Expr} (h : Unbound (namesWith X dflt e) Γ) :
    esInt (Γ.map Local.hidden) e = esInt Γ e := by
  fun_induction esInt Γ e with
  | case2 loc name => simp [esInt, localType_eq_hidden (h name (by simp))]
  | case3 loc lhs rhs ihl ihr =>
    rw [namesWith_binary] at h
    simp [esInt, ihl h.left, ihr h.right]
  | case4 loc lhs rhs ihl ihr =>
    rw [namesWith_binary] at h
    simp [esInt, ihl h.left, ihr h.right]
  | case5 loc lhs rhs ihl ihr =>
    rw [namesWith_binary] at h
    simp [esInt, ihl h.left, ihr h.right]
  | case1 => rfl
  | case6 loc op => cases op <;> simp_all [esInt]
  | case7 e hi hn hb =>
    cases e with
    | intLit loc value => exact (hi loc value rfl).elim
    | ident loc name => exact (hn loc name rfl).elim
    | binary loc op lhs rhs => exact (hb loc op lhs rhs rfl).elim
    | _ => rfl

theorem tipoDe_hidden {e : Expr} (h : Unbound (namesWith X dflt e) Γ) :
    tipoDe (Γ.map Local.hidden) e = tipoDe Γ e := by
  fun_induction tipoDe Γ e with
  | case5 loc name => simp [tipoDe, localType_eq_hidden (h name (by simp))]
  | case6 loc => simp [tipoDe, localType_eq_hidden (h "this" (by simp))]
  | case7 loc mloc recv name args named tipo m hm ih =>
    rw [namesWith_methodCall] at h
    simp [tipoDe, ih h.left, hm, tipo]
  | case8 loc mloc recv name args named tipo hm ih =>
    rw [namesWith_methodCall] at h
    simp [tipoDe, ih h.left, hm, tipo]
  | case9 e => cases e <;> simp_all [tipoDe]
  | _ => rfl

theorem reservedObject_hidden {o : Expr} (h : Unbound (namesWith X dflt o) Γ) :
    reservedObject (Γ.map Local.hidden) o = reservedObject Γ o := by
  cases o with
  | ident loc name => simp [reservedObject, h name (by simp)]
  | _ => rfl

theorem receiverClass_hidden {o : Expr} (h : Unbound (namesWith X dflt o) Γ) :
    receiverClass X (Γ.map Local.hidden) o = receiverClass X Γ o := by
  cases o with
  | ident loc name => simp [receiverClass, localType_of_unbound (h name (by simp))]
  | this loc => simp [receiverClass, localType_of_unbound (h "this" (by simp))]
  | _ => rfl

theorem comprobarCampo_hidden {o : Expr} {campo : String} {loc : SourceLoc}
    (h : Unbound (namesWith X dflt o) Γ) :
    comprobarCampo X (Γ.map Local.hidden) o campo loc = comprobarCampo X Γ o campo loc := by
  simp only [comprobarCampo, tipoDe_hidden h]

theorem resolveCall_hidden {object : Expr} {loc : SourceLoc} {args named : ℕ} {awaited : Bool}
    (h : ∀ o, object.receiver = some o → Unbound (namesWith X dflt o) Γ) :
    resolveCall X (Γ.map Local.hidden) loc object args named awaited =
      resolveCall X Γ loc object args named awaited := by
  cases object with
  | member mloc recv name =>
    have hrecv := h recv rfl
    simp only [resolveCall, reservedObject_hidden hrecv, receiverClass_hidden hrecv,
      comprobarMetodoBuiltin, tipoDe_hidden hrecv]
  | _ => rfl

end Static

/-! ## Emissions of expressions -/

section Emissions

variable {X : Emitter} {dn : Expr → List String} {dflt : Expr → Emit Unit} {B : List String}
  {loc : SourceLoc}

theorem Blind.emitLoad {name missing : String} (h : name ∈ B) :
    Blind B (emitLoad name loc missing) := by
  refine .locals fun Γ hΓ => ?_
  rw [resolveLocal_hidden, hΓ name h]
  exact ⟨rfl, .error⟩

theorem Blind.emitMember {o : Expr} {name : String} {mo : Emit Unit}
    (ho : namesWith X dn o ⊆ B) (hm : Blind B mo) : Blind B (emitMember X loc o name mo) := by
  refine .locals fun Γ hΓ => ⟨?_, ?_⟩
  · have h := hΓ.mono ho
    simp only [reservedObject_hidden h, comprobarCampo_hidden h]
  · refine .ite (.bind (.emitConst _) fun _ => .bind (.emit _ _) fun _ => .pure _) ?_
    split
    · split
      · exact .error
      · refine .ite (.bind .error fun _ => ?_) ?_
        all_goals
          refine .bind (.lift _) fun _ => .ite (.bind (.note _) fun _ => ?_) ?_
        all_goals exact .bind (.emit _ _) fun _ => .pure _
    · exact .bind (.lift _) fun _ => .bind hm fun _ => .bind (.addConstant _) fun _ =>
        .bind (.emit _ _) fun _ => .pure _

theorem Blind.emitStepResult {kind : StepKind} {prev : ℕ} :
    Blind B (emitStepResult loc kind prev) := by
  unfold Odio.emitStepResult
  exact .ite (.bind (.emit _ _) fun _ => .bind (.emit _ _) fun _ => .pure _) (.pure _)

theorem Blind.emitStepMember {kind : StepKind} {op : StepOp} {name : String} {mo : Emit Unit}
    (hm : Blind B mo) : Blind B (emitStepMember loc kind op name mo) := by
  unfold Odio.emitStepMember
  refine .bind .beginScope fun _ => .bind (.addConstant _) fun _ => .bind hm fun _ =>
    .bind (.emitAux (by decide)) fun _ => .bind (.emit _ _) fun _ => .bind (.emit _ _) fun _ =>
    .bind (.emitAux (by decide)) fun _ => .bind (.emit _ _) fun _ => .bind (.emit _ _) fun _ =>
    .bind (.emitConst _) fun _ => .bind (.emit _ _) fun _ => .bind (.emit _ _) fun _ =>
    .bind .emitStepResult fun _ => .endScope

theorem Blind.emitStepIndex {kind : StepKind} {op : StepOp} {mo mi : Emit Unit}
    (hm : Blind B mo) (hi : Blind B mi) : Blind B (emitStepIndex loc kind op mo mi) := by
  unfold Odio.emitStepIndex
  refine .bind .beginScope fun _ => .bind hm fun _ => .bind (.emitAux (by decide)) fun _ =>
    .bind hi fun _ => .bind (.emitAux (by decide)) fun _ => .bind (.emit _ _) fun _ =>
    .bind (.emit _ _) fun _ => .bind (.emit _ _) fun _ => .bind (.emitAux (by decide)) fun _ =>
    .bind (.emit _ _) fun _ => .bind (.emit _ _) fun _ => .bind (.emit _ _) fun _ =>
    .bind (.emitConst _) fun _ => .bind (.emit _ _) fun _ => .bind (.emit _ _) fun _ =>
    .bind .emitStepResult fun _ => .endScope

theorem Blind.emitDefaults {ds : List (Option Expr)} (hd : ∀ d ∈ ds, ∀ e, d = some e →
    Blind B (dflt e)) : Blind B (emitDefaults loc dflt ds) := by
  induction ds with
  | nil => exact .pure _
  | cons d ds ih =>
    cases d with
    | none => exact .error
    | some e =>
      exact .bind (hd _ (by simp) e rfl) fun _ => ih fun d h => hd d (by simp [h])

theorem Blind.emitFnArgs {name espera : String} {sig : FnSig} {given : ℕ} {args : Emit Unit}
    (ha : Blind B args) (hd : ∀ d ∈ sig.defaults.drop given, ∀ e, d = some e →
      Blind B (dflt e)) : Blind B (emitFnArgs loc name espera sig given args dflt) := by
  unfold Odio.emitFnArgs
  refine .bind ha fun _ => .ite (.bind .error fun _ => ?_) ?_
  all_goals exact .ite (.bind (.note _) fun _ => .emitDefaults hd) (.emitDefaults hd)

theorem Blind.emitNamedDict {count : ℕ} {named : Emit Unit} (hn : Blind B named) :
    Blind B (emitNamedDict loc count named) :=
  .bind hn fun _ => .bind (.emit _ _) fun _ => .pure _

theorem Blind.emitMethodCallDynamic {name : String} {given count : ℕ}
    {recv args named : Emit Unit} (hr : Blind B recv) (ha : Blind B args) (hn : Blind B named) :
    Blind B (emitMethodCallDynamic loc name given count recv args named) := by
  have hend : ∀ argc, Blind B (do
      Odio.note (.operands (argc + 1))
      let k ← Odio.addConstant (.str name)
      let _ ← Odio.emit .callMethod loc (callOperand k argc)) := fun argc =>
    .bind (.note _) fun _ => .bind (.addConstant _) fun _ => .bind (.emit _ _) fun _ => .pure _
  unfold Odio.emitMethodCallDynamic
  refine .bind hr fun _ => .bind ha fun _ => .ite (.bind (.emitNamedDict hn) fun _ => ?_) ?_
  all_goals exact .ite (.bind .error fun _ => hend _) (hend _)

theorem Blind.emitCallFunction {index argc : ℕ} : Blind B (emitCallFunction loc index argc) :=
  .bind (.note _) fun _ => .bind (.emit _ _) fun _ => .pure _

theorem Blind.lift_bind {α : Type} {r : Except Diagnostic α} {f : α → Emit Unit}
    (hf : ∀ a, r = .ok a → Blind B (f a)) : Blind B (Emit.lift r >>= f) := by
  intro s u s' hs h
  obtain ⟨a, _, hr, h⟩ := Emit.bind_ok.1 h
  obtain ⟨ha, rfl⟩ := Emit.lift_ok.1 hr
  obtain ⟨h, hs'⟩ := hf a ha s u s' hs h
  exact ⟨Emit.bind_ok.2 ⟨a, _, Emit.lift_ok.2 ⟨ha, rfl⟩, h⟩, hs'⟩

theorem Blind.emitirRenderCompilado {compilar : PlantillaCompiler} {nloc : SourceLoc}
    {nombre : String} {claves : List (String × String)} {named : Emit Unit}
    (hn : Blind B named) :
    Blind B (emitirRenderCompilado compilar loc nloc nombre claves named) := by
  unfold Odio.emitirRenderCompilado
  cases compilar nombre claves with
  | error message => exact .ite (.bind .error fun _ => .error) .error
  | ok p =>
    have hend : Blind B (do
        let idx ← Odio.addPlantilla p
        Odio.emitConst (.int (Int64.ofNat idx)) loc
        Odio.emitNamedDict loc claves.length named
        let _ ← Odio.emit .callNative loc (callOperand renderTplId 2)) :=
      .bind (.addPlantilla _) fun _ => .bind (.emitConst _) fun _ =>
        .bind (.emitNamedDict hn) fun _ => .bind (.emit _ _) fun _ => .pure _
    exact .ite (.bind .error fun _ => hend) hend

/-- The types of the named arguments. -/
theorem claves_hidden {Γ : List Local} {keys : List (String × SourceLoc × Expr)}
    (h : Unbound (namedNames X dn keys) Γ) :
    (keys.map fun k => (k.1, tipoDe (Γ.map Local.hidden) k.2.2)) =
      keys.map fun k => (k.1, tipoDe Γ k.2.2) := by
  induction keys with
  | nil => rfl
  | cons k keys ih =>
    obtain ⟨name, kloc, value⟩ := k
    rw [namedNames_cons] at h
    rw [List.map_cons, List.map_cons, ih h.right, tipoDe_hidden h.left]

theorem Blind.emitNativeCall {id : ℕ} {name : String} {positional : List Expr}
    {keys : List (String × SourceLoc × Expr)} {awaited : Bool} {args named : Emit Unit}
    (hk : namedNames X dn keys ⊆ B) (ha : name ≠ "render" → Blind B args)
    (hn : Blind B named) :
    Blind B (emitNativeCall X loc id name positional keys awaited args named) := by
  refine .locals fun Γ hΓ => ⟨?_, ?_⟩
  · simp only [claves_hidden (hΓ.mono hk)]
  · refine .bind (.lift _) fun _ => .ite (.bind .error fun _ => ?_) ?_
    all_goals
      split
      · split
        · split
          · exact .error
          · exact .ite (.bind (.note _) fun _ => .emitirRenderCompilado hn)
              (.emitirRenderCompilado hn)
        · exact .error
      · next hr =>
        refine .bind (ha hr) fun _ => .ite (.bind .error fun _ => ?_) ?_
        all_goals refine .ite (.bind .error fun _ => ?_) ?_
        all_goals refine .ite (.bind .setHasAwait fun _ => ?_) ?_
        all_goals exact .bind (.note _) fun _ => .bind (.emit _ _) fun _ => .pure _

theorem Blind.positional {keys : List (String × SourceLoc × Expr)} {message : String}
    {args : Emit Unit} (ha : Blind B args) : Blind B (do
      args
      if let (_, kloc, _) :: _ := keys then Emit.error kloc message) := by
  refine .bind ha fun _ => ?_
  split
  · exact .error
  · exact .pure _

theorem Blind.emitModuleCall {id given : ℕ} {obj member : String}
    {keys : List (String × SourceLoc × Expr)} {args : Emit Unit} (ha : Blind B args) :
    Blind B (emitModuleCall loc id obj member given keys args) := by
  refine .bind (.emitConst _) fun _ => .bind ha fun _ => ?_
  split
  · refine .bind .error fun _ => .ite (.bind .error fun _ => ?_) ?_
    all_goals refine .ite (.bind .error fun _ => ?_) ?_
    all_goals refine .ite (.bind .error fun _ => ?_) ?_
    all_goals
      exact .bind .setHasAwait fun _ => .bind (.note _) fun _ => .bind (.emit _ _) fun _ => .pure _
  · refine .ite (.bind .error fun _ => ?_) ?_
    all_goals refine .ite (.bind .error fun _ => ?_) ?_
    all_goals refine .ite (.bind .error fun _ => ?_) ?_
    all_goals
      exact .bind .setHasAwait fun _ => .bind (.note _) fun _ => .bind (.emit _ _) fun _ => .pure _

/-! ### Calls -/

theorem member_ne_render (obj name : String) : obj ++ "." ++ name ≠ "render" := by
  intro h
  have hdot : '.' ∈ (obj ++ "." ++ name).toList := by simp
  rw [h] at hdot
  revert hdot
  decide

/-- What a call is that refers to something. -/
def Callee.Origin (X : Emitter) (Γ : List Local) (object : Expr) : Callee → Prop
  | .native id name =>
    (∃ iloc, object = .ident iloc name ∧ nativeId name = some id) ∨
    (∃ mloc recv m obj, object = .member mloc recv m ∧ reservedObject Γ recv = some obj ∧
      name = obj ++ "." ++ m)
  | .modulo _ obj m =>
    ∃ mloc recv, object = .member mloc recv m ∧ reservedObject Γ recv = some obj
  | .function name sig => ∃ iloc, object = .ident iloc name ∧ nativeId name = none ∧
    (X.functions.getD []).lookup name = some sig
  | .ctor name _ => ∃ iloc, object = .ident iloc name ∧ nativeId name = none ∧
    (X.functions.getD []).lookup name = none
  | .method type name _ => ∃ mloc recv cls, object = .member mloc recv name ∧
    receiverClass X Γ recv = some (type, cls)
  | .dynamic name => ∃ mloc recv, object = .member mloc recv name

theorem resolveCall_origin {Γ : List Local} {object : Expr} {args named : ℕ} {awaited : Bool}
    {c : Callee} (hc : resolveCall X Γ loc object args named awaited = .ok c) :
    c.Origin X Γ object := by
  cases object with
  | member mloc recv name =>
    have hdyn : ∀ {r : Except Diagnostic Unit}, (r >>= fun _ => pure (.dynamic name)) = .ok c →
        c.Origin X Γ (.member mloc recv name) := by
      intro r hr
      cases r with
      | error d => cases hr
      | ok u =>
        cases hr
        exact ⟨mloc, recv, rfl⟩
    simp only [resolveCall] at hc
    split at hc
    · next obj hobj =>
      split at hc
      · cases hc
      · split at hc
        · split at hc
          · cases hc
          · split at hc
            · cases hc
            · cases hc
              exact ⟨mloc, recv, rfl, hobj⟩
        · cases ho : comprobarObjeto X obj mloc with
          | error d =>
            rw [ho] at hc
            cases hc
          | ok u =>
            rw [ho] at hc
            cases hc
            exact .inr ⟨mloc, recv, name, obj, rfl, hobj, rfl⟩
    · split at hc
      · next type cls hcls =>
        split at hc
        · cases hc
          exact ⟨mloc, recv, cls, rfl, hcls⟩
        · split at hc
          · cases hc
          · exact hdyn hc
      · exact hdyn hc
  | ident iloc name =>
    simp only [resolveCall] at hc
    split at hc
    · next id hid =>
      cases hc
      exact .inl ⟨iloc, rfl, hid⟩
    · next hid =>
      split at hc
      · next sig hsig =>
        cases hc
        exact ⟨iloc, rfl, hid, hsig⟩
      · next hsig =>
        split at hc
        · cases hc
          exact ⟨iloc, rfl, hid, hsig⟩
        · cases hc
  | _ => cases hc

theorem receiverClass_of_unbound {Γ : List Local} {o : Expr}
    (h : Unbound (namesWith X dn o) Γ) : receiverClass X Γ o = none := by
  cases o with
  | ident loc name => simp [receiverClass, localType_of_unbound (h name (by simp))]
  | this loc => simp [receiverClass, localType_of_unbound (h "this" (by simp))]
  | _ => rfl

/-- A call by the name `render` is one of the builtin. -/
theorem Callee.Origin.render {Γ : List Local} {object : Expr} {c : Callee}
    (h : c.Origin X Γ object) (hr : object.isRender = true) : ∃ id, c = .native id "render" := by
  have hid : nativeId "render" ≠ none := by decide
  cases object with
  | ident iloc name =>
    obtain rfl := beq_iff_eq.1 hr
    cases c with
    | native id name =>
      obtain ⟨_, he, -⟩ | ⟨_, _, _, _, he, -⟩ := h
      · cases he
        exact ⟨id, rfl⟩
      · cases he
    | modulo | method | dynamic =>
      obtain ⟨_, _, h⟩ := h
      simp at h
    | function name sig | ctor name sig =>
      obtain ⟨_, he, hn, -⟩ := h
      cases he
      exact absurd hn hid
  | _ => cases hr

theorem mem_missingNames {iloc : SourceLoc} {name n : String} {sig : FnSig} {given : ℕ} {e : Expr}
    (hid : nativeId name = none) (hsig : (X.functions.getD []).lookup name = some sig)
    (he : some e ∈ sig.defaults.drop given) (hn : n ∈ dn e) :
    n ∈ missingNames X dn (.ident iloc name) given := by
  simp only [missingNames, hid, Option.isSome_none, Bool.false_eq_true, if_false, hsig]
  exact List.mem_flatMap.2 ⟨some e, he, hn⟩

theorem Blind.emitCall {object : Expr} {positional : List Expr}
    {keys : List (String × SourceLoc × Expr)} {awaited : Bool} {recv args named : Emit Unit}
    (hr : Blind B recv) (ho : ∀ o, object.receiver = some o → namesWith X dn o ⊆ B)
    (ha : object.isRender = false → Blind B args) (hk : namedNames X dn keys ⊆ B)
    (hn : Blind B named) (hm : missingNames X dn object positional.length ⊆ B)
    (hd : ∀ e, dn e ⊆ B → Blind B (dflt e)) :
    Blind B (emitCall X loc object positional keys awaited recv args named dflt) := by
  refine .locals fun Γ hΓ => ?_
  have hrecv : ∀ o, object.receiver = some o → Unbound (namesWith X dn o) Γ :=
    fun o h => hΓ.mono (ho o h)
  refine ⟨by rw [resolveCall_hidden hrecv], .lift_bind fun callee hc => ?_⟩
  have ho := resolveCall_origin hc
  cases hrender : object.isRender with
  | true =>
    obtain ⟨id, rfl⟩ := ho.render hrender
    exact .emitNativeCall hk (fun hne => absurd rfl hne) hn
  | false =>
    have hargs := ha hrender
    cases callee with
    | native id name => exact .emitNativeCall hk (fun _ => hargs) hn
    | modulo id obj member => exact .emitModuleCall hargs
    | function name sig =>
      obtain ⟨iloc, rfl, hid, hsig⟩ := ho
      refine .bind (.emitFnArgs (.positional hargs) fun d hd' e he => hd e fun n hn => ?_)
        fun _ => .ite (.bind .error fun _ => .emitCallFunction) .emitCallFunction
      exact hm (mem_missingNames hid hsig (he ▸ hd') hn)
    | ctor name sig =>
      refine .bind hargs fun _ => ?_
      split
      · split
        · exact .bind .error fun _ => .error
        · exact .error
      · split
        · exact .bind .error fun _ => .emitCallFunction
        · exact .emitCallFunction
    | method type name sig =>
      obtain ⟨mloc, recv, cls, rfl, hcls⟩ := ho
      rw [receiverClass_of_unbound (hrecv recv rfl)] at hcls
      cases hcls
    | dynamic name => exact .emitMethodCallDynamic hr hargs hn

/-- The names of the receiver of a call, if it has one. -/
def receiverNames (X : Emitter) (dn : Expr → List String) : Expr → List String
  | .member _ recv _ => namesWith X dn recv
  | _ => []

theorem namesWith_call {e : Expr} {c : CallExpr} (he : e.asCall = some c) :
    namesWith X dn e = receiverNames X dn c.object ++
      ((if c.object.isRender then [] else exprsNames X dn c.args) ++
        (namedNames X dn c.named ++ missingNames X dn c.object c.args.length)) := by
  cases e with
  | call loc object args named =>
    cases he
    cases object <;> rfl
  | await loc lhs =>
    cases lhs with
    | call cloc object args named =>
      cases he
      cases object <;> rfl
    | _ => cases he
  | _ => cases he

theorem receiverNames_eq {object o : Expr} (ho : object.receiver = some o) :
    receiverNames X dn object = namesWith X dn o := by
  cases object with
  | member loc recv name =>
    cases ho
    rfl
  | _ => cases ho

theorem emitReceiver_blind {object : Expr}
    (h : ∀ o, object.receiver = some o → Blind B (emitExprWith X dflt o)) :
    Blind B (emitReceiver X dflt object) := by
  cases object with
  | member loc recv name => exact h recv rfl
  | _ => exact .pure _

theorem Blind.emitCallExpr (hd : ∀ e, dn e ⊆ B → Blind B (dflt e)) {e : Expr} {c : CallExpr}
    (he : e.asCall = some c) (hB : namesWith X dn e ⊆ B)
    (ih : ∀ item : ExprItem, item.size < sizeOf e → itemNames X dn item ⊆ B →
      Blind B (emitItem X dflt item)) : Blind B (emitExprWith X dflt e) := by
  have hc := Expr.asCall_within he
  rw [namesWith_call he] at hB
  obtain ⟨hrecv, hrest⟩ := List.append_subset.1 hB
  obtain ⟨hargs, hrest⟩ := List.append_subset.1 hrest
  obtain ⟨hnamed, hmissing⟩ := List.append_subset.1 hrest
  have hrecv' : ∀ o, c.object.receiver = some o → namesWith X dn o ⊆ B := fun o ho =>
    receiverNames_eq ho ▸ hrecv
  rw [emitExprWith_call he]
  refine .emitCall (emitReceiver_blind fun o ho => ?_) hrecv' (fun hr => ?_) hnamed ?_ hmissing hd
  · exact ih (.expr o) (hc.receiver o ho) (hrecv' o ho)
  · rw [if_neg (by simp [hr])] at hargs
    exact ih (.exprs c.args) hc.args hargs
  · exact ih (.named c.named) hc.named hnamed

theorem Blind.emitStepLocal {kind : StepKind} {op : StepOp} {tloc : SourceLoc}
    {name message : String} (h : name ∈ B) : Blind B (do
      match resolveLocal (← getLocals) name with
      | some slot => Odio.emitStepLocal loc kind op slot
      | none => Emit.error tloc message) := by
  refine .locals fun Γ hΓ => ?_
  rw [resolveLocal_hidden, hΓ name h]
  exact ⟨rfl, .error⟩

/-- An emission that looks up no local does not see them. -/
theorem emitItem_blind (hd : ∀ e, dn e ⊆ B → Blind B (dflt e)) (item : ExprItem)
    (hB : itemNames X dn item ⊆ B) : Blind B (emitItem X dflt item) := by
  induction item using ExprItem.induction with
  | h item ih =>
  cases item with
  | expr e =>
    rw [itemNames] at hB
    rw [emitItem]
    cases e with
    | stringLit loc text | intLit loc value | floatLit loc value | boolLit loc value
    | nullLit loc => exact .emitConst _
    | ident loc name => exact .emitLoad (hB (by simp))
    | this loc => exact .emitLoad (hB (by simp))
    | unary loc op e =>
      rw [namesWith_unary] at hB
      rw [emitExprWith]
      exact .bind (ih (.expr e) (by simp) hB) fun _ =>
        .bind (.emit _ _) fun _ => .pure _
    | logical loc op l r =>
      rw [namesWith_logical] at hB
      rw [emitExprWith]
      obtain ⟨hl, hr⟩ := List.append_subset.1 hB
      exact .bind (ih (.expr l) (by simp) hl) fun _ =>
        .bind (.emit _ _) fun _ => .bind (ih (.expr r) (by simp) hr)
        fun _ => .bind .here fun _ => .patch _ _
    | binary loc op l r =>
      rw [namesWith_binary] at hB
      rw [emitExprWith]
      obtain ⟨hl, hr⟩ := List.append_subset.1 hB
      refine .bind (ih (.expr l) (by simp) hl) fun _ =>
        .bind (ih (.expr r) (by simp) hr) fun _ => .locals fun Γ hΓ => ?_
      rw [esInt_hidden (hΓ.mono hl), esInt_hidden (hΓ.mono hr)]
      exact ⟨rfl, .bind (.emit _ _) fun _ => .pure _⟩
    | ternary loc c l r =>
      rw [namesWith_ternary] at hB
      rw [emitExprWith]
      obtain ⟨hc, hlr⟩ := List.append_subset.1 hB
      obtain ⟨hl, hr⟩ := List.append_subset.1 hlr
      exact .bind (ih (.expr c) (by simp) hc) fun _ =>
        .bind (.emit _ _) fun _ => .bind (ih (.expr l) (by simp) hl)
        fun _ => .bind (.emit _ _) fun _ => .bind .here fun _ => .bind (.patch _ _) fun _ =>
        .bind (ih (.expr r) (by simp) hr) fun _ => .bind .here fun _ =>
        .patch _ _
    | listLit loc items =>
      rw [namesWith_listLit] at hB
      rw [emitExprWith]
      exact .bind (ih (.exprs items) (by simp) hB) fun _ =>
        .bind (.emit _ _) fun _ => .pure _
    | dictLit loc entries =>
      rw [namesWith_dictLit] at hB
      rw [emitExprWith]
      exact .bind (ih (.entries entries) (by simp) hB) fun _ =>
        .bind (.emit _ _) fun _ => .pure _
    | index loc o i =>
      rw [namesWith_index] at hB
      rw [emitExprWith]
      obtain ⟨ho, hi⟩ := List.append_subset.1 hB
      exact .bind (ih (.expr o) (by simp) ho) fun _ =>
        .bind (ih (.expr i) (by simp) hi) fun _ =>
        .bind (.emit _ _) fun _ => .pure _
    | member loc o name =>
      rw [namesWith_member] at hB
      rw [emitExprWith]
      exact .emitMember hB (ih (.expr o) (by simp) hB)
    | call loc object args named => exact .emitCallExpr hd rfl hB ih
    | await loc lhs =>
      cases lhs with
      | call cloc object args named => exact .emitCallExpr hd rfl hB ih
      | _ => exact .error
    | step loc kind op target =>
      cases target with
      | ident tloc name =>
        rw [emitExprWith]
        exact .emitStepLocal (hB (by simp))
      | member tloc o name =>
        rw [namesWith_stepMember] at hB
        rw [emitExprWith]
        exact .emitStepMember (ih (.expr o) (by simp) hB)
      | index tloc o i =>
        rw [namesWith_stepIndex] at hB
        rw [emitExprWith]
        obtain ⟨ho, hi⟩ := List.append_subset.1 hB
        exact .emitStepIndex (ih (.expr o) (by simp) ho)
          (ih (.expr i) (by simp) hi)
      | _ => exact .error
  | exprs es =>
    cases es with
    | nil => exact .pure _
    | cons e es =>
      obtain ⟨he, hes⟩ := List.append_subset.1 hB
      exact .bind (ih (.expr e) (by simp) he) fun _ =>
        ih (.exprs es) (by simp) hes
  | entries es =>
    cases es with
    | nil => exact .pure _
    | cons e es =>
      obtain ⟨k, v⟩ := e
      obtain ⟨hk, hrest⟩ := List.append_subset.1 hB
      obtain ⟨hv, hes⟩ := List.append_subset.1 hrest
      exact .bind (ih (.expr k) (by simp) hk) fun _ =>
        .bind (ih (.expr v) (by simp) hv) fun _ =>
        ih (.entries es) (by simp) hes
  | named es =>
    cases es with
    | nil => exact .pure _
    | cons e es =>
      obtain ⟨name, loc, v⟩ := e
      obtain ⟨hv, hes⟩ := List.append_subset.1 hB
      exact .bind (.emitConst _) fun _ =>
        .bind (ih (.expr v) (by simp) hv) fun _ =>
        ih (.named es) (by simp) hes

theorem emitExpr_blind (fuel : ℕ) (e : Expr) (hB : names X fuel e ⊆ B) :
    Blind B (emitExpr X fuel e) := by
  induction fuel generalizing e with
  | zero => exact .error
  | succ fuel ih => exact emitItem_blind ih (.expr e) hB

end Emissions

/-! ## The slots of a tree -/

/-- The slots that an atom reads or writes. -/
def Atom.slots : Atom → List ℕ
  | loadLocal k | storeLocal k => [k]
  | _ => []

def Tree.slots : Tree → List ℕ
  | .nil | .ret _ | .retNull _ | .brk _ | .cont _ => []
  | .atom a _ => a.slots
  | .seq t u | .cond t u _ | .tryCatch t u _ => t.slots ++ u.slots
  | .peek _ t _ | .when t _ | .unless t _ => t.slots
  | .loop head body step _ _ => head.slots ++ (body.slots ++ step.slots)

@[simp] theorem Tree.slots_atoms (loc : SourceLoc) (as : List Atom) :
    (Tree.atoms loc as).slots = as.flatMap Atom.slots := by
  induction as with
  | nil => rfl
  | cons a as ih => simp [Tree.atoms, Tree.slots, ih]

@[simp] theorem Tree.slots_andThen (t : Tree) (a : Atom) (loc : SourceLoc) :
    (t.andThen a loc).slots = t.slots ++ a.slots := rfl

@[simp] theorem nativeAtom_slots (id argc : ℕ) : (nativeAtom id argc).slots = [] := by
  unfold nativeAtom
  split <;> rfl

section Slots

variable {X : Emitter} {N : List Note} {P : List Plantilla} {Γ : List Local} {item : ExprItem}
  {t : Tree}

/-- With no name declared, only slots of the emission itself are used. -/
theorem ExprTree.slots_ge (h : ExprTree X N P Γ item t) (hΓ : ∀ n, resolveLocal Γ n = none) :
    ∀ k ∈ t.slots, Γ.length ≤ k := by
  induction h with
  | literal | sessionGet | memberNative | exprsNil | entriesNil | namedNil =>
    simp [Tree.slots, Atom.slots]
  | «local» _ hs | stepLocal hs => simp [hΓ] at hs
  | unary _ ih | listLit _ ih | dictLit _ ih | member _ _ ih
  | render _ _ _ _ _ _ _ _ ih | modulo _ _ _ _ ih | ctor _ _ _ _ _ ih =>
    simpa [Tree.slots, Atom.slots] using ih hΓ
  | callNative _ _ _ _ _ ih => simpa using ih hΓ
  | logical _ _ iht ihu | binary _ _ iht ihu | index _ _ iht ihu | exprsCons _ _ iht ihu
  | function _ _ _ _ _ _ _ _ iht ihu | dynamic _ _ _ _ _ _ iht ihu =>
    simp only [Tree.slots, Tree.slots_andThen, Atom.slots, List.append_nil, List.forall_mem_append]
    exact ⟨iht hΓ, ihu hΓ⟩
  | namedCons _ _ iht ihu =>
    simp only [Tree.slots, Atom.slots, List.nil_append, List.forall_mem_append]
    exact ⟨iht hΓ, ihu hΓ⟩
  | ternary _ _ _ ihs iht ihu | entriesCons _ _ _ ihs iht ihu =>
    simp only [Tree.slots, List.forall_mem_append]
    exact ⟨ihs hΓ, iht hΓ, ihu hΓ⟩
  | method _ _ _ _ _ _ _ _ _ _ ihs iht ihu | dynamicNamed _ _ _ _ _ _ _ ihs iht ihu =>
    simp only [Tree.slots, Tree.slots_andThen, Atom.slots, List.append_nil, List.forall_mem_append]
    exact ⟨ihs hΓ, iht hΓ, ihu hΓ⟩
  | @stepMember Γ loc kind op tloc o name t _ ih =>
    simp only [Tree.slots, Tree.slots_atoms, List.forall_mem_append]
    refine ⟨ih hΓ, ?_⟩
    cases kind <;> simp [stepMemberAtoms, stepResultAtoms, Atom.slots]
  | @stepIndex Γ loc kind op tloc o i d t u _ _ iht ihu =>
    have hΓ' : ∀ n, resolveLocal (auxLocal d "contened" :: Γ) n = none := fun n => by
      simpa [resolveLocal, findLocal, auxLocal] using hΓ n
    have hu : ∀ k ∈ u.slots, Γ.length ≤ k := fun k hk => (Nat.le_succ _).trans (ihu hΓ' k hk)
    simp only [Tree.slots, Tree.slots_andThen, Tree.slots_atoms, List.forall_mem_append]
    refine ⟨⟨iht hΓ, by simp [Atom.slots]⟩, hu, ?_⟩
    cases kind <;> simp [stepIndexAtoms, stepResultAtoms, Atom.slots]

/-- The name of a receiver that is no local is not declared. -/
theorem reservedObject_names {o : Expr} {obj n : String} {dn : Expr → List String}
    (h : reservedObject Γ o = some obj) (hn : n ∈ namesWith X dn o) : resolveLocal Γ n = none := by
  cases o with
  | ident loc name =>
    obtain rfl : n = name := by simpa using hn
    by_contra hne
    simp [reservedObject, hne] at h
  | _ => cases h

/-- Where a name of a call comes from. -/
theorem mem_callNames {e : Expr} {c : CallExpr} {n : String} {dn : Expr → List String}
    (he : e.asCall = some c) (hn : n ∈ namesWith X dn e) :
    (∃ o, c.object.receiver = some o ∧ n ∈ namesWith X dn o) ∨
    (c.object.isRender = false ∧ n ∈ exprsNames X dn c.args) ∨
    n ∈ namedNames X dn c.named ∨ n ∈ missingNames X dn c.object c.args.length := by
  rw [namesWith_call he, List.mem_append, List.mem_append, List.mem_append] at hn
  obtain hn | hn | hn := hn
  · left
    cases hobj : c.object with
    | member loc recv name => exact ⟨recv, rfl, by simpa [hobj, receiverNames] using hn⟩
    | _ => simp [hobj, receiverNames] at hn
  · right
    left
    split at hn
    · simp at hn
    · next hr => exact ⟨by simpa using hr, hn⟩
  · exact .inr (.inr hn)

/-- The names of a call of a native are those of its arguments. -/
theorem mem_nativeNames {e : Expr} {c : CallExpr} {n : String} {dn : Expr → List String} {id : ℕ}
    {name : String} {slot : ℕ} (he : e.asCall = some c)
    (ho : (Callee.native id name).Origin X Γ c.object) (hn : n ∈ namesWith X dn e)
    (hs : resolveLocal Γ n = some slot) :
    (c.object.isRender = false ∧ n ∈ exprsNames X dn c.args) ∨ n ∈ namedNames X dn c.named := by
  obtain ⟨o, hrecv, hn⟩ | hn | hn | hn := mem_callNames he hn
  · obtain ⟨iloc, hobj, -⟩ | ⟨mloc, recv, m, obj, hobj, hr, -⟩ := ho
    · rw [hobj] at hrecv
      cases hrecv
    · rw [hobj] at hrecv
      cases hrecv
      rw [reservedObject_names hr hn] at hs
      cases hs
  · exact .inl hn
  · exact .inr hn
  · obtain ⟨iloc, hobj, hid⟩ | ⟨mloc, recv, m, obj, hobj, -⟩ := ho
    · simp [hobj, missingNames, hid] at hn
    · simp [hobj, missingNames] at hn

theorem mem_exprsNames_of_defaults {fuel : ℕ} {n : String} {ds : List Expr}
    (hn : n ∈ (ds.map some).flatMap fun d => (d.map (names X fuel)).getD []) :
    ∃ fuel', n ∈ exprsNames X (names X fuel') ds := by
  cases fuel with
  | zero =>
    obtain ⟨d, -, hd⟩ := List.mem_flatMap.1 hn
    cases d <;> simp [names] at hd
  | succ fuel =>
    refine ⟨fuel, ?_⟩
    induction ds with
    | nil => simp at hn
    | cons d ds ih =>
      simp only [List.map_cons, List.flatMap_cons, Option.map_some, Option.getD_some,
        List.mem_append] at hn
      rw [exprsNames_cons, List.mem_append]
      exact hn.imp id ih

/-- The slot of a name that is looked up is used. -/
theorem ExprTree.slot_mem (h : ExprTree X N P Γ item t) {fuel slot : ℕ} {n : String}
    (hn : n ∈ itemNames X (names X fuel) item) (hs : resolveLocal Γ n = some slot) :
    slot ∈ t.slots := by
  induction h generalizing fuel with
  | @literal Γ e v h =>
    rw [itemNames, namesWith_literal h] at hn
    simp at hn
  | @«local» Γ e name slot' h hs' =>
    rw [itemNames, namesWith_localName h] at hn
    obtain rfl := List.mem_singleton.1 hn
    simpa [Tree.slots, Atom.slots, hs'] using hs.symm
  | unary _ ih | listLit _ ih | dictLit _ ih =>
    simp only [itemNames, namesWith_unary, namesWith_listLit, namesWith_dictLit] at hn
    simpa [Tree.slots, Atom.slots] using ih hn hs
  | logical _ _ iht ihu | binary _ _ iht ihu | index _ _ iht ihu =>
    simp only [itemNames, namesWith_logical, namesWith_binary, namesWith_index,
      List.mem_append] at hn
    simp only [Tree.slots, Tree.slots_andThen, Atom.slots, List.append_nil, List.mem_append]
    exact hn.imp (iht · hs) (ihu · hs)
  | ternary _ _ _ ihs iht ihu =>
    rw [itemNames, namesWith_ternary, List.mem_append, List.mem_append] at hn
    simp only [Tree.slots, List.mem_append]
    exact hn.imp (ihs · hs) (Or.imp (iht · hs) (ihu · hs))
  | sessionGet hr _ | memberNative hr _ _ =>
    rw [itemNames, namesWith_member] at hn
    rw [reservedObject_names hr hn] at hs
    cases hs
  | member _ _ ih =>
    rw [itemNames, namesWith_member] at hn
    simpa [Atom.slots] using ih hn hs
  | callNative he hc hname hk _ ih =>
    obtain ⟨-, hn⟩ | hn := mem_nativeNames he (resolveCall_origin hc) hn hs
    · simpa using ih hn hs
    · simp [hk] at hn
  | render he hc ha _ _ _ _ _ ih =>
    obtain ⟨hr, -⟩ | hn := mem_nativeNames he (resolveCall_origin hc) hn hs
    · obtain ⟨iloc, hobj, -⟩ | ⟨_, _, m, obj, _, _, hm⟩ := resolveCall_origin hc
      · simp [hobj, Expr.isRender] at hr
      · exact absurd hm.symm (member_ne_render obj m)
    · simpa [Tree.slots, Atom.slots] using ih hn hs
  | modulo he hc hk _ ih =>
    obtain ⟨mloc, recv, hobj, hres⟩ := resolveCall_origin hc
    obtain ⟨o, hrecv, hn⟩ | ⟨-, hn⟩ | hn | hn := mem_callNames he hn
    · rw [hobj] at hrecv
      cases hrecv
      rw [reservedObject_names hres hn] at hs
      cases hs
    · simpa [Tree.slots, Atom.slots] using ih hn hs
    · simp [hk] at hn
    · simp [hobj, missingNames] at hn
  | function he hc hk _ hds _ _ _ iht ihu =>
    obtain ⟨iloc, hobj, hid, hsig⟩ := resolveCall_origin hc
    simp only [Tree.slots_andThen, Tree.slots, Atom.slots, List.append_nil, List.mem_append]
    obtain ⟨o, hrecv, -⟩ | ⟨-, hn⟩ | hn | hn := mem_callNames he hn
    · rw [hobj] at hrecv
      cases hrecv
    · exact .inl (iht hn hs)
    · simp [hk] at hn
    · simp only [hobj, missingNames, hid, Option.isSome_none, Bool.false_eq_true, if_false, hsig,
        hds] at hn
      obtain ⟨fuel', hn⟩ := mem_exprsNames_of_defaults hn
      exact .inr (ihu hn hs)
  | ctor he hc hk _ _ ih =>
    obtain ⟨iloc, hobj, hid, hsig⟩ := resolveCall_origin hc
    obtain ⟨o, hrecv, -⟩ | ⟨-, hn⟩ | hn | hn := mem_callNames he hn
    · rw [hobj] at hrecv
      cases hrecv
    · simpa [Tree.slots, Atom.slots] using ih hn hs
    · simp [hk] at hn
    · simp [hobj, missingNames, hid, hsig] at hn
  | method he hc hr hk _ _ _ _ _ _ ihs iht ihu =>
    obtain ⟨mloc, recv, cls, hobj, -⟩ := resolveCall_origin hc
    simp only [Tree.slots_andThen, Tree.slots, Atom.slots, List.append_nil, List.mem_append]
    obtain ⟨o, hrecv, hn⟩ | ⟨-, hn⟩ | hn | hn := mem_callNames he hn
    · obtain rfl := Option.some.inj (hrecv.symm.trans hr)
      exact .inl (ihs hn hs)
    · exact .inr (.inl (iht hn hs))
    · simp [hk] at hn
    · simp [hobj, missingNames] at hn
  | dynamic he hc hr hk _ _ ihs iht =>
    obtain ⟨mloc, recv, hobj⟩ := resolveCall_origin hc
    simp only [Tree.slots_andThen, Tree.slots, Atom.slots, List.append_nil, List.mem_append]
    obtain ⟨o, hrecv, hn⟩ | ⟨-, hn⟩ | hn | hn := mem_callNames he hn
    · obtain rfl := Option.some.inj (hrecv.symm.trans hr)
      exact .inl (ihs hn hs)
    · exact .inr (iht hn hs)
    · simp [hk] at hn
    · simp [hobj, missingNames] at hn
  | dynamicNamed he hc hr hk _ _ _ ihs iht ihu =>
    obtain ⟨mloc, recv, hobj⟩ := resolveCall_origin hc
    simp only [Tree.slots_andThen, Tree.slots, Atom.slots, List.append_nil, List.mem_append]
    obtain ⟨o, hrecv, hn⟩ | ⟨-, hn⟩ | hn | hn := mem_callNames he hn
    · obtain rfl := Option.some.inj (hrecv.symm.trans hr)
      exact .inl (ihs hn hs)
    · exact .inr (.inl (iht hn hs))
    · exact .inr (.inr (ihu hn hs))
    · simp [hobj, missingNames] at hn
  | @stepLocal Γ loc kind op tloc name slot' hs' =>
    obtain rfl : n = name := by simpa [itemNames] using hn
    obtain rfl : slot' = slot := Option.some.inj (hs'.symm.trans hs)
    simp [stepLocalAtoms, Atom.slots]
  | stepMember _ ih =>
    rw [itemNames, namesWith_stepMember] at hn
    rw [Tree.slots, List.mem_append]
    exact .inl (ih hn hs)
  | @stepIndex Γ loc kind op tloc o i d t u _ _ iht ihu =>
    rw [itemNames, namesWith_stepIndex, List.mem_append] at hn
    have hs' : resolveLocal (auxLocal d "contened" :: Γ) n = some slot := by
      simpa [resolveLocal, findLocal, auxLocal] using hs
    simp only [Tree.slots, Tree.slots_andThen, List.mem_append]
    exact hn.elim (fun hn => .inl (.inl (iht hn hs))) fun hn => .inr (.inl (ihu hn hs'))
  | exprsNil | entriesNil | namedNil => simp [itemNames] at hn
  | exprsCons _ _ iht ihu =>
    rw [itemNames, exprsNames_cons, List.mem_append] at hn
    simp only [Tree.slots, List.mem_append]
    exact hn.imp (iht · hs) (ihu · hs)
  | entriesCons _ _ _ ihs iht ihu =>
    rw [itemNames, entriesNames_cons, List.mem_append, List.mem_append] at hn
    simp only [Tree.slots, List.mem_append]
    exact hn.imp (ihs · hs) (Or.imp (iht · hs) (ihu · hs))
  | namedCons _ _ iht ihu =>
    rw [itemNames, namedNames_cons, List.mem_append] at hn
    simp only [Tree.slots, Atom.slots, List.nil_append, List.mem_append]
    exact hn.imp (iht · hs) (ihu · hs)

end Slots

/-! ## The slots of the code -/

/-- An instruction from `a` up to `b` reads or writes the slot `k`. -/
def UsedIn (code : List Instr) (a b k : ℕ) : Prop :=
  ∃ p i, a ≤ p ∧ p < b ∧ code[p]? = some i ∧ (i.op = .loadLocal ∨ i.op = .storeLocal) ∧
    i.operand = k

section Code

variable {K : Context} {lt : Option (ℕ × ℕ)} {nest : List TryRange} {t : Tree}
  {code : List Instr} {a b c k : ℕ}

theorem UsedIn.empty : ¬ UsedIn code a a k := by
  rintro ⟨p, _, ha, hb, _⟩
  omega

theorem UsedIn.split (hab : a ≤ b) (hbc : b ≤ c) :
    UsedIn code a c k ↔ UsedIn code a b k ∨ UsedIn code b c k := by
  constructor
  · rintro ⟨p, i, ha, hc, h⟩
    by_cases hp : p < b
    · exact .inl ⟨p, i, ha, hp, h⟩
    · exact .inr ⟨p, i, by omega, hc, h⟩
  · rintro (⟨p, i, ha, hb, h⟩ | ⟨p, i, hb, hc, h⟩)
    · exact ⟨p, i, ha, by omega, h⟩
    · exact ⟨p, i, by omega, hc, h⟩

theorem UsedIn.one {i : Instr} (hi : code[a]? = some i) :
    UsedIn code a (a + 1) k ↔ (i.op = .loadLocal ∨ i.op = .storeLocal) ∧ i.operand = k := by
  constructor
  · rintro ⟨p, j, ha, hb, hj, h⟩
    obtain rfl : p = a := by omega
    rw [hi] at hj
    cases hj
    exact h
  · exact fun h => ⟨a, i, le_rfl, Nat.lt_succ_self a, hi, h⟩

/-- Any other instruction uses no slot. -/
theorem UsedIn.other {op : Op} {operand : ℕ} {loc : SourceLoc}
    (hi : InstrAt K nest a op operand loc) (h : op ≠ .loadLocal ∧ op ≠ .storeLocal) : ¬ UsedIn K.chunk.code a (a + 1) k := by
  rw [UsedIn.one hi.code]
  simp [h.1, h.2]

theorem Atom.slots_iff {loc : SourceLoc} {u : Atom} {operand : ℕ}
    (hi : InstrAt K nest a u.code operand loc) (he : u.Encodes K operand) :
    k ∈ u.slots ↔ UsedIn K.chunk.code a (a + 1) k := by
  rw [UsedIn.one hi.code]
  cases u with
  | loadLocal slot | storeLocal slot =>
    obtain ⟨rfl, -⟩ := he
    simp [Atom.slots, Atom.code, eq_comm]
  | op o =>
    have ho : o.arity.isSome := he.2
    cases o <;> simp_all [Atom.slots, Atom.code, Op.arity, Op.unary, Op.binary, Op.ternary]
  | _ => simp [Atom.slots, Atom.code]

/-- The slots of a tree are those that its code uses. -/
theorem Lay.slots_iff (h : Lay K lt nest t a b) :
    k ∈ t.slots ↔ UsedIn K.chunk.code a b k := by
  induction h with
  | nil => simp [Tree.slots, UsedIn.empty]
  | atom hi he => exact Atom.slots_iff hi he
  | seq ht hu iht ihu =>
    rw [Tree.slots, List.mem_append, iht, ihu, UsedIn.split ht.le hu.le]
  | ret hi | retNull hi | brk hi | cont hi => simp [Tree.slots, UsedIn.other hi]
  | @peek lt nest op t loc a b hi ht iht =>
    have hop : ¬ UsedIn K.chunk.code a (a + 1) k :=
      UsedIn.other hi (by split <;> decide)
    rw [Tree.slots, iht, UsedIn.split (Nat.le_succ a) ht.le]
    simp [hop]
  | @cond lt nest t u loc a b c hi ht hj hu iht ihu =>
    have hi' := UsedIn.other (k := k) hi (by decide)
    have hj' := UsedIn.other (k := k) hj (by decide)
    have htle := ht.le
    have hule := hu.le
    rw [Tree.slots, List.mem_append, iht, ihu, UsedIn.split (Nat.le_succ a) (by omega),
      UsedIn.split (a := a + 1) (b := b) (c := c) (by omega) (by omega),
      UsedIn.split (Nat.le_succ b) (by omega)]
    simp [hi', hj']
  | @when lt nest t loc a b hi ht iht =>
    have hi' := UsedIn.other (k := k) hi (by decide)
    rw [Tree.slots, iht, UsedIn.split (Nat.le_succ a) ht.le]
    simp [hi']
  | @«unless» lt nest t loc a b hi hj ht iht =>
    have hi' := UsedIn.other (k := k) hi (by decide)
    have hj' := UsedIn.other (k := k) hj (by decide)
    have htle := ht.le
    rw [Tree.slots, iht, UsedIn.split (Nat.le_succ a) (by omega),
      UsedIn.split (a := a + 1) (b := a + 2) (c := b) (by omega) (by omega)]
    simp [hi', hj']
  | @loop lt nest head body step toHead loc a b c d hh hi hb hs hj ihh ihb ihs =>
    have hi' := UsedIn.other (k := k) hi (by decide)
    have hj' := UsedIn.other (k := k) hj (by decide)
    have hhle := hh.le
    have hble := hb.le
    have hsle := hs.le
    rw [Tree.slots, List.mem_append, List.mem_append, ihh, ihb, ihs,
      UsedIn.split (a := a) (b := b) (c := d + 1) (by omega) (by omega),
      UsedIn.split (a := b) (b := b + 1) (c := d + 1) (by omega) (by omega),
      UsedIn.split (a := b + 1) (b := c) (c := d + 1) (by omega) (by omega),
      UsedIn.split (a := c) (b := d) (c := d + 1) (by omega) (by omega)]
    simp [hi', hj']
  | @tryCatch lt nest body handler loc a b c hb hj hh ihb ihh =>
    have hj' := UsedIn.other (k := k) hj (by decide)
    have hble := hb.le
    have hhle := hh.le
    rw [Tree.slots, List.mem_append, ihb, ihh, UsedIn.split (a := a) (b := b) (c := c) hble
      (by omega), UsedIn.split (a := b) (b := b + 1) (c := c) (by omega) (by omega)]
    simp [hj']

/-- The chunk of a state completes what was emitted to it outside the loops that were
    open before. -/
theorem Completes.self {X : Emitter} {s s' : EmitState} (hw : s.Wf) (hs : Stays s s') :
    Completes ⟨X, s'.chunk, s'.plantillas, s'.notes⟩ s' (some (0, 0)) [] s.here where
  code p hp _ := by
    rw [hs.loops_eq, hw.openTarget _ hp, map_closeJump_none]
  handler p _ _ := by
    rw [List.head?_nil, Option.or_none]
  inLoop _ := rfl
  constants := List.prefix_rfl
  numLocals := le_rfl
  hasAwait := id
  plantillas := List.prefix_rfl
  notes := List.prefix_rfl

end Code

/-! ## Hygienic copies -/

section Copies

variable {X : Emitter} {fuel : ℕ} {c : Copied} {s s₁ s' : EmitState} {ns ns' : List String}
  {t u : Tree}

/-- What was emitted from `s` to `s'` is a tree that uses the slots of the names `ns`, and
    no others of `s`. -/
structure CopyDone (X : Emitter) (ns : List String) (t : Tree) (s s' : EmitState) : Prop
    extends Emission X s s' t, Stays s s' where
  slots_ge : (∀ n, resolveLocal s.locals n = none) → ∀ k ∈ t.slots, s.locals.length ≤ k
  slot_mem : ∀ n ∈ ns, ∀ slot, resolveLocal s.locals n = some slot → slot ∈ t.slots

theorem CopyDone.nil (s : EmitState) : CopyDone X [] .nil s s :=
  ⟨.refl s, ⟨rfl, rfl, rfl⟩, fun _ k hk => by simp [Tree.slots] at hk, nofun⟩

theorem CopyDone.good (h : CopyDone X ns t s s') (hg : s.Good) : s'.Good :=
  hg.grows h.toGrows h.locals_eq h.depth_eq

theorem CopyDone.seq (ht : CopyDone X ns t s s₁) (hu : CopyDone X ns' u s₁ s') :
    CopyDone X (ns ++ ns') (.seq t u) s s' where
  toEmission := ht.toEmission.seq hu.toEmission
  toStays := ht.toStays.trans hu.toStays
  slots_ge hΓ k hk := by
    obtain hk | hk := List.mem_append.1 hk
    · exact ht.slots_ge hΓ k hk
    · have := hu.slots_ge (ht.locals_eq ▸ hΓ) k hk
      rwa [ht.locals_eq] at this
  slot_mem n hn slot hs := by
    rw [Tree.slots, List.mem_append]
    obtain hn | hn := List.mem_append.1 hn
    · exact .inl (ht.slot_mem n hn slot hs)
    · exact .inr (hu.slot_mem n hn slot (by rwa [ht.locals_eq]))

/-- A tree of an expression and a name of it. -/
theorem names_slot {Γ : List Local} {N : List Note} {P : List Plantilla} {e : Expr} {n : String}
    {slot : ℕ} (h : ExprTree X N P Γ (.expr e) t) (hn : n ∈ names X fuel e)
    (hs : resolveLocal Γ n = some slot) : slot ∈ t.slots := by
  cases fuel with
  | zero => simp [names] at hn
  | succ fuel => exact h.slot_mem hn hs

theorem emitExpr_copyDone {e : Expr} (hg : s.Good) (h : emitExpr X fuel e s = .ok ((), s')) :
    ∃ t, CopyDone X (names X fuel e) t s s' := by
  obtain ⟨t, ht⟩ := emitExpr_spec fuel e s.locals s s' hg rfl h
  have htree := ht.tree _ _ (List.Subset.refl _) List.prefix_rfl
  exact ⟨t, ht.toEmission, ht.toStays, htree.slots_ge, fun n hn slot hs => names_slot htree hn hs⟩

theorem emitGuard_copyDone {g : Guard} (hg : s.Good)
    (h : emitRequire g.loc (emitExpr X fuel g.condition) (emitExpr X fuel g.otherwise) s =
      .ok ((), s')) :
    ∃ t, CopyDone X (names X fuel g.condition ++ names X fuel g.otherwise) t s s' := by
  obtain ⟨t, u, hr⟩ := emitRequire_spec (emitExpr_spec fuel g.condition)
    (emitExpr_spec fuel g.otherwise) hg rfl h
  have hc := hr.cond _ _ (List.Subset.refl _) List.prefix_rfl
  have ho := hr.otherwise _ _ (List.Subset.refl _) List.prefix_rfl
  refine ⟨_, hr.toEmission, hr.toStays, fun hΓ k hk => ?_, fun n hn slot hs => ?_⟩
  · simp only [Tree.slots, List.append_nil, List.mem_append] at hk
    exact hk.elim (hc.slots_ge hΓ k) (ho.slots_ge hΓ k)
  · simp only [Tree.slots, List.append_nil, List.mem_append]
    exact (List.mem_append.1 hn).imp (names_slot hc · hs) (names_slot ho · hs)

theorem Copied.emit_copyDone (hg : s.Good) (h : c.emit X fuel s = .ok ((), s')) :
    ∃ t, CopyDone X (c.names X fuel) t s s' := by
  cases c with
  | guards gs =>
    induction gs generalizing s with
    | nil =>
      obtain ⟨-, rfl⟩ := Emit.pure_ok.1 h
      exact ⟨.nil, .nil s⟩
    | cons g gs ih =>
      obtain ⟨_, s₁, h₁, h₂⟩ := Emit.bind_ok.1 h
      obtain ⟨t, ht⟩ := emitGuard_copyDone hg h₁
      obtain ⟨u, hu⟩ := ih (ht.good hg) h₂
      exact ⟨_, ht.seq hu⟩
  | defaults loc ds =>
    induction ds generalizing s with
    | nil =>
      obtain ⟨-, rfl⟩ := Emit.pure_ok.1 h
      exact ⟨.nil, .nil s⟩
    | cons d ds ih =>
      cases d with
      | none => cases h
      | some e =>
        obtain ⟨_, s₁, h₁, h₂⟩ := Emit.bind_ok.1 h
        obtain ⟨t, ht⟩ := emitExpr_copyDone hg h₁
        obtain ⟨u, hu⟩ := ih (ht.good hg) h₂
        exact ⟨_, ht.seq hu⟩

theorem Copied.emit_blind : Blind (c.names X fuel) (c.emit X fuel) := by
  cases c with
  | guards gs =>
    have hgs : ∀ B, (∀ g ∈ gs, Odio.names X fuel g.condition ++ Odio.names X fuel g.otherwise ⊆ B) →
        Blind B (emitGuards (emitExpr X fuel) gs) := by
      intro B hB
      induction gs with
      | nil => exact .pure _
      | cons g gs ih =>
        obtain ⟨hc, ho⟩ := List.append_subset.1 (hB g (by simp))
        refine .bind ?_ fun _ => ih fun g hg => hB g (by simp [hg])
        exact .bind (emitExpr_blind fuel _ hc) fun _ => .bind (.emit _ _) fun _ =>
          .bind (.emit _ _) fun _ => .bind .here fun _ => .bind (.patch _ _) fun _ =>
          .bind (emitExpr_blind fuel _ ho) fun _ => .bind (.emit _ _) fun _ =>
          .bind .here fun _ => .patch _ _
    exact hgs _ fun g hg n hn => List.mem_flatMap.2 ⟨g, hg, hn⟩
  | defaults loc ds =>
    refine .emitDefaults fun d hd e he => emitExpr_blind fuel e fun n hn => ?_
    exact List.mem_flatMap.2 ⟨d, hd, by simpa [he] using hn⟩

theorem EmitState.Good.hidden (hg : s.Good) : s.hidden.Good where
  loops := hg.loops
  tries := hg.tries
  depth l hl := by
    obtain ⟨l', hl', rfl⟩ := List.mem_map.1 hl
    rw [Local.hidden_depth]
    exact hg.depth l' hl'
  slots := by
    show (s.locals.map Local.hidden).length ≤ _
    rw [List.length_map]
    exact hg.slots

/-- A copy that is emitted is hygienic exactly where none of its names is a parameter or
    a local. -/
theorem hygienic_iff_unshadowed (X : Emitter) (fuel : ℕ) (c : Copied) (s s' : EmitState)
    (hg : s.Good) (h : c.emit X fuel s = .ok ((), s')) :
    Hygienic X fuel c s ↔ ∀ n ∈ c.names X fuel, resolveLocal s.locals n = none := by
  constructor
  · intro hy n hn
    rw [Hygienic, h] at hy
    obtain ⟨t, ht⟩ := Copied.emit_copyDone hg h
    obtain ⟨u, hu⟩ := Copied.emit_copyDone hg.hidden hy
    by_contra hne
    obtain ⟨slot, hs⟩ := Option.ne_none_iff_exists'.1 hne
    -- both trees are laid out in the same code
    have hlt := ht.lay _ _ _ rfl (.self (X := X) hg.toWf ht.toStays)
    have hlu := hu.lay _ _ _ rfl (.self (X := X) hg.hidden.toWf hu.toStays)
    have hmem : slot ∈ u.slots := hlu.slots_iff.2 (hlt.slots_iff.1 (ht.slot_mem n hn slot hs))
    have hle := hu.slots_ge (fun m => resolveLocal_hidden s.locals m) slot hmem
    have hlen : s.hidden.locals.length = s.locals.length := List.length_map _
    have := resolveLocal_lt hs
    omega
  · intro hn
    rw [Hygienic, h, (Copied.emit_blind s () s' hn h).1]
    rfl

end Copies

/-! ## The places of the copies -/

section Places

variable {X : Emitter} {fuel : ℕ}

/-- The guards of an accepted route are copied where its parameters are the locals. -/
theorem emitRoute_place {route : RouteDecl} {s' : EmitState}
    (h : emitRoute X fuel route {} = .ok ((), s')) :
    ∃ s s₁, s.Good ∧ s.locals = paramLocals route.params ∧
      (Copied.guards route.guards).emit X fuel s = .ok ((), s₁) := by
  obtain ⟨_, s, hp, h⟩ := Emit.bind_ok.1 h
  obtain ⟨_, s₁, hgs, -⟩ := Emit.bind_ok.1 h
  have hempty : EmitState.Good {} := ⟨⟨nofun, nofun⟩, nofun, le_rfl⟩
  obtain ⟨hg, -, hl⟩ := declareParams_place hempty rfl hp
  exact ⟨s, s₁, hg, hl.trans (List.append_nil _), hgs⟩

/-- The default values that a call fills in are copied where its arguments are. -/
theorem emitFnArgs_place {loc : SourceLoc} {name espera : String} {sig : FnSig}
    {args : List Expr} {m : Emit Unit} {s s' : EmitState} (hm : EmitsExpr X m (.exprs args))
    (hg : s.Good)
    (h : emitFnArgs loc name espera sig args.length m (emitExpr X fuel) s = .ok ((), s')) :
    ∃ s₁, s₁.Good ∧ s₁.locals = s.locals ∧
      (Copied.defaults loc (sig.defaults.drop args.length)).emit X fuel s₁ = .ok ((), s') := by
  simp only [emitFnArgs, Emit.bind_ok, Emit.guard_ok] at h
  obtain ⟨_, s₁, h₁, -, h⟩ := h
  obtain ⟨t, ht⟩ := hm s.locals s s₁ hg rfl h₁
  have hg₁ := ht.good hg
  split at h
  · simp only [Emit.bind_ok, note_ok] at h
    obtain ⟨_, _, rfl, h⟩ := h
    exact ⟨_, hg₁.grows (.addNote s₁ _) rfl rfl, ht.locals_eq, h⟩
  · exact ⟨s₁, hg₁, ht.locals_eq, h⟩

theorem resolveLocal_paramLocals (params : List Param) (n : String) :
    resolveLocal (paramLocals params) n = none ↔ n ∉ params.map Param.name := by
  have hl : ∀ Γ : List Local, resolveLocal Γ n = none ↔ ∀ l ∈ Γ, l.name ≠ .user n := by
    intro Γ
    induction Γ with
    | nil => simp [resolveLocal, findLocal]
    | cons l Γ ih =>
      by_cases hn : l.name = .user n
      · simp [resolveLocal, findLocal, hn]
      · simp only [resolveLocal, findLocal, hn, if_false, List.forall_mem_cons, ne_eq,
          not_false_eq_true, true_and] at ih ⊢
        exact ih
  rw [hl, paramLocals]
  simp only [List.mem_reverse, List.mem_map, not_exists, not_and, forall_exists_index, and_imp,
    forall_apply_eq_imp_iff₂, ne_eq, LocalName.user.injEq]

end Places

/-! ## A captured guard -/

/-- `require session.rol == "admin" else null`. -/
def sessionGuard : Guard where
  condition := .binary {} .eq (.member {} (.ident {} "session") "rol") (.stringLit {} "admin")
  otherwise := .nullLit {}

/-- An endpoint of the group whose body parameter is called `session`. -/
def sessionRoute : RouteDecl where
  method := "POST"
  params := [{ type := "Datos", name := "session" }]
  guards := [sessionGuard]
  body := [.returnStmt {} (some (.boolLit {} true))]

/-- The state of the emission of that endpoint where the guard is copied. -/
def sessionPlace : EmitState where
  chunk := { numLocals := 1 }
  locals := [⟨.user "session", 0, "Datos"⟩]

/-- The guard of the session reads the parameter that the client sent. -/
theorem session_guard_captured :
    declareParams sessionRoute.params {} = .ok ((), sessionPlace) ∧
    (emitRoute {} 1 sessionRoute {}).isOk = true ∧
    ¬ Hygienic {} 1 (.guards sessionRoute.guards) sessionPlace := by
  refine ⟨rfl, by decide +kernel, fun hy => ?_⟩
  have hops := congrArg (fun r : Except Diagnostic (Unit × EmitState) =>
    match r with
    | .ok r => r.2.chunk.code.map Instr.op
    | .error _ => []) hy
  revert hops
  decide +kernel

/-- The same guard is hygienic where the parameter has another name. -/
theorem hygienic_iff_unshadowed_datos :
    Hygienic {} 1 (.guards [sessionGuard])
      { chunk := { numLocals := 1 }, locals := [⟨.user "datos", 0, "Datos"⟩] } := by
  have hok : ((Copied.guards [sessionGuard]).emit {} 1
      { chunk := { numLocals := 1 }, locals := [⟨.user "datos", 0, "Datos"⟩] }).isOk = true := by
    decide +kernel
  cases h : (Copied.guards [sessionGuard]).emit {} 1
      { chunk := { numLocals := 1 }, locals := [⟨.user "datos", 0, "Datos"⟩] } with
  | error d =>
    rw [h] at hok
    cases hok
  | ok r =>
    refine (hygienic_iff_unshadowed {} 1 _ _ r.2 ⟨⟨by simp, by simp⟩, ?_, le_rfl⟩ h).2 ?_
    · simp
    · decide +kernel

end Osodio.Odio
