import Osodio.Syntax.Statements

/-!
# Compound assignment

`x += e` is read as `x = x + e`, with a copy of `x` on the right.  The copy follows the receiver and
the index of an element; the arguments of a call, the elements of a list and the operands of an
operator stay behind.

## Main definitions

- `Completa` — an expression with all the children that the nodes of its kind have
- `llana` — an expression with nothing in it that a copy leaves behind

## Main results

- `Deriva.completa` — whatever is written as an expression is complete
- `Deriva.copia` — the expressions that are equal to their copies
- `asignacion_compuesta` — the compound assignments that are read as the ones they stand for
-/

namespace Osodio.Syntax

/-! ## Children -/

/-- The kinds of node with a receiver, a function that is called, or a condition. -/
def ExprKind.conObjeto : ExprKind → Bool
  | .member | .index | .call | .ternary => true
  | _ => false

/-- The kinds of node with an operand, or an index. -/
def ExprKind.conIzquierda : ExprKind → Bool
  | .unary | .await | .preStep | .postStep | .index | .binary | .ternary => true
  | _ => false

/-- The kinds of node with one operand more. -/
def ExprKind.conDerecha : ExprKind → Bool
  | .binary | .ternary => true
  | _ => false

/-- Each child of a node of its kind is there, and is complete. -/
inductive Completa : Expr → Prop
  | de {e : Expr} (hobject : e.kind.conObjeto = true → e.object.isSome = true)
      (hlhs : e.kind.conIzquierda = true → e.lhs.isSome = true)
      (hrhs : e.kind.conDerecha = true → e.rhs.isSome = true)
      (object : ∀ o, e.object = some o → Completa o) (lhs : ∀ l, e.lhs = some l → Completa l)
      (rhs : ∀ r, e.rhs = some r → Completa r) (args : ∀ a ∈ e.args, Completa a.2)
      (items : ∀ i ∈ e.items, Completa i) (keys : ∀ p ∈ e.entries, Completa p.1)
      (values : ∀ p ∈ e.entries, Completa p.2) : Completa e

section Completa

variable {text : String} {k : ExprKind} {o l r e : Expr}

theorem Completa.atomo {c : Entorno} {t : Token} (h : atomo c t = some e) : Completa e := by
  rw [Syntax.atomo] at h
  split at h <;> cases h <;> constructor <;> nofun

theorem Completa.unaria (hk : k.conObjeto = false) (hk' : k.conDerecha = false)
    (h : Completa l) : Completa { kind := k, text := text, lhs := l } := by
  constructor <;> simp [hk, hk', h]

theorem Completa.binaria {op : Tok} (hl : Completa l) (hr : Completa r) :
    Completa (binario op l r) := by
  constructor <;> simp [binario, ExprKind.conObjeto, hl, hr]

theorem Completa.ternaria (ho : Completa o) (hl : Completa l) (hr : Completa r) :
    Completa { kind := .ternary, object := o, lhs := l, rhs := r } := by
  constructor <;> simp [ho, hl, hr]

theorem Completa.campo (h : Completa o) :
    Completa { kind := .member, text := text, object := o } := by
  constructor <;> simp [ExprKind.conIzquierda, ExprKind.conDerecha, h]

theorem Completa.indice (h : Completa o) (hl : Completa l) :
    Completa { kind := .index, object := o, lhs := l } := by
  constructor <;> simp [ExprKind.conDerecha, h, hl]

theorem Completa.llamada {args : List (String × Expr)} (h : Completa o)
    (has : ∀ a ∈ args, Completa a.2) : Completa { kind := .call, object := o, args := args } := by
  constructor <;> simp [ExprKind.conIzquierda, ExprKind.conDerecha, h]
  exact fun _ _ ha => has _ ha

theorem Completa.lista {items : List Expr} (h : ∀ i ∈ items, Completa i) :
    Completa { kind := .listLit, items := items } := by
  constructor <;> simp [ExprKind.conObjeto, ExprKind.conIzquierda, ExprKind.conDerecha]
  exact h

theorem Completa.dict {entries : List (Expr × Expr)}
    (h : ∀ p ∈ entries, Completa p.1 ∧ Completa p.2) :
    Completa { kind := .dictLit, entries := entries } := by
  constructor <;> simp [ExprKind.conObjeto, ExprKind.conIzquierda, ExprKind.conDerecha]
  · exact fun _ _ hp => (h _ hp).1
  · exact fun _ _ hp => (h _ hp).2

end Completa

mutual

/-- Whatever is written as an expression is complete. -/
theorem Deriva.completa {c : Entorno} : ∀ {n : ℕ} {ts : List Token} {e : Expr}, Deriva c n ts e →
    Completa e
  | _, _, _, .sube _ h => h.completa
  | _, _, _, .ternario hc _ hl _ hr => .ternaria hc.completa hl.completa hr.completa
  | _, _, _, .binario _ hl hr => .binaria hl.completa hr.completa
  | _, _, _, .no _ h => .unaria rfl rfl h.completa
  | _, _, _, .menos _ h => .unaria rfl rfl h.completa
  | _, _, _, .antes _ h _ => .unaria rfl rfl h.completa
  | _, _, _, .espera _ h => .unaria rfl rfl h.completa
  | _, _, _, .despues _ h _ => .unaria rfl rfl h.completa
  | _, _, _, .campo h _ _ => .campo h.completa
  | _, _, _, .llamada h _ has _ => .llamada h.completa has.completa
  | _, _, _, .indice h _ hi _ => .indice h.completa hi.completa
  | _, _, _, .atomo h => .atomo h
  | _, _, _, .grupo _ h _ => h.completa
  | _, _, _, .lista _ h _ => .lista h.completa
  | _, _, _, .dict _ h _ => .dict h.completa

theorem Items.completa {c : Entorno} : ∀ {ts : List Token} {es : List Expr}, Items c ts es →
    ∀ e ∈ es, Completa e
  | _, _, .nil => nofun
  | _, _, .uno h => by simpa using h.completa
  | _, _, .mas h _ h' => List.forall_mem_cons.mpr ⟨h.completa, h'.completa⟩

theorem Entradas.completa {c : Entorno} : ∀ {ts : List Token} {es : List (Expr × Expr)},
    Entradas c ts es → ∀ p ∈ es, Completa p.1 ∧ Completa p.2
  | _, _, .nil => nofun
  | _, _, .uno hk _ hv => by simpa using ⟨hk.completa, hv.completa⟩
  | _, _, .mas hk _ hv _ h => List.forall_mem_cons.mpr ⟨⟨hk.completa, hv.completa⟩, h.completa⟩

theorem Args.completa {c : Entorno} : ∀ {named : Bool} {ts : List Token}
    {as : List (String × Expr)}, Args c named ts as → ∀ a ∈ as, Completa a.2
  | _, _, _, .nil => nofun
  | _, _, _, .uno h => List.forall_mem_singleton.mpr h.completa
  | _, _, _, .mas h _ h' => List.forall_mem_cons.mpr ⟨h.completa, h'.completa⟩

theorem Arg.completa {c : Entorno} : ∀ {named named' : Bool} {ts : List Token} {a : String × Expr},
    Arg c named ts a named' → Completa a.2
  | _, _, _, _, .posicional h => h.completa
  | _, _, _, _, .nombrado _ _ h => h.completa

end

/-! ## Copies -/

/-- The kinds of node that are made of operands. -/
def ExprKind.opera : ExprKind → Bool
  | .unary | .binary | .ternary | .await | .preStep | .postStep => true
  | _ => false

/-- Nothing in it is left behind by a copy: no operator, no argument and no element. -/
def llana : Expr → Bool
  | ⟨kind, _, _, _, _, object, lhs, _, args, items, entries⟩ =>
    !kind.opera && args.isEmpty && items.isEmpty && entries.isEmpty &&
      (match object with
        | some e => llana e
        | none => true) &&
      match lhs with
        | some e => llana e
        | none => true

/-- What is equal to its copy, among what is written as an expression. -/
theorem Deriva.copia {c : Entorno} : ∀ {n : ℕ} {ts : List Token} {e : Expr}, Deriva c n ts e →
    (cloneTarget e = e ↔ llana e = true)
  | _, _, _, .sube _ h => h.copia
  | _, _, _, .ternario _ _ _ _ _ => by simp [cloneTarget, llana, ExprKind.opera]
  | _, _, _, .binario _ _ _ => by
    simp [Syntax.binario, cloneTarget, llana, ExprKind.opera]
  | _, _, _, .no _ _ => by simp [cloneTarget, llana, ExprKind.opera]
  | _, _, _, .menos _ _ => by simp [cloneTarget, llana, ExprKind.opera]
  | _, _, _, .antes _ _ _ => by simp [cloneTarget, llana, ExprKind.opera]
  | _, _, _, .espera _ _ => by simp [cloneTarget, llana, ExprKind.opera]
  | _, _, _, .despues _ _ _ => by simp [cloneTarget, llana, ExprKind.opera]
  | _, _, _, .campo h _ _ => by simp [cloneTarget, llana, ExprKind.opera, h.copia]
  | _, _, _, .llamada h _ _ _ => by
    simp [cloneTarget, llana, ExprKind.opera, h.copia, eq_comm (a := []), and_comm]
  | _, _, _, .indice h _ hi _ => by simp [cloneTarget, llana, ExprKind.opera, h.copia, hi.copia]
  | _, _, _, .atomo h => by
    rw [Syntax.atomo] at h
    split at h <;> cases h <;> simp [cloneTarget, llana, ExprKind.opera]
  | _, _, _, .grupo _ h _ => h.copia
  | _, _, _, .lista _ _ _ => by simp [cloneTarget, llana, ExprKind.opera, eq_comm (a := [])]
  | _, _, _, .dict _ _ _ => by simp [cloneTarget, llana, ExprKind.opera, eq_comm (a := [])]

/-! ## Statements -/

/-- The kinds of statement that evaluate something. -/
def StmtKind.conValor : StmtKind → Bool
  | .exprStmt | .assign | .ifStmt | .whileStmt | .requireStmt => true
  | _ => false

/-- The kinds of statement with one expression more, or with another one. -/
def StmtKind.conDestino : StmtKind → Bool
  | .assign | .forStmt | .requireStmt => true
  | _ => false

/-- Each expression of a statement of its kind is there, and all are complete. -/
inductive Entera : Stmt → Prop
  | de {s : Stmt} (hvalue : s.kind.conValor = true → s.value.isSome = true)
      (htarget : s.kind.conDestino = true → s.target.isSome = true)
      (value : ∀ e, s.value = some e → Completa e) (target : ∀ e, s.target = some e → Completa e)
      (body : ∀ t ∈ s.body, Entera t) (orelse : ∀ t ∈ s.orelse, Entera t) : Entera s

section Statements

variable {c : Entorno} {n : ℕ} {ts : List Token} {e : Expr}

/-- What can be assigned to is written with no operator around it. -/
theorem Deriva.de_assignable : ∀ {n : ℕ} {ts : List Token} {e : Expr}, Deriva c n ts e → n ≤ 9 →
    assignable e = true → Deriva c 9 ts e
  | n, _, _, .sube hn h, hle, he => by
    by_cases hnine : n = 9
    · rw [hnine] at h
      exact .sube (by decide) h
    · exact h.de_assignable (by omega) he
  | _, _, _, .ternario _ _ _ _ _, _, he => absurd he (by simp [assignable])
  | _, _, _, .binario _ _ _, _, he => absurd he (by simp [assignable, Syntax.binario])
  | _, _, _, .no _ _, _, he => absurd he (by simp [assignable])
  | _, _, _, .menos _ _, _, he => absurd he (by simp [assignable])
  | _, _, _, .antes _ _ _, _, he => absurd he (by simp [assignable])
  | _, _, _, .espera _ _, _, he => absurd he (by simp [assignable])
  | _, _, _, .despues _ _ _, _, he => absurd he (by simp [assignable])
  | _, _, _, .campo h hd ht, _, _ => .campo h hd ht
  | _, _, _, .llamada _ _ _ _, _, he => absurd he (by simp [assignable])
  | _, _, _, .indice h hl hi hg, _, _ => .indice h hl hi hg
  | _, _, _, .atomo _, hle, _ => absurd hle (by decide)
  | _, _, _, .grupo _ _ _, hle, _ => absurd hle (by decide)
  | _, _, _, .lista _ _ _, hle, _ => absurd hle (by decide)
  | _, _, _, .dict _ _ _, hle, _ => absurd hle (by decide)

/-- If the first of these is a name, what goes on with an expression is behind it. -/
def Postfijo (ts : List Token) : Prop :=
  ∀ t r, ts = t :: r → t.kind = .ident → ∀ u ∈ r.head?, siguePostfijo u.kind = true

theorem Postfijo.append {as : List Token} {op : Token} (h : Postfijo ts) (hne : ts ≠ [])
    (hop : siguePostfijo op.kind = true) : Postfijo (ts ++ op :: as) := by
  intro t r heq ht u hu
  obtain ⟨t', r', rfl⟩ := List.exists_cons_of_ne_nil hne
  obtain ⟨rfl, rfl⟩ := List.cons.inj heq
  cases r' with
  | nil =>
    cases hu
    exact hop
  | cons v r' => exact h _ _ rfl ht u hu

theorem Postfijo.abre {t : Token} (ht : t.kind ≠ .ident) : Postfijo (t :: ts) := by
  intro t' r heq ht'
  obtain ⟨rfl, rfl⟩ := List.cons.inj heq
  exact absurd ht' ht

/-- A name at the beginning is followed by what goes on with an expression. -/
theorem Deriva.postfijo : ∀ {n : ℕ} {ts : List Token} {e : Expr}, Deriva c n ts e → 9 ≤ n →
    Postfijo ts
  | _, _, _, .sube _ h, hn => h.postfijo (by omega)
  | _, _, _, .ternario _ _ _ _ _, hn => absurd hn (by decide)
  | _, _, _, .binario hop _ _, hn => absurd (hn.trans (nivelDe_le hop)) (by decide)
  | _, _, _, .no _ _, hn => absurd hn (by decide)
  | _, _, _, .antes _ _ _, hn => absurd hn (by decide)
  | _, _, _, .menos _ _, hn => absurd hn (by decide)
  | _, _, _, .espera _ _, hn => absurd hn (by decide)
  | _, _, _, .despues ht h _, _ =>
    (h.postfijo le_rfl).append h.ne_nil (by rcases ht with ht | ht <;> rw [ht] <;> rfl)
  | _, _, _, .campo h hd _, _ => (h.postfijo le_rfl).append h.ne_nil (by rw [hd]; rfl)
  | _, _, _, .llamada h hl _ _, _ => (h.postfijo le_rfl).append h.ne_nil (by rw [hl]; rfl)
  | _, _, _, .indice h hl _ _, _ => (h.postfijo le_rfl).append h.ne_nil (by rw [hl]; rfl)
  | _, _, _, .atomo _, _ => by
    intro t r heq _ u hu
    obtain ⟨-, rfl⟩ := List.cons.inj heq
    cases hu
  | _, _, _, .grupo hl _ _, _ => .abre (by rw [hl]; decide)
  | _, _, _, .lista hl _ _, _ => .abre (by rw [hl]; decide)
  | _, _, _, .dict hl _ _, _ => .abre (by rw [hl]; decide)

/-- What is assigned to does not begin like a declaration. -/
theorem Deriva.no_tipo {x : Expr} {u : Token} {rest : List Token} (h : Deriva c 9 ts x)
    (hu : u.kind ≠ .lt ∧ u.kind ≠ .question ∧ u.kind ≠ .ident) : ¬ComoTipo (ts ++ u :: rest) := by
  rintro ⟨t, a, q, v, r, heq, ht, ha, hq, hv⟩
  -- the second token
  obtain ⟨w, r', hw, hkind⟩ : ∃ w r', a ++ (q ++ v :: r) = w :: r' ∧
      (w.kind = .lt ∨ w.kind = .question ∨ w.kind = .ident) := by
    rcases ha with rfl | ⟨l, a, rfl, hl, -⟩
    · rcases hq with rfl | ⟨m, rfl, hm⟩
      · exact ⟨v, r, rfl, .inr (.inr hv)⟩
      · exact ⟨m, v :: r, rfl, .inr (.inl hm)⟩
    · exact ⟨l, _, rfl, .inl hl⟩
  obtain ⟨t', ts', rfl, hstart⟩ := h.cabeza
  rw [hw] at heq
  obtain ⟨rfl, hrest⟩ := List.cons.inj heq
  have hname : t'.kind = .ident := ht.resolve_right fun hvoid => by
    rw [hvoid] at hstart
    cases hstart
  cases ts' with
  | nil =>
    obtain ⟨rfl, -⟩ := List.cons.inj hrest
    rcases hkind with hk | hk | hk
    · exact hu.1 hk
    · exact hu.2.1 hk
    · exact hu.2.2 hk
  | cons w' ts' =>
    obtain ⟨rfl, -⟩ := List.cons.inj hrest
    have hpost := h.postfijo le_rfl _ _ rfl hname w' rfl
    rcases hkind with hk | hk | hk <;> rw [hk] at hpost <;> cases hpost

/-- A statement that assigns is no declaration. -/
theorem parseStatement_asigna {r : Recur} {s : Parser} {x : Expr} {u : Token} {rest : List Token}
    (hs : Buena s) (hr : s.rest = ts ++ u :: rest) (h : Deriva c 0 ts x)
    (hx : assignable x = true) (hu : u.kind = .assign ∨ (compuesta u.kind).isSome = true) :
    parseStatement c r s = parseSuelta c r s := by
  have hnine := h.de_assignable (by decide) hx
  have hlook : s.looksLikeType = false := by
    rw [← Bool.not_eq_true, looksLikeType_iff hs, hr]
    refine hnine.no_tipo ?_
    generalize u.kind = k at hu
    cases k <;> simp [compuesta] at hu ⊢
  obtain ⟨t, ts', rfl, ht⟩ := h.cabeza
  rw [parseStatement_sin_palabra hr (.inl ht), hlook]
  rfl

/-- A compound assignment is read with a copy of its target. -/
theorem compuesta_lee {xs es rest : List Token} {x e : Expr} {op : Token} {k : Tok}
    (hx : Deriva c 0 xs x) (hassign : assignable x = true) (hop : compuesta op.kind = some k)
    (he : Deriva c 0 es e) (hrest : Ante (sigueNivel 0) rest) (hn : (xs ++ op :: es).length ≤ n) :
    Lee (parseSuelta c (recur c n)) (xs ++ op :: es)
      (some { kind := .assign, target := x, value := binario k (cloneTarget x) e }) rest := by
  rw [List.length_append, List.length_cons] at hn
  have hnext : sigueNivel 0 op.kind = false := by
    generalize op.kind = j at hop
    cases j <;> first | rfl | cases hop
  refine .bind (hx.leido.lee n (by omega) _ (.cons hnext)) (.peek rfl ?_)
  rw [hop]
  refine .take ?_ (by simp [he.ne_nil])
  rw [if_neg (by rw [hassign]; decide)]
  exact .map (he.leido.lee n (by omega) _ hrest) .pure

/-- An assignment. -/
theorem asigna_lee {xs vs rest : List Token} {x v : Expr} {igual : Token} (hx : Deriva c 0 xs x)
    (higual : igual.kind = .assign) (hv : Deriva c 0 vs v) (hrest : Ante (sigueNivel 0) rest)
    (hn : (xs ++ igual :: vs).length ≤ n) :
    Lee (parseSuelta c (recur c n)) (xs ++ igual :: vs)
      (some { kind := .assign, target := x, value := v }) rest := by
  rw [List.length_append, List.length_cons] at hn
  refine .bind (hx.leido.lee n (by omega) _ (.cons (by rw [higual]; rfl))) (.peek rfl ?_)
  rw [higual]
  refine .toma_si higual ?_ (by simp [hv.ne_nil])
  exact .map (hv.leido.lee n (by omega) _ hrest) .pure

/-- The sum, or what else it is, of what is assigned to and of an expression in brackets. -/
theorem Deriva.operacion {xs es : List Token} {x e : Expr} {op signo l g : Token}
    (hx : Deriva c 0 xs x) (hassign : assignable x = true)
    (hop : compuesta op.kind = some signo.kind) (he : Deriva c 0 es e) (hl : l.kind = .lParen)
    (hg : g.kind = .rParen) :
    Deriva c 0 (xs ++ signo :: l :: (es ++ [g])) (Syntax.binario signo.kind x e) := by
  have hnine := hx.de_assignable (by decide) hassign
  have hgroup := Deriva.grupo hl he hg
  obtain ⟨m, hm⟩ : ∃ m, nivelDe signo.kind = some m := by
    generalize signo.kind = k at hop
    generalize op.kind = j at hop
    cases j <;> cases hop <;> exact ⟨_, rfl⟩
  have hle := nivelDe_le hm
  exact .baja (.binario hm (hnine.baja (by decide) (by omega))
    (hgroup.baja (by decide) (by omega))) (by omega) (Nat.zero_le m)

/-- `x op= e` and `x = x op (e)` are read as statements, and as the same one with all its
    expressions complete if and only if the copy of `x` leaves nothing behind. -/
theorem asignacion_compuesta {s₁ s₂ : Parser} {xs es rest : List Token} {x e : Expr}
    {op igual signo l g : Token} (hx : Deriva c 0 xs x) (hassign : assignable x = true)
    (hop : compuesta op.kind = some signo.kind) (higual : igual.kind = .assign)
    (hl : l.kind = .lParen) (he : Deriva c 0 es e) (hg : g.kind = .rParen)
    (hrest : Ante (sigueNivel 0) rest) (hs₁ : Buena s₁) (hs₂ : Buena s₂)
    (hr₁ : s₁.rest = xs ++ op :: es ++ rest)
    (hr₂ : s₂.rest = xs ++ igual :: (xs ++ signo :: l :: (es ++ [g])) ++ rest)
    (hn₁ : s₁.rest.length ≤ n) (hn₂ : s₂.rest.length ≤ n) :
    ∃ a₁ a₂ s₁' s₂', parseStatement c (recur c n) s₁ = .ok (some a₁, s₁') ∧
      parseStatement c (recur c n) s₂ = .ok (some a₂, s₂') ∧
      (s₁'.rest = rest ∧ s₁'.diags = s₁.diags) ∧ (s₂'.rest = rest ∧ s₂'.diags = s₂.diags) ∧
      (a₁ = a₂ ∧ Entera a₁ ↔ llana x = true) := by
  have hvalue := hx.operacion hassign hop he hl hg
  have hstmt₁ : parseStatement c (recur c n) s₁ = parseSuelta c (recur c n) s₁ :=
    parseStatement_asigna hs₁ (hr₁.trans (List.append_assoc _ _ _)) hx hassign
      (.inr (by rw [hop]; rfl))
  have hstmt₂ : parseStatement c (recur c n) s₂ = parseSuelta c (recur c n) s₂ :=
    parseStatement_asigna hs₂ (hr₂.trans (List.append_assoc _ _ _)) hx hassign (.inl higual)
  rw [hr₁, List.length_append] at hn₁
  rw [hr₂, List.length_append] at hn₂
  have hlee₁ := compuesta_lee hx hassign hop he hrest ((Nat.le_add_right _ _).trans hn₁)
    s₁.past s₁.diags
  have hlee₂ := asigna_lee hx higual hvalue hrest ((Nat.le_add_right _ _).trans hn₂)
    s₂.past s₂.diags
  rw [← hr₁] at hlee₁
  rw [← hr₂] at hlee₂
  refine ⟨_, _, _, _, hstmt₁.trans hlee₁, hstmt₂.trans hlee₂, ⟨rfl, rfl⟩, ⟨rfl, rfl⟩, ?_⟩
  rw [← hx.copia]
  constructor
  · rintro ⟨heq, -⟩
    have hbin : binario signo.kind (cloneTarget x) e = binario signo.kind x e :=
      Option.some.inj (congrArg Stmt.value heq)
    exact Option.some.inj (congrArg Expr.lhs hbin)
  · intro hcopy
    rw [hcopy]
    refine ⟨rfl, ?_⟩
    constructor <;> simp [hvalue.completa, hx.completa]

end Statements

end Osodio.Syntax
