import Mathlib.Tactic.IntervalCases
import Osodio.Syntax.Silent

/-!
# Files with nothing missing

What is read without an error has all the children that the emitter goes to, unless a compound
assignment has left one behind in the copy of its target.

## Main definitions

- `Program.Entero` — a program with no expression missing or incomplete
- `Recur.Hace` — what the rules that are called again leave behind

## Main results

- `parseStatement_hace` — a statement is complete, and another one may begin behind it
- `parseInto_entero` — so is whatever is read from a file
- `compound_assignment` — when `x op= e` is `x = x op (e)`, and nothing is missing
-/

namespace Osodio.Syntax

set_option synthInstance.maxSize 1000

/-! ## Programs -/

/-- An expression that is asked for. -/
def Hay (o : Option Expr) : Prop := ∃ e, o = some e ∧ Completa e

def Param.Entero (p : Param) : Prop := ∀ e ∈ p.defaultValue, Completa e

def ValidateRule.Entera (rule : ValidateRule) : Prop := Hay rule.condition

def FnDecl.Entera (f : FnDecl) : Prop := (∀ p ∈ f.params, p.Entero) ∧ ∀ t ∈ f.body, Syntax.Entera t

def CtorDecl.Entero (k : CtorDecl) : Prop :=
  (∀ p ∈ k.params, p.Entero) ∧ ∀ t ∈ k.body, Syntax.Entera t

structure ClassDecl.Entera (cl : ClassDecl) : Prop where
  rules : ∀ rule ∈ cl.rules, rule.Entera
  methods : ∀ f ∈ cl.methods, f.Entera
  ctors : ∀ k ∈ cl.ctors, k.Entero

def Guard.Entera (g : Guard) : Prop := Hay g.condition ∧ Hay g.otherwise

structure RouteDecl.Entera (route : RouteDecl) : Prop where
  params : ∀ p ∈ route.params, p.Entero
  guards : ∀ g ∈ route.guards, g.Entera
  body : ∀ t ∈ route.body, Syntax.Entera t

/-- No expression is missing, and none has a child missing. -/
structure Program.Entero (out : Program) : Prop where
  classes : ∀ cl ∈ out.classes, cl.Entera
  functions : ∀ f ∈ out.functions, f.Entera
  routes : ∀ route ∈ out.routes, route.Entera
  errors : ∀ e ∈ out.errors, ∀ t ∈ e.body, Syntax.Entera t

/-! ## Expressions and types -/

/-- The tokens have just been taken. -/
def Corte (P : Parser → Prop) (ts : List Token) (s : Parser) : Prop :=
  ∃ s₀, P s₀ ∧ s.past = ts.reverse ++ s₀.past ∧ s₀.rest = ts ++ s.rest

/-- An expression has just been read. -/
def TrasExpr (c : Entorno) (P : Parser → Prop) (e : Expr) (s : Parser) : Prop :=
  ∃ ts, Corte P ts s ∧ ∃ u ∈ s.rest.head?, Leida c 0 ts e u

section Rules

variable {c : Entorno} {N : ℕ} {b d : Bool} {P : Parser → Prop} {r : Recur} [r.Sana N]

theorem TrasExpr.completa {e : Expr} {s : Parser} (h : TrasExpr c P e s) : Completa e := by
  obtain ⟨ts, -, u, -, hleida⟩ := h
  exact hleida.1.completa

/-- A statement may begin behind an expression. -/
theorem TrasExpr.listo {e : Expr} {s : Parser} (h : TrasExpr c P e s) : Listo c s := by
  obtain ⟨ts, ⟨s₀, -, hpast, -⟩, u, hu, hleida⟩ := h
  obtain ⟨rest, hrest⟩ := List.head?_eq_some_iff.mp hu
  refine Arranca.listo ?_
  rw [hpast, hrest]
  exact .expresion hleida.1 hleida.2

theorem parseExpr_hace (hr : r.Fiel c N) : Hace c N b d P (parseExpr c r) (TrasExpr c P) where
  da s e s' hs hN hd hP hx hdiags := by
    obtain ⟨t, rest, hrest⟩ := List.exists_cons_of_ne_nil hs.queda
    have hsigue := (Sana.sigue (q := nunca) inferInstance hs.toBuena hN hd hx).1
    obtain ⟨ts, u, r', hrest', hts, hleida⟩ := (parseExpr_fiel hr).succ.de s t rest e s' hs.toBuena
      hrest trivial hN hx hdiags (hsigue.pulcra hs).libre
    rw [← hrest'] at hts
    exact ⟨ts, ⟨s, hP, hsigue.past hts, hts⟩, u, by rw [hrest']; rfl, hleida⟩

theorem parseExpr_listo (hr : r.Fiel c N) :
    Hace c N b d P (parseExpr c r) fun e s => Completa e ∧ Listo c s :=
  (parseExpr_hace hr).imp fun _ _ h => ⟨h.completa, h.listo⟩

theorem parseType_hace (hr : r.Fiel c N) :
    Hace c N b d P (parseType r) fun T s => ∃ ts, Corte P ts s ∧ Tipo ts T where
  da s T s' hs hN hd hP hx hdiags := by
    obtain ⟨t, rest, hrest⟩ := List.exists_cons_of_ne_nil hs.queda
    have hsigue := (Sana.sigue (q := nunca) inferInstance hs.toBuena hN hd hx).1
    obtain ⟨ts, u, r', hrest', hts, hT⟩ := (parseType_fiel hr).de s t rest T s' hs.toBuena hrest
      trivial hN hx hdiags (hsigue.pulcra hs).libre
    rw [← hrest'] at hts
    exact ⟨ts, ⟨s, hP, hsigue.past hts, hts⟩, hT⟩

/-! ## Statements -/

/-- What the rules that are called again leave behind. -/
structure Recur.Hace (c : Entorno) (N : ℕ) (r : Recur) : Prop where
  block : Syntax.Hace c N true false (fun _ => True) r.block fun body s =>
    (∀ t ∈ body, Entera t) ∧ Listo c s
  ifStmt : Syntax.Hace c N true true (fun _ => True) r.ifStmt fun t s => Entera t ∧ Listo c s
  ifFromElif : Syntax.Hace c N true true (fun _ => True) r.ifFromElif fun t s =>
    Entera t ∧ Listo c s
  group : ∀ out pre guards, out.Entero → (∀ g ∈ guards, g.Entera) →
    Syntax.Hace c N true true (fun _ => True) (r.group out pre guards) fun out' _ => out'.Entero

/-- Only where the line ends there is no statement. -/
theorem Listo.fin {s : Parser} {t : Token} (ht : s.rest.head? = some t)
    (hk : acabaLinea t.kind = true) : Listo c s := by
  intro u hu hk'
  rw [ht] at hu
  cases hu
  rw [hk] at hk'
  cases hk'

theorem parseReturn_hace (hr : r.Fiel c N) :
    Hace c N b true P (parseReturn c r) fun t s => Entera t ∧ Listo c s := by
  refine .advance fun t => .peek fun u => ?_
  split
  · next hk =>
    refine .pure fun s hs => ⟨?_, .fin hs.2 hk⟩
    constructor <;> simp [StmtKind.conValor, StmtKind.conDestino]
  · refine .bind (parseExpr_listo hr) fun e => .pure fun s hs => ⟨?_, hs.2⟩
    constructor <;> simp [StmtKind.conDestino, hs.1]

theorem parseIfDe_hace (hr : r.Fiel c N) (hh : r.Hace c N) {context : String} :
    Hace c N b true P (parseIfDe c r context) fun t s => Entera t ∧ Listo c s := by
  refine .advance fun t => .bind (parseExpr_listo hr) fun e => ?_
  refine .consta (F := Completa e) (fun _ h => h.1) fun he => .expect fun _ _ => ?_
  refine .bind hh.block.libre fun body => ?_
  refine .consta (F := ∀ t ∈ body, Entera t) (fun _ h => h.1) fun hbody => ?_
  refine .bind ((skipNewlines_hace trasLinea_listo).de_imp fun _ h => h.2) fun _ => ?_
  refine .bind (S := fun orelse s => (∀ t ∈ orelse, Entera t) ∧ Listo c s) ?_ fun orelse => ?_
  · refine .cuando (.bind hh.ifFromElif.libre fun t => .pure fun s hs => ?_) (.toma (fun _ _ =>
      .cuando (.bind hh.ifStmt.libre fun t => .pure fun s hs => ?_) ?_) (.pure fun s hs => ?_))
    · exact ⟨by simpa using hs.1, hs.2⟩
    · exact ⟨by simpa using hs.1, hs.2⟩
    · exact .expect fun _ _ => hh.block.libre
    · exact ⟨nofun, hs.1.1.1⟩
  · refine .pure fun s hs => ⟨?_, hs.2⟩
    constructor <;> simp [StmtKind.conDestino, he]
    · exact hbody
    · exact hs.1

theorem parseWhile_hace (hr : r.Fiel c N) (hh : r.Hace c N) :
    Hace c N b true P (parseWhile c r) fun t s => Entera t ∧ Listo c s := by
  refine .advance fun t => .bind (parseExpr_listo hr) fun e => ?_
  refine .consta (F := Completa e) (fun _ h => h.1) fun he => .expect fun _ _ => ?_
  refine .bind hh.block.libre fun body => .pure fun s hs => ⟨?_, hs.2⟩
  constructor <;> simp [StmtKind.conDestino, he]
  exact hs.1

theorem parseFor_hace (hr : r.Fiel c N) (hh : r.Hace c N) :
    Hace c N b true P (parseFor c r) fun t s => Entera t ∧ Listo c s := by
  refine .advance fun t => .salta fun T => .salta fun name => .expect fun _ _ => ?_
  refine .bind (parseExpr_listo hr) fun e => ?_
  refine .consta (F := Completa e) (fun _ h => h.1) fun he => .expect fun _ _ => ?_
  refine .bind hh.block.libre fun body => .pure fun s hs => ⟨?_, hs.2⟩
  constructor <;> simp [StmtKind.conValor, he]
  exact hs.1

theorem parseRequire_hace (hr : r.Fiel c N) :
    Hace c N b true P (parseRequire c r) fun t s => Entera t ∧ Listo c s := by
  refine .advance fun t => .bind (parseExpr_listo hr) fun e => ?_
  refine .consta (F := Completa e) (fun _ h => h.1) fun he => .expect fun _ _ => ?_
  refine .bind (parseExpr_listo hr) fun e' => .pure fun s hs => ⟨?_, hs.2⟩
  constructor <;> simp [he, hs.1]

theorem parseTry_hace (hh : r.Hace c N) :
    Hace c N b true P (parseTry r) fun t s => Entera t ∧ Listo c s := by
  refine .advance fun t => .expect fun _ _ => .bind hh.block.libre fun body => ?_
  refine .consta (F := ∀ t ∈ body, Entera t) (fun _ h => h.1) fun hbody => ?_
  refine .salta fun _ => .expect fun _ _ => .salta fun name => .expect fun _ _ => ?_
  refine .bind hh.block.libre fun orelse => .pure fun s hs => ⟨?_, hs.2⟩
  constructor <;> simp [StmtKind.conValor, StmtKind.conDestino]
  · exact hbody
  · exact hs.1

/-- Behind a declaration with no value another statement may begin. -/
theorem parseVarDecl_hace (hr : r.Fiel c N) :
    Hace c N b d (fun s => Arranca c s.past s.rest) (parseVarDecl c r) fun t s =>
      Entera t ∧ Listo c s := by
  refine .bind (parseType_hace hr) fun T => ?_
  refine .bind (S := fun _ s => Arranca c s.past s.rest) ?_ fun name => ?_
  · refine .toma (fun t ht => .pure ?_) .error
    rintro s ⟨past, hpast, ts, ⟨s₀, hs₀, hcut, hrest⟩, hT⟩
    rw [hrest] at hs₀
    rw [hpast, show past = ts.reverse ++ s₀.past from hcut]
    exact .declaracion hs₀ hT ht
  · refine .bind (S := fun value s => (∀ e, value = some e → Completa e) ∧ Listo c s) ?_
      fun value => .pure fun s hs => ⟨?_, hs.2⟩
    · refine .toma (fun _ _ => .bind (parseExpr_listo hr) fun e => .pure fun s hs => ?_)
        (.pure fun s hs => ⟨nofun, hs.1.listo⟩)
      refine ⟨fun e' he' => ?_, hs.2⟩
      cases he'
      exact hs.1
    · constructor <;> simp [StmtKind.conValor, StmtKind.conDestino]
      exact hs.1

/-- What is assigned to with an operator is copied whole. -/
theorem TrasExpr.copia {e : Expr} {s : Parser} {op : Token}
    (h : TrasExpr c (fun s => Arranca c s.past s.rest) e s) (hs : Pulcra c s)
    (hop : s.rest.head? = some op) (hk : (compuesta op.kind).isSome = true)
    (he : assignable e = true) : cloneTarget e = e := by
  obtain ⟨ts, ⟨s₀, hs₀, hpast, hrest⟩, u, hu, hleida⟩ := h
  obtain ⟨rest, hr⟩ := List.head?_eq_some_iff.mp hop
  refine hleida.1.copia.mpr ?_
  rw [hr] at hrest
  rw [hrest] at hs₀
  refine hs.llanas s₀.past ts op rest e ?_ hs₀ hleida.1 he hk
  rw [hpast, hr, List.reverse_append, List.reverse_reverse, List.append_assoc]

theorem parseSuelta_hace (hr : r.Fiel c N) :
    Hace c N b d (fun s => Arranca c s.past s.rest) (parseSuelta c r) fun o s =>
      (∀ t ∈ o, Entera t) ∧ Listo c s := by
  refine .bind_sana (fun e => ?_) (parseExpr_hace hr) fun e => .pulcra (.peek fun op => ?_)
  · refine .peek (fun t _ => ?_) fun t _ => ?_ <;> split <;> infer_instance
  refine .consta (F := Completa e) (fun _ h => h.1.1.completa) fun he => ?_
  split
  · next k hk =>
    refine .consta (F := assignable e = true → cloneTarget e = e) (fun s h => ?_) fun hcopy => ?_
    · exact h.1.1.copia h.1.2 h.2 (by rw [hk]; rfl)
    refine .hay (fun s h t ht hfin => ?_) (.advance fun _ => ?_)
    · rw [h.2] at ht
      cases ht
      rw [hfin] at hk
      cases hk
    split
    · exact .diag
    · next hassign =>
      refine .bind (parseExpr_listo hr) fun rhs => .pure fun s hs => ⟨?_, hs.2⟩
      rintro t ⟨⟩
      rw [hcopy (by simpa using hassign)]
      constructor <;> simp [he, Completa.binaria he hs.1]
  · refine .toma (fun _ _ => .bind (parseExpr_listo hr) fun v => .pure fun s hs => ⟨?_, hs.2⟩)
      (.pure fun s hs => ⟨?_, hs.1.1.1.listo⟩)
    · rintro t ⟨⟩
      constructor <;> simp [he, hs.1]
    · rintro t ⟨⟩
      constructor <;> simp [StmtKind.conDestino, he]

theorem parseStatement_hace (hr : r.Fiel c N) (hh : r.Hace c N) :
    Hace c N false true (fun s => Arranca c s.past s.rest) (parseStatement c r) fun o s =>
      (∀ t ∈ o, Entera t) ∧ Listo c s := by
  have hsome : ∀ {P : Parser → Prop} {x : Parse Stmt} [Sana N false true nunca x],
      Hace c N false true P x (fun t s => Entera t ∧ Listo c s) →
      Hace c N false true P (x >>= fun t => return some t) fun o s =>
        (∀ t ∈ o, Entera t) ∧ Listo c s := fun h =>
    .bind h fun t => .pure fun s hs => ⟨fun u hu => Option.some.inj hu ▸ hs.1, hs.2⟩
  -- a word that is a statement by itself
  have hsola : ∀ {k : StmtKind} {t : Token}, k.conValor = false → k.conDestino = false →
      acabaSentencia t.kind = true →
      Hace c N false true (fun s => Arranca c s.past s.rest ∧ s.rest.head? = some t)
        (advance >>= fun _ => return some { kind := k }) fun o s =>
          (∀ t ∈ o, Entera t) ∧ Listo c s := by
    intro k t hvalue htarget ht
    refine .advance fun u => .pure ?_
    rintro s ⟨past, hpast, -, hhead⟩
    cases hhead
    refine ⟨?_, Arranca.listo ?_⟩
    · rintro v ⟨⟩
      constructor <;> simp [hvalue, htarget]
    · rw [hpast]
      exact .linea ht
  refine .peek fun t => ?_
  split
  · exact hsome (parseReturn_hace hr)
  · exact hsome (parseIfDe_hace hr hh)
  · exact hsome (parseWhile_hace hr hh)
  · exact hsome (parseFor_hace hr hh)
  · exact hsome (parseRequire_hace hr)
  · exact hsome (parseTry_hace hh)
  · next hk => exact hsola rfl rfl (by rw [hk]; rfl)
  · next hk => exact hsola rfl rfl (by rw [hk]; rfl)
  · refine .mira (fun s => ⟨_, rfl⟩) fun b => ?_
    split
    · exact (hsome (parseVarDecl_hace hr)).de_imp fun _ h => h.1
    · exact (parseSuelta_hace hr).de_imp fun _ h => h.1

/-! ### A statement takes a token -/

theorem toma_eq {α : Type} {k : Tok} {hk : k ≠ .endOfFile} {x : Token → Parse α} {y : Parse α}
    {s : Parser} {t : Token} {rest : List Token} (hr : s.rest = t :: rest) :
    toma k x y hk s = (if t.kind = k then advance >>= x else y) s := by
  have hcheck : toma k x y hk s = (if decide (t.kind = k) then advance >>= x else y) s :=
    bind_ok (bind_ok (peek_cons hr))
  rw [hcheck]
  by_cases ht : t.kind = k <;> simp [ht]

/-- A type takes a token where it begins with one that it may begin with. -/
theorem parseType_come {s s' : Parser} {T : TypeRef} {t : Token} {rest : List Token} (hs : Buena s)
    (hN : s.rest.length ≤ N) (hrest : s.rest = t :: rest)
    (ht : t.kind = .ident ∨ t.kind = .kwVoid) (h : parseType r s = .ok (T, s')) :
    s'.rest.length < s.rest.length := by
  have hdos := hs.dos_rest hrest (by rcases ht with ht | ht <;> rw [ht] <;> decide)
  rw [parseType, toma_eq hrest] at h
  split at h
  · have hva : Sana N false true siempre
      (advance >>= fun _ => return { name := "void" } : Parse TypeRef) := inferInstance
    exact (hva.sigue hs hN (fun _ => hdos) h).2 rfl
  · next hno =>
    rw [toma_eq hrest, if_pos (ht.resolve_right hno)] at h
    revert h
    generalize hx : (advance >>= _ : Parse TypeRef) = x
    intro h
    have hva : Sana N false true siempre x := by
      rw [← hx]
      infer_instance
    exact (hva.sigue hs hN (fun _ => hdos) h).2 rfl

/-- What begins like a declaration takes a token. -/
theorem parseVarDecl_come {s : Parser} (hs : Buena s) (hN : s.rest.length ≤ N)
    (hlook : s.looksLikeType = true) : ∃ t s', parseVarDecl c r s = .ok (t, s') ∧ Sigue s s' ∧
      s'.rest.length < s.rest.length := by
  obtain ⟨t, _, _, _, _, hrest, ht, -⟩ := (looksLikeType_iff hs).mp hlook
  have htype : Sana N false false nunca (parseType r) := inferInstance
  obtain ⟨T, s₁, hT, hs₁, -⟩ := htype.va s hs hN (by simp)
  have hlt := parseType_come hs hN hrest ht hT
  have hname : Sana N true false nunca (do
      let name ← nombreO "se esperaba el nombre de la variable"
      let value ← toma .assign
        (fun _ => do
          let e ← parseExpr c r
          return some e)
        (return none)
      return { kind := .varDecl, type := T, name := name, value := value } : Parse Stmt) :=
    inferInstance
  obtain ⟨st, s₂, hst, hs₂, -⟩ := hname.va s₁ (hs₁.buena hs)
    (by rw [Bool.toNat_true]; omega) (by simp)
  exact ⟨st, s₂, (bind_ok hT).trans hst, hs₁.trans hs₂, hs₂.le.trans_lt hlt⟩

theorem parseStatement_come : Sana N false true siempre (parseStatement c r) := by
  have hreturn : Sana N false true siempre (parseReturn c r) := by
    unfold parseReturn
    infer_instance
  have hif : Sana N false true siempre (parseIf c r) := by
    unfold parseIf parseIfDe
    infer_instance
  have hwhile : Sana N false true siempre (parseWhile c r) := by
    unfold parseWhile
    infer_instance
  have hfor : Sana N false true siempre (parseFor c r) := by
    unfold parseFor
    infer_instance
  have hrequire : Sana N false true siempre (parseRequire c r) := by
    unfold parseRequire
    infer_instance
  have htry : Sana N false true siempre (parseTry r) := by
    unfold parseTry
    infer_instance
  have hsuelta : Sana N false true siempre (parseSuelta c r) := by
    refine .bind_tomado parseExpr_come fun e => .peek (fun t _ => ?_) fun t _ => ?_
    · split <;> infer_instance
    · split <;> infer_instance
  have hdefault : Sana N false true siempre (looksLikeType >>= fun b =>
      if b then parseVarDecl c r >>= fun t => return some t else parseSuelta c r) := by
    refine ⟨fun s hs hN hd => ?_⟩
    rw [bind_ok (a := s.looksLikeType) (x := looksLikeType) rfl]
    cases hlook : s.looksLikeType with
    | false => exact hsuelta.va s hs hN hd
    | true =>
      obtain ⟨t, s', ht, hs', hlt⟩ := parseVarDecl_come (c := c) (r := r) hs hN hlook
      exact ⟨some t, s', bind_ok ht, hs', fun _ => hlt⟩
  unfold parseStatement
  refine .peek (fun t _ => ?_) fun t ht => ?_
  · split
    · exact .bind_tomado hreturn inferInstance
    · exact .bind_tomado hif inferInstance
    · exact .bind_tomado hwhile inferInstance
    · exact .bind_tomado hfor inferInstance
    · exact .bind_tomado hrequire inferInstance
    · exact .bind_tomado htry inferInstance
    · infer_instance
    · infer_instance
    · exact hdefault
  · rw [ht]
    exact hdefault

theorem parseBlock_hace (hr : r.Fiel c N) (hh : r.Hace c N) :
    Hace c N false false P (parseBlock c r) fun body s => (∀ t ∈ body, Entera t) ∧ Listo c s := by
  refine .salta fun _ => .expect fun t ht => .de ?_
  refine .bind (S := fun body s => (∀ t ∈ body, Entera t) ∧ Listo c s) ?_ fun body => ?_
  · refine (Hace.lineas (I := Listo c) trasLinea_listo (fun body hbody => ?_) [] nofun).de_imp ?_
    · refine .conRed (Q := fun body => ∀ t ∈ body, Entera t) trasLinea_listo ?_ ?_
      · refine .bind (.pulcra ((parseStatement_hace hr hh).de_imp fun s hs => ?_)) fun o => ?_
        · obtain ⟨t, rest, hrest⟩ := List.exists_cons_of_ne_nil hs.2.queda
          have hhead : t ∈ s.rest.head? := by rw [hrest]; rfl
          exact hs.1.1 t hhead (hs.1.2 t hhead)
        · refine .pure fun s hs => ⟨fun t ht => ?_, hs.2⟩
          rcases List.mem_append.mp ht with ht | ht
          · exact hbody t ht
          · exact hs.1 t (Option.mem_toList.mp ht)
      · exact .inr (.bind_tomado parseStatement_come inferInstance)
    · rintro s ⟨past, hpast, -⟩
      refine Arranca.listo ?_
      rw [hpast]
      exact .linea (by rw [ht]; rfl)
  · refine .consta (F := ∀ t ∈ body, Entera t) (fun _ h => h.1) fun hbody => ?_
    refine .bind (S := fun _ s => Listo c s) ?_ fun _ => .pure fun s hs => ⟨hbody, hs⟩
    refine .toma (fun t ht => .pure ?_) (.pure fun s hs => hs.1.2)
    rintro s ⟨past, hpast, -⟩
    refine Arranca.listo ?_
    rw [hpast]
    exact .linea (by rw [ht]; rfl)

/-! ## Declarations -/

theorem parseParam_hace (hr : r.Fiel c N) :
    Hace c N b d P (parseParam c r) fun p _ => p.Entero := by
  refine .salta fun T => .salta fun name => ?_
  refine .bind (S := fun value _ => ∀ e ∈ value, Completa e) ?_ fun value =>
    .pure fun s hs => hs
  refine .toma (fun _ _ => .bind (parseExpr_listo hr) fun e => .pure fun s hs => ?_)
    (.pure fun s hs => nofun)
  rintro e' ⟨⟩
  exact hs.1

/-- What follows a list of parameters up to what it opens, and its block. -/
theorem parseFn_hace (hr : r.Fiel c N) (hh : r.Hace c N) {out : Program} (hout : out.Entero) :
    Hace c N b true P (parseFn c r out) fun out' _ => out'.Entero := by
  refine .advance fun _ => .salta fun T => .toma (fun t _ => ?_) .abandona
  refine .diagSi fun _ => .exige fun _ _ => ?_
  refine .bind (.separados (parseParam_hace hr)) fun params => ?_
  refine .consta (F := ∀ p ∈ params, p.Entero) (fun _ h => h) fun hparams => ?_
  refine .exige fun _ _ => .exige fun _ _ => .bind hh.block.libre fun body => .pure fun s hs => ?_
  exact { hout with functions := forall_mem_snoc hout.functions ⟨hparams, hs.1⟩ }

theorem parseValidate_hace (hr : r.Fiel c N) {cl : ClassDecl} (hcl : cl.Entera) :
    Hace c N b d P (parseValidate c r cl) fun cl' _ => cl'.Entera := by
  refine .de (.bind (S := fun cl' _ => cl'.Entera) ?_ fun cl' => ?_)
  · refine ((Hace.lineas (I := fun _ => True) (Q := ClassDecl.Entera) trasLinea_nada
      (fun cl hcl => ?_) cl hcl).imp fun _ _ h => h.1).libre
    refine .bind (parseExpr_listo hr) fun e => ?_
    refine .consta (F := Completa e) (fun _ h => h.1) fun he => .salta fun m => .salta fun _ => ?_
    refine .pure fun _ _ => ⟨{ hcl with rules := forall_mem_snoc hcl.rules ⟨e, rfl, he⟩ }, trivial⟩
  · exact .consta (F := cl'.Entera) (fun _ h => h) fun hcl' => .salta fun _ => .pure fun _ _ => hcl'

theorem parseMethod_hace (hr : r.Fiel c N) (hh : r.Hace c N) {cl : ClassDecl} (hcl : cl.Entera) :
    Hace c N b true P (parseMethod c r cl) fun y _ => (y.elim id id : ClassDecl).Entera := by
  refine .advance fun _ => .salta fun T => .toma (fun t _ => ?_) .error
  refine .salta fun _ => .expect fun _ _ => ?_
  refine .bind (.separados (parseParam_hace hr)) fun params => ?_
  refine .consta (F := ∀ p ∈ params, p.Entero) (fun _ h => h) fun hparams => ?_
  refine .expect fun _ _ => .expect fun _ _ => .bind hh.block.libre fun body => .pure fun s hs => ?_
  exact { hcl with methods := forall_mem_snoc hcl.methods ⟨hparams, hs.1⟩ }

theorem parseCtor_hace (hr : r.Fiel c N) (hh : r.Hace c N) {cl : ClassDecl} (hcl : cl.Entera) :
    Hace c N b true P (parseCtor c r cl) fun cl' _ => cl'.Entera := by
  refine .advance fun _ => .salta fun _ => ?_
  refine .bind (.separados (parseParam_hace hr)) fun params => ?_
  refine .consta (F := ∀ p ∈ params, p.Entero) (fun _ h => h) fun hparams => ?_
  refine .expect fun _ _ => .salta fun _ => .toma (fun _ _ => ?_) (.pure fun _ _ => ?_)
  · refine .bind hh.block.libre fun body => .pure fun s hs => ?_
    exact { hcl with ctors := forall_mem_snoc hcl.ctors ⟨hparams, hs.1⟩ }
  · exact { hcl with ctors := forall_mem_snoc hcl.ctors ⟨hparams, nofun⟩ }

theorem parseField_hace {cl : ClassDecl} (hcl : cl.Entera) :
    Hace c N b d P (parseField r cl) fun cl' _ => cl'.Entera :=
  .salta fun _ => .salta fun _ => .salta fun _ => .pure fun _ _ =>
    ⟨hcl.rules, hcl.methods, hcl.ctors⟩

theorem parseMiembro_hace (hr : r.Fiel c N) (hh : r.Hace c N) {cl : ClassDecl} (hcl : cl.Entera) :
    Hace c N b true P (parseMiembro c r cl) fun y _ => (y.elim id id : ClassDecl).Entera := by
  refine .peek fun t => ?_
  split
  · refine .advance fun _ => .expect fun _ _ => .salta fun _ => .expect fun _ _ => ?_
    exact .bind (parseValidate_hace hr hcl) fun cl' => .pure fun s hs => hs
  split
  · exact parseMethod_hace hr hh hcl
  · refine .quieta fun _ => ?_
    split
    · exact .bind (parseCtor_hace hr hh hcl) fun cl' => .pure fun s hs => hs
    · exact .bind (parseField_hace hcl) fun cl' => .pure fun s hs => hs

theorem parseClass_hace (hr : r.Fiel c N) (hh : r.Hace c N) {out : Program} (hout : out.Entero) :
    Hace c N b true P (parseClass c r out) fun out' _ => out'.Entero := by
  refine .advance fun _ => .toma (fun t _ => .exige fun _ _ => .salta fun _ => .exige fun _ _ => ?_)
    .abandona
  refine .bind (S := fun cl _ => cl.Entera) ?_ fun cl => ?_
  · refine ((Hace.lineas (I := fun _ => True) (Q := ClassDecl.Entera) trasLinea_nada
      (fun cl hcl => ?_) _ (by constructor <;> simp)).imp fun _ _ h => h.1).libre
    refine .conRed trasLinea_nada ?_ (.inl fun _ => trivial)
    exact (parseMiembro_hace hr hh hcl).imp fun _ _ h => ⟨h, trivial⟩
  · refine .consta (F := cl.Entera) (fun _ h => h) fun hcl => .salta fun _ => .salta fun _ => ?_
    exact .pure fun _ _ => { hout with classes := forall_mem_snoc hout.classes hcl }

theorem parseRoute_hace (hr : r.Fiel c N) (hh : r.Hace c N) {out : Program} (hout : out.Entero)
    {guards : List Guard} (hguards : ∀ g ∈ guards, g.Entera) {method pre : String} :
    Hace c N true d P (parseRoute c r out method pre guards) fun out' _ => out'.Entero := by
  refine .exige fun _ _ => .exige fun _ _ => .toma (fun t _ => ?_) .abandona
  refine .bind (S := fun (params : List Param) _ => ∀ p ∈ params, p.Entero) ?_ fun params => ?_
  · refine (Hace.mientras (I := fun (params : List Param) _ => ∀ p ∈ params, p.Entero)
      (J := fun params _ => ∀ p ∈ params, p.Entero) (fun params => ?_) (fun _ _ h _ => h) []).de_imp
      fun _ _ => nofun
    refine .consta (F := ∀ p ∈ params, p.Entero) (fun _ h => h.1) fun hparams => ?_
    refine .advance fun _ => .salta fun last => ?_
    split
    · exact .pure fun _ _ => hparams
    · exact .bind (parseParam_hace hr) fun p => .pure fun s hs => forall_mem_snoc hparams hs
  · refine .consta (F := ∀ p ∈ params, p.Entero) (fun _ h => h) fun hparams => ?_
    refine .exige fun _ _ => .salta fun origins => .exige fun _ _ => ?_
    refine .bind hh.block.libre fun body => .pure fun s hs => ?_
    exact { hout with routes := forall_mem_snoc hout.routes ⟨hparams, hguards, hs.1⟩ }

/-- The program so far is complete, and so are the guards. -/
def EnGrupo.Entero (a : EnGrupo) : Prop := a.1.Entero ∧ ∀ g ∈ a.2.1, g.Entera

theorem parseEnGrupo_hace (hr : r.Fiel c N) (hh : r.Hace c N) {combined : String} {a : EnGrupo}
    (ha : a.Entero) :
    Hace c N true true P (parseEnGrupo c r combined a) fun y _ =>
      EnGrupo.Entero (y.elim id id) := by
  obtain ⟨out, guards, seenRoute⟩ := a
  refine .peek fun t => ?_
  split
  · refine .advance fun _ => .diagSi fun _ => .bind (parseExpr_listo hr) fun e => ?_
    refine .consta (F := Completa e) (fun _ h => h.1) fun he => .expect fun _ _ => ?_
    refine .bind (parseExpr_listo hr) fun e' => .pure fun s hs => ⟨ha.1, ?_⟩
    exact forall_mem_snoc ha.2 ⟨⟨e, rfl, he⟩, e', rfl, hs.1⟩
  · refine .bind (hh.group out combined guards ha.1 ha.2).libre fun out' => ?_
    exact .pure fun s hs => ⟨hs, ha.2⟩
  · split
    · refine .advance fun _ => .bind (parseRoute_hace hr hh ha.1 ha.2) fun out' => ?_
      exact .pure fun s hs => ⟨hs, ha.2⟩
    · exact .error

theorem parseGroup_hace (hr : r.Fiel c N) (hh : r.Hace c N) {out : Program} (hout : out.Entero)
    {guards : List Guard} (hguards : ∀ g ∈ guards, g.Entera) {pre : String} :
    Hace c N false true P (parseGroup c r out pre guards) fun out' _ => out'.Entero := by
  refine .advance fun _ => .exige fun _ _ => .salta fun own => .exige fun _ _ => ?_
  refine .exige fun _ _ => .salta fun _ => .exige fun _ _ => ?_
  refine .bind (S := fun a _ => EnGrupo.Entero a) ?_ fun a => ?_
  · refine ((Hace.lineas (I := fun _ => True) (Q := EnGrupo.Entero) trasLinea_nada
      (fun a ha => ?_) _ ⟨hout, hguards⟩).imp fun _ _ h => h.1).libre
    refine .conRed trasLinea_nada ?_ (.inl fun _ => trivial)
    exact (parseEnGrupo_hace hr hh ha).imp fun _ _ h => ⟨h, trivial⟩
  · exact .consta (F := EnGrupo.Entero a) (fun _ h => h) fun ha => .salta fun _ =>
      .pure fun _ _ => ha.1

theorem parseError_hace (hh : r.Hace c N) {out : Program} (hout : out.Entero) :
    Hace c N b true P (parseError r out) fun out' _ => out'.Entero := by
  refine .advance fun _ => .exige fun _ _ => .salta fun v => ?_
  split
  · exact .diag
  · refine .diagSi fun _ => .exige fun _ _ => .bind hh.block.libre fun body => .pure fun s hs => ?_
    exact { hout with errors := forall_mem_snoc hout.errors hs.1 }

/-- The block `app:` has no expressions. -/
theorem parseApp_hace {out : Program} (hout : out.Entero) :
    Hace c N b d P (parseApp c out) fun out' _ => out'.Entero := by
  refine .salta fun _ => .diagSi fun _ => .exige fun _ _ => .salta fun _ => .exige fun _ _ => ?_
  exact .salta fun app => .salta fun _ => .pure fun _ _ =>
    ⟨hout.classes, hout.functions, hout.routes, hout.errors⟩

theorem parseImport_hace {out : Program} (hout : out.Entero) :
    Hace c N b d P (parseImport out) fun out' _ => out'.Entero := by
  refine .salta fun _ => .toma (fun t _ => ?_) .abandona
  split
  · exact .diag
  · exact .pure fun _ _ => ⟨hout.classes, hout.functions, hout.routes, hout.errors⟩

theorem parseDeclaration_hace (hr : r.Fiel c N) (hh : r.Hace c N) {out : Program}
    (hout : out.Entero) :
    Hace c N false true P (parseDeclaration c r out) fun out' _ => out'.Entero := by
  refine .peek fun t => ?_
  split
  · exact parseGroup_hace hr hh hout (List.forall_mem_nil _)
  · exact parseApp_hace hout
  · exact parseClass_hace hr hh hout
  · exact parseError_hace hh hout
  · exact parseFn_hace hr hh hout
  · exact parseImport_hace hout
  · split
    · exact .advance fun _ => parseRoute_hace hr hh hout (List.forall_mem_nil _)
    · exact .abandona

end Rules

/-! ## Files -/

section Files

variable {c : Entorno} {n : ℕ}

theorem recur_hace (n : ℕ) : (recur c n).Hace c n := by
  induction n with
  | zero =>
    have hnone : ∀ {α : Type} {d : Bool} {P : Parser → Prop} {x : Parse α}
        {R : α → Parser → Prop}, Hace c 0 true d P x R :=
      ⟨fun s a s' hs hN => absurd hN (by rw [Bool.toNat_true]; omega)⟩
    exact ⟨hnone, hnone, hnone, fun _ _ _ _ _ => hnone⟩
  | succ n ih =>
    have hsucc : ∀ {α : Type} {d : Bool} {P : Parser → Prop} {x : Parse α}
        {R : α → Parser → Prop}, Hace c n false d P x R → Hace c (n + 1) true d P x R := fun h =>
      ⟨fun s a s' hs hN => h.da s a s' hs (by simpa using hN)⟩
    have hr := recur_fiel (c := c) n
    exact ⟨hsucc (parseBlock_hace hr ih), hsucc (parseIfDe_hace hr ih),
      hsucc (parseIfDe_hace hr ih), fun _ _ _ hout hguards =>
        hsucc (parseGroup_hace hr ih hout hguards)⟩

/-- A list of tokens as the lexer ends it. -/
theorem pulcra_init {toks : List Token} (h : toks.getLast? = some ⟨.endOfFile, ""⟩)
    (hlen : toks.length ≠ 1) (hllanas : Llanas c toks) : Pulcra c { rest := toks } where
  toBuena := buena_init (by rw [h]; rfl) hlen
  mudo t ht := by
    rw [h] at ht
    cases ht
    rfl
  llanas := hllanas

/-- Whatever is read from a file is complete, if no error is noted and the targets of its compound
    assignments are copied whole. -/
theorem parseInto_entero {toks : List Token} {out out' : Program} {s' : Parser}
    (hlast : toks.getLast? = some ⟨.endOfFile, ""⟩) (hllanas : Llanas c toks) (hout : out.Entero)
    (h : parseInto c out { rest := toks } = .ok (out', s')) (hd : s'.diags = []) :
    out'.Entero := by
  by_cases hlen : toks.length = 1
  · obtain ⟨t, rfl⟩ := List.length_eq_one_iff.mp hlen
    cases hlast
    cases h
    exact hout
  · have hr := recur_fiel (c := c) toks.length
    have hh := recur_hace (c := c) toks.length
    have hfile : Hace c toks.length false false (fun _ => True) (do
        skipNewlines
        mientras (· ≠ .endOfFile) (fun out => conRed do
          let out ← parseDeclaration c (recur c toks.length) out
          return .inl out) out : Parse Program) fun out' _ => out'.Entero := by
      refine .salta fun _ => ?_
      refine (Hace.mientras (I := fun (out : Program) _ => out.Entero)
        (J := fun (out : Program) _ => out.Entero) (fun out => ?_) (fun _ _ h _ => h) out).de_imp
        fun _ _ => hout
      refine .consta (F := out.Entero) (fun _ h => h.1) fun hout => ?_
      refine (Hace.conRed (I := fun _ => True) (Q := Program.Entero) trasLinea_nada ?_
        (.inl fun _ => trivial)).imp fun y _ hy => ?_
      · refine .bind (parseDeclaration_hace hr hh hout) fun out' => .pure fun s hs => ⟨hs, trivial⟩
      · cases y <;> exact hy.1
    exact hfile.da _ _ _ (pulcra_init hlast hlen hllanas) le_rfl (by simp) trivial h hd

/-- An expression by itself is complete, if no error is noted. -/
theorem parseSingleExpression_completa {toks : List Token} {e : Expr} {s' : Parser}
    (hlast : toks.getLast? = some ⟨.endOfFile, ""⟩)
    (h : parseSingleExpression c { rest := toks } = .ok (some e, s')) (hd : s'.diags = []) :
    Completa e := by
  by_cases hlen : toks.length = 1
  · obtain ⟨t, rfl⟩ := List.length_eq_one_iff.mp hlen
    cases hlast
    cases h
  · have hs : Buena { rest := toks } := buena_init (by rw [hlast]; rfl) hlen
    have hmudo : ∀ t ∈ toks.getLast?, t.text = "" := by
      intro t ht
      rw [hlast] at ht
      cases ht
      rfl
    have hexpr : Fiel toks.length false (fun _ => True) (do
        skipNewlines
        if ← check .endOfFile then
          errorHere "se esperaba una expresion"
          return none
        else
          let e ← parseExpr c (recur c toks.length)
          skipNewlines
          if ← check .endOfFile then return some e
          else
            errorHere "sobra algo detras de la expresion"
            return none : Parse (Option Expr)) fun _ o _ => ∀ e, o = some e → Completa e := by
      refine .bind .nada fun _ _ _ _ => .bind .nada fun _ last _ _ => ?_
      split
      · exact .error
      · refine .bind ((parseExpr_fiel (recur_fiel _)).de_imp fun _ _ => trivial) fun ts e _ he => ?_
        refine .bind .nada fun _ _ _ _ => .bind .nada fun _ last _ _ => ?_
        split
        · exact .pure fun _ _ e' he' => Option.some.inj he' ▸ he.1.completa
        · exact .error
    obtain ⟨_, _, he⟩ := hexpr.corre hs hmudo le_rfl h hd
    exact he e rfl

/-- A run that ends, with this of what it gives. -/
def acabaCon {α : Type} (p : α → Parser → Bool) : Except Fault (α × Parser) → Bool
  | .ok (a, s) => p a s
  | .error _ => false

theorem acabaCon_inv {α : Type} {p : α → Parser → Bool} {x : Except Fault (α × Parser)}
    (h : acabaCon p x = true) : ∃ a s, x = .ok (a, s) ∧ p a s = true := by
  match x, h with
  | .ok (a, s), h => exact ⟨a, s, rfl, h⟩

theorem acabaCon_of {α : Type} {p : α → Parser → Bool} {x : Except Fault (α × Parser)} {a : α}
    {s : Parser} (hx : x = .ok (a, s)) (h : acabaCon p x = true) : p a s = true := by
  rw [hx] at h
  exact h

/-- `x op= e` and `x = x op (e)` are the same statement, with no child missing, if and only if the
    copy of `x` leaves nothing behind.  In what is read without an error no child is missing, as
    long as that holds of every target that a statement may begin with. -/
theorem compound_assignment (c : Entorno) :
    (∀ (n : ℕ) (s₁ s₂ : Parser) (xs es rest : List Token) (x e : Expr)
      (op igual signo l g : Token), Deriva c 0 xs x → assignable x = true →
      compuesta op.kind = some signo.kind → igual.kind = .assign → l.kind = .lParen →
      Deriva c 0 es e → g.kind = .rParen → Ante (sigueNivel 0) rest → Buena s₁ → Buena s₂ →
      s₁.rest = xs ++ op :: es ++ rest →
      s₂.rest = xs ++ igual :: (xs ++ signo :: l :: (es ++ [g])) ++ rest →
      s₁.rest.length ≤ n → s₂.rest.length ≤ n →
      ∃ a₁ a₂ s₁' s₂', parseStatement c (recur c n) s₁ = .ok (some a₁, s₁') ∧
        parseStatement c (recur c n) s₂ = .ok (some a₂, s₂') ∧
        (s₁'.rest = rest ∧ s₁'.diags = s₁.diags) ∧ (s₂'.rest = rest ∧ s₂'.diags = s₂.diags) ∧
        (a₁ = a₂ ∧ Entera a₁ ↔ llana x = true)) ∧
    (∀ (toks : List Token) (out out' : Program) (s' : Parser),
      toks.getLast? = some ⟨.endOfFile, ""⟩ → Llanas c toks → out.Entero →
      parseInto c out { rest := toks } = .ok (out', s') → s'.diags = [] → out'.Entero) ∧
    ∀ (toks : List Token) (e : Expr) (s' : Parser), toks.getLast? = some ⟨.endOfFile, ""⟩ →
      parseSingleExpression c { rest := toks } = .ok (some e, s') → s'.diags = [] → Completa e :=
  ⟨fun _ _ _ _ _ _ _ _ _ _ _ _ _ hx hassign hop higual hl he hg hrest hs₁ hs₂ hr₁ hr₂ hn₁ hn₂ =>
      asignacion_compuesta hx hassign hop higual hl he hg hrest hs₁ hs₂ hr₁ hr₂ hn₁ hn₂,
    fun _ _ _ _ hlast hllanas hout h hd => parseInto_entero hlast hllanas hout h hd,
    fun _ _ _ hlast h hd => parseSingleExpression_completa hlast h hd⟩

/-- `on error: a += k`. -/
def sumaEnError : List Token :=
  [⟨.kwOn, "on"⟩, ⟨.kwError, "error"⟩, ⟨.colon, ""⟩, ⟨.newline, ""⟩, ⟨.indent, ""⟩, ⟨.ident, "a"⟩,
    ⟨.plusEq, ""⟩, ⟨.ident, "k"⟩, ⟨.newline, ""⟩, ⟨.dedent, ""⟩, ⟨.endOfFile, ""⟩]

theorem sumaEnError_llanas :
    Llanas ⟨fun _ => ⟨0⟩, fun _ => none⟩ sumaEnError := by
  intro past xs op rest x heq _ hx _ hop
  rw [← List.append_assoc] at heq
  have hget : sumaEnError[(past.reverse ++ xs).length]? = some op := by
    rw [← heq]
    simp
  have hlt : (past.reverse ++ xs).length < 11 := (List.getElem?_eq_some_iff.mp hget).1
  have hsix : (past.reverse ++ xs).length = 6 := by
    generalize (past.reverse ++ xs).length = k at hget hlt
    interval_cases k <;> cases hget <;> first | rfl | cases hop
  have hpre : past.reverse ++ xs = sumaEnError.take 6 := by
    rw [← heq, List.take_left' hsix]
  have hxs : xs = (sumaEnError.take 6).drop past.length := by
    rw [← hpre, List.drop_left' (List.length_reverse)]
  have hle : past.length ≤ 6 := by
    rw [← hsix, List.length_append, List.length_reverse]
    omega
  -- what can be read as an expression, read in front of the end of a line
  have hlee := (hx.leido.lee xs.length le_rfl [⟨.newline, ""⟩, ⟨.endOfFile, ""⟩] (.cons rfl)) [] []
  obtain ⟨t, r, hcons, ht⟩ := hx.cabeza
  generalize past.length = k at hxs hle
  interval_cases k
  · cases hcons.symm.trans hxs
    cases ht
  · subst hxs
    have := @acabaCon_of _ (fun _ s => s.rest.length = 6) _ _ _ hlee (by decide +kernel)
    cases this
  · cases hcons.symm.trans hxs
    cases ht
  · cases hcons.symm.trans hxs
    cases ht
  · cases hcons.symm.trans hxs
    cases ht
  · subst hxs
    exact @acabaCon_of _ (fun e _ => llana e) _ _ _ hlee (by decide +kernel)
  · cases hcons.symm.trans hxs

/-- `a += k`, in a statement and in a file, and `a` as an expression. -/
theorem compound_assignment_suma :
    let c : Entorno := ⟨fun _ => ⟨0⟩, fun _ => none⟩
    let fin : List Token := [⟨.newline, ""⟩, ⟨.endOfFile, ""⟩]
    (∃ a₁ a₂ s₁ s₂,
      parseStatement c (recur c 9)
        { rest := [⟨.ident, "a"⟩, ⟨.plusEq, ""⟩, ⟨.ident, "k"⟩] ++ fin } = .ok (some a₁, s₁) ∧
      parseStatement c (recur c 9) { rest := [⟨.ident, "a"⟩, ⟨.assign, ""⟩, ⟨.ident, "a"⟩,
        ⟨.plus, ""⟩, ⟨.lParen, ""⟩, ⟨.ident, "k"⟩, ⟨.rParen, ""⟩] ++ fin } = .ok (some a₂, s₂) ∧
      (s₁.rest = fin ∧ s₁.diags = []) ∧ (s₂.rest = fin ∧ s₂.diags = []) ∧
      (a₁ = a₂ ∧ Entera a₁ ↔ llana { kind := .ident, text := "a" } = true)) ∧
    (∃ out s, parseInto c {} { rest := sumaEnError } = .ok (out, s) ∧ s.diags = [] ∧ out.Entero) ∧
    ∃ e s, parseSingleExpression c { rest := [⟨.ident, "a"⟩, ⟨.endOfFile, ""⟩] } = .ok (some e, s) ∧
      s.diags = [] ∧ Completa e := by
  intro c fin
  have hident : ∀ name, Deriva c 0 [⟨.ident, name⟩] { kind := .ident, text := name } := fun _ =>
    .baja (.atomo rfl) le_rfl (Nat.zero_le 10)
  obtain ⟨out, s, hx, h⟩ := @acabaCon_inv _ (fun _ s => s.diags.isEmpty)
    (parseInto c {} { rest := sumaEnError }) (by decide +kernel)
  have hd := List.isEmpty_iff.mp h
  refine ⟨?_, ⟨out, s, hx, hd, ?_⟩, _, _, rfl, rfl, ?_⟩
  · exact (compound_assignment c).1 9 _ _ [⟨.ident, "a"⟩] [⟨.ident, "k"⟩] fin _ _ ⟨.plusEq, ""⟩
      ⟨.assign, ""⟩ ⟨.plus, ""⟩ ⟨.lParen, ""⟩ ⟨.rParen, ""⟩ (hident "a") rfl rfl rfl rfl
      (hident "k") rfl (.cons rfl) ⟨nofun, by simp [fin], by decide⟩ ⟨nofun, by simp [fin], by decide⟩ rfl rfl
      (by decide) (by decide)
  · exact (compound_assignment c).2.1 sumaEnError {} out s rfl sumaEnError_llanas
      ⟨nofun, nofun, nofun, nofun⟩ hx hd
  · exact (compound_assignment c).2.2 [⟨.ident, "a"⟩, ⟨.endOfFile, ""⟩] _ _ rfl rfl rfl

/-- The index of the element that an operation begins with. -/
def Stmt.indice (t : Stmt) : Option Expr := (t.value.bind (·.lhs)).bind (·.lhs)

theorem Entera.indice {t : Stmt} {i : Expr} (h : Entera t) (hi : t.indice = some i) :
    Completa i := by
  obtain ⟨l, hl, hi⟩ := Option.bind_eq_some_iff.mp hi
  obtain ⟨v, hv, hl⟩ := Option.bind_eq_some_iff.mp hl
  cases h with
  | de _ _ value _ _ _ =>
    cases value v hv with
    | de _ _ _ _ lhs _ _ _ _ _ =>
      cases lhs l hl with
      | de _ _ _ _ lhs _ _ _ _ _ => exact lhs i hi

/-- An operator with nothing behind it. -/
def rota (e : Expr) : Bool := e.kind = .binary && e.lhs.isNone

theorem Completa.no_rota {e : Expr} (h : Completa e) : rota e = false := by
  cases h with
  | de _ hlhs _ _ _ _ _ _ _ _ =>
    rw [rota, Bool.and_eq_false_iff]
    by_cases hk : e.kind = .binary
    · have := hlhs (by rw [hk]; rfl)
      exact .inr (by simpa using this)
    · exact .inl (by simpa using hk)

/-- The index of `a[i + j] += k` is copied without its operands, and no error is noted. -/
theorem compound_assignment_indice :
    let c : Entorno := ⟨fun _ => ⟨0⟩, fun _ => none⟩
    let x : List Token := [⟨.ident, "a"⟩, ⟨.lBracket, ""⟩, ⟨.ident, "i"⟩, ⟨.plus, ""⟩,
      ⟨.ident, "j"⟩, ⟨.rBracket, ""⟩]
    let fin : List Token := [⟨.newline, ""⟩, ⟨.dedent, ""⟩, ⟨.endOfFile, ""⟩]
    (∃ a₁ a₂ s₁ s₂,
      parseStatement c (recur c 11) { rest := x ++ [⟨.plusEq, ""⟩, ⟨.ident, "k"⟩] ++ fin } =
        .ok (some a₁, s₁) ∧
      parseStatement c (recur c 20) { rest := x ++ [⟨.assign, ""⟩] ++ x ++ [⟨.plus, ""⟩,
        ⟨.lParen, ""⟩, ⟨.ident, "k"⟩, ⟨.rParen, ""⟩] ++ fin } = .ok (some a₂, s₂) ∧
      s₁.diags = [] ∧ s₂.diags = [] ∧ a₁ ≠ a₂) ∧
    ∃ out s, parseInto c {} { rest := [⟨.kwOn, "on"⟩, ⟨.kwError, "error"⟩, ⟨.colon, ""⟩,
        ⟨.newline, ""⟩, ⟨.indent, ""⟩] ++ x ++ [⟨.plusEq, ""⟩, ⟨.ident, "k"⟩] ++ fin } =
        .ok (out, s) ∧ s.diags = [] ∧ ¬out.Entero := by
  intro c x fin
  obtain ⟨o₁, s₁, hx₁, h₁⟩ := @acabaCon_inv _ (fun o s => s.diags.isEmpty &&
    (o.bind Stmt.indice).any rota) (parseStatement c (recur c 11)
      { rest := x ++ [⟨.plusEq, ""⟩, ⟨.ident, "k"⟩] ++ fin }) (by decide +kernel)
  obtain ⟨o₂, s₂, hx₂, h₂⟩ := @acabaCon_inv _ (fun o s => s.diags.isEmpty &&
    (o.bind Stmt.indice).any (!rota ·)) (parseStatement c (recur c 20) { rest := x ++
      [⟨.assign, ""⟩] ++ x ++ [⟨.plus, ""⟩, ⟨.lParen, ""⟩, ⟨.ident, "k"⟩, ⟨.rParen, ""⟩] ++ fin })
        (by decide +kernel)
  obtain ⟨out, s, hx, h⟩ := @acabaCon_inv _ (fun out s => s.diags.isEmpty &&
    out.errors.any fun d => d.body.any fun t => t.indice.any rota) (parseInto c {}
      { rest := [⟨.kwOn, "on"⟩, ⟨.kwError, "error"⟩, ⟨.colon, ""⟩, ⟨.newline, ""⟩, ⟨.indent, ""⟩] ++
        x ++ [⟨.plusEq, ""⟩, ⟨.ident, "k"⟩] ++ fin }) (by decide +kernel)
  simp only [Bool.and_eq_true, List.isEmpty_iff, List.any_eq_true, Option.any_eq_true] at h₁ h₂ h
  obtain ⟨hd₁, i₁, hi₁, hrota₁⟩ := h₁
  obtain ⟨hd₂, i₂, hi₂, hrota₂⟩ := h₂
  obtain ⟨hd, e, he, t, ht, i, hi, hrota⟩ := h
  obtain ⟨a₁, rfl, hi₁⟩ := Option.bind_eq_some_iff.mp hi₁
  obtain ⟨a₂, rfl, hi₂⟩ := Option.bind_eq_some_iff.mp hi₂
  refine ⟨⟨a₁, a₂, s₁, s₂, hx₁, hx₂, hd₁, hd₂, ?_⟩, out, s, hx, hd, fun hout => ?_⟩
  · rintro rfl
    rw [hi₁] at hi₂
    cases hi₂
    rw [hrota₁] at hrota₂
    cases hrota₂
  · have := ((hout.errors e he t ht).indice hi).no_rota
    rw [hrota] at this
    cases this

end Files

end Osodio.Syntax
