import Osodio.Syntax.Grammar
import Osodio.Syntax.Reads

/-!
# Whatever the grammar writes is read

What is written at a level is read by the rule of the level, if the token behind does not go on
with it.  A level whose operators associate to the left is read from its first operand on: what
follows is left to the loop of the level, which is why the operands of the left are read with what
comes behind them.

## Main definitions

- `parseNivel`, `resto` — the rule of a level, and its loop
- `Leido` — the tokens are read for the expression

## Main results

- `Deriva.leido` — what the grammar writes is read
- `Tipo.leido` — so is a type
-/

namespace Osodio.Syntax

section Levels

variable (c : Entorno) (r : Recur)

/-- The rule of a level. -/
def parseNivel : ℕ → Parse Expr
  | 0 => parseTernary c r
  | 1 => parseOr c r
  | 2 => parseAnd c r
  | 3 => parseNot c r
  | 4 => parseEquality c r
  | 5 => parseComparison c r
  | 6 => parseSum c r
  | 7 => parseProduct c r
  | 8 => parseUnary c r
  | 9 => parsePostfix c r
  | _ => parsePrimary c r

/-- The loop of a level of binary operators. -/
def cola (ops : Tok → Bool) (sub : Parse Expr) (h : ops .endOfFile = false) (l : Expr) :
    Parse Expr :=
  mientras ops (fun l => do
    let op ← advance
    let r ← sub
    return .inl (binario op.kind l r)) l h

/-- The levels with a loop. -/
def abierto : ℕ → Bool
  | 1 | 2 | 4 | 5 | 6 | 7 | 9 => true
  | _ => false

/-- The loop of a level. -/
def resto : ℕ → Expr → Parse Expr
  | 1 => cola (· = .kwOr) (parseAnd c r) rfl
  | 2 => cola (· = .kwAnd) (parseNot c r) rfl
  | 4 => cola esIgualdad (parseComparison c r) rfl
  | 5 => cola esComparacion (parseSum c r) rfl
  | 6 => cola esSuma (parseProduct c r) rfl
  | 7 => cola esProducto (parseUnary c r) rfl
  | 9 => fun e => mientras siguePostfijo (parseOperador r) e
  | _ => pure

variable {c r}

theorem parseNivel_abierto {n : ℕ} (h : abierto n = true) :
    parseNivel c r n = parseNivel c r (n + 1) >>= resto c r n := by
  unfold abierto at h
  split at h
  all_goals first | rfl | cases h

/-- The loop of a level of binary operators goes on with its operators. -/
theorem resto_binario {k : Tok} {n : ℕ} (h : nivelDe k = some n) :
    ∃ ops hops, resto c r n = cola ops (parseNivel c r (n + 1)) hops ∧
      ∀ k, ops k = true ↔ nivelDe k = some n := by
  have hn : n = 1 ∨ n = 2 ∨ n = 4 ∨ n = 5 ∨ n = 6 ∨ n = 7 := by
    cases k <;> cases h <;> decide
  rcases hn with rfl | rfl | rfl | rfl | rfl | rfl
  all_goals exact ⟨_, _, rfl, fun k => by cases k <;> decide⟩

theorem abierto_of_nivelDe {k : Tok} {n : ℕ} (h : nivelDe k = some n) : abierto n = true := by
  cases k <;> cases h <;> rfl

theorem sigueNivel_mono {n m : ℕ} {k : Tok} (hnm : n ≤ m) (h : sigueNivel n k = false) :
    sigueNivel m k = false := by
  simp only [sigueNivel, Bool.or_eq_false_iff, Bool.and_eq_false_iff, decide_eq_false_iff_not,
    Option.any_eq_false] at h ⊢
  refine ⟨⟨?_, fun a ha => ?_⟩, ?_⟩
  · rcases h.1.1 with hk | hn
    · exact .inl hk
    · exact .inr (by omega)
  · have := h.1.2 a ha
    omega
  · rcases h.2 with hk | hn
    · exact .inl hk
    · exact .inr (by omega)

theorem Ante.mono {n m : ℕ} {rest : List Token} (h : Ante (sigueNivel n) rest) (hnm : n ≤ m) :
    Ante (sigueNivel m) rest :=
  h.imp fun _ => sigueNivel_mono hnm

/-- In front of what does not go on with the level, its loop ends. -/
theorem resto_para {n : ℕ} {e : Expr} {rest : List Token} (h : Ante (sigueNivel n) rest) :
    Lee (resto c r n e) [] e rest := by
  unfold resto
  split
  all_goals
    first
      | exact .pure
      | exact .para (h.imp fun k hk => by cases k <;> first | rfl | cases hk)

end Levels

/-! ## Heads -/

/-- The first token of an expression of a level. -/
def empieza (n : ℕ) : Tok → Bool
  | .string | .int | .float | .kwTrue | .kwFalse | .kwNull | .kwThis | .kwSse | .kwWs | .kwError
  | .ident | .lParen | .lBracket | .lBrace => true
  | .plusPlus | .minusMinus | .minus | .kwAwait => n ≤ 8
  | .kwNot => n ≤ 3
  | _ => false

theorem empieza_mono {n m : ℕ} {k : Tok} (hnm : n ≤ m) (h : empieza m k = true) :
    empieza n k = true := by
  cases k
  all_goals first
    | rfl
    | cases h
    | exact decide_eq_true (hnm.trans (of_decide_eq_true h))

section Heads

variable {c : Entorno}

theorem Deriva.cabeza : ∀ {n : ℕ} {ts : List Token} {e : Expr}, Deriva c n ts e →
    ∃ t r, ts = t :: r ∧ empieza n t.kind = true
  | _, _, _, .sube _ h => by
    obtain ⟨t, r, rfl, ht⟩ := h.cabeza
    exact ⟨t, r, rfl, empieza_mono (Nat.le_succ _) ht⟩
  | _, _, _, .ternario hc _ _ _ _ => by
    obtain ⟨t, r, rfl, ht⟩ := hc.cabeza
    exact ⟨t, _, rfl, empieza_mono (Nat.zero_le _) ht⟩
  | _, _, _, .binario _ hl _ => by
    obtain ⟨t, r, rfl, ht⟩ := hl.cabeza
    exact ⟨t, _, rfl, ht⟩
  | _, _, _, .no ht _ => ⟨_, _, rfl, by rw [ht]; rfl⟩
  | _, _, _, .menos ht _ => ⟨_, _, rfl, by rw [ht]; rfl⟩
  | _, _, _, .antes ht _ _ => ⟨_, _, rfl, by rcases ht with ht | ht <;> rw [ht] <;> rfl⟩
  | _, _, _, .espera ht _ => ⟨_, _, rfl, by rw [ht]; rfl⟩
  | _, _, _, .despues _ h _ => by
    obtain ⟨t, r, rfl, ht⟩ := h.cabeza
    exact ⟨t, _, rfl, ht⟩
  | _, _, _, .campo h _ _ => by
    obtain ⟨t, r, rfl, ht⟩ := h.cabeza
    exact ⟨t, _, rfl, ht⟩
  | _, _, _, .llamada h _ _ _ => by
    obtain ⟨t, r, rfl, ht⟩ := h.cabeza
    exact ⟨t, _, rfl, ht⟩
  | _, _, _, .indice h _ _ _ => by
    obtain ⟨t, r, rfl, ht⟩ := h.cabeza
    exact ⟨t, _, rfl, ht⟩
  | _, _, _, .atomo (t := t) h => by
    refine ⟨t, [], rfl, ?_⟩
    unfold Syntax.atomo at h
    split at h
    all_goals first | (next ht => rw [ht]; rfl) | cases h
  | _, _, _, .grupo hl _ _ => ⟨_, _, rfl, by rw [hl]; rfl⟩
  | _, _, _, .lista hl _ _ => ⟨_, _, rfl, by rw [hl]; rfl⟩
  | _, _, _, .dict hl _ _ => ⟨_, _, rfl, by rw [hl]; rfl⟩

/-- Behind a name that stands first there is no `=`. -/
def SinIgual (ts : List Token) : Prop :=
  ∀ t u r, ts = t :: u :: r → t.kind = .ident → u.kind ≠ .assign

theorem SinIgual.uno {x : Token} : SinIgual [x] := by
  rintro t u r hts
  cases hts

theorem SinIgual.append {as bs : List Token} {op : Token} (h : SinIgual as) (has : as ≠ [])
    (hop : op.kind ≠ .assign) : SinIgual (as ++ op :: bs) := by
  intro t u r happ ht
  match as, has with
  | [x], _ =>
    cases happ
    exact hop
  | x :: y :: as, _ =>
    cases happ
    exact h t u as rfl ht

theorem SinIgual.cons {x : Token} {xs : List Token} (hx : x.kind ≠ .ident) :
    SinIgual (x :: xs) := by
  intro t u r happ ht
  rw [(List.cons.inj happ).1] at hx
  exact absurd ht hx

theorem Deriva.ne_nil {n : ℕ} {ts : List Token} {e : Expr} (h : Deriva c n ts e) : ts ≠ [] := by
  obtain ⟨t, r, rfl, -⟩ := h.cabeza
  exact List.cons_ne_nil t r

theorem Deriva.sinIgual : ∀ {n : ℕ} {ts : List Token} {e : Expr}, Deriva c n ts e → SinIgual ts
  | _, _, _, .sube _ h => h.sinIgual
  | _, _, _, .ternario hc hq _ _ _ => hc.sinIgual.append hc.ne_nil (by rw [hq]; decide)
  | _, _, _, .binario hop hl _ =>
    hl.sinIgual.append hl.ne_nil fun hk => by rw [hk] at hop; cases hop
  | _, _, _, .no ht _ => .cons (by rw [ht]; decide)
  | _, _, _, .menos ht _ => .cons (by rw [ht]; decide)
  | _, _, _, .antes ht _ _ => .cons (by rcases ht with ht | ht <;> rw [ht] <;> decide)
  | _, _, _, .espera ht _ => .cons (by rw [ht]; decide)
  | _, _, _, .despues ht h _ =>
    h.sinIgual.append h.ne_nil (by rcases ht with ht | ht <;> rw [ht] <;> decide)
  | _, _, _, .campo h hd _ => h.sinIgual.append h.ne_nil (by rw [hd]; decide)
  | _, _, _, .llamada h hl _ _ => h.sinIgual.append h.ne_nil (by rw [hl]; decide)
  | _, _, _, .indice h hl _ _ => h.sinIgual.append h.ne_nil (by rw [hl]; decide)
  | _, _, _, .atomo _ => .uno
  | _, _, _, .grupo hl _ _ => .cons (by rw [hl]; decide)
  | _, _, _, .lista hl _ _ => .cons (by rw [hl]; decide)
  | _, _, _, .dict hl _ _ => .cons (by rw [hl]; decide)

end Heads

/-! ## What is read -/

/-- The tokens are read for the expression, with so many calls as there are tokens: in front of what
    does not go on with the level, and at the levels with a loop in front of what the loop reads. -/
structure Leido (c : Entorno) (n : ℕ) (ts : List Token) (e : Expr) : Prop where
  lee : ∀ k, ts.length ≤ k → ∀ rest, Ante (sigueNivel n) rest →
    Lee (parseNivel c (recur c k) n) ts e rest
  sigue : abierto n = true → ∀ k, ts.length ≤ k → ∀ ts' b rest,
    Ante (sigueNivel (n + 1)) (ts' ++ rest) → Lee (resto c (recur c k) n e) ts' b rest →
    Lee (parseNivel c (recur c k) n) (ts ++ ts') b rest

section Reading

variable {c : Entorno} {n k : ℕ} {ts as bs is rest : List Token} {e l r i : Expr} {t g : Token}

theorem Leido.de_sigue (h : ∀ k, ts.length ≤ k → ∀ ts' b rest,
    Ante (sigueNivel (n + 1)) (ts' ++ rest) → Lee (resto c (recur c k) n e) ts' b rest →
    Lee (parseNivel c (recur c k) n) (ts ++ ts') b rest) : Leido c n ts e where
  lee k hk rest hrest := by
    have := h k hk [] e rest (hrest.mono (Nat.le_succ n)) (resto_para hrest)
    rwa [List.append_nil] at this
  sigue _ := h

theorem Leido.de_lee (hn : abierto n = false) (h : ∀ k, ts.length ≤ k → ∀ rest,
    Ante (sigueNivel n) rest → Lee (parseNivel c (recur c k) n) ts e rest) : Leido c n ts e where
  lee := h
  sigue hab := absurd hab (by rw [hn]; exact Bool.false_ne_true)

/-- A call inside of brackets. -/
theorem Leido.expr (h : Leido c 0 ts e) (hk : ts.length < k) (hrest : Ante (sigueNivel 0) rest) :
    Lee (recur c k).expr ts e rest := by
  cases k with
  | zero => cases hk
  | succ k => exact h.lee k (Nat.le_of_lt_succ hk) rest hrest

theorem Leido.unary (h : Leido c 8 ts e) (hk : ts.length < k) (hrest : Ante (sigueNivel 8) rest) :
    Lee (recur c k).unary ts e rest := by
  cases k with
  | zero => cases hk
  | succ k => exact h.lee k (Nat.le_of_lt_succ hk) rest hrest

theorem Leido.not (h : Leido c 3 ts e) (hk : ts.length < k) (hrest : Ante (sigueNivel 3) rest) :
    Lee (recur c k).not ts e rest := by
  cases k with
  | zero => cases hk
  | succ k => exact h.lee k (Nat.le_of_lt_succ hk) rest hrest

theorem Leido.sube (hn : n < 10) (hd : Deriva c (n + 1) ts e) (h : Leido c (n + 1) ts e) :
    Leido c n ts e := by
  cases hab : abierto n with
  | true =>
    refine .de_sigue fun k hk ts' b rest hrest hresto => ?_
    rw [parseNivel_abierto hab]
    exact .bind (h.lee k hk _ hrest) hresto
  | false =>
    refine .de_lee hab fun k hk rest hrest => ?_
    have hlee := h.lee k hk rest (hrest.mono (Nat.le_succ n))
    obtain ⟨t, r, rfl, ht⟩ := hd.cabeza
    -- the level without a loop is one of these
    have hcases : ∀ m < 10, abierto m = false → m = 0 ∨ m = 3 ∨ m = 8 := by decide
    obtain rfl | rfl | rfl := hcases n hn hab
    · refine .map hlee (.toma_no (hrest.imp fun k hk => ?_) .pure)
      cases k <;> first | rfl | cases hk
    · rw [parseNivel, parseNot]
      refine .toma_no (.cons ?_) hlee
      generalize t.kind = k at ht
      cases k <;> first | rfl | cases ht
    · refine .peek rfl ?_
      generalize t.kind = k at ht
      cases k <;> first | exact hlee | cases ht

/-! ### Operators -/

theorem Leido.binario {op : Token} (hop : nivelDe op.kind = some n) (hl : Leido c n as l)
    (hr : Leido c (n + 1) bs r) : Leido c n (as ++ op :: bs) (binario op.kind l r) := by
  refine .de_sigue fun k hk ts' b rest hrest hresto => ?_
  simp only [List.length_append, List.length_cons] at hk
  rw [List.append_assoc, List.cons_append]
  refine hl.sigue (abierto_of_nivelDe hop) k (by omega) _ b rest (.cons ?_) ?_
  · generalize op.kind = o at hop
    cases o <;> cases hop <;> rfl
  · obtain ⟨ops, hops, heq, hiff⟩ := resto_binario (c := c) (r := recur c k) hop
    rw [heq] at hresto ⊢
    exact .vuelta ((hiff _).mpr hop) (.take (.map (hr.lee k (by omega) _ hrest) .pure)
      (List.append_ne_nil_of_right_ne_nil _ hrest.ne_nil)) hresto

theorem Leido.ternario {q co : Token} (hc : Leido c 1 ts e) (hq : q.kind = .question)
    (hl : Leido c 0 as l) (hco : co.kind = .colon) (hr : Leido c 0 bs r) :
    Leido c 0 (ts ++ q :: (as ++ co :: bs))
      { kind := .ternary, object := e, lhs := l, rhs := r } := by
  refine .de_lee rfl fun k hk rest hrest => ?_
  simp only [List.length_append, List.length_cons] at hk
  refine .bind (hc.lee k (by omega) _ (.cons (by rw [hq]; rfl))) (.toma_si hq ?_ (by simp))
  refine .bind (hl.expr (by omega) (.cons (by rw [hco]; rfl))) ?_
  exact .take_expect hco (.map (hr.expr (by omega) hrest) .pure)
    (List.append_ne_nil_of_right_ne_nil _ hrest.ne_nil)

theorem Leido.no (ht : t.kind = .kwNot) (h : Leido c 3 ts e) :
    Leido c 3 (t :: ts) { kind := .unary, text := "not", lhs := e } := by
  refine .de_lee rfl fun k hk rest hrest => ?_
  rw [parseNivel, parseNot]
  refine .toma_si ht (.map (h.not hk hrest) .pure) ?_
  exact List.append_ne_nil_of_right_ne_nil _ hrest.ne_nil

theorem Leido.menos (ht : t.kind = .minus) (h : Leido c 8 ts e) :
    Leido c 8 (t :: ts) { kind := .unary, text := "-", lhs := e } := by
  refine .de_lee rfl fun k hk rest hrest => .peek rfl ?_
  rw [ht]
  exact .take (.map (h.unary hk hrest) .pure)
    (List.append_ne_nil_of_right_ne_nil _ hrest.ne_nil)

theorem Lee.diagSi_no {m : String} : Lee (diagSi (!true) m) [] () rest := fun _ _ => rfl

theorem Leido.antes (ht : t.kind = .plusPlus ∨ t.kind = .minusMinus) (h : Leido c 8 ts e)
    (he : assignable e = true) :
    Leido c 8 (t :: ts) { kind := .preStep, text := masMenos t.kind, lhs := e } := by
  refine .de_lee rfl fun k hk rest hrest => .peek rfl ?_
  have hstep : Lee (do
      let op ← advance
      let lhs ← (recur c k).unary
      diagSi (!assignable lhs) soloVariables
      return ({ kind := .preStep, text := masMenos op.kind, lhs := lhs } : Expr)) (t :: ts)
      { kind := .preStep, text := masMenos t.kind, lhs := e } rest := by
    refine .take (.map (h.unary hk hrest) ?_) (List.append_ne_nil_of_right_ne_nil _ hrest.ne_nil)
    rw [he]
    exact .nil_bind .diagSi_no .pure
  rcases ht with ht | ht
  all_goals
    rw [ht] at hstep ⊢
    exact hstep

theorem Leido.espera (ht : t.kind = .kwAwait) (h : Leido c 8 ts e) :
    Leido c 8 (t :: ts) { kind := .await, lhs := e } := by
  refine .de_lee rfl fun k hk rest hrest => .peek rfl ?_
  rw [ht]
  have hprimary : Lee (parsePrimary c (recur c k)) (t :: ts) { kind := .await, lhs := e } rest := by
    refine .peek rfl ?_
    rw [ht]
    exact .take (.map (h.unary hk hrest) .pure)
      (List.append_ne_nil_of_right_ne_nil _ hrest.ne_nil)
  exact .map hprimary (resto_para (c := c) (n := 9) (hrest.mono (by decide)))

/-! ### What follows an expression -/

/-- An operator behind an expression is read by a turn of the loop. -/
theorem Leido.operador {x : Expr} (h : Leido c 9 ts e) (ht : siguePostfijo t.kind = true)
    (hx : ∀ k rest, ts.length + as.length < k → rest ≠ [] →
      Lee (parseOperador (recur c k) e) (t :: as) (.inl x) rest) : Leido c 9 (ts ++ t :: as) x := by
  refine .de_sigue fun k hk ts' b rest hrest hresto => ?_
  rw [List.length_append, List.length_cons] at hk
  rw [List.append_assoc]
  refine h.sigue rfl k (by omega) _ b rest (.cons ?_) ?_
  · cases t.kind <;> rfl
  · change Lee (mientras siguePostfijo (parseOperador (recur c k)) e) (t :: as ++ ts') b rest
    exact .vuelta ht (hx k _ (by omega) hrest.ne_nil) hresto

theorem Leido.despues (ht : t.kind = .plusPlus ∨ t.kind = .minusMinus) (h : Leido c 9 ts e)
    (he : assignable e = true) :
    Leido c 9 (ts ++ [t]) { kind := .postStep, text := masMenos t.kind, lhs := e } := by
  refine h.operador (by rcases ht with ht | ht <;> rw [ht] <;> rfl) fun k rest _ hrest => ?_
  refine .take ?_ hrest
  have hstep : Lee (do
      diagSi (!assignable e) soloVariables
      return .inl ({ kind := .postStep, text := masMenos t.kind, lhs := e } : Expr) :
        Parse (Expr ⊕ Expr)) [] (.inl { kind := .postStep, text := masMenos t.kind, lhs := e })
      rest := by
    rw [he]
    exact .nil_bind .diagSi_no .pure
  rcases ht with ht | ht
  all_goals
    rw [ht] at hstep ⊢
    exact hstep

theorem Leido.campo {d : Token} (h : Leido c 9 ts e) (hd : d.kind = .dot)
    (ht : t.kind = .ident ∨ t.text ≠ "") :
    Leido c 9 (ts ++ [d, t]) { kind := .member, text := t.text, object := e } := by
  refine h.operador (by rw [hd]; rfl) fun k rest _ hrest => .take ?_ (by simp)
  rw [hd]
  refine .peek rfl ?_
  rw [if_pos ht]
  exact .take .pure hrest

theorem Leido.indice {b : Token} (h : Leido c 9 ts e) (hb : b.kind = .lBracket)
    (hi : Leido c 0 is i) (hg : g.kind = .rBracket) :
    Leido c 9 (ts ++ b :: (is ++ [g])) { kind := .index, object := e, lhs := i } := by
  refine h.operador (by rw [hb]; rfl) fun k rest hk hrest => .take ?_ (by simp)
  rw [List.length_append, List.length_singleton] at hk
  rw [hb]
  exact .bind (hi.expr (by omega) (.cons (by rw [hg]; rfl))) (.take_expect hg .pure hrest)

/-! ### Lists -/

/-- What stands between commas. -/
inductive Separa {α : Type} (R : List Token → α → Prop) : List Token → List α → Prop
  | nil : Separa R [] []
  | uno {ts : List Token} {x : α} (h : R ts x) : Separa R ts [x]
  | mas {ts ts' : List Token} {co : Token} {x : α} {xs : List α} (h : R ts x)
      (hco : co.kind = .comma) (h' : Separa R ts' xs) : Separa R (ts ++ co :: ts') (x :: xs)

/-- An element is read in front of a comma or of what closes the list. -/
structure Elemento {α : Type} (cierre : Tok) (uno : Parse α) (ts : List Token) (x : α) : Prop where
  cabeza : ∃ t r, ts = t :: r ∧ t.kind ≠ cierre ∧ t.kind ≠ .endOfFile
  lee : ∀ u rest, u.kind = .comma ∨ u.kind = cierre → Lee uno ts x (u :: rest)

theorem Separa.lee {α : Type} {cierre : Tok} {uno : Parse α} {xs : List α}
    (h : Separa (Elemento cierre uno) ts xs) (hg : g.kind = cierre) (hco : cierre ≠ .comma) :
    Lee (separados cierre uno) ts xs (g :: rest) := by
  have hloop : ∀ pre : List α, Lee (mientras (fun k => k ≠ cierre ∧ k ≠ .endOfFile) (fun xs => do
      let x ← uno
      toma .comma (fun _ => return .inl (xs ++ [x])) (return .inr (xs ++ [x]))) pre (by simp)) ts
      (pre ++ xs) (g :: rest) := by
    induction h with
    | nil =>
      intro pre
      rw [List.append_nil]
      exact .para (.cons (by simp [hg]))
    | uno h =>
      intro pre
      obtain ⟨t, r, rfl, ht⟩ := h.cabeza
      refine .sale (decide_eq_true ht) (.map (h.lee g rest (.inr hg)) ?_)
      exact .toma_no (.cons (by simp [hg, hco])) .pure
    | @mas ts ts' co x xs h hcomma _ ih =>
      intro pre
      obtain ⟨t, r, rfl, ht⟩ := h.cabeza
      have hturno : Lee (uno >>= fun x =>
          (toma .comma (fun _ => return .inl (pre ++ [x])) (return .inr (pre ++ [x])) :
            Parse (List α ⊕ List α)))
          (t :: r ++ [co]) (.inl (pre ++ [x])) (ts' ++ g :: rest) := by
        refine .bind (h.lee co _ (.inl hcomma)) (.toma_si hcomma .pure ?_)
        exact List.append_ne_nil_of_right_ne_nil ts' (List.cons_ne_nil g rest)
      rw [show t :: r ++ co :: ts' = t :: (r ++ [co]) ++ ts' by simp,
        show pre ++ x :: xs = pre ++ [x] ++ xs by simp]
      exact .vuelta (decide_eq_true ht) hturno (ih (pre ++ [x]))
  exact hloop []

/-- An expression begins with what ends no list. -/
theorem Deriva.abre {cierre : Tok} (h : Deriva c n ts e) (hno : empieza 0 cierre = false) :
    ∃ t r, ts = t :: r ∧ t.kind ≠ cierre ∧ t.kind ≠ .endOfFile := by
  obtain ⟨t, r, rfl, ht⟩ := h.cabeza
  have hcero := empieza_mono (Nat.zero_le n) ht
  refine ⟨t, r, rfl, fun hk => ?_, fun hk => ?_⟩
  · rw [hk, hno] at hcero
    cases hcero
  · rw [hk] at hcero
    cases hcero

theorem Elemento.item (hd : Deriva c 0 ts e) (h : Leido c 0 ts e) (hk : ts.length < k) :
    Elemento .rBracket (recur c k).expr ts e where
  cabeza := hd.abre rfl
  lee _ _ hu := h.expr hk (.cons (by rcases hu with hu | hu <;> rw [hu] <;> rfl))

/-- The entries of a dictionary, one by one. -/
def entrada (r : Recur) : Parse (Expr × Expr) := do
  let key ← r.expr
  let _ ← expect .colon "entre la clave y el valor del diccionario"
  let value ← r.expr
  return (key, value)

theorem Elemento.entrada {ks vs : List Token} {co : Token} {v : Expr} (hd : Deriva c 0 ks e)
    (he : Leido c 0 ks e) (hco : co.kind = .colon) (hv : Leido c 0 vs v)
    (hk : (ks ++ co :: vs).length < k) :
    Elemento .rBrace (Syntax.entrada (recur c k)) (ks ++ co :: vs) (e, v) where
  cabeza := by
    obtain ⟨t, r, rfl, ht⟩ := @Deriva.abre _ _ _ _ .rBrace hd rfl
    exact ⟨t, _, rfl, ht⟩
  lee u rest hu := by
    rw [List.length_append, List.length_cons] at hk
    refine .bind (he.expr (by omega) (.cons (by rw [hco]; rfl))) (.take_expect hco ?_ (by simp))
    refine .map (hv.expr (by omega) (.cons ?_)) .pure
    rcases hu with hu | hu <;> rw [hu] <;> rfl

/-! ### What needs nothing around it -/

theorem Leido.atomo (h : atomo c t = some e) : Leido c 10 [t] e := by
  refine .de_lee rfl fun k _ rest hrest => .peek rfl ?_
  unfold Syntax.atomo at h
  split at h
  -- the token is one of those, or there is no such expression
  all_goals cases h
  all_goals
    rename_i hk
    rw [hk]
    first
      | exact .take_prev .pure hrest.ne_nil
      | exact .take .pure hrest.ne_nil
      | exact .take_prev (by rw [hk]; exact .pure) hrest.ne_nil

theorem Leido.grupo {b : Token} (hb : b.kind = .lParen) (h : Leido c 0 ts e)
    (hg : g.kind = .rParen) : Leido c 10 (b :: (ts ++ [g])) e := by
  refine .de_lee rfl fun k hk rest hrest => .peek rfl ?_
  simp only [List.length_cons, List.length_append, List.length_nil] at hk
  rw [hb]
  refine .take (.bind (h.expr (by omega) (.cons (by rw [hg]; rfl))) ?_) (by simp)
  exact .take_expect hg .pure hrest.ne_nil

theorem Leido.lista {b : Token} {items : List Expr} (hb : b.kind = .lBracket)
    (h : ∀ k, ts.length < k → Separa (Elemento .rBracket (recur c k).expr) ts items)
    (hg : g.kind = .rBracket) :
    Leido c 10 (b :: (ts ++ [g])) { kind := .listLit, items := items } := by
  refine .de_lee rfl fun k hk rest hrest => .peek rfl ?_
  simp only [List.length_cons, List.length_append, List.length_nil] at hk
  rw [hb]
  refine .take (.bind ((h k (by omega)).lee hg (by decide)) ?_) (by simp)
  exact .take_expect hg .pure hrest.ne_nil

theorem Leido.dict {b : Token} {entries : List (Expr × Expr)} (hb : b.kind = .lBrace)
    (h : ∀ k, ts.length < k → Separa (Elemento .rBrace (Syntax.entrada (recur c k))) ts entries)
    (hg : g.kind = .rBrace) :
    Leido c 10 (b :: (ts ++ [g])) { kind := .dictLit, entries := entries } := by
  refine .de_lee rfl fun k hk rest hrest => .peek rfl ?_
  simp only [List.length_cons, List.length_append, List.length_nil] at hk
  rw [hb]
  refine .take (.bind ((h k (by omega)).lee hg (by decide)) ?_) (by simp)
  exact .take_expect hg .pure hrest.ne_nil

/-! ### Arguments -/

/-- The loop over the arguments of a call. -/
def argumentos (r : Recur) (a : List (String × Expr) × Bool) :
    Parse (List (String × Expr) × Bool) :=
  mientras (fun k => k ≠ .rParen ∧ k ≠ .endOfFile) (fun (a : List (String × Expr) × Bool) => do
    let n ← parseArgName a.2
    let value ← r.expr
    toma .comma (fun _ => return .inl (a.1 ++ [(n.1, value)], n.2))
      (return .inr (a.1 ++ [(n.1, value)], n.2))) a

/-- An argument is read in front of a comma or of the end of the arguments: first its name, if it
    has one, and then its value. -/
structure Argumento (r : Recur) (named : Bool) (ts : List Token) (a : String × Expr)
    (named' : Bool) : Prop where
  cabeza : ∃ t r, ts = t :: r ∧ t.kind ≠ .rParen ∧ t.kind ≠ .endOfFile
  lee : ∀ u rest, u.kind = .comma ∨ u.kind = .rParen → ∃ ns vs, ts = ns ++ vs ∧
    Lee (parseArgName named) ns (a.1, named') (vs ++ u :: rest) ∧ Lee r.expr vs a.2 (u :: rest)

variable {named named' : Bool} {a : String × Expr} {args : List (String × Expr)} {call : Recur}

theorem Lee.peekAt {α : Type} {f : Token → Parse α} {x : α} {u : Token} {r : List Token}
    (hhead : ts ++ rest = t :: u :: r) (hf : Lee (f u) ts x rest) :
    Lee (Syntax.peekAt 1 >>= f) ts x rest := by
  intro past diags
  have hmira : Syntax.peekAt 1 ⟨past, ts ++ rest, diags⟩ = .ok (u, ⟨past, ts ++ rest, diags⟩) := by
    rw [Syntax.peekAt, Parser.mira, hhead]
    rfl
  rw [bind_ok hmira]
  exact hf past diags

theorem Argumento.posicional (hd : Deriva c 0 ts e) (h : Leido c 0 ts e) (hk : ts.length < k) :
    Argumento (recur c k) false ts ("", e) false where
  cabeza := hd.abre rfl
  lee u rest hu := by
    refine ⟨[], ts, rfl, ?_, h.expr hk (.cons (by rcases hu with hu | hu <;> rw [hu] <;> rfl))⟩
    obtain ⟨t, r, rfl, -⟩ := hd.cabeza
    -- the token behind a name is not the sign of a named argument
    obtain ⟨v, r', hr', hv⟩ : ∃ v r', r ++ u :: rest = v :: r' ∧
        (t.kind = .ident → v.kind ≠ .assign) := by
      cases r with
      | nil => exact ⟨u, rest, rfl, fun _ => by rcases hu with hu | hu <;> rw [hu] <;> decide⟩
      | cons v r => exact ⟨v, _, rfl, fun ht => hd.sinIgual t v r rfl ht⟩
    refine .peek (t := t) rfl (.peekAt (t := t) (congrArg (t :: ·) hr') ?_)
    rw [if_neg fun h => hv h.1 h.2, if_neg Bool.false_ne_true]
    exact .pure

theorem Argumento.nombrado {q : Token} (ht : t.kind = .ident) (hq : q.kind = .assign)
    (h : Leido c 0 ts e) (hk : (t :: q :: ts).length < k) :
    Argumento (recur c k) named (t :: q :: ts) (t.text, e) true where
  cabeza := ⟨t, _, rfl, by rw [ht]; decide, by rw [ht]; decide⟩
  lee u rest hu := by
    simp only [List.length_cons] at hk
    refine ⟨[t, q], ts, rfl, ?_,
      h.expr (by omega) (.cons (by rcases hu with hu | hu <;> rw [hu] <;> rfl))⟩
    refine .peek (t := t) rfl (.peekAt (t := t) rfl ?_)
    rw [if_pos ⟨ht, hq⟩]
    exact .take (.take .pure (by simp)) (by simp)

theorem Argumento.uno (h : Argumento call named ts a named') (hg : g.kind = .rParen) :
    Lee (argumentos call (args, named)) ts (args ++ [a], named') (g :: rest) := by
  obtain ⟨t, r, rfl, ht⟩ := h.cabeza
  obtain ⟨ns, vs, hts, hname, hvalue⟩ := h.lee g rest (.inr hg)
  refine .sale (decide_eq_true ht) ?_
  rw [hts]
  exact .bind hname (.map hvalue (.toma_no (.cons (by rw [hg]; rfl)) .pure))

theorem Argumento.mas {co : Token} {ts' : List Token} {x : List (String × Expr) × Bool}
    (h : Argumento call named ts a named') (hco : co.kind = .comma)
    (h' : Lee (argumentos call (args ++ [a], named')) ts' x rest) (hrest : rest ≠ []) :
    Lee (argumentos call (args, named)) (ts ++ co :: ts') x rest := by
  obtain ⟨t, r, rfl, ht⟩ := h.cabeza
  obtain ⟨ns, vs, hts, hname, hvalue⟩ := h.lee co (ts' ++ rest) (.inl hco)
  have hturno : Lee (do
      let n ← parseArgName named
      let value ← call.expr
      toma .comma (fun _ => return .inl (args ++ [(n.1, value)], n.2))
        (return .inr (args ++ [(n.1, value)], n.2)) :
          Parse ((List (String × Expr) × Bool) ⊕ (List (String × Expr) × Bool)))
      (t :: r ++ [co]) (.inl (args ++ [a], named')) (ts' ++ rest) := by
    rw [hts, List.append_assoc]
    refine .bind (a := (a.1, named')) ?_ (.bind hvalue (.toma_si hco .pure ?_))
    · rwa [List.append_assoc]
    · exact List.append_ne_nil_of_right_ne_nil ts' hrest
  rw [show t :: r ++ co :: ts' = t :: (r ++ [co]) ++ ts' by simp]
  exact .vuelta (decide_eq_true ht) hturno h'

/-- The arguments are read behind others. -/
def LeidoArgs (c : Entorno) (named : Bool) (ts : List Token) (as : List (String × Expr)) : Prop :=
  ∀ k, ts.length < k → ∀ pre g rest, g.kind = .rParen →
    ∃ named', Lee (argumentos (recur c k) (pre, named)) ts (pre ++ as, named') (g :: rest)

theorem Leido.llamada {b : Token} (h : Leido c 9 ts e) (hb : b.kind = .lParen)
    (has : LeidoArgs c false as args) (hg : g.kind = .rParen) :
    Leido c 9 (ts ++ b :: (as ++ [g])) { kind := .call, object := e, args := args } := by
  refine h.operador (by rw [hb]; rfl) fun k rest hk hrest => .take ?_ (by simp)
  rw [List.length_append, List.length_singleton] at hk
  rw [hb]
  obtain ⟨named', hlee⟩ := has k (by omega) [] g rest hg
  have hargs : Lee (parseArgs (recur c k)) as args (g :: rest) := .map hlee .pure
  exact .bind hargs (.take_expect hg .pure hrest)

/-! ### All of it -/

mutual

/-- What the grammar writes is read. -/
theorem Deriva.leido : ∀ {n : ℕ} {ts : List Token} {e : Expr}, Deriva c n ts e → Leido c n ts e
  | _, _, _, .sube hn h => .sube hn h h.leido
  | _, _, _, .ternario hc hq hl hco hr => .ternario hc.leido hq hl.leido hco hr.leido
  | _, _, _, .binario hop hl hr => .binario hop hl.leido hr.leido
  | _, _, _, .no ht h => .no ht h.leido
  | _, _, _, .menos ht h => .menos ht h.leido
  | _, _, _, .antes ht h he => .antes ht h.leido he
  | _, _, _, .espera ht h => .espera ht h.leido
  | _, _, _, .despues ht h he => .despues ht h.leido he
  | _, _, _, .campo h hd ht => .campo h.leido hd ht
  | _, _, _, .llamada h hl has hg => .llamada h.leido hl has.leido hg
  | _, _, _, .indice h hl hi hg => .indice h.leido hl hi.leido hg
  | _, _, _, .atomo h => .atomo h
  | _, _, _, .grupo hl h hg => .grupo hl h.leido hg
  | _, _, _, .lista hl h hg => .lista hl h.leido hg
  | _, _, _, .dict hl h hg => .dict hl h.leido hg

theorem Items.leido : ∀ {ts : List Token} {es : List Expr}, Items c ts es →
    ∀ k, ts.length < k → Separa (Elemento .rBracket (recur c k).expr) ts es
  | _, _, .nil, _, _ => .nil
  | _, _, .uno h, _, hk => .uno (.item h h.leido hk)
  | _, _, .mas h hco h', k, hk =>
    .mas (.item h h.leido (by simp only [List.length_append] at hk; omega)) hco
      (h'.leido k (by simp only [List.length_append, List.length_cons] at hk; omega))

theorem Entradas.leido : ∀ {ts : List Token} {es : List (Expr × Expr)}, Entradas c ts es →
    ∀ k, ts.length < k → Separa (Elemento .rBrace (entrada (recur c k))) ts es
  | _, _, .nil, _, _ => .nil
  | _, _, .uno hk hco hv, _, hlen => .uno (.entrada hk hk.leido hco hv.leido hlen)
  | _, _, .mas hk hco hv hs h, k, hlen =>
    .mas (.entrada hk hk.leido hco hv.leido (by rw [List.length_append] at hlen; omega)) hs
      (h.leido k (by rw [List.length_append, List.length_cons] at hlen; omega))

theorem Args.leido : ∀ {named : Bool} {ts : List Token} {as : List (String × Expr)},
    Args c named ts as → LeidoArgs c named ts as
  | named, _, _, .nil => fun _ _ _ _ _ hg =>
    ⟨named, by rw [List.append_nil]; exact .para (.cons (by rw [hg]; rfl))⟩
  | _, _, _, .uno h => fun k hk _ _ _ hg => ⟨_, (h.leido k hk).uno hg⟩
  | _, _, _, .mas h hco h' => fun k hk pre g rest hg => by
    rw [List.length_append, List.length_cons] at hk
    obtain ⟨named', hlee⟩ := h'.leido k (by omega) (pre ++ [_]) g rest hg
    refine ⟨named', ?_⟩
    rw [List.append_assoc] at hlee
    exact (h.leido k (by omega)).mas hco hlee (List.cons_ne_nil g rest)

theorem Arg.leido : ∀ {named named' : Bool} {ts : List Token} {a : String × Expr},
    Arg c named ts a named' → ∀ k, ts.length < k → Argumento (recur c k) named ts a named'
  | _, _, _, _, .posicional h, _, hk => .posicional h h.leido hk
  | _, _, _, _, .nombrado hi hq h, _, hk => .nombrado hi hq h.leido hk

end

end Reading

/-! ## Types -/

section Types

variable {c : Entorno} {k : ℕ} {ts rest : List Token} {T : TypeRef}

/-- What would go on with a type. -/
def sigueTipo (k : Tok) : Bool := k = .lt || k = .question

/-- The rest of the parameters of a type. -/
def masTipos (r : Recur) (args : List TypeRef) : Parse (List TypeRef) :=
  mientras (· = .comma) (fun args => do
    let _ ← advance
    let arg ← r.type
    return .inl (args ++ [arg])) args

/-- The tokens are read for the type. -/
def LeidoTipo (c : Entorno) (ts : List Token) (T : TypeRef) : Prop :=
  ∀ k, ts.length ≤ k → ∀ rest, Ante sigueTipo rest → Lee (parseType (recur c k)) ts T rest

theorem LeidoTipo.type (h : LeidoTipo c ts T) (hk : ts.length < k) (hrest : Ante sigueTipo rest) :
    Lee (recur c k).type ts T rest := by
  cases k with
  | zero => cases hk
  | succ k => exact h k (Nat.le_of_lt_succ hk) rest hrest

theorem Marca.lee {optional : Bool} (h : Marca ts optional) (hrest : Ante sigueTipo rest) :
    Lee (toma .question (fun _ => return true) (return false)) ts optional rest := by
  rcases h with ⟨rfl, rfl⟩ | ⟨t, rfl, ht, rfl⟩
  · refine .toma_no (hrest.imp fun k hk => ?_) .pure
    cases k <;> first | rfl | cases hk
  · exact .toma_si ht .pure hrest.ne_nil

theorem Marca.no_lt {optional : Bool} (h : Marca ts optional) (hrest : Ante sigueTipo rest) :
    Ante (· = .lt) (ts ++ rest) := by
  rcases h with ⟨rfl, rfl⟩ | ⟨t, rfl, ht, rfl⟩
  · refine hrest.imp fun k hk => ?_
    cases k <;> first | rfl | cases hk
  · exact .cons (by rw [ht]; rfl)

/-- The parameters that are read behind the first one. -/
def LeidosTipos (c : Entorno) (ts : List Token) (Ts : List TypeRef) : Prop :=
  ∀ k, ts.length < k → ∀ pre co g rest, co.kind = .comma → g.kind = .gt →
    Lee (masTipos (recur c k) pre) (co :: ts) (pre ++ Ts) (g :: rest)

theorem LeidoTipo.turno {pre : List TypeRef} {co : Token} (h : LeidoTipo c ts T)
    (hk : ts.length < k) (hrest : Ante sigueTipo rest) :
    Lee (do
      let _ ← advance
      let arg ← (recur c k).type
      return .inl (pre ++ [arg]) : Parse (List TypeRef ⊕ List TypeRef)) (co :: ts)
      (.inl (pre ++ [T])) rest :=
  .take (.map (h.type hk hrest) .pure) (List.append_ne_nil_of_right_ne_nil ts hrest.ne_nil)

mutual

/-- A type is read in front of what does not go on with it. -/
theorem Tipo.leido : ∀ {ts : List Token} {T : TypeRef}, Tipo ts T → LeidoTipo c ts T
  | _, _, .void ht => fun k _ rest hrest => .toma_si ht .pure hrest.ne_nil
  | _, _, .nombre (t := t) (q := q) ht hq => fun k _ rest hrest => by
    have hne : q ++ rest ≠ [] := List.append_ne_nil_of_right_ne_nil q hrest.ne_nil
    refine .toma_no (.cons (by rw [ht]; rfl)) (.toma_si ht ?_ hne)
    refine .nil_bind (.toma_no (hq.no_lt hrest) .pure) (.map (hq.lee hrest) .pure)
  | _, _, @Tipo.conArgs _ _ _ as q _ _ ht hl has hg hq => fun k hk rest hrest => by
    simp only [List.length_cons, List.length_append] at hk
    refine .toma_no (.cons (by rw [ht]; rfl)) (.toma_si ht ?_ (by simp))
    rw [← List.singleton_append (l := q), ← List.append_assoc, ← List.cons_append]
    refine .bind (.toma_si hl ?_ (by simp)) (.map (hq.lee hrest) .pure)
    -- the first parameter, and the others behind commas
    match has with
    | .uno h =>
      refine .bind (h.leido.type (by omega) (.cons (by rw [hg]; rfl))) ?_
      refine .nil_bind (.para (.cons (by rw [hg]; rfl))) (.take_expect hg .pure ?_)
      exact List.append_ne_nil_of_right_ne_nil q hrest.ne_nil
    | @TipoArgs.mas _ ts' co _ _ h hco h' =>
      simp only [List.length_append, List.length_cons] at hk
      rw [List.append_assoc]
      refine .bind (h.leido.type (by omega) (.cons (by rw [hco]; rfl))) ?_
      refine .bind (h'.leido k (by omega) [_] co _ _ hco hg) (.take_expect hg .pure ?_)
      exact List.append_ne_nil_of_right_ne_nil q hrest.ne_nil

theorem TipoArgs.leido : ∀ {ts : List Token} {Ts : List TypeRef}, TipoArgs ts Ts →
    LeidosTipos c ts Ts
  | ts, _, .uno h => fun k hk pre co g rest hco hg => by
    have hg' : Ante sigueTipo (g :: rest) := .cons (by rw [hg]; rfl)
    rw [← List.append_nil (co :: ts)]
    refine .vuelta (decide_eq_true hco) (h.leido.turno hk hg') (.para (.cons ?_))
    rw [hg]
    rfl
  | _, _, @TipoArgs.mas _ ts' co' T _ h hco' h' => fun k hk pre co g rest hco hg => by
    rw [List.length_append, List.length_cons] at hk
    have hante : Ante sigueTipo (co' :: ts' ++ g :: rest) := .cons (by rw [hco']; rfl)
    have hrest := h'.leido k (by omega) (pre ++ [T]) co' g rest hco' hg
    rw [List.append_assoc] at hrest
    exact .vuelta (decide_eq_true hco) (h.leido.turno (by omega) hante) hrest

end

end Types

end Osodio.Syntax
