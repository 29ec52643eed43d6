import Osodio.Syntax.Sound

/-!
# Declarations and expressions told apart

A statement that begins with no word of its own is the declaration of a variable if its line begins
like one: a name, brackets that close or none, a mark or none, and a name.  Whatever is written as a
declaration begins so.  An expression may begin so, too, and is then taken for a declaration.

## Main definitions

- `Angulos` — what stands between `<` and the `>` that closes it
- `ComoTipo` — a line that begins like a declaration

## Main results

- `looksLikeType_iff` — what `looks_like_type` looks for
- `parseStatement_told_apart` — the expressions and the declarations that are read as such
-/

namespace Osodio.Syntax

/-! ## What a declaration begins with -/

/-- With so many brackets open, the last token closes all of them for the first time. -/
inductive Angulos : ℕ → List Token → Prop
  | cierra {g : Token} (hg : g.kind = .gt) : Angulos 1 [g]
  | baja {d : ℕ} {g : Token} {ts : List Token} (hg : g.kind = .gt) (h : Angulos (d + 1) ts) :
      Angulos (d + 2) (g :: ts)
  | sube {d : ℕ} {l : Token} {ts : List Token} (hl : l.kind = .lt) (h : Angulos (d + 2) ts) :
      Angulos (d + 1) (l :: ts)
  | pasa {d : ℕ} {t : Token} {ts : List Token}
      (ht : t.kind ≠ .lt ∧ t.kind ≠ .gt ∧ t.kind ≠ .newline ∧ t.kind ≠ .endOfFile)
      (h : Angulos (d + 1) ts) : Angulos (d + 1) (t :: ts)

/-- The brackets of a type, or none. -/
def Corchetes (ts : List Token) : Prop :=
  ts = [] ∨ ∃ l a, ts = l :: a ∧ l.kind = .lt ∧ Angulos 1 a

/-- A mark, or none. -/
def Duda (ts : List Token) : Prop := ts = [] ∨ ∃ q, ts = [q] ∧ q.kind = .question

/-- The tokens begin like a declaration. -/
def ComoTipo (ts : List Token) : Prop :=
  ∃ t a q u r, ts = t :: (a ++ (q ++ u :: r)) ∧ (t.kind = .ident ∨ t.kind = .kwVoid) ∧
    Corchetes a ∧ Duda q ∧ u.kind = .ident

section LooksLikeType

theorem trasAngulos_eq_some {d j j' : ℕ} {ts : List Token} :
    trasAngulos (d + 1) j ts = some j' ↔
      ∃ a b, ts = a ++ b ∧ Angulos (d + 1) a ∧ j' = j + a.length := by
  constructor
  · intro h
    induction ts generalizing d j with
    | nil => cases h
    | cons t ts ih =>
      rw [trasAngulos] at h
      split at h
      · next ht =>
        obtain ⟨a, b, rfl, ha, rfl⟩ := ih h
        exact ⟨t :: a, b, rfl, .sube ht ha, by rw [List.length_cons]; omega⟩
      · next ht =>
        cases d with
        | zero =>
          cases h
          exact ⟨[t], ts, rfl, .cierra ht, rfl⟩
        | succ d =>
          obtain ⟨a, b, rfl, ha, rfl⟩ := ih h
          exact ⟨t :: a, b, rfl, .baja ht ha, by rw [List.length_cons]; omega⟩
      · cases h
      · cases h
      · next hlt hgt hnl heof =>
        obtain ⟨a, b, rfl, ha, rfl⟩ := ih h
        exact ⟨t :: a, b, rfl, .pasa ⟨hlt, hgt, hnl, heof⟩ ha, by rw [List.length_cons]; omega⟩
  · rintro ⟨a, b, rfl, ha, rfl⟩
    generalize hn : d + 1 = n at ha ⊢
    clear hn
    induction ha generalizing j with
    | cierra hg => simp [trasAngulos, hg]
    | @baja d g ts hg _ ih =>
      have hgo : trasAngulos (d + 2) j (g :: (ts ++ b)) = trasAngulos (d + 1) (j + 1) (ts ++ b) := by
        simp only [trasAngulos, hg]
        exact if_neg (Nat.succ_ne_zero d)
      rw [List.cons_append, hgo, ih, List.length_cons, Nat.add_right_comm, Nat.add_assoc]
    | @sube d l ts hl _ ih =>
      have hgo : trasAngulos (d + 1) j (l :: (ts ++ b)) = trasAngulos (d + 2) (j + 1) (ts ++ b) := by
        simp only [trasAngulos, hl]
      rw [List.cons_append, hgo, ih, List.length_cons, Nat.add_right_comm, Nat.add_assoc]
    | @pasa d t ts ht _ ih =>
      have hgo : trasAngulos (d + 1) j (t :: (ts ++ b)) = trasAngulos (d + 1) (j + 1) (ts ++ b) := by
        rw [trasAngulos]
        split
        · exact absurd ‹_› ht.1
        · exact absurd ‹_› ht.2.1
        · exact absurd ‹_› ht.2.2.1
        · exact absurd ‹_› ht.2.2.2
        · rfl
      rw [List.cons_append, hgo, ih, List.length_cons, Nat.add_right_comm, Nat.add_assoc]

/-- Behind the last token there is the last one, which only ends the text. -/
theorem Buena.mira {s : Parser} (hs : Buena s) (j : ℕ) {k : Tok} (hk : k ≠ .endOfFile) :
    (s.mira j).any (·.kind = k) = s.rest[j]?.any (·.kind = k) := by
  rw [Parser.mira]
  cases hj : s.rest[j]? with
  | some t => rfl
  | none =>
    have hlast := List.getLast?_eq_some_getLast hs.queda
    have hfin := hs.fin _ hlast
    rw [hlast]
    simp [hfin, hk.symm]

/-- Behind a mark or none there is a name. -/
theorem mira_duda {b : List Token} :
    (b[if b[0]?.any (·.kind = .question) then 1 else 0]?.any (·.kind = .ident) = true) ↔
      ∃ q u r, b = q ++ u :: r ∧ Duda q ∧ u.kind = .ident := by
  constructor
  · intro h
    match b, h with
    | [], h => simp at h
    | t :: b, h =>
      by_cases ht : t.kind = .question
      · cases b with
        | nil => simp [ht] at h
        | cons u r => exact ⟨[t], u, r, rfl, .inr ⟨t, rfl, ht⟩, by simpa [ht] using h⟩
      · exact ⟨[], t, b, rfl, .inl rfl, by simpa [ht] using h⟩
  · rintro ⟨q, u, r, rfl, rfl | ⟨m, rfl, hm⟩, hu⟩
    · simp [hu]
    · simp [hu, hm]

/-- What `looks_like_type` looks for. -/
theorem looksLikeType_iff {s : Parser} (hs : Buena s) :
    s.looksLikeType = true ↔ ComoTipo s.rest := by
  obtain ⟨t, r, hr⟩ := List.exists_cons_of_ne_nil hs.queda
  have hdesde : ∀ j : ℕ, (if (s.mira j).any (·.kind = .question) then j + 1 else j) =
      j + (if (s.rest.drop j)[0]?.any (·.kind = .question) then 1 else 0) := by
    intro j
    have hzero : (s.rest.drop j)[0]? = s.rest[j]? := by rw [List.getElem?_drop, Nat.add_zero]
    rw [hs.mira j (by decide), hzero]
    cases s.rest[j]?.any (·.kind = .question) <;> rfl
  -- from the place `j` on there is a mark or none, and a name
  have hbehind : ∀ j : ℕ, ((s.mira (if (s.mira j).any (·.kind = .question) then j + 1 else j)).any
      (·.kind = .ident) = true) ↔ ∃ q u r, s.rest.drop j = q ++ u :: r ∧ Duda q ∧ u.kind = .ident := by
    intro j
    rw [hdesde, hs.mira _ (by decide), ← mira_duda, ← List.getElem?_drop]
  have hcero : ∀ k, k ≠ .endOfFile → (s.mira 0).any (·.kind = k) = decide (t.kind = k) := by
    intro k hk
    rw [hs.mira 0 hk, hr]
    rfl
  have huno : (s.mira 1).any (·.kind = .lt) = r.head?.any (·.kind = .lt) := by
    rw [hs.mira 1 (by decide), hr, List.head?_eq_getElem?]
    rfl
  have hno : ∀ {q : List Token} {u : Token} {r' : List Token}, Duda q → u.kind = .ident →
      (q ++ u :: r').head?.any (·.kind = .lt) = false := by
    rintro q u r' (rfl | ⟨m, rfl, hm⟩) hu
    · simp [hu]
    · simp [hm]
  simp only [Parser.looksLikeType, hcero .ident (by decide), hcero .kwVoid (by decide), huno,
    decide_eq_false_iff_not]
  by_cases hname : t.kind = .ident ∨ t.kind = .kwVoid
  · rw [if_neg (by rwa [← not_or, not_not])]
    cases hlt : r.head?.any (·.kind = .lt) with
    | false =>
      simp only [Bool.false_eq_true, if_false]
      rw [hbehind 1, hr]
      constructor
      · rintro ⟨q, u, r', hq, hduda, hu⟩
        exact ⟨t, [], q, u, r', congrArg (t :: ·) hq, hname, .inl rfl, hduda, hu⟩
      · rintro ⟨t', a, q, u, r', heq, -, ha, hduda, hu⟩
        obtain ⟨rfl, rfl⟩ := List.cons.inj heq
        rcases ha with rfl | ⟨l, a, rfl, hl, -⟩
        · exact ⟨q, u, r', rfl, hduda, hu⟩
        · simp [hl] at hlt
    | true =>
      simp only [if_true]
      obtain ⟨l, r₁, rfl, hl⟩ : ∃ l r₁, r = l :: r₁ ∧ l.kind = .lt := by
        cases r with
        | nil => cases hlt
        | cons l r₁ => exact ⟨l, r₁, rfl, by simpa using hlt⟩
      have htras : trasAngulos 0 1 (s.rest.drop 1) = trasAngulos 1 2 r₁ := by
        rw [hr]
        simp only [List.drop_succ_cons, List.drop_zero, trasAngulos, hl]
      rw [htras]
      constructor
      · intro h
        split at h
        · cases h
        · next j hj =>
          obtain ⟨a, b, rfl, ha, rfl⟩ := trasAngulos_eq_some.mp hj
          obtain ⟨q, u, r', hq, hduda, hu⟩ := (hbehind _).mp h
          rw [hr, Nat.add_comm, List.drop_succ_cons, List.drop_succ_cons, List.drop_left] at hq
          exact ⟨t, l :: a, q, u, r', by rw [hr, hq]; rfl, hname, .inr ⟨l, a, rfl, hl, ha⟩, hduda, hu⟩
      · rintro ⟨t', a, q, u, r', heq, -, ha, hduda, hu⟩
        rw [hr] at heq
        obtain ⟨rfl, hbrackets⟩ := List.cons.inj heq
        rcases ha with rfl | ⟨l', a, rfl, -, ha⟩
        · have hhead := @hno q u r' hduda hu
          rw [← List.nil_append (q ++ u :: r'), ← hbrackets] at hhead
          simp [hl] at hhead
        · have hr₁ : r₁ = a ++ (q ++ u :: r') := (List.cons.inj hbrackets).2
          have hj : trasAngulos 1 2 r₁ = some (2 + a.length) :=
            trasAngulos_eq_some.mpr ⟨a, _, hr₁, ha, rfl⟩
          rw [hj]
          refine (hbehind _).mpr ⟨q, u, r', ?_, hduda, hu⟩
          rw [hr, hr₁, Nat.add_comm, List.drop_succ_cons, List.drop_succ_cons, List.drop_left]
  · rw [if_pos (not_or.mp hname)]
    refine ⟨(by simp), ?_⟩
    rintro ⟨t', a, q, u, r', heq, ht', -⟩
    rw [hr] at heq
    obtain ⟨rfl, -⟩ := List.cons.inj heq
    exact absurd ht' hname

end LooksLikeType

section Types

variable {q ts ts' as : List Token} {T : TypeRef} {Ts : List TypeRef} {d : ℕ}

theorem Marca.angulos {optional : Bool} (hq : Marca q optional) (h : Angulos (d + 1) ts') :
    Angulos (d + 1) (q ++ ts') := by
  rcases hq with ⟨rfl, -⟩ | ⟨t, rfl, ht, -⟩
  · exact h
  · exact .pasa (by rw [ht]; decide) h

theorem Marca.duda {optional : Bool} (hq : Marca q optional) : Duda q :=
  hq.imp And.left fun ⟨t, hts, ht, _⟩ => ⟨t, hts, ht⟩

mutual

/-- The brackets of a type are closed inside of it. -/
theorem Tipo.angulos : ∀ {ts : List Token} {T : TypeRef}, Tipo ts T → ∀ {d : ℕ} {ts' : List Token},
    Angulos (d + 1) ts' → Angulos (d + 1) (ts ++ ts')
  | _, _, .void ht, _, _, h => .pasa (by rw [ht]; decide) h
  | _, _, .nombre ht hq, _, _, h => .pasa (by rw [ht]; decide) (hq.angulos h)
  | _, _, @Tipo.conArgs _ _ _ as _ _ _ ht hl has hg hq, _, _, h => by
    have hargs := has.angulos (.baja hg (hq.angulos h))
    rw [← List.cons_append, ← List.append_assoc] at hargs
    exact .pasa (by rw [ht]; decide) (.sube hl hargs)

theorem TipoArgs.angulos : ∀ {as : List Token} {Ts : List TypeRef}, TipoArgs as Ts →
    ∀ {d : ℕ} {ts' : List Token}, Angulos (d + 1) ts' → Angulos (d + 1) (as ++ ts')
  | _, _, .uno h, _, _, hts => h.angulos hts
  | _, _, .mas h hco h', _, _, hts => by
    rw [List.append_assoc]
    exact h.angulos (.pasa (by rw [hco]; decide) (h'.angulos hts))

end

/-- A declaration begins like one. -/
theorem Tipo.comoTipo (h : Tipo ts T) {u : Token} {r : List Token} (hu : u.kind = .ident) :
    ComoTipo (ts ++ u :: r) := by
  cases h with
  | @void t ht => exact ⟨t, [], [], u, r, rfl, .inr ht, .inl rfl, .inl rfl, hu⟩
  | @nombre t q _ ht hq => exact ⟨t, [], q, u, r, rfl, .inl ht, .inl rfl, hq.duda, hu⟩
  | @conArgs t l g as q _ _ ht hl has hg hq =>
    refine ⟨t, l :: (as ++ [g]), q, u, r, by simp, .inl ht, ?_, hq.duda, hu⟩
    exact .inr ⟨l, as ++ [g], rfl, hl, has.angulos (.cierra hg)⟩

theorem Tipo.cabeza (h : Tipo ts T) : ∃ t r, ts = t :: r ∧ (t.kind = .ident ∨ t.kind = .kwVoid) := by
  cases h with
  | void ht => exact ⟨_, _, rfl, .inr ht⟩
  | nombre ht _ => exact ⟨_, _, rfl, .inl ht⟩
  | conArgs ht _ _ _ _ => exact ⟨_, _, rfl, .inl ht⟩

end Types

/-! ## Statements -/

/-- What stands behind the name of a variable, up to the end of the line. -/
def Inicial (c : Entorno) (ts : List Token) (value : Option Expr) : Prop :=
  ts = [] ∧ value = none ∨
    ∃ q es e, ts = q :: es ∧ q.kind = .assign ∧ Deriva c 0 es e ∧ value = some e

section Statements

variable {c : Entorno} {n : ℕ} {r : Recur} {s s' : Parser}

/-- A statement with no word of its own. -/
theorem parseStatement_sin_palabra {t : Token} {ts : List Token} (hr : s.rest = t :: ts)
    (ht : empieza 0 t.kind = true ∨ t.kind = .kwVoid) :
    parseStatement c r s = (if s.looksLikeType then parseVarDecl c r >>= fun x => return some x
      else parseSuelta c r) s := by
  rw [parseStatement, bind_ok (peek_cons hr)]
  generalize t.kind = k at ht
  cases k <;> first | rfl | exact absurd ht (by decide)

/-- The declaration of a variable is read up to the end of its line. -/
theorem parseVarDecl_lee {ts is rest : List Token} {T : TypeRef} {name nl : Token}
    {value : Option Expr} (h : Tipo ts T) (hname : name.kind = .ident) (hi : Inicial c is value)
    (hnl : nl.kind = .newline) (hn : (ts ++ name :: is).length ≤ n) :
    Lee (parseVarDecl c (recur c n)) (ts ++ name :: is)
      { kind := .varDecl, type := T, name := name.text, value := value } (nl :: rest) := by
  rw [List.length_append, List.length_cons] at hn
  have htype : Lee (parseType (recur c n)) ts T (name :: is ++ nl :: rest) :=
    h.leido n (by omega) _ (.cons (by rw [hname]; rfl))
  have hvar : Lee (nombreO "se esperaba el nombre de la variable") [name] name.text
      (is ++ nl :: rest) :=
    .toma_si hname .pure (by simp)
  refine .bind htype (@Lee.bind _ _ _ _ [name] _ _ _ _ hvar ?_)
  rcases hi with ⟨rfl, rfl⟩ | ⟨q, es, e, rfl, hq, he, rfl⟩
  · exact .nil_bind (.toma_no (.cons (by rw [hnl]; rfl)) .pure) .pure
  · rw [List.length_cons] at hn
    refine .map (.toma_si hq (.map ?_ .pure) (by simp)) .pure
    exact he.leido.lee n (by omega) _ (.cons (by rw [hnl]; rfl))

/-- An expression on a line of its own is read as one if and only if its line does not begin like a
    declaration, and a declaration always is. -/
theorem parseStatement_told_apart (c : Entorno) (n : ℕ) (s : Parser) (hs : Buena s)
    (hn : s.rest.length ≤ n) :
    (∀ e s', parseExpr c (recur c n) s = .ok (e, s') → s'.diags = s.diags →
      (∃ t r, s'.rest = t :: r ∧ t.kind = .newline) →
      (parseStatement c (recur c n) s = .ok (some { kind := .exprStmt, value := e }, s') ↔
        ¬ComoTipo s.rest)) ∧
    ∀ ts T name is value nl rest, s.rest = ts ++ name :: is ++ nl :: rest → Tipo ts T →
      name.kind = .ident → Inicial c is value → nl.kind = .newline →
      parseStatement c (recur c n) s = .ok
        (some { kind := .varDecl, type := T, name := name.text, value := value },
          ⟨(ts ++ name :: is).reverse ++ s.past, nl :: rest, s.diags⟩) := by
  constructor
  · rintro e s' hparse hd ⟨nl, rest, hrest, hnl⟩
    have hsana : Sana n false false nunca (parseExpr c (recur c n)) := inferInstance
    have hs' := (hsana.sigue hs hn (by simp) hparse).1.buena hs
    have hl : Libre s' := .inl (hs'.dos_rest hrest (by rw [hnl]; decide))
    obtain ⟨ts, hts, hderiva⟩ := parseExpr_deriva hs hn hparse hd hl
    obtain ⟨t, r, rfl, ht⟩ := hderiva.cabeza
    rw [parseStatement_sin_palabra (r := recur c n) hts (.inl ht), ← looksLikeType_iff hs]
    cases s.looksLikeType with
    | true =>
      refine ⟨fun h => ?_, fun h => absurd rfl h⟩
      obtain ⟨stmt, s₁, hdecl, hpure⟩ := bind_inv h
      obtain ⟨T, _, -, h⟩ := bind_inv hdecl
      obtain ⟨name, _, -, h⟩ := bind_inv h
      obtain ⟨value, _, -, h⟩ := bind_inv h
      cases h
      cases hpure
    | false =>
      refine ⟨fun _ => Bool.false_ne_true, fun _ => ?_⟩
      rw [if_neg Bool.false_ne_true, parseSuelta, bind_ok hparse, bind_ok (peek_cons hrest), hnl]
      have hsin : Lee (toma .assign (fun _ => do
            let value ← parseExpr c (recur c n)
            return some { kind := .assign, target := e, value := value })
          (return some { kind := .exprStmt, value := e }) : Parse (Option Stmt)) []
          (some { kind := .exprStmt, value := e }) (nl :: rest) :=
        .toma_no (.cons (by rw [hnl]; rfl)) .pure
      have := hsin s'.past s'.diags
      rw [List.nil_append, ← hrest] at this
      exact this
  · intro ts T name is value nl rest hrest hT hname hi hnl
    obtain ⟨t, r, rfl, ht⟩ := hT.cabeza
    have hlook : s.looksLikeType = true := by
      rw [looksLikeType_iff hs, hrest, List.append_assoc]
      exact hT.comoTipo hname
    have hlen : (t :: r ++ name :: is).length ≤ n := by
      rw [hrest, List.length_append] at hn
      omega
    rw [parseStatement_sin_palabra (r := recur c n) hrest (ht.imp_left fun h => by rw [h]; rfl),
      hlook, if_pos rfl]
    have hlee := @parseVarDecl_lee _ _ _ _ rest _ _ _ _ hT hname hi hnl hlen s.past s.diags
    rw [← hrest] at hlee
    exact bind_ok hlee

/-- A name on a line of its own, and a declaration. -/
theorem parseStatement_told_apart_nombre :
    (parseStatement ⟨fun _ => ⟨0⟩, fun _ => none⟩ (recur ⟨fun _ => ⟨0⟩, fun _ => none⟩ 3)
        { rest := [⟨.ident, "a"⟩, ⟨.newline, ""⟩, ⟨.endOfFile, ""⟩] } = .ok
        (some { kind := .exprStmt, value := some { kind := .ident, text := "a" } },
          { past := [⟨.ident, "a"⟩], rest := [⟨.newline, ""⟩, ⟨.endOfFile, ""⟩] }) ↔
      ¬ComoTipo [⟨.ident, "a"⟩, ⟨.newline, ""⟩, ⟨.endOfFile, ""⟩]) ∧
    parseStatement ⟨fun _ => ⟨0⟩, fun _ => none⟩ (recur ⟨fun _ => ⟨0⟩, fun _ => none⟩ 4)
        { rest := [⟨.ident, "int"⟩, ⟨.ident, "n"⟩, ⟨.newline, ""⟩, ⟨.endOfFile, ""⟩] } = .ok
        (some { kind := .varDecl, type := { name := "int" }, name := "n" },
          { past := [⟨.ident, "n"⟩, ⟨.ident, "int"⟩],
            rest := [⟨.newline, ""⟩, ⟨.endOfFile, ""⟩] }) :=
  ⟨(parseStatement_told_apart ⟨fun _ => ⟨0⟩, fun _ => none⟩ 3
      { rest := [⟨.ident, "a"⟩, ⟨.newline, ""⟩, ⟨.endOfFile, ""⟩] }
      ⟨nofun, by simp, by decide⟩ (by decide)).1 _ _ rfl rfl ⟨_, _, rfl, rfl⟩,
    (parseStatement_told_apart ⟨fun _ => ⟨0⟩, fun _ => none⟩ 4
      { rest := [⟨.ident, "int"⟩, ⟨.ident, "n"⟩, ⟨.newline, ""⟩, ⟨.endOfFile, ""⟩] }
      ⟨nofun, by simp, by decide⟩ (by decide)).2 [⟨.ident, "int"⟩] { name := "int" } ⟨.ident, "n"⟩ []
      none ⟨.newline, ""⟩ [⟨.endOfFile, ""⟩] rfl (.nombre rfl (.inl ⟨rfl, rfl⟩)) rfl
      (.inl ⟨rfl, rfl⟩) rfl⟩

/-- `a ? b : c` is an expression, and is read as the declaration of `b`, of the type `a?`. -/
theorem parseStatement_ternario :
    let s : Parser := { rest := [⟨.ident, "a"⟩, ⟨.question, ""⟩, ⟨.ident, "b"⟩, ⟨.colon, ""⟩,
      ⟨.ident, "c"⟩, ⟨.newline, ""⟩, ⟨.endOfFile, ""⟩] }
    let c : Entorno := ⟨fun _ => ⟨0⟩, fun _ => none⟩
    (∃ e s', parseExpr c (recur c 7) s = .ok (e, s') ∧ s'.diags = [] ∧
      s'.rest = [⟨.newline, ""⟩, ⟨.endOfFile, ""⟩] ∧
      parseStatement c (recur c 7) s ≠ .ok (some { kind := .exprStmt, value := e }, s')) ∧
    ∃ s', parseStatement c (recur c 7) s = .ok
      (some { kind := .varDecl, type := { name := "a", optional := true }, name := "b" }, s') := by
  refine ⟨⟨_, _, rfl, rfl, rfl, fun h => ?_⟩, _, rfl⟩
  injection h with h
  injection h with h _
  injection h with h
  injection h with h
  cases h

end Statements

end Osodio.Syntax
