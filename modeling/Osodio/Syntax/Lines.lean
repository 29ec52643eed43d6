import Mathlib.Data.List.Chain
import Mathlib.Data.List.TakeWhile
import Mathlib.Logic.Relation
import Osodio.Syntax.Lexer

/-!
# Logical lines

What the lexer makes of the margins: blocks that are opened and closed in pairs, lines that end
once, brackets across which no line ends, and nothing at all for a line without content.

## Main definitions

- `Cambia` — what a turn of the lexer can do to the tokens, the margins and the brackets
- `Compuesta` — what holds of them on every turn
- `Equilibrada`, `Lineas`, `Vacia` — what brackets enclose, whole lines, lines without content
- `Compuesto` — the layout of a text

## Main results

- `Lexer.run_compuesta` — a run without diagnostics keeps the invariant
- `Lexer.final_append` — whole lines are read the same whatever follows them
- `layout` — the layout of every text without diagnostics
-/

namespace Osodio.Syntax

/-! ## Kinds -/

/-- The token comes from a margin or from the end of a line. -/
def Tok.esDisposicion : Tok → Bool
  | .newline | .indent | .dedent => true
  | _ => false

def Tok.abre : Tok → Bool
  | .lParen | .lBracket | .lBrace => true
  | _ => false

def Tok.cierra : Tok → Bool
  | .rParen | .rBracket | .rBrace => true
  | _ => false

/-- Neither layout nor a bracket. -/
def Tok.plano (k : Tok) : Bool := !k.esDisposicion && !k.abre && !k.cierra

/-- How many tokens there are of a kind. -/
def cuantos (k : Tok) (ts : List Token) : ℕ := ts.countP (·.kind == k)

/-- How deep the text stands behind a token. -/
def hondura (n : ℕ) (t : Token) : ℕ :=
  if t.kind.abre then n + 1 else if t.kind.cierra then n - 1 else n

def profundidad (ts : List Token) : ℕ := ts.foldl hondura 0

section Counting

variable {k : Tok} {t : Token} {ts : List Token}

@[simp] theorem cuantos_nil : cuantos k [] = 0 := rfl

@[simp] theorem cuantos_concat :
    cuantos k (ts ++ [t]) = cuantos k ts + if t.kind = k then 1 else 0 := by
  rw [cuantos, List.countP_append, List.countP_singleton]
  simp [cuantos]

@[simp] theorem profundidad_concat : profundidad (ts ++ [t]) = hondura (profundidad ts) t := by
  rw [profundidad, List.foldl_append]
  rfl

theorem hondura_disposicion (ht : t.kind.esDisposicion) (n : ℕ) : hondura n t = n := by
  obtain ⟨k, x⟩ := t
  cases k <;> first | rfl | cases ht

theorem hondura_plano (ht : t.kind.plano) (n : ℕ) : hondura n t = n := by
  obtain ⟨k, x⟩ := t
  cases k <;> first | rfl | cases ht

end Counting

/-! ## What a turn can do -/

/-- What a turn of the lexer can do to the tokens, the margins and the brackets. -/
inductive Cambia (l l' : Lexer) : Prop where
  | igual (hout : l'.out = l.out) (hindents : l'.indents = l.indents)
      (hdepth : l'.bracketDepth = l.bracketDepth)
  | signo (t : Token) (ht : t.kind.esDisposicion = false) (hout : l'.out = l.out ++ [t])
      (hindents : l'.indents = l.indents) (hdepth : l'.bracketDepth = hondura l.bracketDepth t)
  | newline (hzero : l.bracketDepth = 0) (hlast : l.last ≠ some .newline)
      (hout : l'.out = l.out ++ [⟨.newline, ""⟩]) (hindents : l'.indents = l.indents)
      (hdepth : l'.bracketDepth = 0)
  -- a line that begins with a point takes the end of the one before it back
  | continua (t : Token) (ht : t.kind = .newline) (hout : l.out = l'.out ++ [t])
      (hindents : l'.indents = l.indents) (hdepth : l'.bracketDepth = l.bracketDepth)
  | indent (width : ℕ) (hzero : l.bracketDepth = 0) (hout : l'.out = l.out ++ [⟨.indent, ""⟩])
      (hindents : l'.indents = width :: l.indents) (hdepth : l'.bracketDepth = 0)
  | dedent (width : ℕ) (hzero : l.bracketDepth = 0) (hout : l'.out = l.out ++ [⟨.dedent, ""⟩])
      (hindents : l.indents = width :: l'.indents) (hne : l'.indents ≠ [])
      (hdepth : l'.bracketDepth = 0)

/-- What a run of the lexer can do to them. -/
abbrev Cambian : Lexer → Lexer → Prop := Relation.ReflTransGen Cambia

/-- What holds of the tokens, the margins and the brackets on every turn. -/
structure Compuesta (l : Lexer) : Prop where
  base : l.indents.getLast? = some 0
  altura : cuantos .indent l.out + 1 = cuantos .dedent l.out + l.indents.length
  prefijos : ∀ q, q <+: l.out → cuantos .dedent q ≤ cuantos .indent q
  hondo : l.bracketDepth = profundidad l.out
  fuera : ∀ a t b, l.out = a ++ t :: b → t.kind.esDisposicion → profundidad a = 0
  saltos : l.out.IsChain fun t u => ¬(t.kind = .newline ∧ u.kind = .newline)

section Invariant

variable {l l' : Lexer} {t : Token}

theorem compuesta_init (text : List Char) : Compuesta { rest := text } where
  base := rfl
  altura := rfl
  prefijos q hq := by rw [List.prefix_nil.mp hq]; exact le_rfl
  hondo := rfl
  fuera a t b h := by simp at h
  saltos := .nil

/-- The last token decides where a layout token stands. -/
theorem fuera_concat {ts : List Token}
    (h : ∀ a u b, ts = a ++ u :: b → u.kind.esDisposicion → profundidad a = 0)
    (ht : t.kind.esDisposicion → profundidad ts = 0) :
    ∀ a u b, ts ++ [t] = a ++ u :: b → u.kind.esDisposicion → profundidad a = 0 := by
  intro a u b hab hu
  obtain rfl | ⟨b, x, rfl⟩ := List.eq_nil_or_concat b
  · obtain ⟨rfl, hcons⟩ := List.append_inj' hab rfl
    cases hcons
    exact ht hu
  · rw [List.concat_eq_append, ← List.cons_append, ← List.append_assoc] at hab
    exact h a u b (List.append_inj' hab rfl).1 hu

theorem prefijos_concat {ts : List Token}
    (h : ∀ q, q <+: ts → cuantos .dedent q ≤ cuantos .indent q)
    (ht : cuantos .dedent (ts ++ [t]) ≤ cuantos .indent (ts ++ [t])) :
    ∀ q, q <+: ts ++ [t] → cuantos .dedent q ≤ cuantos .indent q := by
  intro q hq
  obtain rfl | hq := List.prefix_concat_iff.mp hq
  · exact ht
  · exact h q hq

theorem saltos_concat {ts : List Token}
    (h : ts.IsChain fun t u => ¬(t.kind = .newline ∧ u.kind = .newline))
    (ht : t.kind = .newline → ts.getLast?.map (·.kind) ≠ some .newline) :
    (ts ++ [t]).IsChain fun t u => ¬(t.kind = .newline ∧ u.kind = .newline) := by
  refine List.isChain_append.mpr ⟨h, .singleton _, ?_⟩
  rintro x hx y hy ⟨hxk, hyk⟩
  cases hy
  rw [Option.mem_def] at hx
  exact ht hyk (by rw [hx, Option.map_some, hxk])

/-- A token that is no layout. -/
theorem Compuesta.signo (h : Compuesta l) (ht : t.kind.esDisposicion = false)
    (hout : l'.out = l.out ++ [t]) (hindents : l'.indents = l.indents)
    (hdepth : l'.bracketDepth = hondura l.bracketDepth t) : Compuesta l' := by
  have hindent : t.kind ≠ .indent := by rintro hk; rw [hk] at ht; cases ht
  have hdedent : t.kind ≠ .dedent := by rintro hk; rw [hk] at ht; cases ht
  have hnewline : t.kind ≠ .newline := by rintro hk; rw [hk] at ht; cases ht
  have hle := h.prefijos _ List.prefix_rfl
  refine ⟨hindents ▸ h.base, ?_, ?_, ?_, ?_, ?_⟩ <;> rw [hout]
  · rw [hindents, cuantos_concat, cuantos_concat, if_neg hindent, if_neg hdedent]
    exact h.altura
  · exact prefijos_concat h.prefijos
      (by rwa [cuantos_concat, cuantos_concat, if_neg hindent, if_neg hdedent])
  · rw [hdepth, profundidad_concat, h.hondo]
  · exact fuera_concat h.fuera fun hd => by rw [ht] at hd; cases hd
  · exact saltos_concat h.saltos fun hk => absurd hk hnewline

/-- A layout token, outside brackets, with the margins it leaves. -/
theorem Compuesta.disposicion (h : Compuesta l) (ht : t.kind.esDisposicion)
    (hzero : l.bracketDepth = 0) (hout : l'.out = l.out ++ [t]) (hdepth : l'.bracketDepth = 0)
    (hbase : l'.indents.getLast? = some 0)
    (haltura : cuantos .indent (l.out ++ [t]) + 1 =
      cuantos .dedent (l.out ++ [t]) + l'.indents.length)
    (hsalto : t.kind = .newline → l.last ≠ some .newline) : Compuesta l' := by
  have hlen : 0 < l'.indents.length := by
    refine List.length_pos_iff.mpr fun hnil => ?_
    rw [hnil] at hbase
    cases hbase
  have hprof : profundidad l.out = 0 := h.hondo ▸ hzero
  refine ⟨hbase, ?_, ?_, ?_, ?_, ?_⟩ <;> rw [hout]
  · exact haltura
  · exact prefijos_concat h.prefijos (by omega)
  · rw [hdepth, profundidad_concat, hondura_disposicion ht, hprof]
  · exact fuera_concat h.fuera fun _ => hprof
  · exact saltos_concat h.saltos hsalto

/-- Every turn keeps the invariant. -/
theorem Compuesta.cambia (h : Compuesta l) (hc : Cambia l l') : Compuesta l' := by
  cases hc with
  | igual hout hindents hdepth =>
    refine ⟨hindents ▸ h.base, ?_, ?_, ?_, ?_, ?_⟩ <;> rw [hout]
    · rw [hindents]; exact h.altura
    · exact h.prefijos
    · rw [hdepth]; exact h.hondo
    · exact h.fuera
    · exact h.saltos
  | signo t ht hout hindents hdepth => exact h.signo ht hout hindents hdepth
  | newline hzero hlast hout hindents hdepth =>
    refine h.disposicion rfl hzero hout hdepth (hindents ▸ h.base) ?_ fun _ => hlast
    rw [hindents, cuantos_concat, cuantos_concat]
    exact h.altura
  | continua t ht hout hindents hdepth =>
    have hindent : t.kind ≠ .indent := by rw [ht]; decide
    have hdedent : t.kind ≠ .dedent := by rw [ht]; decide
    have hpre : l'.out <+: l.out := hout ▸ List.prefix_append _ _
    refine ⟨hindents ▸ h.base, ?_, fun q hq => h.prefijos q (hq.trans hpre), ?_, ?_,
      h.saltos.prefix hpre⟩
    · have := h.altura
      rw [hout, cuantos_concat, cuantos_concat, if_neg hindent, if_neg hdedent] at this
      rw [hindents]
      exact this
    · rw [hdepth, h.hondo, hout, profundidad_concat, hondura_disposicion (by rw [ht]; rfl)]
    · intro a u b hab hu
      exact h.fuera a u (b ++ [t]) (by rw [hout, hab]; simp) hu
  | indent width hzero hout hindents hdepth =>
    refine h.disposicion rfl hzero hout hdepth ?_ ?_ nofun
    · rw [hindents, List.getLast?_cons, h.base]
      rfl
    · have := h.altura
      rw [hindents, cuantos_concat, cuantos_concat, List.length_cons]
      simp only [if_true, reduceCtorEq, if_false]
      omega
  | dedent width hzero hout hindents hne hdepth =>
    refine h.disposicion rfl hzero hout hdepth ?_ ?_ nofun
    · have := h.base
      rwa [hindents, List.getLast?_cons_of_ne_nil hne] at this
    · have := h.altura
      rw [hindents, List.length_cons] at this
      rw [cuantos_concat, cuantos_concat]
      simp only [if_true, reduceCtorEq, if_false]
      omega

theorem Compuesta.cambian (h : Compuesta l) (hc : Cambian l l') : Compuesta l' := by
  induction hc with
  | refl => exact h
  | tail _ hc ih => exact ih.cambia hc

end Invariant

/-! ## Every turn is one of these -/

section Turn

variable {l l' : Lexer} {c : Char} {s : List Char}

/-- A word is neither layout nor a bracket. -/
theorem keywordOrIdent_plano (x : String) : (keywordOrIdent x).plano := by
  have hall : ∀ p ∈ keywords, p.2.plano := by decide
  rw [keywordOrIdent]
  cases h : keywords.lookup x with
  | none => rfl
  | some k =>
    obtain ⟨a, b, hab, -⟩ := List.lookup_eq_some_iff.mp h
    exact hall (x, k) (hab ▸ List.mem_append_right a List.mem_cons_self)

theorem Tok.plano_disposicion {k : Tok} (h : k.plano) : k.esDisposicion = false := by
  cases k <;> first | rfl | cases h

theorem Lexer.abre_kind {k : Tok} (h : Lexer.abre c = some k) :
    k.esDisposicion = false ∧ k.abre = true := by
  rw [Lexer.abre.eq_def] at h
  split at h <;> cases h <;> exact ⟨rfl, rfl⟩

theorem Lexer.cierra_kind {k : Tok} (h : Lexer.cierra c = some k) :
    k.esDisposicion = false ∧ k.abre = false ∧ k.cierra = true := by
  rw [Lexer.cierra.eq_def] at h
  split at h <;> cases h <;> exact ⟨rfl, rfl, rfl⟩

/-- A mark is neither layout nor a bracket, with or without what follows it. -/
theorem Lexer.marca_plano {segundas : List (Char × Tok)} {simple : Tok}
    (h : Lexer.marca c = some (segundas, simple)) :
    simple.plano ∧ ∀ p ∈ segundas, p.2.plano := by
  rw [Lexer.marca.eq_def] at h
  split at h <;> cases h <;> decide

/-- A token that is neither layout nor a bracket. -/
theorem Cambia.plano (t : Token) (ht : t.kind.plano) (hout : l'.out = l.out ++ [t])
    (hindents : l'.indents = l.indents) (hdepth : l'.bracketDepth = l.bracketDepth) :
    Cambia l l' :=
  .signo t (Tok.plano_disposicion ht) hout hindents (by rw [hdepth, hondura_plano ht])

theorem Lexer.doble_cambia {segundas : List (Char × Tok)} {simple : Tok} (hs : simple.plano)
    (h2 : ∀ p ∈ segundas, p.2.plano) : Cambia l (l.doble s segundas simple) := by
  rw [Lexer.doble.eq_def]
  split
  · exact .plano _ hs rfl rfl rfl
  · split
    · next k hk =>
      obtain ⟨a, b, hab, -⟩ := List.lookup_eq_some_iff.mp hk
      have hmem : (_, k) ∈ segundas := hab ▸ List.mem_append_right a List.mem_cons_self
      exact .plano _ (h2 _ hmem) rfl rfl rfl
    · exact .plano _ hs rfl rfl rfl

theorem Lexer.lexSigno_cambia : Cambia l (l.lexSigno c s) := by
  rw [Lexer.lexSigno.eq_def]
  split
  · next k hk =>
    obtain ⟨hdisp, habre⟩ := abre_kind hk
    exact .signo _ hdisp rfl rfl (by simp [hondura, habre, push])
  · split
    · next k hk =>
      obtain ⟨hdisp, habre, hcierra⟩ := cierra_kind hk
      exact .signo _ hdisp rfl rfl (by simp [hondura, habre, hcierra, push])
    · split
      · next hm =>
        obtain ⟨hs, h2⟩ := marca_plano hm
        exact doble_cambia hs h2
      · split
        · split
          · exact .plano _ rfl rfl rfl rfl
          · exact .igual rfl rfl rfl
        · exact .igual rfl rfl rfl

theorem Lexer.lexToken_cambia : Cambia l (l.lexToken c s) := by
  rw [Lexer.lexToken]
  split
  · rw [lexNumber.eq_def]
    split
    · split <;> exact .plano _ rfl rfl rfl rfl
    · exact .plano _ rfl rfl rfl rfl
  · split
    · rw [lexString.eq_def]
      split
      · rw [lexStringMulti]
        dsimp only
        split <;> exact .plano _ rfl rfl rfl rfl
      · exact .plano _ rfl rfl rfl rfl
      · exact .igual rfl rfl rfl
    · split
      · exact .plano _ (keywordOrIdent_plano _) rfl rfl rfl
      · exact lexSigno_cambia

theorem Lexer.lineEnd_cambia : Cambia l (l.lineEnd s) := by
  rw [Lexer.lineEnd]
  dsimp only
  split
  · next hzero =>
    split
    · next h => exact .newline hzero h.2.1 rfl rfl hzero
    · exact .igual rfl rfl rfl
  · exact .igual rfl rfl rfl

theorem Lexer.continua_cambia : Cambia l l.continua := by
  rw [Lexer.continua]
  by_cases hlast : l.last = some .newline
  · rw [Lexer.last] at hlast
    obtain ⟨t, ht, hk⟩ := Option.map_eq_some_iff.mp hlast
    refine .continua t hk ?_ rfl rfl
    simp only [Lexer.last, hlast, if_true]
    exact (List.dropLast_append_getLast? t ht).symm
  · exact .igual (by simp only [hlast, if_false]) rfl rfl

/-- Some of the open margins are closed, one by one. -/
theorem cambian_dedent (hzero : l.bracketDepth = 0) (cerrados abiertos : List ℕ)
    (hindents : l.indents = cerrados ++ abiertos) (hne : abiertos ≠ []) :
    Cambian l { l with
      indents := abiertos
      out := l.out ++ List.replicate cerrados.length ⟨.dedent, ""⟩ } := by
  induction cerrados generalizing l with
  | nil => exact .single (.igual (List.append_nil _) hindents.symm rfl)
  | cons w ws ih =>
    let m : Lexer := { l with indents := ws ++ abiertos, out := l.out ++ [⟨.dedent, ""⟩] }
    have hm : Cambia l m := .dedent w hzero rfl hindents (by simp [m, hne]) hzero
    have := ih (l := m) hzero rfl
    refine .head hm (this.tail (.igual ?_ rfl rfl))
    simp [m, List.replicate_succ]

theorem Lexer.indenta_cambian (hbase : l.indents.getLast? = some 0) (hzero : l.bracketDepth = 0)
    (width : ℕ) (hd : (l.indenta width).diags = []) : Cambian l (l.indenta width) := by
  rw [Lexer.indenta] at hd ⊢
  split
  · next hlt => exact .single (.indent width hzero rfl rfl hzero)
  · next hlt =>
    rw [if_neg hlt] at hd
    dsimp only at hd ⊢
    split
    · have hne : l.indents.dropWhile (width < ·) ≠ [] := by
        -- the margin of the text is never closed
        intro hnil
        have := List.dropWhile_eq_nil_iff.mp hnil 0 (List.mem_of_getLast? hbase)
        simp at this
      have hlen : l.indents.length - (l.indents.dropWhile (width < ·)).length =
          (l.indents.takeWhile (width < ·)).length := by
        have := congrArg List.length (List.takeWhile_append_dropWhile
          (p := fun w => decide (width < w)) (l := l.indents))
        rw [List.length_append] at this
        omega
      rw [hlen]
      exact cambian_dedent hzero _ _ List.takeWhile_append_dropWhile.symm hne
    · next hw =>
      rw [if_neg hw] at hd
      simp [error] at hd

/-- The diagnostics only grow. -/
theorem Lexer.indenta_diags (width : ℕ) : l.diags <+: (l.indenta width).diags := by
  rw [Lexer.indenta]
  split
  · exact List.prefix_rfl
  · dsimp only
    split
    · exact List.prefix_rfl
    · exact List.prefix_append _ _

theorem Lexer.doble_diags (segundas : List (Char × Tok)) (simple : Tok) :
    (l.doble s segundas simple).diags = l.diags := by
  rw [Lexer.doble.eq_def]
  split
  · rfl
  · split <;> rfl

theorem Lexer.lexToken_diags : l.diags <+: (l.lexToken c s).diags := by
  rw [Lexer.lexToken]
  split
  · rw [lexNumber.eq_def]
    split
    · split <;> exact List.prefix_rfl
    · exact List.prefix_rfl
  · split
    · rw [lexString.eq_def]
      split
      · rw [lexStringMulti]
        dsimp only [push]
        split
        · exact List.prefix_append _ _
        · exact (List.prefix_append _ _).trans (List.prefix_append _ _)
      · exact List.prefix_append _ _
      · exact List.prefix_rfl
    · split
      · exact List.prefix_rfl
      · rw [lexSigno.eq_def]
        split
        · exact List.prefix_rfl
        · split
          · exact List.prefix_rfl
          · split
            · exact (doble_diags _ _).symm ▸ List.prefix_rfl
            · split
              · split
                · exact List.prefix_rfl
                · exact List.prefix_append _ _
              · exact List.prefix_append _ _

theorem Lexer.lineStart_diags : l.diags <+: l.lineStart.diags := by
  rw [Lexer.lineStart.eq_def]
  dsimp only
  split
  · exact List.prefix_rfl
  · split
    · exact List.prefix_rfl
    · have htab : l.diags <+: (if '\t' ∈ l.rest.takeWhile esMargen then
          l.error "indentacion con tabulador: usa espacios" else l).diags := by
        split
        · exact List.prefix_append _ _
        · exact List.prefix_rfl
      split
      · exact htab
      · exact htab.trans (indenta_diags _)

theorem Lexer.lineEnd_diags : (l.lineEnd s).diags = l.diags := by
  rw [Lexer.lineEnd]
  dsimp only
  split
  · split <;> rfl
  · rfl

theorem Lexer.step_diags (h : l.step = some l') : l.diags <+: l'.diags := by
  rw [Lexer.step.eq_def] at h
  split at h
  · cases h
  · cases h
    split_ifs
    · exact lineStart_diags
    · exact List.prefix_rfl
    · exact List.prefix_rfl
    · exact lineEnd_diags.symm ▸ List.prefix_rfl
    · exact lexToken_diags

theorem Lexer.lineStart_cambian (hbase : l.indents.getLast? = some 0) (hzero : l.bracketDepth = 0)
    (hd : l.lineStart.diags = []) : Cambian l l.lineStart := by
  rw [Lexer.lineStart.eq_def] at hd ⊢
  dsimp only at hd ⊢
  split
  · exact .single (.igual rfl rfl rfl)
  · next c s hcs =>
    rw [hcs] at hd
    dsimp only at hd
    split
    · exact .single (.igual rfl rfl rfl)
    · next hc =>
      rw [if_neg hc] at hd
      by_cases htab : '\t' ∈ l.rest.takeWhile esMargen
      · -- a tab leaves a diagnostic, which nothing takes back
        rw [if_pos htab] at hd
        exfalso
        split at hd
        · simp [continua, error] at hd
        · have := List.prefix_nil.mp (hd ▸ indenta_diags (l := l.error _) _)
          simp [error] at this
      · simp only [if_neg htab] at hd ⊢
        split
        · exact (Relation.ReflTransGen.single continua_cambia).tail (.igual rfl rfl rfl)
        · next hpoint =>
          rw [if_neg hpoint] at hd
          exact (indenta_cambian hbase hzero _ hd).tail (.igual rfl rfl rfl)

/-- Every turn that leaves no diagnostic is one of those above. -/
theorem Lexer.step_cambian (hbase : l.indents.getLast? = some 0) (h : l.step = some l')
    (hd : l'.diags = []) : Cambian l l' := by
  rw [Lexer.step.eq_def] at h
  split at h
  · cases h
  · cases h
    split
    · next hstart =>
      rw [if_pos hstart] at hd
      exact lineStart_cambian hbase hstart.2 hd
    · split
      · exact .single (.igual rfl rfl rfl)
      · split
        · exact .single (.igual rfl rfl rfl)
        · split
          · exact .single lineEnd_cambia
          · exact .single lexToken_cambia

end Turn

/-! ## Runs -/

section Run

variable {l l' : Lexer} {n : ℕ}

theorem Lexer.run_succ (h : l.step = some l') (n : ℕ) : run (n + 1) l = run n l' := by
  rw [run, h]

theorem Lexer.run_none (h : l.step = none) (n : ℕ) : run n l = l := by
  cases n with
  | zero => rfl
  | succ n => rw [run, h]

theorem Lexer.run_diags : ∀ (n : ℕ) (l : Lexer), l.diags <+: (run n l).diags
  | 0, _ => List.prefix_rfl
  | n + 1, l => by
    cases h : l.step with
    | none => exact (run_none h (n + 1)).symm ▸ List.prefix_rfl
    | some l' =>
      rw [run_succ h]
      exact (step_diags h).trans (run_diags n l')

/-- A run without diagnostics keeps the invariant. -/
theorem Lexer.run_compuesta (h : Compuesta l) (n : ℕ) (hd : (run n l).diags = []) :
    Compuesta (run n l) := by
  induction n generalizing l with
  | zero => exact h
  | succ n ih =>
    cases hs : l.step with
    | none => rwa [run_none hs]
    | some l' =>
      rw [run_succ hs] at hd ⊢
      have hd' : l'.diags = [] := List.prefix_nil.mp (hd ▸ run_diags n l')
      exact ih (h.cambian (step_cambian h.base hs hd')) hd

theorem Lexer.finish_diags : l.diags <+: l.finish.diags := by
  rw [finish]
  dsimp only
  split
  · split
    · exact List.prefix_append _ _
    · exact List.prefix_rfl
  · split
    · exact List.prefix_append _ _
    · exact List.prefix_rfl

theorem Lexer.finish_out : ∃ ts, l.finish.out = ts ++ [⟨.endOfFile, ""⟩] := by
  rw [finish]
  dsimp only
  split
  · split <;> exact ⟨_, rfl⟩
  · split <;> exact ⟨_, rfl⟩

/-- The end of the text closes the blocks that are open. -/
theorem Lexer.finish_compuesta (h : Compuesta l) (hd : l.finish.diags = []) :
    Compuesta l.finish ∧ l.finish.indents.length = 1 := by
  have hzero : l.bracketDepth = 0 := by
    by_contra hne
    rw [Lexer.finish] at hd
    dsimp only at hd
    rw [if_pos (by split <;> exact hne)] at hd
    simp [error] at hd
  let m := if l.out ≠ [] ∧ l.last ≠ some .newline then l.push .newline else l
  have hm : Cambia l m := by
    by_cases hlast : l.out ≠ [] ∧ l.last ≠ some .newline
    · simp only [m, if_pos hlast]
      exact .newline hzero hlast.2 rfl rfl hzero
    · simp only [m, if_neg hlast]
      exact .igual rfl rfl rfl
  have hmzero : m.bracketDepth = 0 := by
    simp only [m]
    split <;> exact hzero
  have hfin : l.finish = { m with
      indents := m.indents.drop (m.indents.length - 1)
      out := m.out ++ List.replicate (m.indents.length - 1) ⟨.dedent, ""⟩ ++
        [⟨.endOfFile, ""⟩] } := by
    rw [Lexer.finish]
    exact if_neg (not_not.mpr hmzero)
  have hlen : 0 < m.indents.length := by
    refine List.length_pos_iff.mpr fun hnil => ?_
    have := (h.cambia hm).base
    rw [hnil] at this
    cases this
  have hdedent := cambian_dedent hmzero (m.indents.take (m.indents.length - 1))
    (m.indents.drop (m.indents.length - 1)) (List.take_append_drop _ _).symm
    (List.ne_nil_of_length_pos (by rw [List.length_drop]; omega))
  rw [List.length_take_of_le (Nat.sub_le _ _)] at hdedent
  rw [hfin]
  refine ⟨h.cambian (.trans (.single hm) (hdedent.tail ?_)), ?_⟩
  · exact .plano ⟨.endOfFile, ""⟩ rfl rfl rfl rfl
  · rw [List.length_drop]
    omega

end Run

/-! ## Text that ends a line

What a turn makes of such a text does not depend on what follows, unless a string is open. -/

section Strings

/-- What a string of three quotes leaves, and what it makes of the text behind it if it is
    closed. -/
theorem bruto_spec (s : List Char) : (bruto s).2.1 <:+ s ∧
    ((bruto s).2.2 = false → (bruto s).2.1 = []) ∧
    ((bruto s).2.2 = true → 3 ≤ s.length ∧
      ∀ u, bruto (s ++ u) = ((bruto s).1, (bruto s).2.1 ++ u, true)) := by
  induction hn : s.length using Nat.strong_induction_on generalizing s with
  | _ n ih =>
    subst hn
    rw [bruto.eq_def s]
    split
    · next s => exact ⟨⟨['"', '"', '"'], rfl⟩, nofun, fun _ => ⟨by simp, fun u => rfl⟩⟩
    · next c s =>
      obtain ⟨hsuf, hopen, hclosed⟩ := ih s.length
        (by rw [List.length_cons, List.length_cons]; omega) s rfl
      refine ⟨hsuf.trans ⟨['\\', c], rfl⟩, hopen, fun h => ?_⟩
      obtain ⟨hlen, happ⟩ := hclosed h
      refine ⟨by rw [List.length_cons, List.length_cons]; omega, fun u => ?_⟩
      rw [List.cons_append, List.cons_append, bruto, happ]
    · next c s hquotes hbar =>
      obtain ⟨hsuf, hopen, hclosed⟩ := ih s.length (by simp) s rfl
      refine ⟨hsuf.trans (List.suffix_cons _ _), hopen, fun h => ?_⟩
      obtain ⟨hlen, happ⟩ := hclosed h
      refine ⟨by rw [List.length_cons]; omega, fun u => ?_⟩
      -- three characters decide, and they are all there
      match s, hlen with
      | a :: b :: s, _ =>
        rw [List.cons_append, bruto, happ]
        · rintro s' rfl hs'
          cases hs'
          exact hquotes _ rfl rfl
        · rintro c' s' rfl hs'
          exact hbar _ _ rfl rfl
    · exact ⟨List.suffix_rfl, fun _ => rfl, nofun⟩

theorem cadena_suffix (s : List Char) : (cadena s).2.1 <:+ s := by
  fun_induction cadena s with
  | case1 s => exact List.suffix_cons _ _
  | case2 => exact List.nil_suffix
  | case3 e s d he ih => exact ih.trans ⟨['\\', e], rfl⟩
  | case4 e s he ih => exact ih.trans ⟨['\\', e], rfl⟩
  | case5 s => exact List.suffix_rfl
  | case6 c s _ _ _ _ ih => exact ih.trans (List.suffix_cons _ _)
  | case7 => exact List.suffix_rfl

/-- A string on one line that leaves something. -/
theorem cadena_append (s : List Char) (h : (cadena s).2.1 ≠ []) (u : List Char) :
    cadena (s ++ u) = ((cadena s).1, (cadena s).2.1 ++ u, (cadena s).2.2) := by
  fun_induction cadena s with
  | case1 s => rfl
  | case2 => exact absurd rfl h
  | case3 e s d he ih =>
    rw [List.cons_append, List.cons_append, cadena, he, ih h]
  | case4 e s he ih =>
    rw [List.cons_append, List.cons_append, cadena, he, ih h]
  | case5 s => rfl
  | case6 c s hq hb he hn ih =>
    rw [List.cons_append, cadena, ih h]
    · exact hq
    · exact fun hc hs => hb hc (List.append_eq_nil_iff.mp hs).1
    · intro e s' hc hs
      cases s with
      | nil => exact hb hc rfl
      | cons e s => exact he e s hc rfl
    · exact hn
  | case7 => exact absurd rfl h

end Strings

section Ending

variable {l l' : Lexer} {c : Char} {s p u : List Char} {f : Char → Bool}

/-- The lexer with more text behind the one it has. -/
def Lexer.seguido (l : Lexer) (u : List Char) : Lexer := { l with rest := l.rest ++ u }

/-- The text ends a line. -/
def Acaba (p : List Char) : Prop := p.getLast? = some '\n'

theorem Acaba.mem (h : Acaba p) : '\n' ∈ p := List.mem_of_getLast? h

theorem Acaba.suffix (h : Acaba p) (hs : s <:+ p) (hne : s ≠ []) : Acaba s := by
  have hp : p ≠ [] := by rintro rfl; exact hne (List.suffix_nil.mp hs)
  have hlast := hs.getLast hne
  rw [Acaba, List.getLast?_eq_some_getLast hne, hlast]
  rwa [Acaba, List.getLast?_eq_some_getLast hp] at h

/-- What a character other than the end of the line is followed by. -/
theorem Acaba.tail (h : Acaba (c :: s)) (hc : c ≠ '\n') : Acaba s := by
  refine h.suffix (List.suffix_cons c s) ?_
  rintro rfl
  exact hc (Option.some.inj h)

theorem dropWhile_line (h : '\n' ∈ p) (hf : f '\n' = false) : p.dropWhile f ≠ [] := by
  intro hnil
  have := List.dropWhile_eq_nil_iff.mp hnil _ h
  rw [hf] at this
  cases this

theorem dropWhile_seguido (h : '\n' ∈ p) (hf : f '\n' = false) (u : List Char) :
    (p ++ u).dropWhile f = p.dropWhile f ++ u := by
  rw [List.dropWhile_append, if_neg]
  simpa using dropWhile_line h hf

theorem takeWhile_seguido (h : '\n' ∈ p) (hf : f '\n' = false) (u : List Char) :
    (p ++ u).takeWhile f = p.takeWhile f := by
  rw [List.takeWhile_append, if_neg]
  intro hlen
  have := congrArg List.length (List.takeWhile_append_dropWhile (p := f) (l := p))
  rw [List.length_append, hlen] at this
  exact dropWhile_line h hf (List.length_eq_zero_iff.mp (by omega))

theorem Lexer.lexNumber_float {d : Char} (h : l.rest.dropWhile Char.isDigit = '.' :: d :: s)
    (hd : d.isDigit) : l.lexNumber = { l with rest := (d :: s).dropWhile Char.isDigit }.push .float
      (l.rest.takeWhile Char.isDigit ++ '.' :: (d :: s).takeWhile Char.isDigit) := by
  simp only [lexNumber, h]
  exact if_pos hd

theorem Lexer.lexNumber_int (h : l.rest.dropWhile Char.isDigit = p)
    (hp : ∀ d s, p = '.' :: d :: s → d.isDigit = false) :
    l.lexNumber = { l with rest := p }.push .int (l.rest.takeWhile Char.isDigit) := by
  simp only [lexNumber, h]
  split
  · next d s =>
    rw [if_neg (by simp [hp d s rfl])]
  · rfl

theorem Lexer.lexNumber_seguido (h : Acaba l.rest) (u : List Char) :
    (l.seguido u).lexNumber = l.lexNumber.seguido u := by
  have hne := dropWhile_line (f := Char.isDigit) h.mem rfl
  have hdrop := dropWhile_seguido (f := Char.isDigit) h.mem rfl u
  have htake := takeWhile_seguido (f := Char.isDigit) h.mem rfl u
  have hline := h.suffix (List.dropWhile_suffix Char.isDigit) hne
  by_cases hpoint : ∃ d s, l.rest.dropWhile Char.isDigit = '.' :: d :: s ∧ d.isDigit
  · obtain ⟨d, s, hds, hd⟩ := hpoint
    rw [hds] at hline hdrop
    have hline' : Acaba (d :: s) := hline.tail (by decide)
    rw [lexNumber_float hds hd, lexNumber_float (l := l.seguido u) hdrop hd]
    have hdrop' := dropWhile_seguido (f := Char.isDigit) hline'.mem rfl u
    have htake' := takeWhile_seguido (f := Char.isDigit) hline'.mem rfl u
    rw [List.cons_append] at hdrop' htake'
    simp only [seguido, push, List.append_eq, hdrop', htake', htake]
  · have hint : ∀ d s, l.rest.dropWhile Char.isDigit = '.' :: d :: s → d.isDigit = false :=
      fun d s hds => Bool.eq_false_iff.mpr fun hd => hpoint ⟨d, s, hds, hd⟩
    rw [lexNumber_int rfl hint, lexNumber_int (l := l.seguido u) hdrop]
    · simp only [seguido, push, htake]
    · intro d s hds
      obtain ⟨c, r, hcr⟩ := List.exists_cons_of_ne_nil hne
      rw [hcr] at hline hds
      rw [List.cons_append, List.cons.injEq] at hds
      obtain ⟨rfl, hrest⟩ := hds
      obtain ⟨e, r, rfl⟩ := List.exists_cons_of_ne_nil
        (List.ne_nil_of_mem (hline.tail (by decide)).mem)
      rw [List.cons_append, List.cons.injEq] at hrest
      obtain ⟨rfl, -⟩ := hrest
      exact hint e r hcr

theorem Lexer.lexStringMulti_seguido (h : (l.lexStringMulti s).rest ≠ []) (u : List Char) :
    (l.seguido u).lexStringMulti (s ++ u) = (l.lexStringMulti s).seguido u := by
  obtain ⟨-, hopen, hclosed⟩ := bruto_spec s
  cases hb : (bruto s).2.2 with
  | true =>
    simp only [lexStringMulti, (hclosed hb).2 u, hb, if_true]
    rfl
  | false =>
    refine absurd ?_ h
    simp only [lexStringMulti, push]
    exact hopen hb

/-- A string of one quote. -/
theorem Lexer.lexString_una (h : l.rest = '"' :: s) (hs : ∀ r, s ≠ '"' :: '"' :: r) :
    l.lexString = { l with rest := (cadena s).2.1, diags := l.diags ++ (cadena s).2.2 }.push
      .string (cadena s).1 := by
  rw [lexString.eq_def, h]
  split
  · next heq =>
    cases heq
    exact absurd rfl (hs _)
  · next heq =>
    cases heq
    rfl
  · next heq => cases heq

theorem Lexer.lexString_seguido (h : Acaba l.rest) (hquote : l.rest.head? = some '"')
    (hne : l.lexString.rest ≠ []) (u : List Char) :
    (l.seguido u).lexString = l.lexString.seguido u := by
  obtain ⟨s, hs⟩ := List.head?_eq_some_iff.mp hquote
  have hs' : (l.seguido u).rest = '"' :: (s ++ u) := by rw [seguido, hs, List.cons_append]
  rw [hs] at h
  have hline : Acaba s := h.tail (by decide)
  by_cases htriple : ∃ r, s = '"' :: '"' :: r
  · obtain ⟨r, rfl⟩ := htriple
    simp only [lexString, hs] at hne ⊢
    rw [hs']
    exact lexStringMulti_seguido hne u
  · have hone : ∀ r, s ≠ '"' :: '"' :: r := fun r hr => htriple ⟨r, hr⟩
    have hone' : ∀ r, s ++ u ≠ '"' :: '"' :: r := by
      intro r hr
      obtain ⟨a, s, rfl⟩ := List.exists_cons_of_ne_nil (List.ne_nil_of_mem hline.mem)
      rw [List.cons_append, List.cons.injEq] at hr
      obtain ⟨rfl, hr⟩ := hr
      obtain ⟨b, s, rfl⟩ := List.exists_cons_of_ne_nil
        (List.ne_nil_of_mem (hline.tail (by decide)).mem)
      rw [List.cons_append, List.cons.injEq] at hr
      obtain ⟨rfl, -⟩ := hr
      exact hone s rfl
    rw [lexString_una hs hone] at hne ⊢
    rw [lexString_una hs' hone', cadena_append s hne u]
    rfl

theorem Lexer.lexIdent_seguido (h : '\n' ∈ l.rest) (u : List Char) :
    (l.seguido u).lexIdent = l.lexIdent.seguido u := by
  simp only [lexIdent, seguido, dropWhile_seguido (f := isIdentChar) h (by decide) u,
    takeWhile_seguido (f := isIdentChar) h (by decide) u]
  rfl

theorem Lexer.doble_seguido (hne : s ≠ []) (segundas : List (Char × Tok)) (simple : Tok)
    (u : List Char) :
    (l.seguido u).doble (s ++ u) segundas simple = (l.doble s segundas simple).seguido u := by
  obtain ⟨c, s, rfl⟩ := List.exists_cons_of_ne_nil hne
  rw [List.cons_append, doble, doble]
  split <;> rfl

theorem Lexer.lexSigno_seguido (hne : s ≠ []) (u : List Char) :
    (l.seguido u).lexSigno c (s ++ u) = (l.lexSigno c s).seguido u := by
  simp only [lexSigno]
  split
  · rfl
  · split
    · rfl
    · split
      · exact doble_seguido hne _ _ u
      · split
        · obtain ⟨d, s, rfl⟩ := List.exists_cons_of_ne_nil hne
          by_cases hd : d = '='
          · subst hd
            rfl
          · rw [List.cons_append]
            split
            · next heq =>
              cases heq
              exact absurd rfl hd
            · split
              · next heq =>
                cases heq
                exact absurd rfl hd
              · rfl
        · rfl

theorem Lexer.saltaLinea_seguido (h : Acaba p) (u : List Char) :
    saltaLinea (p ++ u) = saltaLinea p ++ u := by
  have hquita : ∀ (d : Char) (q : List Char), q ≠ [] →
      (if (q ++ u).head? = some d then (q ++ u).tail else q ++ u) =
        (if q.head? = some d then q.tail else q) ++ u := by
    intro d q hq
    obtain ⟨e, q, rfl⟩ := List.exists_cons_of_ne_nil hq
    rw [List.cons_append, List.head?_cons, List.head?_cons]
    split <;> rfl
  have hcomment : (if (p ++ u).head? = some '#' then (p ++ u).dropWhile (· != '\n') else p ++ u) =
      (if p.head? = some '#' then p.dropWhile (· != '\n') else p) ++ u := by
    obtain ⟨c, s, rfl⟩ := List.exists_cons_of_ne_nil (List.ne_nil_of_mem h.mem)
    rw [List.cons_append, List.head?_cons, List.head?_cons, ← List.cons_append,
      dropWhile_seguido h.mem rfl u]
    split <;> rfl
  have hline : Acaba (if p.head? = some '#' then p.dropWhile (· != '\n') else p) := by
    split
    · exact h.suffix (List.dropWhile_suffix _) (dropWhile_line h.mem rfl)
    · exact h
  obtain ⟨c, s, hcs⟩ := List.exists_cons_of_ne_nil (List.ne_nil_of_mem hline.mem)
  simp only [saltaLinea, hcomment]
  rw [hcs] at hline ⊢
  rw [hquita '\r' (c :: s) (List.cons_ne_nil c s), hquita '\n']
  split
  · next hr =>
    obtain rfl : c = '\r' := Option.some.inj hr
    exact List.ne_nil_of_mem (hline.tail (by decide)).mem
  · exact List.cons_ne_nil c s

theorem Lexer.indenta_seguido (n : ℕ) (u : List Char) :
    (l.seguido u).indenta n = (l.indenta n).seguido u := by
  rw [indenta, indenta]
  by_cases hlt : l.indents.headD 0 < n
  · rw [if_pos hlt, if_pos (by exact hlt)]
    rfl
  · rw [if_neg hlt, if_neg (by exact hlt)]
    dsimp only
    by_cases heq : n = (l.indents.dropWhile (n < ·)).headD 0
    · rw [if_pos heq, if_pos (by exact heq)]
      rfl
    · rw [if_neg heq, if_neg (by exact heq)]
      rfl

/-- A line without content. -/
theorem Lexer.lineStart_vacia (h : l.rest.dropWhile esMargen = c :: s)
    (hc : c = '\n' ∨ c = '\r' ∨ c = '#') :
    l.lineStart = { l with rest := saltaLinea (c :: s) } := by
  rw [lineStart.eq_def, h]
  exact if_pos hc

/-- A line with content. -/
theorem Lexer.lineStart_llena (h : l.rest.dropWhile esMargen = c :: s)
    (hc : ¬(c = '\n' ∨ c = '\r' ∨ c = '#')) :
    l.lineStart =
      let l' := if '\t' ∈ l.rest.takeWhile esMargen then
        l.error "indentacion con tabulador: usa espacios" else l
      { (if c = '.' ∧ (s.headD '\x00').isDigit = false then l'.continua
          else l'.indenta (l.rest.takeWhile esMargen).length) with
        rest := c :: s, atLineStart := false } := by
  rw [lineStart.eq_def, h]
  exact if_neg hc

/-- What a turn at the start of a line takes. -/
theorem Lexer.lineStart_seguido (h : Acaba l.rest) (u : List Char) :
    (l.seguido u).lineStart = l.lineStart.seguido u := by
  have hne := dropWhile_line (f := esMargen) h.mem rfl
  have hdrop := dropWhile_seguido (f := esMargen) h.mem rfl u
  have htake : (l.seguido u).rest.takeWhile esMargen = l.rest.takeWhile esMargen :=
    takeWhile_seguido h.mem rfl u
  have hline := h.suffix (List.dropWhile_suffix esMargen) hne
  obtain ⟨c, s, hcs⟩ := List.exists_cons_of_ne_nil hne
  rw [hcs] at hline hdrop
  by_cases hc : c = '\n' ∨ c = '\r' ∨ c = '#'
  · rw [lineStart_vacia hcs hc, lineStart_vacia (l := l.seguido u) hdrop hc]
    have hsalta := saltaLinea_seguido hline u
    rw [List.cons_append] at hsalta
    exact congrArg (fun r => { l with rest := r }) hsalta
  · rw [lineStart_llena hcs hc, lineStart_llena (l := l.seguido u) hdrop hc, htake]
    have hpoint : (c = '.' ∧ ((s.append u).headD '\x00').isDigit = false) ↔
        c = '.' ∧ (s.headD '\x00').isDigit = false := by
      refine and_congr_right fun hdot => ?_
      obtain ⟨d, s, rfl⟩ := List.exists_cons_of_ne_nil
        (List.ne_nil_of_mem (hline.tail (by rw [hdot]; decide)).mem)
      rfl
    have htab : (if '\t' ∈ l.rest.takeWhile esMargen then
        (l.seguido u).error "indentacion con tabulador: usa espacios" else l.seguido u) =
        (if '\t' ∈ l.rest.takeWhile esMargen then
          l.error "indentacion con tabulador: usa espacios" else l).seguido u := by
      split <;> rfl
    dsimp only
    rw [htab, indenta_seguido]
    by_cases hdot : c = '.' ∧ (s.headD '\x00').isDigit = false
    · rw [if_pos hdot, if_pos (hpoint.mpr hdot)]
      rfl
    · rw [if_neg hdot, if_neg (hpoint.not.mpr hdot)]
      rfl

theorem Lexer.lexString_keeps : l.lexString.atLineStart = l.atLineStart ∧
    l.lexString.bracketDepth = l.bracketDepth := by
  rw [lexString.eq_def]
  split
  · simp only [lexStringMulti]
    split <;> exact ⟨rfl, rfl⟩
  · exact ⟨rfl, rfl⟩
  · exact ⟨rfl, rfl⟩

theorem Lexer.lexToken_seguido (h : Acaba (c :: s)) (hrest : l.rest = c :: s) (hc : c ≠ '\n')
    (hne : (l.lexToken c s) = l.lexString → l.lexString.rest ≠ []) (u : List Char) :
    (l.seguido u).lexToken c (s ++ u) = (l.lexToken c s).seguido u := by
  rw [lexToken] at hne
  rw [lexToken, lexToken]
  split
  · exact lexNumber_seguido (hrest ▸ h) u
  · next hdigit =>
    rw [if_neg hdigit] at hne
    split
    · next hquote =>
      rw [if_pos hquote] at hne
      exact lexString_seguido (hrest ▸ h) (by rw [hrest, hquote]; rfl) (hne rfl) u
    · split
      · exact lexIdent_seguido (hrest ▸ h.mem) u
      · exact lexSigno_seguido (List.ne_nil_of_mem (h.tail hc).mem) u

theorem Lexer.lineEnd_seguido (s u : List Char) :
    (l.seguido u).lineEnd (s ++ u) = (l.lineEnd s).seguido u := by
  rw [lineEnd, lineEnd]
  dsimp only
  by_cases hzero : l.bracketDepth = 0
  · rw [if_pos hzero, if_pos (by exact hzero)]
    by_cases hlast : l.out ≠ [] ∧ l.last ≠ some .newline ∧ l.last ≠ some .indent ∧
        l.last ≠ some .dedent
    · rw [if_pos (by exact hlast), if_pos (by exact hlast)]
      rfl
    · rw [if_neg (by exact hlast), if_neg (by exact hlast)]
      rfl
  · rw [if_neg hzero, if_neg (by exact hzero)]
    rfl

/-- A turn on a text that ends a line is the same whatever follows, unless it takes all of it and
    does not stand at the start of a line. -/
theorem Lexer.step_seguido (h : Acaba l.rest) (hs : l.step = some l')
    (hend : l'.rest = [] → l'.atLineStart = true ∧ l'.bracketDepth = 0) (u : List Char) :
    (l.seguido u).step = some (l'.seguido u) := by
  rw [step.eq_def] at hs
  split at hs
  · cases hs
  · next c s hcs =>
    rw [hcs] at h
    have hstep : (l.seguido u).rest = c :: (s ++ u) := by rw [seguido, hcs, List.cons_append]
    rw [step.eq_def, hstep]
    cases hs
    dsimp only
    congr 1
    by_cases hstart : l.atLineStart ∧ l.bracketDepth = 0
    · rw [if_pos hstart, if_pos (by exact hstart)]
      exact lineStart_seguido (hcs ▸ h) u
    · rw [if_neg hstart] at hend
      rw [if_neg hstart, if_neg (by exact hstart)]
      split
      · rfl
      · next hblank =>
        rw [if_neg hblank] at hend
        split
        · next hcomment =>
          have hs := dropWhile_seguido (f := (· != '\n'))
            (h.tail (by rw [hcomment]; decide)).mem rfl u
          rw [hs]
          rfl
        · next hcomment =>
          rw [if_neg hcomment] at hend
          split
          · exact lineEnd_seguido s u
          · next hnewline =>
            refine lexToken_seguido h hcs hnewline (fun heq hnil => hstart ?_) u
            rw [if_neg hnewline, heq, lexString_keeps.1, lexString_keeps.2] at hend
            exact hend hnil

end Ending

/-! ## The run of a text -/

section Final

variable {l l' : Lexer} {c : Char} {s : List Char}

theorem Lexer.saltaLinea_suffix (hc : c = '\n' ∨ c = '\r' ∨ c = '#') :
    saltaLinea (c :: s) <:+ s := by
  have hquita : ∀ (d : Char) (q : List Char), (if q.head? = some d then q.tail else q) <:+ q := by
    intro d q
    split
    · exact List.tail_suffix q
    · exact List.suffix_rfl
  obtain rfl | rfl | rfl := hc
  · exact List.suffix_rfl
  · exact hquita '\n' s
  · have hcomment : s.dropWhile (· != '\n') <:+ s := List.dropWhile_suffix _
    exact ((hquita '\n' _).trans (hquita '\r' _)).trans hcomment

theorem Lexer.doble_rest (segundas : List (Char × Tok)) (simple : Tok) :
    (l.doble s segundas simple).rest <:+ s := by
  rw [doble.eq_def]
  split
  · exact List.suffix_rfl
  · split
    · exact List.suffix_cons _ _
    · exact List.suffix_rfl

theorem Lexer.lexSigno_rest : (l.lexSigno c s).rest <:+ s := by
  rw [lexSigno.eq_def]
  split
  · exact List.suffix_rfl
  · split
    · exact List.suffix_rfl
    · split
      · exact doble_rest _ _
      · split
        · split
          · exact List.suffix_cons _ _
          · exact List.suffix_rfl
        · exact List.suffix_rfl

/-- A token takes its first character at least. -/
theorem Lexer.lexToken_rest (h : l.rest = c :: s) : (l.lexToken c s).rest <:+ s := by
  rw [lexToken]
  split
  · next hdigit =>
    have hdrop : l.rest.dropWhile Char.isDigit <:+ s := by
      rw [h, List.dropWhile_cons_of_pos hdigit]
      exact List.dropWhile_suffix _
    rw [lexNumber.eq_def]
    split
    · next d r heq =>
      rw [heq] at hdrop
      split
      · exact (List.dropWhile_suffix _).trans ((List.suffix_cons _ _).trans hdrop)
      · exact hdrop
    · exact hdrop
  · split
    · rw [lexString.eq_def, h]
      split
      · next heq =>
        cases heq
        exact (bruto_spec _).1.trans ⟨['"', '"'], rfl⟩
      · next heq =>
        cases heq
        exact cadena_suffix _
      · next heq => cases heq
    · split
      · next hident =>
        have hchar : isIdentChar c := by rw [isIdentChar, hident, Bool.true_or]
        rw [lexIdent, h, List.dropWhile_cons_of_pos hchar]
        exact List.dropWhile_suffix _
      · exact lexSigno_rest

theorem Lexer.lexToken_atLineStart : (l.lexToken c s).atLineStart = l.atLineStart := by
  rw [lexToken]
  split
  · rw [lexNumber.eq_def]
    split
    · split <;> rfl
    · rfl
  · split
    · exact lexString_keeps.1
    · split
      · rfl
      · rw [lexSigno.eq_def]
        split
        · rfl
        · split
          · rfl
          · split
            · rw [doble.eq_def]
              split
              · rfl
              · split <;> rfl
            · split
              · split <;> rfl
              · rfl

/-- What a turn has to take: the text, and the start of a line. -/
def Lexer.medida (l : Lexer) : ℕ := 2 * l.rest.length + l.atLineStart.toNat

theorem Lexer.lineStart_rest (h : l.atLineStart) (hne : l.rest ≠ []) :
    l.lineStart.rest <:+ l.rest ∧ l.lineStart.medida < l.medida := by
  have hsuf := List.dropWhile_suffix (l := l.rest) esMargen
  rw [medida, medida, h]
  cases hcs : l.rest.dropWhile esMargen with
  | nil =>
    rw [lineStart.eq_def, hcs]
    refine ⟨List.nil_suffix, ?_⟩
    have := List.length_pos_iff.mpr hne
    simp only [List.length_nil, h, Bool.toNat_true]
    omega
  | cons c s =>
    rw [hcs] at hsuf
    have hle := hsuf.length_le
    rw [List.length_cons] at hle
    by_cases hc : c = '\n' ∨ c = '\r' ∨ c = '#'
    · have hsalta := saltaLinea_suffix (s := s) hc
      have hlen := hsalta.length_le
      rw [lineStart_vacia hcs hc]
      refine ⟨hsalta.trans ((List.suffix_cons c s).trans hsuf), ?_⟩
      simp only [h, Bool.toNat_true]
      omega
    · rw [lineStart_llena hcs hc]
      refine ⟨hsuf, ?_⟩
      simp only [List.length_cons, Bool.toNat_true, Bool.toNat_false]
      omega

/-- A turn goes on. -/
theorem Lexer.step_rest (h : l.step = some l') : l'.rest <:+ l.rest ∧ l'.medida < l.medida := by
  rw [step.eq_def] at h
  split at h
  · cases h
  · next c s hcs =>
    have hlt : ∀ m : Lexer, m.rest <:+ s → m.atLineStart.toNat ≤ l.atLineStart.toNat + 1 →
        m.rest <:+ l.rest ∧ m.medida < l.medida := by
      intro m hm hstart
      have hle := hm.length_le
      refine ⟨hcs ▸ hm.trans (List.suffix_cons c s), ?_⟩
      rw [medida, medida, hcs, List.length_cons]
      omega
    cases h
    split
    · next hstart => exact lineStart_rest hstart.1 (by simp [hcs])
    · split
      · exact hlt _ List.suffix_rfl (Nat.le_succ _)
      · split
        · exact hlt _ (List.dropWhile_suffix _) (Nat.le_succ _)
        · split
          · refine hlt _ ?_ ((Bool.toNat_le _).trans (Nat.le_add_left 1 _))
            rw [lineEnd]
            dsimp only
            split
            · split <;> exact List.suffix_rfl
            · exact List.suffix_rfl
          · exact hlt _ (lexToken_rest hcs) (by rw [lexToken_atLineStart]; exact Nat.le_succ _)

theorem Lexer.run_add (m n : ℕ) (l : Lexer) : run (m + n) l = run n (run m l) := by
  induction m generalizing l with
  | zero => rw [Nat.zero_add, run]
  | succ m ih =>
    cases h : l.step with
    | none => rw [run_none h, run_none h, run_none h]
    | some l' => rw [Nat.add_right_comm, run_succ h, run_succ h, ih]

/-- So many turns are enough. -/
theorem Lexer.run_medida (n : ℕ) (h : l.medida ≤ n) : (run n l).step = none := by
  induction n generalizing l with
  | zero =>
    have hnil : l.rest = [] := by
      rw [medida] at h
      exact List.length_eq_zero_iff.mp (by omega)
    rw [run, step.eq_def, hnil]
  | succ n ih =>
    cases hs : l.step with
    | none => rwa [run_none hs]
    | some l' =>
      rw [run_succ hs]
      exact ih (by have := (step_rest hs).2; omega)

/-- The state at the end of the text. -/
def Lexer.final (l : Lexer) : Lexer := run l.medida l

theorem Lexer.run_eq_final (n : ℕ) (h : l.medida ≤ n) : run n l = l.final := by
  obtain ⟨k, rfl⟩ := Nat.exists_eq_add_of_le h
  rw [run_add, final, run_none (run_medida _ le_rfl)]

theorem Lexer.final_run (n : ℕ) (l : Lexer) : (run n l).final = l.final := by
  have h := run_eq_final (l := l) (n + ((run n l).medida + l.medida)) (by omega)
  rw [run_add, run_eq_final _ (Nat.le_add_right _ _)] at h
  exact h

theorem tokenize_eq_final (text : List Char) :
    tokenize text = ({ rest := text } : Lexer).final.finish := by
  rw [tokenize, Lexer.run_eq_final]
  simp [Lexer.medida]

/-! ## Whole lines -/

/-- A text that ends a line is read the same whatever follows, if no string is open at its end. -/
theorem Lexer.run_seguido (n : ℕ) (h : l.rest = [] ∨ Acaba l.rest) (hnil : (run n l).rest = [])
    (hstart : (run n l).atLineStart = true ∧ (run n l).bracketDepth = 0) (u : List Char) :
    ∃ m, run m (l.seguido u) = (run n l).seguido u := by
  induction n generalizing l with
  | zero => exact ⟨0, rfl⟩
  | succ n ih =>
    cases hs : l.step with
    | none =>
      rw [run_none hs]
      exact ⟨0, rfl⟩
    | some l' =>
      rw [run_succ hs] at hnil hstart ⊢
      have hline : Acaba l.rest := by
        refine h.resolve_left fun hr => ?_
        rw [step.eq_def, hr] at hs
        cases hs
      have hend : l'.rest = [] → l'.atLineStart = true ∧ l'.bracketDepth = 0 := by
        intro hr
        rwa [run_none (by rw [step.eq_def, hr])] at hstart
      have hsuf := (step_rest hs).1
      have hline' : l'.rest = [] ∨ Acaba l'.rest :=
        (eq_or_ne l'.rest []).imp_right fun hne => hline.suffix hsuf hne
      obtain ⟨m, hm⟩ := ih hline' hnil hstart
      exact ⟨m + 1, by rw [run_succ (step_seguido hline hs hend u), hm]⟩

theorem Lexer.final_rest (l : Lexer) : l.final.rest = [] := by
  have h := run_medida l.medida (le_refl l.medida)
  rw [step.eq_def] at h
  split at h
  · next hnil => exact hnil
  · cases h

/-- The text is made of whole lines: it ends one, outside strings and brackets. -/
def Lineas (p : List Char) : Prop :=
  (p = [] ∨ Acaba p) ∧ ({ rest := p } : Lexer).final.atLineStart = true ∧
    ({ rest := p } : Lexer).final.bracketDepth = 0

example : Lineas "if a:\n  b(1,\n2)\n".toList :=
  ⟨.inr rfl, by decide +kernel, by decide +kernel⟩

/-- Whole lines are read the same whatever follows them. -/
theorem Lexer.final_append (h : Lineas p) (u : List Char) :
    ({ rest := p ++ u } : Lexer).final = (({ rest := p } : Lexer).final.seguido u).final := by
  obtain ⟨m, hm⟩ : ∃ m, run m (seguido { rest := p } u) = seguido (final { rest := p }) u :=
    run_seguido _ h.1 (final_rest _) h.2 u
  rw [← hm, final_run]
  rfl

/-- A line without content: nothing behind its margin, or a comment. -/
def Vacia (linea : List Char) : Prop :=
  ∃ margen contenido, linea = margen ++ contenido ++ ['\n'] ∧ (∀ c ∈ margen, Lexer.esMargen c) ∧
    (contenido = [] ∨ contenido = ['\r'] ∨ ∃ texto, contenido = '#' :: texto ∧ '\n' ∉ texto)

/-- A line without content leaves nothing. -/
theorem Lexer.step_vacia {linea : List Char} (h : Vacia linea)
    (hstart : l.atLineStart = true ∧ l.bracketDepth = 0) (hrest : l.rest = linea ++ s) :
    l.step = some { l with rest := s } := by
  obtain ⟨margen, contenido, rfl, hmargen, hcontenido⟩ := h
  obtain ⟨c, r, hcr, hc, hsalta⟩ : ∃ c r, contenido ++ ['\n'] ++ s = c :: r ∧
      (c = '\n' ∨ c = '\r' ∨ c = '#') ∧ saltaLinea (c :: r) = s := by
    obtain rfl | rfl | ⟨texto, rfl, htexto⟩ := hcontenido
    · exact ⟨'\n', s, rfl, .inl rfl, rfl⟩
    · exact ⟨'\r', '\n' :: s, rfl, .inr (.inl rfl), rfl⟩
    · refine ⟨'#', texto ++ ['\n'] ++ s, rfl, .inr (.inr rfl), ?_⟩
      have hdrop : ('#' :: (texto ++ ['\n'] ++ s)).dropWhile (· != '\n') = '\n' :: s := by
        rw [List.dropWhile_cons_of_pos rfl, List.append_assoc, List.dropWhile_append_of_pos]
        · rfl
        · intro d hd
          simpa using ne_of_mem_of_not_mem hd htexto
      simp only [saltaLinea, List.head?_cons, if_true, hdrop]
      rfl
  have hdrop : l.rest.dropWhile esMargen = c :: r := by
    rw [hrest, List.append_assoc, List.append_assoc, List.dropWhile_append_of_pos hmargen,
      ← List.append_assoc, hcr, List.dropWhile_cons_of_neg]
    obtain rfl | rfl | rfl := hc <;> decide
  rw [step.eq_def]
  split
  · next hnil => rw [hnil] at hdrop; cases hdrop
  · rw [if_pos hstart, lineStart_vacia hdrop hc, hsalta]

/-- Lines without content leave nothing. -/
theorem Lexer.final_vacias (b : List (List Char)) (hb : ∀ linea ∈ b, Vacia linea)
    (hstart : l.atLineStart = true ∧ l.bracketDepth = 0) (hrest : l.rest = b.flatten ++ s) :
    l.final = ({ l with rest := s } : Lexer).final := by
  induction b generalizing l with
  | nil => rw [← show l.rest = s from hrest]
  | cons linea b ih =>
    rw [List.flatten_cons, List.append_assoc] at hrest
    have hstep := step_vacia (hb linea List.mem_cons_self) hstart hrest
    rw [← final_run 1 l, run_succ hstep, run]
    exact ih (fun l hl => hb l (List.mem_cons_of_mem _ hl)) hstart rfl

/-- Lines without content may stand between whole lines. -/
theorem tokenize_vacias {p : List Char} (hp : Lineas p) (b : List (List Char))
    (hb : ∀ linea ∈ b, Vacia linea) (s : List Char) :
    tokenize (p ++ b.flatten ++ s) = tokenize (p ++ s) := by
  rw [tokenize_eq_final, tokenize_eq_final, List.append_assoc, Lexer.final_append hp,
    Lexer.final_append hp]
  refine congrArg Lexer.finish ?_
  rw [Lexer.seguido, Lexer.seguido, Lexer.final_rest]
  exact Lexer.final_vacias b hb hp.2 rfl

end Final

/-! ## Layout -/

section Layout

/-- Every bracket that is closed was opened, and the other way round. -/
def Equilibrada (ts : List Token) : Prop :=
  (∀ q, q <+: ts → q.countP (·.kind.cierra) ≤ q.countP (·.kind.abre)) ∧
    ts.countP (·.kind.cierra) = ts.countP (·.kind.abre)

/-- What follows a bracket stands in it while the brackets behind it are not closed more often than
    they are opened. -/
theorem foldl_hondura_pos (ts : List Token) (k : ℕ)
    (h : ∀ q, q <+: ts → q.countP (·.kind.cierra) ≤ q.countP (·.kind.abre) + k) :
    0 < ts.foldl hondura (k + 1) := by
  induction ts generalizing k with
  | nil => exact Nat.succ_pos k
  | cons t ts ih =>
    have hcons : ∀ q, q <+: ts →
        (t :: q).countP (·.kind.cierra) ≤ (t :: q).countP (·.kind.abre) + k :=
      fun q hq => h (t :: q) (List.cons_prefix_cons.mpr ⟨rfl, hq⟩)
    simp only [List.countP_cons] at hcons
    rw [List.foldl_cons, hondura]
    split
    · next habre =>
      refine ih (k + 1) fun q hq => ?_
      have := hcons q hq
      rw [if_pos habre] at this
      omega
    · next habre =>
      split
      · next hcierra =>
        have hk := hcons [] List.nil_prefix
        rw [if_pos hcierra, if_neg habre, List.countP_nil, List.countP_nil] at hk
        obtain ⟨k, rfl⟩ := Nat.exists_eq_add_of_lt (show 0 < k by omega)
        refine ih (0 + k) fun q hq => ?_
        have := hcons q hq
        rw [if_pos hcierra, if_neg habre] at this
        omega
      · next hcierra =>
        refine ih k fun q hq => ?_
        have := hcons q hq
        rwa [if_neg hcierra, if_neg habre] at this

/-- The layout of a text. -/
structure Compuesto (text : List Char) : Prop where
  fin : ∃ ts, (tokenize text).out = ts ++ [⟨.endOfFile, ""⟩]
  prefijos : ∀ q, q <+: (tokenize text).out → cuantos .dedent q ≤ cuantos .indent q
  cerrado : cuantos .indent (tokenize text).out = cuantos .dedent (tokenize text).out
  corchetes : ∀ a o m c b, (tokenize text).out = a ++ o :: (m ++ c :: b) → o.kind.abre →
    Equilibrada m → c.kind.cierra → ∀ t ∈ m, t.kind.esDisposicion = false
  saltos : (tokenize text).out.IsChain fun t u => ¬(t.kind = .newline ∧ u.kind = .newline)
  vacias : ∀ p s, text = p ++ s → Lineas p → ∀ b : List (List Char), (∀ linea ∈ b, Vacia linea) →
    (tokenize (p ++ b.flatten ++ s)).out = (tokenize text).out

/-- Between a bracket and the one that closes it there is no layout. -/
theorem Compuesta.corchetes {l : Lexer} (h : Compuesta l) {a m b : List Token} {o c : Token}
    (hout : l.out = a ++ o :: (m ++ c :: b)) (ho : o.kind.abre) (hm : Equilibrada m) :
    ∀ t ∈ m, t.kind.esDisposicion = false := by
  intro t ht
  by_contra hd
  rw [Bool.not_eq_false] at hd
  obtain ⟨m1, m2, rfl⟩ := List.append_of_mem ht
  have hzero := h.fuera (a ++ o :: m1) t (m2 ++ c :: b) (by rw [hout]; simp) hd
  have hpos := foldl_hondura_pos m1 (profundidad a) fun q hq =>
    (hm.1 q (hq.trans (List.prefix_append _ _))).trans (Nat.le_add_right _ _)
  rw [profundidad, List.foldl_append, List.foldl_cons, hondura, if_pos ho] at hzero
  rw [profundidad] at hpos
  omega

/-- The layout of every text that is read without diagnostics. -/
theorem layout (text : List Char) (h : (tokenize text).diags = []) : Compuesto text := by
  rw [tokenize_eq_final] at h
  have hpre := Lexer.finish_diags (l := ({ rest := text } : Lexer).final)
  rw [h] at hpre
  have hdiags : ({ rest := text } : Lexer).final.diags = [] := List.prefix_nil.mp hpre
  obtain ⟨hcomp, hlen⟩ := Lexer.finish_compuesta
    (Lexer.run_compuesta (compuesta_init text) _ hdiags) h
  rw [← Lexer.final, ← tokenize_eq_final] at hcomp hlen
  have haltura := hcomp.altura
  exact {
    fin := tokenize_eq_final text ▸ Lexer.finish_out
    prefijos := hcomp.prefijos
    cerrado := by omega
    corchetes := fun a o m c b hout ho hm _ => hcomp.corchetes hout ho hm
    saltos := hcomp.saltos
    vacias := fun p s htext hp b hb => by rw [htext, tokenize_vacias hp b hb] }

theorem layout_bloque : Compuesto "if a:\n  b(1)\n\n  # c\nd\n".toList :=
  layout _ (by decide +kernel)

end Layout

end Osodio.Syntax
