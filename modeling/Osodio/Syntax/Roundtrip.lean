import Osodio.Syntax.Complete
import Osodio.Syntax.Lines
import Osodio.Syntax.Printing

/-!
# Parsing inverts printing

The tokens of an expression, as text with a blank behind each of them, are read by the lexer one by
one; the brackets among them are closed, so that the text is one line.  What the lexer gives is what
the grammar writes, and the parser reads that.

## Main definitions

- `escribe`, `texto` — tokens as text
- `Legible`, `Renglon` — the tokens, and the lines, that are read back
- `LeeTexto` — the text of the tokens is read for an expression

## Main results

- `tokenize_texto` — the tokens of a line come back
- `parse_print` — so does every expression
- `await_print` — which is not so if a whole expression may stand behind `await`
-/

namespace Osodio.Syntax

/-! ## Tokens as text -/

/-- The characters of a string between quotes. -/
def escapa (s : List Char) : List Char :=
  s.flatMap fun c =>
    if c = '"' then ['\\', '"'] else if c = '\\' then ['\\', '\\']
    else if c = '\n' then ['\\', 'n'] else [c]

def escribe (t : Token) : List Char :=
  if t.kind = .string then '"' :: (escapa t.text.toList ++ ['"'])
  else if t.text = "" then (tokName t.kind).toList else t.text.toList

/-- Each token has a blank behind. -/
def texto (ts : List Token) : List Char := ts.flatMap fun t => escribe t ++ [' ']

/-- The kinds that are always written the same way, and are not words. -/
def esSigno : Tok → Bool
  | .lParen | .rParen | .lBracket | .rBracket | .lBrace | .rBrace
  | .comma | .colon | .dot | .question | .arrow | .assign
  | .eq | .notEq | .lt | .ltEq | .gt | .gtEq
  | .plus | .minus | .star | .slash | .percent
  | .plusPlus | .minusMinus
  | .plusEq | .minusEq | .starEq | .slashEq | .percentEq => true
  | _ => false

/-- The lexer reads the token back. -/
inductive Legible : Token → Prop
  | palabra (w : Palabra) : Legible w.token
  | entero (a : Cifras) : Legible ⟨.int, String.ofList a.cifras⟩
  | decimal (a b : Cifras) : Legible ⟨.float, String.ofList (a.cifras ++ '.' :: b.cifras)⟩
  | cadena (s : String) : Legible ⟨.string, s⟩
  | signo {k : Tok} (h : esSigno k = true) : Legible ⟨k, ""⟩

section Characters

variable {c : Char} {s u : List Char}

/-- A digit does not begin a word. -/
theorem isIdentStart_digit (h : c.isDigit = true) : isIdentStart c = false := by
  have hle : c.toNat ≤ 57 := (Char.isDigit_iff_toNat.1 h).2
  have halpha : c.isAlpha = false := by
    have hunfold : c.isAlpha = (decide (c.val ≥ 'A'.val ∧ c.val ≤ 'Z'.val) ||
      decide (c.val ≥ 'a'.val) && decide (c.val ≤ 'z'.val)) := rfl
    rw [hunfold]
    simp only [UInt32.le_iff_toNat_le, ge_iff_le, Bool.or_eq_false_iff, Bool.and_eq_false_iff,
      decide_eq_false_iff_not, Char.toNat_val]
    have hupper : 'A'.toNat = 65 := rfl
    have hlower : 'a'.toNat = 97 := rfl
    omega
  have hne : c ≠ '_' := by
    rintro rfl
    exact absurd h (by decide)
  have hascii : ¬ 0x80 ≤ c.toNat := by omega
  simp [isIdentStart, halpha, hne, hascii]

/-- The characters that begin a word do not begin anything else. -/
theorem isIdentStart_ne (h : isIdentStart c = true) : c.isDigit = false ∧ c ≠ '"' ∧ c ≠ ' ' ∧
    c ≠ '\t' ∧ c ≠ '\r' ∧ c ≠ '\n' ∧ c ≠ '#' ∧ c ≠ '.' := by
  refine ⟨?_, ?_, ?_, ?_, ?_, ?_, ?_, ?_⟩
  · rw [Bool.eq_false_iff]
    intro hd
    rw [isIdentStart_digit hd] at h
    cases h
  all_goals
    rintro rfl
    exact absurd h (by decide)

theorem isDigit_ne (h : c.isDigit = true) : c ≠ '"' ∧ c ≠ ' ' ∧ c ≠ '\t' ∧ c ≠ '\r' ∧ c ≠ '\n' ∧
    c ≠ '#' ∧ c ≠ '.' := by
  refine ⟨?_, ?_, ?_, ?_, ?_, ?_, ?_⟩
  all_goals
    rintro rfl
    exact absurd h (by decide)

theorem takeWhile_cortado {p : Char → Bool} (hs : ∀ x ∈ s, p x = true) (hc : p c = false) :
    (s ++ c :: u).takeWhile p = s := by
  rw [List.takeWhile_append_of_pos hs, List.takeWhile_cons_of_neg (by simp [hc]), List.append_nil]

theorem dropWhile_cortado {p : Char → Bool} (hs : ∀ x ∈ s, p x = true) (hc : p c = false) :
    (s ++ c :: u).dropWhile p = c :: u := by
  rw [List.dropWhile_append_of_pos hs, List.dropWhile_cons_of_neg (by simp [hc])]

/-- A string is read up to its closing quote. -/
theorem cadena_escapa (s u : List Char) : cadena (escapa s ++ '"' :: u) = (s, u, []) := by
  have hescape : ∀ {e d : Char} {s : List Char}, escapeDe e = some d →
      cadena ('\\' :: e :: s) = (d :: (cadena s).1, (cadena s).2) := by
    intro e d s he
    rw [cadena.eq_def]
    simp [he]
  induction s with
  | nil => rfl
  | cons c s ih =>
    rw [escapa, List.flatMap_cons, List.append_assoc, ← escapa]
    split_ifs with hq hb hn
    · rw [List.cons_append, List.singleton_append, hescape (d := '"') rfl, ih, hq]
    · rw [List.cons_append, List.singleton_append, hescape (d := '\\') rfl, ih, hb]
    · rw [List.cons_append, List.singleton_append, hescape (d := '\n') rfl, ih, hn]
    · rw [List.singleton_append, cadena, ih]
      · exact hq
      · exact fun heq _ => hb heq
      · exact fun _ _ heq _ => hb heq
      · exact hn

end Characters

/-! ## One token -/

section Turn

variable {l : Lexer} {t : Token} {c : Char} {s u : List Char}

/-- The lexer behind a token. -/
def Lexer.tras (l : Lexer) (t : Token) (u : List Char) : Lexer :=
  { l with rest := u, out := l.out ++ [t], bracketDepth := hondura l.bracketDepth t }

/-- A turn at a character that is not a blank. -/
theorem Lexer.step_token (hl : l.atLineStart = false) (hrest : l.rest = c :: s)
    (hc : c ≠ ' ' ∧ c ≠ '\t' ∧ c ≠ '\r' ∧ c ≠ '\n' ∧ c ≠ '#') :
    l.step = some (l.lexToken c s) := by
  rw [step.eq_def, hrest]
  simp [hl, hc]

theorem Palabra.kind_plano (w : Palabra) : w.kind.plano := keywordOrIdent_plano _

theorem Palabra.kind_ne (w : Palabra) : w.kind ≠ .string := by
  have hall : ∀ p ∈ keywords, p.2 ≠ .string := by decide
  rw [Palabra.kind, keywordOrIdent]
  cases h : keywords.lookup w.text with
  | none => exact Tok.noConfusion
  | some k =>
    obtain ⟨a, b, hab, -⟩ := List.lookup_eq_some_iff.mp h
    exact hall (w.text, k) (hab ▸ List.mem_append_right a List.mem_cons_self)

theorem Palabra.escribe (w : Palabra) : escribe w.token = w.letras := by
  rw [Syntax.escribe, if_neg (by exact w.kind_ne), if_neg (by exact w.text_ne)]
  exact w.toList_text

theorem Cifras.cons (a : Cifras) : ∃ d s, a.cifras = d :: s ∧ d.isDigit = true := by
  obtain ⟨d, s, hd⟩ := List.exists_cons_of_ne_nil a.algunas
  exact ⟨d, s, hd, a.todas d (hd ▸ List.mem_cons_self)⟩

theorem escribe_number {k : Tok} {a : List Char} (hk : k ≠ .string) (ha : a ≠ []) :
    escribe ⟨k, String.ofList a⟩ = a := by
  rw [escribe, if_neg hk, if_neg]
  · exact String.toList_ofList
  · intro hnil
    rw [← String.toList_ofList (l := a)] at ha
    exact ha (congrArg String.toList hnil)

/-- **A token is read back**, in front of a blank. -/
theorem Legible.step (h : Legible t) (hl : l.atLineStart = false)
    (hrest : l.rest = escribe t ++ ' ' :: u) : l.step = some (l.tras t (' ' :: u)) := by
  cases h with
  | palabra w =>
    obtain ⟨c, s, hw, hstart, hword⟩ := w.letras_eq
    obtain ⟨hdigit, hquote, hne⟩ := isIdentStart_ne hstart
    rw [w.escribe] at hrest
    have hcons := hrest
    rw [hw, List.cons_append] at hcons
    rw [Lexer.step_token hl hcons (by tauto), Lexer.lexToken, if_neg (by simp [hdigit]),
      if_neg hquote, if_pos hstart, Lexer.lexIdent, hrest, takeWhile_cortado hword (by decide),
      dropWhile_cortado hword (by decide), Lexer.tras, hondura_plano w.kind_plano]
    rfl
  | entero a =>
    obtain ⟨d, s, hd, hdigit⟩ := a.cons
    rw [escribe_number (by decide) a.algunas] at hrest
    have hcons := hrest
    rw [hd, List.cons_append] at hcons
    have hdrop : l.rest.dropWhile Char.isDigit = ' ' :: u := by
      rw [hrest, dropWhile_cortado a.todas (by decide)]
    rw [Lexer.step_token hl hcons (by have := isDigit_ne hdigit; tauto), Lexer.lexToken,
      if_pos hdigit, Lexer.lexNumber_int hdrop (fun _ _ h => by cases h), hrest,
      takeWhile_cortado a.todas (by decide)]
    rfl
  | decimal a b =>
    obtain ⟨d, s, hd, hdigit⟩ := a.cons
    obtain ⟨d', s', hd', hdigit'⟩ := b.cons
    rw [escribe_number (by decide) (by simp), List.append_assoc, List.cons_append] at hrest
    have hcons := hrest
    rw [hd, List.cons_append] at hcons
    have hdrop : l.rest.dropWhile Char.isDigit = '.' :: d' :: (s' ++ ' ' :: u) := by
      rw [hrest, dropWhile_cortado a.todas (by decide), hd', List.cons_append]
    have hfrac : d' :: (s' ++ ' ' :: u) = b.cifras ++ ' ' :: u := by rw [hd', List.cons_append]
    rw [Lexer.step_token hl hcons (by have := isDigit_ne hdigit; tauto), Lexer.lexToken,
      if_pos hdigit, Lexer.lexNumber_float hdrop hdigit', hfrac,
      dropWhile_cortado b.todas (by decide), takeWhile_cortado b.todas (by decide), hrest,
      takeWhile_cortado a.todas (by decide)]
    rfl
  | cadena s =>
    have hcons : l.rest = '"' :: (escapa s.toList ++ '"' :: (' ' :: u)) := by
      rw [hrest, escribe, if_pos rfl, List.cons_append, List.append_assoc, List.singleton_append]
    have hone : ∀ r, escapa s.toList ++ '"' :: (' ' :: u) ≠ '"' :: '"' :: r := by
      intro r hr
      cases hs : s.toList with
      | nil =>
        rw [hs] at hr
        exact absurd (List.cons.inj (List.cons.inj hr).2).1 (by decide)
      | cons c s' =>
        rw [hs, escapa, List.flatMap_cons] at hr
        split_ifs at hr with hq hb hn
        · exact absurd (List.cons.inj hr).1 (by decide)
        · exact absurd (List.cons.inj hr).1 (by decide)
        · exact absurd (List.cons.inj hr).1 (by decide)
        · exact hq (List.cons.inj hr).1
    rw [Lexer.step_token hl hcons (by decide), Lexer.lexToken, if_neg (by decide), if_pos rfl,
      Lexer.lexString_una hcons hone, cadena_escapa]
    simp [Lexer.push, Lexer.tras, hondura, Tok.abre, Tok.cierra]
  | @signo k hk =>
    obtain ⟨rest, indents, depth, start, out, diags⟩ := l
    dsimp only at hl hrest
    subst hl
    subst hrest
    cases k
    all_goals first | exact absurd hk (by decide) | rfl

theorem Legible.cabeza (h : Legible t) (hdot : t.kind ≠ .dot) : ∃ c s, escribe t = c :: s ∧
    Lexer.esMargen c = false ∧ c ≠ '\n' ∧ c ≠ '\r' ∧ c ≠ '#' ∧ c ≠ '.' := by
  have hmargin : ∀ {c : Char}, c ≠ ' ' → c ≠ '\t' → Lexer.esMargen c = false := by
    intro c h h'
    simp [Lexer.esMargen, h, h']
  have hdigit : ∀ {d : Char}, d.isDigit = true →
      Lexer.esMargen d = false ∧ d ≠ '\n' ∧ d ≠ '\r' ∧ d ≠ '#' ∧ d ≠ '.' := by
    intro d hd
    obtain ⟨-, h1, h2, h3, h4, h5, h6⟩ := isDigit_ne hd
    exact ⟨hmargin h1 h2, h4, h3, h5, h6⟩
  cases h with
  | palabra w =>
    obtain ⟨c, s, hw, hstart, -⟩ := w.letras_eq
    obtain ⟨-, -, h1, h2, h3, h4, h5, h6⟩ := isIdentStart_ne hstart
    exact ⟨c, s, by rw [w.escribe, hw], hmargin h1 h2, h4, h3, h5, h6⟩
  | entero a =>
    obtain ⟨d, s, hd, hisd⟩ := a.cons
    exact ⟨d, s, by rw [escribe_number (by decide) a.algunas, hd], hdigit hisd⟩
  | decimal a b =>
    obtain ⟨d, s, hd, hisd⟩ := a.cons
    exact ⟨d, _, by rw [escribe_number (by decide) (by simp), hd, List.cons_append], hdigit hisd⟩
  | cadena s => exact ⟨'"', _, if_pos rfl, by decide⟩
  | @signo k hk =>
    cases k
    all_goals first
      | exact absurd hk (by decide)
      | exact absurd rfl hdot
      | exact ⟨_, _, rfl, by decide⟩

theorem Legible.no_newline (h : Legible t) : t.kind ≠ .newline := by
  cases h with
  | palabra w =>
    intro hk
    have := w.kind_plano
    rw [show w.kind = .newline from hk] at this
    cases this
  | @signo k hk =>
    rintro rfl
    cases hk
  | _ => exact Tok.noConfusion

end Turn

/-! ## A line of tokens -/

section Line

variable {l : Lexer} {t o g : Token} {ts us : List Token} {u : List Char}

theorem Lexer.step_blank (hl : l.atLineStart = false) (hrest : l.rest = ' ' :: u) :
    l.step = some { l with rest := u } := by
  rw [step.eq_def, hrest]
  simp [hl]

theorem Lexer.run_texto (h : ∀ t ∈ ts, Legible t) (hl : l.atLineStart = false)
    (hrest : l.rest = texto ts ++ u) : ∃ n, run n l = { l with
      rest := u, out := l.out ++ ts, bracketDepth := ts.foldl hondura l.bracketDepth } := by
  induction ts generalizing l with
  | nil =>
    refine ⟨0, ?_⟩
    rw [texto, List.flatMap_nil, List.nil_append] at hrest
    rw [run, List.append_nil, ← hrest]
    rfl
  | cons t ts ih =>
    rw [texto, List.flatMap_cons, List.append_assoc, List.append_assoc, List.singleton_append]
      at hrest
    obtain ⟨ht, hts⟩ := List.forall_mem_cons.1 h
    have hstep := ht.step hl hrest
    have hblank : (l.tras t (' ' :: (texto ts ++ u))).step = some (l.tras t (texto ts ++ u)) :=
      step_blank hl rfl
    obtain ⟨n, hn⟩ := ih hts (l := l.tras t (texto ts ++ u)) hl rfl
    refine ⟨n + 1 + 1, ?_⟩
    rw [run_succ hstep]
    exact (run_succ hblank n).trans (hn.trans (by simp [tras]))

/-- The tokens are read back, and their brackets are closed. -/
structure Renglon (ts : List Token) : Prop where
  legibles : ∀ t ∈ ts, Legible t
  cerrado : ∀ d, ts.foldl hondura d = d

theorem Renglon.nil : Renglon [] := ⟨by simp, fun _ => rfl⟩

theorem Renglon.uno (h : Legible t) (ht : t.kind.plano) : Renglon [t] :=
  ⟨List.forall_mem_singleton.2 h, hondura_plano ht⟩

theorem Renglon.append (h : Renglon ts) (h' : Renglon us) : Renglon (ts ++ us) :=
  ⟨List.forall_mem_append.2 ⟨h.legibles, h'.legibles⟩, fun d => by
    rw [List.foldl_append, h.cerrado, h'.cerrado]⟩

theorem Renglon.cons (h : Legible t) (ht : t.kind.plano) (h' : Renglon ts) : Renglon (t :: ts) :=
  .append (.uno h ht) h'

/-- Between an opening bracket and a closing one. -/
theorem Renglon.entre (ho : Legible o) (hopen : o.kind.abre) (h : Renglon ts) (hg : Legible g)
    (hclose : g.kind.abre = false ∧ g.kind.cierra) : Renglon (o :: (ts ++ [g])) where
  legibles := by
    refine List.forall_mem_cons.2 ⟨ho, List.forall_mem_append.2 ⟨h.legibles, ?_⟩⟩
    exact List.forall_mem_singleton.2 hg
  cerrado d := by
    rw [List.foldl_cons, List.foldl_append, h.cerrado, hondura, if_pos hopen, List.foldl_cons,
      List.foldl_nil, hondura, hclose.1, if_neg Bool.false_ne_true, if_pos hclose.2,
      Nat.add_sub_cancel]

/-- **The tokens of a line come back** from its text. -/
theorem tokenize_texto (h : Renglon ts) (hhead : ∃ t r, ts = t :: r ∧ t.kind ≠ .dot) :
    (tokenize (texto ts)).diags = [] ∧
      (tokenize (texto ts)).out = ts ++ [⟨.newline, ""⟩, ⟨.endOfFile, ""⟩] := by
  obtain ⟨t, r, hts, hdot⟩ := hhead
  obtain ⟨c, s, hc, hmargin, hn, hr, hcomment, hpoint⟩ :=
    (h.legibles t (hts ▸ List.mem_cons_self)).cabeza hdot
  obtain ⟨s', hs'⟩ : ∃ s', texto ts = c :: s' := by
    rw [hts, texto, List.flatMap_cons, hc]
    exact ⟨_, rfl⟩
  -- the line begins at the margin
  have hstart : ({ rest := texto ts } : Lexer).step =
      some { rest := texto ts, atLineStart := false } := by
    have hdrop : (c :: s').dropWhile Lexer.esMargen = c :: s' :=
      List.dropWhile_cons_of_neg (by simp [hmargin])
    have htake : (c :: s').takeWhile Lexer.esMargen = [] :=
      List.takeWhile_cons_of_neg (by simp [hmargin])
    rw [hs', Lexer.step.eq_def]
    dsimp only
    rw [if_pos ⟨rfl, rfl⟩, Lexer.lineStart_llena hdrop (by tauto)]
    dsimp only
    rw [htake, if_neg List.not_mem_nil, if_neg fun h => hpoint h.1]
    rfl
  obtain ⟨n, hrun⟩ := Lexer.run_texto (l := { rest := texto ts, atLineStart := false }) (u := [])
    h.legibles rfl (List.append_nil _).symm
  have hfinal : ({ rest := texto ts } : Lexer).final =
      { rest := [], atLineStart := false, out := ts } := by
    rw [← Lexer.final_run (n + 1), Lexer.run_succ hstart, hrun]
    rw [h.cerrado]
    rfl
  have hline : ({ rest := [], atLineStart := false, out := ts } : Lexer).out ≠ [] ∧
      ({ rest := [], atLineStart := false, out := ts } : Lexer).last ≠ some .newline := by
    refine ⟨hts ▸ List.cons_ne_nil t r, fun hnl => ?_⟩
    obtain ⟨t, ht, hk⟩ := Option.map_eq_some_iff.1 hnl
    exact (h.legibles t (List.mem_of_getLast? ht)).no_newline hk
  rw [tokenize_eq_final, hfinal, Lexer.finish, if_pos hline]
  exact ⟨rfl, by simp [Lexer.push]⟩

end Line

/-! ## Expressions -/

section Expressions

variable {k n m : ℕ} {ts : List Token}

theorem legible_signo {k : Tok} (h : esSigno k = true) : Legible (signo k) := by
  have hsigno : signo k = ⟨k, ""⟩ := by
    cases k
    all_goals first | exact absurd h (by decide) | rfl
  rw [hsigno]
  exact .signo h

/-- The reserved words of expressions. -/
theorem legible_reservada {k : Tok} (h : k = .kwTrue ∨ k = .kwFalse ∨ k = .kwNull ∨ k = .kwThis ∨
    k = .kwAwait ∨ k = .kwNot ∨ k = .kwAnd ∨ k = .kwOr) : Legible (signo k) := by
  have hword : ∃ hw : esPalabra (tokName k).toList = true,
      signo k = (⟨(tokName k).toList, hw⟩ : Palabra).token := by
    rcases h with rfl | rfl | rfl | rfl | rfl | rfl | rfl | rfl
    all_goals exact ⟨by decide, by decide⟩
  obtain ⟨hw, heq⟩ := hword
  rw [heq]
  exact .palabra _

theorem legible_operador {op : Tok} (h : nivelDe op = some n) :
    Legible (signo op) ∧ op.plano := by
  cases op
  all_goals first
    | cases h
      exact ⟨legible_signo rfl, rfl⟩
    | cases h
      exact ⟨legible_reservada (by decide), rfl⟩
    | cases h

theorem renglon_agrupa (h : Renglon ts) : Renglon (agrupa n m ts) := by
  unfold agrupa
  split
  · exact .entre (legible_signo rfl) rfl h (legible_signo rfl) ⟨rfl, rfl⟩
  · exact h

theorem renglon_separa {tss : List (List Token)} (h : ∀ ts ∈ tss, Renglon ts) :
    Renglon (separa tss) := by
  induction tss with
  | nil => exact .nil
  | cons ts tss ih =>
    obtain ⟨hts, htss⟩ := List.forall_mem_cons.1 h
    cases tss with
    | nil => exact hts
    | cons us tss => exact hts.append (.cons (legible_signo rfl) rfl (ih htss))

theorem renglon_palabra (w : Palabra) : Renglon [w.token] := .uno (.palabra w) w.kind_plano

theorem renglon_paso (mas : Bool) : Renglon [signo (paso mas)] := by
  cases mas
  · exact .uno (legible_signo rfl) rfl
  · exact .uno (legible_signo rfl) rfl

mutual

theorem Destino.renglon : ∀ d : Destino, Renglon (d.tokens k)
  | .nombre n => renglon_palabra n.toPalabra
  | .campo e w => (renglon_agrupa e.renglon).append
      (.cons (legible_signo rfl) rfl (renglon_palabra w))
  | .indice e i => (renglon_agrupa e.renglon).append
      (.entre (legible_signo rfl) rfl i.renglon (legible_signo rfl) ⟨rfl, rfl⟩)

/-- The tokens of an expression are read back. -/
theorem Termino.renglon : ∀ e : Termino, Renglon (e.tokens k)
  | .cadena s => .uno (.cadena s) rfl
  | .entero n _ => .uno (.entero ⟨Nat.toDigits 10 n, Nat.toDigits_ne_nil,
      fun _ hd => Nat.isDigit_of_mem_toDigits (by decide) le_rfl hd⟩) rfl
  | .decimal a b => .uno (.decimal a b) rfl
  | .booleano b => by cases b <;> exact .uno (legible_reservada (by decide)) rfl
  | .nulo => .uno (legible_reservada (by decide)) rfl
  | .this => .uno (legible_reservada (by decide)) rfl
  | .destino d => d.renglon
  | .llamada e args nombrados => (renglon_agrupa e.renglon).append
      (.entre (legible_signo rfl) rfl
        (renglon_separa (List.forall_mem_append.2 ⟨args.renglon, nombrados.renglon⟩))
        (legible_signo rfl) ⟨rfl, rfl⟩)
  | .lista es => .entre (legible_signo rfl) rfl (renglon_separa es.renglon) (legible_signo rfl)
      ⟨rfl, rfl⟩
  | .dict es => .entre (legible_signo rfl) rfl (renglon_separa es.renglon) (legible_signo rfl)
      ⟨rfl, rfl⟩
  | .despues mas d => d.renglon.append (renglon_paso mas)
  | .antes mas d => (renglon_paso mas).append d.renglon
  | .menos e => .cons (legible_signo rfl) rfl (renglon_agrupa e.renglon)
  | .espera e => .cons (legible_reservada (by decide)) rfl (renglon_agrupa e.renglon)
  | .binario _ _ h l r => (renglon_agrupa l.renglon).append
      (.cons (legible_operador h).1 (legible_operador h).2 (renglon_agrupa r.renglon))
  | .no e => .cons (legible_reservada (by decide)) rfl (renglon_agrupa e.renglon)
  | .ternario cond l r => (renglon_agrupa cond.renglon).append
      (.cons (legible_signo rfl) rfl
        (l.renglon.append (.cons (legible_signo rfl) rfl r.renglon)))

theorem Terminos.renglon : ∀ es : Terminos, ∀ ts ∈ es.tokens k, Renglon ts
  | .nil => List.forall_mem_nil _
  | .cons e es => List.forall_mem_cons.2 ⟨e.renglon, es.renglon⟩

theorem Pares.renglon : ∀ es : Pares, ∀ ts ∈ es.tokens k, Renglon ts
  | .nil => List.forall_mem_nil _
  | .cons a b es => List.forall_mem_cons.2
      ⟨a.renglon.append (.cons (legible_signo rfl) rfl b.renglon), es.renglon⟩

theorem Nombrados.renglon : ∀ es : Nombrados, ∀ ts ∈ es.tokens k, Renglon ts
  | .nil => List.forall_mem_nil _
  | .cons i e es => List.forall_mem_cons.2
      ⟨.cons (.palabra i.toPalabra) i.kind_plano (.cons (legible_signo rfl) rfl e.renglon),
        es.renglon⟩

end

/-- What stands behind the only line of a text. -/
def finDeTexto : List Token := [⟨.newline, ""⟩, ⟨.endOfFile, ""⟩]

/-- The tokens are read for the expression, and no more than they. -/
def LeeTexto (c : Entorno) (ts : List Token) (e : Expr) : Prop :=
  (tokenize (texto ts)).diags = [] ∧ (tokenize (texto ts)).out = ts ++ finDeTexto ∧
    ∀ n, ts.length ≤ n → parseExpr c (recur c n) { rest := (tokenize (texto ts)).out } =
      .ok (e, ⟨ts.reverse, finDeTexto, []⟩)

/-- What the grammar writes is read from its text. -/
theorem Deriva.leeTexto {c : Entorno} {e : Expr} (h : Deriva c 0 ts e) (hr : Renglon ts) :
    LeeTexto c ts e := by
  obtain ⟨t, r, hts, ht⟩ := h.cabeza
  obtain ⟨hdiags, hout⟩ := tokenize_texto hr ⟨t, r, hts, fun hk => by rw [hk] at ht; cases ht⟩
  refine ⟨hdiags, hout, fun n hn => ?_⟩
  have hlee := h.leido.lee n hn finDeTexto (.cons rfl) [] []
  rw [List.append_nil] at hlee
  rw [hout]
  exact hlee

/-- **Parsing inverts printing**: an expression comes back from its text, without diagnostics and
    with no token left over. -/
theorem parse_print (c : Entorno) (e : Termino) : LeeTexto c (e.tokens 8) (e.expr c) :=
  (e.deriva.baja e.nivel_le (Nat.zero_le _)).leeTexto e.renglon

def nombreA : Nombre := ⟨⟨['a'], by decide⟩, by decide⟩

/-- `await` takes a sum apart that is written behind it without parentheses. -/
theorem await_print : ¬ ∀ (c : Entorno) (e : Termino), LeeTexto c (e.tokens 0) (e.expr c) := by
  intro h
  let a : Termino := .destino (.nombre nombreA)
  let c : Entorno := ⟨fun _ => ⟨0⟩, fun _ => none⟩
  have hsum := (h c (.espera (.binario .plus 6 rfl a a))).2.2 4 le_rfl
  -- the same tokens are also those of another expression
  let e : Termino := .binario .plus 6 rfl (.espera a) a
  have he : LeeTexto c (e.tokens 8) (e.expr c) :=
    (e.deriva.baja e.nivel_le (Nat.zero_le _)).leeTexto e.renglon
  have hexpr := congrArg Prod.fst (Except.ok.inj (hsum.symm.trans (he.2.2 4 le_rfl)))
  exact absurd (congrArg Expr.kind hexpr) (by decide)

example : texto (Termino.tokens 8 (.menos (.menos (.destino (.nombre nombreA))))) =
    "- - a ".toList := by decide

end Expressions

end Osodio.Syntax
