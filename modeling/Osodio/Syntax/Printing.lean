import Osodio.Syntax.Grammar
import Osodio.Syntax.Lexer

/-!
# Printing

Expressions as trees in which every node has the children of its kind, and what they are written
with.  An operand stands in parentheses if it binds looser than its place asks for.  How tight the
operand of `await` has to be is a parameter: 0 is a whole expression, 8 what a sign stands before.

## Main definitions

- `Termino`, `Destino` — expressions, and those that can be assigned to
- `Termino.expr` — the tree that the parser builds
- `Termino.tokens` — what the expression is written with

## Main results

- `Termino.deriva` — the grammar writes the expression so, if the operand of `await` is a sign's
-/

namespace Osodio.Syntax

/-! ## Words and numbers -/

def esPalabra : List Char → Bool
  | [] => false
  | c :: s => isIdentStart c && s.all isIdentChar

/-- A word: a name, or a reserved word. -/
structure Palabra where
  letras : List Char
  propia : esPalabra letras = true

def Palabra.text (w : Palabra) : String := String.ofList w.letras

def Palabra.kind (w : Palabra) : Tok := keywordOrIdent w.text

def Palabra.token (w : Palabra) : Token := ⟨w.kind, w.text⟩

/-- A word has a first character, and goes on in the same way. -/
theorem Palabra.letras_eq (w : Palabra) : ∃ c s, w.letras = c :: s ∧ isIdentStart c = true ∧
    ∀ x ∈ w.letras, isIdentChar x = true := by
  obtain ⟨letras, h⟩ := w
  cases letras with
  | nil => cases h
  | cons c s =>
    rw [esPalabra, Bool.and_eq_true, List.all_eq_true] at h
    refine ⟨c, s, rfl, h.1, List.forall_mem_cons.2 ⟨?_, h.2⟩⟩
    rw [isIdentChar, h.1, Bool.true_or]

theorem Palabra.toList_text (w : Palabra) : w.text.toList = w.letras := String.toList_ofList

theorem Palabra.text_ne (w : Palabra) : w.text ≠ "" := by
  intro h
  obtain ⟨c, s, hw, -⟩ := w.letras_eq
  rw [← w.toList_text, h] at hw
  cases hw

/-- A word that stands for a value: a name, or one of the objects of a handler. -/
structure Nombre extends Palabra where
  libre : toPalabra.kind = .ident ∨ toPalabra.kind = .kwSse ∨ toPalabra.kind = .kwWs ∨
    toPalabra.kind = .kwError

/-- The name of an argument. -/
structure Etiqueta extends Palabra where
  libre : toPalabra.kind = .ident

structure Cifras where
  cifras : List Char
  algunas : cifras ≠ []
  todas : ∀ d ∈ cifras, d.isDigit = true

/-- A word or a sign that is always written the same way. -/
def signo (k : Tok) : Token := ⟨k, if esPalabra (tokName k).toList then tokName k else ""⟩

/-! ## Expressions -/

mutual

/-- What can be assigned to. -/
inductive Destino
  | nombre (n : Nombre)
  | campo (e : Termino) (w : Palabra)
  | indice (e i : Termino)

inductive Termino
  | cadena (s : String)
  | entero (n : ℕ) (h : n < 2 ^ 63)
  | decimal (a b : Cifras)
  | booleano (b : Bool)
  | nulo
  | this
  | destino (d : Destino)
  | llamada (e : Termino) (args : Terminos) (nombrados : Nombrados)
  | lista (es : Terminos)
  | dict (es : Pares)
  | despues (mas : Bool) (d : Destino)
  | antes (mas : Bool) (d : Destino)
  | menos (e : Termino)
  | espera (e : Termino)
  | binario (op : Tok) (n : ℕ) (h : nivelDe op = some n) (l r : Termino)
  | no (e : Termino)
  | ternario (cond l r : Termino)

inductive Terminos
  | nil
  | cons (e : Termino) (es : Terminos)

inductive Pares
  | nil
  | cons (k v : Termino) (es : Pares)

inductive Nombrados
  | nil
  | cons (i : Etiqueta) (e : Termino) (es : Nombrados)

end

/-- The sign of a step. -/
def paso (mas : Bool) : Tok := if mas then .plusPlus else .minusMinus

section Trees

variable (c : Entorno)

mutual

def Destino.expr : Destino → Expr
  | .nombre n => { kind := .ident, text := n.text }
  | .campo e w => { kind := .member, text := w.text, object := e.expr }
  | .indice e i => { kind := .index, object := e.expr, lhs := i.expr }

/-- The tree of the parser. -/
def Termino.expr : Termino → Expr
  | .cadena s => { kind := .stringLit, text := s }
  | .entero n _ => { kind := .intLit, intValue := n }
  | .decimal a b =>
    { kind := .floatLit, floatValue := c.strtod (String.ofList (a.cifras ++ '.' :: b.cifras)) }
  | .booleano b => { kind := .boolLit, boolValue := b }
  | .nulo => { kind := .nullLit }
  | .this => { kind := .this }
  | .destino d => d.expr
  | .llamada e args nombrados =>
    { kind := .call, object := e.expr, args := args.exprs.map ("", ·) ++ nombrados.exprs }
  | .lista es => { kind := .listLit, items := es.exprs }
  | .dict es => { kind := .dictLit, entries := es.exprs }
  | .despues mas d => { kind := .postStep, text := if mas then "+" else "-", lhs := d.expr }
  | .antes mas d => { kind := .preStep, text := if mas then "+" else "-", lhs := d.expr }
  | .menos e => { kind := .unary, text := "-", lhs := e.expr }
  | .espera e => { kind := .await, lhs := e.expr }
  | .binario op _ _ l r => binario op l.expr r.expr
  | .no e => { kind := .unary, text := "not", lhs := e.expr }
  | .ternario cond l r => { kind := .ternary, object := cond.expr, lhs := l.expr, rhs := r.expr }

def Terminos.exprs : Terminos → List Expr
  | .nil => []
  | .cons e es => e.expr :: es.exprs

def Pares.exprs : Pares → List (Expr × Expr)
  | .nil => []
  | .cons k v es => (k.expr, v.expr) :: es.exprs

def Nombrados.exprs : Nombrados → List (String × Expr)
  | .nil => []
  | .cons i e es => (i.text, e.expr) :: es.exprs

end

end Trees

/-! ## What they are written with -/

def Destino.nivel : Destino → ℕ
  | .nombre _ => 10
  | _ => 9

/-- How tightly an expression binds. -/
def Termino.nivel : Termino → ℕ
  | .destino d => d.nivel
  | .llamada .. | .despues .. => 9
  | .antes .. | .menos _ | .espera _ => 8
  | .binario _ n .. => n
  | .no _ => 3
  | .ternario .. => 0
  | _ => 10

/-- An expression of level `m` where one of level `n` is asked for. -/
def agrupa (n m : ℕ) (ts : List Token) : List Token :=
  if m < n then signo .lParen :: (ts ++ [signo .rParen]) else ts

/-- Elements with commas between them. -/
def separa : List (List Token) → List Token
  | [] => []
  | [ts] => ts
  | ts :: us :: tss => ts ++ signo .comma :: separa (us :: tss)

section Tokens

variable (k : ℕ)

mutual

def Destino.tokens : Destino → List Token
  | .nombre n => [n.token]
  | .campo e w => agrupa 9 e.nivel e.tokens ++ [signo .dot, w.token]
  | .indice e i =>
    agrupa 9 e.nivel e.tokens ++ signo .lBracket :: (i.tokens ++ [signo .rBracket])

/-- The tokens of an expression, with parentheses where they are needed. -/
def Termino.tokens : Termino → List Token
  | .cadena s => [⟨.string, s⟩]
  | .entero n _ => [⟨.int, String.ofList (Nat.toDigits 10 n)⟩]
  | .decimal a b => [⟨.float, String.ofList (a.cifras ++ '.' :: b.cifras)⟩]
  | .booleano b => [signo (if b then .kwTrue else .kwFalse)]
  | .nulo => [signo .kwNull]
  | .this => [signo .kwThis]
  | .destino d => d.tokens
  | .llamada e args nombrados =>
    agrupa 9 e.nivel e.tokens ++
      signo .lParen :: (separa (args.tokens ++ nombrados.tokens) ++ [signo .rParen])
  | .lista es => signo .lBracket :: (separa es.tokens ++ [signo .rBracket])
  | .dict es => signo .lBrace :: (separa es.tokens ++ [signo .rBrace])
  | .despues mas d => d.tokens ++ [signo (paso mas)]
  | .antes mas d => signo (paso mas) :: d.tokens
  | .menos e => signo .minus :: agrupa 8 e.nivel e.tokens
  | .espera e => signo .kwAwait :: agrupa k e.nivel e.tokens
  | .binario op n _ l r =>
    agrupa n l.nivel l.tokens ++ signo op :: agrupa (n + 1) r.nivel r.tokens
  | .no e => signo .kwNot :: agrupa 3 e.nivel e.tokens
  | .ternario cond l r =>
    agrupa 1 cond.nivel cond.tokens ++ signo .question :: (l.tokens ++ signo .colon :: r.tokens)

def Terminos.tokens : Terminos → List (List Token)
  | .nil => []
  | .cons e es => e.tokens :: es.tokens

def Pares.tokens : Pares → List (List Token)
  | .nil => []
  | .cons k v es => (k.tokens ++ signo .colon :: v.tokens) :: es.tokens

def Nombrados.tokens : Nombrados → List (List Token)
  | .nil => []
  | .cons i e es => (i.token :: signo .assign :: e.tokens) :: es.tokens

end

end Tokens

/-! ## The grammar -/

section Grammar

variable {c : Entorno} {n m : ℕ} {ts : List Token} {e : Expr}

theorem signo_kind (k : Tok) : (signo k).kind = k := rfl

theorem Termino.nivel_le (e : Termino) : e.nivel ≤ 10 := by
  cases e with
  | destino d => cases d <;> simp [nivel, Destino.nivel]
  | binario op n h l r => exact (nivelDe_le h).trans (by decide)
  | _ => simp [nivel]

/-- Parentheses make an expression fit. -/
theorem Deriva.agrupa (h : Deriva c m ts e) (hm : m ≤ 10) (hn : n ≤ 10) :
    Deriva c n (agrupa n m ts) e := by
  unfold Syntax.agrupa
  split
  · exact .baja (.grupo rfl (h.baja hm (Nat.zero_le m)) rfl) le_rfl hn
  · exact h.baja hm (by omega)

theorem Items.separa {tss : List (List Token)} {es : List Expr}
    (h : List.Forall₂ (Deriva c 0) tss es) : Items c (Syntax.separa tss) es := by
  induction h with
  | nil => exact .nil
  | @cons ts e tss es h hs ih =>
    cases hs with
    | nil => exact .uno h
    | cons h' hs => exact .mas h rfl ih

/-- The tokens of an entry. -/
def Entrada (c : Entorno) (ts : List Token) (e : Expr × Expr) : Prop :=
  ∃ ks vs, ts = ks ++ signo .colon :: vs ∧ Deriva c 0 ks e.1 ∧ Deriva c 0 vs e.2

theorem Entradas.separa {tss : List (List Token)} {es : List (Expr × Expr)}
    (h : List.Forall₂ (Entrada c) tss es) : Entradas c (Syntax.separa tss) es := by
  induction h with
  | nil => exact .nil
  | @cons ts e tss es h hs ih =>
    obtain ⟨ks, vs, rfl, hk, hv⟩ := h
    cases hs with
    | nil => exact .uno hk rfl hv
    | cons h' hs => exact .mas hk rfl hv rfl ih

theorem Args.separa {tss : List (List Token)} {as : List (String × Expr)}
    (h : List.Forall₂ (fun ts a => ∀ named, Arg c named ts a true) tss as) (named : Bool) :
    Args c named (Syntax.separa tss) as := by
  induction h generalizing named with
  | nil => exact .nil
  | @cons ts a tss as h hs ih =>
    cases hs with
    | nil => exact .uno (h named)
    | cons h' hs => exact .mas (h named) rfl (ih true)

/-- Arguments with a name come behind those without. -/
theorem Args.separa_append {tss uss : List (List Token)} {es : List Expr}
    {as : List (String × Expr)} (h : List.Forall₂ (Deriva c 0) tss es)
    (h' : List.Forall₂ (fun ts a => ∀ named, Arg c named ts a true) uss as) :
    Args c false (Syntax.separa (tss ++ uss)) (es.map ("", ·) ++ as) := by
  induction h with
  | nil => exact .separa h' false
  | @cons ts e tss es h hs ih =>
    cases hs with
    | nil =>
      cases h' with
      | nil => exact .uno (.posicional h)
      | cons _ _ => exact .mas (.posicional h) rfl ih
    | cons _ _ => exact .mas (.posicional h) rfl ih

theorem Destino.assignable (d : Destino) : assignable (d.expr c) = true := by
  cases d <;> rfl

theorem Destino.nivel_le (d : Destino) : 9 ≤ d.nivel ∧ d.nivel ≤ 10 := by
  cases d <;> simp [nivel]

theorem masMenos_paso (mas : Bool) : masMenos (paso mas) = if mas then "+" else "-" := by
  cases mas <;> rfl

theorem paso_kind (mas : Bool) :
    (signo (paso mas)).kind = .plusPlus ∨ (signo (paso mas)).kind = .minusMinus := by
  cases mas
  · exact .inr rfl
  · exact .inl rfl

/-- The digits of a number are read back. -/
theorem strtol_toDigits (h : n < 2 ^ 63) : Db.strtol (String.ofList (Nat.toDigits 10 n)) = n := by
  have hdigit : ∀ d ∈ Nat.toDigits 10 n, d.isDigit = true := fun d hd =>
    Nat.isDigit_of_mem_toDigits (by decide) le_rfl hd
  have hvalue : Db.leadingDigits (Nat.toDigits 10 n) = n := by
    rw [Db.leadingDigits, List.takeWhile_eq_self_iff.2 hdigit, ← Nat.ofDigitChars_eq_foldl]
    exact Nat.ofDigitChars_toDigits (by decide) le_rfl
  rw [Db.strtol, String.toList_ofList]
  generalize Nat.toDigits 10 n = cs at hdigit hvalue
  -- there is neither a blank nor a sign in front
  have hspace : cs.dropWhile Db.isSpace = cs := by
    refine List.dropWhile_eq_self_iff.2 fun hlen => ?_
    intro hblank
    have hd := hdigit _ (List.getElem_mem hlen)
    rcases of_decide_eq_true hblank with heq | ⟨-, hle⟩
    · rw [heq] at hd
      exact absurd hd (by decide)
    · have h48 : 48 ≤ cs[0].toNat := (Char.isDigit_iff_toNat.1 hd).1
      omega
  rw [hspace]
  split
  · exact absurd (hdigit '-' List.mem_cons_self) (by decide)
  · exact absurd (hdigit '+' List.mem_cons_self) (by decide)
  · rw [hvalue]
    omega

mutual

theorem Destino.deriva : ∀ d : Destino, Deriva c d.nivel (d.tokens 8) (d.expr c)
  | .nombre n => by
    refine .atomo ?_
    rcases n.libre with h | h | h | h
    all_goals simp [atomo, Palabra.token, h, Destino.expr]
  | .campo e w => .campo (e.deriva.agrupa e.nivel_le (by decide)) rfl (.inr w.text_ne)
  | .indice e i => .indice (e.deriva.agrupa e.nivel_le (by decide)) rfl
      (i.deriva.baja i.nivel_le (Nat.zero_le _)) rfl

/-- **The grammar writes an expression** the way it is printed. -/
theorem Termino.deriva : ∀ e : Termino, Deriva c e.nivel (e.tokens 8) (e.expr c)
  | .cadena s => .atomo rfl
  | .entero n h => .atomo (by simp [atomo, strtol_toDigits h, Termino.expr])
  | .decimal a b => .atomo rfl
  | .booleano b => .atomo (by cases b <;> rfl)
  | .nulo => .atomo rfl
  | .this => .atomo rfl
  | .destino d => d.deriva
  | .llamada e args nombrados =>
    .llamada (e.deriva.agrupa e.nivel_le (by decide)) rfl
      (.separa_append args.deriva nombrados.deriva) rfl
  | .lista es => .lista rfl (.separa es.deriva) rfl
  | .dict es => .dict rfl (.separa es.deriva) rfl
  | .despues mas d => by
    have h := Deriva.despues (paso_kind mas) (d.deriva.baja d.nivel_le.2 d.nivel_le.1) d.assignable
    rwa [signo_kind, masMenos_paso] at h
  | .antes mas d => by
    have h := Deriva.antes (paso_kind mas)
      (d.deriva.baja d.nivel_le.2 ((by decide : 8 ≤ 9).trans d.nivel_le.1)) d.assignable
    rwa [signo_kind, masMenos_paso] at h
  | .menos e => .menos rfl (e.deriva.agrupa e.nivel_le (by decide))
  | .espera e => .espera rfl (e.deriva.agrupa e.nivel_le (by decide))
  | .binario op n h l r => by
    have hn : n + 1 ≤ 10 := Nat.succ_le_succ ((nivelDe_le h).trans (by decide))
    exact .binario h (l.deriva.agrupa l.nivel_le (Nat.le_of_succ_le hn))
      (r.deriva.agrupa r.nivel_le hn)
  | .no e => .no rfl (e.deriva.agrupa e.nivel_le (by decide))
  | .ternario cond l r => .ternario (cond.deriva.agrupa cond.nivel_le (by decide)) rfl
      (l.deriva.baja l.nivel_le (Nat.zero_le _)) rfl (r.deriva.baja r.nivel_le (Nat.zero_le _))

theorem Terminos.deriva : ∀ es : Terminos, List.Forall₂ (Deriva c 0) (es.tokens 8) (es.exprs c)
  | .nil => .nil
  | .cons e es => .cons (e.deriva.baja e.nivel_le (Nat.zero_le _)) es.deriva

theorem Pares.deriva : ∀ es : Pares, List.Forall₂ (Entrada c) (es.tokens 8) (es.exprs c)
  | .nil => .nil
  | .cons k v es => .cons ⟨_, _, rfl, k.deriva.baja k.nivel_le (Nat.zero_le _),
      v.deriva.baja v.nivel_le (Nat.zero_le _)⟩ es.deriva

theorem Nombrados.deriva : ∀ es : Nombrados,
    List.Forall₂ (fun ts a => ∀ named, Arg c named ts a true) (es.tokens 8) (es.exprs c)
  | .nil => .nil
  | .cons i e es =>
    .cons (fun _ => .nombrado i.libre rfl (e.deriva.baja e.nivel_le (Nat.zero_le _))) es.deriva

end

end Grammar

end Osodio.Syntax
