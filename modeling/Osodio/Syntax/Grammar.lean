import Osodio.Syntax.Parser

/-!
# The grammar of types and expressions

What a type and an expression are written with, apart from how they are read.  The levels of an
expression are numbered from the loosest one: 0 is the ternary operator, 1 `or`, 2 `and`, 3 `not`,
4 to 7 the operators between values, 8 the signs in front, 9 what follows an expression, and 10 what
needs nothing around it.  A list may end in a comma.

## Main definitions

- `Tipo` — how a type is written
- `Deriva`, `Items`, `Entradas`, `Args` — how an expression is written at a level
- `sigueNivel` — the tokens that go on with an expression of a level
-/

namespace Osodio.Syntax

/-! ## Types -/

/-- A mark behind a type. -/
def Marca (ts : List Token) (optional : Bool) : Prop :=
  ts = [] ∧ optional = false ∨ ∃ t, ts = [t] ∧ t.kind = .question ∧ optional = true

mutual

/-- How a type is written. -/
inductive Tipo : List Token → TypeRef → Prop
  | void {t : Token} (ht : t.kind = .kwVoid) : Tipo [t] { name := "void" }
  | nombre {t : Token} {q : List Token} {optional : Bool} (ht : t.kind = .ident)
      (hq : Marca q optional) : Tipo (t :: q) { name := t.text, optional := optional }
  | conArgs {t l g : Token} {as q : List Token} {args : List TypeRef} {optional : Bool}
      (ht : t.kind = .ident) (hl : l.kind = .lt) (has : TipoArgs as args) (hg : g.kind = .gt)
      (hq : Marca q optional) :
      Tipo (t :: l :: (as ++ g :: q)) { name := t.text, args := args, optional := optional }

inductive TipoArgs : List Token → List TypeRef → Prop
  | uno {ts : List Token} {T : TypeRef} (h : Tipo ts T) : TipoArgs ts [T]
  | mas {ts ts' : List Token} {co : Token} {T : TypeRef} {Ts : List TypeRef} (h : Tipo ts T)
      (hco : co.kind = .comma) (h' : TipoArgs ts' Ts) : TipoArgs (ts ++ co :: ts') (T :: Ts)

end

/-! ## Expressions -/

/-- How tightly a binary operator binds. -/
def nivelDe : Tok → Option ℕ
  | .kwOr => some 1
  | .kwAnd => some 2
  | .eq | .notEq => some 4
  | .lt | .ltEq | .gt | .gtEq => some 5
  | .plus | .minus => some 6
  | .star | .slash | .percent => some 7
  | _ => none

/-- The token goes on with an expression of the level. -/
def sigueNivel (n : ℕ) (k : Tok) : Bool :=
  siguePostfijo k && n ≤ 9 || (nivelDe k).any (n ≤ ·) || k = .question && n = 0

/-- The expression of a token by itself. -/
def atomo (c : Entorno) (t : Token) : Option Expr :=
  match t.kind with
  | .string => some { kind := .stringLit, text := t.text }
  | .int => some { kind := .intLit, intValue := Db.strtol t.text }
  | .float => some { kind := .floatLit, floatValue := c.strtod t.text }
  | .kwTrue | .kwFalse => some { kind := .boolLit, boolValue := t.kind = .kwTrue }
  | .kwNull => some { kind := .nullLit }
  | .kwThis => some { kind := .this }
  | .kwSse | .kwWs | .kwError | .ident => some { kind := .ident, text := t.text }
  | _ => none

section Grammar

variable (c : Entorno)

mutual

/-- How an expression is written at a level. -/
inductive Deriva : ℕ → List Token → Expr → Prop
  | sube {n : ℕ} {ts : List Token} {e : Expr} (hn : n < 10) (h : Deriva (n + 1) ts e) :
      Deriva n ts e
  | ternario {q co : Token} {cs as bs : List Token} {cond l r : Expr} (hc : Deriva 1 cs cond)
      (hq : q.kind = .question) (hl : Deriva 0 as l) (hco : co.kind = .colon)
      (hr : Deriva 0 bs r) :
      Deriva 0 (cs ++ q :: (as ++ co :: bs))
        { kind := .ternary, object := cond, lhs := l, rhs := r }
  | binario {n : ℕ} {op : Token} {as bs : List Token} {l r : Expr}
      (hop : nivelDe op.kind = some n) (hl : Deriva n as l) (hr : Deriva (n + 1) bs r) :
      Deriva n (as ++ op :: bs) (binario op.kind l r)
  | no {t : Token} {ts : List Token} {e : Expr} (ht : t.kind = .kwNot) (h : Deriva 3 ts e) :
      Deriva 3 (t :: ts) { kind := .unary, text := "not", lhs := e }
  | menos {t : Token} {ts : List Token} {e : Expr} (ht : t.kind = .minus) (h : Deriva 8 ts e) :
      Deriva 8 (t :: ts) { kind := .unary, text := "-", lhs := e }
  | antes {t : Token} {ts : List Token} {e : Expr} (ht : t.kind = .plusPlus ∨ t.kind = .minusMinus)
      (h : Deriva 8 ts e) (he : assignable e = true) :
      Deriva 8 (t :: ts) { kind := .preStep, text := masMenos t.kind, lhs := e }
  | espera {t : Token} {ts : List Token} {e : Expr} (ht : t.kind = .kwAwait) (h : Deriva 8 ts e) :
      Deriva 8 (t :: ts) { kind := .await, lhs := e }
  | despues {t : Token} {ts : List Token} {e : Expr}
      (ht : t.kind = .plusPlus ∨ t.kind = .minusMinus) (h : Deriva 9 ts e)
      (he : assignable e = true) :
      Deriva 9 (ts ++ [t]) { kind := .postStep, text := masMenos t.kind, lhs := e }
  | campo {d t : Token} {ts : List Token} {e : Expr} (h : Deriva 9 ts e) (hd : d.kind = .dot)
      (ht : t.kind = .ident ∨ t.text ≠ "") :
      Deriva 9 (ts ++ [d, t]) { kind := .member, text := t.text, object := e }
  | llamada {l g : Token} {ts as : List Token} {e : Expr} {args : List (String × Expr)}
      (h : Deriva 9 ts e) (hl : l.kind = .lParen) (has : Args false as args)
      (hg : g.kind = .rParen) :
      Deriva 9 (ts ++ l :: (as ++ [g])) { kind := .call, object := e, args := args }
  | indice {l g : Token} {ts is : List Token} {e i : Expr} (h : Deriva 9 ts e)
      (hl : l.kind = .lBracket) (hi : Deriva 0 is i) (hg : g.kind = .rBracket) :
      Deriva 9 (ts ++ l :: (is ++ [g])) { kind := .index, object := e, lhs := i }
  | atomo {t : Token} {e : Expr} (h : atomo c t = some e) : Deriva 10 [t] e
  | grupo {l g : Token} {ts : List Token} {e : Expr} (hl : l.kind = .lParen) (h : Deriva 0 ts e)
      (hg : g.kind = .rParen) : Deriva 10 (l :: (ts ++ [g])) e
  | lista {l g : Token} {ts : List Token} {items : List Expr} (hl : l.kind = .lBracket)
      (h : Items ts items) (hg : g.kind = .rBracket) :
      Deriva 10 (l :: (ts ++ [g])) { kind := .listLit, items := items }
  | dict {l g : Token} {ts : List Token} {entries : List (Expr × Expr)} (hl : l.kind = .lBrace)
      (h : Entradas ts entries) (hg : g.kind = .rBrace) :
      Deriva 10 (l :: (ts ++ [g])) { kind := .dictLit, entries := entries }

/-- The elements of a list. -/
inductive Items : List Token → List Expr → Prop
  | nil : Items [] []
  | uno {ts : List Token} {e : Expr} (h : Deriva 0 ts e) : Items ts [e]
  | mas {ts ts' : List Token} {co : Token} {e : Expr} {es : List Expr} (h : Deriva 0 ts e)
      (hco : co.kind = .comma) (h' : Items ts' es) : Items (ts ++ co :: ts') (e :: es)

/-- The entries of a dictionary. -/
inductive Entradas : List Token → List (Expr × Expr) → Prop
  | nil : Entradas [] []
  | uno {ks vs : List Token} {co : Token} {k v : Expr} (hk : Deriva 0 ks k) (hco : co.kind = .colon)
      (hv : Deriva 0 vs v) : Entradas (ks ++ co :: vs) [(k, v)]
  | mas {ks vs ts : List Token} {co s : Token} {k v : Expr} {es : List (Expr × Expr)}
      (hk : Deriva 0 ks k) (hco : co.kind = .colon) (hv : Deriva 0 vs v) (hs : s.kind = .comma)
      (h : Entradas ts es) : Entradas (ks ++ co :: vs ++ s :: ts) ((k, v) :: es)

/-- The arguments of a call, when there has been one with a name or not. -/
inductive Args : Bool → List Token → List (String × Expr) → Prop
  | nil {named : Bool} : Args named [] []
  | uno {named named' : Bool} {ts : List Token} {a : String × Expr} (h : Arg named ts a named') :
      Args named ts [a]
  | mas {named named' : Bool} {ts ts' : List Token} {co : Token} {a : String × Expr}
      {as : List (String × Expr)} (h : Arg named ts a named') (hco : co.kind = .comma)
      (h' : Args named' ts' as) : Args named (ts ++ co :: ts') (a :: as)

/-- An argument, and whether there has been one with a name behind it. -/
inductive Arg : Bool → List Token → String × Expr → Bool → Prop
  | posicional {ts : List Token} {e : Expr} (h : Deriva 0 ts e) : Arg false ts ("", e) false
  | nombrado {named : Bool} {i q : Token} {ts : List Token} {e : Expr} (hi : i.kind = .ident)
      (hq : q.kind = .assign) (h : Deriva 0 ts e) : Arg named (i :: q :: ts) (i.text, e) true

end

end Grammar

/-! ## Levels -/

theorem nivelDe_le {n : ℕ} {op : Tok} (h : nivelDe op = some n) : n ≤ 7 := by
  cases op <;> cases h <;> decide

/-- What is written at a level is written at the looser ones. -/
theorem Deriva.baja {c : Entorno} {n m : ℕ} {ts : List Token} {e : Expr} (h : Deriva c m ts e)
    (hm : m ≤ 10) (hn : n ≤ m) : Deriva c n ts e := by
  induction hn using Nat.decreasingInduction with
  | self => exact h
  | of_succ k hk ih => exact .sube (by omega) ih

end Osodio.Syntax
