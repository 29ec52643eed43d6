import Osodio.Odio.Chunks
import Osodio.Odio.Control

/-!
# Guards in the code of a route

The chunk of a route begins with one piece of code for each guard: its condition,
a test, a jump to the next guard, its other expression and a return.  The machine
enters a piece only at its first instruction, and the body only past the last one.

## Main definitions

- `Within` — the code between two positions that does not leave them by a jump
- `GuardMark`, `GuardsAt` — where the pieces of the guards stand

## Main results

- `ExprTree.within` — the code of an expression stays within its positions
- `GuardsTree.guardsAt` — the code of the guards of a route
-/

namespace Osodio.Odio

/-! ## Code that stays within its positions -/

/-- Every instruction between `a` and `b` goes on to the next one, or jumps to a
    position between `lo` and `hi`; none returns, and no `try` covers them. -/
structure Within (c : Chunk) (a b lo hi : ℕ) : Prop where
  instr : ∀ {p}, a ≤ p → p < b → ∃ i, c.code[p]? = some i ∧ i.op ≠ .ret ∧ i.op ≠ .retNull ∧
    (i.op.jumps = true → lo ≤ i.operand ∧ i.operand ≤ hi)
  handler : ∀ {p}, a ≤ p → p < b → findHandler c.tryRanges p = none

section Within

variable {c : Chunk} {a b d lo hi lo' hi' : ℕ}

theorem Within.empty : Within c a a lo hi :=
  ⟨fun ha hb => absurd hb (Nat.not_lt.2 ha), fun ha hb => absurd hb (Nat.not_lt.2 ha)⟩

theorem Within.mono (h : Within c a b lo hi) (hlo : lo' ≤ lo) (hhi : hi ≤ hi') :
    Within c a b lo' hi' where
  instr ha hb := by
    obtain ⟨i, hi, hr, hn, hj⟩ := h.instr ha hb
    exact ⟨i, hi, hr, hn, fun hop => ⟨hlo.trans (hj hop).1, (hj hop).2.trans hhi⟩⟩
  handler := h.handler

theorem Within.append (h : Within c a b lo hi) (h' : Within c b d lo hi) :
    Within c a d lo hi where
  instr {p} ha hd := by
    obtain hb | hb := Nat.lt_or_ge p b
    · exact h.instr ha hb
    · exact h'.instr hb hd
  handler {p} ha hd := by
    obtain hb | hb := Nat.lt_or_ge p b
    · exact h.handler ha hb
    · exact h'.handler hb hd

/-- One instruction outside of any `try`. -/
theorem Within.one {K : Context} {op : Op} {k : ℕ} {loc : SourceLoc}
    (h : InstrAt K [] a op k loc) (hr : op ≠ .ret ∧ op ≠ .retNull)
    (hj : op.jumps = true → lo ≤ k ∧ k ≤ hi) : Within K.chunk a (a + 1) lo hi where
  instr {p} ha hb := by
    obtain rfl : p = a := by omega
    exact ⟨_, h.code, hr.1, hr.2, hj⟩
  handler {p} ha hb := by
    obtain rfl : p = a := by omega
    exact h.handler

end Within

/-- The code of an expression: it branches forward only. -/
def Tree.isPlain : Tree → Bool
  | .nil | .atom _ _ => true
  | .seq t u | .cond t u _ => t.isPlain && u.isPlain
  | .peek _ t _ => t.isPlain
  | _ => false

@[simp] theorem Tree.isPlain_atoms (loc : SourceLoc) (as : List Atom) :
    (Tree.atoms loc as).isPlain = true := by
  induction as with
  | nil => rfl
  | cons a as ih => simpa [Tree.atoms, Tree.isPlain] using ih

theorem ExprTree.isPlain {X : Emitter} {N : List Note} {P : List Plantilla} {Γ : List Local}
    {item : ExprItem} {t : Tree} (h : ExprTree X N P Γ item t) : t.isPlain = true := by
  induction h <;> simp_all [Tree.isPlain, Tree.andThen]

/-- Such code stays within its positions. -/
theorem Lay.within {K : Context} {lt : Option (ℕ × ℕ)} {nest : List TryRange} {t : Tree} {a b : ℕ}
    (h : Lay K lt nest t a b) (hn : nest = []) (ht : t.isPlain = true) :
    Within K.chunk a b a b := by
  induction h with
  | nil => exact .empty
  | @atom lt nest a k u loc hi he =>
    subst hn
    have hop : u.code ≠ .ret ∧ u.code ≠ .retNull ∧ u.code.jumps = false := by
      cases u with
      | op o =>
        have ho : o.arity.isSome := he.2
        cases o <;> simp_all [Atom.code, Op.arity, Op.unary, Op.binary, Op.ternary, Op.jumps]
      | _ => simp [Atom.code, Op.jumps]
    exact .one hi ⟨hop.1, hop.2.1⟩ fun hj => by simp [hop.2.2] at hj
  | @seq lt nest t u a b c htl hul iht ihu =>
    simp only [Tree.isPlain, Bool.and_eq_true] at ht
    exact ((iht hn ht.1).mono le_rfl hul.le).append ((ihu hn ht.2).mono htl.le le_rfl)
  | @peek lt nest op t loc a b hi htl ih =>
    subst hn
    have hle := htl.le
    refine (Within.one hi ?_ fun _ => ⟨by omega, le_rfl⟩).append
      ((ih rfl ht).mono (Nat.le_succ a) le_rfl)
    split <;> decide
  | @cond lt nest t u loc a b c hi htl hj hul iht ihu =>
    subst hn
    simp only [Tree.isPlain, Bool.and_eq_true] at ht
    have hle := htl.le
    have hle' := hul.le
    have h₁ := @Within.one _ a c _ _ _ _ hi (by decide) fun _ => ⟨by omega, by omega⟩
    have h₂ := @Within.one _ a c _ _ _ _ hj (by decide) fun _ => ⟨by omega, by omega⟩
    exact (h₁.append ((iht rfl ht.1).mono (by omega) (by omega))).append
      (h₂.append ((ihu rfl ht.2).mono (by omega) (by omega)))
  | _ => simp [Tree.isPlain] at ht

/-! ## The pieces of the guards -/

/-- Where the code of a guard stands: its condition from `first` on, the test at
    `test`, its other expression from `test + 2` on, and the return just before
    `stop`. -/
structure GuardMark where
  first : ℕ
  test : ℕ
  stop : ℕ

/-- The code of the guards `gs`, from `a` to `b`. -/
inductive GuardsAt (X : Emitter) (N : List Note) (P : List Plantilla) (Γ : List Local)
    (c : Chunk) : List Guard → List GuardMark → ℕ → ℕ → Prop where
  | nil {a} : GuardsAt X N P Γ c [] [] a a
  | cons {g gs ms a test ret b t u lt}
      (ht : ExprTree X N P Γ (.expr g.condition) t)
      (htl : Lay ⟨X, c, P, N⟩ lt [] t a test)
      (hi : c.code[test]? = some ⟨.jumpIfFalse, test + 2, g.loc⟩)
      (hj : c.code[test + 1]? = some ⟨.jump, ret + 1, g.loc⟩)
      (hu : ExprTree X N P Γ (.expr g.otherwise) u)
      (hul : Lay ⟨X, c, P, N⟩ lt [] u (test + 2) ret)
      (hr : c.code[ret]? = some ⟨.ret, 0, g.loc⟩)
      (hh : ∀ p, a ≤ p → p ≤ ret → findHandler c.tryRanges p = none)
      (hms : GuardsAt X N P Γ c gs ms (ret + 1) b) :
      GuardsAt X N P Γ c (g :: gs) (⟨a, test, ret + 1⟩ :: ms) a b

/-- The guards of a route, in its code. -/
theorem GuardsTree.guardsAt {X : Emitter} {N : List Note} {P : List Plantilla} {Γ : List Local}
    {c : Chunk} {gs : List Guard} {t : Tree} {lt : Option (ℕ × ℕ)} {a b : ℕ}
    (h : GuardsTree X N P Γ gs t) (hl : Lay ⟨X, c, P, N⟩ lt [] t a b) :
    ∃ ms, GuardsAt X N P Γ c gs ms a b := by
  induction h generalizing a with
  | nil =>
    cases hl
    exact ⟨[], .nil⟩
  | @cons g gs t u v ht hu hv ih =>
    cases hl with
    | seq hl hvl =>
    cases hl with
    | seq htl hl =>
    cases hl with
    | «unless» hi hj hl =>
    cases hl with
    | @seq _ _ _ _ _ ret _ hul hr =>
    cases hr with
    | ret hr =>
    obtain ⟨ms, hms⟩ := ih hvl
    refine ⟨_, .cons ht htl hi.code hj.code hu hul hr.code ?_ hms⟩
    -- no `try` is open where guards are
    have hcond := htl.within rfl ht.isPlain
    have helse := hul.within rfl hu.isPlain
    have hle := htl.le
    have hle' := hul.le
    have h₁ := @Within.one _ 0 (ret + 1) _ _ _ _ hi (by decide) fun _ => ⟨Nat.zero_le _, by omega⟩
    have h₂ := @Within.one _ 0 (ret + 1) _ _ _ _ hj (by decide) fun _ => ⟨Nat.zero_le _, le_rfl⟩
    have hall := ((hcond.mono (Nat.zero_le _) (by omega)).append (h₁.append h₂)).append
      (helse.mono (Nat.zero_le _) (Nat.le_succ _))
    intro p hp hpr
    obtain hlt | rfl := Nat.lt_or_eq_of_le hpr
    · exact hall.handler hp hlt
    · exact hr.handler

end Osodio.Odio
