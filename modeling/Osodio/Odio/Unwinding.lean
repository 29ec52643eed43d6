import Osodio.Odio.Guards
import Osodio.Odio.Stacked

/-!
# Unwinding

An error is caught by the innermost `try` of the source whose body is being executed, in the nearest
frame that has one.

## Main definitions

- `Piece.Innermost` — the innermost `try` at a place
- `Module.CaughtBy`, `Module.Uncaught` — what the source catches at a place of a chunk
- `Vm.Catches` — a handler begins with an error

## Main results

- `Piece.Root.handled` — the table of ranges finds the innermost `try`
- `errors_unwind` — in every run an error goes to the innermost `try` of the nearest frame
-/

namespace Osodio.Odio

/-! ## Code without a `try` -/

/-- There is no `try` in a tree. -/
def Tree.noTry : Tree → Bool
  | .nil | .atom _ _ | .ret _ | .retNull _ | .brk _ | .cont _ => true
  | .seq t u | .cond t u _ => t.noTry && u.noTry
  | .peek _ t _ | .when t _ | .unless t _ => t.noTry
  | .loop head body step _ _ => head.noTry && body.noTry && step.noTry
  | .tryCatch _ _ _ => false

theorem Tree.noTry_of_isPlain {t : Tree} (h : t.isPlain = true) : t.noTry = true := by
  induction t with
  | nil | atom => rfl
  | seq t u iht ihu | cond t u loc iht ihu =>
    obtain ⟨ht, hu⟩ := Bool.and_eq_true_iff.1 h
    exact Bool.and_eq_true_iff.2 ⟨iht ht, ihu hu⟩
  | peek op t loc ih => exact ih h
  | _ => cases h

@[simp] theorem Tree.noTry_atoms (loc : SourceLoc) (as : List Atom) :
    (Tree.atoms loc as).noTry = true :=
  Tree.noTry_of_isPlain (Tree.isPlain_atoms loc as)

theorem ExprTree.noTry {X : Emitter} {N : List Note} {P : List Plantilla} {Γ : List Local}
    {item : ExprItem} {t : Tree} (h : ExprTree X N P Γ item t) : t.noTry = true :=
  Tree.noTry_of_isPlain h.isPlain

/-- Code without a `try` has the handler of the code around it. -/
theorem Lay.handler_of_noTry {K : Context} {lt : Option (ℕ × ℕ)} {nest : List TryRange} {t : Tree}
    {a b p : ℕ} (h : Lay K lt nest t a b) (ht : t.noTry = true) (hap : a ≤ p) (hpb : p < b) :
    findHandler K.chunk.tryRanges p = nest.head? := by
  have hone : ∀ {nest q op k loc}, InstrAt K nest q op k loc → p = q →
      findHandler K.chunk.tryRanges p = nest.head? := by
    rintro nest q op k loc hq rfl
    exact hq.handler
  induction h with
  | nil => omega
  | atom hi _ => exact hone hi (by omega)
  | ret hi | retNull hi | brk hi | cont hi => exact hone hi (by omega)
  | @seq lt nest t u a b c _ _ iht ihu =>
    obtain ⟨ht, hu⟩ := Bool.and_eq_true_iff.1 ht
    by_cases hp : p < b
    · exact iht ht hap hp
    · exact ihu hu (by omega) hpb
  | @peek lt nest op t loc a b hi _ ih | @when lt nest t loc a b hi _ ih =>
    by_cases hp : p = a
    · exact hone hi hp
    · exact ih ht (by omega) hpb
  | @cond lt nest t u loc a b c hi _ hj _ iht ihu =>
    obtain ⟨ht, hu⟩ := Bool.and_eq_true_iff.1 ht
    by_cases hp : p = a
    · exact hone hi hp
    by_cases hq : p = b
    · exact hone hj hq
    by_cases hlt : p < b
    · exact iht ht (by omega) hlt
    · exact ihu hu (by omega) hpb
  | @«unless» lt nest t loc a b hi hj _ ih =>
    by_cases hp : p = a
    · exact hone hi hp
    by_cases hq : p = a + 1
    · exact hone hj hq
    · exact ih ht (by omega) hpb
  | @loop lt nest head body step toHead loc a b c d _ hi _ _ hj ihh ihb ihs =>
    obtain ⟨ht, hs⟩ := Bool.and_eq_true_iff.1 ht
    obtain ⟨hh, hb⟩ := Bool.and_eq_true_iff.1 ht
    by_cases hph : p < b
    · exact ihh hh hap hph
    by_cases hp : p = b
    · exact hone hi hp
    by_cases hc : p < c
    · exact ihb hb (by omega) hc
    by_cases hd : p < d
    · exact ihs hs (by omega) hd
    · exact hone hj (by omega)
  | tryCatch => cases ht

/-! ## The innermost `try` -/

namespace Piece

/-- The place `p` is in the code of a piece. -/
def Holds (q : Piece) (p : ℕ) : Prop := q.first ≤ p ∧ p < q.stop

/-- `q` is the innermost `try` inside of `root` whose body is at `p`. -/
structure Innermost (root : Piece) (p : ℕ) (q : Piece) (r : TryRange) : Prop where
  within : root.Within q
  catches : q.Catches r
  covers : r.Covers p
  least : ∀ q' r', root.Within q' → q'.Catches r' → r'.Covers p → q'.Within q

/-- The table finds the innermost `try` inside of a piece, or if there is none the one around it. -/
def Handled (K : Context) (nest : List TryRange) (q : Piece) (p : ℕ) : Prop :=
  (∃ q' r, q.Innermost p q' r ∧ findHandler K.chunk.tryRanges p = some r) ∨
    findHandler K.chunk.tryRanges p = nest.head? ∧
      ∀ q' r, q.Within q' → q'.Catches r → ¬ r.Covers p

section Handlers

variable {K : Context} {nest : List TryRange} {q q' q₁ root : Piece} {p : ℕ} {r : TryRange}

theorem Within.trans (h : root.Within q) (h' : q.Within q') : root.Within q' := by
  induction h' with
  | refl => exact h
  | part _ hp ih => exact ih.part hp

/-- What is inside of a piece is the piece, or inside of one of its parts. -/
theorem Within.cases_head (h : q.Within q') : q' = q ∨ ∃ q₁, Part q q₁ ∧ q₁.Within q' := by
  induction h with
  | refl => exact .inl rfl
  | part _ hp ih =>
    rcases ih with rfl | ⟨q₁, h₁, hw⟩
    · exact .inr ⟨_, hp, .refl⟩
    · exact .inr ⟨q₁, h₁, hw.part hp⟩

/-- The code of the parts is in the code of the piece. -/
theorem Part.inside (h : Part q q') : q.first ≤ q'.first ∧ q'.stop ≤ q.stop := by
  cases h <;> simp only [stop, Tree.size] <;> omega

theorem Within.inside (h : q.Within q') : q.first ≤ q'.first ∧ q'.stop ≤ q.stop := by
  induction h with
  | refl => exact ⟨le_rfl, le_rfl⟩
  | part _ hp ih =>
    have := hp.inside
    omega

/-- A `try` that catches at a place holds it. -/
theorem Catches.holds (h : q.Catches r) (hp : r.Covers p) : q.Holds p := by
  cases h with
  | mk =>
    obtain ⟨hfirst, hstop⟩ := hp
    refine ⟨hfirst, hstop.trans_le ?_⟩
    simp only [stop, Tree.size]
    omega

theorem Within.holds (h : q.Within q') (hc : q'.Catches r) (hp : r.Covers p) : q.Holds p := by
  have hin := h.inside
  obtain ⟨hfirst, hstop⟩ := hc.holds hp
  exact ⟨hin.1.trans hfirst, hstop.trans_le hin.2⟩

/-- No part of a piece holds a place, and the piece does not catch there. -/
theorem Handled.alone (hh : findHandler K.chunk.tryRanges p = nest.head?)
    (hparts : ∀ q₁, Part q q₁ → ¬ q₁.Holds p) (hq : ∀ r, q.Catches r → ¬ r.Covers p) :
    Handled K nest q p := by
  refine .inr ⟨hh, fun q' r hw hc hp => ?_⟩
  rcases hw.cases_head with rfl | ⟨q₁, h₁, hw⟩
  · exact hq r hc hp
  · exact hparts q₁ h₁ (hw.holds hc hp)

/-- One part of a piece holds a place, and the piece does not catch there. -/
theorem Handled.of_part (h : Handled K nest q₁ p) (h₁ : Part q q₁)
    (hparts : ∀ q₂, Part q q₂ → q₂.Holds p → q₂ = q₁) (hq : ∀ r, q.Catches r → ¬ r.Covers p) :
    Handled K nest q p := by
  -- what catches at the place is inside of the part
  have hinto : ∀ {q' r}, q.Within q' → q'.Catches r → r.Covers p → q₁.Within q' := by
    intro q' r hw hc hp
    rcases hw.cases_head with rfl | ⟨q₂, h₂, hw⟩
    · exact absurd hp (hq r hc)
    · obtain rfl := hparts q₂ h₂ (hw.holds hc hp)
      exact hw
  have hwithin : q.Within q₁ := .part .refl h₁
  rcases h with ⟨q', r, hi, hr⟩ | ⟨hr, hnone⟩
  · refine .inl ⟨q', r, ⟨hwithin.trans hi.within, hi.catches, hi.covers, ?_⟩, hr⟩
    exact fun q'' r' hw hc hp => hi.least q'' r' (hinto hw hc hp) hc hp
  · exact .inr ⟨hr, fun q' r hw hc hp => hnone q' r (hinto hw hc hp) hc hp⟩

/-- The body of a `try` holds a place. -/
theorem Handled.of_body (h : Handled K (r :: nest) q₁ p) (h₁ : Part q q₁) (hc : q.Catches r)
    (hp : r.Covers p) (hparts : ∀ q₂, Part q q₂ → q₂.Holds p → q₂ = q₁) :
    Handled K nest q p := by
  have hinto : ∀ {q' r'}, q.Within q' → q'.Catches r' → r'.Covers p → q' = q ∨ q₁.Within q' := by
    intro q' r' hw hc hp
    rcases hw.cases_head with rfl | ⟨q₂, h₂, hw⟩
    · exact .inl rfl
    · obtain rfl := hparts q₂ h₂ (hw.holds hc hp)
      exact .inr hw
  have hwithin : q.Within q₁ := .part .refl h₁
  rcases h with ⟨q', r', hi, hr⟩ | ⟨hr, hnone⟩
  · refine .inl ⟨q', r', ⟨hwithin.trans hi.within, hi.catches, hi.covers, ?_⟩, hr⟩
    intro q'' r'' hw hc hp
    rcases hinto hw hc hp with rfl | hw'
    · exact hwithin.trans hi.within
    · exact hi.least q'' r'' hw' hc hp
  · refine .inl ⟨q, r, ⟨.refl, hc, hp, fun q' r' hw hc' hp' => ?_⟩, hr⟩
    rcases hinto hw hc' hp' with rfl | hw'
    · exact .refl
    · exact absurd hp' (hnone q' r' hw' hc')

end Handlers

section Statements

variable {X : Emitter} {N : List Note} {P : List Plantilla} {K : Context} {Γ Γ' : List Local}
  {item : StmtItem} {t : Tree} {nest : List TryRange} {p a : ℕ}

theorem Placed.lay (h : (⟨item, t, a⟩ : Piece).Placed K nest) : ∃ lt b, Lay K lt nest t a b := by
  obtain ⟨lt, hl⟩ := h
  exact ⟨lt, _, hl⟩

/-- A statement without blocks. -/
theorem Placed.handled_plain (hq : (⟨item, t, a⟩ : Piece).Placed K nest)
    (hp : (⟨item, t, a⟩ : Piece).Holds p) (ht : t.noTry = true)
    (hparts : ∀ q₁, ¬ Part ⟨item, t, a⟩ q₁) : Handled K nest ⟨item, t, a⟩ p := by
  obtain ⟨lt, hl⟩ := hq
  refine .alone (hl.handler_of_noTry ht hp.1 hp.2) (fun q₁ h => absurd h (hparts q₁)) ?_
  intro r hc
  cases hc with
  | mk => cases ht

/-- A `try`: its body, the jump behind it and its handler. -/
theorem Placed.handled_try {loc l : SourceLoc} {body orelse : Block} {name : Option String}
    {u : Tree} {x : Atom}
    (hq : (⟨.stmt (.tryStmt loc body name orelse), .tryCatch t (.seq (.atom x l) u) l, a⟩ :
      Piece).Placed K nest)
    (hp : (⟨.stmt (.tryStmt loc body name orelse), .tryCatch t (.seq (.atom x l) u) l, a⟩ :
      Piece).Holds p)
    (iht : ∀ nest a, (⟨.stmts body, t, a⟩ : Piece).Placed K nest →
      (⟨.stmts body, t, a⟩ : Piece).Holds p → Handled K nest ⟨.stmts body, t, a⟩ p)
    (ihu : ∀ nest a, (⟨.stmts orelse, u, a⟩ : Piece).Placed K nest →
      (⟨.stmts orelse, u, a⟩ : Piece).Holds p → Handled K nest ⟨.stmts orelse, u, a⟩ p) :
    Handled K nest ⟨.stmt (.tryStmt loc body name orelse), .tryCatch t (.seq (.atom x l) u) l, a⟩
      p := by
  obtain ⟨lt, b, hl⟩ := hq.lay
  obtain ⟨hap, hpb⟩ := hp
  have hpb : p < a + (t.size + (1 + u.size) + 1) := hpb
  cases hl with
  | tryCatch hlt hj hlh =>
  obtain rfl := hlt.stop_eq
  cases hlh with
  | seq hlx hlu =>
  obtain rfl := hlx.stop_eq
  have hone : (Tree.atom x l).size = 1 := rfl
  rw [hone] at hlu
  by_cases hpt : p < a + t.size
  · refine .of_body (iht _ a (.of_lay hlt) ⟨hap, hpt⟩) .tryBody .mk ⟨hap, hpt⟩
      fun q₂ h₂ hq₂ => ?_
    cases h₂ with
    | tryBody => rfl
    | tryHandler =>
      have : a + t.size + 1 + 1 ≤ p := hq₂.1
      omega
  -- the handler and the jump before it are outside of the body
  have hcatch : ∀ r, Catches ⟨.stmt (.tryStmt loc body name orelse),
      .tryCatch t (.seq (.atom x l) u) l, a⟩ r → ¬ r.Covers p := by
    rintro r ⟨⟩ hr
    exact hpt hr.2
  by_cases hpu : a + t.size + 1 + 1 ≤ p
  · refine .of_part (ihu nest _ (.of_lay hlu) ⟨hpu, ?_⟩) .tryHandler (fun q₂ h₂ hq₂ => ?_) hcatch
    · simp only [stop]
      omega
    · cases h₂ with
      | tryBody => exact absurd hq₂.2 hpt
      | tryHandler => rfl
  · refine .alone ?_ (fun q₁ h₁ hq₁ => ?_) hcatch
    · by_cases hpj : p = a + t.size
      · subst hpj
        exact hj.handler
      · obtain rfl : p = a + t.size + 1 := by omega
        exact hlx.handler_of_noTry rfl le_rfl (Nat.lt_succ_self _)
    · cases h₁ with
      | tryBody => exact hpt hq₁.2
      | tryHandler => exact hpu hq₁.1

/-- **The table of ranges finds the innermost `try`** inside of a statement. -/
theorem handled_of_source (h : StmtTree X N P Γ item t Γ') :
    ∀ nest a, (⟨item, t, a⟩ : Piece).Placed K nest → (⟨item, t, a⟩ : Piece).Holds p →
      Handled K nest ⟨item, t, a⟩ p := by
  induction h with
  | returnValue ht =>
    exact fun nest a hq hp => hq.handled_plain hp (by simp [Tree.noTry, ht.noTry]) (by rintro _ ⟨⟩)
  | returnNull => exact fun nest a hq hp => hq.handled_plain hp rfl (by rintro _ ⟨⟩)
  | exprStmt ht =>
    exact fun nest a hq hp => hq.handled_plain hp
      (by simp [Tree.andThen, Tree.noTry, ht.noTry]) (by rintro _ ⟨⟩)
  | varInit ht =>
    exact fun nest a hq hp => hq.handled_plain hp
      (by simp [Tree.andThen, Tree.noTry, ht.noTry]) (by rintro _ ⟨⟩)
  | varNull => exact fun nest a hq hp => hq.handled_plain hp rfl (by rintro _ ⟨⟩)
  | assignSession _ ht =>
    exact fun nest a hq hp => hq.handled_plain hp (by simp [Tree.noTry, ht.noTry]) (by rintro _ ⟨⟩)
  | assignMember _ ht hu =>
    exact fun nest a hq hp => hq.handled_plain hp
      (by simp [Tree.noTry, ht.noTry, hu.noTry]) (by rintro _ ⟨⟩)
  | assignIndex hs ht hu =>
    exact fun nest a hq hp => hq.handled_plain hp
      (by simp [Tree.noTry, hs.noTry, ht.noTry, hu.noTry]) (by rintro _ ⟨⟩)
  | assignLocal _ ht =>
    exact fun nest a hq hp => hq.handled_plain hp
      (by simp [Tree.andThen, Tree.noTry, ht.noTry]) (by rintro _ ⟨⟩)
  | requireStmt ht hu =>
    exact fun nest a hq hp => hq.handled_plain hp
      (by simp [Tree.noTry, ht.noTry, hu.noTry]) (by rintro _ ⟨⟩)
  | breakStmt => exact fun nest a hq hp => hq.handled_plain hp rfl (by rintro _ ⟨⟩)
  | continueStmt => exact fun nest a hq hp => hq.handled_plain hp rfl (by rintro _ ⟨⟩)
  | stmtsNil => exact fun nest a hq hp => hq.handled_plain hp rfl (by rintro _ ⟨⟩)
  | @ifThen Γ Γ' loc c body t u ht _ ih =>
    rintro nest a hq ⟨hap, hpb⟩
    obtain ⟨lt, b, hl⟩ := hq.lay
    have hpb : p < a + (t.size + (u.size + 1)) := hpb
    cases hl with
    | seq hlt hlw =>
    obtain rfl := hlt.stop_eq
    cases hlw with
    | when hi hlu =>
    by_cases hp : p < a + t.size + 1
    · refine .alone ?_ (fun q₁ h₁ hq₁ => ?_) (by rintro _ ⟨⟩)
      · by_cases hpt : p < a + t.size
        · exact hlt.handler_of_noTry ht.noTry hap hpt
        · obtain rfl : p = a + t.size := by omega
          exact hi.handler
      · cases h₁
        exact absurd hq₁.1 (Nat.not_le.2 hp)
    · refine .of_part (ih nest _ (.of_lay hlu) ⟨Nat.not_lt.1 hp, ?_⟩) .thenOnly
        (fun q₂ h₂ _ => ?_) (by rintro _ ⟨⟩)
      · simp only [stop]
        omega
      · cases h₂
        rfl
  | @ifElse Γ Γ' Γ'' loc c body orelse s t u hne hs _ _ iht ihu =>
    rintro nest a hq ⟨hap, hpb⟩
    obtain ⟨lt, b, hl⟩ := hq.lay
    have hpb : p < a + (s.size + (t.size + u.size + 2)) := hpb
    cases hl with
    | seq hls hlc =>
    obtain rfl := hls.stop_eq
    cases hlc with
    | cond hi hlt hj hlu =>
    obtain rfl := hlt.stop_eq
    by_cases hpt : a + s.size + 1 ≤ p ∧ p < a + s.size + 1 + t.size
    · refine .of_part (iht nest _ (.of_lay hlt) hpt) .thenBranch (fun q₂ h₂ hq₂ => ?_)
        (by rintro _ ⟨⟩)
      cases h₂ with
      | thenBranch => rfl
      | elseBranch =>
        have : a + s.size + 1 + t.size + 1 ≤ p := hq₂.1
        omega
    by_cases hpu : a + s.size + 1 + t.size + 1 ≤ p
    · refine .of_part (ihu nest _ (.of_lay hlu) ⟨hpu, ?_⟩) .elseBranch (fun q₂ h₂ hq₂ => ?_)
        (by rintro _ ⟨⟩)
      · simp only [stop]
        omega
      · cases h₂ with
        | thenBranch =>
          have : p < a + s.size + 1 + t.size := hq₂.2
          omega
        | elseBranch => rfl
    · refine .alone ?_ (fun q₁ h₁ hq₁ => ?_) (by rintro _ ⟨⟩)
      · by_cases hps : p < a + s.size
        · exact hls.handler_of_noTry hs.noTry hap hps
        by_cases hpi : p = a + s.size
        · subst hpi
          exact hi.handler
        · obtain rfl : p = a + s.size + 1 + t.size := by omega
          exact hj.handler
      · cases h₁ with
        | thenBranch => exact hpt hq₁
        | elseBranch => exact hpu hq₁.1
  | @whileStmt Γ Γ' loc c body t u ht _ ih =>
    rintro nest a hq ⟨hap, hpb⟩
    obtain ⟨lt, b, hl⟩ := hq.lay
    have hpb : p < a + (t.size + u.size + 0 + 2) := hpb
    cases hl with
    | loop hlt hi hlu hls hj =>
    obtain rfl := hlt.stop_eq
    obtain rfl := hlu.stop_eq
    obtain rfl := hls.stop_eq
    by_cases hpu : a + t.size + 1 ≤ p ∧ p < a + t.size + 1 + u.size
    · refine .of_part (ih nest _ (.of_lay hlu) hpu) .whileBody (fun q₂ h₂ _ => ?_) (by rintro _ ⟨⟩)
      cases h₂
      rfl
    · refine .alone ?_ (fun q₁ h₁ hq₁ => ?_) (by rintro _ ⟨⟩)
      · by_cases hpt : p < a + t.size
        · exact hlt.handler_of_noTry ht.noTry hap hpt
        by_cases hpi : p = a + t.size
        · subst hpi
          exact hi.handler
        · have hsize : Tree.nil.size = 0 := rfl
          obtain rfl : p = a + t.size + 1 + u.size + Tree.nil.size := by omega
          exact hj.handler
      · cases h₁
        exact hpu hq₁
  | @forStmt Γ Γ' loc type name target body d t u ht _ ih =>
    rintro nest a hq ⟨hap, hpb⟩
    obtain ⟨lt, b, hl⟩ := hq.lay
    have hhead : (t.seq (.atoms loc (forHeaderAtoms Γ.length))).noTry = true := by
      simp [Tree.noTry, ht.noTry]
    generalize t.seq (.atoms loc (forHeaderAtoms Γ.length)) = s at hl hpb hhead ⊢
    have htest := Tree.noTry_atoms loc (forTestAtoms Γ.length)
    have hitem := Tree.noTry_atoms loc (forItemAtoms Γ.length)
    have hstep := Tree.noTry_atoms loc (forStepAtoms Γ.length)
    generalize Tree.atoms loc (forTestAtoms Γ.length) = v at hl hpb htest ⊢
    generalize Tree.atoms loc (forItemAtoms Γ.length) = w at hl hpb hitem ⊢
    generalize Tree.atoms loc (forStepAtoms Γ.length) = x at hl hpb hstep ⊢
    have hpb : p < a + (s.size + (v.size + (w.size + u.size) + x.size + 2)) := hpb
    cases hl with
    | seq hls hll =>
    obtain rfl := hls.stop_eq
    cases hll with
    | loop hlv hi hlb hlx hj =>
    obtain rfl := hlv.stop_eq
    cases hlb with
    | seq hlw hlu =>
    obtain rfl := hlw.stop_eq
    obtain rfl := hlu.stop_eq
    obtain rfl := hlx.stop_eq
    by_cases hpu : a + s.size + v.size + 1 + w.size ≤ p ∧
        p < a + s.size + v.size + 1 + w.size + u.size
    · refine .of_part (ih nest _ (.of_lay hlu) hpu) .forBody (fun q₂ h₂ _ => ?_) (by rintro _ ⟨⟩)
      cases h₂
      rfl
    · refine .alone ?_ (fun q₁ h₁ hq₁ => ?_) (by rintro _ ⟨⟩)
      · by_cases hps : p < a + s.size
        · exact hls.handler_of_noTry hhead hap hps
        by_cases hpv : p < a + s.size + v.size
        · exact hlv.handler_of_noTry htest (Nat.not_lt.1 hps) hpv
        by_cases hpi : p = a + s.size + v.size
        · subst hpi
          exact hi.handler
        by_cases hpw : p < a + s.size + v.size + 1 + w.size
        · exact hlw.handler_of_noTry hitem (by omega) hpw
        by_cases hpx : p < a + s.size + v.size + 1 + w.size + u.size + x.size
        · exact hlx.handler_of_noTry hstep (by omega) hpx
        · obtain rfl : p = a + s.size + v.size + 1 + w.size + u.size + x.size := by omega
          exact hj.handler
      · cases h₁
        exact hpu hq₁
  | @tryNamed Γ Γ' Γ'' loc body name orelse d t u _ _ iht ihu =>
    exact fun nest a hq hp => hq.handled_try hp iht ihu
  | @tryBare Γ Γ' Γ'' loc body orelse t u _ _ iht ihu =>
    exact fun nest a hq hp => hq.handled_try hp iht ihu
  | @stmtsCons Γ Γ' Γ'' s ss t u _ _ iht ihu =>
    rintro nest a hq ⟨hap, hpb⟩
    obtain ⟨lt, b, hl⟩ := hq.lay
    have hpb : p < a + (t.size + u.size) := hpb
    cases hl with
    | seq hlt hlu =>
    obtain rfl := hlt.stop_eq
    by_cases hp : p < a + t.size
    · refine .of_part (iht nest _ (.of_lay hlt) ⟨hap, hp⟩) .head (fun q₂ h₂ hq₂ => ?_)
        (by rintro _ ⟨⟩)
      cases h₂ with
      | head => rfl
      | tail => exact absurd hq₂.1 (Nat.not_le.2 hp)
    · refine .of_part (ihu nest _ (.of_lay hlu) ⟨Nat.not_lt.1 hp, ?_⟩) .tail
        (fun q₂ h₂ hq₂ => ?_) (by rintro _ ⟨⟩)
      · simp only [stop]
        omega
      · cases h₂ with
        | head => exact absurd hq₂.2 hp
        | tail => rfl

/-! ### Whole bodies -/

theorem noTry_of_guards {gs : List Guard} (h : GuardsTree X N P Γ gs t) : t.noTry = true := by
  induction h with
  | nil => rfl
  | cons ht hu _ ih => simp [Tree.noTry, ht.noTry, hu.noTry, ih]

/-- The block of a body stands between code without a `try`. -/
theorem Root.around {b : Body} {root : Piece} (h : Root b t root) (ht : BodyTree X N P b t) :
    (∃ v, t = .seq root.tree v ∧ root.first = 0 ∧ v.noTry = true) ∨
      ∃ s v, t = .seq s (.seq root.tree v) ∧ root.first = s.size ∧ s.noTry = true ∧
        v.noTry = true := by
  cases h with
  | function =>
    cases ht with
    | function => exact .inl ⟨_, rfl, rfl, rfl⟩
  | method =>
    cases ht with
    | method => exact .inl ⟨_, rfl, rfl, rfl⟩
  | ctor hb =>
    cases ht with
    | ctor => exact .inr ⟨_, _, rfl, rfl, Tree.noTry_atoms _ _, rfl⟩
    | ctorFields hb' => exact absurd (hb.symm.trans hb') nofun
  | route =>
    cases ht with
    | route hg => exact .inr ⟨_, _, rfl, rfl, noTry_of_guards hg, rfl⟩
  | errorHandler =>
    cases ht with
    | errorHandler => exact .inl ⟨_, rfl, rfl, rfl⟩

/-- The block of a body is the source of its code. -/
theorem Root.source {b : Body} {root : Piece} (h : Root b t root) (ht : BodyTree X N P b t) :
    ∃ Γ Γ', StmtTree X N P Γ root.item root.tree Γ' := by
  cases h with
  | ctor hb =>
    cases ht with
    | ctor hb' ht =>
      obtain rfl := Option.some.inj (hb.symm.trans hb')
      exact ⟨_, _, ht⟩
    | ctorFields hb' => exact absurd (hb.symm.trans hb') nofun
  | _ => cases ht with
    | _ => exact ⟨_, _, ‹_›⟩

/-- The table of a chunk finds the innermost `try` of its block. -/
theorem Root.handled {b : Body} {root : Piece} {n : ℕ} (h : Root b t root)
    (ht : BodyTree X N P b t) (hl : Lay K none [] t 0 n) (hp : p < n) : Handled K [] root p := by
  by_cases hroot : root.Holds p
  · obtain ⟨Γ, Γ', hs⟩ := h.source ht
    exact handled_of_source hs [] root.first (h.placed hl) hroot
  -- outside of the block there is no `try`
  refine .inr ⟨?_, fun q r hw hc hr => hroot (hw.holds hc hr)⟩
  rcases h.around ht with ⟨v, rfl, hfirst, hv⟩ | ⟨s, v, rfl, hfirst, hs, hv⟩
  · cases hl with
    | seq hlt hlv =>
    obtain rfl := hlt.stop_eq
    refine hlv.handler_of_noTry hv (Nat.not_lt.1 fun hlt => hroot ⟨?_, ?_⟩) hp
    · omega
    · rwa [stop, hfirst]
  · cases hl with
    | seq hls hlr =>
    obtain rfl := hls.stop_eq
    cases hlr with
    | seq hlt hlv =>
    obtain rfl := hlt.stop_eq
    by_cases hps : p < 0 + s.size
    · exact hls.handler_of_noTry hs (Nat.zero_le p) hps
    · refine hlv.handler_of_noTry hv (Nat.not_lt.1 fun hlt => hroot ⟨?_, ?_⟩) hp
      · omega
      · rw [stop, hfirst]
        omega

end Statements

end Piece

/-! ## What catches an error -/

/-- The code of the body `b` in a chunk of a module. -/
def Module.Code (M : Module) (c : Chunk) (b : Body) (t : Tree) : Prop :=
  ∃ K, K.chunk = c ∧ M.Emits b K ∧ BodyTree K.emitter K.notes K.plantillas b t ∧
    Lay K none [] t 0 c.code.length

/-- An error at the place `p` is inside of a `try` of the source, and `r` is the innermost one. -/
def Module.CaughtBy (M : Module) (c : Chunk) (p : ℕ) (r : TryRange) : Prop :=
  ∃ b t root q, M.Code c b t ∧ Piece.Root b t root ∧ root.Innermost p q r

/-- An error at the place `p` is inside of no `try` of the source. -/
def Module.Uncaught (M : Module) (c : Chunk) (p : ℕ) : Prop :=
  ∃ b t, M.Code c b t ∧ ∀ root q r, Piece.Root b t root → root.Within q → q.Catches r →
    ¬ r.Covers p

section Tables

variable {X : Emitter} {N : List Note} {P : List Plantilla} {M : Module} {c : Chunk} {b : Body}
  {t : Tree} {p : ℕ} {r : TryRange}

theorem Piece.Part.sizeOf_lt {q q' : Piece} (h : q.Part q') : sizeOf q'.tree < sizeOf q.tree := by
  cases h <;> simp only [Tree.seq.sizeOf_spec, Tree.cond.sizeOf_spec, Tree.when.sizeOf_spec,
    Tree.loop.sizeOf_spec, Tree.tryCatch.sizeOf_spec] <;> omega

theorem Piece.Within.eq_or_sizeOf_lt {q q' : Piece} (h : q.Within q') :
    q' = q ∨ sizeOf q'.tree < sizeOf q.tree := by
  induction h with
  | refl => exact .inl rfl
  | part _ hp ih =>
    have hlt := hp.sizeOf_lt
    rcases ih with rfl | ih
    · exact .inr hlt
    · exact .inr (hlt.trans ih)

/-- There is only one innermost `try`. -/
theorem Piece.Innermost.unique {root q q' : Piece} {r r' : TryRange} (h : root.Innermost p q r)
    (h' : root.Innermost p q' r') : r = r' := by
  have hinto := h.least q' r' h'.within h'.catches h'.covers
  have hinto' := h'.least q r h.within h.catches h.covers
  have hq : q = q' := by
    rcases hinto.eq_or_sizeOf_lt with heq | hlt
    · exact heq
    rcases hinto'.eq_or_sizeOf_lt with heq | hlt'
    · exact heq.symm
    · exact absurd (hlt.trans hlt') (lt_irrefl _)
  subst hq
  have hc := h.catches
  have hc' := h'.catches
  cases hc
  cases hc'
  rfl

/-- A body has a block, or no `try`. -/
theorem BodyTree.root (h : BodyTree X N P b t) : (∃ root, Piece.Root b t root) ∨ t.noTry = true := by
  cases h with
  | function => exact .inl ⟨_, .function⟩
  | method => exact .inl ⟨_, .method⟩
  | ctor hb => exact .inl ⟨_, .ctor hb⟩
  | ctorFields => exact .inr (by simp [Tree.noTry])
  | condition ht => exact .inr (by simp [Tree.noTry, ht.noTry])
  | route => exact .inl ⟨_, .route⟩
  | errorHandler => exact .inl ⟨_, .errorHandler⟩

/-- The code of a block is in that of its body. -/
theorem Piece.Root.stop_le {root : Piece} (h : Piece.Root b t root) : root.stop ≤ t.size := by
  cases h <;> simp only [Piece.stop, Tree.size] <;> omega

/-- What the source catches, the table of ranges does. -/
theorem Module.CaughtBy.handler (h : M.CaughtBy c p r) : findHandler c.tryRanges p = some r := by
  obtain ⟨b, t, root, q, ⟨K, rfl, -, ht, hl⟩, hroot, hi⟩ := h
  have hp : p < K.chunk.code.length := by
    have hholds := (hi.within.holds hi.catches hi.covers).2
    have hstop := hroot.stop_le
    have hlen := hl.stop_eq
    omega
  rcases hroot.handled ht hl hp with ⟨q', r', hi', hr'⟩ | ⟨-, hnone⟩
  · rw [hi.unique hi', hr']
  · exact absurd hi.covers (hnone q r hi.within hi.catches)

/-- And what it does not catch, neither does the table. -/
theorem Module.Uncaught.handler (h : M.Uncaught c p) (hp : p < c.code.length) :
    findHandler c.tryRanges p = none := by
  obtain ⟨b, t, ⟨K, rfl, -, ht, hl⟩, hnone⟩ := h
  rcases ht.root with ⟨root, hroot⟩ | hno
  · rcases hroot.handled ht hl hp with ⟨q, r, hi, -⟩ | ⟨hr, -⟩
    · exact absurd hi.covers (hnone root q r hroot hi.within hi.catches)
    · exact hr
  · exact hl.handler_of_noTry hno (Nat.zero_le p) hp

/-- Each place of a chunk is inside of a `try`, or of none. -/
theorem Module.Code.caught_or_uncaught (h : M.Code c b t) (hp : p < c.code.length) :
    (∃ r, M.CaughtBy c p r) ∨ M.Uncaught c p := by
  have hcode := h
  obtain ⟨K, rfl, -, ht, hl⟩ := h
  rcases ht.root with ⟨root, hroot⟩ | hno
  · rcases hroot.handled ht hl hp with ⟨q, r, hi, -⟩ | ⟨-, hnone⟩
    · exact .inl ⟨r, b, t, root, q, hcode, hroot, hi⟩
    · by_cases hc : ∃ r, M.CaughtBy K.chunk p r
      · exact .inl hc
      · refine .inr ⟨b, t, hcode, fun root' q r hroot' hw hq hr => ?_⟩
        rcases hroot'.handled ht hl hp with ⟨q', r', hi', -⟩ | ⟨-, hnone'⟩
        · exact hc ⟨r', b, t, root', q', hcode, hroot', hi'⟩
        · exact hnone' q r hw hq hr
  · refine .inr ⟨b, t, hcode, fun root q r hroot hw hq hr => ?_⟩
    rcases hroot.handled ht hl hp with ⟨q', r', hi, hsome⟩ | ⟨-, hnone⟩
    · rw [hl.handler_of_noTry hno (Nat.zero_le p) hp] at hsome
      cases hsome
    · exact hnone q r hw hq hr

end Tables

/-! ## Leaving frames -/

/-- The handler `r` of the frame `g` begins with the error of `vm`: the frames above `g` are gone
    with their locals and operands, and its own locals are those that it had. -/
structure Vm.Catches (vm : Vm) (message : String) (g : Frame) (rest : List Frame) (r : TryRange)
    (vm' : Vm) : Prop where
  status : vm'.status = .running
  frames : vm'.frames = { g with pc := r.catchPc } :: rest
  locals : vm'.locals = vm.locals.take (g.localsBase + g.chunk.numLocals)
  stack : ∃ below, vm'.stack = (errorValue message vm.world.heap).1 :: below ∧
    below.length = g.stackBase
  world : vm'.world = { vm.world with heap := (errorValue message vm.world.heap).2 }

section Unwinding

variable {C : Chunk → Prop} {M : Module} {δ : Chunk → ℕ → ℕ} {E : Env} {vm vm' : Vm} {g : Frame}
  {dropped rest : List Frame} {r : TryRange} {message : String} {loc : SourceLoc} {n m : ℕ}

/-- The locals of a frame that waits are below `n`. -/
theorem Waiting.locals_le (h : Waiting C (dropped ++ g :: rest) n) :
    g.localsBase + g.chunk.numLocals ≤ n := by
  induction dropped generalizing n with
  | nil =>
    cases h
    exact le_rfl
  | cons f dropped ih =>
    cases h with
    | cons _ _ _ _ h => exact (ih h).trans (Nat.le_add_right _ _)

/-- And so are its operands. -/
theorem Operands.base_le (h : Operands δ (dropped ++ g :: rest) n)
    (hw : Waiting C (dropped ++ g :: rest) m) (hδ : AllDisciplined M C δ) : g.stackBase ≤ n := by
  induction dropped generalizing n m with
  | nil =>
    have hone := hw.result hδ
    cases h with
    | cons hd _ => omega
  | cons f dropped ih =>
    have hone := hw.result hδ
    cases h with
    | cons hd h =>
    cases hw with
    | cons _ _ _ _ hw =>
      have hle := ih h hw
      omega

theorem resizeLocals_of_le {locals : List Value} (h : n ≤ locals.length) :
    resizeLocals n locals = locals.take n := by
  rw [resizeLocals, Nat.sub_eq_zero_of_le h, List.replicate_zero, List.append_nil]

theorem resizeStack_of_le {stack : List Value} (h : n ≤ stack.length) :
    resizeStack n stack = stack.drop (stack.length - n) := by
  rw [resizeStack, Nat.sub_eq_zero_of_le h, List.replicate_zero, List.nil_append]

/-- A frame that does not catch the error is left. -/
theorem Vm.tick_dropFrame {f : Frame} (hst : vm.status = .raising message loc)
    (hframes : vm.frames = f :: rest)
    (hf : findHandler f.chunk.tryRanges (f.pc - 1) = none) :
    vm.tick E = .ok (vm.dropFrame f rest) := by
  simp only [Vm.tick, hst, hframes, hf]

/-- A frame that catches the error goes on with its handler. -/
theorem Vm.tick_enterCatch (hst : vm.status = .raising message loc)
    (hframes : vm.frames = g :: rest)
    (hg : findHandler g.chunk.tryRanges (g.pc - 1) = some r) :
    vm.tick E = .ok (vm.enterCatch g rest r message) := by
  simp only [Vm.tick, hst, hframes, hg]

theorem Vm.moves_tick {ms : List Move} (h : vm.tick E = .ok vm') :
    vm.moves E (.tick :: ms) = vm'.moves E ms := by
  simp only [Vm.moves, Vm.move, h, bind, Except.bind]

/-- **An error leaves the frames that do not catch it**, up to the first one that does. -/
theorem Vm.Framed.caught (hf : vm.Framed C) (hC : CallClosed E C)
    (hst : vm.status = .raising message loc) (hframes : vm.frames = dropped ++ g :: rest)
    (hdropped : ∀ f ∈ dropped, findHandler f.chunk.tryRanges (f.pc - 1) = none)
    (hg : findHandler g.chunk.tryRanges (g.pc - 1) = some r) :
    ∃ vm', vm.moves E (List.replicate (dropped.length + 1) .tick) = .ok vm' ∧
      vm.Catches message g rest r vm' ∧ ∀ M δ, AllDisciplined M C δ → vm.Standing δ →
        vm'.stack.tail = vm.stack.drop (vm.stack.length - g.stackBase) := by
  induction dropped generalizing vm with
  | nil =>
    have ht := Vm.tick_enterCatch (E := E) hst hframes hg
    obtain ⟨-, hl, -⟩ := hf.innermost g rest hframes
    refine ⟨_, Vm.moves_tick ht, ⟨rfl, rfl, ?_, ⟨_, rfl, length_resizeStack _ _⟩, rfl⟩, ?_⟩
    · rw [← hl, List.take_length]
      rfl
    · intro M δ _ hs
      exact resizeStack_of_le (hs.raising message loc hst g rest hframes)
  | cons f dropped ih =>
    obtain ⟨hnone, hdropped⟩ := List.forall_mem_cons.1 hdropped
    have ht := Vm.tick_dropFrame (E := E) hst hframes hnone
    obtain ⟨-, hl, hw⟩ := hf.innermost f _ hframes
    have hlocals : resizeLocals f.localsBase vm.locals = vm.locals.take f.localsBase :=
      resizeLocals_of_le (by omega)
    obtain ⟨vm', hmoves, hcatch, hstack⟩ := ih (hf.tick hC ht) hst rfl hdropped
    refine ⟨vm', (Vm.moves_tick ht).trans hmoves, ⟨hcatch.status, hcatch.frames, ?_, hcatch.stack,
      hcatch.world⟩, ?_⟩
    · have hle := hw.locals_le
      rw [hcatch.locals]
      change (resizeLocals f.localsBase vm.locals).take _ = _
      rw [hlocals, List.take_take, Nat.min_eq_left hle]
    · intro M δ hδ hs
      rw [hstack M δ hδ (hs.tick hf hC hδ ht)]
      have hle := (hs.below f _ hframes).base_le hw hδ
      have hbase := hs.raising message loc hst f _ hframes
      change (resizeStack f.stackBase vm.stack).drop
        ((resizeStack f.stackBase vm.stack).length - g.stackBase) = _
      rw [length_resizeStack, resizeStack_of_le hbase, List.drop_drop]
      congr 1
      omega

/-- **An error that no frame catches** ends the run. -/
theorem Vm.Framed.escapes (hf : vm.Framed C) (hC : CallClosed E C)
    (hst : vm.status = .raising message loc)
    (hnone : ∀ f ∈ vm.frames, findHandler f.chunk.tryRanges (f.pc - 1) = none) :
    ∃ vm', vm.moves E (List.replicate (vm.frames.length + 1) .tick) = .ok vm' ∧
      vm'.status = .error message loc ∧ vm'.frames = [] ∧ vm'.world = vm.world := by
  generalize hframes : vm.frames = frames at hnone
  induction frames generalizing vm with
  | nil =>
    have ht : vm.tick E = .ok { vm with status := .error message loc } := by
      simp only [Vm.tick, hst, hframes]
    exact ⟨_, Vm.moves_tick ht, rfl, hframes, rfl⟩
  | cons f rest ih =>
    obtain ⟨hf₀, hrest⟩ := List.forall_mem_cons.1 hnone
    have ht := Vm.tick_dropFrame (E := E) hst hframes hf₀
    obtain ⟨vm', hmoves, hend⟩ := ih (hf.tick hC ht) hst rfl hrest
    exact ⟨vm', (Vm.moves_tick ht).trans hmoves, hend⟩

/-- Every frame of a raising machine has an instruction behind it. -/
theorem Vm.Framed.place (hf : vm.Framed C) (hst : vm.status = .raising message loc)
    {f : Frame} (hmem : f ∈ vm.frames) : C f.chunk ∧ f.pc - 1 < f.chunk.code.length := by
  cases hframes : vm.frames with
  | nil =>
    rw [hframes] at hmem
    cases hmem
  | cons f₀ rest =>
    obtain ⟨hc, -, hw⟩ := hf.innermost f₀ rest hframes
    rw [hframes] at hmem
    rcases List.mem_cons.1 hmem with rfl | hmem
    · obtain ⟨-, i, hi⟩ := hf.raised message loc hst f rest hframes
      exact ⟨hc, (List.getElem?_eq_some_iff.1 hi).1⟩
    · exact hw.mem hmem

end Unwinding

/-! ## Errors of a module -/

section Modules

variable {compilar : PlantillaCompiler} {fuel : ℕ} {p : Program} {M : Module} {b : Body}
  {K : Context}

theorem Module.Emits.code (hK : M.Emits b K) (h : Compiled p M) : ∃ t, M.Code K.chunk b t := by
  obtain ⟨-, t, ht, hl⟩ := hK.tree h
  exact ⟨t, K, rfl, hK, ht, hl⟩

/-- A chunk of a module is the code of a body. -/
theorem Compiled.code (h : Compiled p M) (hK : M.Emits b K) {c : Chunk}
    (hc : c ∈ K.chunk :: M.functions) : ∃ b t, M.Code c b t := by
  rcases List.mem_cons.1 hc with rfl | hmem
  · exact ⟨b, hK.code h⟩
  · obtain ⟨b', hK'⟩ := h.emits_function hmem
    exact ⟨b', hK'.code h⟩

theorem Module.callClosed (M : Module) (oracle : Oracle) (c : Chunk) :
    CallClosed (M.env oracle) (· ∈ c :: M.functions) := fun _ _ _ _ _ _ _ hc =>
  List.mem_cons_of_mem _ (List.mem_of_getElem? hc)

end Modules

/-! ### A function that fails in a `try` -/

/-- Natives that answer nothing. -/
def mudo : Oracle := fun w _ => ⟨.null, "", w.heap⟩

theorem Vm.Runs.trans {E : Env} {vm vm' vm'' : Vm} (h : Vm.Runs E vm vm')
    (h' : Vm.Runs E vm' vm'') : Vm.Runs E vm vm'' := by
  induction h' with
  | refl => exact h
  | tick _ w ht ih => exact ih.tick w ht
  | resume _ w hs awaited ih => exact ih.resume w hs awaited

/-- Turns of the machine alone are a run. -/
theorem Vm.Runs.of_ticks {E : Env} {n : ℕ} {vm vm' : Vm}
    (h : vm.moves E (List.replicate n .tick) = .ok vm') : Vm.Runs E vm vm' := by
  induction n generalizing vm with
  | zero =>
    cases h
    exact .refl
  | succ n ih =>
    cases ht : vm.tick E with
    | error fault => simp [List.replicate_succ, Vm.moves, Vm.move, ht, bind, Except.bind] at h
    | ok vm₁ =>
      rw [List.replicate_succ, Vm.moves_tick ht] at h
      exact (Vm.Runs.refl.tick vm.world ht).trans (ih h)

/-- The function `f` of `reintenta` has failed, in the `try` of its caller. -/
def Vm.failsInTry (vm : Vm) : Bool :=
  match vm.status, vm.frames with
  | .raising _ _, [f, g] =>
    (findHandler f.chunk.tryRanges (f.pc - 1)).isNone &&
      (findHandler g.chunk.tryRanges (g.pc - 1)).isSome
  | _, _ => false

theorem reintenta_fails : ∃ M c vm, compile (fun _ _ => .error "") 1 reintenta = .ok M ∧
    M.Emits (.route reintentaRoute)
      ⟨M.emitter (.route reintentaRoute), c, M.plantillas, M.notes⟩ ∧
    Vm.Runs (M.env mudo) (.start c [] {}) vm ∧ vm.failsInTry = true := by
  have hcompiles : ((compile (fun _ _ => .error "") 1 reintenta).toOption.any fun M =>
      M.chunks.length == 2 && M.chunks.tail.any fun c =>
        ((Vm.start c [] {}).moves (M.env mudo) (List.replicate 5 .tick)).toOption.any
          Vm.failsInTry) = true := by decide +kernel
  obtain ⟨M, hM, hcompiles⟩ := ok_of_any hcompiles
  obtain ⟨hlen, hruns⟩ := Bool.and_eq_true_iff.1 hcompiles
  obtain ⟨f, c, hc⟩ := List.length_eq_two.1 (eq_of_beq hlen)
  rw [hc, List.tail_cons, List.any_cons, List.any_nil, Bool.or_false] at hruns
  obtain ⟨vm, hvm, hfails⟩ := ok_of_any hruns
  refine ⟨M, c, vm, hM, .own ?_, .of_ticks hvm, hfails⟩
  rw [hc, (compile_spec hM).bodies]
  exact List.mem_cons_of_mem _ List.mem_cons_self

end Osodio.Odio
