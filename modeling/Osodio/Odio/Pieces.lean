import Osodio.Odio.Discipline

/-!
# The statements of a chunk

The code of a body is that of its statements, one within the other.  A piece of the source stands
at a place of the chunk together with its code, and so do its parts.

## Main definitions

- `Piece` — a statement, or a block, with its code at a place
- `Piece.Part`, `Piece.Within` — the parts of a piece, and what is inside of it
- `Piece.Root` — the block of a body
- `Piece.Catches` — a `try`, with the code of its body and its handler
- `Piece.Begun` — a piece that begins without operands

## Main results

- `Piece.Within.placed` — the code of what is inside of a piece stands at its place
- `Piece.Part.begun` — the parts of a piece that begins without operands do so too
- `Piece.Begun.depth` — a statement begins and ends without operands
- `Piece.Catches.depth` — the handler of a `try` begins with the error
-/

namespace Osodio.Odio

/-! ## Pieces -/

/-- A statement, or a block, with its code at the place `first`. -/
structure Piece where
  item : StmtItem
  tree : Tree
  first : ℕ

namespace Piece

/-- The place behind the code of a piece. -/
def stop (q : Piece) : ℕ := q.first + q.tree.size

/-- The parts of a piece: the statements of a block, and the blocks of a statement. -/
inductive Part : Piece → Piece → Prop where
  | head {s ss t u a} : Part ⟨.stmts (s :: ss), .seq t u, a⟩ ⟨.stmt s, t, a⟩
  | tail {s ss t u a} : Part ⟨.stmts (s :: ss), .seq t u, a⟩ ⟨.stmts ss, u, a + t.size⟩
  | thenOnly {loc c body t u l a} :
      Part ⟨.stmt (.ifStmt loc c body []), .seq t (.when u l), a⟩
        ⟨.stmts body, u, a + t.size + 1⟩
  | thenBranch {loc c body orelse s t u l a} :
      Part ⟨.stmt (.ifStmt loc c body orelse), .seq s (.cond t u l), a⟩
        ⟨.stmts body, t, a + s.size + 1⟩
  | elseBranch {loc c body orelse s t u l a} :
      Part ⟨.stmt (.ifStmt loc c body orelse), .seq s (.cond t u l), a⟩
        ⟨.stmts orelse, u, a + s.size + 1 + t.size + 1⟩
  | whileBody {loc c body t u v toHead l a} :
      Part ⟨.stmt (.whileStmt loc c body), .loop t u v toHead l, a⟩
        ⟨.stmts body, u, a + t.size + 1⟩
  /-- The items of a `for` are counted before its loop, and each becomes the variable in it. -/
  | forBody {loc type name target body s t i u v toHead l a} :
      Part ⟨.stmt (.forStmt loc type name target body), .seq s (.loop t (.seq i u) v toHead l), a⟩
        ⟨.stmts body, u, a + s.size + t.size + 1 + i.size⟩
  | tryBody {loc body name orelse t u l a} :
      Part ⟨.stmt (.tryStmt loc body name orelse), .tryCatch t u l, a⟩ ⟨.stmts body, t, a⟩
  /-- A handler begins by storing the error, or by dropping it. -/
  | tryHandler {loc body name orelse t u v l a} :
      Part ⟨.stmt (.tryStmt loc body name orelse), .tryCatch t (.seq u v) l, a⟩
        ⟨.stmts orelse, v, a + t.size + 1 + u.size⟩

/-- A `try` with the code of its body at `r`, and its handler behind it. -/
inductive Catches : Piece → TryRange → Prop where
  | mk {loc body name orelse t u l a} :
      Catches ⟨.stmt (.tryStmt loc body name orelse), .tryCatch t u l, a⟩
        ⟨a, a + t.size, a + t.size + 1⟩

/-- A piece inside of another one. -/
inductive Within (root : Piece) : Piece → Prop where
  | refl : Within root root
  | part {q q' : Piece} (h : Within root q) (hp : Part q q') : Within root q'

/-- The block of a body in the tree of the body, behind what comes before it. -/
inductive Root : Body → Tree → Piece → Prop where
  | function {fn t v} : Root (.function fn) (.seq t v) ⟨.stmts fn.body, t, 0⟩
  | method {cls m t v} : Root (.method cls m) (.seq t v) ⟨.stmts m.body, t, 0⟩
  | ctor {cls fields ct body s t v} (hb : ct.body = some body) :
      Root (.ctor cls fields ct) (.seq s (.seq t v)) ⟨.stmts body, t, s.size⟩
  | route {r g t v} : Root (.route r) (.seq g (.seq t v)) ⟨.stmts r.body, t, g.size⟩
  | errorHandler {d t v} : Root (.errorHandler d) (.seq t v) ⟨.stmts d.body, t, 0⟩

section Places

variable {K : Context} {nest : List TryRange} {q q' root : Piece}

/-- The code of a piece stands at its place, in the bodies of the `try` statements `nest`. -/
def Placed (K : Context) (nest : List TryRange) (q : Piece) : Prop :=
  ∃ lt, Lay K lt nest q.tree q.first q.stop

theorem Placed.of_lay {lt : Option (ℕ × ℕ)} {b : ℕ} (h : Lay K lt nest q.tree q.first b) :
    q.Placed K nest := by
  obtain rfl := h.stop_eq
  exact ⟨lt, h⟩

/-- The parts of a piece stand at their places: the body of a `try` inside of it, and all others
    where the piece itself stands. -/
theorem Part.placed (h : Part q q') (hq : q.Placed K nest) :
    q'.Placed K nest ∨ ∃ r, q.Catches r ∧ q'.Placed K (r :: nest) ∧
      q'.first = r.first ∧ q'.stop = r.stop := by
  obtain ⟨lt, hl⟩ := hq
  cases h with
  | head =>
    cases hl with
    | seq hlt hlu => exact .inl (.of_lay hlt)
  | tail =>
    cases hl with
    | seq hlt hlu =>
      obtain rfl := hlt.stop_eq
      exact .inl (.of_lay hlu)
  | thenOnly =>
    cases hl with
    | seq hlt hlw =>
      obtain rfl := hlt.stop_eq
      cases hlw with
      | when _ hlu => exact .inl (.of_lay hlu)
  | thenBranch =>
    cases hl with
    | seq hls hlc =>
      obtain rfl := hls.stop_eq
      cases hlc with
      | cond _ hlt _ _ => exact .inl (.of_lay hlt)
  | elseBranch =>
    cases hl with
    | seq hls hlc =>
      obtain rfl := hls.stop_eq
      cases hlc with
      | cond _ hlt _ hlu =>
        obtain rfl := hlt.stop_eq
        exact .inl (.of_lay hlu)
  | whileBody =>
    cases hl with
    | loop hlt _ hlu _ _ =>
      obtain rfl := hlt.stop_eq
      exact .inl (.of_lay hlu)
  | forBody =>
    cases hl with
    | seq hls hll =>
      obtain rfl := hls.stop_eq
      cases hll with
      | loop hlt _ hlb _ _ =>
        obtain rfl := hlt.stop_eq
        cases hlb with
        | seq hli hlu =>
          obtain rfl := hli.stop_eq
          exact .inl (.of_lay hlu)
  | tryBody =>
    cases hl with
    | tryCatch hlt _ _ =>
      obtain rfl := hlt.stop_eq
      exact .inr ⟨_, .mk, .of_lay hlt, rfl, rfl⟩
  | tryHandler =>
    cases hl with
    | tryCatch hlt _ hlh =>
      obtain rfl := hlt.stop_eq
      cases hlh with
      | seq hlu hlv =>
        obtain rfl := hlu.stop_eq
        exact .inl (.of_lay hlv)

theorem Within.placed (h : Within root q) (hq : root.Placed K nest) :
    ∃ nest', q.Placed K nest' := by
  induction h with
  | refl => exact ⟨nest, hq⟩
  | part _ hp ih =>
    obtain ⟨nest', hq'⟩ := ih
    rcases hp.placed hq' with h | ⟨r, -, h, -⟩
    · exact ⟨nest', h⟩
    · exact ⟨_, h⟩

/-- The code of the block of a body is in no `try`. -/
theorem Root.placed {b : Body} {t : Tree} {n : ℕ} (h : Root b t q)
    (hl : Lay K none [] t 0 n) : q.Placed K [] := by
  cases h with
  | function | method | errorHandler =>
    cases hl with
    | seq hlt _ => exact .of_lay hlt
  | ctor | route =>
    cases hl with
    | seq hls hlr =>
      obtain rfl := hls.stop_eq
      rw [Nat.zero_add] at hlr
      cases hlr with
      | seq hlt _ => exact .of_lay hlt

end Places

/-! ## Where a piece begins -/

section Shapes

variable {X : Emitter} {N : List Note} {P : List Plantilla} {σ : ℕ → Shape} {q q' root : Piece}

/-- A piece of the source that begins without operands, with the shapes of its code. -/
def Begun (X : Emitter) (N : List Note) (P : List Plantilla) (σ : ℕ → Shape) (q : Piece) : Prop :=
  ∃ Γ Γ' L s, StmtTree X N P Γ q.item q.tree Γ' ∧ Begins Γ L s ∧ Shaped σ q.tree q.first s

/-- **A statement begins and ends without operands.** -/
theorem Begun.depth (h : Begun X N P σ q) : (σ q.first).depth = 0 ∧ (σ q.stop).depth = 0 := by
  obtain ⟨Γ, Γ', L, s, ht, hb, hs⟩ := h
  exact ⟨hs.start.depth.trans hb.depth, hs.stop.depth.trans (ht.leads L s hb).depth⟩

/-- The handler of a `try` begins with the error. -/
theorem Catches.depth {r : TryRange} (h : q.Catches r) (hq : Begun X N P σ q) :
    (σ r.catchPc).depth = 1 := by
  obtain ⟨Γ, Γ', L, s, ht, hb, hs⟩ := hq
  cases h with
  | mk => exact (hs.tryCatch hb.depth (ht.leads L s hb).ok.2.2.2.2).2.2.start.depth

/-- **The parts of a piece that begins without operands do so too.** -/
theorem Part.begun (h : Part q q') (hq : Begun X N P σ q) : Begun X N P σ q' := by
  obtain ⟨Γ, Γ', L, s, ht, hb, hs⟩ := hq
  have hlead := ht.leads L s hb
  cases h with
  | head =>
    cases ht with
    | stmtsCons ht hu => exact ⟨_, _, L, s, ht, hb, hs.seq.1⟩
  | tail =>
    cases ht with
    | stmtsCons ht hu => exact ⟨_, _, L, _, hu, (ht.leads L s hb).begins hb, hs.seq.2⟩
  | thenOnly =>
    cases ht with
    | ifThen ht hu =>
      obtain ⟨-, hout, hslots, hloop⟩ := ht.begins hb
      have hbody := Begins.popped hout hslots hloop
      have hd := (hu.leads L _ hbody).depth.trans hbody.depth.symm
      exact ⟨_, _, L, _, hu, hbody, (hs.seq.2.when hd).2⟩
  | thenBranch =>
    cases ht with
    | ifElse hne hc ht hu =>
      obtain ⟨-, hout, hslots, hloop⟩ := hc.begins hb
      have hbody := Begins.popped hout hslots hloop
      have hd := (hu.leads L _ hbody).depth.trans (ht.leads L _ hbody).depth.symm
      exact ⟨_, _, L, _, ht, hbody, (hs.seq.2.cond hd).2.1⟩
  | elseBranch =>
    cases ht with
    | ifElse hne hc ht hu =>
      obtain ⟨-, hout, hslots, hloop⟩ := hc.begins hb
      have hbody := Begins.popped hout hslots hloop
      have hd := (hu.leads L _ hbody).depth.trans (ht.leads L _ hbody).depth.symm
      exact ⟨_, _, L, _, hu, hbody, (hs.seq.2.cond hd).2.2.2⟩
  | @whileBody loc c body t =>
    cases ht with
    | whileStmt ht hu =>
      obtain ⟨hd, -, -, -, hout, -, -⟩ := hlead.ok
      have hle := t.slots_le_out s
      refine ⟨_, _, some s.slots, ⟨0, (t.out s).slots⟩, hu,
        ⟨rfl, hb.slots.trans hle, fun n hn => ?_⟩, (hs.loop hd hout).2.2.1⟩
      cases hn
      exact hle
  | @forBody loc =>
    cases ht with
    | @forStmt _ _ _ type name target body d t u ht hu =>
      obtain ⟨-, hone, hslots, -⟩ := ht.begins hb
      obtain ⟨-, -, hn⟩ := forHeader_ok (l := loc) (L := L) hone hslots
      obtain ⟨-, hd, -, -, -, hout, -, -⟩ := hlead.ok
      have hbody := (hs.seq.2.loop hd hout).2.2.1.seq.2
      -- what the loop begins with is kept by its test and by the item
      have hr₃ : Γ.length + 3 ≤ ((t.seq (.atoms loc (forHeaderAtoms Γ.length))).out s).slots := hn
      generalize (t.seq (.atoms loc (forHeaderAtoms Γ.length))).out s = r at hbody hr₃
      have hle := (Tree.atoms loc (forTestAtoms Γ.length)).slots_le_out r
      have hle' := (Tree.atoms loc (forItemAtoms Γ.length)).slots_le_out
        ⟨0, ((Tree.atoms loc (forTestAtoms Γ.length)).out r).slots⟩
      obtain ⟨hitem, hstored⟩ := forItem_leaves loc Γ.length
      obtain ⟨-, hzero⟩ := hitem none ⟨0, ((Tree.atoms loc (forTestAtoms Γ.length)).out r).slots⟩
        (hr₃.trans hle)
      refine ⟨_, _, some r.slots, _, hu, ⟨hzero, hstored _, fun n hn => ?_⟩, hbody⟩
      cases hn
      exact hle.trans hle'
  | tryBody =>
    have hbody := (hs.tryCatch hb.depth hlead.ok.2.2.2.2).1
    cases ht with
    | tryNamed ht hu => exact ⟨_, _, L, s, ht, hb, hbody⟩
    | tryBare ht hu => exact ⟨_, _, L, s, ht, hb, hbody⟩
  | tryHandler =>
    have hhandler := (hs.tryCatch hb.depth hlead.ok.2.2.2.2).2.2.seq.2
    cases ht with
    | tryNamed ht hu =>
      exact ⟨_, _, L, _, hu, ⟨rfl, le_max_right _ _, fun n hn =>
        (hb.loop n hn).trans (le_max_left _ _)⟩, hhandler⟩
    | tryBare ht hu =>
      exact ⟨_, _, L, Atom.pop.out ⟨1, s.slots⟩, hu, ⟨rfl, hb.slots, hb.loop⟩, hhandler⟩

/-- The block of a body begins without operands, behind the guards or the instance. -/
theorem Root.begun {b : Body} {t : Tree} (h : Root b t q) (ht : BodyTree X N P b t)
    (hs : Shaped σ t 0 ⟨0, b.arity⟩) : Begun X N P σ q := by
  cases h with
  | @function fn =>
    cases ht with
    | function ht =>
      exact ⟨_, _, none, _, ht, ⟨rfl, (length_paramLocals fn.params).le, nofun⟩, hs.seq.1⟩
  | @method cls m =>
    cases ht with
    | method ht =>
      refine ⟨_, _, none, _, ht, ⟨rfl, ?_, nofun⟩, hs.seq.1⟩
      rw [List.length_append, length_paramLocals]
      exact le_rfl
  | @ctor cls fields ct body s t v hb =>
    have hbody := hs.seq.2.seq.1
    rw [Nat.zero_add] at hbody
    cases ht with
    | ctor hb' ht =>
      obtain rfl := Option.some.inj (hb.symm.trans hb')
      obtain ⟨-, hd, hslots⟩ := instance_ok (l := ct.loc) (L := none) fields ct.params.length
      exact ⟨_, _, none, _, ht, ⟨hd, (length_ctorLocals cls ct.params).trans_le hslots, nofun⟩,
        hbody⟩
    | ctorFields hb' _ => exact absurd (hb.symm.trans hb') nofun
  | @route r g t v =>
    have hbody := hs.seq.2.seq.1
    rw [Nat.zero_add] at hbody
    cases ht with
    | route hg ht =>
      have hlen := (length_paramLocals r.params).le
      obtain ⟨-, hout⟩ := hg.ok (s := ⟨0, r.params.length⟩) rfl hlen
      exact ⟨_, _, none, _, ht, ⟨hout, hlen.trans (g.slots_le_out ⟨0, r.params.length⟩), nofun⟩,
        hbody⟩
  | errorHandler =>
    cases ht with
    | errorHandler ht => exact ⟨_, _, none, _, ht, ⟨rfl, Nat.zero_le _, nofun⟩, hs.seq.1⟩

theorem Within.begun (h : Within root q) (hq : Begun X N P σ root) : Begun X N P σ q := by
  induction h with
  | refl => exact hq
  | part _ hp ih => exact hp.begun ih

end Shapes

end Piece

end Osodio.Odio
