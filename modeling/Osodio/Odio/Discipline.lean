import Osodio.Odio.Control
import Osodio.Odio.Shapes

/-!
# The discipline of emitted code

The shapes of a tree agree at every instruction of its layout: what an instruction leaves is what
the instruction it goes on to relies on, and so does the handler that takes its error.

## Main definitions

- `Instr.after`, `Instr.taken` — the shape after an instruction, and after its jump
- `Agrees` — an instruction agrees with the shapes around it
- `Shaped` — the shapes of a chunk are those of a tree laid out there

## Main results

- `Atom.Encodes.instr` — the instruction of an atom does to the shape what the atom does
- `Lay.agrees` — every instruction of a layout agrees with the shapes of its tree
-/

namespace Osodio.Odio

/-! ## One instruction -/

/-- The operands that must be there. -/
def Instr.needs (i : Instr) : ℕ := if i.op.peeks then 1 else i.pops

/-- An instruction stores the slots in their order, and loads none before it is stored. -/
def Instr.InOrder (i : Instr) (n : ℕ) : Prop :=
  match i.op with
  | .loadLocal => i.operand < n
  | .storeLocal => i.operand ≤ n
  | _ => True

/-- Control may come to the next instruction, after a call or an `await` too. -/
def Op.goesOn : Op → Bool
  | .jump | .ret | .retNull => false
  | _ => true

/-- The slots that are stored after an instruction. -/
def Instr.stored (i : Instr) (n : ℕ) : ℕ :=
  match i.op with
  | .storeLocal => max n (i.operand + 1)
  | _ => n

/-- The operands after an instruction that goes on.  What is awaited counts as its result. -/
def Instr.depthAfter (i : Instr) (depth : ℕ) : ℕ :=
  if i.op.peeks then depth - 1
  else depth - i.pops + if i.op = .callAsync then 1 else i.pushes

/-- The shape after an instruction that goes on. -/
def Instr.after (i : Instr) (s : Shape) : Shape := ⟨i.depthAfter s.depth, i.stored s.slots⟩

/-- The shape after its jump. -/
def Instr.taken (i : Instr) (s : Shape) : Shape := ⟨s.depth - i.pops, s.slots⟩

/-- The instruction `i` at `p` agrees with the shapes around it. -/
structure Agrees (c : Chunk) (σ : ℕ → Shape) (p : ℕ) (i : Instr) : Prop where
  needs : i.needs ≤ (σ p).depth
  order : i.InOrder (σ p).slots
  next : i.op.goesOn = true → (σ (p + 1)).Fits (i.after (σ p))
  jump : i.op.jumps = true → i.operand ≤ c.code.length ∧ (σ i.operand).Fits (i.taken (σ p))
  caught : ∀ r, findHandler c.tryRanges p = some r →
    r.catchPc ≤ c.code.length ∧ (σ r.catchPc).Fits ⟨1, (σ p).slots⟩

/-- What an instruction does to the shape, if it is that of the atom `a`. -/
structure Atom.Is (a : Atom) (i : Instr) : Prop where
  needs : i.needs = a.pops
  goesOn : i.op.goesOn = true
  jumps : i.op.jumps = false
  after : ∀ s, i.after s = a.out s
  order : ∀ n, a.InOrder n → i.InOrder n

/-- An operation on values is none of the instructions that have a rule of their own. -/
theorem Op.values {o : Op} (h : o.arity.isSome) (k : ℕ) (loc : SourceLoc) :
    (Atom.op o).Is ⟨o, k, loc⟩ := by
  cases o <;> first
    | exact absurd h (by decide)
    | exact ⟨rfl, rfl, rfl, fun _ => rfl, fun _ _ => trivial⟩

/-- **The instruction of an atom does to the shape what the atom does.** -/
theorem Atom.Encodes.instr {K : Context} {a : Atom} {k : ℕ} (h : a.Encodes K k)
    (hN : ∀ n, .operands n ∈ K.notes → n ≤ 255) (loc : SourceLoc) : a.Is ⟨a.code, k, loc⟩ := by
  -- the operand of a call is decoded to the number that it passes
  have hcall : ∀ {index argc : ℕ}, argc ≤ 255 → k = callOperand index argc → argcOf k = argc := by
    rintro index argc hle rfl
    exact argcOf_callOperand index hle
  cases a with
  | const v | pop | getMember name | setMember name =>
    exact ⟨rfl, rfl, rfl, fun _ => rfl, fun _ _ => trivial⟩
  | makeList n | makeDict n =>
    obtain rfl : k = n := h
    exact ⟨rfl, rfl, rfl, fun _ => rfl, fun _ _ => trivial⟩
  | loadLocal slot | storeLocal slot =>
    obtain ⟨rfl, -⟩ := h
    exact ⟨rfl, rfl, rfl, fun _ => rfl, fun _ hn => hn⟩
  | op o => exact Op.values h.2 k loc
  | callFunction index argc =>
    have hargc := hcall (hN _ h.2.2) h.1
    refine ⟨hargc, rfl, rfl, fun s => ?_, fun _ _ => trivial⟩
    change (⟨s.depth - argcOf k + 1, s.slots⟩ : Shape) = ⟨s.depth - argc + 1, s.slots⟩
    rw [hargc]
  | callMethod name argc =>
    obtain ⟨hle, -, j, hk, -⟩ := h
    have hargc := hcall hle hk
    refine ⟨congrArg (· + 1) hargc, rfl, rfl, fun s => ?_, fun _ _ => trivial⟩
    change (⟨s.depth - (argcOf k + 1) + 1, s.slots⟩ : Shape) = ⟨s.depth - (argc + 1) + 1, s.slots⟩
    rw [hargc]
  | callNative id argc | callAsync id argc =>
    have hargc := hcall h.2.2.1 h.1
    refine ⟨hargc, rfl, rfl, fun s => ?_, fun _ _ => trivial⟩
    change (⟨s.depth - argcOf k + 1, s.slots⟩ : Shape) = ⟨s.depth - argc + 1, s.slots⟩
    rw [hargc]

/-! ## Trees that are laid out -/

theorem Lay.stop_eq {K : Context} {lt : Option (ℕ × ℕ)} {nest : List TryRange} {t : Tree}
    {a b : ℕ} (h : Lay K lt nest t a b) : b = a + t.size := by
  induction h <;> simp only [Tree.size] <;> omega

/-- From `a` on, the shapes of a chunk are those of a tree that begins with `s`. -/
structure Shaped (σ : ℕ → Shape) (t : Tree) (a : ℕ) (s : Shape) : Prop where
  inside : ∀ k < t.size, σ (a + k) = t.shape s k
  stop : (σ (a + t.size)).Fits (t.out s)

namespace Shaped

variable {σ : ℕ → Shape} {t u : Tree} {a : ℕ} {s : Shape} {loc : SourceLoc}

theorem start (h : Shaped σ t a s) : (σ a).Fits s := by
  by_cases hpos : 0 < t.size
  · have ha := h.inside 0 hpos
    rw [Nat.add_zero, Tree.shape_zero hpos] at ha
    rw [ha]
    exact .refl s
  · have hzero : t.size = 0 := by omega
    have hstop := h.stop
    rwa [hzero, Nat.add_zero, Tree.out_of_size hzero] at hstop

/-- The first instruction of a tree has the shape that the tree begins with. -/
theorem first (h : Shaped σ t a s) (hpos : 0 < t.size) : σ a = s := by
  have ha := h.inside 0 hpos
  rwa [Nat.add_zero, Tree.shape_zero hpos] at ha

theorem seq (h : Shaped σ (.seq t u) a s) :
    Shaped σ t a s ∧ Shaped σ u (a + t.size) (t.out s) := by
  have hu : Shaped σ u (a + t.size) (t.out s) := by
    refine ⟨fun k hk => ?_, ?_⟩
    · have hk' := h.inside (t.size + k) (Nat.add_lt_add_left hk _)
      rw [Tree.shape, if_neg (by omega), Nat.add_sub_cancel_left] at hk'
      rwa [Nat.add_assoc]
    · have hstop := h.stop
      rwa [Tree.size, Tree.out, ← Nat.add_assoc] at hstop
  refine ⟨⟨fun k hk => ?_, hu.start⟩, hu⟩
  have hk' := h.inside k (Nat.lt_add_right _ hk)
  rwa [Tree.shape, if_pos hk] at hk'

theorem peek {op : LogOp} (h : Shaped σ (.peek op t loc) a s)
    (hd : (t.out s.popped).depth = s.depth) : σ a = s ∧ Shaped σ t (a + 1) s.popped := by
  refine ⟨h.first (Nat.succ_pos _), fun k hk => ?_, ?_⟩
  · have hk' := h.inside (k + 1) (Nat.succ_lt_succ hk)
    rw [Tree.shape, if_neg (Nat.succ_ne_zero k), Nat.add_sub_cancel] at hk'
    rwa [Nat.add_right_comm, Nat.add_assoc]
  · have hstop := h.stop
    rw [Tree.size, Tree.out] at hstop
    rw [Nat.add_right_comm, Nat.add_assoc]
    exact hstop.mono hd.symm (t.slots_le_out s.popped)

theorem when (h : Shaped σ (.when t loc) a s)
    (hd : (t.out s.popped).depth = s.popped.depth) : σ a = s ∧ Shaped σ t (a + 1) s.popped := by
  refine ⟨h.first (Nat.succ_pos _), fun k hk => ?_, ?_⟩
  · have hk' := h.inside (k + 1) (Nat.succ_lt_succ hk)
    rw [Tree.shape, if_neg (Nat.succ_ne_zero k), Nat.add_sub_cancel] at hk'
    rwa [Nat.add_right_comm, Nat.add_assoc]
  · have hstop := h.stop
    rw [Tree.size, Tree.out] at hstop
    rw [Nat.add_right_comm, Nat.add_assoc]
    exact hstop.mono hd.symm (t.slots_le_out s.popped)

theorem «unless» (h : Shaped σ (.unless t loc) a s)
    (hd : (t.out s.popped).depth = s.popped.depth) :
    σ a = s ∧ σ (a + 1) = s.popped ∧ Shaped σ t (a + 2) s.popped := by
  have hsize : (Tree.unless t loc).size = t.size + 2 := rfl
  have hpos : 0 < (Tree.unless t loc).size := Nat.succ_pos _
  refine ⟨h.first hpos, ?_, fun k hk => ?_, ?_⟩
  · have h₁ := h.inside 1 (by omega)
    rwa [Tree.shape, if_neg Nat.one_ne_zero, if_pos rfl] at h₁
  · have hk' := h.inside (k + 2) (by omega)
    rw [Tree.shape, if_neg (by omega), if_neg (by omega), Nat.add_sub_cancel] at hk'
    rwa [show a + 2 + k = a + (k + 2) by omega]
  · have hstop := h.stop
    rw [Tree.size, Tree.out] at hstop
    rw [show a + 2 + t.size = a + (t.size + 2) by omega]
    exact hstop.mono hd.symm (t.slots_le_out s.popped)

theorem cond (h : Shaped σ (.cond t u loc) a s)
    (hd : (u.out s.popped).depth = (t.out s.popped).depth) :
    σ a = s ∧ Shaped σ t (a + 1) s.popped ∧ σ (a + 1 + t.size) = t.out s.popped ∧
      Shaped σ u (a + 1 + t.size + 1) s.popped := by
  have hsize : (Tree.cond t u loc).size = t.size + u.size + 2 := rfl
  have hpos : 0 < (Tree.cond t u loc).size := Nat.succ_pos _
  have hjump : σ (a + 1 + t.size) = t.out s.popped := by
    have hj := h.inside (t.size + 1) (by omega)
    rw [Tree.shape, if_neg (by omega), if_neg (by omega), if_pos rfl] at hj
    rwa [show a + 1 + t.size = a + (t.size + 1) by omega]
  refine ⟨h.first hpos, ⟨fun k hk => ?_, ?_⟩, hjump, fun k hk => ?_, ?_⟩
  · have hk' := h.inside (k + 1) (by omega)
    rw [Tree.shape, if_neg (by omega), if_pos (by omega), Nat.add_sub_cancel] at hk'
    rwa [Nat.add_right_comm, Nat.add_assoc]
  · rw [hjump]
    exact .refl _
  · have hk' := h.inside (t.size + 2 + k) (by omega)
    rw [Tree.shape, if_neg (by omega), if_neg (by omega), if_neg (by omega),
      Nat.add_sub_cancel_left] at hk'
    rwa [show a + 1 + t.size + 1 + k = a + (t.size + 2 + k) by omega]
  · have hstop := h.stop
    rw [Tree.size, Tree.out] at hstop
    rw [show a + 1 + t.size + 1 + u.size = a + (t.size + u.size + 2) by omega]
    exact hstop.mono hd.symm (u.slots_le_out s.popped)

theorem tryCatch {body handler : Tree} (h : Shaped σ (.tryCatch body handler loc) a s)
    (hd : s.depth = 0) (hh : (handler.out ⟨1, s.slots⟩).depth = 0) :
    Shaped σ body a s ∧ σ (a + body.size) = body.out s ∧
      Shaped σ handler (a + body.size + 1) ⟨1, s.slots⟩ := by
  have hsize : (Tree.tryCatch body handler loc).size = body.size + handler.size + 1 := rfl
  have hjump : σ (a + body.size) = body.out s := by
    have hj := h.inside body.size (by omega)
    rwa [Tree.shape, if_neg (lt_irrefl _), if_pos rfl] at hj
  refine ⟨⟨fun k hk => ?_, ?_⟩, hjump, fun k hk => ?_, ?_⟩
  · have hk' := h.inside k (by omega)
    rwa [Tree.shape, if_pos hk] at hk'
  · rw [hjump]
    exact .refl _
  · have hk' := h.inside (body.size + 1 + k) (by omega)
    rw [Tree.shape, if_neg (by omega), if_neg (by omega), Nat.add_sub_cancel_left] at hk'
    rwa [show a + body.size + 1 + k = a + (body.size + 1 + k) by omega]
  · have hstop := h.stop
    rw [Tree.size, Tree.out] at hstop
    rw [show a + body.size + 1 + handler.size = a + (body.size + handler.size + 1) by omega]
    exact hstop.mono (hd.trans hh.symm) (handler.slots_le_out ⟨1, s.slots⟩)

/-- The head, the test, the body, the step and the jump back of a loop. -/
theorem loop {head body step : Tree} {toHead : Bool}
    (h : Shaped σ (.loop head body step toHead loc) a s) (hd : s.depth = 0)
    (hb : (body.out ⟨0, (head.out s).slots⟩).depth = 0) :
    Shaped σ head a s ∧ σ (a + head.size) = head.out s ∧
      Shaped σ body (a + head.size + 1) ⟨0, (head.out s).slots⟩ ∧
      Shaped σ step (a + head.size + 1 + body.size) s ∧
      σ (a + head.size + 1 + body.size + step.size) = step.out s := by
  have hsize : (Tree.loop head body step toHead loc).size =
      head.size + body.size + step.size + 2 := rfl
  have htest : σ (a + head.size) = head.out s := by
    have hj := h.inside head.size (by omega)
    rwa [Tree.shape, if_neg (lt_irrefl _), if_pos rfl] at hj
  have hjump : σ (a + head.size + 1 + body.size + step.size) = step.out s := by
    have hj := h.inside (head.size + 1 + body.size + step.size) (by omega)
    rw [Tree.shape, if_neg (by omega), if_neg (by omega), if_neg (by omega),
      if_neg (by omega)] at hj
    rwa [show a + head.size + 1 + body.size + step.size =
      a + (head.size + 1 + body.size + step.size) by omega]
  have hstep : Shaped σ step (a + head.size + 1 + body.size) s := by
    refine ⟨fun k hk => ?_, ?_⟩
    · have hk' := h.inside (head.size + 1 + body.size + k) (by omega)
      rw [Tree.shape, if_neg (by omega), if_neg (by omega), if_neg (by omega), if_pos (by omega),
        Nat.add_sub_cancel_left] at hk'
      rwa [show a + head.size + 1 + body.size + k =
        a + (head.size + 1 + body.size + k) by omega]
    · rw [hjump]
      exact .refl _
  refine ⟨⟨fun k hk => ?_, ?_⟩, htest, ⟨fun k hk => ?_, ?_⟩, hstep, hjump⟩
  · have hk' := h.inside k (by omega)
    rwa [Tree.shape, if_pos hk] at hk'
  · rw [htest]
    exact .refl _
  · have hk' := h.inside (head.size + 1 + k) (by omega)
    rw [Tree.shape, if_neg (by omega), if_neg (by omega), if_pos (by omega),
      Nat.add_sub_cancel_left] at hk'
    rwa [show a + head.size + 1 + k = a + (head.size + 1 + k) by omega]
  · -- the step begins with the slots of the loop, which the body has kept
    exact hstep.start.mono (hd.trans hb.symm)
      ((head.slots_le_out s).trans (body.slots_le_out ⟨0, (head.out s).slots⟩))

end Shaped

/-! ## Layouts agree -/

/-- Where control may come to from a part of a layout, besides its end: the targets of `break` and
    `continue`, and the innermost handler.  `n` slots are stored where the part begins. -/
structure Around (c : Chunk) (σ : ℕ → Shape) (lt : Option (ℕ × ℕ)) (nest : List TryRange)
    (L : Option ℕ) (n : ℕ) : Prop where
  targets : ∀ brk cont, lt = some (brk, cont) → ∃ m, L = some m ∧
    (brk ≤ c.code.length ∧ (σ brk).Fits ⟨0, m⟩) ∧
    cont ≤ c.code.length ∧ (σ cont).Fits ⟨0, m⟩
  caught : ∀ r ∈ nest.head?, r.catchPc ≤ c.code.length ∧ (σ r.catchPc).Fits ⟨1, n⟩

section Layouts

variable {K : Context} {σ : ℕ → Shape} {lt : Option (ℕ × ℕ)} {nest : List TryRange}
  {L : Option ℕ} {t : Tree} {s : Shape} {a b p k n m : ℕ} {op : Op} {loc : SourceLoc} {i : Instr}

theorem Around.mono (h : Around K.chunk σ lt nest L n) (hle : n ≤ m) :
    Around K.chunk σ lt nest L m where
  targets := h.targets
  caught r hr := ⟨(h.caught r hr).1, (h.caught r hr).2.mono rfl hle⟩

/-- An instruction whose successors agree, where no less is stored than around it. -/
theorem InstrAt.agrees (hi : InstrAt K nest p op k loc)
    (ha : Around K.chunk σ lt nest L n) (hn : n ≤ (σ p).slots)
    (hneeds : Instr.needs ⟨op, k, loc⟩ ≤ (σ p).depth) (horder : Instr.InOrder ⟨op, k, loc⟩ (σ p).slots)
    (hnext : op.goesOn = true → (σ (p + 1)).Fits (Instr.after ⟨op, k, loc⟩ (σ p)))
    (hjump : op.jumps = true → k ≤ K.chunk.code.length ∧
      (σ k).Fits (Instr.taken ⟨op, k, loc⟩ (σ p)))
    (h : K.chunk.code[p]? = some i) : Agrees K.chunk σ p i := by
  obtain rfl := Option.some.inj (hi.code.symm.trans h)
  refine ⟨hneeds, horder, hnext, hjump, fun r hr => ?_⟩
  rw [hi.handler] at hr
  obtain ⟨hle, hfits⟩ := ha.caught r hr
  exact ⟨hle, hfits.mono rfl hn⟩

/-- A jump that leaves the operands as they are. -/
theorem InstrAt.agrees_jump (hi : InstrAt K nest p .jump k loc)
    (ha : Around K.chunk σ lt nest L n) (hn : n ≤ (σ p).slots) (hk : k ≤ K.chunk.code.length)
    (hfits : (σ k).Fits (σ p)) (h : K.chunk.code[p]? = some i) : Agrees K.chunk σ p i :=
  hi.agrees ha hn (Nat.zero_le _) trivial nofun (fun _ => ⟨hk, hfits⟩) h

/-- A jump on a condition. -/
theorem InstrAt.agrees_test (hi : InstrAt K nest p .jumpIfFalse k loc)
    (ha : Around K.chunk σ lt nest L n) (hn : n ≤ (σ p).slots) (hk : k ≤ K.chunk.code.length)
    (hd : 1 ≤ (σ p).depth) (hnext : (σ (p + 1)).Fits (σ p).popped)
    (hjump : (σ k).Fits (σ p).popped) (h : K.chunk.code[p]? = some i) : Agrees K.chunk σ p i :=
  hi.agrees ha hn hd trivial (fun _ => hnext) (fun _ => ⟨hk, hjump⟩) h

/-- **Every instruction of a layout agrees with the shapes of its tree.** -/
theorem Lay.agrees (hN : ∀ n, .operands n ∈ K.notes → n ≤ 255) (h : Lay K lt nest t a b) :
    ∀ {L s}, t.Ok L s → Shaped σ t a s → b ≤ K.chunk.code.length →
      Around K.chunk σ lt nest L s.slots → ∀ p i, a ≤ p → p < b →
      K.chunk.code[p]? = some i → Agrees K.chunk σ p i := by
  -- one case for each form of a tree; the part that holds `p` is found by comparing positions
  induction h with
  | nil => exact fun _ _ _ _ p i hp hlt => absurd hlt (Nat.not_lt.2 hp)
  | @atom lt nest a k t loc hi he =>
    intro L s hok hs hb ha p i hp hlt hcode
    obtain rfl : p = a := by omega
    have hσ := hs.first Nat.one_pos
    have hstop := hs.stop
    have his := he.instr hN loc
    refine hi.agrees ha (by rw [hσ]) ?_ ?_ (fun _ => ?_) (fun hj => ?_) hcode
    · rw [hσ]
      exact his.needs.trans_le hok.1
    · rw [hσ]
      exact his.order _ hok.2
    · rw [hσ, his.after]
      exact hstop
    · exact absurd (his.jumps.symm.trans hj) Bool.false_ne_true
  | @seq lt nest t u a b c ht hu iht ihu =>
    intro L s hok hs hb ha p i hp hlt hcode
    obtain ⟨hst, hsu⟩ := hs.seq
    obtain rfl := ht.stop_eq
    by_cases hpb : p < a + t.size
    · exact iht hok.1 hst (hu.le.trans hb) ha p i hp hpb hcode
    · exact ihu hok.2 hsu hb (ha.mono (t.slots_le_out s)) p i (by omega) hlt hcode
  | @ret lt nest a loc hi =>
    intro L s hok hs hb ha p i hp hlt hcode
    obtain rfl : p = a := by omega
    have hσ := hs.first Nat.one_pos
    refine hi.agrees ha (by rw [hσ]) ?_ trivial nofun nofun hcode
    rw [hσ]
    exact hok
  | @retNull lt nest a loc hi =>
    intro L s hok hs hb ha p i hp hlt hcode
    obtain rfl : p = a := by omega
    have hσ := hs.first Nat.one_pos
    exact hi.agrees ha (by rw [hσ]) (Nat.zero_le _) trivial nofun nofun hcode
  | @peek lt nest op t loc a b hi ht ih =>
    intro L s hok hs hb ha p i hp hlt hcode
    obtain ⟨hd, hokt, hout⟩ := hok
    obtain ⟨hσ, hst⟩ := hs.peek hout
    obtain rfl := ht.stop_eq
    by_cases hpa : p = a
    · subst hpa
      have hstop := hs.stop
      rw [Tree.size, ← Nat.add_assoc, Nat.add_right_comm] at hstop
      -- the left side is gone behind the test, and stays where it decides
      refine hi.agrees ha (by rw [hσ]) ?_ ?_ (fun _ => ?_) (fun _ => ⟨hb, ?_⟩) hcode
      · rw [hσ]
        cases op <;> exact hd
      · cases op <;> exact trivial
      · rw [hσ]
        cases op <;> exact hst.start
      · rw [hσ]
        cases op <;> exact hstop
    · exact ih hokt hst hb ha p i (by omega) hlt hcode
  | @cond lt nest t u loc a b c hi ht hj hu iht ihu =>
    intro L s hok hs hb ha p i hp hlt hcode
    obtain ⟨hd, hokt, hoku, hout⟩ := hok
    obtain ⟨hσ, hst, hσj, hsu⟩ := hs.cond hout
    obtain rfl := ht.stop_eq
    obtain rfl := hu.stop_eq
    have hle := t.slots_le_out s.popped
    by_cases hpa : p = a
    · subst hpa
      refine hi.agrees_test ha (by rw [hσ]) (by omega) (by rwa [hσ]) ?_ ?_ hcode
      · rw [hσ]
        exact hst.start
      · rw [hσ]
        exact hsu.start
    by_cases hpj : p = a + 1 + t.size
    · subst hpj
      have hstop := hs.stop
      rw [Tree.size, show a + (t.size + u.size + 2) = a + 1 + t.size + 1 + u.size by omega]
        at hstop
      refine hj.agrees_jump ha (by rwa [hσj]) hb ?_ hcode
      rw [hσj]
      exact hstop.mono rfl hle
    by_cases hpt : p < a + 1 + t.size
    · exact iht hokt hst (by omega) ha p i (by omega) hpt hcode
    · exact ihu hoku hsu hb ha p i (by omega) hlt hcode
  | @when lt nest t loc a b hi ht ih =>
    intro L s hok hs hb ha p i hp hlt hcode
    obtain ⟨hd, hokt, hout⟩ := hok
    obtain ⟨hσ, hst⟩ := hs.when hout
    obtain rfl := ht.stop_eq
    by_cases hpa : p = a
    · subst hpa
      have hstop := hs.stop
      rw [Tree.size, ← Nat.add_assoc, Nat.add_right_comm] at hstop
      refine hi.agrees_test ha (by rw [hσ]) hb (by rwa [hσ]) ?_ ?_ hcode
      · rw [hσ]
        exact hst.start
      · rw [hσ]
        exact hstop
    · exact ih hokt hst hb ha p i (by omega) hlt hcode
  | @«unless» lt nest t loc a b hi hj ht ih =>
    intro L s hok hs hb ha p i hp hlt hcode
    obtain ⟨hd, hokt, hout⟩ := hok
    obtain ⟨hσ, hσj, hst⟩ := hs.unless hout
    obtain rfl := ht.stop_eq
    have hstop := hs.stop
    rw [Tree.size, show a + (t.size + 2) = a + 2 + t.size by omega] at hstop
    by_cases hpa : p = a
    · subst hpa
      refine hi.agrees_test ha (by rw [hσ]) (by omega) (by rwa [hσ]) ?_ ?_ hcode
      · rw [hσ, hσj]
        exact .refl _
      · rw [hσ]
        exact hst.start
    by_cases hpj : p = a + 1
    · subst hpj
      refine hj.agrees_jump ha (by rw [hσj, Shape.popped_slots]) hb ?_ hcode
      rw [hσj]
      exact hstop
    · exact ih hokt hst hb ha p i (by omega) hlt hcode
  | @loop lt nest head body step toHead loc a b c d hh hi hbody hstep hj ihh ihb ihs =>
    intro L s hok hs hb ha p i hp hlt hcode
    obtain ⟨hd, hokh, houth, hokb, houtb, hoks, houts⟩ := hok
    obtain ⟨hsh, hσi, hsb, hss, hσj⟩ := hs.loop hd houtb
    obtain rfl := hh.stop_eq
    obtain rfl := hbody.stop_eq
    obtain rfl := hstep.stop_eq
    have hstop := hs.stop
    rw [Tree.size, show a + (head.size + body.size + step.size + 2) =
      a + head.size + 1 + body.size + step.size + 1 by omega] at hstop
    have hleh := head.slots_le_out s
    have hles := step.slots_le_out s
    -- `break` comes to the end of the loop, and `continue` to its head or to its step
    have hbreak : (σ (a + head.size + 1 + body.size + step.size + 1)).Fits ⟨0, s.slots⟩ :=
      hstop.mono hd le_rfl
    have hcont : (if toHead then a else a + head.size + 1 + body.size) ≤ K.chunk.code.length ∧
        (σ (if toHead then a else a + head.size + 1 + body.size)).Fits ⟨0, s.slots⟩ := by
      cases toHead with
      | true => exact ⟨by simp only [if_true]; omega, hsh.start.mono hd le_rfl⟩
      | false => exact ⟨by simp only [Bool.false_eq_true, if_false]; omega,
          hss.start.mono hd le_rfl⟩
    by_cases hph : p < a + head.size
    · exact ihh hokh hsh (by omega) ha p i hp hph hcode
    by_cases hpi : p = a + head.size
    · subst hpi
      refine hi.agrees_test ha (by rwa [hσi]) hb (by rw [hσi, houth]) ?_ ?_ hcode
      · rw [hσi]
        exact hsb.start.mono (by rw [Shape.popped_depth, houth]) le_rfl
      · rw [hσi]
        exact hstop.mono (by rw [Shape.popped_depth, houth]; exact hd) hleh
    by_cases hpb : p < a + head.size + 1 + body.size
    · refine ihb hokb hsb (by omega) ⟨?_, ?_⟩ p i (by omega) hpb hcode
      · rintro brk cont he
        cases he
        exact ⟨s.slots, rfl, ⟨hb, hbreak⟩, hcont⟩
      · exact (ha.mono hleh).caught
    by_cases hps : p < a + head.size + 1 + body.size + step.size
    · exact ihs hoks hss (by omega) ha p i (by omega) hps hcode
    · obtain rfl : p = a + head.size + 1 + body.size + step.size := by omega
      refine hj.agrees_jump ha (by rwa [hσj]) (by omega) ?_ hcode
      rw [hσj]
      exact hsh.start.mono (hd.trans houts.symm) hles
  | @brk nest brk cont loc a hi =>
    intro L s hok hs hb ha p i hp hlt hcode
    obtain rfl : p = a := by omega
    obtain ⟨hd, hL⟩ := hok
    have hσ := hs.first Nat.one_pos
    obtain ⟨m, hm, ⟨hle, hfits⟩, -⟩ := ha.targets brk cont rfl
    refine hi.agrees_jump ha (by rw [hσ]) hle ?_ hcode
    rw [hσ]
    exact hfits.mono hd.symm (hL m hm)
  | @cont nest brk cont loc a hi =>
    intro L s hok hs hb ha p i hp hlt hcode
    obtain rfl : p = a := by omega
    obtain ⟨hd, hL⟩ := hok
    have hσ := hs.first Nat.one_pos
    obtain ⟨m, hm, -, hle, hfits⟩ := ha.targets brk cont rfl
    refine hi.agrees_jump ha (by rw [hσ]) hle ?_ hcode
    rw [hσ]
    exact hfits.mono hd.symm (hL m hm)
  | @tryCatch lt nest body handler loc a b c hbody hj hh ihb ihh =>
    intro L s hok hs hb ha p i hp hlt hcode
    obtain ⟨hd, hokb, houtb, hokh, houth⟩ := hok
    obtain ⟨hsb, hσj, hsh⟩ := hs.tryCatch hd houth
    obtain rfl := hbody.stop_eq
    obtain rfl := hh.stop_eq
    have hstop := hs.stop
    rw [Tree.size, show a + (body.size + handler.size + 1) =
      a + body.size + 1 + handler.size by omega] at hstop
    have hle := body.slots_le_out s
    by_cases hpb : p < a + body.size
    · -- an error of the body comes to the handler
      refine ihb hokb hsb (by omega) ⟨ha.targets, fun r hr => ?_⟩ p i hp hpb hcode
      cases hr
      exact ⟨(by omega : a + body.size + 1 ≤ K.chunk.code.length), hsh.start⟩
    by_cases hpj : p = a + body.size
    · subst hpj
      refine hj.agrees_jump ha (by rwa [hσj]) hb ?_ hcode
      rw [hσj]
      exact hstop.mono (hd.trans houtb.symm) hle
    · exact ihh hokh hsh hb ha p i (by omega) hlt hcode

end Layouts

end Osodio.Odio
