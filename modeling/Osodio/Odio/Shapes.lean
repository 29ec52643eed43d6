import Osodio.Odio.Calls

/-!
# Operands and slots along a tree

A tree fixes, for each of its instructions, how many operands its frame has on the stack before it,
and how many of its slots have been stored by then.  Expressions leave their value and statements
leave nothing.

## Main definitions

- `Shape` — what is known before an instruction
- `Tree.size`, `Tree.out`, `Tree.shape` — the length of a tree, the shape after it, and the one
  before each of its instructions
- `Tree.Ok` — a tree takes no operand that is not there, and loads no slot before it is stored

## Main results

- `ExprTree.leaves` — the code of an expression leaves its values
- `StmtTree.leads` — the code of a statement begins and ends without operands
- `BodyTree.ok` — a whole body, from its parameters on
-/

namespace Osodio.Odio

/-! ## Shapes -/

/-- How many operands a frame has on the stack, and how many of its slots have been stored, which
    are the first ones. -/
structure Shape where
  depth : ℕ
  slots : ℕ
  deriving DecidableEq, Repr

/-- The operand on top is gone. -/
def Shape.popped (s : Shape) : Shape := ⟨s.depth - 1, s.slots⟩

@[simp] theorem Shape.popped_depth (s : Shape) : s.popped.depth = s.depth - 1 := rfl

@[simp] theorem Shape.popped_slots (s : Shape) : s.popped.slots = s.slots := rfl

/-- Control comes with the shape `s` to where `s'` is relied on. -/
structure Shape.Fits (s' s : Shape) : Prop where
  depth : s'.depth = s.depth
  slots : s'.slots ≤ s.slots

theorem Shape.Fits.refl (s : Shape) : s.Fits s := ⟨rfl, le_rfl⟩

theorem Shape.Fits.mono {s s₁ s₂ : Shape} (h : s.Fits s₁) (hd : s₁.depth = s₂.depth)
    (hs : s₁.slots ≤ s₂.slots) : s.Fits s₂ :=
  ⟨h.depth.trans hd, h.slots.trans hs⟩

/-! ## Atoms -/

/-- The operands that an atom takes. -/
def Atom.pops : Atom → ℕ
  | const _ | loadLocal _ => 0
  | storeLocal _ | pop | getMember _ => 1
  | op o => o.arity.getD 1
  | makeList n => n
  | makeDict n => n * 2
  | setMember _ => 2
  | callFunction _ argc | callNative _ argc | callAsync _ argc => argc
  | callMethod _ argc => argc + 1

/-- The operands that it leaves; a call counts with its result. -/
def Atom.pushes : Atom → ℕ
  | storeLocal _ | pop => 0
  | _ => 1

/-- The slots that are stored after it. -/
def Atom.stored : Atom → ℕ → ℕ
  | storeLocal k, n => max n (k + 1)
  | _, n => n

/-- An atom stores the slots in their order, and loads none before it is stored. -/
def Atom.InOrder : Atom → ℕ → Prop
  | loadLocal k, n => k < n
  | storeLocal k, n => k ≤ n
  | _, _ => True

def Atom.out (a : Atom) (s : Shape) : Shape :=
  ⟨s.depth - a.pops + a.pushes, a.stored s.slots⟩

@[simp] theorem Atom.out_depth (a : Atom) (s : Shape) :
    (a.out s).depth = s.depth - a.pops + a.pushes := rfl

@[simp] theorem Atom.out_slots (a : Atom) (s : Shape) : (a.out s).slots = a.stored s.slots := rfl

theorem Atom.le_stored (a : Atom) (n : ℕ) : n ≤ a.stored n := by
  cases a with
  | storeLocal k => exact le_max_left _ _
  | _ => exact le_rfl

/-! ## Trees -/

namespace Tree

/-- The number of its instructions. -/
def size : Tree → ℕ
  | nil => 0
  | atom _ _ | ret _ | retNull _ | brk _ | cont _ => 1
  | seq t u => t.size + u.size
  | peek _ t _ => t.size + 1
  | cond t u _ => t.size + u.size + 2
  | when t _ => t.size + 1
  | «unless» t _ => t.size + 2
  | loop head body step _ _ => head.size + body.size + step.size + 2
  | tryCatch body handler _ => body.size + handler.size + 1

/-- The shape after a tree.  Branches and loops forget the slots that were stored in them. -/
def out : Tree → Shape → Shape
  | nil, s | retNull _, s | brk _, s | cont _, s => s
  | atom a _, s => a.out s
  | seq t u, s => u.out (t.out s)
  | ret _, s => s.popped
  | peek _ _ _, s | loop _ _ _ _ _, s | tryCatch _ _ _, s => s
  | cond t _ _, s => ⟨(t.out s.popped).depth, s.slots⟩
  | when _ _, s | «unless» _ _, s => s.popped

/-- The shape before the instruction at an offset. -/
def shape : Tree → Shape → ℕ → Shape
  | seq t u, s, k => if k < t.size then t.shape s k else u.shape (t.out s) (k - t.size)
  | peek _ t _, s, k | when t _, s, k => if k = 0 then s else t.shape s.popped (k - 1)
  | cond t u _, s, k =>
    if k = 0 then s
    else if k < t.size + 1 then t.shape s.popped (k - 1)
    else if k = t.size + 1 then t.out s.popped
    else u.shape s.popped (k - (t.size + 2))
  | «unless» t _, s, k =>
    if k = 0 then s else if k = 1 then s.popped else t.shape s.popped (k - 2)
  | loop head body step _ _, s, k =>
    if k < head.size then head.shape s k
    else if k = head.size then head.out s
    else if k < head.size + 1 + body.size then
      body.shape ⟨0, (head.out s).slots⟩ (k - (head.size + 1))
    else if k < head.size + 1 + body.size + step.size then
      step.shape s (k - (head.size + 1 + body.size))
    else step.out s
  | tryCatch body handler _, s, k =>
    if k < body.size then body.shape s k
    else if k = body.size then body.out s
    else handler.shape ⟨1, s.slots⟩ (k - (body.size + 1))
  | _, s, _ => s

/-- A tree takes no operand that is not there, stores the slots in their order and loads none before
    it is stored, and its branches leave the same.  `L` has the slots that are stored where `break`
    and `continue` go to. -/
def Ok (L : Option ℕ) : Tree → Shape → Prop
  | nil, _ | retNull _, _ => True
  | atom a _, s => a.pops ≤ s.depth ∧ a.InOrder s.slots
  | seq t u, s => t.Ok L s ∧ u.Ok L (t.out s)
  | ret _, s => 1 ≤ s.depth
  | peek _ t _, s =>
    1 ≤ s.depth ∧ t.Ok L s.popped ∧ (t.out s.popped).depth = s.depth
  | cond t u _, s =>
    1 ≤ s.depth ∧ t.Ok L s.popped ∧ u.Ok L s.popped ∧
      (u.out s.popped).depth = (t.out s.popped).depth
  | when t _, s | «unless» t _, s =>
    1 ≤ s.depth ∧ t.Ok L s.popped ∧ (t.out s.popped).depth = s.popped.depth
  | loop head body step _ _, s =>
    s.depth = 0 ∧ head.Ok L s ∧ (head.out s).depth = 1 ∧
      body.Ok (some s.slots) ⟨0, (head.out s).slots⟩ ∧
      (body.out ⟨0, (head.out s).slots⟩).depth = 0 ∧
      step.Ok L s ∧ (step.out s).depth = 0
  | brk _, s | cont _, s => s.depth = 0 ∧ ∀ n ∈ L, n ≤ s.slots
  | tryCatch body handler _, s =>
    s.depth = 0 ∧ body.Ok L s ∧ (body.out s).depth = 0 ∧
      handler.Ok L ⟨1, s.slots⟩ ∧ (handler.out ⟨1, s.slots⟩).depth = 0

theorem slots_le_out (t : Tree) (s : Shape) : s.slots ≤ (t.out s).slots := by
  induction t generalizing s with
  | atom a loc => exact a.le_stored _
  | seq t u iht ihu => exact (iht s).trans (ihu _)
  | _ => exact le_rfl

/-- A tree without instructions does nothing. -/
theorem out_of_size {t : Tree} (h : t.size = 0) (s : Shape) : t.out s = s := by
  induction t generalizing s with
  | nil => rfl
  | seq t u iht ihu =>
    have hsum : t.size + u.size = 0 := h
    rw [out, iht (by omega), ihu (by omega)]
  | _ => simp [size] at h

theorem shape_zero {t : Tree} (h : 0 < t.size) (s : Shape) : t.shape s 0 = s := by
  induction t generalizing s with
  | nil => cases h
  | seq t u iht ihu =>
    rw [shape]
    by_cases ht : 0 < t.size
    · rw [if_pos ht, iht ht]
    · have ht₀ : t.size = 0 := by omega
      have hu : 0 < u.size := by
        have hsum : 0 < t.size + u.size := h
        omega
      rw [if_neg ht, ht₀, out_of_size ht₀, ihu hu]
  | loop head body step toHead loc ihh ihb ihs =>
    rw [shape]
    by_cases hh : 0 < head.size
    · rw [if_pos hh, ihh hh]
    · have hh₀ : head.size = 0 := by omega
      rw [if_neg hh, if_pos hh₀.symm, out_of_size hh₀]
  | tryCatch body handler loc ihb ihh =>
    rw [shape]
    by_cases hb : 0 < body.size
    · rw [if_pos hb, ihb hb]
    · have hb₀ : body.size = 0 := by omega
      rw [if_neg hb, if_pos hb₀.symm, out_of_size hb₀]
  | _ => simp [shape]

/-- The slots that were stored before a tree stay stored in it. -/
theorem slots_le_shape (t : Tree) (s : Shape) (k : ℕ) : s.slots ≤ (t.shape s k).slots := by
  induction t generalizing s k with
  | seq t u iht ihu =>
    rw [shape]
    split
    · exact iht s k
    · exact (t.slots_le_out s).trans (ihu _ _)
  | peek op t loc ih | when t loc ih =>
    rw [shape]
    split
    · exact le_rfl
    · exact ih s.popped _
  | cond t u loc iht ihu =>
    rw [shape]
    split
    · exact le_rfl
    split
    · exact iht s.popped _
    split
    · exact t.slots_le_out s.popped
    · exact ihu s.popped _
  | «unless» t loc ih =>
    rw [shape]
    split
    · exact le_rfl
    split
    · exact le_rfl
    · exact ih s.popped _
  | loop head body step toHead loc ihh ihb ihs =>
    rw [shape]
    split
    · exact ihh s k
    split
    · exact head.slots_le_out s
    split
    · exact (head.slots_le_out s).trans (ihb ⟨0, (head.out s).slots⟩ _)
    split
    · exact ihs s _
    · exact step.slots_le_out s
  | tryCatch body handler loc ihb ihh =>
    rw [shape]
    split
    · exact ihb s k
    split
    · exact body.slots_le_out s
    · exact ihh ⟨1, s.slots⟩ _
  | _ => exact le_rfl

end Tree

/-! ## Expressions -/

/-- A tree that leaves `k` operands, wherever the first `n` slots are stored. -/
def Tree.Leaves (n : ℕ) (t : Tree) (k : ℕ) : Prop :=
  ∀ L s, n ≤ s.slots → t.Ok L s ∧ (t.out s).depth = s.depth + k

section Leaves

variable {n k j : ℕ} {t u : Tree} {a : Atom} {l : SourceLoc}

theorem Tree.Leaves.nil : Tree.Leaves n .nil 0 := fun _ _ _ => ⟨trivial, rfl⟩

theorem Tree.Leaves.seq (ht : t.Leaves n j) (hu : u.Leaves n k) : (t.seq u).Leaves n (j + k) := by
  intro L s hs
  obtain ⟨hok, hout⟩ := ht L s hs
  obtain ⟨hok', hout'⟩ := hu L (t.out s) (hs.trans (t.slots_le_out s))
  refine ⟨⟨hok, hok'⟩, ?_⟩
  rw [Tree.out, hout', hout, Nat.add_assoc]

/-- An atom that takes what the tree before it leaves. -/
theorem Tree.Leaves.andThen (ht : t.Leaves n j) (hpops : a.pops ≤ j) (hslot : ∀ m, n ≤ m →
    a.InOrder m) : (t.andThen a l).Leaves n (j - a.pops + a.pushes) := by
  intro L s hs
  obtain ⟨hok, hout⟩ := ht L s hs
  refine ⟨⟨hok, by omega, hslot _ (hs.trans (t.slots_le_out s))⟩, ?_⟩
  change (t.out s).depth - a.pops + a.pushes = _
  omega

/-- An atom that takes nothing. -/
theorem Tree.Leaves.atom (hpops : a.pops = 0) (hslot : ∀ m, n ≤ m → a.InOrder m) :
    (Tree.atom a l).Leaves n a.pushes := by
  intro L s hs
  refine ⟨⟨by omega, hslot _ hs⟩, ?_⟩
  change s.depth - a.pops + a.pushes = _
  rw [hpops, Nat.sub_zero]

theorem Tree.Leaves.const (v : Value) : (Tree.atom (.const v) l).Leaves n 1 :=
  .atom rfl fun _ _ => trivial

theorem Tree.Leaves.load {slot : ℕ} (h : slot < n) :
    (Tree.atom (.loadLocal slot) l).Leaves n 1 :=
  .atom rfl fun _ hm => h.trans_le hm

theorem Tree.Leaves.assoc {v : Tree} (h : ((t.seq u).seq v).Leaves n k) :
    (t.seq (u.seq v)).Leaves n k := by
  intro L s hs
  obtain ⟨⟨⟨ht, hu⟩, hv⟩, hout⟩ := h L s hs
  exact ⟨⟨ht, hu, hv⟩, hout⟩

/-- The right-hand side of an `and` or an `or`. -/
theorem Tree.Leaves.peek {op : LogOp} (ht : t.Leaves n 1) (hu : u.Leaves n 1) :
    (t.seq (.peek op u l)).Leaves n 1 := by
  intro L s hs
  obtain ⟨hok, hout⟩ := ht L s hs
  have hs' := hs.trans (t.slots_le_out s)
  obtain ⟨hok', hout'⟩ := hu L (t.out s).popped hs'
  rw [Shape.popped_depth] at hout'
  exact ⟨⟨hok, by omega, hok', by omega⟩, hout⟩

theorem Tree.Leaves.cond {v : Tree} (ht : t.Leaves n 1) (hu : u.Leaves n k) (hv : v.Leaves n k) :
    (t.seq (.cond u v l)).Leaves n k := by
  intro L s hs
  obtain ⟨hok, hout⟩ := ht L s hs
  have hs' := hs.trans (t.slots_le_out s)
  obtain ⟨hoku, houtu⟩ := hu L (t.out s).popped hs'
  obtain ⟨hokv, houtv⟩ := hv L (t.out s).popped hs'
  rw [Shape.popped_depth] at houtu houtv
  refine ⟨⟨hok, by omega, hoku, hokv, by omega⟩, ?_⟩
  change (u.out (t.out s).popped).depth = _
  omega

end Leaves

section Items

variable {X : Emitter} {N : List Note} {P : List Plantilla} {Γ Γ' : List Local}
  {item : ExprItem} {t : Tree}

/-- The values of a piece of an expression. -/
def ExprItem.count : ExprItem → ℕ
  | expr _ => 1
  | exprs es => es.length
  | entries es => es.length * 2
  | named es => es.length * 2

theorem pops_binaryOp (ints : Bool) (op : BinOp) :
    (Atom.op (binaryOp ints op)).pops = 2 ∧ (Atom.op (binaryOp ints op)).pushes = 1 := by
  cases ints <;> cases op <;> exact ⟨rfl, rfl⟩

/-- The operations of the loops and of the elements. -/
theorem arity_emitted : Op.arity .getIndex = some 2 ∧ Op.arity .setIndex = some 3 ∧
    Op.arity .iterList = some 1 ∧ Op.arity .lt = some 2 ∧ Op.arity .add = some 2 :=
  ⟨rfl, rfl, rfl, rfl, rfl⟩

theorem arity_stepOp (op : StepOp) : op.op.arity = some 2 := by
  cases op <;> rfl

theorem nativeAtom_pops (id argc : ℕ) :
    (nativeAtom id argc).pops = argc ∧ (nativeAtom id argc).pushes = 1 ∧
      ∀ m, (nativeAtom id argc).InOrder m := by
  unfold nativeAtom
  split <;> exact ⟨rfl, rfl, fun _ => trivial⟩

/-- **The code of an expression leaves its value**, and that of several expressions one for each. -/
theorem ExprTree.leaves (h : ExprTree X N P Γ item t) : t.Leaves Γ.length item.count := by
  induction h with
  | literal => exact .const _
  | «local» h hs => exact .load (resolveLocal_lt hs)
  | @unary Γ loc op e t ht ih =>
    by_cases hop : op = .not
    · rw [if_pos hop]
      exact ih.andThen le_rfl fun _ _ => trivial
    · rw [if_neg hop]
      exact ih.andThen le_rfl fun _ _ => trivial
  | logical _ _ iht ihu => exact iht.peek ihu
  | @binary Γ loc op l r t u ht hu iht ihu =>
    obtain ⟨hpops, hpushes⟩ := pops_binaryOp (esInt Γ l && esInt Γ r) op
    have h := (iht.seq ihu).andThen (a := .op (binaryOp (esInt Γ l && esInt Γ r) op)) (l := loc)
      hpops.le fun _ _ => trivial
    rw [hpops, hpushes] at h
    exact h.assoc
  | ternary _ _ _ ihs iht ihu => exact ihs.cond iht ihu
  | @listLit Γ loc items t ht ih =>
    have h := ih.andThen (a := .makeList items.length) (l := loc) le_rfl fun _ _ => trivial
    simpa [Atom.pops, Atom.pushes, ExprItem.count] using h
  | @dictLit Γ loc entries t ht ih =>
    have h := ih.andThen (a := .makeDict entries.length) (l := loc) le_rfl fun _ _ => trivial
    simpa [Atom.pops, Atom.pushes, ExprItem.count] using h
  | index _ _ iht ihu =>
    exact ((iht.seq ihu).andThen (a := .op .getIndex) le_rfl fun _ _ => trivial).assoc
  | sessionGet => exact (Tree.Leaves.const _).andThen le_rfl fun _ _ => trivial
  | memberNative => exact .atom rfl fun _ _ => trivial
  | member _ _ ih => exact ih.andThen le_rfl fun _ _ => trivial
  | @callNative Γ e c id name t _ _ _ _ _ ih =>
    obtain ⟨hpops, hpushes, horder⟩ := nativeAtom_pops id c.args.length
    have h := ih.andThen (a := nativeAtom id c.args.length) (l := c.loc) hpops.le
      fun m _ => horder m
    rwa [hpops, hpushes, ExprItem.count, Nat.sub_self, Nat.zero_add] at h
  | @render Γ e c id nloc nombre extra idx p t _ _ _ _ _ _ _ _ ih =>
    have hdict := ih.andThen (a := .makeDict c.named.length) (l := c.loc) le_rfl
      fun _ _ => trivial
    rw [ExprItem.count, Atom.pops, Nat.sub_self] at hdict
    have h := (Tree.Leaves.const (.int (Int64.ofNat idx)) (l := c.loc)).seq hdict
    exact (h.andThen (a := .callNative renderTplId 2) le_rfl fun _ _ => trivial).assoc
  | @modulo Γ e c id obj member t _ _ _ _ ih =>
    have h := (Tree.Leaves.const (.str obj) (l := c.loc)).seq ih
    have hsum : 1 + c.args.length = c.args.length + 1 := Nat.add_comm _ _
    have h := (h.andThen (a := .callAsync id (c.args.length + 1)) (l := c.loc) hsum.ge
      fun _ _ => trivial).assoc
    rwa [ExprItem.count, hsum, Atom.pops, Nat.sub_self] at h
  | @function Γ e c name sig ds t u _ _ _ hle hd _ _ _ iht ihu =>
    have hlen := congrArg List.length hd
    rw [List.length_drop, List.length_map] at hlen
    have hsum : c.args.length + ds.length = sig.defaults.length := by omega
    have h := (iht.seq ihu).andThen (a := .callFunction sig.index sig.defaults.length)
      (l := c.loc) hsum.ge fun _ _ => trivial
    simpa [Atom.pops, Atom.pushes, ExprItem.count, hsum] using h
  | @ctor Γ e c name sig index t _ _ _ _ _ ih =>
    have h := ih.andThen (a := .callFunction index c.args.length) (l := c.loc) le_rfl
      fun _ _ => trivial
    simpa [Atom.pops, Atom.pushes, ExprItem.count] using h
  | @method Γ e c recv type name sig ds s t u _ _ _ _ hle hd _ _ _ _ ihs iht ihu =>
    have hlen := congrArg List.length hd
    rw [List.length_drop, List.length_map] at hlen
    have hsum : 1 + (c.args.length + ds.length) = sig.defaults.length + 1 := by omega
    have h := (ihs.seq (iht.seq ihu)).andThen
      (a := .callFunction sig.index (sig.defaults.length + 1)) (l := c.loc) hsum.ge
      fun _ _ => trivial
    simpa [Atom.pops, Atom.pushes, ExprItem.count, hsum] using h
  | @dynamic Γ e c recv name s t _ _ _ _ _ _ ihs iht =>
    have h := (ihs.seq iht).andThen (a := .callMethod name c.args.length) (l := c.loc)
      (Nat.add_comm _ _).le fun _ _ => trivial
    simpa [Atom.pops, Atom.pushes, ExprItem.count, Nat.add_comm] using h
  | @dynamicNamed Γ e c recv name s t u _ _ _ _ _ _ _ ihs iht ihu =>
    have hdict := ihu.andThen (a := .makeDict c.named.length) (l := c.loc) le_rfl
      fun _ _ => trivial
    rw [ExprItem.count, Atom.pops, Nat.sub_self] at hdict
    have h := (ihs.seq (iht.seq hdict)).andThen (a := .callMethod name (c.args.length + 1))
      (l := c.loc) (Nat.add_comm _ _).le fun _ _ => trivial
    simpa [Atom.pops, Atom.pushes, ExprItem.count, Nat.add_comm] using h
  | @stepLocal Γ loc kind op tloc name slot hs =>
    have hslot := resolveLocal_lt hs
    have hop := arity_stepOp op
    intro L s hn
    cases kind <;> simp [stepLocalAtoms, Tree.atoms, Tree.Ok, Tree.out, Atom.out, Atom.InOrder, Atom.pushes, Atom.pops, Atom.stored, hop, ExprItem.count] <;> omega
  | @stepMember Γ loc kind op tloc o name t _ ih =>
    have hop := arity_stepOp op
    intro L s hn
    obtain ⟨hok, hout⟩ := ih L s hn
    have hle := t.slots_le_out s
    rw [ExprItem.count] at hout
    simp only [Tree.Ok, Tree.out, hok, true_and]
    cases kind <;> simp [stepMemberAtoms, stepResultAtoms, Tree.atoms, Tree.Ok, Tree.out, Atom.out, Atom.InOrder, Atom.pushes, Atom.pops, Atom.stored, hop, hout, ExprItem.count] <;>
      omega
  | exprsNil | entriesNil | namedNil => exact .nil
  | exprsCons _ _ iht ihu =>
    have h := iht.seq ihu
    rwa [ExprItem.count, ExprItem.count, Nat.add_comm] at h
  | @entriesCons Γ k v es s t u _ _ _ ihs iht ihu =>
    have h := ihs.seq (iht.seq ihu)
    have hsum : 1 + (1 + es.length * 2) = (es.length + 1) * 2 := by omega
    rwa [ExprItem.count, ExprItem.count, ExprItem.count, hsum] at h
  | @namedCons Γ name loc v es t u _ _ iht ihu =>
    have h := (Tree.Leaves.const (.str name) (l := loc)).seq (iht.seq ihu)
    have hsum : 1 + (1 + es.length * 2) = (es.length + 1) * 2 := by omega
    rwa [ExprItem.count, ExprItem.count, hsum] at h
  | @stepIndex Γ loc kind op tloc o i d t u _ _ iht ihu =>
    have hop := arity_stepOp op
    intro L s hn
    obtain ⟨hokt, houtt⟩ := iht.andThen (a := .storeLocal Γ.length) (l := loc) le_rfl
      (fun _ hm => hm) L s hn
    have hle := (t.andThen (.storeLocal Γ.length) loc).slots_le_out s
    have hstored : Γ.length + 1 ≤ ((t.andThen (.storeLocal Γ.length) loc).out s).slots :=
      le_max_right _ _
    obtain ⟨hoku, houtu⟩ := ihu L _ hstored
    have hle' := u.slots_le_out ((t.andThen (.storeLocal Γ.length) loc).out s)
    simp only [ExprItem.count, Atom.pops, Atom.pushes] at houtt houtu
    rw [Tree.Ok, Tree.out, Tree.Ok, Tree.out]
    refine ⟨⟨hokt, hoku, ?_⟩, ?_⟩
    all_goals
      generalize u.out ((t.andThen (.storeLocal Γ.length) loc).out s) = r at houtu hle' ⊢
      cases kind <;> simp [stepIndexAtoms, stepResultAtoms, Tree.atoms, Tree.Ok, Tree.out,
        Atom.out, Atom.InOrder, Atom.pushes, Atom.pops, Atom.stored, hop, arity_emitted,
        ExprItem.count] <;> omega

end Items

/-! ## Statements -/

section Statements

variable {X : Emitter} {N : List Note} {P : List Plantilla} {Γ Γ' : List Local}
  {item : StmtItem} {t : Tree}

/-- A statement begins without operands where the slots of its locals are stored, and so are those
    of the loop around it. -/
structure Begins (Γ : List Local) (L : Option ℕ) (s : Shape) : Prop where
  depth : s.depth = 0
  slots : Γ.length ≤ s.slots
  loop : ∀ n ∈ L, n ≤ s.slots

/-- What a statement does: it takes what is there, and leaves no operand and its own locals. -/
structure Tree.Leads (t : Tree) (L : Option ℕ) (s : Shape) (Γ' : List Local) : Prop where
  ok : t.Ok L s
  depth : (t.out s).depth = 0
  slots : Γ'.length ≤ (t.out s).slots

/-- What comes after a statement begins there. -/
theorem Tree.Leads.begins {L : Option ℕ} {s : Shape} (h : t.Leads L s Γ') (hs : Begins Γ L s) :
    Begins Γ' L (t.out s) where
  depth := h.depth
  slots := h.slots
  loop n hn := (hs.loop n hn).trans (t.slots_le_out s)

/-- An expression at the beginning of a statement. -/
theorem ExprTree.begins {e : ExprItem} {L : Option ℕ} {s : Shape} (h : ExprTree X N P Γ e t)
    (hs : Begins Γ L s) : t.Ok L s ∧ (t.out s).depth = e.count ∧ Γ.length ≤ (t.out s).slots ∧
      ∀ n ∈ L, n ≤ (t.out s).slots := by
  obtain ⟨hok, hout⟩ := h.leaves L s hs.slots
  have hle := t.slots_le_out s
  refine ⟨hok, ?_, hs.slots.trans hle, fun n hn => (hs.loop n hn).trans hle⟩
  rw [hout, hs.depth, Nat.zero_add]

/-- Code that leaves no operand does what a statement does. -/
theorem Tree.Leaves.leads {L : Option ℕ} {s : Shape} (h : t.Leaves Γ.length 0)
    (hs : Begins Γ L s) : t.Leads L s Γ := by
  obtain ⟨hok, hout⟩ := h L s hs.slots
  exact ⟨hok, hout.trans hs.depth, hs.slots.trans (t.slots_le_out s)⟩

/-- What is behind a condition begins there. -/
theorem Begins.popped {L : Option ℕ} {s : Shape} (hd : s.depth = 1) (hs : Γ.length ≤ s.slots)
    (hl : ∀ n ∈ L, n ≤ s.slots) : Begins Γ L s.popped where
  depth := congrArg (· - 1) hd
  slots := hs
  loop := hl

/-- The code of a `for` before its loop, and what the loop begins with. -/
theorem forHeader_ok {l : SourceLoc} {n : ℕ} {L : Option ℕ} {s : Shape} (hd : s.depth = 1)
    (hs : n ≤ s.slots) : (Tree.atoms l (forHeaderAtoms n)).Ok L s ∧
      ((Tree.atoms l (forHeaderAtoms n)).out s).depth = 0 ∧
      n + 3 ≤ ((Tree.atoms l (forHeaderAtoms n)).out s).slots := by
  simp [forHeaderAtoms, Tree.atoms, Tree.Ok, Tree.out, Atom.out, Atom.InOrder, Atom.pushes,
    Atom.pops, Atom.stored, arity_emitted]
  omega

theorem forTest_leaves (loc : SourceLoc) (n : ℕ) :
    (Tree.atoms loc (forTestAtoms n)).Leaves (n + 3) 1 := by
  intro L s hs
  simp [forTestAtoms, Tree.atoms, Tree.Ok, Tree.out, Atom.out, Atom.InOrder, Atom.pushes,
    Atom.pops, Atom.stored, arity_emitted]
  omega

/-- The item of a pass is stored in the slot of the variable. -/
theorem forItem_leaves (loc : SourceLoc) (n : ℕ) :
    (Tree.atoms loc (forItemAtoms n)).Leaves (n + 3) 0 ∧
      ∀ s : Shape, n + 4 ≤ ((Tree.atoms loc (forItemAtoms n)).out s).slots := by
  refine ⟨fun L s hs => ?_, fun s => ?_⟩
  · simp [forItemAtoms, Tree.atoms, Tree.Ok, Tree.out, Atom.out, Atom.InOrder, Atom.pushes,
      Atom.pops, Atom.stored, arity_emitted]
    omega
  · simp [forItemAtoms, Tree.atoms, Tree.out, Atom.stored]

theorem forStep_leaves (loc : SourceLoc) (n : ℕ) :
    (Tree.atoms loc (forStepAtoms n)).Leaves (n + 3) 0 := by
  intro L s hs
  simp [forStepAtoms, Tree.atoms, Tree.Ok, Tree.out, Atom.out, Atom.InOrder, Atom.pushes,
    Atom.pops, Atom.stored, arity_emitted]
  omega

/-- **The code of a statement begins and ends without operands.** -/
theorem StmtTree.leads (h : StmtTree X N P Γ item t Γ') :
    ∀ L s, Begins Γ L s → t.Leads L s Γ' := by
  induction h with
  | returnValue ht =>
    intro L s hs
    obtain ⟨hok, hout, hslots, -⟩ := ht.begins hs
    rw [ExprItem.count] at hout
    exact ⟨⟨hok, hout.ge⟩, congrArg (· - 1) hout, hslots⟩
  | returnNull => exact fun L s hs => ⟨trivial, hs.depth, hs.slots⟩
  | exprStmt ht =>
    intro L s hs
    exact (ht.leaves.andThen (a := .pop) le_rfl fun _ _ => trivial).leads hs
  | varInit ht =>
    intro L s hs
    obtain ⟨hok, hout, hslots, -⟩ := ht.begins hs
    rw [ExprItem.count] at hout
    exact ⟨⟨hok, hout.ge, hslots⟩, congrArg (· - 1) hout, le_max_right _ _⟩
  | varNull =>
    intro L s hs
    have hd : s.depth + 1 - 1 + 0 = 0 := by
      rw [hs.depth]
    exact ⟨⟨⟨Nat.zero_le _, trivial⟩, Nat.le_add_left 1 _, hs.slots⟩, hd, le_max_right _ _⟩
  | @assignSession Γ loc mloc o name e t _ ht =>
    intro L s hs
    have h := (Tree.Leaves.const (.str name) (l := loc)).seq ht.leaves
    have h := (h.andThen (a := .callNative sessionSetId 2) (l := loc) le_rfl
      fun _ _ => trivial).andThen (a := .pop) (l := loc) le_rfl fun _ _ => trivial
    exact (h.seq .nil).assoc.assoc.assoc.leads hs
  | @assignMember Γ loc mloc o name e t u _ ht hu =>
    intro L s hs
    have h := ((ht.leaves.seq hu.leaves).andThen (a := .setMember name) (l := loc) le_rfl
      fun _ _ => trivial).andThen (a := .pop) (l := loc) le_rfl fun _ _ => trivial
    exact (h.seq .nil).assoc.assoc.assoc.leads hs
  | @assignIndex Γ loc iloc o i e s t u hs' ht hu =>
    intro L s hs
    have h := (((hs'.leaves.seq ht.leaves).seq hu.leaves).andThen (a := .op .setIndex) (l := loc)
      le_rfl fun _ _ => trivial).andThen (a := .pop) (l := loc) le_rfl fun _ _ => trivial
    exact (h.seq .nil).assoc.assoc.assoc.assoc.leads hs
  | @assignLocal Γ loc iloc name e slot t hslot ht =>
    intro L s hs
    have hlt := resolveLocal_lt hslot
    exact (ht.leaves.andThen (a := .storeLocal slot) le_rfl
      fun _ hm => (hlt.trans_le hm).le).leads hs
  | ifThen ht _ ihu =>
    intro L s hs
    obtain ⟨hok, hout, hslots, hloop⟩ := ht.begins hs
    have hb := Begins.popped hout hslots hloop
    have hu := ihu L _ hb
    exact ⟨⟨hok, hout.ge, hu.ok, hu.depth.trans hb.depth.symm⟩, hb.depth, hslots⟩
  | ifElse _ hs' _ _ iht ihu =>
    intro L s hs
    obtain ⟨hok, hout, hslots, hloop⟩ := hs'.begins hs
    have hb := Begins.popped hout hslots hloop
    have ht := iht L _ hb
    have hu := ihu L _ hb
    exact ⟨⟨hok, hout.ge, ht.ok, hu.ok, hu.depth.trans ht.depth.symm⟩, ht.depth, hslots⟩
  | whileStmt ht _ ihu =>
    intro L s hs
    obtain ⟨hok, hout, hslots, -⟩ := ht.begins hs
    have hu := ihu (some s.slots) ⟨0, _⟩ ⟨rfl, hslots, fun n hn => by
      cases hn
      exact Tree.slots_le_out _ s⟩
    exact ⟨⟨hs.depth, hok, hout, hu.ok, hu.depth, trivial, hs.depth⟩, hs.depth, hs.slots⟩
  | @forStmt Γ Γ' loc type name target body d t u ht _ ihu =>
    intro L s hs
    obtain ⟨hok, hout, hslots, -⟩ := ht.begins hs
    obtain ⟨hokh, hd, hn⟩ := forHeader_ok (l := loc) (L := L) hout hslots
    have hout' : (t.seq (.atoms loc (forHeaderAtoms Γ.length))).out s =
        (Tree.atoms loc (forHeaderAtoms Γ.length)).out (t.out s) := rfl
    generalize (Tree.atoms loc (forHeaderAtoms Γ.length)).out (t.out s) = r at hd hn hout'
    obtain ⟨hoktest, htest⟩ := forTest_leaves loc Γ.length L r hn
    have hle := (Tree.atoms loc (forTestAtoms Γ.length)).slots_le_out r
    obtain ⟨hokitem, hitem⟩ := (forItem_leaves loc Γ.length).1 (some r.slots)
      ⟨0, ((Tree.atoms loc (forTestAtoms Γ.length)).out r).slots⟩ (hn.trans hle)
    have hitems := (forItem_leaves loc Γ.length).2
      ⟨0, ((Tree.atoms loc (forTestAtoms Γ.length)).out r).slots⟩
    have hle' := (Tree.atoms loc (forItemAtoms Γ.length)).slots_le_out
      ⟨0, ((Tree.atoms loc (forTestAtoms Γ.length)).out r).slots⟩
    have hu := ihu (some r.slots) _ ⟨hitem, hitems, fun n hn => by
      cases hn
      exact hle.trans hle'⟩
    obtain ⟨hokstep, hstep⟩ := forStep_leaves loc Γ.length L r hn
    rw [hd] at htest hstep
    refine ⟨⟨⟨hok, hokh⟩, ?_⟩, ?_, ?_⟩
    · rw [hout']
      exact ⟨hd, hoktest, htest, ⟨hokitem, hu.ok⟩, hu.depth, hokstep, hstep⟩
    · rw [Tree.out, hout']
      exact hd
    · rw [Tree.out, hout']
      exact (Nat.le_add_right _ 3).trans hn
  | requireStmt ht hu =>
    intro L s hs
    obtain ⟨hok, hout, hslots, hloop⟩ := ht.begins hs
    have hb := Begins.popped hout hslots hloop
    obtain ⟨hok', hout', -, -⟩ := hu.begins hb
    rw [ExprItem.count] at hout'
    refine ⟨⟨hok, hout.ge, ⟨hok', hout'.ge⟩, ?_⟩, hb.depth, hslots⟩
    rw [hb.depth]
    exact congrArg (· - 1) hout'
  | breakStmt => exact fun L s hs => ⟨⟨hs.depth, hs.loop⟩, hs.depth, hs.slots⟩
  | continueStmt => exact fun L s hs => ⟨⟨hs.depth, hs.loop⟩, hs.depth, hs.slots⟩
  | @tryNamed Γ Γ' Γ'' loc body name orelse d t u _ _ iht ihu =>
    intro L s hs
    have ht := iht L s hs
    have hu := ihu L ((Atom.storeLocal Γ.length).out ⟨1, s.slots⟩)
      ⟨rfl, le_max_right _ _, fun n hn => (hs.loop n hn).trans (le_max_left _ _)⟩
    exact ⟨⟨hs.depth, ht.ok, ht.depth, ⟨⟨le_rfl, hs.slots⟩, hu.ok⟩, hu.depth⟩, hs.depth,
      hs.slots⟩
  | tryBare _ _ iht ihu =>
    intro L s hs
    have ht := iht L s hs
    have hu := ihu L (Atom.pop.out ⟨1, s.slots⟩) ⟨rfl, hs.slots, hs.loop⟩
    exact ⟨⟨hs.depth, ht.ok, ht.depth, ⟨⟨le_rfl, trivial⟩, hu.ok⟩, hu.depth⟩, hs.depth,
      hs.slots⟩
  | stmtsNil => exact fun L s hs => ⟨trivial, hs.depth, hs.slots⟩
  | stmtsCons _ _ iht ihu =>
    intro L s hs
    have ht := iht L s hs
    have hu := ihu L _ (ht.begins hs)
    exact ⟨⟨ht.ok, hu.ok⟩, hu.depth, hu.slots⟩

end Statements

/-! ## Bodies -/

section Bodies

variable {X : Emitter} {N : List Note} {P : List Plantilla} {b : Body} {t : Tree}
  {l : SourceLoc} {n : ℕ}

theorem Tree.atoms_append_ok {L : Option ℕ} (as bs : List Atom) (s : Shape) :
    ((Tree.atoms l (as ++ bs)).Ok L s ↔
      (Tree.atoms l as).Ok L s ∧ (Tree.atoms l bs).Ok L ((Tree.atoms l as).out s)) ∧
    (Tree.atoms l (as ++ bs)).out s = (Tree.atoms l bs).out ((Tree.atoms l as).out s) := by
  induction as generalizing s with
  | nil => exact ⟨(true_and _).symm ▸ Iff.rfl, rfl⟩
  | cons a as ih =>
    obtain ⟨hok, hout⟩ := ih (a.out s)
    refine ⟨?_, hout⟩
    change (Tree.atom a l).Ok L s ∧ (Tree.atoms l (as ++ bs)).Ok L (a.out s) ↔
      ((Tree.atom a l).Ok L s ∧ (Tree.atoms l as).Ok L (a.out s)) ∧
        (Tree.atoms l bs).Ok L ((Tree.atoms l as).out (a.out s))
    rw [hok, and_assoc]

/-- The names and the values of the fields of an instance. -/
theorem fields_leaves (fields : List String) :
    (Tree.atoms l (fields.flatMap fun f => [.const (.str f), .const .null])).Leaves n
      (fields.length * 2) := by
  induction fields with
  | nil => exact .nil
  | cons f fs ih =>
    have h := (Tree.Leaves.const (.str f) (l := l) (n := n)).seq
      ((Tree.Leaves.const .null (l := l)).seq ih)
    have hsum : 1 + (1 + fs.length * 2) = (fs.length + 1) * 2 := by omega
    rwa [hsum] at h

/-- A constructor makes the instance, which is stored behind the parameters. -/
theorem instance_ok (fields : List String) (self : ℕ) {L : Option ℕ} :
    (Tree.atoms l (instanceAtoms fields self)).Ok L ⟨0, self⟩ ∧
      ((Tree.atoms l (instanceAtoms fields self)).out ⟨0, self⟩).depth = 0 ∧
      self + 1 ≤ ((Tree.atoms l (instanceAtoms fields self)).out ⟨0, self⟩).slots := by
  obtain ⟨hok, hout⟩ := Tree.atoms_append_ok (l := l) (L := L)
    (fields.flatMap fun f => [.const (.str f), .const .null])
    [.makeDict fields.length, .storeLocal self] ⟨0, self⟩
  obtain ⟨hokf, hd⟩ := fields_leaves (l := l) fields L ⟨0, self⟩ le_rfl
  have hle := (Tree.atoms l (fields.flatMap fun f =>
    [.const (.str f), .const .null])).slots_le_out ⟨0, self⟩
  rw [Nat.zero_add] at hd
  have hstart : 1 ≤ fields.length * 2 - fields.length * 2 + 1 := by omega
  have hend : fields.length * 2 - fields.length * 2 + 1 - 1 + 0 = 0 := by omega
  refine ⟨hok.2 ⟨hokf, ⟨hd.ge, trivial⟩, ⟨?_, hle⟩, trivial⟩, ?_, ?_⟩
  · change 1 ≤ _ - fields.length * 2 + 1
    rwa [hd]
  · refine (congrArg Shape.depth hout).trans ?_
    change _ - fields.length * 2 + 1 - 1 + 0 = 0
    rwa [hd]
  · refine le_of_le_of_eq ?_ (congrArg Shape.slots hout).symm
    exact le_max_right _ _

/-- Each field takes the parameter of its name. -/
theorem fieldInit_leaves {self : ℕ} (hself : self < n) {inits : List (String × ℕ)}
    (h : ∀ i ∈ inits, i.2 < n) : (Tree.atoms l (fieldInitAtoms self inits)).Leaves n 0 := by
  induction inits with
  | nil => exact .nil
  | cons i is ih =>
    obtain ⟨hi, his⟩ := List.forall_mem_cons.1 h
    have hset := (((Tree.Leaves.load hself (l := l)).seq
      (Tree.Leaves.load hi (l := l))).andThen (a := .setMember i.1) (l := l) le_rfl
        fun _ _ => trivial).andThen (a := .pop) (l := l) le_rfl fun _ _ => trivial
    exact (hset.seq (ih his)).assoc.assoc.assoc

/-- The end of a body, where `null` is returned. -/
theorem StmtTree.body_ok {Γ Γ' : List Local} {body : Block}
    (h : StmtTree X N P Γ (.stmts body) t Γ') {s : Shape} (hd : s.depth = 0)
    (hs : Γ.length ≤ s.slots) : (t.seq (.retNull l)).Ok none s :=
  ⟨(h.leads none s ⟨hd, hs, nofun⟩).ok, trivial⟩

theorem GuardsTree.ok {Γ : List Local} {gs : List Guard} (h : GuardsTree X N P Γ gs t) {s : Shape}
    (hd : s.depth = 0) (hs : Γ.length ≤ s.slots) :
    t.Ok none s ∧ (t.out s).depth = 0 := by
  induction h generalizing s with
  | nil => exact ⟨trivial, hd⟩
  | @cons g gs t u v ht hu _ ih =>
    have hreq : StmtTree X N P Γ (.stmt (.requireStmt g.loc g.condition g.otherwise)) _ Γ :=
      .requireStmt ht hu
    have hg := hreq.leads none s ⟨hd, hs, nofun⟩
    obtain ⟨hok, hout⟩ := ih hg.depth hg.slots
    exact ⟨⟨hg.ok, hok⟩, hout⟩

/-- The slots that the fields of a constructor are taken from. -/
theorem inits_lt {params : List Param} {inits : List (String × ℕ)} {Γ : List Local}
    (h : List.Forall₂ (fun p i => i.1 = p.name ∧ resolveLocal Γ p.name = some i.2) params inits) :
    ∀ i ∈ inits, i.2 < Γ.length := by
  induction h with
  | nil => exact nofun
  | cons hi _ ih => exact List.forall_mem_cons.2 ⟨resolveLocal_lt hi.2, ih⟩

theorem length_ctorLocals (cls : String) (params : List Param) :
    (ctorLocals cls params).length = params.length + 1 := by
  simp [ctorLocals, paramLocals]

/-- **The code of a body**, with its parameters stored. -/
theorem BodyTree.ok (h : BodyTree X N P b t) : t.Ok none ⟨0, b.arity⟩ := by
  cases h with
  | @function fn t Γ' ht => exact ht.body_ok rfl (length_paramLocals fn.params).le
  | @method cls m t Γ' ht =>
    refine ht.body_ok rfl ?_
    rw [List.length_append, length_paramLocals]
    exact le_rfl
  | @ctor cls fields ct body t Γ' _ ht =>
    obtain ⟨hok, hd, hs⟩ := instance_ok (l := ct.loc) (L := none) fields ct.params.length
    have hb := ht.leads none _ ⟨hd, (length_ctorLocals cls ct.params).trans_le hs, nofun⟩
    have hle := hs.trans (t.slots_le_out _)
    exact ⟨hok, hb.ok, ⟨Nat.zero_le _, hle⟩, Nat.le_add_left 1 _⟩
  | @ctorFields cls fields ct inits _ hi =>
    obtain ⟨hok, hd, hs⟩ := instance_ok (l := ct.loc) (L := none) fields ct.params.length
    have hinits := inits_lt hi
    rw [length_ctorLocals] at hinits
    obtain ⟨hok', -⟩ := fieldInit_leaves (l := ct.loc) (Nat.lt_succ_self _) hinits none _ hs
    have hle := hs.trans (Tree.slots_le_out (.atoms ct.loc (fieldInitAtoms ct.params.length inits)) _)
    exact ⟨hok, hok', ⟨Nat.zero_le _, hle⟩, Nat.le_add_left 1 _⟩
  | @condition e names t ht =>
    obtain ⟨hok, hout⟩ := ht.leaves none ⟨0, names.length⟩ (by simp [paramLocals])
    rw [ExprItem.count] at hout
    exact ⟨hok, hout.ge⟩
  | @route r t u Γ' ht hu =>
    have hlen := (length_paramLocals r.params).le
    obtain ⟨hok, hout⟩ := ht.ok (s := ⟨0, r.params.length⟩) rfl hlen
    exact ⟨hok, hu.body_ok hout (hlen.trans (t.slots_le_out ⟨0, r.params.length⟩))⟩
  | errorHandler ht => exact ht.body_ok rfl (Nat.zero_le _)

end Bodies

end Osodio.Odio
