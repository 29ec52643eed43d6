import Osodio.Odio.Frames
import Osodio.Odio.Pieces

/-!
# The machine over disciplined code

Emitted code has one depth of operands for each instruction, and its indices are those of its
tables.  A machine that runs such code finds the operands it takes.

## Main definitions

- `Instr.InTables` — the indices of an instruction
- `Path` — the slots that are stored on a way through a chunk
- `Disciplined` — a chunk with a depth for each of its instructions

## Main results

- `exec_fault` — an instruction that finds its operands and its tables is no fault
- `emitted_disciplined` — the chunks of a module are disciplined
- `runs_standing` — in every run of a module each frame has the operands of its chunk
-/

namespace Osodio.Odio

/-! ## Tables -/

/-- The indices of an instruction are within its tables, and a callee has slots for what it is
    passed. -/
def Instr.InTables (M : Module) (c : Chunk) (i : Instr) : Prop :=
  match i.op with
  | .const => i.operand < c.constants.length
  | .getMember | .setMember => ∃ name, c.constants[i.operand]? = some (.str name)
  | .callMethod => ∃ name, c.constants[calleeOf i.operand]? = some (.str name)
  | .loadLocal | .storeLocal => i.operand < c.numLocals
  | .callFunction => ∃ callee, M.functions[calleeOf i.operand]? = some callee ∧
      argcOf i.operand ≤ callee.numLocals
  | .callNative | .callAsync => calleeOf i.operand < kNatives.length
  | _ => True

/-- An instruction that only moves the program counter, or leaves the frame. -/
def Op.controls : Op → Bool
  | .jump | .jumpIfFalse | .jumpIfFalsePeek | .jumpIfTruePeek | .ret | .retNull => true
  | _ => false

section Layouts

variable {K : Context} {lt : Option (ℕ × ℕ)} {nest : List TryRange} {t : Tree} {a b p q k : ℕ}
  {op : Op} {loc : SourceLoc} {i : Instr}

theorem InstrAt.controls (hi : InstrAt K nest q op k loc) (hop : op.controls = true) (hpq : p = q)
    (h : K.chunk.code[p]? = some i) :
    i.op.controls = true ∨ ∃ u : Atom, i.op = u.code ∧ u.Encodes K i.operand := by
  subst hpq
  obtain rfl := Option.some.inj (hi.code.symm.trans h)
  exact .inl hop

/-- **An instruction of a layout** controls, or is that of an atom. -/
theorem Lay.instr (h : Lay K lt nest t a b) (hap : a ≤ p) (hpb : p < b)
    (hi : K.chunk.code[p]? = some i) :
    i.op.controls = true ∨ ∃ u : Atom, i.op = u.code ∧ u.Encodes K i.operand := by
  induction h with
  | nil => omega
  | @atom lt nest a k u loc hia he =>
    obtain rfl : p = a := by omega
    obtain rfl := Option.some.inj (hia.code.symm.trans hi)
    exact .inr ⟨u, rfl, he⟩
  | @seq lt nest t u a b c _ _ iht ihu =>
    by_cases hp : p < b
    · exact iht hap hp
    · exact ihu (by omega) hpb
  | ret hia | retNull hia | brk hia | cont hia => exact hia.controls rfl (by omega) hi
  | @peek lt nest op t loc a b hia _ ih =>
    by_cases hp : p = a
    · exact hia.controls (by split <;> rfl) hp hi
    · exact ih (by omega) hpb
  | @cond lt nest t u loc a b c hia _ hja _ iht ihu =>
    by_cases hp : p = a
    · exact hia.controls rfl hp hi
    by_cases hq : p = b
    · exact hja.controls rfl hq hi
    by_cases hlt : p < b
    · exact iht (by omega) hlt
    · exact ihu (by omega) hpb
  | @when lt nest t loc a b hia _ ih =>
    by_cases hp : p = a
    · exact hia.controls rfl hp hi
    · exact ih (by omega) hpb
  | @«unless» lt nest t loc a b hia hja _ ih =>
    by_cases hp : p = a
    · exact hia.controls rfl hp hi
    by_cases hq : p = a + 1
    · exact hja.controls rfl hq hi
    · exact ih (by omega) hpb
  | @loop lt nest head body step toHead loc a b c d _ hia _ _ hja ihh ihb ihs =>
    by_cases hh : p < b
    · exact ihh hap hh
    by_cases hp : p = b
    · exact hia.controls rfl hp hi
    by_cases hc : p < c
    · exact ihb (by omega) hc
    by_cases hd : p < d
    · exact ihs (by omega) hd
    · exact hja.controls rfl (by omega) hi
  | @tryCatch lt nest body handler loc a b c _ hja _ ihb ihh =>
    by_cases hb : p < b
    · exact ihb hap hb
    by_cases hq : p = b
    · exact hja.controls rfl hq hi
    · exact ihh (by omega) hpb

end Layouts

/-! ## The tables of a module -/

section Tables

variable {p : Program} {M : Module} {b : Body} {K : Context} {pos index : ℕ} {i : Instr}

/-- The chunk of an emitted body. -/
theorem Module.Emits.chunkOf (hK : M.Emits b K) (h : Compiled p M) :
    K.emitter = M.emitter b ∧ ChunkOf K.emitter K.notes K.plantillas b K.chunk := by
  cases hK with
  | own hmem => exact ⟨rfl, (List.forall₂_iff_zip.1 h.chunks).2 hmem⟩
  | plantilla hs => exact ⟨rfl, (compileBody_spec hs List.prefix_rfl (List.Subset.refl _)).2⟩

/-- The function at an index of the table. -/
theorem Compiled.function (h : Compiled p M) {callee : Body}
    (hc : p.table[index]? = some callee) :
    ∃ c, M.functions[index]? = some c ∧ M.Emits callee ⟨M.emitter callee, c, M.plantillas,
      M.notes⟩ ∧ callee.arity ≤ c.numLocals := by
  have hbody := h.bodies_table hc
  obtain ⟨c, hchunk, hof⟩ := h.get hbody
  have hlt : index < M.functionCount := by
    rw [h.functionCount]
    exact (List.getElem?_eq_some_iff.1 hc).1
  refine ⟨c, ?_, .own ?_, hof.arity_le⟩
  · rw [Module.functions, List.getElem?_take_of_lt hlt, hchunk]
  · exact List.mem_of_getElem? (List.getElem?_zip_eq_some.2 ⟨hbody, hchunk⟩)

/-- The indices of an atom are within its tables. -/
theorem Atom.Encodes.inTables {u : Atom} {k : ℕ} {loc : SourceLoc} (h : u.Encodes K k)
    (hN : ∀ n, .operands n ∈ K.notes → n ≤ 255) (hM : Compiled p M)
    (hX : K.emitter = M.emitter b) : Instr.InTables M K.chunk ⟨u.code, k, loc⟩ := by
  cases u with
  | const v => exact (List.getElem?_eq_some_iff.1 h).1
  | loadLocal slot | storeLocal slot =>
    obtain ⟨rfl, hslot⟩ := h
    exact hslot
  | getMember name | setMember name => exact ⟨name, h⟩
  | callMethod name argc =>
    obtain ⟨hargc, -, j, rfl, hj⟩ := h
    refine ⟨name, ?_⟩
    change K.chunk.constants[calleeOf (callOperand j argc)]? = _
    rwa [calleeOf_callOperand j hargc]
  | callFunction index argc =>
    obtain ⟨rfl, hcall, hnote⟩ := h
    have hargc := hN _ hnote
    rw [hX] at hcall
    obtain ⟨callee, htable, rfl⟩ := hM.callable hcall
    obtain ⟨c, hc, -, harity⟩ := hM.function htable
    refine ⟨c, ?_, ?_⟩
    · change M.functions[calleeOf (callOperand index _)]? = _
      rwa [calleeOf_callOperand index hargc]
    · change argcOf (callOperand index _) ≤ _
      rwa [argcOf_callOperand index hargc]
  | callNative id argc | callAsync id argc =>
    obtain ⟨rfl, hid, hargc, -⟩ := h
    change calleeOf (callOperand id argc) < _
    rwa [calleeOf_callOperand id hargc]
  | op o =>
    -- an operation on values has no index
    cases o <;> first | exact trivial | exact absurd h.2 (by decide)
  | _ => trivial

theorem Op.controls.inTables (h : i.op.controls = true) (M : Module) (c : Chunk) :
    i.InTables M c := by
  obtain ⟨op, k, loc⟩ := i
  cases op <;> first | exact trivial | cases h

end Tables

/-! ## No fault -/

section Faults

variable {M : Module} {E : Env} {vm : Vm} {f : Frame} {rest : List Frame} {i : Instr}
  {fault : Fault}

theorem popArgs_of_le {n : ℕ} {stack : List Value} (h : n ≤ stack.length) :
    popArgs n stack = .ok ((stack.take n).reverse, stack.drop n) := if_pos h

theorem Chunk.name_of {c : Chunk} {k : ℕ} {name : String}
    (h : c.constants[k]? = some (.str name)) : c.name k = .ok name := by
  rw [Chunk.name, h]

theorem Vm.unary_ne {loc : SourceLoc} {g : Heap → Value → OpResult} (h : 1 ≤ vm.stack.length) :
    vm.unary loc g ≠ .error fault := by
  unfold Vm.unary
  split
  · exact nofun
  · next hst =>
    cases hs : vm.stack with
    | nil => simp [hs] at h
    | cons a st => exact absurd hs (hst a st)

theorem Vm.binary_ne {loc : SourceLoc} {g : Heap → Value → Value → OpResult}
    (h : 2 ≤ vm.stack.length) : vm.binary loc g ≠ .error fault := by
  unfold Vm.binary
  split
  · exact nofun
  · next hst =>
    match hs : vm.stack with
    | [] | [_] => simp [hs] at h
    | b :: a :: st => exact absurd hs (hst b a st)

theorem Vm.ternary_ne {loc : SourceLoc} {g : Heap → Value → Value → Value → OpResult}
    (h : 3 ≤ vm.stack.length) : vm.ternary loc g ≠ .error fault := by
  unfold Vm.ternary
  split
  · exact nofun
  · next hst =>
    match hs : vm.stack with
    | [] | [_] | [_, _] => simp [hs] at h
    | v :: b :: a :: st => exact absurd hs (hst v b a st)

/-- **An instruction that finds its operands and its tables** is no fault, unless it calls a native
    that has no function. -/
theorem exec_fault (hE : E.functions = M.functions) (hneeds : i.needs ≤ vm.stack.length)
    (htables : i.InTables M f.chunk) (hl : vm.locals.length = f.localsBase + f.chunk.numLocals)
    (h : vm.exec E f rest i = .error fault) : fault = .noFunction := by
  obtain ⟨op, k, loc⟩ := i
  -- the top of the stack, where an instruction takes one value
  have htop : 1 ≤ vm.stack.length → ∃ v st, vm.stack = v :: st := fun h =>
    List.exists_cons_of_length_pos h
  cases op with
  | const =>
    have hk : f.chunk.constants[k]? = some _ := List.getElem?_eq_getElem htables
    simp [Vm.exec, hk] at h
  | loadLocal =>
    have hlt : f.localsBase + k < vm.locals.length := by
      rw [hl]
      exact Nat.add_lt_add_left htables _
    have hk : vm.locals[f.localsBase + k]? = some _ := List.getElem?_eq_getElem hlt
    simp [Vm.exec, hk] at h
  | storeLocal =>
    obtain ⟨v, st, hst⟩ := htop hneeds
    have hlt : f.localsBase + k < vm.locals.length := by
      rw [hl]
      exact Nat.add_lt_add_left htables _
    simp [Vm.exec, hst, hlt] at h
  | pop | jumpIfFalse | jumpIfFalsePeek | jumpIfTruePeek | ret =>
    obtain ⟨v, st, hst⟩ := htop hneeds
    simp [Vm.exec, hst] at h
  | jump | retNull => cases h
  | neg | not | iterList => exact absurd h (Vm.unary_ne hneeds)
  | setIndex => exact absurd h (Vm.ternary_ne hneeds)
  | makeList =>
    have hargs : popArgs k vm.stack = .ok _ := popArgs_of_le hneeds
    simp [Vm.exec, hargs, bind, Except.bind, pure, Except.pure] at h
  | makeDict =>
    have hargs : popArgs (k * 2) vm.stack = .ok _ := popArgs_of_le hneeds
    simp [Vm.exec, hargs, bind, Except.bind, pure, Except.pure] at h
  | callAsync =>
    have hargs : popArgs (argcOf k) vm.stack = .ok _ := popArgs_of_le hneeds
    simp [Vm.exec, hargs, bind, Except.bind, pure, Except.pure] at h
  | getMember =>
    obtain ⟨name, hname⟩ := htables
    simp only [Vm.exec, Chunk.name_of hname, bind, Except.bind] at h
    exact absurd h (Vm.unary_ne hneeds)
  | setMember =>
    obtain ⟨name, hname⟩ := htables
    simp only [Vm.exec, Chunk.name_of hname, bind, Except.bind] at h
    exact absurd h (Vm.binary_ne hneeds)
  | callFunction =>
    obtain ⟨callee, hcallee, hargc⟩ := htables
    have hargc : argcOf k ≤ callee.numLocals := hargc
    have hneeds : argcOf k ≤ vm.stack.length := hneeds
    have hnot : ¬ callee.numLocals < min (argcOf k) vm.stack.length := by omega
    simp only [Vm.exec, Vm.callFunction, hE, hcallee] at h
    split at h
    · cases h
    · simp [popArgs_of_le hneeds, bind, Except.bind, pure, Except.pure, hnot] at h
  | callMethod =>
    obtain ⟨name, hname⟩ := htables
    have hneeds : argcOf k + 1 ≤ vm.stack.length := hneeds
    have hdrop : 1 ≤ (vm.stack.drop (argcOf k)).length := by
      rw [List.length_drop]
      omega
    obtain ⟨receiver, st, hst⟩ := List.exists_cons_of_length_pos hdrop
    simp [Vm.exec, popArgs_of_le (Nat.le_of_succ_le hneeds), Chunk.name_of hname, hst, bind,
      Except.bind, pure, Except.pure] at h
  | callNative =>
    have hargs : popArgs (argcOf k) vm.stack = .ok _ := popArgs_of_le hneeds
    have hid : ¬ kNatives.length ≤ calleeOf k := Nat.not_le.2 htables
    simp only [Vm.exec, hargs, bind, Except.bind, pure, Except.pure, hid, if_false] at h
    split at h
    · exact (Except.error.inj h).symm
    · cases h
  | _ => exact absurd h (Vm.binary_ne hneeds)

end Faults

/-! ## Disciplined chunks -/

/-- A way through a chunk, with the slots that have been stored on it: the parameters before the
    first instruction, and none more by an instruction that has failed. -/
inductive Path (c : Chunk) (arity : ℕ) : ℕ → Set ℕ → Prop where
  | start : Path c arity 0 {k | k < arity}
  | next {p S i} (h : Path c arity p S) (hi : c.code[p]? = some i) (hop : i.op.goesOn = true) :
      Path c arity (p + 1) (if i.op = .storeLocal then insert i.operand S else S)
  | jump {p S i} (h : Path c arity p S) (hi : c.code[p]? = some i) (hop : i.op.jumps = true) :
      Path c arity i.operand S
  | caught {p S i r} (h : Path c arity p S) (hi : c.code[p]? = some i)
      (hr : findHandler c.tryRanges p = some r) : Path c arity r.catchPc S

/-- A chunk of `arity` parameters with a depth of operands for each of its instructions. -/
structure Disciplined (M : Module) (c : Chunk) (arity : ℕ) (δ : ℕ → ℕ) : Prop where
  arity_le : arity ≤ c.numLocals
  entry : δ 0 = 0
  /-- No instruction takes or looks at an operand that is not its frame's. -/
  needs : ∀ p i, c.code[p]? = some i → i.needs ≤ δ p
  next : ∀ p i, c.code[p]? = some i → i.op.goesOn = true → δ (p + 1) = i.depthAfter (δ p)
  jump : ∀ p i, c.code[p]? = some i → i.op.jumps = true →
    i.operand ≤ c.code.length ∧ δ i.operand = δ p - i.pops
  caught : ∀ p i r, c.code[p]? = some i → findHandler c.tryRanges p = some r →
    r.catchPc ≤ c.code.length ∧ δ r.catchPc = 1
  tries : ∀ r ∈ c.tryRanges,
    r.first ≤ r.stop ∧ r.stop ≤ c.code.length ∧ r.catchPc ≤ c.code.length
  /-- A slot is stored on every way to where it is loaded. -/
  stored : ∀ p S i, Path c arity p S → c.code[p]? = some i → i.op = .loadLocal → i.operand ∈ S
  tables : ∀ (p : ℕ) (i : Instr), c.code[p]? = some i → i.InTables M c

section Chunks

variable {p : Program} {M : Module} {b : Body} {K : Context} {t : Tree} {σ : ℕ → Shape}

/-- The slots that count as stored are stored on every way. -/
theorem Path.stored {c : Chunk} {arity pos : ℕ} {S : Set ℕ} (h : Path c arity pos S)
    (hσ : ∀ p i, c.code[p]? = some i → Agrees c σ p i) (h0 : (σ 0).slots ≤ arity) :
    ∀ k < (σ pos).slots, k ∈ S := by
  induction h with
  | start => exact fun k hk => hk.trans_le h0
  | @next p S i _ hi hop ih =>
    intro k hk
    have hle := (hσ p i hi).next hop |>.slots
    have horder := (hσ p i hi).order
    obtain ⟨op, operand, loc⟩ := i
    by_cases hstore : op = .storeLocal
    · subst hstore
      rw [if_pos rfl]
      -- the slots are stored in their order, so the new one is the next, or one of the old ones
      have hk' : k < max (σ p).slots (operand + 1) := hk.trans_le hle
      have horder : operand ≤ (σ p).slots := horder
      by_cases hkn : k < (σ p).slots
      · exact Set.mem_insert_of_mem _ (ih k hkn)
      · obtain rfl : k = operand := by omega
        exact Set.mem_insert _ _
    · rw [if_neg hstore]
      refine ih k (hk.trans_le (hle.trans ?_))
      cases op <;> first | exact le_rfl | exact absurd rfl hstore
  | @jump p S i _ hi hop ih =>
    exact fun k hk => ih k (hk.trans_le ((hσ p i hi).jump hop).2.slots)
  | @caught p S i r _ hi hr ih =>
    exact fun k hk => ih k (hk.trans_le ((hσ p i hi).caught r hr).2.slots)

/-- The shapes of a tree that is the whole of a chunk. -/
theorem Tree.shaped (t : Tree) (s : Shape) :
    Shaped (fun p => if p < t.size then t.shape s p else t.out s) t 0 s where
  inside k hk := by
    rw [Nat.zero_add, if_pos hk]
  stop := by
    rw [Nat.zero_add, if_neg (lt_irrefl _)]
    exact .refl _

/-- **The chunk of a body is disciplined**, with the depths of the shapes of its tree. -/
theorem Module.Emits.disciplined (hK : M.Emits b K) (h : Compiled p M)
    (hN : ∀ n, .operands n ∈ K.notes → n ≤ 255) :
    ∃ t σ, BodyTree K.emitter K.notes K.plantillas b t ∧ Lay K none [] t 0 K.chunk.code.length ∧
      Shaped σ t 0 ⟨0, b.arity⟩ ∧ Disciplined M K.chunk b.arity fun p => (σ p).depth := by
  obtain ⟨hX, hof⟩ := hK.chunkOf h
  obtain ⟨t, ht, hl⟩ := hof.tree
  have hσ := t.shaped ⟨0, b.arity⟩
  generalize (fun p => if p < t.size then t.shape ⟨0, b.arity⟩ p else t.out ⟨0, b.arity⟩) = σ at hσ
  have hagrees : ∀ p i, K.chunk.code[p]? = some i → Agrees K.chunk σ p i := by
    intro p i hi
    exact hl.agrees hN ht.ok hσ le_rfl ⟨nofun, nofun⟩ p i (Nat.zero_le p)
      (List.getElem?_eq_some_iff.1 hi).1 hi
  refine ⟨t, σ, ht, hl, hσ, ?_⟩
  refine {
    arity_le := hof.arity_le
    entry := hσ.start.depth
    needs := fun p i hi => (hagrees p i hi).needs
    next := fun p i hi hop => ((hagrees p i hi).next hop).depth
    jump := fun p i hi hop => ((hagrees p i hi).jump hop).imp_right Shape.Fits.depth
    caught := fun p i r hi hr => ((hagrees p i hi).caught r hr).imp_right Shape.Fits.depth
    tries := hof.tries
    stored := fun p S i hp hi hop => ?_
    tables := fun p i hi => ?_ }
  · have horder := (hagrees p i hi).order
    obtain ⟨op, operand, loc⟩ := i
    obtain rfl : op = .loadLocal := hop
    exact hp.stored hagrees hσ.start.slots operand horder
  · rcases hl.instr (Nat.zero_le p) (List.getElem?_eq_some_iff.1 hi).1 hi with hop | ⟨u, hop, he⟩
    · exact Op.controls.inTables hop M K.chunk
    · obtain ⟨op, operand, loc⟩ := i
      obtain rfl : op = u.code := hop
      exact he.inTables hN h hX

end Chunks

/-! ## The operands of all frames -/

/-- The frames that wait have the operands they had before their call, and `n` is where the
    operands above them begin. -/
inductive Operands (δ : Chunk → ℕ → ℕ) : List Frame → ℕ → Prop where
  | nil : Operands δ [] 0
  | cons {g rest n} (hd : n + 1 = g.stackBase + δ g.chunk g.pc)
      (h : Operands δ rest g.stackBase) : Operands δ (g :: rest) n

/-- Every frame has as many operands as its chunk has at its program counter.  The result of an
    `await` or of a call is still to come, and an error leaves some of those of its frame. -/
structure Vm.Standing (δ : Chunk → ℕ → ℕ) (vm : Vm) : Prop where
  below : ∀ f rest, vm.frames = f :: rest → Operands δ rest f.stackBase
  running : vm.status = .running → ∀ f rest, vm.frames = f :: rest →
    f.pc ≤ f.chunk.code.length ∧ vm.stack.length = f.stackBase + δ f.chunk f.pc
  suspended : ∀ id args, vm.status = .suspended id args → ∀ f rest, vm.frames = f :: rest →
    f.pc ≤ f.chunk.code.length ∧ vm.stack.length + 1 = f.stackBase + δ f.chunk f.pc
  raising : ∀ message loc, vm.status = .raising message loc → ∀ f rest, vm.frames = f :: rest →
    f.stackBase ≤ vm.stack.length

section Runs

variable {M : Module} {C : Chunk → Prop} {δ : Chunk → ℕ → ℕ} {E : Env} {vm vm' : Vm} {f g : Frame}
  {rest : List Frame} {i : Instr} {fault : Fault}

/-- The innermost frame runs. -/
theorem Vm.Standing.of_running (hb : Operands δ rest g.stackBase)
    (hframes : vm.frames = g :: rest) (hs : vm.status = .running)
    (hpc : g.pc ≤ g.chunk.code.length) (hd : vm.stack.length = g.stackBase + δ g.chunk g.pc) :
    vm.Standing δ where
  below f' rest' h := by
    obtain ⟨rfl, rfl⟩ := List.cons.inj (hframes.symm.trans h)
    exact hb
  running _ f' rest' h := by
    obtain ⟨rfl, rfl⟩ := List.cons.inj (hframes.symm.trans h)
    exact ⟨hpc, hd⟩
  suspended _ _ hst := absurd (hs.symm.trans hst) nofun
  raising _ _ hst := absurd (hs.symm.trans hst) nofun

/-- The innermost frame looks for a handler. -/
theorem Vm.Standing.of_raising {message : String} {loc : SourceLoc}
    (hb : ∀ g rest, vm.frames = g :: rest → Operands δ rest g.stackBase ∧ g.stackBase ≤ vm.stack.length)
    (hs : vm.status = .raising message loc) : vm.Standing δ where
  below g rest h := (hb g rest h).1
  running hst := absurd (hs.symm.trans hst) nofun
  suspended _ _ hst := absurd (hs.symm.trans hst) nofun
  raising _ _ _ g rest h := (hb g rest h).2

/-- The depth after an instruction that goes on. -/
theorem Instr.depthAfter_eq {d n m : ℕ} (hneeds : i.needs ≤ d) (hasync : i.op ≠ .callAsync)
    (h : if i.op.peeks then m + 1 = n + d else m + i.pops = n + d + i.pushes) :
    m = n + i.depthAfter d := by
  unfold Instr.depthAfter Instr.needs at *
  rw [if_neg hasync]
  split
  · next hp =>
    rw [if_pos hp] at h hneeds
    omega
  · next hp =>
    rw [if_neg hp] at h hneeds
    omega

theorem Instr.pops_le_needs (i : Instr) : i.pops ≤ i.needs := by
  obtain ⟨op, k, loc⟩ := i
  cases op <;> first | exact le_rfl | exact Nat.zero_le _

theorem Op.goesOn_of_ne {o : Op} (h : o ≠ .jump ∧ o ≠ .callFunction ∧ o ≠ .callAsync ∧ o ≠ .ret ∧
    o ≠ .retNull) : o.goesOn = true := by
  obtain ⟨hjump, -, -, hret, hnull⟩ := h
  cases o <;> first | rfl | contradiction

/-- The frame below is given a result. -/
theorem Vm.Standing.of_left {n : ℕ} (hw : Waiting C rest n) {m : ℕ} (hb : Operands δ rest m)
    (hframes : vm.frames = rest)
    (hend : rest ≠ [] → vm.status = .running ∧ vm.stack.length = m + 1)
    (hdone : rest = [] → ∃ v, vm.status = .done v) : vm.Standing δ := by
  cases hb with
  | nil =>
    obtain ⟨v, hv⟩ := hdone rfl
    exact ⟨fun f rest h => absurd (hframes.symm.trans h) nofun,
      fun hst => absurd (hv.symm.trans hst) nofun, fun _ _ hst => absurd (hv.symm.trans hst) nofun,
      fun _ _ hst => absurd (hv.symm.trans hst) nofun⟩
  | cons hd hb =>
    cases hw with
    | @cons g rest i hc hpc hi hop hw =>
      obtain ⟨hs, hstack⟩ := hend (List.cons_ne_nil _ _)
      have hlt := (List.getElem?_eq_some_iff.1 hi).1
      exact .of_running hb hframes hs (by omega) (hstack.trans hd)

/-- An instruction of the innermost frame keeps the operands. -/
theorem Executed.standing (h : Executed E vm f rest i vm') {p n arity : ℕ}
    (hd : Disciplined M f.chunk arity (δ f.chunk)) (hpc : f.pc = p + 1)
    (hi : f.chunk.code[p]? = some i) (hstack : vm.stack.length = f.stackBase + δ f.chunk p)
    (hw : Waiting C rest n) (hb : Operands δ rest f.stackBase)
    (hentry : i.op = .callFunction → ∀ callee,
      E.functions[calleeOf i.operand]? = some callee → δ callee 0 = 0) : vm'.Standing δ := by
  have hlt : p < f.chunk.code.length := (List.getElem?_eq_some_iff.1 hi).1
  have hneeds := hd.needs p i hi
  have hpops := i.pops_le_needs.trans hneeds
  cases h with
  | next hop hframes hstatus hsteps hlocals hst =>
    have hnext := hd.next p i hi (Op.goesOn_of_ne hop)
    rw [hstack] at hst
    refine .of_running hb hframes hstatus (hpc ▸ hlt) ?_
    rw [hpc, hnext]
    exact Instr.depthAfter_eq hneeds hop.2.2.1 hst
  | jumped hop hframes hstatus hsteps hlocals hst =>
    obtain ⟨hle, hdepth⟩ := hd.jump p i hi hop
    refine .of_running (g := { f with pc := i.operand }) hb hframes hstatus hle ?_
    change _ = f.stackBase + δ f.chunk i.operand
    omega
  | @called hop callee hcallee hdepth hargs hframes hstatus hsteps hlocals hst =>
    have hnext : δ f.chunk f.pc = _ := hpc ▸ hd.next p i hi (by rw [hop]; rfl)
    have hafter : i.depthAfter (δ f.chunk p) = δ f.chunk p - argcOf i.operand + 1 := by
      simp [Instr.depthAfter, Instr.pops, Instr.pushes, hop, Op.peeks]
    have hargc : i.pops = argcOf i.operand := by simp [Instr.pops, hop]
    refine .of_running (.cons ?_ hb) hframes hstatus (Nat.zero_le _) ?_
    · change vm.stack.length - argcOf i.operand + 1 = _
      rw [hnext, hafter]
      omega
    · rw [hentry hop callee hcallee]
      change _ = vm.stack.length - argcOf i.operand + 0
      omega
  | @left hop v hframes hsteps hpops hend =>
    refine .of_left hw hb hframes (fun hne => ?_) fun hnil => ⟨v, ?_⟩
    · rw [if_neg hne] at hend
      exact ⟨hend.1, hend.2.1⟩
    · rwa [if_pos hnil] at hend
  | suspended hop hframes hstatus hsteps hlocals hst =>
    have hnext : δ f.chunk f.pc = _ := hpc ▸ hd.next p i hi (by rw [hop]; rfl)
    have hafter : i.depthAfter (δ f.chunk p) = δ f.chunk p - i.pops + 1 := by
      simp [Instr.depthAfter, hop, Op.peeks]
    refine ⟨fun f' rest' h => ?_, fun hs => absurd (hstatus.symm.trans hs) (by simp),
      fun _ _ _ f' rest' h => ?_, fun _ _ hs => absurd (hstatus.symm.trans hs) (by simp)⟩
    · obtain ⟨rfl, rfl⟩ := List.cons.inj (hframes.symm.trans h)
      exact hb
    · obtain ⟨rfl, rfl⟩ := List.cons.inj (hframes.symm.trans h)
      rw [hnext, hafter]
      omega
  | raised hframes hstatus hsteps hlocals hst =>
    refine .of_raising (fun f' rest' h => ?_) hstatus
    obtain ⟨rfl, rfl⟩ := List.cons.inj (hframes.symm.trans h)
    exact ⟨hb, by omega⟩

/-- All chunks of `C` are disciplined, with the depths `δ`. -/
def AllDisciplined (M : Module) (C : Chunk → Prop) (δ : Chunk → ℕ → ℕ) : Prop :=
  ∀ c, C c → ∃ arity, Disciplined M c arity (δ c)

theorem Vm.Standing.world (h : vm.Standing δ) (w : World) :
    ({ vm with world := w } : Vm).Standing δ :=
  ⟨h.below, h.running, h.suspended, h.raising⟩

/-- A frame that waits for a call will have the result. -/
theorem Waiting.result {n : ℕ} (hw : Waiting C (g :: rest) n) (hδ : AllDisciplined M C δ) :
    1 ≤ δ g.chunk g.pc := by
  cases hw with
  | @cons g rest i hc hpc hi hop h =>
    obtain ⟨arity, hd⟩ := hδ g.chunk hc
    have hnext := hd.next _ i hi (by rw [hop]; rfl)
    rw [Nat.sub_add_cancel hpc] at hnext
    rw [hnext]
    simp [Instr.depthAfter, hop, Op.peeks, Instr.pushes]

/-- **A turn keeps the operands.** -/
theorem Vm.Standing.tick (h : vm.Standing δ) (hf : vm.Framed C) (hC : CallClosed E C)
    (hδ : AllDisciplined M C δ) (ht : vm.tick E = .ok vm') : vm'.Standing δ := by
  obtain ⟨frames, stack, locals, steps, status, world⟩ := vm
  cases status with
  | running =>
    cases frames with
    | nil =>
      cases ht
      exact ⟨(by simp), (by simp), (by simp), (by simp)⟩
    | cons f rest =>
      obtain ⟨hc, hl, hw⟩ := hf.innermost f rest rfl
      obtain ⟨arity, hd⟩ := hδ f.chunk hc
      obtain ⟨hpc, hstack⟩ := h.running rfl f rest rfl
      have hb := h.below f rest rfl
      cases hi : f.chunk.code[f.pc]? with
      | none =>
        simp only [Vm.tick, hi] at ht
        cases ht
        cases rest with
        | nil => exact .of_left hw hb rfl (absurd rfl) fun _ => ⟨.null, rfl⟩
        | cons g rest =>
          refine .of_left hw hb rfl (fun _ => ⟨rfl, ?_⟩) (by simp)
          simp only [Vm.leave, List.length_cons, length_resizeStack]
      | some i =>
        have hexec := tick_executed rfl rfl hi ht
        refine hexec.standing (p := f.pc) (f := { f with pc := f.pc + 1 }) hd rfl hi hstack hw hb
          fun hop callee hcallee => ?_
        obtain ⟨arity', hd'⟩ := hδ callee (hC _ hc _ i hi hop callee hcallee)
        exact hd'.entry
  | raising message loc =>
    cases frames with
    | nil =>
      cases ht
      exact ⟨(by simp), (by simp), (by simp), (by simp)⟩
    | cons f rest =>
      obtain ⟨hc, hl, hw⟩ := hf.innermost f rest rfl
      obtain ⟨arity, hd⟩ := hδ f.chunk hc
      obtain ⟨hpc, i, hi⟩ := hf.raised message loc rfl f rest rfl
      have hb := h.below f rest rfl
      simp only [Vm.tick] at ht
      cases hr : findHandler f.chunk.tryRanges (f.pc - 1) with
      | some r =>
        rw [hr] at ht
        cases ht
        obtain ⟨hle, hone⟩ := hd.caught _ i r hi hr
        refine .of_running (g := { f with pc := r.catchPc }) hb rfl rfl hle ?_
        change (resizeStack f.stackBase stack).length + 1 = f.stackBase + δ f.chunk r.catchPc
        rw [length_resizeStack, hone]
      | none =>
        rw [hr] at ht
        cases ht
        refine @Vm.Standing.of_raising _ _ message loc (fun g rest' hg => ?_) rfl
        change rest = g :: rest' at hg
        subst hg
        cases hb with
        | cons hdepth hb =>
          refine ⟨hb, ?_⟩
          change g.stackBase ≤ (resizeStack f.stackBase stack).length
          rw [length_resizeStack]
          have hone := hw.result hδ
          omega
  | suspended | done | error =>
    cases ht
    exact h

/-- A run begins with the depths of its chunk, and keeps them. -/
theorem Vm.Runs.standing {c : Chunk} {params : List Value} {w : World}
    (h : Vm.Runs E (.start c params w) vm) (hc : C c) (hC : CallClosed E C)
    (hδ : AllDisciplined M C δ) : vm.Framed C ∧ vm.Standing δ := by
  induction h with
  | refl =>
    obtain ⟨arity, hd⟩ := hδ c hc
    refine ⟨.start hc params, .of_running (g := ⟨c, 0, 0, 0⟩) .nil rfl rfl (Nat.zero_le _) ?_⟩
    change 0 = 0 + δ c 0
    rw [hd.entry]
  | tick _ w ht ih =>
    obtain ⟨hf, hs⟩ := ih
    exact ⟨(hf.world w).tick hC ht, (hs.world w).tick (hf.world w) hC hδ ht⟩
  | @resume vm id args _ w hst awaited ih =>
    obtain ⟨hf, hs⟩ := ih
    refine ⟨⟨hf.innermost, nofun⟩, hs.below, fun _ f rest hframes => ?_, nofun, nofun⟩
    exact hs.suspended id args hst f rest hframes

/-- A machine that stands is at no fault. -/
theorem Vm.Standing.no_fault (h : vm.Standing δ) (hf : vm.Framed C) (hδ : AllDisciplined M C δ)
    (hE : E.functions = M.functions) (ht : vm.tick E = .error fault) : fault = .noFunction := by
  obtain ⟨frames, stack, locals, steps, status, world⟩ := vm
  cases status with
  | running =>
    cases frames with
    | nil => cases ht
    | cons f rest =>
      obtain ⟨hc, hl, -⟩ := hf.innermost f rest rfl
      obtain ⟨arity, hd⟩ := hδ f.chunk hc
      obtain ⟨-, hstack⟩ := h.running rfl f rest rfl
      cases hi : f.chunk.code[f.pc]? with
      | none =>
        simp only [Vm.tick, hi] at ht
        cases ht
      | some i =>
        simp only [Vm.tick, hi] at ht
        have hneeds : i.needs ≤ stack.length := by
          have := hd.needs f.pc i hi
          have hstack : stack.length = _ := hstack
          omega
        refine exec_fault hE ?_ ?_ ?_ ht
        · exact hneeds
        · exact hd.tables f.pc i hi
        · exact hl
  | raising message loc =>
    cases frames with
    | nil => cases ht
    | cons f rest =>
      simp only [Vm.tick] at ht
      split at ht <;> cases ht
  | suspended | done | error => cases ht

end Runs

/-! ## Emitted code -/

section Emitted

variable {compilar : PlantillaCompiler} {fuel : ℕ} {p : Program} {M : Module} {b : Body}
  {K : Context}

/-- **Emitted code is disciplined.**  There is one depth of operands for each instruction of a
    chunk; statements begin and end without operands, and the handler of a `try` begins with the
    error. -/
theorem emitted_disciplined (h : compile compilar fuel p = .ok M) (hK : M.Emits b K)
    (hN : ∀ n, .operands n ∈ K.notes → n ≤ 255) :
    ∃ δ t, Disciplined M K.chunk b.arity δ ∧ BodyTree K.emitter K.notes K.plantillas b t ∧
      ∀ root q : Piece, Piece.Root b t root → root.Within q →
        (∃ nest, q.Placed K nest) ∧ δ q.first = 0 ∧ δ q.stop = 0 ∧
          ∀ r, q.Catches r → δ r.catchPc = 1 := by
  obtain ⟨t, σ, ht, hl, hσ, hd⟩ := hK.disciplined (compile_spec h) hN
  refine ⟨_, t, hd, ht, fun root q hroot hq => ?_⟩
  have hbegun := hq.begun (hroot.begun ht hσ)
  obtain ⟨hfirst, hstop⟩ := hbegun.depth
  exact ⟨hq.placed (hroot.placed hl), hfirst, hstop, fun r hr => hr.depth hbegun⟩

/-- The functions of a module are emitted. -/
theorem Compiled.emits_function (h : Compiled p M) {c : Chunk} (hc : c ∈ M.functions) :
    ∃ b, M.Emits b ⟨M.emitter b, c, M.plantillas, M.notes⟩ := by
  obtain ⟨i, hi⟩ := List.mem_iff_getElem?.1 (List.mem_of_mem_take hc)
  have hlt : i < M.bodies.length := by
    rw [h.chunks.length_eq]
    exact (List.getElem?_eq_some_iff.1 hi).1
  exact ⟨M.bodies[i], .own (List.mem_of_getElem?
    (List.getElem?_zip_eq_some.2 ⟨List.getElem?_eq_getElem hlt, hi⟩))⟩

end Emitted

/-! ## A handler that tries again -/

/-- `fn f(): -null` and `get "/": while true: try: f() catch: 0`. -/
def reintentaRoute : RouteDecl where
  method := "GET"
  body := [.whileStmt {} (.boolLit {} true)
    [.tryStmt {} [.exprStmt {} (.call {} (.ident {} "f") [] [])] none [.exprStmt {} (.intLit {} 0)]]]

def reintenta : Program where
  functions := [{ name := "f", params := [], body := [.exprStmt {} (.unary {} .neg (.nullLit {}))] }]
  routes := [reintentaRoute]

/-- No call passes more operands than fit. -/
def Module.narrow (M : Module) : Bool :=
  M.notes.all fun
    | .operands n => decide (n ≤ 255)
    | _ => true

theorem reintenta_compiles : ∃ M c, compile (fun _ _ => .error "") 1 reintenta = .ok M ∧
    M.Emits (.route reintentaRoute)
      ⟨M.emitter (.route reintentaRoute), c, M.plantillas, M.notes⟩ ∧
    ∀ n, .operands n ∈ M.notes → n ≤ 255 := by
  have hcompiles : (match compile (fun _ _ => .error "") 1 reintenta with
      | .ok M => M.chunks.length == 2 && M.narrow
      | .error _ => false) = true := by decide +kernel
  split at hcompiles
  · rename_i M hM
    obtain ⟨hlen, hnotes⟩ := Bool.and_eq_true_iff.1 hcompiles
    obtain ⟨f, c, hc⟩ := List.length_eq_two.1 (eq_of_beq hlen)
    refine ⟨M, c, hM, .own ?_, fun n hn => ?_⟩
    · rw [hc, (compile_spec hM).bodies]
      exact List.mem_cons_of_mem _ List.mem_cons_self
    · exact of_decide_eq_true (List.all_eq_true.1 hnotes _ hn)
  · cases hcompiles

/-- The handler is disciplined. -/
theorem emitted_disciplined_reintenta :
    ∃ M c δ, compile (fun _ _ => .error "") 1 reintenta = .ok M ∧ Disciplined M c 0 δ := by
  obtain ⟨M, c, hM, hK, hN⟩ := reintenta_compiles
  obtain ⟨δ, t, hd, -⟩ := emitted_disciplined hM hK hN
  exact ⟨M, c, δ, hM, hd⟩

end Osodio.Odio
