import Mathlib.Data.List.MinMax
import Osodio.Odio.Unwinding

/-!
# How long a machine runs

A machine that goes on has a measure that falls with every turn: the jumps back that it is still
allowed, and the instructions that are left in its frames.  Only an error that is caught gives it
new ones.

## Main definitions

- `Vm.Segment` — turns of a machine that does not stop, and how often an error is caught in them
- `Vm.remaining` — the measure
- `Module.turnBound` — how many turns there are between two errors

## Main results

- `Lay.forward` — only an unconditional jump goes back
- `Vm.remaining_tick` — a turn lowers the measure, or catches an error
- `segment_le` — a machine stops, unless it catches errors again and again
-/

namespace Osodio.Odio

/-! ## Jumps -/

section Jumps

variable {K : Context} {lt : Option (ℕ × ℕ)} {nest : List TryRange} {t : Tree} {a b p q k : ℕ}
  {op : Op} {loc : SourceLoc} {i : Instr}

/-- A conditional jump goes forward. -/
def Instr.Forward (i : Instr) (p : ℕ) : Prop :=
  i.op.jumps = true → i.op ≠ .jump → p < i.operand

theorem InstrAt.forward (hi : InstrAt K nest q op k loc) (hpq : p = q)
    (h : K.chunk.code[p]? = some i) (hop : op.jumps = true → op ≠ .jump → q < k) :
    i.Forward p := by
  subst hpq
  obtain rfl := Option.some.inj (hi.code.symm.trans h)
  exact hop

theorem Atom.Encodes.not_jumps {u : Atom} (h : u.Encodes K k) : u.code.jumps = false := by
  cases u with
  | op o =>
    obtain ⟨-, ho⟩ := h
    cases o <;> first | rfl | exact absurd ho (by decide)
  | _ => rfl

/-- **Conditional jumps go forward.** -/
theorem Lay.forward (h : Lay K lt nest t a b) (hap : a ≤ p) (hpb : p < b)
    (hi : K.chunk.code[p]? = some i) : i.Forward p := by
  induction h with
  | nil => omega
  | atom hia he =>
    refine hia.forward (by omega) hi fun hjumps => ?_
    rw [he.not_jumps] at hjumps
    cases hjumps
  | @seq lt nest t u a b c _ _ iht ihu =>
    by_cases hp : p < b
    · exact iht hap hp
    · exact ihu (by omega) hpb
  | ret hia | retNull hia => exact hia.forward (by omega) hi nofun
  | brk hia | cont hia => exact hia.forward (by omega) hi fun _ hne => absurd rfl hne
  | @peek lt nest op t loc a b hia ht ih =>
    have hle := ht.le
    by_cases hp : p = a
    · exact hia.forward hp hi fun _ _ => by omega
    · exact ih (by omega) hpb
  | @cond lt nest t u loc a b c hia ht hja _ iht ihu =>
    have hle := ht.le
    by_cases hp : p = a
    · exact hia.forward hp hi fun _ _ => by omega
    by_cases hq : p = b
    · exact hja.forward hq hi fun _ hne => absurd rfl hne
    by_cases hlt : p < b
    · exact iht (by omega) hlt
    · exact ihu (by omega) hpb
  | @when lt nest t loc a b hia ht ih =>
    have hle := ht.le
    by_cases hp : p = a
    · exact hia.forward hp hi fun _ _ => by omega
    · exact ih (by omega) hpb
  | @«unless» lt nest t loc a b hia hja _ ih =>
    by_cases hp : p = a
    · exact hia.forward hp hi fun _ _ => by omega
    by_cases hq : p = a + 1
    · exact hja.forward hq hi fun _ hne => absurd rfl hne
    · exact ih (by omega) hpb
  | @loop lt nest head body step toHead loc a b c d _ hia hb hs hja ihh ihb ihs =>
    have hle := hb.le
    have hle' := hs.le
    by_cases hh : p < b
    · exact ihh hap hh
    by_cases hp : p = b
    · exact hia.forward hp hi fun _ _ => by omega
    by_cases hc : p < c
    · exact ihb (by omega) hc
    by_cases hd : p < d
    · exact ihs (by omega) hd
    · exact hja.forward (by omega) hi fun _ hne => absurd rfl hne
  | @tryCatch lt nest body handler loc a b c _ hja _ ihb ihh =>
    by_cases hb : p < b
    · exact ihb hap hb
    by_cases hq : p = b
    · exact hja.forward hq hi fun _ hne => absurd rfl hne
    · exact ihh (by omega) hpb

end Jumps

/-! ## The measure -/

/-- The turns of a machine, with `n` the number of turns and `k` that of the errors that are caught.
    What is shared may be changed by others before each turn. -/
inductive Vm.Segment (E : Env) (start : Vm) : ℕ → ℕ → Vm → Prop where
  | refl : Segment E start 0 0 start
  | tick {n k vm vm'} (h : Segment E start n k vm) (hgo : vm.halted = false) (w : World)
      (ht : Vm.tick E { vm with world := w } = .ok vm')
      (hnot : ∀ message loc, vm.status = .raising message loc → vm'.status ≠ .running) :
      Segment E start (n + 1) k vm'
  /-- An error is caught. -/
  | caught {n k vm vm' message loc} (h : Segment E start n k vm) (w : World)
      (ht : Vm.tick E { vm with world := w } = .ok vm')
      (hst : vm.status = .raising message loc) (hrun : vm'.status = .running) :
      Segment E start (n + 1) (k + 1) vm'

/-- The base in which the instructions of the frames are counted, for code of length `L`. -/
def turnBase (L : ℕ) : ℕ := L + 3

/-- The instructions that are left in the frames.  One of a caller counts for more than all of what
    it may call. -/
def framesLeft (L : ℕ) : List Frame → ℕ
  | [] => 0
  | f :: rest =>
    (L + 1 - f.pc + 1) * turnBase L ^ (kMaxFrames - rest.length) + framesLeft L rest

/-- How long a machine may go on when no error is caught. -/
def Vm.remaining (L : ℕ) (vm : Vm) : ℕ :=
  (kStepLimit - vm.steps) * turnBase L ^ (kMaxFrames + 1) + framesLeft L vm.frames + 1

section Measure

variable {C : Chunk → Prop} {E : Env} {L : ℕ} {vm vm' : Vm} {f : Frame} {rest : List Frame}
  {i : Instr}

theorem turnBase_pow_pos (L n : ℕ) : 0 < turnBase L ^ n := Nat.pow_pos (Nat.succ_pos _)

theorem framesLeft_add_le {frames : List Frame} (h : frames.length ≤ kMaxFrames) :
    framesLeft L frames + turnBase L ^ (kMaxFrames + 1 - frames.length) ≤
      turnBase L ^ (kMaxFrames + 1) := by
  induction frames with
  | nil => simp [framesLeft]
  | cons f rest ih =>
    have hlen : rest.length + 1 ≤ kMaxFrames := h
    have ih := ih (Nat.le_of_succ_le hlen)
    have hpow : turnBase L ^ (kMaxFrames + 1 - rest.length) =
        turnBase L * turnBase L ^ (kMaxFrames - rest.length) := by
      rw [show kMaxFrames + 1 - rest.length = (kMaxFrames - rest.length) + 1 by omega, pow_succ']
    have hwidth : L + 1 - f.pc + 1 + 1 ≤ turnBase L := by
      unfold turnBase
      omega
    have hexp : kMaxFrames + 1 - (f :: rest).length = kMaxFrames - rest.length :=
      Nat.succ_sub_succ ..
    calc framesLeft L (f :: rest) + turnBase L ^ (kMaxFrames + 1 - (f :: rest).length)
      _ = (L + 1 - f.pc + 1 + 1) * turnBase L ^ (kMaxFrames - rest.length) +
          framesLeft L rest := by
        rw [hexp, framesLeft, Nat.add_mul (L + 1 - f.pc + 1) 1, Nat.one_mul]
        omega
      _ ≤ turnBase L * turnBase L ^ (kMaxFrames - rest.length) + framesLeft L rest :=
        Nat.add_le_add_right (Nat.mul_le_mul_right _ hwidth) _
      _ ≤ turnBase L ^ (kMaxFrames + 1) := by
        rw [← hpow]
        omega

theorem framesLeft_lt {frames : List Frame} (h : frames.length ≤ kMaxFrames) :
    framesLeft L frames < turnBase L ^ (kMaxFrames + 1) := by
  have hle := framesLeft_add_le (L := L) h
  have hpos := turnBase_pow_pos L (kMaxFrames + 1 - frames.length)
  omega

/-- A frame that goes on has less left. -/
theorem framesLeft_lt_of_pc {f' : Frame} (hpc : f.pc < f'.pc) (hle : f.pc ≤ L) :
    framesLeft L (f' :: rest) < framesLeft L (f :: rest) := by
  have hpos := turnBase_pow_pos L (kMaxFrames - rest.length)
  have hlt : L + 1 - f'.pc + 1 < L + 1 - f.pc + 1 := by omega
  have := Nat.mul_lt_mul_of_pos_right hlt hpos
  simp only [framesLeft]
  omega

/-- And so has a machine that leaves one. -/
theorem framesLeft_lt_cons : framesLeft L rest < framesLeft L (f :: rest) := by
  have hpos : 0 < (L + 1 - f.pc + 1) * turnBase L ^ (kMaxFrames - rest.length) :=
    Nat.mul_pos (Nat.succ_pos _) (turnBase_pow_pos L _)
  rw [framesLeft]
  omega

/-- A call costs its caller more than what the callee has. -/
theorem framesLeft_lt_of_call {f' g : Frame} (hpc : f'.pc = f.pc + 1) (hle : f.pc ≤ L)
    (hlen : rest.length + 1 < kMaxFrames) :
    framesLeft L (g :: f' :: rest) < framesLeft L (f :: rest) := by
  obtain ⟨m, hm⟩ : ∃ m, kMaxFrames - rest.length = m + 1 :=
    ⟨kMaxFrames - rest.length - 1, by omega⟩
  have hexp : kMaxFrames - (f' :: rest).length = m := by
    rw [List.length_cons]
    omega
  have hwidth : L + 1 - g.pc + 1 < turnBase L := by
    unfold turnBase
    omega
  have hpos := turnBase_pow_pos L m
  have hcallee := Nat.mul_lt_mul_of_pos_right hwidth hpos
  have hcaller : L + 1 - f.pc + 1 = (L + 1 - f'.pc + 1) + 1 := by omega
  simp only [framesLeft]
  rw [hexp, hm, hcaller, Nat.add_mul (L + 1 - f'.pc + 1) 1, Nat.one_mul, pow_succ']
  omega

/-- Fewer instructions are left, and no more jumps back. -/
theorem Vm.remaining_lt (hf : framesLeft L vm'.frames < framesLeft L vm.frames)
    (hs : vm.steps ≤ vm'.steps) : vm'.remaining L < vm.remaining L := by
  have hle : (kStepLimit - vm'.steps) * turnBase L ^ (kMaxFrames + 1) ≤
      (kStepLimit - vm.steps) * turnBase L ^ (kMaxFrames + 1) :=
    Nat.mul_le_mul_right _ (Nat.sub_le_sub_left hs _)
  unfold Vm.remaining
  omega

/-- A jump back is paid by one of those that are allowed. -/
theorem Vm.remaining_lt_of_back (hlen : vm'.frames.length ≤ kMaxFrames)
    (hs : vm'.steps = vm.steps + 1) (hle : vm'.steps ≤ kStepLimit) :
    vm'.remaining L < vm.remaining L := by
  have hlt := framesLeft_lt (L := L) hlen
  have hsub : kStepLimit - vm.steps = (kStepLimit - vm'.steps) + 1 := by omega
  unfold Vm.remaining
  rw [hsub, Nat.add_mul, Nat.one_mul]
  omega

/-- How many turns there are at most until an error is caught. -/
def turnLimit (L : ℕ) : ℕ := (kStepLimit + 1) * turnBase L ^ (kMaxFrames + 1)

theorem Vm.remaining_le (h : vm.frames.length ≤ kMaxFrames) : vm.remaining L ≤ turnLimit L := by
  have hlt := framesLeft_lt (L := L) h
  have hle : (kStepLimit - vm.steps) * turnBase L ^ (kMaxFrames + 1) ≤
      kStepLimit * turnBase L ^ (kMaxFrames + 1) := Nat.mul_le_mul_right _ (Nat.sub_le _ _)
  unfold Vm.remaining turnLimit
  rw [Nat.add_mul, Nat.one_mul]
  omega

end Measure

/-! ## One turn -/

/-- The chunks of `C` are no longer than `L`, and their conditional jumps go forward. -/
def Descending (L : ℕ) (C : Chunk → Prop) : Prop :=
  ∀ c, C c → c.code.length ≤ L ∧ ∀ (p : ℕ) (i : Instr), c.code[p]? = some i → i.Forward p

section Turns

variable {C : Chunk → Prop} {E : Env} {L : ℕ} {vm vm' : Vm} {f : Frame} {rest : List Frame}
  {i : Instr}

theorem Executed.depth (h : Executed E vm f rest i vm') (hlen : rest.length + 1 ≤ kMaxFrames)
    (hf : vm.frames = f :: rest) : vm'.frames.length ≤ kMaxFrames := by
  cases h with
  | next _ hframes | jumped _ hframes | suspended _ hframes | raised hframes =>
    rw [hframes]
    exact hlen
  | called _ _ hdepth _ hframes =>
    rw [hframes]
    rw [hf] at hdepth
    exact hdepth
  | left _ hframes =>
    rw [hframes]
    exact Nat.le_of_succ_le hlen

/-- There are never more frames than allowed. -/
theorem Vm.depth_tick (h : vm.frames.length ≤ kMaxFrames) (ht : vm.tick E = .ok vm') :
    vm'.frames.length ≤ kMaxFrames := by
  obtain ⟨frames, stack, locals, steps, status, world⟩ := vm
  cases status with
  | running =>
    cases frames with
    | nil =>
      cases ht
      exact h
    | cons f rest =>
      cases hi : f.chunk.code[f.pc]? with
      | none =>
        simp only [Vm.tick, hi] at ht
        cases ht
        rw [(Vm.leave_frames _ f rest .null).1]
        exact Nat.le_of_succ_le h
      | some i => exact (tick_executed rfl rfl hi ht).depth h rfl
  | raising message loc =>
    cases frames with
    | nil =>
      cases ht
      exact h
    | cons f rest =>
      simp only [Vm.tick] at ht
      split at ht
      · cases ht
        exact h
      · cases ht
        exact Nat.le_of_succ_le h
  | suspended | done | error =>
    cases ht
    exact h

/-- What is shared does not matter for that. -/
theorem Vm.depth_tick_world {w : World} (h : vm.frames.length ≤ kMaxFrames)
    (ht : Vm.tick E { vm with world := w } = .ok vm') : vm'.frames.length ≤ kMaxFrames := by
  have hw : ({ vm with world := w } : Vm).frames.length ≤ kMaxFrames := h
  exact Vm.depth_tick hw ht

/-- **An instruction lowers the measure**, or is the last one. -/
theorem Executed.remaining {p : ℕ} (h : Executed E vm f rest i vm') (hpc : f.pc = p + 1)
    (hf : vm.frames = f :: rest) (hp : p ≤ L) (hforward : i.Forward p) : vm'.halted = true ∨
      (vm'.steps = vm.steps + 1 ∧ vm'.steps ≤ kStepLimit) ∨
      framesLeft L vm'.frames < framesLeft L ({ f with pc := p } :: rest) ∧
        vm.steps ≤ vm'.steps := by
  have hgo : framesLeft L (f :: rest) < framesLeft L ({ f with pc := p } :: rest) :=
    framesLeft_lt_of_pc (hpc ▸ Nat.lt_succ_self p) hp
  cases h with
  | next _ hframes _ hsteps =>
    refine .inr (.inr ⟨?_, hsteps.ge⟩)
    rwa [hframes]
  | jumped hop hframes _ hsteps =>
    split at hsteps
    · exact .inr (.inl hsteps)
    · next hback =>
      refine .inr (.inr ⟨?_, hsteps.ge⟩)
      have hlt : p < i.operand := by
        by_cases hjump : i.op = .jump
        · have hnot : ¬ i.operand ≤ f.pc := fun hle => hback ⟨hjump, hle⟩
          omega
        · exact hforward hop hjump
      rw [hframes]
      exact framesLeft_lt_of_pc (f := { f with pc := p }) hlt hp
  | called _ _ hdepth _ hframes _ hsteps =>
    refine .inr (.inr ⟨?_, hsteps.ge⟩)
    rw [hframes]
    rw [hf] at hdepth
    exact framesLeft_lt_of_call (f := { f with pc := p }) hpc hp hdepth
  | @left _ v hframes hsteps _ hend =>
    by_cases hnil : rest = []
    · rw [if_pos hnil] at hend
      exact .inl (by rw [Vm.halted, hend])
    · refine .inr (.inr ⟨?_, hsteps.ge⟩)
      rw [hframes]
      exact framesLeft_lt_cons
  | suspended _ _ hstatus => exact .inl (by rw [Vm.halted, hstatus])
  | raised hframes _ hsteps =>
    refine .inr (.inr ⟨?_, hsteps⟩)
    rwa [hframes]

/-- **A turn lowers the measure**, unless it stops the machine or catches an error. -/
theorem Vm.remaining_tick (hf : vm.Framed C) (hC : Descending L C)
    (hlen : vm.frames.length ≤ kMaxFrames) (hgo : vm.halted = false)
    (ht : vm.tick E = .ok vm') : vm'.halted = true ∨ vm'.remaining L < vm.remaining L ∨
      ∃ message loc, vm.status = .raising message loc ∧ vm'.status = .running := by
  have hlen' := Vm.depth_tick hlen ht
  obtain ⟨frames, stack, locals, steps, status, world⟩ := vm
  cases status with
  | running =>
    cases frames with
    | nil =>
      cases ht
      exact .inl rfl
    | cons f rest =>
      obtain ⟨hc, -, -⟩ := hf.innermost f rest rfl
      obtain ⟨hL, hforward⟩ := hC f.chunk hc
      cases hi : f.chunk.code[f.pc]? with
      | none =>
        simp only [Vm.tick, hi] at ht
        cases ht
        cases rest with
        | nil => exact .inl rfl
        | cons g rest => exact .inr (.inl (Vm.remaining_lt framesLeft_lt_cons le_rfl))
      | some i =>
        have hp := (List.getElem?_eq_some_iff.1 hi).1.le.trans hL
        have hexec := tick_executed rfl rfl hi ht
        rcases hexec.remaining (p := f.pc) rfl rfl hp (hforward f.pc i hi) with
          hhalt | ⟨hback, hle⟩ | ⟨hlt, hsteps⟩
        · exact .inl hhalt
        · exact .inr (.inl (Vm.remaining_lt_of_back hlen' hback hle))
        · exact .inr (.inl (Vm.remaining_lt hlt hsteps))
  | raising message loc =>
    cases frames with
    | nil =>
      cases ht
      exact .inl rfl
    | cons f rest =>
      simp only [Vm.tick] at ht
      split at ht
      · cases ht
        exact .inr (.inr ⟨message, loc, rfl, rfl⟩)
      · cases ht
        exact .inr (.inl (Vm.remaining_lt framesLeft_lt_cons le_rfl))
  | suspended | done | error => cases hgo

/-- The turns of a segment are paid by the measure, and by the errors that are caught. -/
theorem Vm.Segment.remaining {n k : ℕ} (h : Vm.Segment E vm n k vm') (hf : vm.Framed C)
    (hE : CallClosed E C) (hC : Descending L C) (hlen : vm.frames.length ≤ kMaxFrames) :
    vm'.Framed C ∧ vm'.frames.length ≤ kMaxFrames ∧ n ≤ (k + 1) * turnLimit L ∧
      (vm'.halted = false → n + vm'.remaining L ≤ (k + 1) * turnLimit L) := by
  induction h with
  | refl =>
    have hle := Vm.remaining_le (L := L) hlen
    refine ⟨hf, hlen, Nat.zero_le _, fun _ => ?_⟩
    omega
  | @tick n k vm₁ vm₂ _ hgo w ht hnot ih =>
    obtain ⟨hf₁, hlen₁, -, hpaid⟩ := ih
    have hpaid := hpaid hgo
    have hone : 1 ≤ vm₁.remaining L := Nat.succ_pos _
    have hstep := Vm.remaining_tick (hf₁.world w) hC hlen₁ hgo ht
    refine ⟨(hf₁.world w).tick hE ht, Vm.depth_tick_world hlen₁ ht,
      by omega, fun hgo' => ?_⟩
    rcases hstep with hhalt | hlt | ⟨message, loc, hst, hrun⟩
    · rw [hhalt] at hgo'
      cases hgo'
    · have hlt : vm₂.remaining L < vm₁.remaining L := hlt
      omega
    · exact absurd hrun (hnot message loc hst)
  | @caught n k vm₁ vm₂ message loc _ w ht hst hrun ih =>
    obtain ⟨hf₁, hlen₁, -, hpaid⟩ := ih
    have hpaid := hpaid (by rw [Vm.halted, hst])
    have hone : 1 ≤ vm₁.remaining L := Nat.succ_pos _
    have hlen₂ := Vm.depth_tick_world hlen₁ ht
    have hle := Vm.remaining_le (L := L) hlen₂
    refine ⟨(hf₁.world w).tick hE ht, hlen₂, ?_, fun _ => ?_⟩ <;>
    · rw [Nat.add_mul (k + 1), Nat.one_mul]
      omega

end Turns

/-! ## Modules -/

/-- The length of the longest chunk of a module, or of `c`. -/
def Module.longest (M : Module) (c : Chunk) : ℕ :=
  ((c :: M.functions).map fun c => c.code.length).foldr max 0

section Modules

variable {compilar : PlantillaCompiler} {fuel : ℕ} {p : Program} {M : Module} {b : Body}
  {K : Context} {vm vm' : Vm} {n k : ℕ}

theorem Vm.Runs.depth {E : Env} {start : Vm} (h : Vm.Runs E start vm)
    (hs : start.frames.length ≤ kMaxFrames) : vm.frames.length ≤ kMaxFrames := by
  induction h with
  | refl => exact hs
  | tick _ w ht ih => exact Vm.depth_tick_world ih ht
  | resume _ _ _ _ ih => exact ih

/-- The chunks of a module only jump back where a loop does. -/
theorem Compiled.descending (h : Compiled p M) (hK : M.Emits b K) :
    Descending (M.longest K.chunk) (· ∈ K.chunk :: M.functions) := by
  intro c hc
  refine ⟨List.le_max_of_le' 0 (List.mem_map_of_mem hc) le_rfl, fun q i hi => ?_⟩
  obtain ⟨b', t, K', rfl, -, -, hl⟩ := h.code hK hc
  exact hl.forward (Nat.zero_le q) (List.getElem?_eq_some_iff.1 hi).1 hi

/-- **A machine stops, unless it catches errors again and again.**  From any state of any run of a
    module, the number of turns until the machine stops is at most one limit for each error that is
    caught, and one more. -/
theorem segment_le (h : compile compilar fuel p = .ok M) (hK : M.Emits b K) {oracle : Oracle}
    {params : List Value} {w : World} (hrun : Vm.Runs (M.env oracle) (.start K.chunk params w) vm)
    (hseg : Vm.Segment (M.env oracle) vm n k vm') :
    n ≤ (k + 1) * turnLimit (M.longest K.chunk) := by
  have hE := M.callClosed oracle K.chunk
  have hf := hrun.framed hE (.start List.mem_cons_self params)
  have hlen : vm.frames.length ≤ kMaxFrames := by
    refine hrun.depth ?_
    change 1 ≤ kMaxFrames
    decide
  exact (hseg.remaining hf hE ((compile_spec h).descending hK) hlen).2.2.1

/-- The error of the function is caught in two turns. -/
theorem segment_le_reintenta : ∃ M c vm vm', compile (fun _ _ => .error "") 1 reintenta = .ok M ∧
    Vm.Runs (M.env mudo) (.start c [] {}) vm ∧ Vm.Segment (M.env mudo) vm 2 1 vm' ∧
    2 ≤ (1 + 1) * turnLimit (M.longest c) := by
  obtain ⟨M, c, vm, hM, hK, hrun, hfails⟩ := reintenta_fails
  unfold Vm.failsInTry at hfails
  split at hfails
  · rename_i message loc f g hst hframes
    obtain ⟨hf, hg⟩ := Bool.and_eq_true_iff.1 hfails
    obtain ⟨r, hr⟩ := Option.isSome_iff_exists.1 hg
    have hdrop := Vm.tick_dropFrame (E := M.env mudo) hst hframes (Option.isNone_iff_eq_none.1 hf)
    have hcatch : (vm.dropFrame f [g]).tick (M.env mudo) = .ok _ := Vm.tick_enterCatch hst rfl hr
    have hgo : vm.halted = false := by rw [Vm.halted, hst]
    have hseg : Vm.Segment (M.env mudo) vm 2 1 ((vm.dropFrame f [g]).enterCatch g [] r message) := by
      refine .caught (.tick .refl hgo vm.world hdrop fun _ _ _ => ?_) vm.world hcatch hst rfl
      exact fun hrun => absurd (hst.symm.trans hrun) nofun
    have hle := segment_le hM hK hrun hseg
    dsimp only at hle
    exact ⟨M, c, vm, _, hM, hrun, hseg, hle⟩
  · cases hfails

end Modules

end Osodio.Odio
