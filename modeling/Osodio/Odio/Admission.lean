import Osodio.Odio.Unwinding

/-!
# Guards come first

A run of the chunk of a route comes to the body only past the tests of all guards, in their order
and each with a value that is true.  When a test fails, what the run returns is the value of the
other expression of that guard.

## Main definitions

- `Vm.Between`, `Vm.At` — where the outermost frame of a machine stands
- `Vm.Passes` — the tests that a run has passed on its way
- `Vm.Answers` — the first test that fails, and the answer of its guard
- `Vm.Stands` — how far a run has come in the guards

## Main results

- `Vm.Between.tick` — code that stays within its positions keeps the outermost frame there
- `guards_first` — every run of the chunk of a route
-/

namespace Osodio.Odio

/-! ## The outermost frame -/

/-- The outermost frame runs `c` and is between `lo` and `hi`; behind `lo` if it waits for a call or
    has failed. -/
def Vm.Between (c : Chunk) (lo hi : ℕ) (vm : Vm) : Prop :=
  (∀ v, vm.status ≠ .done v) ∧ ∃ inner g, vm.frames = inner ++ [g] ∧ g.chunk = c ∧
    lo ≤ g.pc ∧ g.pc ≤ hi ∧
    (inner ≠ [] ∨ (∃ message loc, vm.status = .raising message loc) → lo < g.pc)

/-- The next instruction is the one at `p` of the outermost frame, which runs `c`. -/
def Vm.At (c : Chunk) (p : ℕ) (vm : Vm) : Prop :=
  vm.status = .running ∧ ∃ g, vm.frames = [g] ∧ g.chunk = c ∧ g.pc = p

/-- An error has left the outermost frame. -/
def Vm.Lost (vm : Vm) : Prop :=
  vm.frames = [] ∧ ∃ message loc, vm.status = .raising message loc ∨ vm.status = .error message loc

/-- The outermost frame runs `c` and is at `n` or behind it. -/
def Vm.Entered (c : Chunk) (n : ℕ) (vm : Vm) : Prop :=
  ∃ inner g, vm.frames = inner ++ [g] ∧ g.chunk = c ∧ n ≤ g.pc

section Outermost

variable {E : Env} {c : Chunk} {lo hi p : ℕ} {vm vm' : Vm} {w : World}

theorem Vm.At.between (h : vm.At c p) (hlo : lo ≤ p) (hhi : p ≤ hi) : vm.Between c lo hi := by
  obtain ⟨hst, g, hframes, hc, rfl⟩ := h
  refine ⟨by simp [hst], [], g, hframes, hc, hlo, hhi, ?_⟩
  rintro (hne | ⟨message, loc, hr⟩)
  · exact absurd rfl hne
  · rw [hst] at hr
    cases hr

theorem Vm.Between.not_entered {n : ℕ} (h : vm.Between c lo hi) (hn : hi < n) :
    ¬ vm.Entered c n := by
  obtain ⟨-, inner, g, hframes, -, -, hhi, -⟩ := h
  rintro ⟨inner', g', hframes', -, hle⟩
  obtain ⟨-, hg⟩ := List.append_inj' (hframes.symm.trans hframes') rfl
  cases hg
  omega

theorem Vm.Lost.tick (h : vm.Lost) (ht : vm.tick E = .ok vm') : vm'.Lost := by
  obtain ⟨hframes, message, loc, hst | hst⟩ := h
  · simp only [Vm.tick, hst, hframes] at ht
    cases ht
    exact ⟨rfl, message, loc, .inr rfl⟩
  · simp only [Vm.tick, hst] at ht
    cases ht
    exact ⟨hframes, message, loc, .inr hst⟩

/-- The frame of an instruction is an inner one, or it is the outermost one. -/
theorem Vm.Between.cases (h : vm.Between c lo hi) :
    ∃ f rest, vm.frames = f :: rest ∧
      ((∃ inner g, rest = inner ++ [g] ∧ g.chunk = c ∧ lo < g.pc ∧ g.pc ≤ hi) ∨
        rest = [] ∧ f.chunk = c ∧ lo ≤ f.pc ∧ f.pc ≤ hi ∧
          ((∃ message loc, vm.status = .raising message loc) → lo < f.pc)) := by
  obtain ⟨-, inner, g, hframes, hc, hlo, hhi, hbehind⟩ := h
  cases inner with
  | nil => exact ⟨g, [], hframes, .inr ⟨rfl, hc, hlo, hhi, fun hr => hbehind (.inr hr)⟩⟩
  | cons f inner =>
    exact ⟨f, inner ++ [g], hframes, .inl ⟨inner, g, rfl, hc, hbehind (.inl (List.cons_ne_nil _ _)),
      hhi⟩⟩

/-- Below an inner frame the outermost one waits. -/
theorem Vm.Between.of_inner {rest inner : List Frame} {g : Frame} (hrest : rest = inner ++ [g])
    (hc : g.chunk = c) (hlo : lo < g.pc) (hhi : g.pc ≤ hi) (front : List Frame)
    (hst : ∀ v, vm.status ≠ .done v) (hframes : vm.frames = front ++ rest) :
    vm.Between c lo hi :=
  ⟨hst, front ++ inner, g, by rw [hframes, hrest, List.append_assoc], hc, hlo.le, hhi, fun _ => hlo⟩

/-- An instruction of an inner frame leaves the outermost one alone. -/
theorem Executed.between_inner {f : Frame} {rest inner : List Frame} {g : Frame} {i : Instr}
    (h : Executed E vm f rest i vm') (hrest : rest = inner ++ [g]) (hc : g.chunk = c)
    (hlo : lo < g.pc) (hhi : g.pc ≤ hi) : vm'.Between c lo hi := by
  have hbelow := fun front => @Vm.Between.of_inner c lo hi vm' rest inner g hrest hc hlo hhi front
  cases h with
  | next hop hframes hstatus => exact hbelow [_] (by simp [hstatus]) hframes
  | jumped hop hframes hstatus => exact hbelow [_] (by simp [hstatus]) hframes
  | called hop hcallee hdepth hargs hframes hstatus =>
    exact hbelow [_, _] (by simp [hstatus]) hframes
  | left hop hframes hsteps hpops hend =>
    rw [if_neg (by simp [hrest])] at hend
    exact hbelow [] (by simp [hend.1]) hframes
  | suspended hop hframes hstatus => exact hbelow [_] (by simp [hstatus]) hframes
  | raised hframes hstatus => exact hbelow [_] (by simp [hstatus]) hframes

/-- An instruction of the outermost frame keeps it within the positions of its code. -/
theorem Executed.between {f : Frame} {i : Instr} (h : Executed E vm f [] i vm')
    (hc : f.chunk = c) (hlo : lo < f.pc) (hhi : f.pc ≤ hi) (hret : i.op ≠ .ret ∧ i.op ≠ .retNull)
    (hjumps : i.op.jumps = true → lo ≤ i.operand ∧ i.operand ≤ hi) : vm'.Between c lo hi := by
  have hbelow := fun front => @Vm.Between.of_inner c lo hi vm' [f] [] f rfl hc hlo hhi front
  cases h with
  | next hop hframes hstatus => exact hbelow [] (by simp [hstatus]) hframes
  | jumped hop hframes hstatus =>
    obtain ⟨hlo', hhi'⟩ := hjumps hop
    exact Vm.At.between ⟨hstatus, _, hframes, hc, rfl⟩ hlo' hhi'
  | called hop hcallee hdepth hargs hframes hstatus => exact hbelow [_] (by simp [hstatus]) hframes
  | left hop => exact absurd hop (by simp [hret])
  | suspended hop hframes hstatus => exact hbelow [] (by simp [hstatus]) hframes
  | raised hframes hstatus => exact hbelow [] (by simp [hstatus]) hframes

/-- **Code that stays within its positions** keeps the outermost frame there, until it comes to the
    last position or an error leaves it. -/
theorem Vm.Between.tick (h : vm.Between c lo hi) (hw : Within c lo hi lo hi)
    (hat : ¬ vm.At c hi) (ht : vm.tick E = .ok vm') : vm'.Between c lo hi ∨ vm'.Lost := by
  obtain ⟨f, rest, hframes, hf⟩ := h.cases
  cases hst : vm.status with
  | running =>
    obtain ⟨inner, g, hrest, hc, hlo, hhi⟩ | ⟨rfl, hc, hlo, hhi, -⟩ := hf
    · -- an inner frame goes on, or is left for its caller
      cases hi' : f.chunk.code[f.pc]? with
      | none =>
        simp only [Vm.tick, hst, hframes, hi'] at ht
        cases ht
        refine .inl (.of_inner hrest hc hlo hhi [] ?_ (Vm.leave_frames _ _ _ _).1)
        rw [hrest]
        cases inner <;> simp [Vm.leave, hst]
      | some i => exact .inl ((tick_executed hst hframes hi' ht).between_inner hrest hc hlo hhi)
    · have hlt : f.pc < hi := by
        refine Nat.lt_of_le_of_ne hhi fun heq => hat ⟨hst, f, hframes, hc, heq⟩
      obtain ⟨i, hi', hr, hn, hj⟩ := hw.instr hlo hlt
      rw [← hc] at hi'
      exact .inl ((tick_executed hst hframes hi' ht).between hc (Nat.lt_succ_of_le hlo) hlt
        ⟨hr, hn⟩ hj)
  | raising message loc =>
    simp only [Vm.tick, hst, hframes] at ht
    cases hr : findHandler f.chunk.tryRanges (f.pc - 1) with
    | some r =>
      rw [hr] at ht
      cases ht
      obtain ⟨inner, g, hrest, hc, hlo, hhi⟩ | ⟨rfl, hc, hlo, hhi, hbehind⟩ := hf
      · exact .inl (.of_inner hrest hc hlo hhi [_] (by simp [Vm.enterCatch]) rfl)
      · -- no `try` covers the code of the outermost frame
        have hlt := hbehind ⟨message, loc, hst⟩
        rw [hc, hw.handler (Nat.le_sub_one_of_lt hlt) (by omega)] at hr
        cases hr
    | none =>
      rw [hr] at ht
      cases ht
      obtain ⟨inner, g, hrest, hc, hlo, hhi⟩ | ⟨rfl, -⟩ := hf
      · exact .inl (.of_inner hrest hc hlo hhi [] (by simp [Vm.dropFrame, hst]) rfl)
      · exact .inr ⟨rfl, message, loc, .inl hst⟩
  | suspended | done | error =>
    simp only [Vm.tick, hst] at ht
    cases ht
    exact .inl h

/-! What is shared is not where the frames are. -/

theorem Vm.Between.world (h : vm.Between c lo hi) (w : World) :
    ({ vm with world := w } : Vm).Between c lo hi := h

theorem Vm.At.world (h : vm.At c p) (w : World) : ({ vm with world := w } : Vm).At c p := h

theorem Vm.Lost.world (h : vm.Lost) (w : World) : ({ vm with world := w } : Vm).Lost := h

/-- A machine that is resumed stands where it stood. -/
theorem Vm.Between.resume (h : vm.Between c lo hi) (v : Value) : (vm.resume v).Between c lo hi := by
  obtain ⟨-, inner, g, hframes, hc, hlo, hhi, hbehind⟩ := h
  refine ⟨by simp [Vm.resume], inner, g, hframes, hc, hlo, hhi, ?_⟩
  rintro (hne | ⟨message, loc, hr⟩)
  · exact hbehind (.inl hne)
  · cases hr

end Outermost

/-! ## The tests of the guards -/

/-- The machine is about to test the value that the condition of a guard has left. -/
def Vm.Tests (c : Chunk) (m : GuardMark) (v : Value) (vm : Vm) : Prop :=
  vm.At c m.test ∧ ∃ st, vm.stack = v :: st

/-- On the way from one state to another the tests of the guards are passed, one after the other. -/
inductive Vm.Passes (E : Env) (c : Chunk) : List GuardMark → Vm → Vm → Prop where
  | nil {vm vm'} (h : Vm.Runs E vm vm') : Passes E c [] vm vm'
  | cons {m ms v vm vm' u u'} {w : World} (h : Vm.Runs E vm u)
      (hu : Vm.Tests c m v { u with world := w }) (hv : v.truthy w.heap = true)
      (ht : Vm.tick E { u with world := w } = .ok u') (hms : Passes E c ms u' vm') :
      Passes E c (m :: ms) vm vm'

/-- On the way from one state the test of a guard fails, once those before it are passed, and `x` is
    what is returned at the end of its other expression. -/
inductive Vm.Answers (E : Env) (c : Chunk) : List GuardMark → Vm → Value → Prop where
  | here {m ms v x st vm u u' r} {w w' : World} (h : Vm.Runs E vm u)
      (hu : Vm.Tests c m v { u with world := w }) (hv : v.truthy w.heap = false)
      (ht : Vm.tick E { u with world := w } = .ok u') (h' : Vm.Runs E u' r)
      (hr : Vm.At c (m.stop - 1) { r with world := w' }) (hx : r.stack = x :: st) :
      Answers E c (m :: ms) vm x
  | there {m ms v x vm u u'} {w : World} (h : Vm.Runs E vm u)
      (hu : Vm.Tests c m v { u with world := w }) (hv : v.truthy w.heap = true)
      (ht : Vm.tick E { u with world := w } = .ok u') (hms : Answers E c ms u' x) :
      Answers E c (m :: ms) vm x

/-- How far a run has come in the guards. -/
inductive Vm.Stands (E : Env) (c : Chunk) : List GuardMark → Vm → Vm → Prop where
  | body {vm vm'} (h : Vm.Runs E vm vm') : Stands E c [] vm vm'
  | lost {m ms vm vm'} (h : vm'.Lost) : Stands E c (m :: ms) vm vm'
  | checks {m ms vm vm'} (h : Vm.Runs E vm vm') (hat : vm'.Between c m.first m.test) :
      Stands E c (m :: ms) vm vm'
  | opens {m ms v vm u vm'} {w : World} (h : Vm.Runs E vm u)
      (hu : Vm.Tests c m v { u with world := w }) (hv : v.truthy w.heap = true)
      (ht : Vm.tick E { u with world := w } = .ok vm') (hat : vm'.At c (m.test + 1)) :
      Stands E c (m :: ms) vm vm'
  | passed {m ms v vm u u' u'' vm'} {w w' : World} (h : Vm.Runs E vm u)
      (hu : Vm.Tests c m v { u with world := w }) (hv : v.truthy w.heap = true)
      (ht : Vm.tick E { u with world := w } = .ok u')
      (ht' : Vm.tick E { u' with world := w' } = .ok u'') (hms : Stands E c ms u'' vm') :
      Stands E c (m :: ms) vm vm'
  | refuses {m ms v vm u u' vm'} {w : World} (h : Vm.Runs E vm u)
      (hu : Vm.Tests c m v { u with world := w }) (hv : v.truthy w.heap = false)
      (ht : Vm.tick E { u with world := w } = .ok u') (h' : Vm.Runs E u' vm')
      (hat : vm'.Between c (m.test + 2) (m.stop - 1)) : Stands E c (m :: ms) vm vm'
  | answered {m ms x vm vm'} (h : Vm.Answers E c (m :: ms) vm x) (hframes : vm'.frames = [])
      (hx : vm'.status = .done x) : Stands E c (m :: ms) vm vm'

section Guards

variable {X : Emitter} {N : List Note} {P : List Plantilla} {Γ : List Local} {E : Env} {c : Chunk}
  {gs : List Guard} {m : GuardMark} {ms : List GuardMark} {a b n : ℕ} {vm vm' : Vm} {w : World}
  {x : Value}

/-- A test goes on behind its guard with a value that is true, and to the other expression with one
    that is not. -/
theorem Vm.Tests.tick {v : Value} {i : Instr} (h : vm.Tests c m v)
    (hi : c.code[m.test]? = some i) (hop : i.op = .jumpIfFalse) (hto : i.operand = m.test + 2)
    (ht : vm.tick E = .ok vm') :
    vm'.At c (if v.truthy vm.world.heap then m.test + 1 else m.test + 2) := by
  obtain ⟨⟨hst, g, hframes, rfl, hpc⟩, st, hstack⟩ := h
  rw [← hpc] at hi
  simp only [Vm.tick, hst, hframes, hi, Vm.exec, hop, hstack] at ht
  cases ht
  split
  · exact ⟨rfl, _, rfl, rfl, congrArg (· + 1) hpc⟩
  · exact ⟨rfl, _, rfl, rfl, hto⟩

/-- A value is there to be tested, since the machine goes on. -/
theorem Vm.At.tests {i : Instr} (h : vm.At c m.test) (hi : c.code[m.test]? = some i)
    (hop : i.op = .jumpIfFalse) (ht : vm.tick E = .ok vm') : ∃ v, vm.Tests c m v := by
  cases hstack : vm.stack with
  | nil =>
    obtain ⟨hst, g, hframes, rfl, hpc⟩ := h
    rw [← hpc] at hi
    simp only [Vm.tick, hst, hframes, hi, Vm.exec, hop, hstack] at ht
    cases ht
  | cons v st => exact ⟨v, h, st, hstack⟩

/-- The jump behind a test goes to the next guard. -/
theorem Vm.At.jump {p q : ℕ} {i : Instr} (h : vm.At c p) (hi : c.code[p]? = some i)
    (hop : i.op = .jump) (hto : i.operand = q) (hlt : p + 1 < q) (ht : vm.tick E = .ok vm') :
    vm'.At c q := by
  obtain ⟨hst, g, hframes, rfl, rfl⟩ := h
  have hforward : ¬ i.operand ≤ g.pc + 1 := by omega
  simp only [Vm.tick, hst, hframes, hi, Vm.exec, hop, Vm.jump, hforward, if_false] at ht
  cases ht
  exact ⟨rfl, _, rfl, rfl, hto⟩

/-- The return at the end of the other expression ends the run. -/
theorem Vm.At.ret {p : ℕ} {i : Instr} (h : vm.At c p) (hi : c.code[p]? = some i)
    (hop : i.op = .ret) (ht : vm.tick E = .ok vm') :
    ∃ x st, vm.stack = x :: st ∧ vm'.frames = [] ∧ vm'.status = .done x := by
  obtain ⟨hst, g, hframes, rfl, rfl⟩ := h
  simp only [Vm.tick, hst, hframes, hi, Vm.exec, hop] at ht
  split at ht
  · next x st hstack =>
    cases ht
    exact ⟨x, st, hstack, rfl, rfl⟩
  · cases ht

/-- The code of a guard, at its mark. -/
structure GuardMark.Laid (c : Chunk) (m : GuardMark) : Prop where
  first_le : m.first ≤ m.test
  test_lt : m.test + 2 ≤ m.stop - 1
  condition : Within c m.first m.test m.first m.test
  test : ∃ loc, c.code[m.test]? = some ⟨.jumpIfFalse, m.test + 2, loc⟩
  jump : ∃ loc, c.code[m.test + 1]? = some ⟨.jump, m.stop, loc⟩
  otherwise : Within c (m.test + 2) (m.stop - 1) (m.test + 2) (m.stop - 1)
  ret : ∃ loc, c.code[m.stop - 1]? = some ⟨.ret, 0, loc⟩

/-- The code of the first guard, before that of the others. -/
theorem GuardsAt.laid (h : GuardsAt X N P Γ c gs (m :: ms) a b) :
    m.first = a ∧ m.Laid c ∧ ∃ gs', GuardsAt X N P Γ c gs' ms m.stop b := by
  cases h with
  | cons ht htl hi hj hu hul hr hh hms =>
    refine ⟨rfl, ⟨htl.le, hul.le, htl.within rfl ht.isPlain, ⟨_, hi⟩, ⟨_, hj⟩,
      hul.within rfl hu.isPlain, ⟨_, hr⟩⟩, _, hms⟩

theorem GuardsAt.le (h : GuardsAt X N P Γ c gs ms a b) : a ≤ b := by
  induction h with
  | nil => exact Nat.le_refl _
  | cons ht htl hi hj hu hul hr hh hms ih =>
    have h₁ := htl.le
    have h₂ := hul.le
    omega

/-- A run that is at the first position of the guards. -/
theorem Vm.At.stands (h : vm.At c a) (hms : GuardsAt X N P Γ c gs ms a b) :
    Vm.Stands E c ms vm vm := by
  cases ms with
  | nil => exact .body .refl
  | cons m ms =>
    obtain ⟨hfirst, hm, -⟩ := hms.laid
    exact .checks .refl (h.between hfirst.le (hfirst ▸ hm.first_le))

/-- **A turn goes on in the guards.** -/
theorem Vm.Stands.tick {start : Vm} (h : Vm.Stands E c ms start vm)
    (hms : GuardsAt X N P Γ c gs ms a b) (ht : Vm.tick E { vm with world := w } = .ok vm') :
    Vm.Stands E c ms start vm' := by
  induction h generalizing gs a with
  | body h => exact .body (h.tick w ht)
  | lost h => exact .lost ((h.world w).tick ht)
  | @checks m ms start vm h hat =>
    obtain ⟨-, hm, -⟩ := hms.laid
    obtain ⟨loc, hi⟩ := hm.test
    by_cases hreached : Vm.At c m.test { vm with world := w }
    · -- the condition has left its value
      obtain ⟨v, hv⟩ := hreached.tests hi rfl ht
      have hnext := hv.tick hi rfl rfl ht
      cases htrue : v.truthy w.heap with
      | true => exact .opens h hv htrue ht (by simpa [htrue] using hnext)
      | false =>
        have hnext : vm'.At c (m.test + 2) := by simpa [htrue] using hnext
        exact .refuses h hv htrue ht .refl (hnext.between (Nat.le_refl _) hm.test_lt)
    · obtain hat | hlost := (hat.world w).tick hm.condition hreached ht
      · exact .checks (h.tick w ht) hat
      · exact .lost hlost
  | @opens m ms v start u vm w₀ h hu hv ht₀ hat =>
    obtain ⟨-, hm, gs', hrest⟩ := hms.laid
    obtain ⟨loc, hj⟩ := hm.jump
    have hlt := hm.test_lt
    have hnext : vm'.At c m.stop := (hat.world w).jump hj rfl rfl (by omega) ht
    exact .passed h hu hv ht₀ ht (hnext.stands hrest)
  | passed h hu hv ht₀ ht₁ hrest ih =>
    obtain ⟨-, -, gs', hms'⟩ := hms.laid
    exact .passed h hu hv ht₀ ht₁ (ih hms' ht)
  | @refuses m ms v start u u' vm w₀ h hu hv ht₀ h' hat =>
    obtain ⟨-, hm, -⟩ := hms.laid
    obtain ⟨loc, hr⟩ := hm.ret
    by_cases hreached : Vm.At c (m.stop - 1) { vm with world := w }
    · obtain ⟨x, st, hx, hframes, hdone⟩ := hreached.ret hr rfl ht
      exact .answered (.here h hu hv ht₀ h' hreached hx) hframes hdone
    · obtain hat | hlost := (hat.world w).tick hm.otherwise hreached ht
      · exact .refuses h hu hv ht₀ (h'.tick w ht) hat
      · exact .lost hlost
  | answered h hframes hx =>
    simp only [Vm.tick, hx] at ht
    cases ht
    exact .answered h hframes rfl

/-- So does a machine that is resumed. -/
theorem Vm.Stands.resume {start : Vm} {id : ℕ} {args : List Value}
    (h : Vm.Stands E c ms start vm) (hs : vm.status = .suspended id args) (w : World) (v : Value) :
    Vm.Stands E c ms start (Vm.resume { vm with world := w } v) := by
  induction h with
  | body h => exact .body (h.resume w hs v)
  | lost h =>
    obtain ⟨-, message, loc, hst | hst⟩ := h <;> simp [hst] at hs
  | checks h hat => exact .checks (h.resume w hs v) ((hat.world w).resume v)
  | opens h hu hv ht hat =>
    rw [hat.1] at hs
    cases hs
  | passed h hu hv ht ht' hms ih => exact .passed h hu hv ht ht' (ih hs)
  | refuses h hu hv ht h' hat =>
    exact .refuses h hu hv ht (h'.resume w hs v) ((hat.world w).resume v)
  | answered h hframes hx =>
    rw [hx] at hs
    cases hs

theorem Vm.Runs.stands {start : Vm} (h : Vm.Runs E start vm)
    (hms : GuardsAt X N P Γ c gs ms a b) (hs : start.At c a) : Vm.Stands E c ms start vm := by
  induction h with
  | refl => exact hs.stands hms
  | tick _ w ht ih => exact ih.tick hms ht
  | resume _ w hs awaited ih => exact ih.resume hs w awaited

/-- What is passed from a later state is passed from an earlier one. -/
theorem Vm.Passes.of_tick {u : Vm} (h : Vm.Passes E c ms vm u)
    {start : Vm} (ht : Vm.tick E { start with world := w } = .ok vm) : Vm.Passes E c ms start u := by
  have hstart : Vm.Runs E start vm := Vm.Runs.refl.tick w ht
  cases h with
  | nil h => exact .nil (hstart.trans h)
  | cons h hu hv ht' hms => exact .cons (hstart.trans h) hu hv ht' hms

theorem Vm.Answers.of_tick (h : Vm.Answers E c ms vm x)
    {start : Vm} (ht : Vm.tick E { start with world := w } = .ok vm) : Vm.Answers E c ms start x := by
  have hstart : Vm.Runs E start vm := Vm.Runs.refl.tick w ht
  cases h with
  | here h hu hv ht' h' hr hx => exact .here (hstart.trans h) hu hv ht' h' hr hx
  | there h hu hv ht' hms => exact .there (hstart.trans h) hu hv ht' hms

/-- The body is behind the tests of all guards. -/
theorem Vm.Stands.passes {start : Vm} (h : Vm.Stands E c ms start vm)
    (hms : GuardsAt X N P Γ c gs ms a b) (hb : vm.Entered c b) : Vm.Passes E c ms start vm := by
  induction h generalizing gs a with
  | body h => exact .nil h
  | lost h =>
    obtain ⟨inner, g, hframes, -⟩ := hb
    simp [h.1] at hframes
  | checks h hat =>
    obtain ⟨-, hm, gs', hrest⟩ := hms.laid
    have hlt := hm.test_lt
    have hle := hrest.le
    exact absurd hb (hat.not_entered (by omega))
  | opens h hu hv ht hat =>
    obtain ⟨-, hm, gs', hrest⟩ := hms.laid
    have hlt := hm.test_lt
    have hle := hrest.le
    exact absurd hb ((hat.between (Nat.zero_le _) (Nat.le_refl _)).not_entered (by omega))
  | passed h hu hv ht ht' hrest ih =>
    obtain ⟨-, -, gs', hms'⟩ := hms.laid
    exact .cons h hu hv ht ((ih hms' hb).of_tick ht')
  | refuses h hu hv ht h' hat =>
    obtain ⟨-, hm, gs', hrest⟩ := hms.laid
    have hlt := hm.test_lt
    have hle := hrest.le
    exact absurd hb (hat.not_entered (by omega))
  | answered h hframes hx =>
    obtain ⟨inner, g, hframes', -⟩ := hb
    simp [hframes] at hframes'

/-- What is returned comes from the body, or from the guard whose test fails first. -/
theorem Vm.Stands.answers {start : Vm} (h : Vm.Stands E c ms start vm) (hx : vm.status = .done x) :
    Vm.Passes E c ms start vm ∨ Vm.Answers E c ms start x := by
  induction h with
  | body h => exact .inl (.nil h)
  | lost h =>
    obtain ⟨-, message, loc, hst | hst⟩ := h <;> simp [hst] at hx
  | checks h hat => exact absurd hx (hat.1 _)
  | opens h hu hv ht hat =>
    rw [hat.1] at hx
    cases hx
  | passed h hu hv ht ht' hms ih =>
    obtain h' | h' := ih hx
    · exact .inl (.cons h hu hv ht (h'.of_tick ht'))
    · exact .inr (.there h hu hv ht (h'.of_tick ht'))
  | refuses h hu hv ht h' hat => exact absurd hx (hat.1 _)
  | answered h hframes hdone =>
    rw [hdone] at hx
    cases hx
    exact .inr h

end Guards

section Routes

variable {p : Program} {M : Module} {compilar : PlantillaCompiler} {fuel : ℕ} {r : RouteDecl}
  {K : Context} {oracle : Oracle}

/-- **Guards come first.**  In the chunk of a route stands the code of its guards, in their order.
    A run that has entered the body has passed the test of each of them; and the value of a run is
    returned by the body after all tests, or by the guard whose test is the first to fail. -/
theorem guards_first (h : compile compilar fuel p = .ok M) (hK : M.Emits (.route r) K) :
    ∃ ms n, GuardsAt K.emitter K.notes K.plantillas (paramLocals r.params) K.chunk r.guards ms 0 n ∧
      ∀ params w vm, Vm.Runs (M.env oracle) (.start K.chunk params w) vm →
        (vm.Entered K.chunk n → Vm.Passes (M.env oracle) K.chunk ms (.start K.chunk params w) vm) ∧
        ∀ x, vm.status = .done x →
          Vm.Passes (M.env oracle) K.chunk ms (.start K.chunk params w) vm ∨
            Vm.Answers (M.env oracle) K.chunk ms (.start K.chunk params w) x := by
  obtain ⟨-, hof⟩ := hK.chunkOf (compile_spec h)
  obtain ⟨t, ht, hl⟩ := hof.tree
  cases ht with
  | route ht hu =>
    cases hl with
    | seq htl hul =>
      obtain ⟨ms, hms⟩ := ht.guardsAt htl
      refine ⟨ms, _, hms, fun params w vm hrun => ?_⟩
      have hstands := hrun.stands hms ⟨rfl, _, rfl, rfl, rfl⟩
      exact ⟨hstands.passes hms, fun x => hstands.answers⟩

end Routes

/-! ## A route with a guard -/

/-- `require true else 1`, and then `return 2`. -/
def protegidaRoute : RouteDecl where
  method := "GET"
  guards := [⟨.boolLit {} true, .intLit {} 1, {}⟩]
  body := [.returnStmt {} (some (.intLit {} 2))]

def protegida : Program where
  routes := [protegidaRoute]

/-- The machine has returned 2. -/
def Vm.returnsTwo (vm : Vm) : Bool :=
  match vm.status with
  | .done (.int n) => n == 2
  | _ => false

theorem Vm.done_of_returnsTwo {vm : Vm} (h : vm.returnsTwo = true) :
    vm.status = .done (.int 2) := by
  unfold Vm.returnsTwo at h
  split at h
  · next n hst => rw [hst, eq_of_beq h]
  · cases h

/-- The route returns 2, past the test of its guard. -/
theorem guards_first_protegida :
    ∃ M c ms vm, compile (fun _ _ => .error "") 1 protegida = .ok M ∧
      Vm.Runs (M.env mudo) (.start c [] {}) vm ∧ vm.status = .done (.int 2) ∧
      (Vm.Passes (M.env mudo) c ms (.start c [] {}) vm ∨
        Vm.Answers (M.env mudo) c ms (.start c [] {}) (.int 2)) := by
  have hcompiles : ((compile (fun _ _ => .error "") 1 protegida).toOption.any fun M =>
      M.chunks.length == 1 && M.chunks.any fun c =>
        ((Vm.start c [] {}).moves (M.env mudo) (List.replicate 5 .tick)).toOption.any
          Vm.returnsTwo) = true := by decide +kernel
  obtain ⟨M, hM, hcompiles⟩ := ok_of_any hcompiles
  obtain ⟨hlen, hruns⟩ := Bool.and_eq_true_iff.1 hcompiles
  obtain ⟨c, hc⟩ := List.length_eq_one_iff.1 (eq_of_beq hlen)
  rw [hc, List.any_cons, List.any_nil, Bool.or_false] at hruns
  obtain ⟨vm, hvm, htwo⟩ := ok_of_any hruns
  have hK : M.Emits (.route protegidaRoute)
      ⟨M.emitter (.route protegidaRoute), c, M.plantillas, M.notes⟩ := by
    refine .own ?_
    rw [hc, (compile_spec hM).bodies]
    exact List.mem_cons_self
  obtain ⟨ms, n, -, hfirst⟩ := @guards_first _ _ _ _ _ _ mudo hM hK
  have hrun : Vm.Runs (M.env mudo) (.start c [] {}) vm := .of_ticks hvm
  have hdone := Vm.done_of_returnsTwo htwo
  exact ⟨M, c, ms, vm, hM, hrun, hdone, (hfirst [] {} vm hrun).2 _ hdone⟩

end Osodio.Odio
