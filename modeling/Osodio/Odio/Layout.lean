import Mathlib.Data.List.Infix
import Osodio.Odio.Tree

/-!
# Emitting a tree

An emission adds code after what is there already.  Jumps that are still open,
and `try` ranges that are still to come, make the code of a state differ from the
code of the finished chunk; a chunk completes a state when these are the only
differences.  An emission emits a tree when every chunk that completes it has the
tree laid out.

## Main definitions

- `Grows` — the code of a state is continued, and nothing is taken back
- `Completes` — a chunk is the code of a state with its open jumps closed
- `Emission` — what was emitted between two states is a tree

## Main results

- `Emission.seq`, `Emission.cond`, `Emission.loop`, `Emission.tryCatch`, … — one
  rule for each form of structured code
-/

namespace Osodio.Odio

/-! ## States -/

namespace EmitState

def here (s : EmitState) : ℕ := s.chunk.code.length

/-- The state with one more instruction. -/
def push (s : EmitState) (i : Instr) : EmitState :=
  { s with chunk := { s.chunk with code := s.chunk.code ++ [i] } }

/-- The state with the jump at `pos` closed. -/
def patch (s : EmitState) (pos target : ℕ) : EmitState :=
  { s with chunk := { s.chunk with code := patchCode s.chunk.code pos target } }

/-- The state with several jumps closed. -/
def patchAll (s : EmitState) (positions : List ℕ) (target : ℕ) : EmitState :=
  { s with chunk := { s.chunk with
    code := positions.foldl (fun code pos => patchCode code pos target) s.chunk.code } }

/-- The positions that a state remembers lie in its code. -/
structure Wf (s : EmitState) : Prop where
  loops : ∀ ctx ∈ s.loops, ∀ j ∈ ctx.breaks ++ ctx.continues, j < s.here
  tries : ∀ r ∈ s.chunk.tryRanges, r.stop ≤ s.here

@[simp] theorem here_push (s : EmitState) (i : Instr) : (s.push i).here = s.here + 1 := by
  simp [here, push]

@[simp] theorem here_patch (s : EmitState) (pos target : ℕ) :
    (s.patch pos target).here = s.here := by
  simp [here, patch, patchCode]

theorem length_patchCodes (positions : List ℕ) (target : ℕ) (code : List Instr) :
    (positions.foldl (fun code pos => patchCode code pos target) code).length = code.length := by
  induction positions generalizing code with
  | nil => rfl
  | cons p ps ih => rw [List.foldl_cons, ih, patchCode, List.length_modify]

@[simp] theorem here_patchAll (s : EmitState) (positions : List ℕ) (target : ℕ) :
    (s.patchAll positions target).here = s.here := length_patchCodes positions target _

theorem code_push_lt (s : EmitState) (i : Instr) {p : ℕ} (h : p < s.here) :
    (s.push i).chunk.code[p]? = s.chunk.code[p]? :=
  List.getElem?_append_left h

@[simp] theorem code_push_here (s : EmitState) (i : Instr) :
    (s.push i).chunk.code[s.here]? = some i := by
  simp [push, here]

theorem code_patch_ne (s : EmitState) {pos p : ℕ} (target : ℕ) (h : p ≠ pos) :
    (s.patch pos target).chunk.code[p]? = s.chunk.code[p]? := by
  simp [patch, patchCode, Ne.symm h]

theorem code_patch_self (s : EmitState) {pos : ℕ} (target : ℕ) {i : Instr}
    (h : s.chunk.code[pos]? = some i) :
    (s.patch pos target).chunk.code[pos]? = some { i with operand := target } := by
  simp [patch, patchCode, h]

theorem getElem?_patchCodes_of_notMem {positions : List ℕ} {p : ℕ} (h : p ∉ positions)
    (target : ℕ) (code : List Instr) :
    (positions.foldl (fun code pos => patchCode code pos target) code)[p]? = code[p]? := by
  induction positions generalizing code with
  | nil => rfl
  | cons q qs ih =>
    obtain ⟨hq, hqs⟩ := List.ne_and_not_mem_of_not_mem_cons h
    rw [List.foldl_cons, ih hqs]
    simp [patchCode, Ne.symm hq]

theorem getElem?_patchCodes_of_mem {positions : List ℕ} {p : ℕ} (h : p ∈ positions)
    (target : ℕ) (code : List Instr) :
    (positions.foldl (fun code pos => patchCode code pos target) code)[p]? =
      code[p]?.map fun i => { i with operand := target } := by
  induction positions generalizing code with
  | nil => cases h
  | cons q qs ih =>
    rw [List.foldl_cons]
    by_cases hqs : p ∈ qs
    · rw [ih hqs, patchCode, List.getElem?_modify, Option.map_eq_map, Option.map_map]
      congr 1
      funext i
      simp only [Function.comp_apply]
      split <;> rfl
    · obtain rfl : p = q := (List.mem_cons.1 h).resolve_right hqs
      rw [getElem?_patchCodes_of_notMem hqs]
      simp [patchCode]

end EmitState

/-! ## Growth -/

/-- What an emission never takes back. -/
structure Retains (s s' : EmitState) : Prop where
  constants : s.chunk.constants <+: s'.chunk.constants
  numLocals : s.chunk.numLocals ≤ s'.chunk.numLocals
  hasAwait : s.chunk.hasAwait = true → s'.chunk.hasAwait = true
  plantillas : s.plantillas <+: s'.plantillas
  notes : s.notes <+: s'.notes

theorem Retains.refl (s : EmitState) : Retains s s :=
  ⟨List.prefix_rfl, le_rfl, id, List.prefix_rfl, List.prefix_rfl⟩

theorem Retains.trans {s₁ s₂ s₃ : EmitState} (h : Retains s₁ s₂) (h' : Retains s₂ s₃) :
    Retains s₁ s₃ :=
  ⟨h.constants.trans h'.constants, h.numLocals.trans h'.numLocals, h'.hasAwait ∘ h.hasAwait,
    h.plantillas.trans h'.plantillas, h.notes.trans h'.notes⟩

/-- The innermost loop gets new open jumps between `a` and `b`, and the others
    stay as they are. -/
def LoopsGrow (a b : ℕ) : List LoopCtx → List LoopCtx → Prop
  | [], [] => True
  | c :: cs, c' :: cs' => cs' = cs ∧ ∃ nb nc, c'.breaks = c.breaks ++ nb ∧
      c'.continues = c.continues ++ nc ∧ ∀ j ∈ nb ++ nc, a ≤ j ∧ j < b
  | _, _ => False

theorem LoopsGrow.refl (a b : ℕ) (ls : List LoopCtx) : LoopsGrow a b ls ls := by
  cases ls with
  | nil => trivial
  | cons c cs => exact ⟨rfl, [], [], by simp⟩

theorem LoopsGrow.trans {a b c d : ℕ} {l₁ l₂ l₃ : List LoopCtx} (hab : a ≤ b) (hbc : b ≤ c)
    (hcd : c ≤ d) (h : LoopsGrow a b l₁ l₂) (h' : LoopsGrow c d l₂ l₃) :
    LoopsGrow a d l₁ l₃ := by
  match l₁, l₂, l₃, h, h' with
  | [], [], [], _, _ => trivial
  | c₁ :: cs₁, c₂ :: cs₂, c₃ :: cs₃, ⟨e, nb, nc, hb, hc, hj⟩, ⟨e', nb', nc', hb', hc', hj'⟩ =>
    refine ⟨e'.trans e, nb ++ nb', nc ++ nc', by rw [hb', hb, List.append_assoc],
      by rw [hc', hc, List.append_assoc], fun j hm => ?_⟩
    have hm : j ∈ nb ++ nc ∨ j ∈ nb' ++ nc' := by
      simp only [List.mem_append] at hm ⊢
      tauto
    rcases hm with hm | hm
    · have := hj j hm
      omega
    · have := hj' j hm
      omega

/-- The new `try` ranges lie between `a` and `b`, and so do their handlers. -/
def TriesGrow (a b : ℕ) (rs rs' : List TryRange) : Prop :=
  ∃ new, rs' = rs ++ new ∧
    ∀ r ∈ new, a ≤ r.first ∧ r.first ≤ r.stop ∧ r.stop ≤ b ∧ r.catchPc ≤ b

theorem TriesGrow.refl (a b : ℕ) (rs : List TryRange) : TriesGrow a b rs rs :=
  ⟨[], by simp⟩

theorem TriesGrow.trans {a b c d : ℕ} {r₁ r₂ r₃ : List TryRange} (hac : a ≤ c) (hbd : b ≤ d)
    (h : TriesGrow a b r₁ r₂) (h' : TriesGrow c d r₂ r₃) : TriesGrow a d r₁ r₃ := by
  obtain ⟨n₁, rfl, h₁⟩ := h
  obtain ⟨n₂, rfl, h₂⟩ := h'
  refine ⟨n₁ ++ n₂, List.append_assoc _ _ _, fun r hr => ?_⟩
  rcases List.mem_append.1 hr with hr | hr
  · have := h₁ r hr
    omega
  · have := h₂ r hr
    omega

/-- The code of `s` is continued, and nothing is taken back. -/
structure Grows (s s' : EmitState) : Prop extends Retains s s' where
  code : s.chunk.code <+: s'.chunk.code
  tries : TriesGrow s.here s'.here s.chunk.tryRanges s'.chunk.tryRanges
  loops : LoopsGrow s.here s'.here s.loops s'.loops

theorem Grows.here_le {s s' : EmitState} (h : Grows s s') : s.here ≤ s'.here := h.code.length_le

theorem Grows.refl (s : EmitState) : Grows s s :=
  ⟨.refl s, List.prefix_rfl, .refl _ _ _, .refl _ _ _⟩

theorem Grows.trans {s₁ s₂ s₃ : EmitState} (h : Grows s₁ s₂) (h' : Grows s₂ s₃) :
    Grows s₁ s₃ :=
  ⟨h.toRetains.trans h'.toRetains, h.code.trans h'.code,
    h.tries.trans h.here_le h'.here_le h'.tries,
    h.loops.trans h.here_le le_rfl h'.here_le h'.loops⟩

theorem Grows.getElem? {s s' : EmitState} (h : Grows s s') {p : ℕ} (hp : p < s.here) :
    s'.chunk.code[p]? = s.chunk.code[p]? := by
  obtain ⟨new, hnew⟩ := h.code
  rw [← hnew, List.getElem?_append_left hp]

theorem Grows.push (s : EmitState) (i : Instr) : Grows s (s.push i) :=
  ⟨⟨List.prefix_rfl, le_rfl, id, List.prefix_rfl, List.prefix_rfl⟩, ⟨[i], rfl⟩,
    .refl _ _ _, .refl _ _ _⟩

/-- Closing a jump that is not part of `s` keeps the growth from `s`. -/
theorem Grows.patch {s s' : EmitState} (h : Grows s s') {pos : ℕ} (hp : s.here ≤ pos)
    (target : ℕ) : Grows s (s'.patch pos target) := by
  refine ⟨⟨h.constants, h.numLocals, h.hasAwait, h.plantillas, h.notes⟩, ?_, ?_, ?_⟩
  · obtain ⟨new, hnew⟩ := h.code
    refine ⟨patchCode new (pos - s.here) target, ?_⟩
    apply List.ext_getElem?
    intro p
    rcases Nat.lt_or_ge p s.here with hlt | hge
    · have hne : p ≠ pos := by omega
      rw [EmitState.code_patch_ne _ _ hne, ← hnew, List.getElem?_append_left hlt,
        List.getElem?_append_left hlt]
    · have hge' : s.chunk.code.length ≤ p := hge
      have hp' : s.chunk.code.length ≤ pos := hp
      have heq : pos - s.here = p - s.chunk.code.length ↔ pos = p := by
        simp only [EmitState.here]
        omega
      simp only [EmitState.patch, patchCode, ← hnew, List.getElem?_append_right hge',
        List.getElem?_modify, heq]
  · rw [EmitState.here_patch]
    exact h.tries
  · rw [EmitState.here_patch]
    exact h.loops

theorem Grows.patchAll {s s' : EmitState} (h : Grows s s') {positions : List ℕ}
    (hp : ∀ j ∈ positions, s.here ≤ j) (target : ℕ) : Grows s (s'.patchAll positions target) := by
  induction positions generalizing s' with
  | nil => exact h
  | cons p ps ih =>
    exact ih (h.patch (hp p (by simp)) target) fun j hj => hp j (List.mem_cons_of_mem _ hj)

theorem EmitState.Wf.grows {s s' : EmitState} (hw : s.Wf) (h : Grows s s') : s'.Wf := by
  constructor
  · intro ctx hctx j hj
    have hle := h.here_le
    have hl := h.loops
    revert hl
    cases hs : s.loops with
    | nil =>
      intro hl
      cases hs' : s'.loops with
      | nil => simp [hs'] at hctx
      | cons c cs => simp [hs', LoopsGrow] at hl
    | cons c cs =>
      intro hl
      cases hs' : s'.loops with
      | nil => simp [hs', LoopsGrow] at hl
      | cons c' cs' =>
        rw [hs'] at hl hctx
        obtain ⟨rfl, nb, nc, hb, hc, hnew⟩ := hl
        rcases List.mem_cons.1 hctx with rfl | hctx
        · have hj : j ∈ c.breaks ++ c.continues ∨ j ∈ nb ++ nc := by
            simp only [hb, hc, List.mem_append] at hj ⊢
            tauto
          rcases hj with hj | hj
          · have := hw.loops c (by simp [hs]) j hj
            omega
          · exact (hnew j hj).2
        · have := hw.loops ctx (by simp [hs, hctx]) j hj
          omega
  · intro r hr
    obtain ⟨new, hnew, hin⟩ := h.tries
    have hle := h.here_le
    rw [hnew] at hr
    rcases List.mem_append.1 hr with hr | hr
    · have := hw.tries r hr
      omega
    · exact (hin r hr).2.2.1

/-! ## Completion -/

/-- Where the open jump at `p` of the innermost loop goes, with `lt` as the
    targets of its `break` and its `continue`. -/
def openTarget (loops : List LoopCtx) (lt : Option (ℕ × ℕ)) (p : ℕ) : Option ℕ :=
  match loops, lt with
  | ctx :: _, some (brk, cont) =>
    if p ∈ ctx.breaks then some brk else if p ∈ ctx.continues then some cont else none
  | _, _ => none

/-- An instruction, with its jump closed if it is open. -/
def closeJump (target : Option ℕ) (i : Instr) : Instr :=
  match target with
  | some t => { i with operand := t }
  | none => i

theorem map_closeJump_none (o : Option Instr) : o.map (closeJump none) = o := by
  cases o <;> rfl

/-- The chunk of `K` is the code of `s` from `a` on, with the jumps that are open
    closed, and `nest` the `try` ranges around. -/
structure Completes (K : Context) (s : EmitState) (lt : Option (ℕ × ℕ))
    (nest : List TryRange) (a : ℕ) : Prop where
  code : ∀ p, a ≤ p → p < s.here →
    K.chunk.code[p]? = s.chunk.code[p]?.map (closeJump (openTarget s.loops lt p))
  handler : ∀ p, a ≤ p → p < s.here →
    findHandler K.chunk.tryRanges p = (findHandler s.chunk.tryRanges p).or nest.head?
  inLoop : s.loops ≠ [] → lt.isSome
  constants : s.chunk.constants <+: K.chunk.constants
  numLocals : s.chunk.numLocals ≤ K.chunk.numLocals
  hasAwait : s.chunk.hasAwait = true → K.chunk.hasAwait = true
  plantillas : s.plantillas <+: K.plantillas
  notes : s.notes <+: K.notes

/-- What the code before `s.here` depends on besides its instructions: its open
    jumps and its handlers. -/
structure Keeps (s s' : EmitState) : Prop extends Retains s s' where
  here_le : s.here ≤ s'.here
  target : ∀ lt p, p < s.here → openTarget s'.loops lt p = openTarget s.loops lt p
  handler : ∀ p, p < s.here →
    findHandler s'.chunk.tryRanges p = findHandler s.chunk.tryRanges p
  inLoop : s.loops ≠ [] → s'.loops ≠ []

theorem Keeps.refl (s : EmitState) : Keeps s s :=
  ⟨.refl s, le_rfl, fun _ _ _ => rfl, fun _ _ => rfl, id⟩

theorem Keeps.trans {s₁ s₂ s₃ : EmitState} (h : Keeps s₁ s₂) (h' : Keeps s₂ s₃) :
    Keeps s₁ s₃ where
  toRetains := h.toRetains.trans h'.toRetains
  here_le := h.here_le.trans h'.here_le
  target lt p hp := (h'.target lt p (hp.trans_le h.here_le)).trans (h.target lt p hp)
  handler p hp := (h'.handler p (hp.trans_le h.here_le)).trans (h.handler p hp)
  inLoop := h'.inLoop ∘ h.inLoop

theorem Keeps.patch {s s' : EmitState} (h : Keeps s s') (pos target : ℕ) :
    Keeps s (s'.patch pos target) :=
  ⟨⟨h.constants, h.numLocals, h.hasAwait, h.plantillas, h.notes⟩,
    (s'.here_patch pos target).symm ▸ h.here_le, h.target, h.handler, h.inLoop⟩

theorem Keeps.patchAll {s s' : EmitState} (h : Keeps s s') (positions : List ℕ) (target : ℕ) :
    Keeps s (s'.patchAll positions target) :=
  ⟨⟨h.constants, h.numLocals, h.hasAwait, h.plantillas, h.notes⟩,
    (s'.here_patchAll positions target).symm ▸ h.here_le, h.target, h.handler, h.inLoop⟩

theorem openTarget_of_notMem {loops : List LoopCtx} {p : ℕ}
    (h : ∀ ctx ∈ loops, p ∉ ctx.breaks ++ ctx.continues) (lt : Option (ℕ × ℕ)) :
    openTarget loops lt p = none := by
  unfold openTarget
  split
  · next ctx _ brk cont =>
    have := h ctx (by simp)
    simp only [List.mem_append, not_or] at this
    rw [if_neg this.1, if_neg this.2]
  · rfl

theorem LoopsGrow.openTarget {a b p : ℕ} {ls ls' : List LoopCtx} (h : LoopsGrow a b ls ls')
    (hp : p < a) (lt : Option (ℕ × ℕ)) : openTarget ls' lt p = openTarget ls lt p := by
  match ls, ls', h with
  | [], [], _ => rfl
  | c :: _, c' :: _, ⟨rfl, nb, nc, hb, hc, hj⟩ =>
    have hnb : p ∉ nb := fun hm => by
      have := hj p (by simp [hm])
      omega
    have hnc : p ∉ nc := fun hm => by
      have := hj p (by simp [hm])
      omega
    cases lt with
    | none => rfl
    | some t => simp [Odio.openTarget, hb, hc, hnb, hnc]

theorem TriesGrow.findHandler {a b p : ℕ} {rs rs' : List TryRange} (h : TriesGrow a b rs rs')
    (hp : p < a) : findHandler rs' p = findHandler rs p := by
  obtain ⟨new, rfl, hnew⟩ := h
  refine findHandler_append_left fun r hr hc => ?_
  have := hnew r hr
  have := hc.1
  omega

theorem Grows.keeps {s s' : EmitState} (h : Grows s s') : Keeps s s' where
  toRetains := h.toRetains
  here_le := h.here_le
  target lt p hp := h.loops.openTarget hp lt
  handler p hp := h.tries.findHandler hp
  inLoop hne he := by
    have hl := h.loops
    rw [he] at hl
    cases hs : s.loops with
    | nil => exact hne hs
    | cons c cs =>
      rw [hs] at hl
      exact hl

/-- A chunk that completes a state completes an earlier one as well. -/
theorem Completes.back {K : Context} {s s' : EmitState} {lt : Option (ℕ × ℕ)}
    {nest : List TryRange} {a a' : ℕ} (h : Completes K s' lt nest a) (k : Keeps s s')
    (ha : a ≤ a')
    (hc : ∀ p, a' ≤ p → p < s.here → s'.chunk.code[p]? = s.chunk.code[p]?) :
    Completes K s lt nest a' where
  code p hp hlt := by
    rw [h.code p (ha.trans hp) (hlt.trans_le k.here_le), hc p hp hlt, k.target lt p hlt]
  handler p hp hlt := by
    rw [h.handler p (ha.trans hp) (hlt.trans_le k.here_le), k.handler p hlt]
  inLoop := h.inLoop ∘ k.inLoop
  constants := k.constants.trans h.constants
  numLocals := k.numLocals.trans h.numLocals
  hasAwait := h.hasAwait ∘ k.hasAwait
  plantillas := k.plantillas.trans h.plantillas
  notes := k.notes.trans h.notes

theorem Completes.of_le {K : Context} {s : EmitState} {lt : Option (ℕ × ℕ)}
    {nest : List TryRange} {a a' : ℕ} (h : Completes K s lt nest a) (ha : a ≤ a') :
    Completes K s lt nest a' :=
  h.back (.refl s) ha fun _ _ _ => rfl

theorem EmitState.Wf.openTarget {s : EmitState} (hw : s.Wf) (lt : Option (ℕ × ℕ)) {p : ℕ}
    (hp : s.here ≤ p) : openTarget s.loops lt p = none :=
  openTarget_of_notMem (fun ctx hctx hm => by
    have := hw.loops ctx hctx p hm
    omega) lt

theorem EmitState.Wf.findHandler {s : EmitState} (hw : s.Wf) {p : ℕ} (hp : s.here ≤ p) :
    findHandler s.chunk.tryRanges p = none := by
  have hn : ∀ r ∈ s.chunk.tryRanges, ¬ r.Covers p := fun r hr hc => by
    have := hw.tries r hr
    have := hc.2
    omega
  exact foldl_betterHandler_eq hn none

/-- The instruction emitted right after `s`, however its jump was closed since. -/
theorem Completes.instrAt {K : Context} {s s' : EmitState} {j i : Instr}
    {lt : Option (ℕ × ℕ)} {nest : List TryRange} {a : ℕ} (h : Completes K s' lt nest a)
    (hw : s.Wf) (ha : a ≤ s.here) (k : Keeps (s.push j) s')
    (hi : s'.chunk.code[s.here]? = some i) : InstrAt K nest s.here i.op i.operand i.loc := by
  have hlt : s.here < (s.push j).here := by simp
  have hlt' : s.here < s'.here := hlt.trans_le k.here_le
  constructor
  · rw [h.code _ ha hlt', hi, k.target lt _ hlt]
    exact congrArg some (by rw [show (s.push j).loops = s.loops from rfl,
      hw.openTarget lt le_rfl]; rfl)
  · rw [h.handler _ ha hlt', k.handler _ hlt]
    rw [show (s.push j).chunk.tryRanges = s.chunk.tryRanges from rfl,
      hw.findHandler le_rfl, Option.none_or]

/-! ## Emission of a tree -/

/-- What was emitted from `s` to `s'` is the tree `t`. -/
structure Emission (X : Emitter) (s s' : EmitState) (t : Tree) : Prop extends Grows s s' where
  lay : ∀ K lt nest, K.emitter = X → Completes K s' lt nest s.here →
    Lay K lt nest t s.here s'.here

section Rules

variable {X : Emitter} {s s₁ s₂ s₃ s' : EmitState} {t u : Tree} {loc : SourceLoc}

theorem Emission.of_grows (h : Grows s s') (hh : s'.here = s.here) : Emission X s s' .nil where
  toGrows := h
  lay _ _ _ _ _ := hh ▸ Lay.nil

theorem Emission.refl (s : EmitState) : Emission X s s .nil := .of_grows (.refl s) rfl

theorem Emission.seq (ht : Emission X s s₁ t) (hu : Emission X s₁ s' u) :
    Emission X s s' (.seq t u) where
  toGrows := ht.toGrows.trans hu.toGrows
  lay K lt nest hK hc := by
    have hle := ht.here_le
    refine .seq (ht.lay K lt nest hK ?_) (hu.lay K lt nest hK (hc.of_le hle))
    exact hc.back hu.keeps le_rfl fun p _ hp => hu.getElem? hp

/-- What emits nothing may stand before a tree. -/
theorem Emission.after_nil (h : Emission X s s₁ .nil) (ht : Emission X s₁ s' t) :
    Emission X s s' t where
  toGrows := h.toGrows.trans ht.toGrows
  lay K lt nest hK hc := by
    have hn := h.lay K lt nest hK (hc.back ht.keeps le_rfl fun p _ hp => ht.getElem? hp)
    have hh : s.here = s₁.here := by
      generalize s.here = x, s₁.here = y at hn
      cases hn
      rfl
    rw [hh]
    exact ht.lay K lt nest hK (hh ▸ hc)

/-- What emits nothing may stand after a tree. -/
theorem Emission.before_nil (ht : Emission X s s₁ t) (h : Emission X s₁ s' .nil) :
    Emission X s s' t where
  toGrows := ht.toGrows.trans h.toGrows
  lay K lt nest hK hc := by
    have hn := h.lay K lt nest hK (hc.of_le ht.here_le)
    have hh : s₁.here = s'.here := by
      generalize s₁.here = x, s'.here = y at hn
      cases hn
      rfl
    rw [← hh]
    exact ht.lay K lt nest hK (hc.back h.keeps le_rfl fun p _ hp => h.getElem? hp)

/-- One instruction that goes on to the next. -/
theorem Emission.atom (hw : s.Wf) (a : Atom) {k : ℕ}
    (he : ∀ K lt nest, K.emitter = X → Completes K (s.push ⟨a.code, k, loc⟩) lt nest s.here →
      a.Encodes K k) :
    Emission X s (s.push ⟨a.code, k, loc⟩) (.atom a loc) where
  toGrows := .push s _
  lay K lt nest hK hc := by
    rw [EmitState.here_push]
    exact .atom (hc.instrAt hw le_rfl (.refl _) (s.code_push_here _)) (he K lt nest hK hc)

theorem Emission.ret (hw : s.Wf) : Emission X s (s.push ⟨.ret, 0, loc⟩) (.ret loc) where
  toGrows := .push s _
  lay K lt nest _ hc := by
    rw [EmitState.here_push]
    exact .ret (hc.instrAt hw le_rfl (.refl _) (s.code_push_here _))

theorem Emission.retNull (hw : s.Wf) :
    Emission X s (s.push ⟨.retNull, 0, loc⟩) (.retNull loc) where
  toGrows := .push s _
  lay K lt nest _ hc := by
    rw [EmitState.here_push]
    exact .retNull (hc.instrAt hw le_rfl (.refl _) (s.code_push_here _))

/-! ## Jumps that are closed later -/

/-- A jump over a tree, closed right after it. -/
theorem Emission.lay_over {K : Context} {lt : Option (ℕ × ℕ)} {nest : List TryRange}
    {i₀ : Instr} {target : ℕ} (hw : s.Wf) (ht : Emission X (s.push i₀) s₁ t)
    (hK : K.emitter = X) (hc : Completes K (s₁.patch s.here target) lt nest s.here) :
    InstrAt K nest s.here i₀.op target i₀.loc ∧ Lay K lt nest t (s.here + 1) s₁.here := by
  constructor
  · have hi : s₁.chunk.code[s.here]? = some i₀ := by
      rw [ht.getElem? (by simp), s.code_push_here]
    exact hc.instrAt hw le_rfl (ht.keeps.patch _ _) (s₁.code_patch_self target hi)
  · have h := ht.lay K lt nest hK (hc.back (Keeps.patch (.refl s₁) _ _) (by simp)
      fun p hp _ => s₁.code_patch_ne target (by simp at hp; omega))
    rwa [EmitState.here_push] at h

theorem Emission.peek {op : LogOp} (hw : s.Wf)
    (ht : Emission X
      (s.push ⟨if op = .and then .jumpIfFalsePeek else .jumpIfTruePeek, 0, loc⟩) s₁ t) :
    Emission X s (s₁.patch s.here s₁.here) (.peek op t loc) where
  toGrows := ((Grows.push s _).trans ht.toGrows).patch le_rfl _
  lay K lt nest hK hc := by
    obtain ⟨hi, ht⟩ := ht.lay_over hw hK hc
    rw [EmitState.here_patch]
    exact .peek hi ht

theorem Emission.when (hw : s.Wf) (ht : Emission X (s.push ⟨.jumpIfFalse, 0, loc⟩) s₁ t) :
    Emission X s (s₁.patch s.here s₁.here) (.when t loc) where
  toGrows := ((Grows.push s _).trans ht.toGrows).patch le_rfl _
  lay K lt nest hK hc := by
    obtain ⟨hi, ht⟩ := ht.lay_over hw hK hc
    rw [EmitState.here_patch]
    exact .when hi ht

theorem Emission.cond (hw : s.Wf) (ht : Emission X (s.push ⟨.jumpIfFalse, 0, loc⟩) s₁ t)
    (hu : Emission X ((s₁.push ⟨.jump, 0, loc⟩).patch s.here (s₁.here + 1)) s₂ u) :
    Emission X s (s₂.patch s₁.here s₂.here) (.cond t u loc) where
  toGrows := by
    have hle : s.here ≤ s₁.here := (Grows.push s _).here_le.trans ht.here_le
    have h₁ := ((Grows.push s ⟨.jumpIfFalse, 0, loc⟩).trans ht.toGrows).trans
      (.push s₁ ⟨.jump, 0, loc⟩)
    exact ((h₁.patch le_rfl _).trans hu.toGrows).patch hle _
  lay K lt nest hK hc := by
    have hlt : s.here < s₁.here := by
      have := ht.here_le
      simp at this
      omega
    have hw₁ : s₁.Wf := (hw.grows (.push s _)).grows ht.toGrows
    -- the second jump, and what follows it
    have hmid : Completes K s₂ lt nest (s₁.here + 1) :=
      hc.back (Keeps.patch (.refl s₂) _ _) (by omega)
        fun p hp _ => s₂.code_patch_ne _ (by omega)
    have hu' := hu.lay K lt nest hK (by simpa using hmid)
    simp only [EmitState.here_patch, EmitState.here_push] at hu'
    have hj : s₂.chunk.code[s₁.here]? = some ⟨.jump, 0, loc⟩ := by
      rw [hu.getElem? (by simp), EmitState.code_patch_ne _ _ (by omega), s₁.code_push_here]
    have hj' := hc.instrAt (j := ⟨.jump, 0, loc⟩) hw₁ hlt.le
      (((Keeps.patch (.refl _) _ _).trans hu.keeps).patch _ _) (s₂.code_patch_self _ hj)
    -- the first jump, and the tree it skips
    have hback : ∀ p, p < s₁.here → p ≠ s.here →
        (s₂.patch s₁.here s₂.here).chunk.code[p]? = s₁.chunk.code[p]? := by
      intro p hp hne
      rw [s₂.code_patch_ne _ (by omega), hu.getElem? (by simp; omega),
        EmitState.code_patch_ne _ _ hne, s₁.code_push_lt _ hp]
    have k₁ : Keeps s₁ (s₂.patch s₁.here s₂.here) :=
      ((((Grows.push s₁ _).keeps).patch _ _).trans hu.keeps).patch _ _
    have hi : (s₂.patch s₁.here s₂.here).chunk.code[s.here]? =
        some ⟨.jumpIfFalse, s₁.here + 1, loc⟩ := by
      rw [s₂.code_patch_ne _ (by omega), hu.getElem? (by simp; omega)]
      refine EmitState.code_patch_self (i := ⟨.jumpIfFalse, 0, loc⟩) _ _ ?_
      rw [s₁.code_push_lt _ hlt, ht.getElem? (by simp), s.code_push_here]
    have hi' := hc.instrAt hw le_rfl (ht.keeps.trans k₁) hi
    have ht' := ht.lay K lt nest hK (hc.back k₁ (by simp) fun p hp hlt' =>
      hback p hlt' (by simp at hp; omega))
    rw [EmitState.here_push] at ht'
    rw [EmitState.here_patch]
    exact .cond hi' ht' hj' hu'

theorem Emission.unless (hw : s.Wf)
    (ht : Emission X (((s.push ⟨.jumpIfFalse, 0, loc⟩).push ⟨.jump, 0, loc⟩).patch s.here
      (s.here + 2)) s₁ t) :
    Emission X s (s₁.patch (s.here + 1) s₁.here) (.unless t loc) where
  toGrows := by
    have h₁ := (Grows.push s ⟨.jumpIfFalse, 0, loc⟩).trans (.push _ ⟨.jump, 0, loc⟩)
    exact ((h₁.patch le_rfl _).trans ht.toGrows).patch (by omega) _
  lay K lt nest hK hc := by
    have hw₁ := hw.grows (.push s ⟨.jumpIfFalse, 0, loc⟩)
    have ht' := ht.lay K lt nest hK (hc.back (Keeps.patch (.refl s₁) _ _) (by simp; omega)
      fun p hp _ => s₁.code_patch_ne _ (by simp at hp; omega))
    have k := ((Keeps.patch (.refl _) _ _).trans ht.keeps).patch (s.here + 1) s₁.here
    have hj : s₁.chunk.code[s.here + 1]? = some ⟨.jump, 0, loc⟩ := by
      rw [ht.getElem? (by simp), EmitState.code_patch_ne _ _ (by omega)]
      have := (s.push ⟨.jumpIfFalse, 0, loc⟩).code_push_here ⟨.jump, 0, loc⟩
      rwa [EmitState.here_push] at this
    have hj' := hc.instrAt (j := ⟨.jump, 0, loc⟩) hw₁ (by simp) k
      (by rw [EmitState.here_push]; exact s₁.code_patch_self _ hj)
    have hi : (s₁.patch (s.here + 1) s₁.here).chunk.code[s.here]? =
        some ⟨.jumpIfFalse, s.here + 2, loc⟩ := by
      rw [s₁.code_patch_ne _ (by omega), ht.getElem? (by rw [EmitState.here_patch, EmitState.here_push, EmitState.here_push]; omega)]
      refine EmitState.code_patch_self (i := ⟨.jumpIfFalse, 0, loc⟩) _ _ ?_
      rw [EmitState.code_push_lt _ _ (by simp), s.code_push_here]
    have hi' := hc.instrAt (j := ⟨.jumpIfFalse, 0, loc⟩) hw le_rfl
      ((Grows.push _ ⟨.jump, 0, loc⟩).keeps.trans k) hi
    rw [EmitState.here_push] at hj'
    simp only [EmitState.here_patch, EmitState.here_push] at ht'
    rw [EmitState.here_patch]
    exact .unless hi' hj' ht'

/-! ## Loops -/

/-- The state with one more loop around. -/
def EmitState.enter (s : EmitState) : EmitState := { s with loops := {} :: s.loops }

/-- The state without its innermost loop. -/
def EmitState.leave (s : EmitState) : EmitState := { s with loops := s.loops.tail }

/-- What was emitted from `s` to `s'` is the body `t` of a loop, with the open
    jumps `ctx`. -/
structure BodyEmission (X : Emitter) (s s' : EmitState) (ctx : LoopCtx) (t : Tree) : Prop
    extends Retains s s' where
  code : s.chunk.code <+: s'.chunk.code
  tries : TriesGrow s.here s'.here s.chunk.tryRanges s'.chunk.tryRanges
  loops : s'.loops = ctx :: s.loops
  opened : ∀ j ∈ ctx.breaks ++ ctx.continues, s.here ≤ j ∧ j < s'.here
  lay : ∀ K lt nest, K.emitter = X → Completes K s' lt nest s.here →
    Lay K lt nest t s.here s'.here

/-- A tree inside a new loop is the body of a loop. -/
theorem Emission.body (h : Emission X s.enter s' t) : ∃ ctx, BodyEmission X s s' ctx t := by
  have hl := h.loops
  cases hs : s'.loops with
  | nil => simp [hs, EmitState.enter, LoopsGrow] at hl
  | cons c cs =>
    rw [hs] at hl
    obtain ⟨rfl, nb, nc, hb, hc, hj⟩ := hl
    refine ⟨c, ⟨h.constants, h.numLocals, h.hasAwait, h.plantillas, h.notes⟩, h.code, h.tries,
      hs, ?_, h.lay⟩
    have hb' : c.breaks = nb := by simpa using hb
    have hc' : c.continues = nc := by simpa using hc
    rw [hb', hc']
    exact hj

/-- What stands before the body of a loop belongs to it. -/
theorem BodyEmission.before {ctx : LoopCtx} (hw : s.Wf) (ht : Emission X s s₁ t)
    (he : s₁.loops = s.loops) (hu : BodyEmission X s₁ s' ctx u) :
    BodyEmission X s s' ctx (.seq t u) where
  toRetains := ht.toRetains.trans hu.toRetains
  code := ht.code.trans hu.code
  tries := ht.tries.trans ht.here_le hu.code.length_le hu.tries
  loops := he ▸ hu.loops
  opened j hj := ⟨ht.here_le.trans (hu.opened j hj).1, (hu.opened j hj).2⟩
  lay K lt nest hK hc := by
    refine .seq (ht.lay K lt nest hK ?_) (hu.lay K lt nest hK (hc.of_le ht.here_le))
    have hle : s₁.here ≤ s'.here := hu.code.length_le
    -- the open jumps are either before `s` or in the body
    have htarget : ∀ p, s.here ≤ p → p < s₁.here →
        openTarget s'.loops lt p = openTarget s₁.loops lt p := by
      intro p hp hlt
      rw [he, hw.openTarget lt hp]
      refine openTarget_of_notMem ?_ lt
      intro c hc' hm
      rw [hu.loops] at hc'
      rcases List.mem_cons.1 hc' with rfl | hc'
      · have := hu.opened p hm
        omega
      · rw [he] at hc'
        have := hw.loops c hc' p hm
        omega
    have hcode : ∀ p, p < s₁.here → s'.chunk.code[p]? = s₁.chunk.code[p]? := by
      intro p hp
      obtain ⟨new, hnew⟩ := hu.code
      rw [← hnew, List.getElem?_append_left hp]
    constructor
    · intro p hp hlt
      rw [hc.code p hp (hlt.trans_le hle), hcode p hlt, htarget p hp hlt]
    · intro p hp hlt
      rw [hc.handler p hp (hlt.trans_le hle), hu.tries.findHandler hlt]
    · intro _
      exact hc.inLoop (by rw [hu.loops]; exact List.cons_ne_nil _ _)
    · exact hu.constants.trans hc.constants
    · exact hu.numLocals.trans hc.numLocals
    · exact hc.hasAwait ∘ hu.hasAwait
    · exact hu.plantillas.trans hc.plantillas
    · exact hu.notes.trans hc.notes

/-- Straight code does not depend on the loop around it. -/
theorem Lay.atoms_any {K : Context} {lt : Option (ℕ × ℕ)} {nest : List TryRange}
    {as : List Atom} {a b : ℕ} (h : Lay K lt nest (.atoms loc as) a b) (lt' : Option (ℕ × ℕ)) :
    Lay K lt' nest (.atoms loc as) a b := by
  induction as generalizing a with
  | nil =>
    cases h
    exact .nil
  | cons x xs ih =>
    cases h with
    | seq ht hu =>
      cases ht with
      | atom hi he => exact .seq (.atom hi he) (ih hu)

/-- Outside of its loop, a body is code like any other. -/
theorem BodyEmission.grows {ctx : LoopCtx} (h : BodyEmission X s s' ctx t) :
    Grows s s'.leave where
  toRetains := ⟨h.constants, h.numLocals, h.hasAwait, h.plantillas, h.notes⟩
  code := h.code
  tries := h.tries
  loops := by
    have hl : s'.leave.loops = s.loops := by simp [EmitState.leave, h.loops]
    rw [hl]
    exact .refl _ _ _

theorem Grows.leave (h : Grows s s') (hl : s'.loops = s.loops) : Grows s.leave s'.leave where
  toRetains := ⟨h.constants, h.numLocals, h.hasAwait, h.plantillas, h.notes⟩
  code := h.code
  tries := h.tries
  loops := by
    have hl' : s'.leave.loops = s.leave.loops := by simp [EmitState.leave, hl]
    rw [hl']
    exact .refl _ _ _

/-- The state after a loop: its last jump, its exit and its `break`s. -/
def EmitState.endLoop (s : EmitState) (loc : SourceLoc) (start exit : ℕ) (ctx : LoopCtx) :
    EmitState :=
  (((s.push ⟨.jump, start, loc⟩).patch exit (s.here + 1)).patchAll ctx.breaks
    (s.here + 1)).leave

theorem EmitState.endLoop_code_ne {s : EmitState} {start exit p : ℕ} {ctx : LoopCtx}
    (hp : p ≠ exit) (hb : p ∉ ctx.breaks) :
    (s.endLoop loc start exit ctx).chunk.code[p]? =
      (s.push ⟨.jump, start, loc⟩).chunk.code[p]? :=
  (getElem?_patchCodes_of_notMem hb _ _).trans (code_patch_ne _ _ hp)

theorem EmitState.endLoop_code_exit {s : EmitState} {start exit : ℕ} {ctx : LoopCtx}
    (hb : exit ∉ ctx.breaks) : (s.endLoop loc start exit ctx).chunk.code[exit]? =
      (s.push ⟨.jump, start, loc⟩).chunk.code[exit]?.map
        fun i => { i with operand := s.here + 1 } :=
  (getElem?_patchCodes_of_notMem hb _ _).trans (by simp [patch, patchCode])

theorem EmitState.endLoop_code_break {s : EmitState} {start exit p : ℕ} {ctx : LoopCtx}
    (hb : p ∈ ctx.breaks) : (s.endLoop loc start exit ctx).chunk.code[p]? =
      (s.push ⟨.jump, start, loc⟩).chunk.code[p]?.map
        fun i => { i with operand := s.here + 1 } := by
  refine (getElem?_patchCodes_of_mem hb _ _).trans ?_
  by_cases hp : p = exit
  · subst hp
    simp only [patch, patchCode, List.getElem?_modify_eq, Option.map_eq_map, Option.map_map]
    rfl
  · rw [code_patch_ne _ _ hp]

theorem EmitState.code_patchAll_of_notMem {s : EmitState} {positions : List ℕ} {p target : ℕ}
    (h : p ∉ positions) : (s.patchAll positions target).chunk.code[p]? = s.chunk.code[p]? :=
  getElem?_patchCodes_of_notMem h _ _

theorem EmitState.code_patchAll_of_mem {s : EmitState} {positions : List ℕ} {p target : ℕ}
    (h : p ∈ positions) : (s.patchAll positions target).chunk.code[p]? =
      s.chunk.code[p]?.map fun i => { i with operand := target } :=
  getElem?_patchCodes_of_mem h _ _

theorem BodyEmission.getElem? {ctx : LoopCtx} (h : BodyEmission X s s' ctx t) {p : ℕ}
    (hp : p < s.here) : s'.chunk.code[p]? = s.chunk.code[p]? :=
  h.grows.getElem? hp

theorem Emission.loop {head body : Tree} {step : List Atom} {toHead : Bool} {target : ℕ}
    {ctx : LoopCtx} (hw : s.Wf) (hh : Emission X s s₁ head)
    (hb : BodyEmission X (s₁.push ⟨.jumpIfFalse, 0, loc⟩) s₂ ctx body)
    (ht : target = if toHead then s.here else s₂.here)
    (hs : Emission X (s₂.patchAll ctx.continues target) s₃ (.atoms loc step))
    (hl : s₃.loops = s₂.loops) :
    Emission X s (s₃.endLoop loc s.here s₁.here ctx)
      (.loop head body (.atoms loc step) toHead loc) := by
  have hw₁ : s₁.Wf := hw.grows hh.toGrows
  have hle : s.here ≤ s₁.here := hh.here_le
  have hle₂ : s₁.here + 1 ≤ s₂.here := by
    have := hb.code.length_le
    simpa [EmitState.here, EmitState.push] using this
  have hle₃ : s₂.here ≤ s₃.here := by simpa using hs.here_le
  have hopen : ∀ j ∈ ctx.breaks ++ ctx.continues, s₁.here + 1 ≤ j ∧ j < s₂.here := by
    intro j hj
    simpa using hb.opened j hj
  have hbrk : ∀ j ∈ ctx.breaks, s₁.here + 1 ≤ j ∧ j < s₂.here := fun j hj =>
    hopen j (List.mem_append_left _ hj)
  have hcnt : ∀ j ∈ ctx.continues, s₁.here + 1 ≤ j ∧ j < s₂.here := fun j hj =>
    hopen j (List.mem_append_right _ hj)
  -- from the body on, seen from outside the loop
  have gstep : Grows (s₂.leave.patchAll ctx.continues target) s₃.leave := hs.toGrows.leave hl
  have gback : ∀ r, r.here ≤ s₁.here + 1 → Grows r s₂.leave →
      Grows r (s₃.leave.push ⟨.jump, s.here, loc⟩) := fun r hr hg =>
    ((hg.patchAll (fun j hj => hr.trans (hcnt j hj).1) target).trans gstep).trans (.push _ _)
  have g₁ : Grows s₁ (s₃.leave.push ⟨.jump, s.here, loc⟩) :=
    gback s₁ (Nat.le_succ _) ((Grows.push s₁ _).trans hb.grows)
  have k₁ : Keeps (s₁.push ⟨.jumpIfFalse, 0, loc⟩) (s₃.endLoop loc s.here s₁.here ctx) :=
    ((gback _ (by simp) hb.grows).keeps.patch _ _).patchAll _ _
  have hend : (s₃.endLoop loc s.here s₁.here ctx).here = s₃.here + 1 :=
    (((s₃.push ⟨.jump, s.here, loc⟩).patch s₁.here (s₃.here + 1)).here_patchAll ctx.breaks
      (s₃.here + 1)).trans (by simp)
  refine ⟨(hh.toGrows.trans ((g₁.patch le_rfl _).patchAll
    (fun j hj => (Nat.le_succ _).trans (hbrk j hj).1) _)), ?_⟩
  intro K lt nest hK hc
  -- what the chunk holds behind the head
  have hcode : ∀ p, s₁.here ≤ p → p < s₃.here + 1 → K.chunk.code[p]? =
      (s₃.endLoop loc s.here s₁.here ctx).chunk.code[p]? := by
    intro p hp hlt
    rw [hc.code p (hle.trans hp) (hend ▸ hlt)]
    have hl' : (s₃.endLoop loc s.here s₁.here ctx).loops = s₁.loops := by
      simp [EmitState.endLoop, EmitState.leave, EmitState.patchAll, EmitState.patch,
        EmitState.push, hl, hb.loops]
    rw [hl', hw₁.openTarget lt hp]
    exact map_closeJump_none _
  -- its jumps: the exit of the head, the one back, and those of the body
  have hj : (s₃.endLoop loc s.here s₁.here ctx).chunk.code[s₃.here]? =
      some ⟨.jump, s.here, loc⟩ := by
    rw [EmitState.endLoop_code_ne (by omega) fun h => by have := hbrk _ h; omega]
    exact s₃.code_push_here _
  have hi : (s₃.endLoop loc s.here s₁.here ctx).chunk.code[s₁.here]? =
      some ⟨.jumpIfFalse, s₃.here + 1, loc⟩ := by
    rw [EmitState.endLoop_code_exit fun h => by have := hbrk _ h; omega]
    rw [s₃.code_push_lt _ (by omega), hs.getElem? (by simp; omega)]
    rw [EmitState.code_patchAll_of_notMem fun h => by have := hcnt _ h; omega]
    rw [BodyEmission.getElem? hb (by simp), s₁.code_push_here]
    rfl
  have hbody : ∀ p, s₁.here + 1 ≤ p → p < s₂.here → K.chunk.code[p]? =
      s₂.chunk.code[p]?.map (closeJump (openTarget s₂.loops (some (s₃.here + 1, target)) p)) := by
    intro p hp hlt
    have h₃ : s₃.chunk.code[p]? = (s₂.patchAll ctx.continues target).chunk.code[p]? :=
      hs.getElem? (by simpa using hlt)
    rw [hcode p (by omega) (by omega), hb.loops]
    by_cases hpb : p ∈ ctx.breaks
    · rw [EmitState.endLoop_code_break hpb, s₃.code_push_lt _ (by omega), h₃]
      simp only [openTarget, if_pos hpb]
      by_cases hpc : p ∈ ctx.continues
      · rw [EmitState.code_patchAll_of_mem hpc, Option.map_map]
        rfl
      · rw [EmitState.code_patchAll_of_notMem hpc]
        rfl
    · rw [EmitState.endLoop_code_ne (by omega) hpb, s₃.code_push_lt _ (by omega), h₃]
      simp only [openTarget, if_neg hpb]
      by_cases hpc : p ∈ ctx.continues
      · rw [EmitState.code_patchAll_of_mem hpc, if_pos hpc]
        rfl
      · rw [EmitState.code_patchAll_of_notMem hpc, if_neg hpc]
        exact (map_closeJump_none _).symm
  have hw₃ : s₃.leave.Wf := by
    have g : Grows s₁ s₃.leave :=
      (((Grows.push s₁ ⟨.jumpIfFalse, 0, loc⟩).trans hb.grows).patchAll
        (fun j hj => (Nat.le_succ _).trans (hcnt j hj).1) target).trans gstep
    exact hw₁.grows g
  rw [hend]
  refine .loop (b := s₁.here) (c := s₂.here) (hh.lay K lt nest hK ?_) ?_ ?_ ?_ ?_
  · refine hc.back ((g₁.keeps.patch _ _).patchAll _ _) le_rfl fun p hp hlt => ?_
    rw [EmitState.endLoop_code_ne (by omega) fun h => by have := hbrk _ h; omega]
    exact g₁.getElem? hlt
  · exact hc.instrAt hw₁ hle k₁ hi
  · rw [← ht]
    have h := hb.lay K (some (s₃.here + 1, target)) nest hK ⟨?_, ?_, ?_, ?_, ?_, ?_, ?_, ?_⟩
    · simpa using h
    · intro p hp hlt
      exact hbody p (by simpa using hp) hlt
    · intro p hp hlt
      have hp' : s₁.here + 1 ≤ p := by simpa using hp
      have hf : findHandler s₃.chunk.tryRanges p = findHandler s₂.chunk.tryRanges p :=
        hs.tries.findHandler (by simpa using hlt)
      rw [hc.handler p (by omega) (by omega), ← hf]
      rfl
    · exact fun _ => rfl
    · exact hs.constants.trans hc.constants
    · exact hs.numLocals.trans hc.numLocals
    · exact hc.hasAwait ∘ hs.hasAwait
    · exact hs.plantillas.trans hc.plantillas
    · exact hs.notes.trans hc.notes
  · have h := hs.lay K (some (0, 0)) nest hK ⟨?_, ?_, ?_, ?_, ?_, ?_, ?_, ?_⟩
    · have h := h.atoms_any lt
      rwa [EmitState.here_patchAll] at h
    · intro p hp hlt
      have hp' : s₂.here ≤ p := by simpa using hp
      rw [hcode p (by omega) (by omega), EmitState.endLoop_code_ne (by omega)
        fun h => by have := hbrk _ h; omega, s₃.code_push_lt _ hlt, hl, hb.loops]
      have hn : openTarget (ctx :: s₁.loops) (some (0, 0)) p = none := by
        have hpb : p ∉ ctx.breaks := fun h => by have := hbrk _ h; omega
        have hpc : p ∉ ctx.continues := fun h => by have := hcnt _ h; omega
        simp only [openTarget, if_neg hpb, if_neg hpc]
      exact (congrArg (fun o => s₃.chunk.code[p]?.map (closeJump o)) hn).symm ▸
        (map_closeJump_none _).symm
    · intro p hp hlt
      have hp' : s₂.here ≤ p := by simpa using hp
      exact hc.handler p (by omega) (by omega)
    · exact fun _ => rfl
    · exact hc.constants
    · exact hc.numLocals
    · exact hc.hasAwait
    · exact hc.plantillas
    · exact hc.notes
  · have h := hc.instrAt (j := ⟨.jump, s.here, loc⟩) hw₃ (by
      show s.here ≤ s₃.here
      omega) (Keeps.patchAll (Keeps.patch (.refl _) _ _) _ _) hj
    exact h

/-- The state with one more open jump out of its innermost loop. -/
def EmitState.pushBreak (s : EmitState) (loc : SourceLoc) : EmitState :=
  { s.push ⟨.jump, 0, loc⟩ with
    loops := s.loops.modifyHead fun l => { l with breaks := l.breaks ++ [s.here] } }

/-- The state with one more open jump to the next turn of its innermost loop. -/
def EmitState.pushContinue (s : EmitState) (loc : SourceLoc) : EmitState :=
  { s.push ⟨.jump, 0, loc⟩ with
    loops := s.loops.modifyHead fun l => { l with continues := l.continues ++ [s.here] } }

theorem Grows.pushBreak (s : EmitState) (loc : SourceLoc) : Grows s (s.pushBreak loc) where
  toRetains := ⟨List.prefix_rfl, le_rfl, id, List.prefix_rfl, List.prefix_rfl⟩
  code := ⟨[⟨.jump, 0, loc⟩], rfl⟩
  tries := .refl _ _ _
  loops := by
    cases hs : s.loops with
    | nil => simp [EmitState.pushBreak, hs, LoopsGrow]
    | cons c cs =>
      simp only [EmitState.pushBreak, hs]
      refine ⟨rfl, [s.here], [], rfl, (List.append_nil _).symm, fun j hj => ?_⟩
      obtain rfl : j = s.here := by simpa using hj
      exact ⟨le_rfl, (s.here_push ⟨.jump, 0, loc⟩).symm ▸ Nat.lt_succ_self _⟩

theorem Grows.pushContinue (s : EmitState) (loc : SourceLoc) :
    Grows s (s.pushContinue loc) where
  toRetains := ⟨List.prefix_rfl, le_rfl, id, List.prefix_rfl, List.prefix_rfl⟩
  code := ⟨[⟨.jump, 0, loc⟩], rfl⟩
  tries := .refl _ _ _
  loops := by
    cases hs : s.loops with
    | nil => simp [EmitState.pushContinue, hs, LoopsGrow]
    | cons c cs =>
      simp only [EmitState.pushContinue, hs]
      refine ⟨rfl, [], [s.here], (List.append_nil _).symm, rfl, fun j hj => ?_⟩
      obtain rfl : j = s.here := by simpa using hj
      exact ⟨le_rfl, (s.here_push ⟨.jump, 0, loc⟩).symm ▸ Nat.lt_succ_self _⟩

/-- The jump emitted right after `s`, open in the innermost loop. -/
theorem Completes.openInstr {K : Context} {lt : Option (ℕ × ℕ)} {nest : List TryRange}
    {target : ℕ} (h : Completes K s' lt nest s.here) (hw : s.Wf)
    (hc : s'.chunk = (s.push ⟨.jump, 0, loc⟩).chunk)
    (ht : openTarget s'.loops lt s.here = some target) :
    InstrAt K nest s.here .jump target loc := by
  have hlt : s.here < s'.here := by
    have hh : s'.here = (s.push ⟨.jump, 0, loc⟩).here := by
      rw [EmitState.here, hc]
      rfl
    rw [hh, s.here_push]
    exact Nat.lt_succ_self _
  constructor
  · rw [h.code _ le_rfl hlt, hc, s.code_push_here, ht]
    rfl
  · rw [h.handler _ le_rfl hlt, hc]
    rw [show (s.push ⟨.jump, 0, loc⟩).chunk.tryRanges = s.chunk.tryRanges from rfl,
      hw.findHandler le_rfl, Option.none_or]

theorem Emission.brk (hw : s.Wf) (hl : s.loops ≠ []) :
    Emission X s (s.pushBreak loc) (.brk loc) where
  toGrows := .pushBreak s loc
  lay K lt nest hK hc := by
    obtain ⟨c, cs, hs⟩ := List.exists_cons_of_ne_nil hl
    obtain ⟨⟨brk, cont⟩, rfl⟩ := Option.isSome_iff_exists.1
      (hc.inLoop (by simp [EmitState.pushBreak, hs]))
    have hend : (s.pushBreak loc).here = s.here + 1 := s.here_push _
    rw [hend]
    refine .brk (hc.openInstr hw rfl ?_)
    simp [EmitState.pushBreak, hs, openTarget]

theorem Emission.cont (hw : s.Wf) (hl : s.loops ≠ []) :
    Emission X s (s.pushContinue loc) (.cont loc) where
  toGrows := .pushContinue s loc
  lay K lt nest hK hc := by
    obtain ⟨c, cs, hs⟩ := List.exists_cons_of_ne_nil hl
    obtain ⟨⟨brk, cont⟩, rfl⟩ := Option.isSome_iff_exists.1
      (hc.inLoop (by simp [EmitState.pushContinue, hs]))
    have hend : (s.pushContinue loc).here = s.here + 1 := s.here_push _
    have hn : s.here ∉ c.breaks := fun h => by
      have := hw.loops c (by simp [hs]) s.here (by simp [h])
      omega
    rw [hend]
    refine .cont (hc.openInstr hw rfl ?_)
    simp [EmitState.pushContinue, hs, openTarget, hn]

/-! ## `try` -/

/-- The state with one more `try` range. -/
def EmitState.addTry (s : EmitState) (r : TryRange) : EmitState :=
  { s with chunk := { s.chunk with tryRanges := s.chunk.tryRanges ++ [r] } }

theorem Grows.addTry {r : TryRange} (h : Grows s s') (ha : s.here ≤ r.first)
    (hr : r.first ≤ r.stop) (hb : r.stop ≤ s'.here) (hc : r.catchPc ≤ s'.here) :
    Grows s (s'.addTry r) where
  toRetains := ⟨h.constants, h.numLocals, h.hasAwait, h.plantillas, h.notes⟩
  code := h.code
  tries := h.tries.trans le_rfl le_rfl ⟨[r], rfl, by simpa using ⟨ha, hr, hb, hc⟩⟩
  loops := h.loops

/-- The range of a `try` is looked at after those inside it. -/
theorem findHandler_outer {ranges : List TryRange} {r : TryRange} {p : ℕ} (hr : r.Covers p)
    (h : ∀ q ∈ ranges, q.Covers p → q.stop - q.first ≤ r.stop - r.first) :
    findHandler (ranges ++ [r]) p = (findHandler ranges p).or (some r) := by
  have hb : ∀ best, betterHandler p best r = best.elim (some r) fun b =>
      if r.stop - r.first < b.stop - b.first then some r else some b := by
    rintro (_ | b)
    · exact if_pos hr
    · exact if_pos hr
  rw [findHandler_append, List.foldl_cons, List.foldl_nil, hb]
  cases hf : findHandler ranges p with
  | none => rfl
  | some q =>
    obtain ⟨hm, hc⟩ := findHandler_mem hf
    have := h q hm hc
    simp only [Option.elim_some, Option.some_or, ite_eq_right_iff]
    omega

theorem Emission.tryCatch (hw : s.Wf) (ht : Emission X s s₁ t)
    (hu : Emission X ((s₁.push ⟨.jump, 0, loc⟩).addTry ⟨s.here, s₁.here, s₁.here + 1⟩) s₂ u) :
    Emission X s (s₂.patch s₁.here s₂.here) (.tryCatch t u loc) where
  toGrows := by
    have h₁ := ht.toGrows.trans (.push s₁ ⟨.jump, 0, loc⟩)
    have h₂ := h₁.addTry (r := ⟨s.here, s₁.here, s₁.here + 1⟩) le_rfl ht.here_le (by simp) (by simp)
    exact (h₂.trans hu.toGrows).patch ht.here_le _
  lay K lt nest hK hc := by
    have hle := ht.here_le
    have hw₁ : s₁.Wf := hw.grows ht.toGrows
    have hadd : ((s₁.push ⟨.jump, 0, loc⟩).addTry ⟨s.here, s₁.here, s₁.here + 1⟩).here =
        s₁.here + 1 := s₁.here_push _
    have hend : (s₂.patch s₁.here s₂.here).here = s₂.here := s₂.here_patch _ _
    have hle₂ : s₁.here + 1 ≤ s₂.here := hadd ▸ hu.here_le
    -- the chunk before the handler
    have hcode : ∀ p, p < s₁.here + 1 → (s₂.patch s₁.here s₂.here).chunk.code[p]? =
        ((s₁.push ⟨.jump, 0, loc⟩).patch s₁.here s₂.here).chunk.code[p]? := by
      intro p hp
      have h := hu.getElem? (hadd.symm ▸ hp)
      simp only [EmitState.patch, patchCode, List.getElem?_modify] at h ⊢
      exact congrArg _ h
    have hcovers : ∀ p, s.here ≤ p → p < s₁.here + 1 →
        findHandler K.chunk.tryRanges p = (findHandler (s₁.chunk.tryRanges ++
          [⟨s.here, s₁.here, s₁.here + 1⟩]) p).or nest.head? := by
      intro p hp hlt
      have h := hu.tries.findHandler (hadd.symm ▸ hlt)
      rw [hc.handler p hp (by omega)]
      exact congrArg (Option.or · nest.head?) h
    have htarget : ∀ p, p < s₁.here + 1 →
        openTarget (s₂.patch s₁.here s₂.here).loops lt p = openTarget s₁.loops lt p :=
      fun p hp => hu.loops.openTarget (hadd.symm ▸ hp) lt
    -- the ranges in the body lie within its own range
    have hinner : ∀ q ∈ s₁.chunk.tryRanges, ∀ p, s.here ≤ p → q.Covers p →
        q.stop - q.first ≤ s₁.here - s.here := by
      intro q hq p hp hq'
      obtain ⟨new, hnew, hin⟩ := ht.tries
      rw [hnew] at hq
      rcases List.mem_append.1 hq with hq | hq
      · have := hw.tries q hq
        have := hq'.2
        omega
      · have := hin q hq
        omega
    rw [hend]
    refine .tryCatch (b := s₁.here) (ht.lay K lt _ hK ⟨?_, ?_, ?_, ?_, ?_, ?_, ?_, ?_⟩) ?_ ?_
    · intro p hp hlt
      rw [hc.code p hp (by omega), hcode p (by omega), EmitState.code_patch_ne _ _ (by omega),
        s₁.code_push_lt _ hlt, htarget p (by omega)]
    · intro p hp hlt
      have hr : TryRange.Covers ⟨s.here, s₁.here, s₁.here + 1⟩ p := ⟨hp, hlt⟩
      rw [hcovers p hp (by omega), findHandler_outer hr fun q hq => hinner q hq p hp]
      cases findHandler s₁.chunk.tryRanges p <;> rfl
    · intro hne
      exact hc.inLoop (hu.keeps.inLoop hne)
    · exact hu.constants.trans hc.constants
    · exact hu.numLocals.trans hc.numLocals
    · exact hc.hasAwait ∘ hu.hasAwait
    · exact hu.plantillas.trans hc.plantillas
    · exact hu.notes.trans hc.notes
    · constructor
      · rw [hc.code _ hle (by omega), hcode _ (by omega), htarget _ (by omega),
          EmitState.code_patch_self _ _ (s₁.code_push_here _), hw₁.openTarget lt le_rfl]
        rfl
      · have hn : ∀ q ∈ [(⟨s.here, s₁.here, s₁.here + 1⟩ : TryRange)],
            ¬ q.Covers s₁.here := by
          intro q hq
          obtain rfl := List.mem_singleton.1 hq
          exact fun h => Nat.lt_irrefl _ h.2
        rw [hcovers _ hle (by omega), findHandler_append_left hn, hw₁.findHandler le_rfl,
          Option.none_or]
    · have h := hu.lay K lt nest hK (hc.back (Keeps.patch (.refl s₂) _ _) (by omega)
        fun p hp _ => s₂.code_patch_ne _ (by omega))
      rwa [hadd] at h

end Rules

end Osodio.Odio
