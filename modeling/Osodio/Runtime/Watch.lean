import Osodio.Lib.Transition
import Mathlib.Data.List.Basic
import Mathlib.Logic.Function.Basic

/-!
# Watching the source files

`compile` reads each file and takes its time stamp then; `watch_loop` compares the
stamps of the live module with the files, compiles again when one differs, and after
a failure takes the stamps anew, so as not to try again on a file that is broken.
Whoever edits the files does so at any moment.

## Main definitions

- `Watch` — the files, the live module, and what the watcher is doing
- `Watch.step` — a file is written, or the watcher goes on
- `Current` — when the stamps say that nothing has changed, nothing has
- `UnwrittenSinceRead` — a stamp is taken from the file that was read

## Main results

- `current_of_unwrittenSinceRead` — then no edit is overlooked
-/

namespace Osodio.Runtime

open Osodio.Lib

structure File where
  contents : String := ""
  mtime : ℕ := 0
  deriving DecidableEq, Repr

section Watch

variable {P : Type*}

/-- What the watcher does next, with what it still has to go through. -/
inductive Phase (P : Type*) where
  | sleeping
  /-- Comparing the stamps of the live module. -/
  | comparing (stamps : List (P × ℕ))
  | reading (paths : List P) (stamps : List (P × ℕ))
  /-- A file was read, and its stamp is to be taken. -/
  | stamping (path : P) (paths : List P) (stamps : List (P × ℕ))
  /-- After a compilation that failed: taking the stamps of the live module anew. -/
  | refreshing (fresh stamps : List (P × ℕ))
  | exited

/-- The files, the stamps of the live module, and what the last compilation has
    read. -/
structure Watch (P : Type*) where
  files : P → File := fun _ => {}
  /-- The last modification time that was given. -/
  clock : ℕ := 0
  live : Option (List (P × ℕ)) := none
  read : List (P × File) := []
  phase : Phase P

inductive WatchEvent (P : Type*) where
  | write (path : P) (contents : String)
  /-- The watcher goes on: one comparison, one reading or one stamp. -/
  | tick
  /-- All files are read and stamped, and compile or not. -/
  | compiled (ok : Bool)

/-- The stamp of a file that was read. -/
def stampOf (r : P × File) : P × ℕ := (r.1, r.2.mtime)

/-- The next thing that the watcher of the files `inputs` does by itself. -/
def Watch.tick (inputs : List P) (w : Watch P) : Option (Watch P) :=
  match w.phase with
  | .sleeping => w.live.map fun stamps => { w with phase := .comparing stamps }
  | .comparing [] => some { w with phase := .sleeping }
  | .comparing ((p, stamp) :: rest) =>
    if (w.files p).mtime ≠ stamp then some { w with phase := .reading inputs [], read := [] }
    else some { w with phase := .comparing rest }
  | .reading [] _ => none
  | .reading (p :: paths) stamps =>
    some { w with phase := .stamping p paths stamps, read := w.read ++ [(p, w.files p)] }
  | .stamping p paths stamps =>
    some { w with phase := .reading paths (stamps ++ [(p, (w.files p).mtime)]) }
  | .refreshing _ [] => some { w with phase := .sleeping }
  | .refreshing fresh ((p, _) :: rest) =>
    let fresh := fresh ++ [(p, (w.files p).mtime)]
    some { w with phase := .refreshing fresh rest, live := some (fresh ++ rest) }
  | .exited => none

/-- The end of a compilation: the module is published, or the one before goes on
    being served.  The first one has none before. -/
def Watch.compiled (w : Watch P) (ok : Bool) : Option (Watch P) :=
  match w.phase with
  | .reading [] stamps =>
    if ok then some { w with live := some stamps, phase := .sleeping }
    else
      match w.live with
      | some live => some { w with phase := .refreshing [] live }
      | none => some { w with phase := .exited }
  | _ => none

variable [DecidableEq P]

def Watch.write (w : Watch P) (p : P) (contents : String) : Watch P :=
  { w with
    files := Function.update w.files p ⟨contents, w.clock + 1⟩
    clock := w.clock + 1 }

def Watch.step (inputs : List P) (w : Watch P) : WatchEvent P → Option (Watch P)
  | .write p contents => some (w.write p contents)
  | .tick => w.tick inputs
  | .compiled ok => w.compiled ok

/-- The files `inputs`, which are compiled first and watched from then on. -/
def watched (inputs : List P) : System (Watch P) (WatchEvent P) where
  init := { phase := .reading inputs [] }
  step := Watch.step inputs

/-- If the stamps of the live module are those of the files, the last compilation
    has read what is in the files. -/
def Current (inputs : List P) (w : Watch P) : Prop :=
  ∀ stamps, w.live = some stamps → (∀ s ∈ stamps, s.2 = (w.files s.1).mtime) →
    w.read.map (fun r => (r.1, r.2.contents)) = inputs.map fun p => (p, (w.files p).contents)

/-- A stamp is taken of a file that was not written since the compilation has read
    it. -/
def UnwrittenSinceRead (w : Watch P) : WatchEvent P → Prop
  | .tick =>
    match w.phase with
    | .stamping p _ _ | .refreshing _ ((p, _) :: _) =>
      ∀ r ∈ w.read, r.1 = p → r.2.mtime = (w.files p).mtime
    | _ => True
  | _ => True

/-! ## The stamps of the live module -/

/-- What the watcher has read and stamped, phase by phase. -/
def Stamped (inputs : List P) (w : Watch P) : Phase P → Prop
  | .sleeping => ∃ live, w.live = some live ∧ w.read.map Prod.fst = inputs ∧
      ∀ r ∈ w.read, stampOf r ∈ live
  | .comparing rest => ∃ live, w.live = some live ∧ rest ⊆ live ∧ w.read.map Prod.fst = inputs ∧
      ∀ r ∈ w.read, stampOf r ∈ live
  | .reading paths stamps => stamps = w.read.map stampOf ∧ w.read.map Prod.fst ++ paths = inputs
  | .stamping p paths stamps => ∃ before f, w.read = before ++ [(p, f)] ∧
      stamps = before.map stampOf ∧ w.read.map Prod.fst ++ paths = inputs
  | .refreshing fresh rest => w.live = some (fresh ++ rest) ∧ w.read.map Prod.fst = inputs ∧
      (∀ s ∈ fresh, ∀ r ∈ w.read, r.1 = s.1 → r.2.mtime = s.2) ∧
      ∀ s ∈ rest, ∀ r ∈ w.read, r.1 = s.1 → s.2 ≤ r.2.mtime
  | .exited => w.live = none

/-- While it compiles, the watcher knows that a file is newer than its stamp. -/
def Stale (w : Watch P) : Phase P → Prop
  | .reading _ _ | .stamping _ _ _ => ∀ live, w.live = some live →
      (∃ s ∈ live, s.2 < (w.files s.1).mtime) ∧ ∀ s ∈ live, ∀ r ∈ w.read, r.1 = s.1 → s.2 ≤ r.2.mtime
  | _ => True

structure WatchInv (inputs : List P) (w : Watch P) : Prop where
  clock : ∀ p, (w.files p).mtime ≤ w.clock
  /-- A file with the modification time that was read is the file that was read. -/
  read : ∀ r ∈ w.read, r.2.mtime ≤ (w.files r.1).mtime ∧
    (r.2.mtime = (w.files r.1).mtime → r.2.contents = (w.files r.1).contents)
  live : ∀ live, w.live = some live → live.map Prod.fst = inputs ∧
    ∀ s ∈ live, s.2 ≤ (w.files s.1).mtime
  stamped : Stamped inputs w w.phase
  stale : Stale w w.phase

theorem init_watchInv (inputs : List P) : WatchInv inputs (watched inputs).init where
  clock _ := le_refl 0
  read := nofun
  live := nofun
  stamped := ⟨rfl, rfl⟩
  stale := nofun

variable {inputs : List P} {w : Watch P}

/-- A file that is written is newer than every stamp and everything that was read. -/
theorem write_watchInv (h : WatchInv inputs w) (p : P) (contents : String) :
    WatchInv inputs (w.write p contents) := by
  have hnewer : ∀ q, (w.files q).mtime ≤ ((w.write p contents).files q).mtime := by
    intro q
    by_cases hq : q = p
    · subst hq
      simpa [Watch.write] using Nat.le_succ_of_le (h.clock q)
    · simp [Watch.write, Function.update_of_ne hq]
  refine ⟨fun q => ?_, fun r hr => ?_, fun live hlive => ?_, h.stamped, ?_⟩
  · by_cases hq : q = p
    · subst hq
      simp [Watch.write]
    · simpa [Watch.write, Function.update_of_ne hq] using Nat.le_succ_of_le (h.clock q)
  · refine ⟨(h.read r hr).1.trans (hnewer r.1), fun heq => ?_⟩
    by_cases hq : r.1 = p
    · have hle := (h.read r hr).1.trans (h.clock r.1)
      rw [hq] at heq
      simp only [Watch.write, Function.update_self] at heq
      omega
    · simp only [Watch.write, Function.update_of_ne hq] at heq ⊢
      exact (h.read r hr).2 heq
  · obtain ⟨hpaths, hle⟩ := h.live live hlive
    exact ⟨hpaths, fun s hs => (hle s hs).trans (hnewer s.1)⟩
  · have hstale := h.stale
    show Stale (w.write p contents) w.phase
    unfold Stale at hstale ⊢
    split
    · next heq =>
      rw [heq] at hstale
      intro live hlive
      obtain ⟨⟨s, hs, hlt⟩, hold⟩ := hstale live hlive
      exact ⟨⟨s, hs, hlt.trans_le (hnewer s.1)⟩, hold⟩
    · next heq =>
      rw [heq] at hstale
      intro live hlive
      obtain ⟨⟨s, hs, hlt⟩, hold⟩ := hstale live hlive
      exact ⟨⟨s, hs, hlt.trans_le (hnewer s.1)⟩, hold⟩
    · trivial

omit [DecidableEq P] in
/-- Reading a file: what was read before keeps the order of the files. -/
theorem read_watchInv (h : WatchInv inputs w) {p : P} {paths : List P} {stamps : List (P × ℕ)}
    (hph : w.phase = .reading (p :: paths) stamps) :
    WatchInv inputs { w with
      phase := .stamping p paths stamps, read := w.read ++ [(p, w.files p)] } := by
  have hstamped := h.stamped
  have hstale := h.stale
  rw [hph] at hstamped hstale
  refine ⟨h.clock, fun r hr => ?_, h.live, ⟨w.read, w.files p, rfl, hstamped.1, ?_⟩,
    fun live hlive => ⟨(hstale live hlive).1, fun s hs r hr heq => ?_⟩⟩
  · rcases List.mem_append.1 hr with hr | hr
    · exact h.read r hr
    · obtain rfl := List.mem_singleton.1 hr
      exact ⟨le_refl _, fun _ => rfl⟩
  · rw [← hstamped.2]
    simp
  · rcases List.mem_append.1 hr with hr | hr
    · exact (hstale live hlive).2 s hs r hr heq
    · obtain rfl := List.mem_singleton.1 hr
      obtain rfl : p = s.1 := heq
      exact (h.live live hlive).2 s hs

omit [DecidableEq P] in
/-- One thing that the watcher does keeps the stamps those of what was read. -/
theorem tick_watchInv (h : WatchInv inputs w) (hc : UnwrittenSinceRead w .tick) {w' : Watch P}
    (hstep : w.tick inputs = some w') : WatchInv inputs w' := by
  have hstamped := h.stamped
  have hstale := h.stale
  unfold Watch.tick at hstep
  split at hstep
  · next hph =>
    obtain ⟨live, hlive, rfl⟩ := Option.map_eq_some_iff.1 hstep
    rw [hph] at hstamped
    obtain ⟨live', hlive', hpaths, hread⟩ := hstamped
    obtain rfl : live' = live := Option.some.inj (hlive'.symm.trans hlive)
    exact ⟨h.clock, h.read, h.live, ⟨live', hlive', List.Subset.refl _, hpaths, hread⟩, trivial⟩
  · next hph =>
    cases hstep
    rw [hph] at hstamped
    obtain ⟨live, hlive, -, hpaths, hread⟩ := hstamped
    exact ⟨h.clock, h.read, h.live, ⟨live, hlive, hpaths, hread⟩, trivial⟩
  · next p stamp rest hph =>
    rw [hph] at hstamped
    obtain ⟨live, hlive, hsub, hpaths, hread⟩ := hstamped
    split at hstep
    · next hne =>
      cases hstep
      -- this file is newer than its stamp
      refine ⟨h.clock, nofun, h.live, ⟨rfl, rfl⟩, fun live' hlive' => ⟨?_, nofun⟩⟩
      obtain rfl : live = live' := Option.some.inj (hlive.symm.trans hlive')
      have hmem : (p, stamp) ∈ live := hsub (List.mem_cons_self ..)
      exact ⟨(p, stamp), hmem, lt_of_le_of_ne ((h.live live hlive).2 _ hmem) (Ne.symm hne)⟩
    · cases hstep
      exact ⟨h.clock, h.read, h.live,
        ⟨live, hlive, List.Subset.trans (List.subset_cons_self ..) hsub, hpaths, hread⟩, trivial⟩
  · cases hstep
  · next p paths stamps hph =>
    cases hstep
    exact read_watchInv h hph
  · next p paths stamps hph =>
    cases hstep
    rw [hph] at hstamped hstale
    obtain ⟨before, f, hread, rfl, hpaths⟩ := hstamped
    refine ⟨h.clock, h.read, h.live, ⟨?_, hpaths⟩, hstale⟩
    have hsame : f.mtime = (w.files p).mtime := by
      have hc : ∀ r ∈ w.read, r.1 = p → r.2.mtime = (w.files p).mtime := by
        simpa [UnwrittenSinceRead, hph] using hc
      exact hc (p, f) (by simp [hread]) rfl
    simp [hread, stampOf, hsame]
  · next fresh hph =>
    cases hstep
    rw [hph] at hstamped
    obtain ⟨hlive, hpaths, hfresh, -⟩ := hstamped
    refine ⟨h.clock, h.read, h.live, ⟨_, hlive, hpaths, fun r hr => ?_⟩, trivial⟩
    have hmem : r.1 ∈ (fresh ++ []).map Prod.fst := by
      rw [(h.live _ hlive).1, ← hpaths]
      exact List.mem_map_of_mem hr
    obtain ⟨s, hs, heq⟩ := List.mem_map.1 hmem
    have hstamp := hfresh s (by simpa using hs) r hr heq.symm
    rw [stampOf, hstamp, ← heq]
    exact hs
  · next fresh p stamp rest hph =>
    cases hstep
    rw [hph] at hstamped
    obtain ⟨hlive, hpaths, hfresh, hrest⟩ := hstamped
    have hc : ∀ r ∈ w.read, r.1 = p → r.2.mtime = (w.files p).mtime := by
      simpa [UnwrittenSinceRead, hph] using hc
    refine ⟨h.clock, h.read, ?_, ⟨rfl, hpaths, ?_, ?_⟩, trivial⟩
    · rintro live' hlive'
      obtain rfl := Option.some.inj hlive'
      obtain ⟨hinputs, hle⟩ := h.live _ hlive
      refine ⟨?_, fun s hs => ?_⟩
      · rw [← hinputs]
        simp
      · simp only [List.append_assoc, List.mem_append, List.mem_cons, List.not_mem_nil, or_false] at hs
        rcases hs with hs | rfl | hs
        · exact hle s (by simp [hs])
        · exact le_refl _
        · exact hle s (by simp [hs])
    · rintro s hs r hr heq
      rcases List.mem_append.1 hs with hs | hs
      · exact hfresh s hs r hr heq
      · obtain rfl := List.mem_singleton.1 hs
        exact hc r hr heq
    · exact fun s hs => hrest s (List.mem_cons_of_mem _ hs)
  · cases hstep

omit [DecidableEq P] in
/-- The end of a compilation: a module that is published has the stamps of what was
    read. -/
theorem compiled_watchInv (h : WatchInv inputs w) {ok : Bool} {w' : Watch P}
    (hstep : w.compiled ok = some w') : WatchInv inputs w' := by
  have hstamped := h.stamped
  have hstale := h.stale
  unfold Watch.compiled at hstep
  split at hstep
  · next stamps hph =>
    rw [hph] at hstamped hstale
    obtain ⟨rfl, hpaths⟩ := hstamped
    rw [List.append_nil] at hpaths
    split at hstep
    · cases hstep
      refine ⟨h.clock, h.read, ?_, ⟨_, rfl, hpaths, fun r hr => List.mem_map_of_mem hr⟩, trivial⟩
      rintro live hlive
      obtain rfl := Option.some.inj hlive
      refine ⟨?_, fun s hs => ?_⟩
      · rw [← hpaths, List.map_map]
        rfl
      · obtain ⟨r, hr, rfl⟩ := List.mem_map.1 hs
        exact (h.read r hr).1
    · split at hstep
      · next live hlive =>
        cases hstep
        exact ⟨h.clock, h.read, h.live, ⟨hlive, hpaths, nofun, (hstale live hlive).2⟩, trivial⟩
      · next hlive =>
        cases hstep
        exact ⟨h.clock, h.read, h.live, hlive, trivial⟩
  · cases hstep

theorem step_watchInv (h : WatchInv inputs w) {e : WatchEvent P} (hc : UnwrittenSinceRead w e)
    {w' : Watch P} (hstep : w.step inputs e = some w') : WatchInv inputs w' := by
  cases e with
  | write p contents =>
    cases hstep
    exact write_watchInv h p contents
  | tick => exact tick_watchInv h hc hstep
  | compiled ok => exact compiled_watchInv h hstep

omit [DecidableEq P] in
/-- What was read has the modification times of the files whenever the stamps do. -/
theorem WatchInv.read_current (h : WatchInv inputs w) {live : List (P × ℕ)}
    (hlive : w.live = some live) (hstamps : ∀ s ∈ live, s.2 = (w.files s.1).mtime) :
    w.read.map Prod.fst = inputs ∧ ∀ r ∈ w.read, r.2.mtime = (w.files r.1).mtime := by
  have hstamped := h.stamped
  have hstale := h.stale
  have hstill : (∃ s ∈ live, s.2 < (w.files s.1).mtime) → False := by
    rintro ⟨s, hs, hlt⟩
    exact absurd (hstamps s hs) (Nat.ne_of_lt hlt)
  cases hph : w.phase with
  | sleeping =>
    rw [hph] at hstamped
    obtain ⟨live', hlive', hpaths, hread⟩ := hstamped
    obtain rfl : live' = live := Option.some.inj (hlive'.symm.trans hlive)
    exact ⟨hpaths, fun r hr => hstamps (stampOf r) (hread r hr)⟩
  | comparing rest =>
    rw [hph] at hstamped
    obtain ⟨live', hlive', -, hpaths, hread⟩ := hstamped
    obtain rfl : live' = live := Option.some.inj (hlive'.symm.trans hlive)
    exact ⟨hpaths, fun r hr => hstamps (stampOf r) (hread r hr)⟩
  | reading paths stamps =>
    rw [hph] at hstale
    exact (hstill (hstale live hlive).1).elim
  | stamping p paths stamps =>
    rw [hph] at hstale
    exact (hstill (hstale live hlive).1).elim
  | refreshing fresh rest =>
    rw [hph] at hstamped
    obtain ⟨hlive', hpaths, hfresh, hrest⟩ := hstamped
    obtain rfl : fresh ++ rest = live := Option.some.inj (hlive'.symm.trans hlive)
    refine ⟨hpaths, fun r hr => ?_⟩
    have hmem : r.1 ∈ (fresh ++ rest).map Prod.fst := by
      rw [(h.live _ hlive).1, ← hpaths]
      exact List.mem_map_of_mem hr
    obtain ⟨s, hs, heq⟩ := List.mem_map.1 hmem
    have hnow : s.2 = (w.files r.1).mtime := heq ▸ hstamps s hs
    rcases List.mem_append.1 hs with hs | hs
    · exact (hfresh s hs r hr heq.symm).trans hnow
    · exact le_antisymm (h.read r hr).1 (hnow ▸ hrest s hs r hr heq.symm)
  | exited =>
    rw [hph] at hstamped
    exact absurd (hstamped.symm.trans hlive) nofun

/-- **No edit is overlooked**: in every run in which each stamp is taken of the file
    that was read, the last compilation has read what is in the files whenever the
    stamps of the live module are those of the files. -/
theorem current_of_unwrittenSinceRead {es : List (WatchEvent P)}
    (hC : (watched inputs).Meets UnwrittenSinceRead es) (hrun : (watched inputs).run es = some w) :
    Current inputs w := by
  have h : WatchInv inputs w := (watched inputs).guarded_induction (init_watchInv inputs)
    (fun _ _ _ h hc => step_watchInv h hc) hC hrun
  rintro live hlive hstamps
  obtain ⟨hpaths, hread⟩ := h.read_current hlive hstamps
  rw [← hpaths, List.map_map]
  refine List.map_congr_left fun r hr => ?_
  rw [Function.comp_apply, (h.read r hr).2 (hread r hr)]

end Watch

/-- A file is compiled, written, and compiled again; the second time it is written once
    more after it was read if `late`. -/
def editTwice (late : Bool) : List (WatchEvent Unit) :=
  [.tick, .tick, .compiled true, .write () "a", .tick, .tick, .tick] ++
    (if late then [.write () "b"] else []) ++ [.tick, .compiled true]

theorem current_of_unwrittenSinceRead_edit : ∃ w, (watched [()]).run (editTwice false) = some w ∧
    w.live = some [((), 1)] ∧ Current [()] w :=
  ⟨_, rfl, rfl, @current_of_unwrittenSinceRead Unit _ [()] _ (editTwice false)
    (.cons trivial rfl <|
      .cons (by rintro _ hr -; obtain rfl := List.mem_singleton.1 hr; rfl) rfl <|
      .cons trivial rfl <| .cons trivial rfl <| .cons trivial rfl <| .cons trivial rfl <|
      .cons trivial rfl <|
      .cons (by rintro _ hr -; obtain rfl := List.mem_singleton.1 hr; rfl) rfl <|
      .cons trivial rfl trivial) rfl⟩

/-- The stamp is that of the second edit, and the first one was read. -/
theorem edit_is_overlooked : ∃ w, (watched [()]).run (editTwice true) = some w ∧
    w.live = some [((), 2)] ∧ (w.files ()).mtime = 2 ∧ ¬ Current [()] w := by
  refine ⟨_, rfl, rfl, rfl, fun h => ?_⟩
  have hread := h _ rfl (by rintro s hs; obtain rfl := List.mem_singleton.1 hs; rfl)
  exact absurd hread (by decide)

end Osodio.Runtime
