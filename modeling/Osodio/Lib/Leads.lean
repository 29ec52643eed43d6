import Mathlib.Tactic.Common

/-!
# What a machine comes to

A machine is a step function that may fail.  It leads to a condition if after some number of steps it
is in a state that meets it.

## Main definitions

- `Leads` — a machine comes to a state with a condition
- `runFor` — the state after a number of steps

## Main results

- `Leads.bind` — what a machine leads to may lead further
- `leads_iff` — a condition is met after some number of steps
- `Leads.stays` — states that the machine does not leave are those that it ends in
-/

namespace Osodio.Lib

variable {σ ε : Type*}

/-- The machine comes from a state to one with the condition `Q`. -/
inductive Leads (step : σ → Except ε σ) (Q : σ → Prop) : σ → Prop where
  | here {s} (h : Q s) : Leads step Q s
  | next {s t} (hs : step s = .ok t) (h : Leads step Q t) : Leads step Q s

/-- The state after `n` steps. -/
def runFor (step : σ → Except ε σ) : ℕ → σ → Except ε σ
  | 0, s => .ok s
  | n + 1, s => (step s).bind (runFor step n)

variable {step : σ → Except ε σ} {Q R : σ → Prop} {s t : σ}

theorem Leads.bind (h : Leads step Q s) (hQ : ∀ t, Q t → Leads step R t) : Leads step R s := by
  induction h with
  | here h => exact hQ _ h
  | next hs _ ih => exact .next hs ih

theorem Leads.mono (h : Leads step Q s) (hQ : ∀ t, Q t → R t) : Leads step R s :=
  h.bind fun t ht => .here (hQ t ht)

theorem runFor_succ {n : ℕ} (h : step s = .ok t) : runFor step (n + 1) s = runFor step n t := by
  rw [runFor, h]
  rfl

/-- A machine leads to a condition that is met after some number of steps. -/
theorem leads_iff : Leads step Q s ↔ ∃ n t, runFor step n s = .ok t ∧ Q t := by
  constructor
  · intro h
    induction h with
    | here h => exact ⟨0, _, rfl, h⟩
    | next hs _ ih =>
      obtain ⟨n, t, ht, hQ⟩ := ih
      exact ⟨n + 1, t, (runFor_succ hs).trans ht, hQ⟩
  · rintro ⟨n, t, ht, hQ⟩
    induction n generalizing s with
    | zero =>
      cases ht
      exact .here hQ
    | succ n ih =>
      cases hs : step s with
      | error e =>
        rw [runFor, hs] at ht
        cases ht
      | ok u => exact .next hs (ih ((runFor_succ hs).symm.trans ht))

/-- A state that is not left is the one of every later time. -/
theorem runFor_of_stays (h : step s = .ok s) (n : ℕ) : runFor step n s = .ok s := by
  induction n with
  | zero => rfl
  | succ n ih => exact (runFor_succ h).trans ih

/-- **If no state of a condition is left**, then a machine that leads to the condition is in one and
    the same state of it from some step on. -/
theorem Leads.stays (h : Leads step Q s) (hQ : ∀ t, Q t → step t = .ok t) :
    ∃ N t, Q t ∧ ∀ n, N ≤ n → runFor step n s = .ok t := by
  induction h with
  | @here s h => exact ⟨0, s, h, fun n _ => runFor_of_stays (hQ s h) n⟩
  | next hs _ ih =>
    obtain ⟨N, t, ht, hn⟩ := ih
    refine ⟨N + 1, t, ht, fun n hle => ?_⟩
    obtain ⟨m, rfl⟩ : ∃ m, n = m + 1 := ⟨n - 1, by omega⟩
    exact (runFor_succ hs).trans (hn m (by omega))

end Osodio.Lib
