import Mathlib.Data.List.Induction
import Mathlib.Data.List.Infix

/-!
# Guarded transition systems and their runs

A system is an initial state together with a step function that is defined only
where the step is enabled.  A run is the list of events it takes, so one
definition replays a concrete schedule and carries the induction over all of
them.

## Main definitions

- `System` — an initial state and a guarded step function
- `System.run` — the state a list of events leads to, if every event is enabled
- `System.Meets` — every step of the run is taken under a given condition
- `System.EveryStep` — every step of the run is in a given relation

## Main results

- `System.run_induction` — an invariant kept by every step holds after every run
- `System.guarded_induction` — the same for the runs that meet a condition
- `System.forall_prefix_iff_meets` — when a violated condition always breaks the
  property at once, the property along a run and the condition are equivalent
-/

namespace Osodio.Lib

/-- A transition system with a guarded, executable step function. -/
structure System (σ ε : Type*) where
  init : σ
  step : σ → ε → Option σ

namespace System

variable {σ ε : Type*} (M : System σ ε)

/-- The state reached from `s` by a list of events, all of which must be enabled. -/
def runFrom (s : σ) : List ε → Option σ
  | [] => some s
  | e :: es => (M.step s e).bind fun t => runFrom t es

/-- The state reached from the initial one. -/
def run (es : List ε) : Option σ := M.runFrom M.init es

/-- Every step of the run from `s` is taken in a state where `C` allows it. -/
def MeetsFrom (C : σ → ε → Prop) (s : σ) : List ε → Prop
  | [] => True
  | e :: es => C s e ∧ ∀ t, M.step s e = some t → MeetsFrom C t es

/-- Every step of the run from the initial state meets `C`. -/
def Meets (C : σ → ε → Prop) (es : List ε) : Prop := M.MeetsFrom C M.init es

/-- Every step of the run, as far as it goes, is in `R` with the states before and behind it. -/
def EveryStep (R : σ → ε → σ → Prop) (es : List ε) : Prop :=
  ∀ pre e s t, pre ++ [e] <+: es → M.run pre = some s → M.step s e = some t → R s e t

@[simp] theorem runFrom_nil (s : σ) : M.runFrom s [] = some s := rfl

theorem runFrom_cons {s t : σ} {e : ε} {es : List ε} :
    M.runFrom s (e :: es) = some t ↔ ∃ u, M.step s e = some u ∧ M.runFrom u es = some t := by
  simp [runFrom, Option.bind_eq_some_iff]

theorem runFrom_append (s : σ) (xs ys : List ε) :
    M.runFrom s (xs ++ ys) = (M.runFrom s xs).bind fun t => M.runFrom t ys := by
  induction xs generalizing s with
  | nil => rfl
  | cons e xs ih =>
    cases h : M.step s e with
    | none => simp [runFrom, h]
    | some t => simp [runFrom, h, ih]

/-- A run that ends somewhere can be cut at its last step. -/
theorem runFrom_concat {s t : σ} {es : List ε} {e : ε} :
    M.runFrom s (es ++ [e]) = some t ↔ ∃ u, M.runFrom s es = some u ∧ M.step u e = some t := by
  rw [runFrom_append]
  simp [runFrom, Option.bind_eq_some_iff]

theorem meetsFrom_append {C : σ → ε → Prop} {s : σ} {xs ys : List ε} :
    M.MeetsFrom C s (xs ++ ys) ↔
      M.MeetsFrom C s xs ∧ ∀ t, M.runFrom s xs = some t → M.MeetsFrom C t ys := by
  induction xs generalizing s with
  | nil => simp [MeetsFrom]
  | cons e xs ih =>
    simp only [List.cons_append, MeetsFrom, runFrom_cons]
    constructor
    · rintro ⟨he, h⟩
      exact ⟨⟨he, fun t ht => (ih.1 (h t ht)).1⟩, fun u ⟨t, ht, hu⟩ => (ih.1 (h t ht)).2 u hu⟩
    · rintro ⟨⟨he, h⟩, hu⟩
      exact ⟨he, fun t ht => ih.2 ⟨h t ht, fun u hr => hu u ⟨t, ht, hr⟩⟩⟩

theorem meetsFrom_concat {C : σ → ε → Prop} {s : σ} {es : List ε} {e : ε} :
    M.MeetsFrom C s (es ++ [e]) ↔
      M.MeetsFrom C s es ∧ ∀ u, M.runFrom s es = some u → C u e := by
  simp [meetsFrom_append, MeetsFrom]

/-- A condition on the events alone. -/
theorem meetsFrom_of_forall {P : ε → Prop} {s : σ} {es : List ε} (h : ∀ e ∈ es, P e) :
    M.MeetsFrom (fun _ e => P e) s es := by
  induction es generalizing s with
  | nil => trivial
  | cons e es ih =>
    obtain ⟨he, hes⟩ := List.forall_mem_cons.1 h
    exact ⟨he, fun _ _ => ih hes⟩

/-- A run that meets a condition, one step after the other. -/
theorem MeetsFrom.cons {M : System σ ε} {C : σ → ε → Prop} {s t : σ} {e : ε} {es : List ε}
    (he : C s e) (hs : M.step s e = some t) (h : M.MeetsFrom C t es) :
    M.MeetsFrom C s (e :: es) :=
  ⟨he, fun _ hu => Option.some.inj (hs.symm.trans hu) ▸ h⟩

/-- **Guarded induction**: an invariant that every step meeting `C` keeps holds
    after every run whose steps all meet `C`. -/
theorem guardedFrom_induction {I : σ → Prop} {C : σ → ε → Prop}
    (hstep : ∀ s e t, I s → C s e → M.step s e = some t → I t)
    {es : List ε} {s t : σ} (hs : I s) (hC : M.MeetsFrom C s es)
    (hr : M.runFrom s es = some t) : I t := by
  induction es generalizing s with
  | nil => cases hr; exact hs
  | cons e es ih =>
    obtain ⟨u, hu, hrest⟩ := (M.runFrom_cons).1 hr
    exact ih (hstep s e u hs hC.1 hu) (hC.2 u hu) hrest

theorem guarded_induction {Inv : σ → Prop} {C : σ → ε → Prop} (hinit : Inv M.init)
    (hstep : ∀ s e t, Inv s → C s e → M.step s e = some t → Inv t)
    {es : List ε} {t : σ} (hC : M.Meets C es) (hr : M.run es = some t) : Inv t :=
  M.guardedFrom_induction hstep hinit hC hr

/-- Every run meets the trivial condition. -/
theorem meetsFrom_true (s : σ) (es : List ε) : M.MeetsFrom (fun _ _ => True) s es :=
  M.meetsFrom_of_forall fun _ _ => trivial

/-- **Induction over runs**: an invariant kept by every step holds after every run. -/
theorem run_induction {Inv : σ → Prop} (hinit : Inv M.init)
    (hstep : ∀ s e t, Inv s → M.step s e = some t → Inv t)
    {es : List ε} {t : σ} (hr : M.run es = some t) : Inv t :=
  M.guarded_induction (C := fun _ _ => True) hinit (fun s e t hs _ => hstep s e t hs)
    (M.meetsFrom_true _ es) hr

/-- What is the same of each step is the same of all steps of a run. -/
theorem everyStep_congr {R R' : σ → ε → σ → Prop}
    (h : ∀ s e t, M.step s e = some t → (R s e t ↔ R' s e t)) (es : List ε) :
    M.EveryStep R es ↔ M.EveryStep R' es := by
  constructor <;>
  · intro hall pre e s t hp hs ht
    have hstep := hall pre e s t hp hs ht
    first | exact (h s e t ht).1 hstep | exact (h s e t ht).2 hstep

/-- Two conditions that are the same in all states that an invariant allows are met by the same
    runs. -/
theorem meetsFrom_congr {Inv : σ → Prop} {C D : σ → ε → Prop}
    (hstep : ∀ s e t, Inv s → M.step s e = some t → Inv t)
    (h : ∀ s e, Inv s → (C s e ↔ D s e)) {s : σ} (hs : Inv s) (es : List ε) :
    M.MeetsFrom C s es ↔ M.MeetsFrom D s es := by
  induction es generalizing s with
  | nil => exact Iff.rfl
  | cons e es ih =>
    refine and_congr (h s e hs) ?_
    constructor
    · exact fun hC t ht => (ih (hstep s e t hs ht)).1 (hC t ht)
    · exact fun hD t ht => (ih (hstep s e t hs ht)).2 (hD t ht)

theorem meets_congr {I : σ → Prop} {C D : σ → ε → Prop} (hinit : I M.init)
    (hstep : ∀ s e t, I s → M.step s e = some t → I t)
    (h : ∀ s e, I s → (C s e ↔ D s e)) (es : List ε) : M.Meets C es ↔ M.Meets D es :=
  M.meetsFrom_congr hstep h hinit es

/-- A condition that is exactly what keeps a property one step at a time is
    exactly what keeps it along a run: every state of the run is good if and
    only if every step meets the condition.  `Inv` is what good states of runs
    that meet the condition have in addition. -/
theorem forall_prefix_iff_meets {Inv Good : σ → Prop} {C : σ → ε → Prop} (hinit : Inv M.init)
    (hgood : ∀ s, Inv s → Good s)
    (hkeep : ∀ s e t, Inv s → C s e → M.step s e = some t → Inv t)
    (hbreak : ∀ s e t, Inv s → ¬ C s e → M.step s e = some t → ¬ Good t)
    {es : List ε} {last : σ} (hr : M.run es = some last) :
    (∀ pre t, pre <+: es → M.run pre = some t → Good t) ↔ M.Meets C es := by
  induction es using List.reverseRecOn generalizing last with
  | nil =>
    refine ⟨fun _ => trivial, fun _ pre t hp ht => ?_⟩
    obtain rfl : pre = [] := List.prefix_nil.1 hp
    cases ht
    exact hgood _ hinit
  | append_singleton es e ih =>
    obtain ⟨u, hu, hue⟩ := (M.runFrom_concat).1 hr
    have ih := ih hu
    rw [Meets, meetsFrom_concat]
    constructor
    · intro h
      have hC : M.Meets C es := ih.1 fun pre t hp => h pre t (hp.trans (List.prefix_append _ _))
      refine ⟨hC, fun v hv => ?_⟩
      obtain rfl : u = v := Option.some.inj (hu.symm.trans hv)
      by_contra hn
      exact hbreak u e last (M.guarded_induction hinit hkeep hC hu) hn hue
        (h _ last (List.prefix_refl _) hr)
    · rintro ⟨hC, he⟩ pre t hp ht
      rcases List.prefix_concat_iff.1 hp with rfl | hp
      · obtain rfl : last = t := Option.some.inj (hr.symm.trans ht)
        exact hgood _ (hkeep u e last (M.guarded_induction hinit hkeep hC hu) (he u hu) hue)
      · exact ih.2 hC pre t hp ht

end System

end Osodio.Lib
