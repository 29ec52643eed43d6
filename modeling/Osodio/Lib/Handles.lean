import Mathlib.Data.List.Induction

/-!
# Handles and what is done with them

A log tells when a handle was acquired, used and released.  It is proper if a handle is
acquired once, and used and released only while it is held.

## Main definitions

- `Use` — an entry of the log
- `Holding` — a handle is held after a log
- `Proper` — the log is proper

## Main results

- `Proper.after_release` — nothing is done with a handle that was released
- `Proper.count_release` — a handle that is no longer held was released once
-/

namespace Osodio.Lib

/-- What is done with a handle. -/
inductive Use (α : Type*) where
  | acquire (a : α)
  | touch (a : α)
  | release (a : α)
  deriving DecidableEq, Repr

variable {α : Type*}

/-- The handle that it is done with. -/
def Use.handle : Use α → α
  | .acquire a | .touch a | .release a => a

/-- The handle was acquired, and not released. -/
def Holding (log : List (Use α)) (a : α) : Prop := .acquire a ∈ log ∧ .release a ∉ log

/-- Each entry of the log is allowed by those before it. -/
inductive Proper : List (Use α) → Prop where
  | nil : Proper []
  | acquire {log : List (Use α)} {a : α} (h : Proper log) (ha : .acquire a ∉ log) :
      Proper (log ++ [.acquire a])
  | touch {log : List (Use α)} {a : α} (h : Proper log) (ha : Holding log a) :
      Proper (log ++ [.touch a])
  | release {log : List (Use α)} {a : α} (h : Proper log) (ha : Holding log a) :
      Proper (log ++ [.release a])

section Handles

variable {log pre post : List (Use α)} {a b : α}

/-- What was released was acquired. -/
theorem Proper.acquire_of_release (h : Proper log) (ha : .release a ∈ log) : .acquire a ∈ log := by
  induction h with
  | nil => exact absurd ha List.not_mem_nil
  | acquire h _ ih | touch h _ ih =>
    obtain ha | ha := List.mem_append.1 ha
    · exact List.mem_append_left _ (ih ha)
    · cases List.mem_singleton.1 ha
  | release h hb ih =>
    obtain ha | ha := List.mem_append.1 ha
    · exact List.mem_append_left _ (ih ha)
    · cases List.mem_singleton.1 ha
      exact List.mem_append_left _ hb.1

theorem holding_acquire (h : Proper log) (hb : .acquire b ∉ log) :
    Holding (log ++ [.acquire b]) a ↔ Holding log a ∨ a = b := by
  have hrelease : .release b ∉ log := fun hr => hb (h.acquire_of_release hr)
  unfold Holding
  simp only [List.mem_append, List.mem_singleton, Use.acquire.injEq, reduceCtorEq, or_false]
  constructor
  · rintro ⟨ha | rfl, hr⟩
    · exact .inl ⟨ha, hr⟩
    · exact .inr rfl
  · rintro (⟨ha, hr⟩ | rfl)
    · exact ⟨.inl ha, hr⟩
    · exact ⟨.inr rfl, hrelease⟩

theorem holding_touch : Holding (log ++ [.touch b]) a ↔ Holding log a := by
  simp [Holding]

theorem holding_release : Holding (log ++ [.release b]) a ↔ Holding log a ∧ a ≠ b := by
  simp [Holding, and_assoc]

theorem holding_release_all {l : List α} :
    Holding (log ++ l.map Use.release) a ↔ Holding log a ∧ a ∉ l := by
  induction l generalizing log with
  | nil => simp
  | cons b l ih =>
    rw [List.map_cons, List.append_cons, ih, holding_release, List.mem_cons, not_or, and_assoc]

/-- Handles that are held can be released one after the other. -/
theorem Proper.release_all {l : List α} (h : Proper log) (hl : l.Nodup)
    (hheld : ∀ a ∈ l, Holding log a) : Proper (log ++ l.map Use.release) := by
  induction l generalizing log with
  | nil => rwa [List.map_nil, List.append_nil]
  | cons b l ih =>
    obtain ⟨hb, hl⟩ := List.nodup_cons.1 hl
    rw [List.map_cons, List.append_cons]
    refine ih (h.release (hheld b (List.mem_cons_self ..))) hl fun a ha => ?_
    refine holding_release.2 ⟨hheld a (List.mem_cons_of_mem _ ha), ?_⟩
    rintro rfl
    exact hb ha

/-- An entry does not concern what was released before it. -/
theorem Proper.last_handle {x : Use α} (h : Proper (log ++ [x])) (ha : .release a ∈ log) :
    x.handle ≠ a := by
  generalize hl : log ++ [x] = l at h
  cases h with
  | nil => cases List.append_ne_nil_of_right_ne_nil _ (List.cons_ne_nil _ _) hl
  | acquire h hb =>
    obtain ⟨rfl, hx⟩ := List.append_inj' hl rfl
    cases hx
    rintro rfl
    exact hb (h.acquire_of_release ha)
  | touch _ hb =>
    obtain ⟨rfl, hx⟩ := List.append_inj' hl rfl
    cases hx
    rintro rfl
    exact hb.2 ha
  | release _ hb =>
    obtain ⟨rfl, hx⟩ := List.append_inj' hl rfl
    cases hx
    rintro rfl
    exact hb.2 ha

theorem Proper.init {x : Use α} (h : Proper (log ++ [x])) : Proper log := by
  generalize hl : log ++ [x] = l at h
  cases h with
  | nil => cases List.append_ne_nil_of_right_ne_nil _ (List.cons_ne_nil _ _) hl
  | acquire h _ | touch h _ | release h _ =>
    obtain ⟨rfl, -⟩ := List.append_inj' hl rfl
    exact h

/-- **Nothing is done with a handle that was released.** -/
theorem Proper.after_release (h : Proper log) (hlog : log = pre ++ .release a :: post) :
    ∀ u ∈ post, u.handle ≠ a := by
  induction post using List.reverseRecOn generalizing log with
  | nil => exact fun u hu => absurd hu List.not_mem_nil
  | append_singleton post x ih =>
    rw [← List.cons_append, ← List.append_assoc] at hlog
    subst hlog
    intro u hu
    obtain hu | hu := List.mem_append.1 hu
    · exact ih h.init rfl u hu
    · obtain rfl := List.mem_singleton.1 hu
      exact h.last_handle (List.mem_append_right _ (List.mem_cons_self ..))

/-- A handle that was acquired and is no longer held was released, and once. -/
theorem Proper.count_release [DecidableEq α] (h : Proper log) (ha : .acquire a ∈ log)
    (hn : ¬Holding log a) : log.count (.release a) = 1 := by
  have hmem : .release a ∈ log := by
    by_contra hr
    exact hn ⟨ha, hr⟩
  obtain ⟨pre, post, rfl⟩ := List.append_of_mem hmem
  have hpost : .release a ∉ post := fun hr => h.after_release rfl _ hr rfl
  have hpre : .release a ∉ pre := by
    intro hr
    obtain ⟨p, q, rfl⟩ := List.append_of_mem hr
    rw [List.append_assoc, List.cons_append] at h
    exact h.after_release rfl (.release a) (List.mem_append_right _ (List.mem_cons_self ..)) rfl
  rw [List.count_append, List.count_eq_zero_of_not_mem hpre, List.count_cons_self,
    List.count_eq_zero_of_not_mem hpost]

end Handles

end Osodio.Lib
