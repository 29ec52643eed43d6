import Mathlib.Data.List.Nodup
import Mathlib.Data.List.Perm.Basic
import Mathlib.Logic.Function.Basic

/-!
# Channels

What is sent goes through the channel of its key and is received in that order.
The histories of both ends say all of it: on each channel, what was sent is what
was received followed by what is still there.

## Main definitions

- `Delivers` — the histories of both ends agree with what is on the channels

## Main results

- `Delivers.send`, `Delivers.receive` — the two operations keep this
- `Delivers.nodup` — nothing is received twice
- `Delivers.perm_of_empty` — when the channels are empty, all was received
-/

namespace Osodio.Lib

variable {α κ : Type*} [DecidableEq κ]

/-- On each channel, what was sent is what was received and what is pending. -/
def Delivers (key : α → κ) (sent received : List α) (pending : κ → List α) : Prop :=
  ∀ k, sent.filter (key · = k) = received.filter (key · = k) ++ pending k

namespace Delivers

variable {key : α → κ} {sent received : List α} {pending pending' : κ → List α}

theorem nil (key : α → κ) : Delivers key [] [] fun _ => [] := fun _ => rfl

/-- What is pending on a channel has its key. -/
theorem key_eq (h : Delivers key sent received pending) {k : κ} {a : α} (ha : a ∈ pending k) :
    key a = k := by
  have hmem : a ∈ sent.filter (key · = k) := by
    rw [h k]
    exact List.mem_append_right _ ha
  simpa using (List.mem_filter.1 hmem).2

theorem mem_iff (h : Delivers key sent received pending) {a : α} :
    a ∈ sent ↔ a ∈ received ∨ a ∈ pending (key a) := by
  have hmem : a ∈ sent.filter (key · = key a) ↔
      a ∈ received.filter (key · = key a) ++ pending (key a) := by
    rw [h (key a)]
  simpa using hmem

theorem subset (h : Delivers key sent received pending) : received ⊆ sent :=
  fun _ ha => h.mem_iff.2 (.inl ha)

/-- On each channel the order is kept. -/
theorem filter_prefix (h : Delivers key sent received pending) (k : κ) :
    received.filter (key · = k) <+: sent.filter (key · = k) :=
  ⟨pending k, (h k).symm⟩

theorem congr (h : Delivers key sent received pending) (heq : ∀ k, pending' k = pending k) :
    Delivers key sent received pending' := fun k => by rw [heq, h k]

/-- Sending appends to the channel of the key. -/
theorem send (h : Delivers key sent received pending) {a : α}
    (hsame : pending' (key a) = pending (key a) ++ [a])
    (hother : ∀ k, k ≠ key a → pending' k = pending k) :
    Delivers key (sent ++ [a]) received pending' := by
  intro k
  rw [List.filter_append, h k]
  by_cases hk : k = key a
  · subst hk
    simp [hsame]
  · simp [hother k hk, Ne.symm hk]

/-- Receiving takes the first of a channel. -/
theorem receive (h : Delivers key sent received pending) {k : κ} {a : α} {rest : List α}
    (hfirst : pending k = a :: rest) (hsame : pending' k = rest)
    (hother : ∀ k', k' ≠ k → pending' k' = pending k') :
    Delivers key sent (received ++ [a]) pending' := by
  have hkey : key a = k := h.key_eq (by rw [hfirst]; exact List.mem_cons_self ..)
  intro k'
  rw [List.filter_append, h k']
  by_cases hk : k' = k
  · subst hk
    simp [hsame, hfirst, hkey]
  · have hne : ¬ key a = k' := fun heq => hk (heq.symm.trans hkey)
    simp [hother k' hk, hne]

section Count

variable [DecidableEq α]

theorem count_filter_key (key : α → κ) (l : List α) (a : α) :
    (l.filter (key · = key a)).count a = l.count a :=
  List.count_filter (by simp)

/-- What was sent and how often, in terms of the other end. -/
theorem count_eq (h : Delivers key sent received pending) (a : α) :
    sent.count a = received.count a + (pending (key a)).count a := by
  rw [← count_filter_key key sent, h (key a), List.count_append, count_filter_key]

/-- Nothing is received twice. -/
theorem nodup (h : Delivers key sent received pending) (hs : sent.Nodup) : received.Nodup := by
  rw [List.nodup_iff_count_le_one] at hs ⊢
  intro a
  have hc := h.count_eq a
  have hle := hs a
  omega

/-- Nothing that is sent once by its name is received twice by its name. -/
theorem nodup_map {β : Type*} {f : α → β} (h : Delivers key sent received pending)
    (hs : (sent.map f).Nodup) : (received.map f).Nodup :=
  List.Nodup.map_on
    (fun _ hx _ hy => List.inj_on_of_nodup_map hs (h.subset hx) (h.subset hy)) (h.nodup hs.of_map)

/-- What is pending was not received. -/
theorem notMem_received (h : Delivers key sent received pending) (hs : sent.Nodup) {k : κ} {a : α}
    (ha : a ∈ pending k) : a ∉ received := by
  obtain rfl := h.key_eq ha
  intro hr
  have hc := h.count_eq a
  have hle := List.nodup_iff_count_le_one.1 hs a
  have h1 := List.count_pos_iff.2 ha
  have h2 := List.count_pos_iff.2 hr
  omega

/-- When the channels are empty, all was received. -/
theorem perm_of_empty (h : Delivers key sent received pending) (he : ∀ k, pending k = []) :
    received.Perm sent := by
  rw [List.perm_iff_count]
  intro a
  rw [h.count_eq a, he, List.count_nil, Nat.add_zero]

end Count

end Delivers

end Osodio.Lib
