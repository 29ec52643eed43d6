import Mathlib.Data.List.Infix

/-!
# Frames on a wire

A sender hands one frame after the other to a wire, which takes a part of each from the front.
The other side can tell the frames apart as long as nothing comes behind a frame that was cut.

## Main definitions

- `Handed` — a frame, and how much of it the wire took
- `bytes` — what came over the wire
- `Atomic` — nothing comes behind a frame that was cut
- `Framed` — whole frames, but for the last one

## Main results

- `atomic_concat_iff` — one frame more
- `Atomic.framed` — then the wire holds whole frames, but for the end of the last one
-/

namespace Osodio.Lib.Wire

variable {α : Type*}

/-- A frame that was handed to the wire, which took so much of it. -/
structure Handed (α : Type*) where
  frame : List α
  taken : ℕ
  taken_le : taken ≤ frame.length

namespace Handed

/-- Some of the frame is on the wire, and some is not. -/
def Cut (h : Handed α) : Prop := 0 < h.taken ∧ h.taken < h.frame.length

def part (h : Handed α) : List α := h.frame.take h.taken

instance (h : Handed α) : Decidable h.Cut := inferInstanceAs (Decidable (_ ∧ _))

theorem part_eq_nil {h : Handed α} (ht : h.taken = 0) : h.part = [] := by
  rw [part, ht, List.take_zero]

/-- A frame that is not cut is on the wire, or nothing of it is. -/
theorem part_of_not_cut {h : Handed α} (hc : ¬ h.Cut) : h.part = h.frame ∨ h.part = [] := by
  obtain ht | ht := Nat.eq_zero_or_pos h.taken
  · exact .inr (part_eq_nil ht)
  · have hle : h.frame.length ≤ h.taken := not_lt.1 fun hlt => hc ⟨ht, hlt⟩
    exact .inl (List.take_of_length_le hle)

end Handed

/-- What came over the wire. -/
def bytes (hs : List (Handed α)) : List α := hs.flatMap (·.part)

/-- A frame was cut. -/
def SomeCut (hs : List (Handed α)) : Prop := ∃ h ∈ hs, h.Cut

/-- Nothing comes behind a frame that was cut. -/
def Atomic (hs : List (Handed α)) : Prop :=
  ∀ pre h post, hs = pre ++ h :: post → h.Cut → ∀ h' ∈ post, h'.taken = 0

/-- Whole frames of some, in their order, and perhaps a part of one that comes after them. -/
def Framed (frames : List (List α)) (s : List α) : Prop :=
  ∃ (whole : List (List α)) (last : Option (List α)) (part : List α),
    s = whole.flatten ++ part ∧ part <+: last.getD [] ∧ (whole ++ last.toList).Sublist frames

section Frames

variable {hs : List (Handed α)} {h : Handed α}

theorem bytes_concat (hs : List (Handed α)) (h : Handed α) :
    bytes (hs ++ [h]) = bytes hs ++ h.part := by
  rw [bytes, List.flatMap_append, List.flatMap_singleton]
  rfl

theorem someCut_concat : SomeCut (hs ++ [h]) ↔ SomeCut hs ∨ h.Cut := by
  simp only [SomeCut, List.mem_append, List.mem_singleton, or_and_right, exists_or,
    exists_eq_left]

theorem atomic_nil : Atomic ([] : List (Handed α)) := by
  intro pre h post hnil
  exact absurd hnil (by simp)

/-- **One frame more**: behind a frame that was cut, nothing of it may come. -/
theorem atomic_concat_iff : Atomic (hs ++ [h]) ↔ Atomic hs ∧ (SomeCut hs → h.taken = 0) := by
  constructor
  · intro ha
    constructor
    · rintro pre h₁ post rfl hc h₂ hmem
      exact ha pre h₁ (post ++ [h]) (by simp) hc h₂ (List.mem_append_left _ hmem)
    · rintro ⟨h₁, hmem, hc⟩
      obtain ⟨pre, post, rfl⟩ := List.append_of_mem hmem
      exact ha pre h₁ (post ++ [h]) (by simp) hc h (by simp)
  · rintro ⟨ha, hlast⟩ pre h₁ post heq hc h₂ hmem
    obtain rfl | ⟨post', h₃, rfl⟩ := post.eq_nil_or_concat
    · cases hmem
    · rw [List.concat_eq_append, ← List.cons_append, ← List.append_assoc] at heq
      obtain ⟨rfl, hh⟩ := List.append_inj' heq rfl
      obtain rfl := List.singleton_inj.1 hh
      rw [List.concat_eq_append, List.mem_append, List.mem_singleton] at hmem
      obtain hmem | rfl := hmem
      · exact ha pre h₁ post' rfl hc h₂ hmem
      · exact hlast ⟨h₁, by simp, hc⟩

/-- Whole frames, as long as none was cut. -/
theorem bytes_of_not_someCut (hn : ¬ SomeCut hs) : ∃ whole : List (List α),
    bytes hs = whole.flatten ∧ whole.Sublist (hs.map Handed.frame) := by
  induction hs using List.reverseRecOn with
  | nil => exact ⟨[], rfl, List.nil_sublist _⟩
  | append_singleton hs h ih =>
    rw [someCut_concat, not_or] at hn
    obtain ⟨whole, hbytes, hsub⟩ := ih hn.1
    rw [bytes_concat, List.map_append, hbytes]
    obtain hpart | hpart := Handed.part_of_not_cut hn.2
    · refine ⟨whole ++ [h.frame], ?_, hsub.append (List.Sublist.refl _)⟩
      rw [hpart, List.flatten_append, List.flatten_singleton]
    · refine ⟨whole, ?_, hsub.trans (List.sublist_append_left ..)⟩
      rw [hpart, List.append_nil]

/-- **What is on the wire**: whole frames, in order, but for a part of the last one. -/
theorem Atomic.framed (ha : Atomic hs) : Framed (hs.map Handed.frame) (bytes hs) := by
  induction hs using List.reverseRecOn with
  | nil => exact ⟨[], none, [], rfl, List.nil_prefix, List.nil_sublist _⟩
  | append_singleton hs h ih =>
    obtain ⟨ha, hlast⟩ := atomic_concat_iff.1 ha
    rw [bytes_concat, List.map_append]
    by_cases hcut : SomeCut hs
    · obtain ⟨whole, last, part, hbytes, hpart, hsub⟩ := ih ha
      refine ⟨whole, last, part, ?_, hpart, hsub.trans (List.sublist_append_left ..)⟩
      rw [Handed.part_eq_nil (hlast hcut), List.append_nil, hbytes]
    · obtain ⟨whole, hbytes, hsub⟩ := bytes_of_not_someCut hcut
      refine ⟨whole, some h.frame, h.part, ?_, List.take_prefix .., hsub.append (List.Sublist.refl _)⟩
      rw [hbytes]

end Frames

end Osodio.Lib.Wire
