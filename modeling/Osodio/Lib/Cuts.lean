import Mathlib.Data.List.TakeWhile

/-!
# Texts cut at a separator

A text with parts is cut at the first or at the last separator, or where another text stands.

## Main definitions

- `cut`, `cutLast` — what stands before a separator, and behind it
- `cutText` — the same for a text

## Main results

- `cut_eq_some`, `cutLast_eq_some` — where a text is cut
- `splitOn_flatMap` — a text of parts is split into them
- `cutText_append` — a text that cannot overlap with itself is found at its first place
-/

namespace Osodio.Lib

variable {α : Type*} [DecidableEq α]

/-- The text before the first separator, and the text behind it. -/
def cut (sep : α) : List α → Option (List α × List α)
  | [] => none
  | a :: l => if a = sep then some ([], l) else (cut sep l).map fun (x, y) => (a :: x, y)

/-- The text before the last separator, and the text behind it. -/
def cutLast (sep : α) (l : List α) : Option (List α × List α) :=
  (cut sep l.reverse).map fun (x, y) => (y.reverse, x.reverse)

section Cuts

variable {sep : α} {l x y : List α}

theorem cut_eq_some : cut sep l = some (x, y) ↔ l = x ++ sep :: y ∧ sep ∉ x := by
  induction l generalizing x with
  | nil => simp [cut]
  | cons a l ih =>
    by_cases ha : a = sep
    · subst ha
      rw [cut, if_pos rfl]
      constructor
      · intro h
        cases h
        exact ⟨rfl, List.not_mem_nil⟩
      · rintro ⟨h, hx⟩
        cases x with
        | nil => simpa using h
        | cons b x =>
          cases h
          exact absurd (List.mem_cons_self ..) hx
    · rw [cut, if_neg ha, Option.map_eq_some_iff]
      constructor
      · rintro ⟨⟨x, y⟩, hxy, h⟩
        cases h
        obtain ⟨rfl, hx⟩ := ih.1 hxy
        refine ⟨rfl, ?_⟩
        rw [List.mem_cons, not_or]
        exact ⟨Ne.symm ha, hx⟩
      · rintro ⟨h, hx⟩
        cases x with
        | nil =>
          cases h
          exact absurd rfl ha
        | cons b x =>
          cases h
          exact ⟨(x, y), ih.2 ⟨rfl, fun h => hx (List.mem_cons_of_mem _ h)⟩, rfl⟩

theorem cut_append (hx : sep ∉ x) : cut sep (x ++ sep :: y) = some (x, y) :=
  cut_eq_some.2 ⟨rfl, hx⟩

theorem cutLast_eq_some : cutLast sep l = some (x, y) ↔ l = x ++ sep :: y ∧ sep ∉ y := by
  rw [cutLast, Option.map_eq_some_iff]
  constructor
  · rintro ⟨⟨y', x'⟩, hcut, h⟩
    cases h
    obtain ⟨hl, hy⟩ := cut_eq_some.1 hcut
    refine ⟨?_, by rwa [List.mem_reverse]⟩
    rw [← l.reverse_reverse, hl, List.reverse_append, List.reverse_cons, List.append_assoc]
    rfl
  · rintro ⟨rfl, hy⟩
    refine ⟨(y.reverse, x.reverse), ?_, by simp⟩
    rw [cut_eq_some, List.mem_reverse, List.reverse_append, List.reverse_cons, List.append_assoc]
    exact ⟨rfl, hy⟩

theorem cutLast_append (hy : sep ∉ y) : cutLast sep (x ++ sep :: y) = some (x, y) :=
  cutLast_eq_some.2 ⟨rfl, hy⟩

/-- Parts with a separator in front of each. -/
theorem splitOn_flatMap {parts : List (List α)} (hx : sep ∉ x) (hparts : ∀ p ∈ parts, sep ∉ p) :
    (x ++ parts.flatMap (sep :: ·)).splitOn sep = x :: parts := by
  induction parts generalizing x with
  | nil =>
    rw [List.flatMap_nil, List.append_nil]
    exact List.splitOn_eq_singleton hx
  | cons p parts ih =>
    rw [List.flatMap_cons, List.cons_append, List.splitOn_append_cons_self_of_not_mem hx,
      ih (hparts p (List.mem_cons_self ..)) fun q hq => hparts q (List.mem_cons_of_mem _ hq)]

end Cuts

/-! ## Texts cut at a text -/

/-- The text before the first place where `pat` stands, and the text behind it. -/
def cutText (pat : List α) : List α → Option (List α × List α)
  | [] => none
  | a :: l =>
    if pat.isPrefixOf (a :: l) then some ([], (a :: l).drop pat.length)
    else (cutText pat l).map fun (x, y) => (a :: x, y)

section Texts

variable {a c : α} {pat x y l : List α}

theorem cutText_eq (h : cutText pat l = some (x, y)) : l = x ++ pat ++ y := by
  induction l generalizing x with
  | nil => cases h
  | cons a l ih =>
    rw [cutText] at h
    split at h
    · next hpre =>
      cases h
      obtain ⟨y, hy⟩ := List.isPrefixOf_iff_prefix.1 hpre
      rw [List.nil_append, ← hy, List.drop_left]
    · obtain ⟨⟨x', y'⟩, hl, heq⟩ := Option.map_eq_some_iff.1 h
      cases heq
      rw [ih hl]
      rfl

/-- The text stands at the front. -/
theorem cutText_prefix (hpat : pat ≠ []) (y : List α) : cutText pat (pat ++ y) = some ([], y) := by
  obtain ⟨c, p, rfl⟩ := List.exists_cons_of_ne_nil hpat
  have hpre : (c :: p).isPrefixOf (c :: (p ++ y)) = true :=
    List.isPrefixOf_iff_prefix.2 (List.prefix_append (c :: p) y)
  rw [List.cons_append, cutText, if_pos hpre, List.length_cons, List.drop_succ_cons,
    List.drop_left]

/-- It does not stand at the front. -/
theorem cutText_cons (h : ¬pat <+: a :: l) :
    cutText pat (a :: l) = (cutText pat l).map fun (x, y) => (a :: x, y) := by
  rw [cutText, if_neg (mt List.isPrefixOf_iff_prefix.1 h)]

/-- It does not stand where its first element is not. -/
theorem cutText_skip (hx : c ∉ x) (p l : List α) :
    cutText (c :: p) (x ++ l) = (cutText (c :: p) l).map fun (x', y) => (x ++ x', y) := by
  induction x with
  | nil => exact (congrFun Option.map_id _).symm
  | cons a x ih =>
    rw [List.mem_cons, not_or] at hx
    have hfront : ¬c :: p <+: a :: (x ++ l) := fun h => hx.1 (List.cons_prefix_cons.1 h).1
    rw [List.cons_append, cutText_cons hfront, ih hx.2, Option.map_map]
    rfl

omit [DecidableEq α] in
/-- A text that stands at the front of a text with another one behind stands in the first one, if
    it does not have what the second one begins with. -/
theorem prefix_of_prefix_append {p : List α} (hc : c ∉ p) (h : p <+: x ++ c :: y) : p <+: x := by
  induction x generalizing p with
  | nil =>
    cases p with
    | nil => exact List.nil_prefix
    | cons d p => exact absurd ((List.cons_prefix_cons.1 h).1 ▸ List.mem_cons_self ..) hc
  | cons a x ih =>
    cases p with
    | nil => exact List.nil_prefix
    | cons d p =>
      obtain ⟨rfl, hrest⟩ := List.cons_prefix_cons.1 h
      exact List.cons_prefix_cons.2 ⟨rfl, ih (fun hmem => hc (List.mem_cons_of_mem _ hmem)) hrest⟩

/-- The text is found at its first place, if it cannot overlap with itself. -/
theorem cutText_append {p : List α} (hc : c ∉ p) (hx : ¬(c :: p) <:+: x) (y : List α) :
    cutText (c :: p) (x ++ (c :: p ++ y)) = some (x, y) := by
  induction x with
  | nil => exact cutText_prefix (List.cons_ne_nil _ _) y
  | cons a x ih =>
    have hfront : ¬c :: p <+: a :: (x ++ (c :: p ++ y)) := by
      intro h
      obtain ⟨rfl, hrest⟩ := List.cons_prefix_cons.1 h
      have hpre := prefix_of_prefix_append hc hrest
      exact hx (List.cons_prefix_cons.2 ⟨rfl, hpre⟩).isInfix
    have hrest : ¬(c :: p) <:+: x := fun h => hx (h.trans (List.suffix_cons a x).isInfix)
    rw [List.cons_append, cutText_cons hfront, ih hrest]
    rfl

/-- A text is not found in a shorter one. -/
theorem cutText_short (h : l.length < pat.length) : cutText pat l = none := by
  induction l with
  | nil => rfl
  | cons a l ih =>
    have hfront : ¬pat <+: a :: l := fun hpre => Nat.not_le.2 h hpre.length_le
    rw [cutText_cons hfront, ih (Nat.lt_of_succ_lt h)]
    rfl

end Texts

end Osodio.Lib
