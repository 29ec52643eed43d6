import Mathlib.Data.List.Range
import Mathlib.Tactic.Ring

/-!
# Iterated functions over blocks

A hash function runs a compression function over the blocks of its message.  It may do so
piece by piece, as long as the pieces are cut between blocks.

## Main definitions

- `blocks` — the whole blocks of a list
- `absorb` — a compression function, run over these blocks

## Main results

- `absorb_append` — two pieces one after the other
-/

namespace Osodio.Lib

variable {α σ : Type*}

/-- The blocks of `n` elements each, without the elements behind the last one. -/
def blocks (n : ℕ) (l : List α) : List (List α) :=
  (List.range (l.length / n)).map fun i => (l.drop (i * n)).take n

/-- The state behind all blocks. -/
def absorb (compress : σ → List α → σ) (n : ℕ) (s : σ) (l : List α) : σ :=
  (blocks n l).foldl compress s

section Blocks

variable {n q : ℕ} {l l' : List α} {compress : σ → List α → σ} {s : σ}

theorem blocks_append (hn : 0 < n) (h : l.length = q * n) :
    blocks n (l ++ l') = blocks n l ++ blocks n l' := by
  have hq : l.length / n = q := by rw [h, Nat.mul_div_cancel _ hn]
  have hlen : (l ++ l').length / n = q + l'.length / n := by
    rw [List.length_append, h, Nat.add_comm, Nat.add_mul_div_right _ _ hn, Nat.add_comm]
  unfold blocks
  rw [hlen, hq, List.range_add, List.map_append, List.map_map]
  congr 1
  · apply List.map_congr_left
    intro i hi
    have hlt : (i + 1) * n ≤ q * n := Nat.mul_le_mul_right n (List.mem_range.1 hi)
    have hi' : i * n + n ≤ l.length := by
      rw [h]
      calc i * n + n = (i + 1) * n := by ring
        _ ≤ q * n := hlt
    rw [List.drop_append_of_le_length (by omega), List.take_append_of_le_length]
    rw [List.length_drop]
    omega
  · apply List.map_congr_left
    intro i _
    have hdrop : (q + i) * n = l.length + i * n := by rw [h]; ring
    show ((l ++ l').drop ((q + i) * n)).take n = _
    rw [hdrop, ← List.drop_drop, List.drop_left]

/-- **Two pieces**, of which the first is made of whole blocks. -/
theorem absorb_append (hn : 0 < n) (h : l.length = q * n) :
    absorb compress n s (l ++ l') = absorb compress n (absorb compress n s l) l' := by
  unfold absorb
  rw [blocks_append hn h, List.foldl_append]

/-- What stands behind the last whole block is not absorbed. -/
theorem absorb_take (hn : 0 < n) (s : σ) (l : List α) :
    absorb compress n s (l.take (l.length / n * n)) = absorb compress n s l := by
  have hle : l.length / n * n ≤ l.length := Nat.div_mul_le_self _ _
  have hlen : (l.take (l.length / n * n)).length = l.length / n * n :=
    List.length_take_of_le hle
  have hrest : (l.drop (l.length / n * n)).length / n = 0 := by
    apply Nat.div_eq_of_lt
    rw [List.length_drop]
    have := Nat.div_add_mod' l.length n
    have := Nat.mod_lt l.length hn
    omega
  have h := @absorb_append _ _ n (l.length / n) _ (l.drop (l.length / n * n)) compress s hn hlen
  rw [List.take_append_drop] at h
  rw [h]
  generalize absorb compress n s (l.take (l.length / n * n)) = s'
  show s' = (blocks n (l.drop (l.length / n * n))).foldl compress s'
  rw [blocks, hrest]
  rfl

end Blocks

end Osodio.Lib
