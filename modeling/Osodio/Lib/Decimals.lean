import Mathlib.Algebra.Order.Field.Power
import Mathlib.Algebra.Order.Field.Rat
import Mathlib.Algebra.Order.Group.Abs
import Mathlib.Data.Nat.Log
import Mathlib.Data.Rat.Floor
import Mathlib.Tactic.Linarith
import Mathlib.Tactic.Positivity
import Mathlib.Tactic.Ring

/-!
# Decimals of few digits

A number is rounded to a number of digits by rounding its quotient by the unit of the last digit.
The result is as near as any decimal of so many digits, and all the others are a part of the unit
away.

## Main definitions

- `roundHalfEven` — the whole number nearest to a quotient
- `Decimal` — a decimal of at most so many digits
- `roundDigits` — the digits of a number

## Main results

- `Decimal.nearest` — no decimal is nearer than the rounded one
- `Decimal.eq_or_far` — any other one is a tenth of the unit away
- `roundDigits_spec` — what a number is rounded to
-/

namespace Osodio.Lib

/-! ## Quotients -/

/-- The whole number nearest to a quotient, of two the even one. -/
def roundHalfEven (num den : ℕ) : ℕ :=
  if 2 * (num % den) < den ∨ 2 * (num % den) = den ∧ num / den % 2 = 0 then num / den
  else num / den + 1

section Quotients

variable {num den : ℕ}

theorem roundHalfEven_nearest (k : ℤ) :
    |(roundHalfEven num den * den - num : ℤ)| ≤ |k * den - num| := by
  have hsplit : (num : ℤ) = num / den * den + (num % den : ℕ) := by
    rw [mul_comm]
    exact_mod_cast (Nat.div_add_mod num den).symm
  generalize hq : ((num : ℤ) / den) = q at hsplit
  have hcast : ((num / den : ℕ) : ℤ) = q := by rw [Int.natCast_div, hq]
  have hfar : (num % den : ℕ) ≤ |k * den - num| ∨ (den - (num % den : ℕ) : ℤ) ≤ |k * den - num| := by
    obtain hk | hk := le_or_gt k q
    · left
      have hle : k * den ≤ q * den := mul_le_mul_of_nonneg_right hk (by positivity)
      exact le_trans (by linarith) (neg_le_abs _)
    · right
      have hle : (q + 1) * den ≤ k * den := mul_le_mul_of_nonneg_right hk (by positivity)
      exact le_trans (by linarith) (le_abs_self _)
  have hmod : den ≠ 0 → num % den < den := fun h => Nat.mod_lt _ (Nat.pos_of_ne_zero h)
  rw [roundHalfEven]
  split
  · next hlow =>
    have habs : |((num / den : ℕ) * den - num : ℤ)| = (num % den : ℕ) := by
      rw [hcast, hsplit, sub_add_cancel_left, abs_neg, abs_of_nonneg (by positivity)]
    rw [habs]
    omega
  · next hhigh =>
    have habs : |((num / den + 1 : ℕ) * den - num : ℤ)| = |(den - (num % den : ℕ) : ℤ)| := by
      rw [Nat.cast_add, hcast, hsplit, Nat.cast_one, add_mul, one_mul, add_sub_add_left_eq_sub]
    rw [habs]
    by_cases hden : den = 0
    · subst hden
      simp
    · rw [abs_of_nonneg (by have := hmod hden; omega)]
      omega

/-- The same of a quotient in units of `c / t`, of which the number is `u / t`. -/
theorem roundHalfEven_scaled {u c : ℕ} (x k : ℤ) :
    |roundHalfEven (u * 10 ^ (-x).toNat) (c * 10 ^ x.toNat) * (10 ^ x * c) - (u : ℚ)| ≤
      |k * (10 ^ x * c) - (u : ℚ)| := by
  have hpos : (0 : ℚ) < 10 ^ (-x).toNat := by positivity
  have hunit : (10 : ℚ) ^ x * c * 10 ^ (-x).toNat = c * 10 ^ x.toNat := by
    rw [mul_right_comm, ← zpow_natCast 10 (-x).toNat, ← zpow_add₀ (by norm_num),
      ← zpow_natCast 10 x.toNat, mul_comm]
    congr 2
    omega
  have hk := @roundHalfEven_nearest (u * 10 ^ (-x).toNat) (c * 10 ^ x.toNat) k
  generalize roundHalfEven _ _ = m at hk ⊢
  have hk : |(m : ℚ) * (c * 10 ^ x.toNat) - u * 10 ^ (-x).toNat| ≤
      |(k : ℚ) * (c * 10 ^ x.toNat) - u * 10 ^ (-x).toNat| := by exact_mod_cast hk
  rw [← hunit, ← mul_assoc (m : ℚ), ← mul_assoc (k : ℚ), ← sub_mul, ← sub_mul, abs_mul, abs_mul,
    abs_of_pos hpos] at hk
  exact le_of_mul_le_mul_right hk hpos

/-- The logarithm of a quotient, which is enlarged first so that it is a whole number or more. -/
theorem log_bounds {u c n : ℕ} (hc : 0 < c) (h : c ≤ u * 10 ^ n) :
    (10 : ℚ) ^ ((Nat.log 10 (u * 10 ^ n / c) : ℤ) - n) * c ≤ u ∧
      (u : ℚ) < 10 ^ ((Nat.log 10 (u * 10 ^ n / c) : ℤ) - n + 1) * c := by
  have hlow := Nat.pow_log_le_self 10 (Nat.div_pos h hc).ne'
  have hhigh := Nat.lt_pow_succ_log_self (show 1 < 10 by decide) (u * 10 ^ n / c)
  generalize Nat.log 10 (u * 10 ^ n / c) = k at hlow hhigh ⊢
  rw [Nat.le_div_iff_mul_le hc] at hlow
  rw [Nat.div_lt_iff_lt_mul hc] at hhigh
  have hlow : (10 : ℚ) ^ k * c ≤ u * 10 ^ n := by exact_mod_cast hlow
  have hhigh : (u : ℚ) * 10 ^ n < 10 ^ (k + 1) * c := by exact_mod_cast hhigh
  have hpow : (0 : ℚ) < 10 ^ n := by positivity
  have hsub (i : ℕ) : (10 : ℚ) ^ ((i : ℤ) - n) = 10 ^ i / 10 ^ n := by
    rw [zpow_sub₀ (by norm_num), zpow_natCast, zpow_natCast]
  have hnext : (k : ℤ) - n + 1 = (k + 1 : ℕ) - n := by push_cast; ring
  rw [hnext, hsub, hsub, div_mul_eq_mul_div, div_mul_eq_mul_div, div_le_iff₀ hpow,
    lt_div_iff₀ hpow]
  exact ⟨hlow, hhigh⟩

end Quotients

/-! ## Decimals -/

/-- A decimal of at most `p` digits, in units of which one makes `c`. -/
def Decimal (p : ℕ) (c x : ℚ) : Prop := ∃ m < 10 ^ p, ∃ e : ℤ, x = (m : ℕ) * 10 ^ e * c

section Decimals

variable {p m : ℕ} {c x u : ℚ} {e : ℤ}

theorem Decimal.nonneg (h : Decimal p c x) (hc : 0 ≤ c) : 0 ≤ x := by
  obtain ⟨m, -, e, rfl⟩ := h
  positivity

/-- Above the smallest number with a digit at the front, decimals are multiples of the unit. -/
theorem Decimal.multiple_or_lt (h : Decimal (p + 1) c x) (hc : 0 < c) (e : ℤ) :
    (∃ k : ℤ, x = k * (10 ^ e * c)) ∨ x ≤ (10 ^ p - 1 / 10) * (10 ^ e * c) := by
  obtain ⟨m, hm, e', rfl⟩ := h
  obtain hle | hlt := le_or_gt e e'
  · left
    refine ⟨m * 10 ^ (e' - e).toNat, ?_⟩
    have hpow : (10 : ℚ) ^ e' = 10 ^ (e' - e).toNat * 10 ^ e := by
      rw [← zpow_natCast, ← zpow_add₀ (by norm_num), Int.toNat_of_nonneg (by omega), sub_add_cancel]
    rw [hpow]
    push_cast
    ring
  · right
    have hm : (m : ℚ) ≤ 10 ^ (p + 1) - 1 := by
      have hm : (m : ℚ) + 1 ≤ 10 ^ (p + 1) := by exact_mod_cast hm
      linarith
    have hpow : (10 : ℚ) ^ e' ≤ 10 ^ (e - 1) := zpow_le_zpow_right₀ (by norm_num) (by omega)
    have hone : (0 : ℚ) ≤ 10 ^ (p + 1) - 1 := le_trans (by positivity) hm
    calc (m : ℚ) * 10 ^ e' * c ≤ (10 ^ (p + 1) - 1) * 10 ^ (e - 1) * c := by gcongr
      _ = (10 ^ p - 1 / 10) * (10 ^ e * c) := by
        rw [zpow_sub_one₀ (by norm_num), pow_succ]
        ring

/-- No decimal is nearer than the multiple of the unit that is nearest. -/
theorem Decimal.nearest (h : Decimal (p + 1) c x) (hc : 0 < c) (hlow : 10 ^ p * (10 ^ e * c) ≤ u)
    (hm : ∀ k : ℤ, |m * (10 ^ e * c) - u| ≤ |k * (10 ^ e * c) - u|) :
    |m * (10 ^ e * c) - u| ≤ |x - u| := by
  have hunit : (0 : ℚ) < 10 ^ e * c := by positivity
  obtain ⟨k, rfl⟩ | hx := h.multiple_or_lt hc e
  · exact hm k
  · -- the smallest number with a digit at the front is between
    have hfirst := hm (10 ^ p)
    push_cast at hfirst
    rw [abs_of_nonpos (sub_nonpos.2 hlow)] at hfirst
    refine hfirst.trans (le_trans ?_ (neg_le_abs _))
    linarith

/-- The nearest multiple is above the multiples below. -/
theorem le_of_nearest {s : ℚ} (hs : 0 < s) (hm : ∀ k : ℤ, |m * s - u| ≤ |k * s - u|) {k : ℕ}
    (hk : (k : ℚ) * s ≤ u) : k ≤ m := by
  by_contra hlt
  have hcast : (m : ℚ) * s < k * s :=
    mul_lt_mul_of_pos_right (by exact_mod_cast Nat.lt_of_not_le hlt) hs
  have hdist := hm k
  push_cast at hdist
  rw [abs_of_nonpos (by linarith), abs_of_nonpos (by linarith)] at hdist
  linarith

/-- The nearest multiple is below the multiples above. -/
theorem ge_of_nearest {s : ℚ} (hs : 0 < s) (hm : ∀ k : ℤ, |m * s - u| ≤ |k * s - u|) {k : ℕ}
    (hk : u ≤ (k : ℚ) * s) : m ≤ k := by
  by_contra hlt
  have hcast : (k : ℚ) * s < m * s :=
    mul_lt_mul_of_pos_right (by exact_mod_cast Nat.lt_of_not_le hlt) hs
  have hdist := hm k
  push_cast at hdist
  rw [abs_of_nonneg (by linarith), abs_of_nonneg (by linarith)] at hdist
  linarith

/-- The nearest multiple is no further than the unit. -/
theorem abs_sub_le_of_nearest {s : ℚ} (hs : 0 < s)
    (hm : ∀ k : ℤ, |m * s - u| ≤ |k * s - u|) : |m * s - u| ≤ s := by
  refine (hm ⌊u / s⌋).trans ?_
  have hlow := (le_div_iff₀ hs).1 (Int.floor_le (u / s))
  have hhigh := (div_lt_iff₀ hs).1 (Int.lt_floor_add_one (u / s))
  rw [abs_of_nonpos (by linarith)]
  linarith

/-- Any other decimal is a tenth of the unit away, or more. -/
theorem Decimal.eq_or_far (h : Decimal (p + 1) c x) (hc : 0 < c) (hlow : 10 ^ p * (10 ^ e * c) ≤ u)
    (hm : ∀ k : ℤ, |m * (10 ^ e * c) - u| ≤ |k * (10 ^ e * c) - u|) :
    x = m * (10 ^ e * c) ∨ 10 ^ e * c ≤ 10 * |x - u| := by
  have hunit : (0 : ℚ) < 10 ^ e * c := by positivity
  obtain ⟨k, rfl⟩ | hx := h.multiple_or_lt hc e
  · by_cases hk : k = m
    · left
      rw [hk]
      norm_cast
    · right
      have hdist : 10 ^ e * c ≤ |k * (10 ^ e * c) - m * (10 ^ e * c)| := by
        have hone : (1 : ℚ) ≤ |(k - m : ℤ)| := by
          exact_mod_cast Int.one_le_abs (sub_ne_zero.2 hk)
        rw [← sub_mul, abs_mul, abs_of_pos hunit]
        push_cast at hone
        nlinarith
      have htri := abs_sub_le (k * (10 ^ e * c)) u (m * (10 ^ e * c))
      rw [abs_sub_comm u] at htri
      have := hm k
      linarith
  · right
    have := neg_le_abs (x - u)
    linarith

/-- A decimal as near as a multiple of the unit is no larger, if the number is not beyond the
    middle between this multiple and the next. -/
theorem Decimal.le_of_nearest {k : ℕ} (h : Decimal (p + 1) c x) (hc : 0 < c) (hk : 10 ^ p ≤ k)
    (hu : 2 * u < (2 * k + 1) * (10 ^ e * c)) (hn : |x - u| ≤ |k * (10 ^ e * c) - u|) :
    x ≤ k * (10 ^ e * c) := by
  have hunit : (0 : ℚ) < 10 ^ e * c := by positivity
  obtain ⟨j, rfl⟩ | hx := h.multiple_or_lt hc e
  · by_contra hgt
    have hlt : (k : ℤ) < j := by
      by_contra hle
      have hle : (j : ℚ) ≤ k := by exact_mod_cast not_lt.1 hle
      exact hgt (mul_le_mul_of_nonneg_right hle hunit.le)
    have hnext : ((k : ℚ) + 1) * (10 ^ e * c) ≤ j * (10 ^ e * c) :=
      mul_le_mul_of_nonneg_right (by exact_mod_cast hlt) hunit.le
    rw [abs_of_pos (by linarith)] at hn
    obtain ⟨habs, -⟩ | ⟨habs, -⟩ := abs_cases (k * (10 ^ e * c) - u)
    · rw [habs] at hn
      linarith
    · rw [habs] at hn
      linarith
  · have hk : (10 : ℚ) ^ p ≤ k := by exact_mod_cast hk
    exact hx.trans (mul_le_mul_of_nonneg_right (by linarith) hunit.le)

end Decimals

/-! ## Rounding to digits -/

/-- The `p + 1` digits of a number `u / c` and the exponent of the first one; the number is
    multiplied by `10 ^ n` first. -/
def roundDigits (p n c u : ℕ) : ℕ × ℤ :=
  let x : ℤ := Nat.log 10 (u * 10 ^ n / c) - n
  let m := roundHalfEven (u * 10 ^ (p - x).toNat) (c * 10 ^ (x - p).toNat)
  if m = 10 ^ (p + 1) then (10 ^ p, x + 1) else (m, x)

/-- The decimal that `u` is rounded to: no decimal of so many digits is nearer, and any other one
    is away. -/
structure RoundedTo (p : ℕ) (c u : ℚ) (m : ℕ) (e : ℤ) : Prop where
  digits : 10 ^ p ≤ m ∧ m < 10 ^ (p + 1)
  close : 10 ^ p * |m * (10 ^ e * c) - u| ≤ u
  nearest : ∀ x, Decimal (p + 1) c x → |m * (10 ^ e * c) - u| ≤ |x - u|
  far : ∀ x, Decimal (p + 1) c x → x = m * (10 ^ e * c) ∨ u ≤ 10 ^ (p + 2) * |x - u|

section Rounding

variable {p n c u : ℕ}

theorem roundDigits_spec (hc : 0 < c) (h : c ≤ u * 10 ^ n) :
    RoundedTo p c u (roundDigits p n c u).1 ((roundDigits p n c u).2 - p) := by
  obtain ⟨hlow, hhigh⟩ := log_bounds hc h
  rw [roundDigits]
  generalize (Nat.log 10 (u * 10 ^ n / c) : ℤ) - n = x at hlow hhigh ⊢
  have hm (k : ℤ) := @roundHalfEven_scaled u c (x - p) k
  rw [neg_sub] at hm
  generalize roundHalfEven _ _ = m at hm ⊢
  have hc : (0 : ℚ) < c := Nat.cast_pos.2 hc
  have hunit : (0 : ℚ) < 10 ^ (x - p) * c := by positivity
  have hfirst : (10 : ℚ) ^ x * c = 10 ^ p * (10 ^ (x - p) * c) := by
    rw [← mul_assoc, ← zpow_natCast 10 p, ← zpow_add₀ (by norm_num), add_sub_cancel]
  have hlast : (10 : ℚ) ^ (x + 1) * c = 10 ^ (p + 1) * (10 ^ (x - p) * c) := by
    rw [zpow_add_one₀ (by norm_num), mul_right_comm, hfirst]
    ring
  rw [hfirst] at hlow
  rw [hlast] at hhigh
  have hnearest (y : ℚ) (hy : Decimal (p + 1) c y) := hy.nearest hc hlow hm
  have hfar (y : ℚ) (hy : Decimal (p + 1) c y) :
      y = m * (10 ^ (x - p) * c) ∨ (u : ℚ) ≤ 10 ^ (p + 2) * |y - u| := by
    obtain h | h := hy.eq_or_far hc hlow hm
    · exact .inl h
    · right
      calc (u : ℚ) ≤ 10 ^ (p + 1) * (10 ^ (x - p) * c) := hhigh.le
        _ ≤ 10 ^ (p + 1) * (10 * |y - u|) := by gcongr
        _ = 10 ^ (p + 2) * |y - u| := by ring
  have hclose : 10 ^ p * |m * (10 ^ (x - p) * c) - (u : ℚ)| ≤ u :=
    (mul_le_mul_of_nonneg_left (abs_sub_le_of_nearest hunit hm) (by positivity)).trans hlow
  have hge : 10 ^ p ≤ m := le_of_nearest hunit hm (by exact_mod_cast hlow)
  have hle : m ≤ 10 ^ (p + 1) := ge_of_nearest hunit hm (by exact_mod_cast hhigh.le)
  split
  · next heq =>
    -- the carry is the same number with the exponent that is next
    have hcarry : ((10 ^ p : ℕ) : ℚ) * (10 ^ (x + 1 - p) * c) = m * (10 ^ (x - p) * c) := by
      rw [heq, add_sub_right_comm, zpow_add_one₀ (by norm_num)]
      push_cast
      ring
    refine ⟨⟨le_rfl, Nat.pow_lt_pow_succ (by decide)⟩, ?_, fun y hy => ?_, fun y hy => ?_⟩
    · exact hcarry ▸ hclose
    · exact hcarry ▸ hnearest y hy
    · exact hcarry ▸ hfar y hy
  · next hne => exact ⟨⟨hge, lt_of_le_of_ne hle hne⟩, hclose, hnearest, hfar⟩

end Rounding

end Osodio.Lib
