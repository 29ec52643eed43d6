import Osodio.Json.Doubles
import Osodio.Lib.Decimals
import Mathlib.Data.List.DropRight

/-!
# Doubles in a stream

A stream writes a `double` with six digits.  The text is a number of JSON, and it is read back as
the `double` exactly if the `double` is that of some number of six digits.

## Main definitions

- `seisCifras` — the six digits of a magnitude, and the exponent of the first one
- `general` — digits and exponent as a text
- `Double.stream` — `ss << d_`
- `Value.toString` — `Value::to_string`
- `OfSixDigits` — the double of a number of at most six digits

## Main results

- `stream_number` — the text of a finite double, and what it stands for
- `rounded_stream_iff` — which doubles are read back
-/

namespace Osodio.Json

open Osodio.Lib

/-! ## The text -/

instance : DecidablePred Double.negative :=
  fun d => inferInstanceAs (Decidable (2 ^ 63 ≤ d.bits.toNat))

/-- A magnitude in six digits, and the exponent of the first one. -/
def seisCifras (u : ℕ) : ℕ × ℤ := roundDigits 5 324 (2 ^ 1074) u

/-- The zeros at the end are left out. -/
def sinCeros (ds : Bytes) : Bytes := ds.rdropWhile fun c => c == 0x30

/-- A fraction, without the point if there is none. -/
def fraccionTexto (ds : Bytes) : Bytes := if sinCeros ds = [] then [] else 0x2E :: sinCeros ds

/-- An exponent, with two digits or more. -/
def exponenteTexto (x : ℤ) : Bytes :=
  let ds := digitos x.natAbs
  0x65 :: (if x < 0 then 0x2D else 0x2B) :: (if x.natAbs < 10 then 0x30 :: ds else ds)

/-- `%g`: the exponent is written if it is small or if there are not digits enough. -/
def general (m : ℕ) (x : ℤ) : Bytes :=
  let ds := digitos m
  if x < -4 ∨ 6 ≤ x then ds.take 1 ++ fraccionTexto (ds.drop 1) ++ exponenteTexto x
  else if x < 0 then [0x30] ++ fraccionTexto (List.replicate (-x - 1).toNat 0x30 ++ ds)
  else ds.take (x.toNat + 1) ++ fraccionTexto (ds.drop (x.toNat + 1))

/-- The sign of a double, as it is written. -/
def Double.signo (d : Double) : Bytes := if d.negative then [0x2D] else []

/-- The name of a double that is not finite. -/
def Double.nombre (d : Double) : Bytes := if d.rank = finiteRanks then ascii "inf" else ascii "nan"

/-- `ss << d_`. -/
def Double.stream (d : Double) : Bytes :=
  d.signo ++
    if d.isFinite then
      if magnitudeOf d.rank = 0 then [0x30]
      else general (seisCifras (magnitudeOf d.rank)).1 (seisCifras (magnitudeOf d.rank)).2
    else d.nombre

/-- `Value::to_string`. -/
def Value.toString (C : Charconv) : Value → Bytes
  | .null => ascii "null"
  | .bool b => if b then ascii "true" else ascii "false"
  | .int i => decimal i
  | .float d => d.stream
  | .str s => s
  | .list items => (Value.list items).toJsonText C
  | .dict entries => (Value.dict entries).toJsonText C

/-! ## Six digits -/

section SixDigits

variable {u m : ℕ} {x : ℤ} {y : ℚ}

theorem cast_two_pow (n : ℕ) : ((2 ^ n : ℕ) : ℚ) = 2 ^ n := by rw [Nat.cast_pow, Nat.cast_ofNat]

/-- What six digits and an exponent stand for. -/
def decimalOf (m : ℕ) (x : ℤ) : ℚ := m * (10 ^ (x - 5) * 2 ^ 1074)

theorem decimalOf_decimal (hm : m < 10 ^ 6) (x : ℤ) : Decimal 6 (2 ^ 1074) (decimalOf m x) :=
  ⟨m, hm, x - 5, by rw [decimalOf, mul_assoc]⟩

theorem seisCifras_spec (hu : u ≠ 0) :
    RoundedTo 5 (2 ^ 1074) u (seisCifras u).1 ((seisCifras u).2 - 5) := by
  have hone : 2 ^ 1074 ≤ u * 10 ^ 324 :=
    (show 2 ^ 1074 ≤ 1 * 10 ^ 324 by decide +kernel).trans
      (Nat.mul_le_mul_right _ (Nat.one_le_iff_ne_zero.2 hu))
  have hspec := @roundDigits_spec 5 324 (2 ^ 1074) u (Nat.two_pow_pos 1074) hone
  rwa [cast_two_pow] at hspec

end SixDigits

/-! ## What the text stands for -/

section Texts

variable {m k : ℕ} {x z : ℤ} {entera ds e : Bytes}

theorem natOf_digitos (n : ℕ) : natOf (digitos n) = n := ofDigits_digitos n

theorem natOf_append (a b : Bytes) : natOf (a ++ b) = natOf a * 10 ^ b.length + natOf b := by
  rw [natOf, natOf, natOf, List.reverse_append, List.map_append, Nat.ofDigits_append,
    List.length_map, List.length_reverse, Nat.add_comm, Nat.mul_comm]

theorem natOf_zeros (k : ℕ) : natOf (List.replicate k 0x30) = 0 := by
  rw [natOf, List.reverse_replicate, List.map_replicate]
  exact Nat.ofDigits_replicate_zero

theorem length_digitos (hm : 10 ^ k ≤ m ∧ m < 10 ^ (k + 1)) : (digitos m).length = k + 1 := by
  have hpos : m ≠ 0 := ((Nat.pow_pos (show 0 < 10 by decide)).trans_le hm.1).ne'
  have hle := (Nat.digits_length_le_iff (show 1 < 10 by decide) m).2 hm.2
  have hlt := (Nat.lt_digits_length_iff (show 1 < 10 by decide) m).2 hm.1
  rw [digitos, if_neg hpos, List.length_map, List.length_reverse]
  omega

/-- What was left out at the end is zeros. -/
theorem sinCeros_append (ds : Bytes) : ∃ k, ds = sinCeros ds ++ List.replicate k 0x30 := by
  refine ⟨(ds.rtakeWhile fun c => c == 0x30).length, ?_⟩
  conv_lhs => rw [← List.rdropWhile_append_rtakeWhile (p := fun c => c == 0x30) (l := ds)]
  congr 1
  refine List.eq_replicate_of_mem fun c hc => ?_
  have hzero : (c == 0x30) = true := List.mem_rtakeWhile_imp (p := fun c => c == 0x30) hc
  exact eq_of_beq hzero

theorem fraccionTexto_tail (ds : Bytes) : (fraccionTexto ds).tail = sinCeros ds := by
  rw [fraccionTexto]
  split
  · next h => rw [h, List.tail_nil]
  · rfl

theorem fraccionTexto_parts (h : ∀ d ∈ ds, digito d = true) :
    fraccionTexto ds = [] ∨ ∃ ds', Digitos ds' ∧ fraccionTexto ds = 0x2E :: ds' := by
  rw [fraccionTexto]
  split
  · exact .inl rfl
  · next hne =>
    refine .inr ⟨_, ⟨hne, fun d hd => h d ?_⟩, rfl⟩
    exact (List.rdropWhile_prefix _ _).subset hd

/-- The zeros at the end of a fraction do not count. -/
theorem unitsOf_fraccionTexto (entera ds e : Bytes) :
    unitsOf entera (fraccionTexto ds) e =
      natOf (entera ++ ds) * 10 ^ (exponentOf e - ds.length) * 2 ^ 1074 := by
  obtain ⟨k, hk⟩ := sinCeros_append ds
  rw [unitsOf, fraccionTexto_tail]
  generalize sinCeros ds = ds' at hk
  subst hk
  rw [← List.append_assoc, natOf_append (entera ++ ds'), natOf_zeros, List.length_append,
    List.length_replicate, Nat.add_zero, Nat.cast_mul, Nat.cast_pow, Nat.cast_ofNat,
    mul_assoc (natOf _ : ℚ) (10 ^ k), ← zpow_natCast 10 k, ← zpow_add₀ (by norm_num)]
  congr 3
  push_cast
  ring

theorem natOf_fraccionTexto_le (entera ds : Bytes) :
    natOf (entera ++ (fraccionTexto ds).tail) ≤ natOf (entera ++ ds) := by
  obtain ⟨k, hk⟩ := sinCeros_append ds
  rw [fraccionTexto_tail]
  generalize sinCeros ds = ds' at hk
  subst hk
  rw [← List.append_assoc, natOf_append (entera ++ ds')]
  exact (Nat.le_mul_of_pos_right _ (Nat.pow_pos (by decide))).trans (Nat.le_add_right ..)

theorem exponenteTexto_parts (x : ℤ) : ∃ e sgn ds, (e = 0x65 ∨ e = 0x45) ∧
    (sgn = [] ∨ sgn = [0x2B] ∨ sgn = [0x2D]) ∧ Digitos ds ∧ exponenteTexto x = e :: (sgn ++ ds) := by
  have hdig : Digitos (if x.natAbs < 10 then 0x30 :: digitos x.natAbs else digitos x.natAbs) := by
    have hspec := digitos_spec x.natAbs
    split
    · refine ⟨List.cons_ne_nil _ _, fun d hd => ?_⟩
      obtain rfl | hd := List.mem_cons.1 hd
      · decide
      · exact hspec.2 d hd
    · exact hspec
  rw [exponenteTexto]
  by_cases hx : x < 0
  · exact ⟨0x65, [0x2D], _, .inl rfl, .inr (.inr rfl), hdig, by rw [if_pos hx]; rfl⟩
  · exact ⟨0x65, [0x2B], _, .inl rfl, .inr (.inl rfl), hdig, by rw [if_neg hx]; rfl⟩

theorem exponentOf_exponenteTexto (x : ℤ) : exponentOf (exponenteTexto x) = x := by
  have hnat : natOf (if x.natAbs < 10 then 0x30 :: digitos x.natAbs else digitos x.natAbs) =
      x.natAbs := by
    split
    · rw [← List.singleton_append, natOf_append, natOf_digitos]
      exact (Nat.zero_mul _).symm ▸ Nat.zero_add _
    · exact natOf_digitos _
  rw [exponenteTexto]
  by_cases hx : x < 0
  · rw [if_pos hx, exponentOf, hnat]
    omega
  · rw [if_neg hx, exponentOf, hnat]
    omega

/-- The text is a number of at most six digits, without a sign. -/
def WritesNumber (t : Bytes) (y : ℚ) : Prop := ∃ entera fraccion exponente,
  NumberParts [] entera fraccion exponente ∧ t = entera ++ fraccion ++ exponente ∧
    unitsOf entera fraccion exponente = y ∧ natOf (entera ++ fraccion.tail) < 10 ^ 6

/-- The first digits of a number can stand before the point. -/
theorem digitos_take (hm : 10 ^ k ≤ m ∧ m < 10 ^ (k + 1)) (hk : 0 < k) (n : ℕ) :
    Digitos ((digitos m).take (n + 1)) ∧ ((digitos m).take (n + 1)).head? ≠ some 0x30 := by
  have hlen := length_digitos hm
  obtain h | ⟨hdig, hhead⟩ := digitos_entera m
  · rw [h, List.length_singleton] at hlen
    omega
  · refine ⟨⟨?_, fun d hd => hdig.2 d (List.mem_of_mem_take hd)⟩, ?_⟩
    · rw [Ne, List.take_eq_nil_iff, not_or]
      exact ⟨Nat.succ_ne_zero _, hdig.1⟩
    · rwa [List.head?_take, if_neg (Nat.succ_ne_zero _)]

/-- Six digits and an exponent are written as the number that they stand for. -/
theorem general_writes (hm : 10 ^ 5 ≤ m ∧ m < 10 ^ 6) (x : ℤ) :
    WritesNumber (general m x) (decimalOf m x) := by
  have hlen := length_digitos hm
  have hdrop (n : ℕ) : ∀ d ∈ (digitos m).drop n, digito d = true :=
    fun d hd => (digitos_spec m).2 d (List.mem_of_mem_drop hd)
  have hunits {entera ds e : Bytes} (hnat : natOf (entera ++ ds) = m)
      (hexp : exponentOf e - ds.length = x - 5) :
      unitsOf entera (fraccionTexto ds) e = decimalOf m x := by
    rw [unitsOf_fraccionTexto, hnat, hexp, decimalOf, mul_assoc]
  have hdigits {entera ds : Bytes} (hnat : natOf (entera ++ ds) = m) :
      natOf (entera ++ (fraccionTexto ds).tail) < 10 ^ 6 :=
    (natOf_fraccionTexto_le entera ds).trans_lt (hnat ▸ hm.2)
  have hsplit (n : ℕ) : natOf ((digitos m).take n ++ (digitos m).drop n) = m := by
    rw [List.take_append_drop, natOf_digitos]
  rw [general]
  split
  · -- with an exponent
    refine ⟨_, _, _, ⟨.inl rfl, .inr (digitos_take hm (by decide) 0),
      fraccionTexto_parts (hdrop 1), .inr (exponenteTexto_parts x)⟩, rfl, hunits (hsplit 1) ?_,
        hdigits (hsplit 1)⟩
    rw [exponentOf_exponenteTexto, List.length_drop, hlen]
    rfl
  · next hrange =>
    split
    · -- zeros stand before the digits
      next hneg =>
      have hnat : natOf ([0x30] ++ (List.replicate (-x - 1).toNat 0x30 ++ digitos m)) = m := by
        rw [natOf_append, natOf_append, natOf_zeros, natOf_digitos, Nat.zero_mul, Nat.zero_add]
        exact (Nat.zero_mul _).symm ▸ Nat.zero_add _
      refine ⟨_, _, [], ⟨.inl rfl, .inl rfl, fraccionTexto_parts fun d hd => ?_, .inl rfl⟩,
        (List.append_nil _).symm, hunits hnat ?_, hdigits hnat⟩
      · obtain hd | hd := List.mem_append.1 hd
        · rw [List.eq_of_mem_replicate hd]
          decide
        · exact (digitos_spec m).2 d hd
      · rw [List.length_append, List.length_replicate, hlen, exponentOf]
        omega
    · next hpos =>
      refine ⟨_, _, [], ⟨.inl rfl, .inr (digitos_take hm (by decide) _),
        fraccionTexto_parts (hdrop _), .inl rfl⟩, (List.append_nil _).symm, hunits (hsplit _) ?_,
          hdigits (hsplit _)⟩
      rw [List.length_drop, hlen, exponentOf]
      omega

end Texts

/-! ## Magnitudes -/

section Magnitudes

variable {r : ℕ} {y z : ℚ}

/-- The first magnitudes are the whole numbers. -/
theorem magnitudeOf_small (hr : r ≤ 2 ^ 53) : magnitudeOf r = r := by
  have hdiv := Nat.div_add_mod r (2 ^ 52)
  have hmod := Nat.mod_lt r (show 0 < 2 ^ 52 by decide)
  rw [magnitudeOf]
  split
  · omega
  · obtain hone | htwo : r / 2 ^ 52 = 1 ∨ r / 2 ^ 52 = 2 := by omega
    · rw [hone, Nat.sub_self, pow_zero, Nat.mul_one]
      omega
    · rw [htwo]
      omega

/-- From one magnitude to the next. -/
theorem magnitudeOf_succ (r : ℕ) :
    magnitudeOf (r + 1) = magnitudeOf r + 2 ^ (r / 2 ^ 52 - 1) := by
  have hdiv := Nat.div_add_mod r (2 ^ 52)
  have hmod := Nat.mod_lt r (show 0 < 2 ^ 52 by decide)
  by_cases hlast : r % 2 ^ 52 + 1 < 2 ^ 52
  · -- the fraction grows
    have hq : (r + 1) / 2 ^ 52 = r / 2 ^ 52 := by omega
    have hm : (r + 1) % 2 ^ 52 = r % 2 ^ 52 + 1 := by omega
    rw [magnitudeOf, magnitudeOf, hq, hm]
    split
    · next hz => rw [hz, Nat.zero_sub, pow_zero]
    · rw [Nat.add_right_comm, Nat.add_mul _ 1, Nat.one_mul]
  · -- the exponent grows
    have hq : (r + 1) / 2 ^ 52 = r / 2 ^ 52 + 1 := by omega
    have hm : (r + 1) % 2 ^ 52 = 0 := by omega
    have hr : r % 2 ^ 52 = 2 ^ 52 - 1 := by omega
    rw [magnitudeOf, magnitudeOf, hq, hm, hr, if_neg (Nat.succ_ne_zero _)]
    split
    · next hz =>
      rw [hz]
      decide
    · next hz =>
      obtain ⟨q, hq⟩ := Nat.exists_eq_succ_of_ne_zero hz
      rw [hq, Nat.add_sub_cancel, Nat.succ_sub_one, Nat.succ_eq_add_one, pow_succ 2 q]
      generalize 2 ^ q = g
      omega

/-- The step from one magnitude to the next is small beside it. -/
theorem gap_le (hr : 2 ^ 52 ≤ r) : 2 ^ 52 * 2 ^ (r / 2 ^ 52 - 1) ≤ magnitudeOf r := by
  have hq : r / 2 ^ 52 ≠ 0 := by omega
  rw [magnitudeOf, if_neg hq]
  exact Nat.mul_le_mul_right _ (Nat.le_add_left ..)

theorem magnitudeOf_finiteRanks : magnitudeOf finiteRanks = 2 ^ 52 * 2 ^ 2046 := by
  have hdiv : finiteRanks / 2 ^ 52 = 2047 := by decide
  have hmod : finiteRanks % 2 ^ 52 = 0 := by decide
  rw [magnitudeOf, hdiv, hmod, if_neg (by decide), Nat.zero_add]

/-- A number stands between the neighbours of the magnitude that is nearest. -/
theorem Nearest.between (h : Nearest y r) (hy : Representable y) :
    y < magnitudeOf (r + 1) ∧ (0 < r → (magnitudeOf (r - 1) : ℚ) < y) := by
  constructor
  · obtain hlt | hge := Nat.lt_or_ge (r + 1) finiteRanks
    · by_contra hle
      have hmono : (magnitudeOf r : ℚ) < magnitudeOf (r + 1) := by
        exact_mod_cast magnitudeOf_lt_succ r
      have hdist := h.nearest (r + 1) hlt
      rw [abs_of_nonpos (by linarith), abs_of_nonpos (by linarith)] at hdist
      linarith
    · have hlast : r + 1 = finiteRanks := Nat.le_antisymm h.finite hge
      have hpow : (2 : ℚ) ^ 2098 = 2 ^ 52 * 2 ^ 2046 := by rw [← pow_add]
      have hpos : (0 : ℚ) < 2 ^ 2044 := by positivity
      have hlt := hy.1
      rw [hlast, magnitudeOf_finiteRanks, Nat.cast_mul, cast_two_pow, cast_two_pow, ← hpow]
      exact hlt.trans (sub_lt_self _ hpos)
  · intro hpos
    by_contra hle
    have hmono : (magnitudeOf (r - 1) : ℚ) < magnitudeOf r := by
      exact_mod_cast magnitudeOf_strictMono (Nat.sub_lt hpos Nat.one_pos)
    have hdist := h.nearest (r - 1) (by have := h.finite; omega)
    rw [abs_of_nonneg (by linarith), abs_of_nonneg (by linarith)] at hdist
    linarith

/-- Among the large magnitudes, a number is near to that which is nearest. -/
theorem Nearest.close (h : Nearest y r) (hy : Representable y) (hr : 2 ^ 53 ≤ r) :
    2 ^ 52 * |y - magnitudeOf r| ≤ magnitudeOf r := by
  obtain ⟨hhigh, hlow⟩ := h.between hy
  have hlow := hlow (by omega)
  have hgap : (2 ^ 52 * (2 ^ (r / 2 ^ 52 - 1) : ℕ) : ℚ) ≤ magnitudeOf r := by
    exact_mod_cast gap_le (show 2 ^ 52 ≤ r by omega)
  have hstep : (magnitudeOf (r - 1) + (2 ^ ((r - 1) / 2 ^ 52 - 1) : ℕ) : ℚ) = magnitudeOf r := by
    have hsucc := magnitudeOf_succ (r - 1)
    rw [Nat.sub_add_cancel (by omega)] at hsucc
    exact_mod_cast hsucc.symm
  have hmono : ((2 ^ ((r - 1) / 2 ^ 52 - 1) : ℕ) : ℚ) ≤ (2 ^ (r / 2 ^ 52 - 1) : ℕ) :=
    Nat.cast_le.2 (Nat.pow_le_pow_right (by decide)
      (Nat.sub_le_sub_right (Nat.div_le_div_right (Nat.sub_le r 1)) 1))
  rw [magnitudeOf_succ, Nat.cast_add] at hhigh
  have habs : |y - magnitudeOf r| ≤ (2 ^ (r / 2 ^ 52 - 1) : ℕ) :=
    abs_le.2 ⟨by linarith, by linarith⟩
  linarith

/-- Among the small magnitudes, a number is nearest to one that is at most a half away. -/
theorem nearest_small_iff (hr : r < 2 ^ 53) (hy : 0 ≤ y) :
    Nearest y r ↔ |r - y| ≤ 1 / 2 ∧ (|r - y| = 1 / 2 → r % 2 = 0) := by
  have hmag := magnitudeOf_small hr.le
  have hfinite : r + 1 < finiteRanks := by
    have : 2 ^ 53 < finiteRanks := by decide
    omega
  constructor
  · intro h
    have hnext := magnitudeOf_small (show r + 1 ≤ 2 ^ 53 by omega)
    have hnear := h.nearest
    have heven := h.even
    rw [hmag] at hnear heven
    have hup := hnear (r + 1) hfinite
    have hup' := heven (r + 1) hfinite (Nat.succ_ne_self r)
    rw [hnext] at hup hup'
    push_cast at hup hup'
    obtain hle | hlt := le_or_gt y r
    · -- below, where there may be no magnitude
      rw [abs_of_nonneg (sub_nonneg.2 hle)]
      obtain rfl | hpos := Nat.eq_zero_or_pos r
      · rw [Nat.cast_zero] at hle ⊢
        exact ⟨by linarith, fun _ => rfl⟩
      · have hprev := magnitudeOf_small (show r - 1 ≤ 2 ^ 53 by omega)
        have hdown := hnear (r - 1) (by omega)
        have hdown' := heven (r - 1) (by omega) (by omega)
        rw [hprev, Nat.cast_sub hpos, Nat.cast_one, abs_of_nonneg (sub_nonneg.2 hle)] at hdown hdown'
        have hcases := abs_cases ((r : ℚ) - 1 - y)
        refine ⟨?_, fun h => hdown' ?_⟩
        · obtain ⟨heq, -⟩ | ⟨heq, -⟩ := hcases
          · linarith
          · linarith
        · rw [h, abs_of_neg (by linarith)]
          linarith
    · rw [abs_of_neg (sub_neg.2 hlt)] at hup hup' ⊢
      have hcases := abs_cases ((r : ℚ) + 1 - y)
      refine ⟨?_, fun h => hup' ?_⟩
      · obtain ⟨heq, -⟩ | ⟨heq, -⟩ := hcases
        · linarith
        · linarith
      · rw [h, abs_of_pos (by linarith)]
        linarith
  · rintro ⟨hhalf, heven⟩
    have haway (r' : ℕ) (hne : r' ≠ r) : 1 - |r - y| ≤ |magnitudeOf r' - y| := by
      have hint : (1 : ℚ) ≤ |(magnitudeOf r' : ℚ) - r| := by
        have hne : (magnitudeOf r' : ℤ) - r ≠ 0 := by
          intro h
          refine hne (magnitudeOf_strictMono.injective ?_)
          rw [hmag]
          omega
        exact_mod_cast Int.one_le_abs hne
      have htri := abs_sub_le (magnitudeOf r' : ℚ) y r
      rw [abs_sub_comm y] at htri
      linarith
    refine ⟨by omega, fun r' _ => ?_, fun r' _ hne heq => ?_⟩
    · rw [hmag]
      obtain rfl | hne := eq_or_ne r' r
      · rw [hmag]
      · exact le_trans (by linarith) (haway r' hne)
    · rw [hmag] at heq
      have := haway r' hne
      exact heven (le_antisymm hhalf (by linarith))

end Magnitudes

/-! ## What is read back -/

/-- The number that is written for a magnitude. -/
def redondeado (u : ℕ) : ℚ := if u = 0 then 0 else decimalOf (seisCifras u).1 (seisCifras u).2

/-- The double of a number of at most six digits. -/
def OfSixDigits (d : Double) : Prop := ∃ signo entera fraccion exponente,
  NumberParts signo entera fraccion exponente ∧ natOf (entera ++ fraccion.tail) < 10 ^ 6 ∧
    Rounded (signo ++ entera ++ fraccion ++ exponente) d

section Reading

variable {r : ℕ} {y : ℚ} {d : Double}

theorem isFinite_iff (d : Double) : d.isFinite = true ↔ d.rank < finiteRanks := by
  have hshift : ((d.bits >>> 52) &&& 0x7FF).toNat = d.bits.toNat / 2 ^ 52 % 2 ^ 11 := by
    rw [UInt64.toNat_and, UInt64.toNat_shiftRight]
    exact (Nat.and_two_pow_sub_one_eq_mod _ 11).trans (by rw [Nat.shiftRight_eq_div_pow]; rfl)
  have hmax : (0x7FF : UInt64).toNat = 2047 := rfl
  have hlt := d.bits.toNat_lt
  rw [Double.isFinite, bne_iff_ne, Ne, ← UInt64.toNat_inj, hshift, hmax, Double.rank, finiteRanks]
  omega

theorem magnitudeOf_eq_zero : magnitudeOf r = 0 ↔ r = 0 := by
  have hzero := magnitudeOf_small (Nat.zero_le _)
  exact ⟨fun h => magnitudeOf_strictMono.injective (h.trans hzero.symm), fun h => h ▸ hzero⟩

theorem redondeado_decimal (u : ℕ) : Decimal 6 (2 ^ 1074) (redondeado u) := by
  rw [redondeado]
  split
  · exact ⟨0, Nat.pow_pos (by decide), 0, by rw [Nat.cast_zero, zero_mul, zero_mul]⟩
  · next hu => exact decimalOf_decimal (seisCifras_spec hu).digits.2 _

/-- A finite double is written as a number, with the sign in front. -/
theorem stream_number (hd : d.isFinite = true) : ∃ signo entera fraccion exponente,
    NumberParts signo entera fraccion exponente ∧
      d.stream = signo ++ entera ++ fraccion ++ exponente ∧ (d.negative ↔ signo ≠ []) ∧
        unitsOf entera fraccion exponente = redondeado (magnitudeOf d.rank) ∧
          natOf (entera ++ fraccion.tail) < 10 ^ 6 := by
  have hnumber : WritesNumber (if magnitudeOf d.rank = 0 then [0x30]
      else general (seisCifras (magnitudeOf d.rank)).1 (seisCifras (magnitudeOf d.rank)).2)
        (redondeado (magnitudeOf d.rank)) := by
    rw [redondeado]
    split
    · have hzero : natOf [0x30] = 0 := rfl
      refine ⟨[0x30], [], [], ⟨.inl rfl, .inl rfl, .inl rfl, .inl rfl⟩, rfl, ?_, ?_⟩
      · rw [unitsOf, List.tail_nil, List.append_nil, hzero, Nat.cast_zero, zero_mul, zero_mul]
      · rw [List.tail_nil, List.append_nil, hzero]
        decide
    · next hu => exact general_writes (seisCifras_spec hu).digits _
  obtain ⟨entera, fraccion, exponente, hparts, htext, hunits, hdigits⟩ := hnumber
  refine ⟨d.signo, entera, fraccion, exponente,
    ⟨?_, hparts.entera, hparts.fraccion, hparts.exponente⟩, ?_, ?_, hunits, hdigits⟩
  · rw [Double.signo]
    split
    · exact .inr rfl
    · exact .inl rfl
  · rw [Double.stream, if_pos hd, htext, List.append_assoc, List.append_assoc, List.append_assoc]
  · rw [Double.signo]
    split
    · next h => exact ⟨fun _ => List.cons_ne_nil _ _, fun _ => h⟩
    · next h => exact ⟨fun hneg => absurd hneg h, fun hne => absurd rfl hne⟩

/-- The largest decimal of six digits in the range of the doubles. -/
theorem largest_lt : ((179769 : ℕ) : ℚ) * 10 ^ (303 : ℤ) < 2 ^ 1024 - 2 ^ 970 := by
  have h : 179769 * 10 ^ 303 + 2 ^ 970 < 2 ^ 1024 := by decide +kernel
  have hcast : ((179769 * 10 ^ 303 + 2 ^ 970 : ℕ) : ℚ) < (2 ^ 1024 : ℕ) := Nat.cast_lt.2 h
  rw [Nat.cast_add, Nat.cast_mul, Nat.cast_pow, cast_two_pow, cast_two_pow] at hcast
  exact lt_sub_iff_add_lt.2 hcast

/-- The range ends before the middle between it and the next one. -/
theorem lt_largest_succ : (2 : ℚ) * 2 ^ 1024 < (2 * (179769 : ℕ) + 1) * 10 ^ (303 : ℤ) := by
  have h : 2 * 2 ^ 1024 < (2 * 179769 + 1) * 10 ^ 303 := by decide +kernel
  have hcast : ((2 * 2 ^ 1024 : ℕ) : ℚ) < ((2 * 179769 + 1) * 10 ^ 303 : ℕ) := Nat.cast_lt.2 h
  rw [Nat.cast_mul, Nat.cast_mul, Nat.cast_pow 10, cast_two_pow, Nat.cast_add, Nat.cast_mul] at hcast
  exact hcast

/-- What is written for a magnitude is in the range of the doubles. -/
theorem representable_redondeado (hr : r < finiteRanks) :
    Representable (redondeado (magnitudeOf r)) := by
  have htop : (2 : ℚ) ^ 2098 - 2 ^ 2044 = (2 ^ 1024 - 2 ^ 970) * 2 ^ 1074 := by
    rw [sub_mul, ← pow_add, ← pow_add]
  have hc : (0 : ℚ) < 2 ^ 1074 := by positivity
  by_cases hu : magnitudeOf r = 0
  · rw [redondeado, if_pos hu]
    refine ⟨?_, .inl rfl⟩
    rw [htop]
    exact mul_pos (sub_pos.2 (pow_lt_pow_right₀ (by norm_num) (by decide))) hc
  have hspec := seisCifras_spec hu
  have hmag : (magnitudeOf r : ℚ) < 2 ^ 1024 * 2 ^ 1074 := by
    have hlast := magnitudeOf_strictMono hr
    have hpow : (2 : ℚ) ^ 1024 * 2 ^ 1074 = 2 ^ 52 * 2 ^ 2046 := by rw [← pow_add, ← pow_add]
    rw [magnitudeOf_finiteRanks] at hlast
    rw [hpow, ← cast_two_pow, ← cast_two_pow, ← Nat.cast_mul]
    exact Nat.cast_lt.2 hlast
  have hone : (1 : ℚ) ≤ magnitudeOf r := by exact_mod_cast Nat.one_le_iff_ne_zero.2 hu
  have hclose := hspec.close
  have hround : redondeado (magnitudeOf r) = (seisCifras (magnitudeOf r)).1 *
      (10 ^ ((seisCifras (magnitudeOf r)).2 - 5) * 2 ^ 1074) := if_neg hu
  have hnear := hspec.nearest (179769 * (10 ^ (303 : ℤ) * 2 ^ 1074))
    ⟨179769, by decide, 303, by rw [mul_assoc]; rfl⟩
  rw [← hround] at hclose hnear
  refine ⟨?_, .inr ?_⟩
  · -- the largest decimal of six digits that is a double is well below
    rw [htop]
    have hlow := largest_lt
    have hhigh := lt_largest_succ
    generalize hR : (2 : ℚ) ^ 1024 - 2 ^ 970 = R at hlow ⊢
    generalize (2 : ℚ) ^ 1024 = Q at hhigh hmag
    have hle : redondeado (magnitudeOf r) ≤ (179769 : ℕ) * (10 ^ (303 : ℤ) * 2 ^ 1074) := by
      refine (redondeado_decimal (magnitudeOf r)).le_of_nearest hc (by decide) ?_ hnear
      calc 2 * (magnitudeOf r : ℚ) < 2 * (Q * 2 ^ 1074) := by linarith
        _ = 2 * Q * 2 ^ 1074 := (mul_assoc ..).symm
        _ < (2 * (179769 : ℕ) + 1) * 10 ^ (303 : ℤ) * 2 ^ 1074 := mul_lt_mul_of_pos_right hhigh hc
        _ = (2 * (179769 : ℕ) + 1) * (10 ^ (303 : ℤ) * 2 ^ 1074) := mul_assoc ..
    calc redondeado (magnitudeOf r) ≤ (179769 : ℕ) * (10 ^ (303 : ℤ) * 2 ^ 1074) := hle
      _ = (179769 : ℕ) * 10 ^ (303 : ℤ) * 2 ^ 1074 := (mul_assoc ..).symm
      _ < R * 2 ^ 1074 := mul_lt_mul_of_pos_right hlow hc
  · have := neg_le_abs (redondeado (magnitudeOf r) - magnitudeOf r)
    linarith

/-- A magnitude that some decimal of six digits is nearest to is nearest to the one written. -/
theorem nearest_redondeado (hy : Decimal 6 (2 ^ 1074) y) (hrep : Representable y)
    (hn : Nearest y r) : Nearest (redondeado (magnitudeOf r)) r := by
  have hc : (0 : ℚ) < 2 ^ 1074 := by positivity
  by_cases hu : magnitudeOf r = 0
  · -- zero is written as zero
    have hr := magnitudeOf_eq_zero.1 hu
    subst hr
    rw [redondeado, if_pos hu]
    refine (nearest_small_iff (by decide) le_rfl).2 ?_
    norm_num
  have hspec := seisCifras_spec hu
  have hround : redondeado (magnitudeOf r) = (seisCifras (magnitudeOf r)).1 *
      (10 ^ ((seisCifras (magnitudeOf r)).2 - 5) * 2 ^ 1074) := if_neg hu
  obtain hr | hr := Nat.lt_or_ge r (2 ^ 53)
  · -- the one written is as near as the other one
    have hnear := hspec.nearest y hy
    rw [← hround, magnitudeOf_small hr.le, abs_sub_comm, abs_sub_comm y] at hnear
    obtain ⟨hhalf, heven⟩ := (nearest_small_iff hr (hy.nonneg hc.le)).1 hn
    rw [magnitudeOf_small hr.le]
    refine (nearest_small_iff hr ((redondeado_decimal r).nonneg hc.le)).2 ⟨hnear.trans hhalf, ?_⟩
    exact fun h => heven (le_antisymm hhalf (h ▸ hnear))
  · -- there is no other decimal of six digits so near
    obtain heq | hfar := hspec.far y hy
    · rwa [hround, ← heq]
    · have hclose := hn.close hrep hr
      have hpos : (0 : ℚ) < magnitudeOf r := by exact_mod_cast Nat.pos_of_ne_zero hu
      norm_num at hfar hclose
      linarith

/-- **A finite double is read back from its text** exactly if it is the double of a number of at
    most six digits. -/
theorem rounded_stream_iff (hd : d.isFinite = true) : Rounded d.stream d ↔ OfSixDigits d := by
  obtain ⟨signo, entera, fraccion, exponente, hparts, htext, hsign, hunits, hdigits⟩ :=
    stream_number hd
  constructor
  · intro h
    exact ⟨signo, entera, fraccion, exponente, hparts, hdigits, htext ▸ h⟩
  · rintro ⟨signo', entera', fraccion', exponente', hparts', hdigits', h⟩
    obtain ⟨_, _, _, _, hparts'', heq, -, hrep, hn⟩ := h
    obtain ⟨rfl, rfl, rfl, rfl⟩ := hparts'.inj hparts'' heq
    refine ⟨signo, entera, fraccion, exponente, hparts, htext, hsign, ?_, ?_⟩
    · rw [hunits]
      exact representable_redondeado ((isFinite_iff d).1 hd)
    · rw [hunits]
      exact nearest_redondeado ⟨_, hdigits', _, rfl⟩ hrep hn

example : (Double.stream ⟨0x419D6F3454000000⟩) = ascii "1.23457e+08" := by decide +kernel

end Reading

end Osodio.Json
