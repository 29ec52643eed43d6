import Osodio.Json.Acceptance
import Mathlib.Data.Rat.Defs
import Mathlib.Algebra.Order.Field.Rat
import Mathlib.Tactic.Linarith
import Mathlib.Tactic.Ring
import Mathlib.Tactic.NormNum

/-!
# Numbers as doubles

The number that a text of JSON is, and the double nearest to it.  Magnitudes are counted in units
of `2 ^ -1074`, of which every finite double is a multiple.

## Main definitions

- `magnitudeOf` — the magnitudes of the doubles, in their order
- `Nearest` — the double that is nearest, of two the even one
- `Rounded` — the double of a text, if it has one

## Main results

- `Nearest.unique` — there is one nearest double
- `parseJson_iff_document` — the parser accepts the documents of JSON, but for three things
- `not_utf8_accepted` — the first of them
-/

namespace Osodio.Json

/-! ## Doubles -/

/-- The place of a double among those of its sign, zero first. -/
def Double.rank (d : Double) : ℕ := d.bits.toNat % 2 ^ 63

def Double.negative (d : Double) : Prop := 2 ^ 63 ≤ d.bits.toNat

/-- How many magnitudes are finite. -/
def finiteRanks : ℕ := 2047 * 2 ^ 52

/-- The magnitude at a rank: the exponent above, the fraction below. -/
def magnitudeOf (r : ℕ) : ℕ :=
  if r / 2 ^ 52 = 0 then r % 2 ^ 52 else (r % 2 ^ 52 + 2 ^ 52) * 2 ^ (r / 2 ^ 52 - 1)

/-- The finite magnitude that is nearest to `x`; where there are two, that of even rank. -/
structure Nearest (x : ℚ) (r : ℕ) : Prop where
  finite : r < finiteRanks
  nearest : ∀ r' < finiteRanks, |magnitudeOf r - x| ≤ |magnitudeOf r' - x|
  even : ∀ r' < finiteRanks, r' ≠ r → |magnitudeOf r' - x| = |magnitudeOf r - x| → r % 2 = 0

/-- It is rounded neither to an infinity nor from something to zero. -/
def Representable (x : ℚ) : Prop := x < 2 ^ 2098 - 2 ^ 2044 ∧ (x = 0 ∨ 1 / 2 < x)

/-! ## Numbers -/

/-- The power of ten behind a number. -/
def exponentOf : Bytes → ℤ
  | [] => 0
  | _ :: 0x2D :: ds => -natOf ds
  | _ :: 0x2B :: ds => natOf ds
  | _ :: ds => natOf ds

/-- A number without its sign, in units of `2 ^ -1074`. -/
def unitsOf (entera fraccion exponente : Bytes) : ℚ :=
  natOf (entera ++ fraccion.tail) * 10 ^ (exponentOf exponente - fraccion.tail.length) * 2 ^ 1074

/-- The double of a number: its sign, and the magnitude that is nearest. -/
def Rounded (t : Bytes) (d : Double) : Prop :=
  ∃ signo entera fraccion exponente, NumberParts signo entera fraccion exponente ∧
    t = signo ++ entera ++ fraccion ++ exponente ∧ (d.negative ↔ signo ≠ []) ∧
      Representable (unitsOf entera fraccion exponente) ∧
        Nearest (unitsOf entera fraccion exponente) d.rank

/-! ## There is one nearest double -/

section Nearest

variable {x : ℚ} {r r' : ℕ} {t : Bytes} {d d' : Double}

/-- One rank further, the magnitude is larger. -/
theorem magnitudeOf_lt_succ (r : ℕ) : magnitudeOf r < magnitudeOf (r + 1) := by
  have hdiv := Nat.div_add_mod r (2 ^ 52)
  have hmod := Nat.mod_lt r (show 0 < 2 ^ 52 by decide)
  by_cases hlast : r % 2 ^ 52 + 1 < 2 ^ 52
  · -- the fraction grows
    have hq : (r + 1) / 2 ^ 52 = r / 2 ^ 52 := by omega
    have hm : (r + 1) % 2 ^ 52 = r % 2 ^ 52 + 1 := by omega
    rw [magnitudeOf, magnitudeOf, hq, hm]
    split
    · omega
    · exact Nat.mul_lt_mul_of_pos_right (by omega) (by positivity)
  · -- the exponent grows
    have hq : (r + 1) / 2 ^ 52 = r / 2 ^ 52 + 1 := by omega
    have hm : (r + 1) % 2 ^ 52 = 0 := by omega
    have hr : r % 2 ^ 52 = 2 ^ 52 - 1 := by omega
    rw [magnitudeOf, magnitudeOf, hq, hm, hr, if_neg (Nat.succ_ne_zero _)]
    split
    · next hz =>
      rw [hz]
      decide
    · next hz =>
      obtain ⟨q, hq⟩ := Nat.exists_eq_succ_of_ne_zero hz
      have hdouble : (0 + 2 ^ 52) * 2 ^ (q + 1) = (0 + 2 ^ 52) * 2 * 2 ^ q := by
        rw [pow_succ 2 q, ← Nat.mul_assoc, Nat.mul_right_comm]
      rw [hq, Nat.add_sub_cancel, Nat.succ_sub_one, hdouble]
      exact Nat.mul_lt_mul_of_pos_right (by decide) (by positivity)

theorem magnitudeOf_strictMono : StrictMono magnitudeOf :=
  strictMono_nat_of_lt_succ magnitudeOf_lt_succ

/-- Where two ranks are as near, one between them is nearer. -/
theorem magnitudeOf_between (hlt : r + 1 < r')
    (hdist : |(magnitudeOf r' : ℚ) - x| = |magnitudeOf r - x|) :
    |(magnitudeOf (r + 1) : ℚ) - x| < |magnitudeOf r - x| := by
  have hlow : (magnitudeOf r : ℚ) < magnitudeOf (r + 1) := by
    exact_mod_cast magnitudeOf_lt_succ r
  have hhigh : (magnitudeOf (r + 1) : ℚ) < magnitudeOf r' := by
    exact_mod_cast magnitudeOf_strictMono hlt
  obtain hx | hx := le_or_gt x (magnitudeOf r)
  · rw [abs_of_nonneg (by linarith), abs_of_nonneg (by linarith)] at hdist
    linarith
  obtain hx' | hx' := le_or_gt (magnitudeOf r' : ℚ) x
  · rw [abs_of_nonpos (by linarith), abs_of_nonpos (by linarith)] at hdist
    linarith
  rw [abs_of_pos (by linarith), abs_of_neg (by linarith)] at hdist
  rw [abs_of_neg (by linarith : (magnitudeOf r : ℚ) - x < 0)]
  exact abs_lt.2 ⟨by linarith, by linarith⟩

/-- Of two ranks that are as near, the lower one is odd or the next one is nearer. -/
theorem Nearest.not_lt (h : Nearest x r) (h' : Nearest x r') : ¬r < r' := by
  intro hlt
  have hdist : |(magnitudeOf r' : ℚ) - x| = |magnitudeOf r - x| :=
    le_antisymm (h'.nearest r h.finite) (h.nearest r' h'.finite)
  have heven := h.even r' h'.finite (Nat.ne_of_gt hlt) hdist
  have heven' := h'.even r h.finite (Nat.ne_of_lt hlt) hdist.symm
  -- both are even, so there is one between them
  have hbetween := magnitudeOf_between (show r + 1 < r' by omega) hdist
  exact absurd (h.nearest (r + 1) (Nat.lt_of_le_of_lt hlt h'.finite)) (not_le.2 hbetween)

/-- There is a nearest magnitude. -/
theorem exists_nearest (x : ℚ) : ∃ r, Nearest x r := by
  have hne : (Finset.range finiteRanks).Nonempty := ⟨0, Finset.mem_range.2 (by decide)⟩
  obtain ⟨r, hr, hmin⟩ :=
    Finset.exists_min_image _ (fun r => |(magnitudeOf r : ℚ) - x|) hne
  have hr := Finset.mem_range.1 hr
  have hmin (r' : ℕ) (h : r' < finiteRanks) := hmin r' (Finset.mem_range.2 h)
  by_cases heven : ∀ r' < finiteRanks, r' ≠ r → |(magnitudeOf r' : ℚ) - x| = |magnitudeOf r - x| →
      r % 2 = 0
  · exact ⟨r, hr, hmin, heven⟩
  push Not at heven
  obtain ⟨r', hr', hne, hdist, hodd⟩ := heven
  refine ⟨r', hr', fun r'' h => hdist.trans_le (hmin r'' h), fun _ _ _ _ => ?_⟩
  -- if both were odd, there would be a nearer one between them
  by_contra hodd'
  obtain hlt | hlt := Nat.lt_or_gt_of_ne hne
  · have hbetween := magnitudeOf_between (show r' + 1 < r by omega) hdist.symm
    exact absurd (hmin (r' + 1) (by omega)) (not_le.2 (hdist ▸ hbetween))
  · have hbetween := magnitudeOf_between (show r + 1 < r' by omega) hdist
    exact absurd (hmin (r + 1) (by omega)) (not_le.2 hbetween)

/-- There is one nearest magnitude. -/
theorem Nearest.unique (h : Nearest x r) (h' : Nearest x r') : r = r' :=
  Nat.le_antisymm (Nat.not_lt.1 (h'.not_lt h)) (Nat.not_lt.1 (h.not_lt h'))

/-- A double is its sign and its rank. -/
theorem Double.ext_rank (hs : d.negative ↔ d'.negative) (hr : d.rank = d'.rank) : d = d' := by
  obtain ⟨b⟩ := d
  obtain ⟨b'⟩ := d'
  have hb := b.toNat_lt
  have hb' := b'.toNat_lt
  have hsign : 2 ^ 63 ≤ b.toNat ↔ 2 ^ 63 ≤ b'.toNat := hs
  have hrank : b.toNat % 2 ^ 63 = b'.toNat % 2 ^ 63 := hr
  congr 1
  apply UInt64.toNat_inj.1
  omega

theorem Rounded.unique (h : Rounded t d) (h' : Rounded t d') : d = d' := by
  obtain ⟨signo, entera, fraccion, exponente, hparts, rfl, hs, -, hn⟩ := h
  obtain ⟨signo', entera', fraccion', exponente', hparts', heq, hs', -, hn'⟩ := h'
  obtain ⟨rfl, rfl, rfl, rfl⟩ := hparts.inj hparts' heq
  exact Double.ext_rank (hs.trans hs'.symm) (hn.unique hn')

end Nearest

/-! ## The parser -/

/-- **The parser accepts the documents of JSON**, and gives what they denote: it takes the bytes
    of a string as they are, a surrogate that stands alone for no character, and a number that
    is no `double` for no number. -/
theorem parseJson_iff_document {C : Charconv}
    (hC : ∀ t, NumberText t → ∀ d, C.fromChars t = some d ↔ Rounded t d) (texto : Bytes)
    (v : Value) : parseJson C texto = some v ↔ Document Rounded kMaxProfundidad texto v :=
  parseJson_eq_some hC texto v

/-- A conversion that rounds. -/
noncomputable def roundingConv : Charconv where
  toChars _ _ := none
  fromChars t :=
    open Classical in if h : ∃ d, Rounded t d then some h.choose else none

theorem roundingConv_rounds (t : Bytes) (d : Double) :
    roundingConv.fromChars t = some d ↔ Rounded t d := by
  classical
  rw [roundingConv]
  dsimp only
  constructor
  · intro h
    split at h
    · next hex =>
      cases h
      exact hex.choose_spec
    · cases h
  · intro h
    have hex : ∃ d, Rounded t d := ⟨d, h⟩
    rw [dif_pos hex, hex.choose_spec.unique h]

theorem parts_exact : NumberParts [] (ascii "2") (ascii ".5") [] :=
  ⟨.inl rfl, .inr ⟨.single (by decide), by decide⟩,
    .inr ⟨ascii "5", .single (by decide), rfl⟩, .inl rfl⟩

/-- `2.5` is a double. -/
theorem rounded_exact : Rounded (ascii "2.5") ⟨0x4004000000000000⟩ := by
  have hrank : (⟨0x4004000000000000⟩ : Double).rank = 0x4004000000000000 := by decide
  have hmag : magnitudeOf 0x4004000000000000 = 5 * 2 ^ 50 * 2 ^ 1023 := by
    have hexp : 0x4004000000000000 / 2 ^ 52 - 1 = 1023 := by decide
    have hfrac : 0x4004000000000000 % 2 ^ 52 + 2 ^ 52 = 5 * 2 ^ 50 := by decide
    rw [magnitudeOf, if_neg (by decide), hexp, hfrac]
  have hunits : unitsOf (ascii "2") (ascii ".5") [] = (magnitudeOf 0x4004000000000000 : ℕ) := by
    have hnat : natOf (ascii "2" ++ (ascii ".5").tail) = 25 := by decide
    have hexp : exponentOf [] - ((ascii ".5").tail.length : ℤ) = -1 := by decide
    have hpow : (2 : ℚ) ^ 1074 = 2 ^ 51 * 2 ^ 1023 := by rw [← pow_add]
    rw [unitsOf, hnat, hexp, hmag, hpow, Nat.cast_mul, Nat.cast_pow _ 1023, Nat.cast_ofNat]
    generalize (2 : ℚ) ^ 1023 = p
    norm_num
    ring
  refine ⟨[], ascii "2", ascii ".5", [], parts_exact, by decide, ?_, ?_, ?_⟩
  · exact ⟨fun h => absurd h (Nat.not_le.2 (by decide)), fun h => absurd rfl h⟩
  · have hpow : (2 : ℚ) ^ 2098 - 2 ^ 2044 = (2 ^ 54 - 1) * 2 ^ 1021 * 2 ^ 1023 := by
      rw [mul_assoc, ← pow_add, sub_mul, ← pow_add, one_mul]
    have hone : (1 : ℚ) ≤ 2 ^ 1021 := one_le_pow₀ (by norm_num)
    have hpos : (1 : ℚ) ≤ 2 ^ 1023 := one_le_pow₀ (by norm_num)
    rw [hunits, hmag, Representable, hpow, Nat.cast_mul, Nat.cast_pow _ 1023, Nat.cast_ofNat]
    generalize (2 : ℚ) ^ 1021 = p at hone ⊢
    generalize (2 : ℚ) ^ 1023 = q at hpos ⊢
    push_cast
    have hle : q ≤ p * q := le_mul_of_one_le_left (by linarith only [hpos]) hone
    exact ⟨by linarith only [hle, hpos], .inr (by linarith only [hpos])⟩
  · rw [hunits, hrank]
    refine ⟨by decide, fun r' _ => ?_, fun r' _ _ _ => by decide⟩
    rw [sub_self, abs_zero]
    exact abs_nonneg _

theorem parseJson_iff_document_real :
    parseJson roundingConv (ascii "[ 2.5 ]") = some (.list [.float ⟨0x4004000000000000⟩]) := by
  refine (parseJson_iff_document (fun t _ d => roundingConv_rounds t d) _ _).2 ?_
  have hblank : Ws [0x20] := by
    rintro c (_ | ⟨_, ⟨⟩⟩)
    decide
  have hnumber : Denotes Rounded 199 (ascii "2.5") (.float ⟨0x4004000000000000⟩) :=
    Denotes.of_level (.number (.float parts_exact nofun rounded_exact))
  have hlist : Denotes Rounded kMaxProfundidad (ascii "[ 2.5 ]")
      (.list [.float ⟨0x4004000000000000⟩]) := Level.list (.one hblank hnumber hblank)
  exact Document.mk ws_nil hlist ws_nil

/-- A byte that is no character is accepted in a string. -/
theorem not_utf8_accepted : parseJson charconvOfBits [0x22, 0xFF, 0x22] = some (.str [0xFF]) ∧
    ¬ValidUtf8 [0x22, 0xFF, 0x22] := by
  refine ⟨rfl, fun h => ?_⟩
  obtain ⟨c, resto, -, hc⟩ := (h.tail (by decide)).cases
  exact largoUtf8_eq_zero.1 (by decide) ⟨c, resto, hc⟩

end Osodio.Json
