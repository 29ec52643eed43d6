import Osodio.Auth.Crypto
import Osodio.Json.RoundTrip
import Osodio.Lib.Cuts

/-!
# Tokens

A token is a header, a payload and a signature, each in base 64.  What a token without a
valid signature says is not looked at.

## Main definitions

- `Value.asFloat`, `toLongLong` — the time a token expires, as it is compared
- `verifyJwt` — the checks
- `Valid` — the tokens that are to be accepted
- `Regular` — the tokens that the checks tell from others

## Main results

- `accepted_iff_valid` — the checks accept what is valid, for the regular tokens alone
- `mistyped_exp_accepted` — a token that never expires
-/

namespace Osodio.Auth

open Json (Bytes ascii Value Double Charconv parseJson)
open Lib (cut)

/-! ## Numbers as times -/

/-- The magnitude of a finite double, in units of `2 ^ -1074`. -/
def magnitude (d : Double) : ℕ :=
  let e := (d.bits >>> 52 &&& 0x7FF).toNat
  let m := (d.bits &&& 0xFFFFFFFFFFFFF).toNat
  if e = 0 then m else (m + 2 ^ 52) * 2 ^ (e - 1)

/-- A finite double, in units of `2 ^ -1074`. -/
def units (d : Double) : ℤ := if d.bits >>> 63 = 0 then magnitude d else -magnitude d

/-- A number rounded to 53 bits, a half to the even neighbour. -/
def roundNat (n : ℕ) : ℕ :=
  let unit := 2 ^ (n.log2 - 52)
  let q := n / unit
  let r := n % unit
  if unit < 2 * r ∨ 2 * r = unit ∧ q % 2 = 1 then (q + 1) * unit else q * unit

/-- An integer that becomes a `double`. -/
def roundInt (n : ℤ) : ℤ := if n < 0 then -roundNat n.natAbs else roundNat n.natAbs

/-- `is_num`. -/
def isNum : Value → Bool
  | .int _ | .float _ => true
  | _ => false

/-- `as_float` of a number, in units of `2 ^ -1074`; nothing if it is not finite. -/
def asFloat : Value → Option ℤ
  | .int n => some (roundInt n.toInt * 2 ^ 1074)
  | .float d => if d.isFinite then some (units d) else none
  | _ => some 0

/-- `static_cast<long long>`, which is not defined for what does not fit. -/
def toLongLong (d : ℤ) : Option ℤ :=
  let n := d.tdiv (2 ^ 1074)
  if -2 ^ 63 ≤ n ∧ n < 2 ^ 63 then some n else none

/-- The number fits: its truncation is a `long long`. -/
def Fits : Value → Prop
  | .int n => n.toInt < 2 ^ 63 - 512
  | .float d => d.isFinite = true ∧ (-2 ^ 63 - 1) * 2 ^ 1074 < units d ∧ units d < 2 ^ 63 * 2 ^ 1074
  | _ => True

/-- The number is one that is not before `now`. -/
def NotBefore (now : ℤ) : Value → Prop
  | .int n => now ≤ n.toInt
  | .float d => d.isFinite = true ∧ now * 2 ^ 1074 ≤ units d
  | _ => False

section Numbers

variable {n : ℕ} {now d k : ℤ}

/-- What is less than `2 ^ 53` is not rounded. -/
theorem roundNat_of_lt (h : n < 2 ^ 53) : roundNat n = n := by
  have hlog : n.log2 - 52 = 0 := by
    rcases Nat.eq_zero_or_pos n with rfl | hpos
    · rfl
    · have := (Nat.log2_lt (Nat.ne_of_gt hpos)).2 h
      omega
  rw [roundNat, hlog]
  simp [Nat.mod_one]

/-- What is not, stays so. -/
theorem pow_le_roundNat (h : 2 ^ 53 ≤ n) : 2 ^ 53 ≤ roundNat n := by
  have hn : n ≠ 0 := by omega
  have hlog : 53 ≤ n.log2 := (Nat.le_log2 hn).2 h
  obtain ⟨e, he⟩ := Nat.exists_eq_add_of_le hlog
  have hunit : n.log2 - 52 = e + 1 := by omega
  have hq : 2 ^ 52 ≤ n / 2 ^ (e + 1) := by
    rw [Nat.le_div_iff_mul_le (by positivity), ← Nat.pow_add]
    have hself := Nat.log2_self_le hn
    rwa [show 52 + (e + 1) = n.log2 by omega]
  have hprod : 2 ^ 53 ≤ n / 2 ^ (e + 1) * 2 ^ (e + 1) :=
    calc 2 ^ 53 = 2 ^ 52 * 2 ^ 1 := by norm_num
      _ ≤ n / 2 ^ (e + 1) * 2 ^ (e + 1) := Nat.mul_le_mul hq (Nat.pow_le_pow_right (by decide) (by omega))
  unfold roundNat
  rw [hunit]
  dsimp only
  split
  · rw [Nat.add_mul]
    omega
  · exact hprod

/-- A number is rounded up by one unit of its last place at most. -/
theorem roundNat_le (n : ℕ) : roundNat n ≤ n + 2 ^ (n.log2 - 52) := by
  have hq := Nat.div_mul_le_self n (2 ^ (n.log2 - 52))
  unfold roundNat
  dsimp only
  split
  · rw [Nat.add_mul, Nat.one_mul]
    exact Nat.add_le_add_right hq _
  · exact Nat.le_add_right_of_le hq

theorem roundNat_low (h : n < 2 ^ 62) : roundNat n ≤ n + 2 ^ 10 := by
  apply (roundNat_le n).trans
  apply Nat.add_le_add_left
  apply Nat.pow_le_pow_right (by decide)
  rcases Nat.eq_zero_or_pos n with rfl | hpos
  · decide
  · have := (Nat.log2_lt (Nat.ne_of_gt hpos)).2 h
    omega

theorem roundNat_high (hlow : 2 ^ 62 ≤ n) (h : n < 2 ^ 63) :
    roundNat n = if 1024 < 2 * (n % 1024) ∨ 2 * (n % 1024) = 1024 ∧ n / 1024 % 2 = 1
      then (n / 1024 + 1) * 1024 else n / 1024 * 1024 := by
  have hlog : n.log2 - 52 = 10 := by
    have hge := (Nat.le_log2 (by omega)).2 hlow
    have hlt := (Nat.log2_lt (by omega)).2 h
    omega
  rw [roundNat, hlog]
  rfl

/-- The largest numbers of 63 bits are rounded to one of 64. -/
theorem roundNat_lt_iff (h : n < 2 ^ 63) : roundNat n < 2 ^ 63 ↔ n < 2 ^ 63 - 512 := by
  rcases lt_or_ge n (2 ^ 62) with hlow | hhigh
  · have hle := roundNat_low hlow
    omega
  · rw [roundNat_high hhigh h]
    split
    · omega
    · omega

theorem roundNat_le_pow (h : n ≤ 2 ^ 63) : roundNat n ≤ 2 ^ 63 := by
  rcases Nat.lt_or_eq_of_le h with h | rfl
  · rcases lt_or_ge n (2 ^ 62) with hlow | hhigh
    · have hle := roundNat_low hlow
      omega
    · rw [roundNat_high hhigh h]
      split
      · omega
      · omega
  · decide +kernel

/-- A time is not passed by rounding. -/
theorem le_roundInt_iff (hpos : 0 < now) (hle : now ≤ 2 ^ 53) (d : ℤ) : now ≤ roundInt d ↔ now ≤ d := by
  unfold roundInt
  split
  · omega
  · rcases lt_or_ge d.natAbs (2 ^ 53) with h | h
    · rw [roundNat_of_lt h]
      omega
    · have := pow_le_roundNat h
      omega

/-- Nor by truncation. -/
theorem le_tdiv_iff (hpos : 0 < now) (hk : 0 < k) : now ≤ d.tdiv k ↔ now * k ≤ d := by
  rcases le_or_gt 0 d with h | h
  · rw [Int.tdiv_eq_ediv_of_nonneg h, Int.le_ediv_iff_mul_le hk]
  · have hd : 0 ≤ (-d).tdiv k := by
      rw [Int.tdiv_eq_ediv_of_nonneg (by omega)]
      exact Int.ediv_nonneg (by omega) hk.le
    rw [Int.neg_tdiv] at hd
    have hmul : 0 < now * k := Int.mul_pos hpos hk
    omega

/-- A truncation is a `long long` or not. -/
theorem toLongLong_isSome : (toLongLong d).isSome ↔
    (-2 ^ 63 - 1) * 2 ^ 1074 < d ∧ d < 2 ^ 63 * 2 ^ 1074 := by
  have hk : (0 : ℤ) < 2 ^ 1074 := by positivity
  have hlow := @le_tdiv_iff (2 ^ 63 + 1) (-d) _ (by norm_num) hk
  have hhigh := @le_tdiv_iff (2 ^ 63) d _ (by norm_num) hk
  rw [Int.neg_tdiv] at hlow
  unfold toLongLong
  generalize (2 : ℤ) ^ 1074 = k at *
  dsimp only
  split
  · rename_i h
    simp only [Option.isSome_some, true_iff]
    constructor
    · by_contra hle
      have := hlow.2 (by linarith)
      omega
    · by_contra hle
      have := hhigh.2 (by linarith)
      omega
  · rename_i h
    simp only [Option.isSome_none, Bool.false_eq_true, false_iff, not_and]
    intro h1 h2
    apply h
    constructor
    · by_contra hlt
      have := hlow.1 (by omega)
      linarith
    · by_contra hlt
      have := hhigh.1 (by omega)
      linarith

/-- A number is compared as a time if it fits, and as the number it is. -/
theorem bind_toLongLong {v : Value} (hv : isNum v = true) :
    ((asFloat v).bind toLongLong).isSome ↔ Fits v := by
  cases v with
  | int n =>
    have hn := n.toInt_lt
    have hn' := n.le_toInt
    show (toLongLong (roundInt n.toInt * 2 ^ 1074)).isSome ↔ n.toInt < 2 ^ 63 - 512
    have hk : (0 : ℤ) < 2 ^ 1074 := by positivity
    rw [toLongLong_isSome, mul_lt_mul_iff_left₀ hk, mul_lt_mul_iff_left₀ hk, roundInt]
    have hround := @roundNat_le_pow n.toInt.natAbs (by omega)
    clear hk
    split
    · omega
    · have hlt := @roundNat_lt_iff n.toInt.natAbs (by omega)
      omega
  | float d =>
    show ((if d.isFinite then some (units d) else none).bind toLongLong).isSome ↔ _
    by_cases hd : d.isFinite
    · rw [if_pos hd, Option.bind_some, toLongLong_isSome, Fits]
      exact ⟨fun h => ⟨hd, h⟩, And.right⟩
    · rw [if_neg hd, Fits]
      exact iff_of_false Bool.false_ne_true fun h => hd h.1
  | null => cases hv
  | bool b => cases hv
  | str t => cases hv
  | list items => cases hv
  | dict entries => cases hv

theorem le_of_toLongLong {v : Value} {t : ℤ} (hpos : 0 < now) (hle : now ≤ 2 ^ 53)
    (hv : isNum v = true) (ht : (asFloat v).bind toLongLong = some t) : now ≤ t ↔ NotBefore now v := by
  have hk : (0 : ℤ) < 2 ^ 1074 := by positivity
  obtain ⟨u, hu, ht⟩ := Option.bind_eq_some_iff.1 ht
  have htdiv : u.tdiv (2 ^ 1074) = t := by
    unfold toLongLong at ht
    dsimp only at ht
    split at ht
    · exact Option.some.inj ht
    · cases ht
  rw [← htdiv, le_tdiv_iff hpos hk]
  cases v with
  | int n =>
    cases hu
    rw [mul_le_mul_iff_left₀ hk, le_roundInt_iff hpos hle, NotBefore]
  | float d =>
    rw [asFloat] at hu
    split at hu
    · rename_i hd
      cases hu
      exact ⟨fun h => ⟨hd, h⟩, And.right⟩
    · cases hu
  | null => cases hv
  | bool b => cases hv
  | str t => cases hv
  | list items => cases hv
  | dict entries => cases hv

end Numbers

/-! ## The checks -/

/-- The entries of an object. -/
abbrev Dict := List (Bytes × Value)

/-- `std::time`. -/
structure Clock where
  now : ℤ
  pos : 0 < now
  le_pow : now ≤ 2 ^ 53

/-- What `verify_jwt` comes to.  Behind a conversion that is not defined, it is anything. -/
inductive Verdict where
  | rejected
  | accepted (claims : Value)
  | undefined

def dot : UInt8 := 0x2E

def asDict : Value → Option Dict
  | .dict entries => some entries
  | _ => none

/-- The text is that of an object. -/
def objectOf (C : Charconv) (text : Bytes) : Option Dict := (parseJson C text).bind asDict

def algIsHs256 (header : Dict) : Bool :=
  match header.lookup (ascii "alg") with
  | some (.str alg) => alg = ascii "HS256"
  | _ => false

/-- The payload of a token with a signature, as far as the signature, the header and the
    form of the payload are concerned. -/
def signedPayload (C : Charconv) (token secret : Bytes) : Option Dict := do
  let (first, rest) ← cut dot token
  let (second, givenSig) ← cut dot rest
  let signingInput := first ++ dot :: second
  let expected := base64urlEncode (hmacSha256 secret signingInput)
  guard (constantTimeEqual givenSig expected)
  let headerText ← base64urlDecode first
  let payloadText ← base64urlDecode second
  let header ← objectOf C headerText
  guard (algIsHs256 header)
  objectOf C payloadText

/-- The token is before its `exp`; nothing if that is no time. -/
def expPasses (payload : Dict) (now : ℤ) : Option Bool :=
  match payload.lookup (ascii "exp") with
  | some exp => if isNum exp then ((asFloat exp).bind toLongLong).map (now ≤ ·) else some true
  | none => some true

def issPasses (payload : Dict) (issuer : Bytes) : Bool :=
  issuer.isEmpty || match payload.lookup (ascii "iss") with
    | some (.str iss) => iss = issuer
    | some _ => false
    | none => true

/-- `verify_jwt`. -/
def verifyJwt (C : Charconv) (clock : Clock) (token secret issuer : Bytes) : Verdict :=
  match signedPayload C token secret with
  | none => .rejected
  | some payload =>
    match expPasses payload clock.now with
    | none => .undefined
    | some false => .rejected
    | some true => if issPasses payload issuer then .accepted (.dict payload) else .rejected

/-! ## What is to be accepted -/

/-- A text of base 64, with its padding or without. -/
def Base64url (text : Bytes) : Prop := ∃ digits padding, text = digits ++ padding ∧
  (∀ c ∈ digits, c ∈ kAlphabet) ∧ digits.length % 4 ≠ 1 ∧
  (padding = [] ∨ padding = List.replicate (4 - digits.length % 4) 0x3D ∧ digits.length % 4 ≠ 0)

/-- The part is the text of an object. -/
def IsObject (C : Charconv) (part : Bytes) (entries : Dict) : Prop :=
  ∃ text, base64urlDecode part = some text ∧ parseJson C text = some (.dict entries)

/-- A token of three parts with its signature, and an object in each of the other two. -/
structure Signed (C : Charconv) (secret token first second : Bytes) (payload : Dict) : Prop where
  token_eq : token = first ++ dot :: (second ++ dot ::
    base64urlEncode (hmacSha256 secret (first ++ dot :: second)))
  first_part : dot ∉ first
  second_part : dot ∉ second
  header : ∃ header, IsObject C first header ∧ header.lookup (ascii "alg") = some (.str (ascii "HS256"))
  payload : IsObject C second payload

/-- The token is to be accepted, with these claims. -/
def Valid (C : Charconv) (clock : Clock) (token secret issuer : Bytes) (claims : Value) : Prop :=
  ∃ first second payload, Signed C secret token first second payload ∧ claims = .dict payload ∧
    Base64url first ∧ Base64url second ∧
    (∀ exp, payload.lookup (ascii "exp") = some exp → NotBefore clock.now exp) ∧
    (issuer ≠ [] → payload.lookup (ascii "iss") = some (.str issuer))

/-- `exp` has not passed, where it is a number, and `iss` is the issuer, where there is one. -/
def Passing (now : ℤ) (issuer : Bytes) (payload : Dict) : Prop :=
  (∀ exp, payload.lookup (ascii "exp") = some exp → isNum exp = true → NotBefore now exp) ∧
  (issuer ≠ [] → ∀ iss, payload.lookup (ascii "iss") = some iss → iss = .str issuer)

/-- `exp` is a number, if there is one, and there is an `iss` for the issuer. -/
def Typed (issuer : Bytes) (payload : Dict) : Prop :=
  (∀ exp, payload.lookup (ascii "exp") = some exp → isNum exp = true) ∧
  (issuer ≠ [] → payload.lookup (ascii "iss") ≠ none)

/-- A signed token has an `exp` that fits if it is a number.  If it passes, it is made of
    texts of base 64, and has what was looked for. -/
def Regular (C : Charconv) (clock : Clock) (token secret issuer : Bytes) : Prop :=
  ∀ first second payload, Signed C secret token first second payload →
    (∀ exp, payload.lookup (ascii "exp") = some exp → isNum exp = true → Fits exp) ∧
    (Passing clock.now issuer payload → Base64url first ∧ Base64url second ∧ Typed issuer payload)

section Checks

variable {C : Charconv} {clock : Clock} {token secret issuer first second : Bytes} {payload : Dict}

theorem dot_not_mem_encode (raw : Bytes) : dot ∉ base64urlEncode raw := by
  intro h
  have hmem := alphabet_of_encode h
  revert hmem
  decide

theorem objectOf_eq_some {text : Bytes} {entries : Dict} :
    objectOf C text = some entries ↔ parseJson C text = some (.dict entries) := by
  rw [objectOf, Option.bind_eq_some_iff]
  constructor
  · rintro ⟨v, hv, hd⟩
    cases v with
    | dict entries' =>
      cases hd
      exact hv
    | null => cases hd
    | bool b => cases hd
    | int n => cases hd
    | float d => cases hd
    | str t => cases hd
    | list items => cases hd
  · exact fun h => ⟨_, h, rfl⟩

theorem algIsHs256_iff {header : Dict} :
    algIsHs256 header = true ↔ header.lookup (ascii "alg") = some (.str (ascii "HS256")) := by
  unfold algIsHs256
  split
  · rename_i alg h
    rw [h, decide_eq_true_iff, Option.some.injEq, Value.str.injEq]
  · rename_i h
    exact ⟨fun hf => absurd hf Bool.false_ne_true, fun hs => absurd hs (h _)⟩

/-- The checks up to the payload. -/
theorem signedPayload_eq_some : signedPayload C token secret = some payload ↔
    ∃ first second, Signed C secret token first second payload := by
  simp only [signedPayload, Option.bind_eq_bind, Option.bind_eq_some_iff, Option.guard_eq_some',
    Prod.exists, exists_const, Lib.cut_eq_some, constantTimeEqual_iff, algIsHs256_iff,
    objectOf_eq_some]
  constructor
  · rintro ⟨first, rest, ⟨rfl, hfirst⟩, second, sig, ⟨rfl, hsecond⟩, rfl, headerText, hheader,
      payloadText, hpayload, header, hparse, halg, hparse'⟩
    exact ⟨first, second, rfl, hfirst, hsecond, ⟨header, ⟨headerText, hheader, hparse⟩, halg⟩,
      payloadText, hpayload, hparse'⟩
  · rintro ⟨first, second, rfl, hfirst, hsecond, ⟨header, ⟨headerText, hheader, hparse⟩, halg⟩,
      payloadText, hpayload, hparse'⟩
    exact ⟨first, _, ⟨rfl, hfirst⟩, second, _, ⟨rfl, hsecond⟩, rfl, headerText, hheader,
      payloadText, hpayload, header, hparse, halg, hparse'⟩

/-- A token is cut in one way. -/
theorem Signed.unique {first' second' : Bytes} {payload' : Dict}
    (h : Signed C secret token first second payload)
    (h' : Signed C secret token first' second' payload') :
    first' = first ∧ second' = second ∧ payload' = payload := by
  have hcut := Lib.cut_eq_some.2 ⟨h.token_eq, h.first_part⟩
  rw [Lib.cut_eq_some.2 ⟨h'.token_eq, h'.first_part⟩, Option.some.injEq, Prod.mk.injEq] at hcut
  obtain ⟨rfl, hrest⟩ := hcut
  have hcut := Lib.cut_eq_some.2 ⟨hrest, h.second_part⟩
  rw [Lib.cut_append h'.second_part, Option.some.injEq, Prod.mk.injEq] at hcut
  obtain ⟨rfl, -⟩ := hcut
  obtain ⟨text, hdec, hparse⟩ := h.payload
  obtain ⟨text', hdec', hparse'⟩ := h'.payload
  rw [hdec] at hdec'
  cases hdec'
  rw [hparse] at hparse'
  cases hparse'
  exact ⟨rfl, rfl, rfl⟩

/-- Where `exp` does not fit, the check comes to nothing. -/
theorem expPasses_eq_none (clock : Clock) : expPasses payload clock.now = none ↔
    ∃ exp, payload.lookup (ascii "exp") = some exp ∧ isNum exp = true ∧ ¬Fits exp := by
  unfold expPasses
  cases hexp : payload.lookup (ascii "exp") with
  | none =>
    constructor
    · intro h
      cases h
    · rintro ⟨exp, h, -⟩
      cases h
  | some exp =>
    dsimp only
    by_cases hnum : isNum exp = true
    · rw [if_pos hnum, Option.map_eq_none_iff, ← Option.not_isSome_iff_eq_none,
        bind_toLongLong hnum]
      constructor
      · exact fun h => ⟨exp, rfl, hnum, h⟩
      · rintro ⟨_, h, -, hfits⟩
        cases h
        exact hfits
    · rw [if_neg hnum]
      constructor
      · intro h
        cases h
      · rintro ⟨_, h, hnum', -⟩
        cases h
        exact absurd hnum' hnum

/-- Otherwise it is that of the time. -/
theorem expPasses_eq_true (clock : Clock) : expPasses payload clock.now = some true ↔
    ∀ exp, payload.lookup (ascii "exp") = some exp → isNum exp = true →
      Fits exp ∧ NotBefore clock.now exp := by
  unfold expPasses
  cases hexp : payload.lookup (ascii "exp") with
  | none =>
    refine iff_of_true rfl ?_
    intro exp h
    cases h
  | some exp =>
    dsimp only
    by_cases hnum : isNum exp = true
    · rw [if_pos hnum, Option.map_eq_some_iff]
      constructor
      · rintro ⟨t, ht, hle⟩ _ h -
        cases h
        refine ⟨(bind_toLongLong hnum).1 (Option.isSome_of_eq_some ht), ?_⟩
        exact (le_of_toLongLong clock.pos clock.le_pow hnum ht).1 (of_decide_eq_true hle)
      · intro h
        obtain ⟨hfits, hnot⟩ := h exp rfl hnum
        obtain ⟨t, ht⟩ := Option.isSome_iff_exists.1 ((bind_toLongLong hnum).2 hfits)
        exact ⟨t, ht, decide_eq_true ((le_of_toLongLong clock.pos clock.le_pow hnum ht).2 hnot)⟩
    · rw [if_neg hnum]
      refine iff_of_true rfl ?_
      rintro _ h hnum'
      cases h
      exact absurd hnum' hnum

theorem issPasses_iff : issPasses payload issuer = true ↔
    (issuer ≠ [] → ∀ iss, payload.lookup (ascii "iss") = some iss → iss = .str issuer) := by
  rw [issPasses, Bool.or_eq_true, List.isEmpty_iff, or_iff_not_imp_left]
  apply imp_congr_right
  intro _
  split
  · rename_i iss h
    rw [h, decide_eq_true_iff]
    constructor
    · rintro rfl _ h'
      exact (Option.some.inj h').symm
    · exact fun h' => Value.str.inj (h' _ rfl)
  · rename_i iss hstr h
    refine iff_of_false Bool.false_ne_true ?_
    intro h'
    exact hstr issuer (h' iss h)
  · rename_i h
    refine iff_of_true rfl ?_
    intro iss h'
    rw [h] at h'
    cases h'

/-- The checks of a token with a signature. -/
theorem verifyJwt_of_signed (h : Signed C secret token first second payload) :
    verifyJwt C clock token secret issuer =
      match expPasses payload clock.now with
      | none => .undefined
      | some false => .rejected
      | some true => if issPasses payload issuer then .accepted (.dict payload) else .rejected := by
  rw [verifyJwt, signedPayload_eq_some.2 ⟨first, second, h⟩]

theorem verifyJwt_of_unsigned (h : ∀ first second payload, ¬Signed C secret token first second payload) :
    verifyJwt C clock token secret issuer = .rejected := by
  have hnone : signedPayload C token secret = none := by
    apply Option.eq_none_iff_forall_ne_some.2
    intro payload hsome
    obtain ⟨first, second, hsigned⟩ := signedPayload_eq_some.1 hsome
    exact h first second payload hsigned
  rw [verifyJwt, hnone]

/-- All of them are passed. -/
theorem verifyJwt_eq_accepted {claims : Value} (h : Signed C secret token first second payload) :
    verifyJwt C clock token secret issuer = .accepted claims ↔ claims = .dict payload ∧
      (∀ exp, payload.lookup (ascii "exp") = some exp → isNum exp = true → Fits exp) ∧
      Passing clock.now issuer payload := by
  have htrue := @expPasses_eq_true payload clock
  have hiss := @issPasses_iff issuer payload
  rw [verifyJwt_of_signed h]
  constructor
  · intro heq
    split at heq
    · cases heq
    · cases heq
    · rename_i hexp
      have hall := htrue.1 hexp
      split at heq
      · rename_i his
        cases heq
        exact ⟨rfl, fun exp hl hn => (hall exp hl hn).1, fun exp hl hn => (hall exp hl hn).2,
          hiss.1 his⟩
      · cases heq
  · rintro ⟨rfl, hfits, hnot, his⟩
    rw [htrue.2 fun exp hl hn => ⟨hfits exp hl hn, hnot exp hl hn⟩]
    dsimp only
    rw [if_pos (hiss.2 his)]

theorem verifyJwt_eq_undefined (h : Signed C secret token first second payload) :
    verifyJwt C clock token secret issuer = .undefined ↔
      ∃ exp, payload.lookup (ascii "exp") = some exp ∧ isNum exp = true ∧ ¬Fits exp := by
  rw [verifyJwt_of_signed h, ← expPasses_eq_none clock]
  constructor
  · intro heq
    split at heq
    · assumption
    · cases heq
    · split at heq
      · cases heq
      · cases heq
  · intro hnone
    rw [hnone]

/-- What is valid passes. -/
theorem valid_iff {claims : Value} (h : Signed C secret token first second payload) :
    Valid C clock token secret issuer claims ↔ claims = .dict payload ∧
      Base64url first ∧ Base64url second ∧ Typed issuer payload ∧
      Passing clock.now issuer payload := by
  constructor
  · rintro ⟨first', second', payload', h', rfl, hfirst, hsecond, hexp, hiss⟩
    obtain ⟨rfl, rfl, rfl⟩ := h.unique h'
    refine ⟨rfl, hfirst, hsecond, ⟨?_, ?_⟩, fun exp hl _ => hexp exp hl, ?_⟩
    · intro exp hl
      have hnot := hexp exp hl
      cases exp with
      | int n => rfl
      | float d => rfl
      | null => exact hnot.elim
      | bool b => exact hnot.elim
      | str t => exact hnot.elim
      | list items => exact hnot.elim
      | dict entries => exact hnot.elim
    · intro hissuer
      rw [hiss hissuer]
      exact Option.some_ne_none _
    · intro hissuer iss hl
      rw [hiss hissuer] at hl
      exact (Option.some.inj hl).symm
  · rintro ⟨rfl, hfirst, hsecond, htyped, hpassing⟩
    refine ⟨first, second, payload, h, rfl, hfirst, hsecond, ?_, ?_⟩
    · exact fun exp hl => hpassing.1 exp hl (htyped.1 exp hl)
    · intro hissuer
      obtain ⟨iss, hl⟩ := Option.ne_none_iff_exists'.1 (htyped.2 hissuer)
      rw [hl, hpassing.2 hissuer iss hl]

/-- **What is accepted is what is valid**, and the checks come to something, for the regular
tokens and for no others. -/
theorem accepted_iff_valid (C : Charconv) (clock : Clock) (token secret issuer : Bytes) :
    (verifyJwt C clock token secret issuer ≠ .undefined ∧
      ∀ claims, verifyJwt C clock token secret issuer = .accepted claims ↔
        Valid C clock token secret issuer claims) ↔
    Regular C clock token secret issuer := by
  by_cases hsigned : ∃ first second payload, Signed C secret token first second payload
  · obtain ⟨first, second, payload, h⟩ := hsigned
    constructor
    · rintro ⟨hdefined, hiff⟩ first' second' payload' h'
      obtain ⟨rfl, rfl, rfl⟩ := h.unique h'
      have hfits : ∀ exp, payload'.lookup (ascii "exp") = some exp → isNum exp = true → Fits exp := by
        intro exp hl hn
        by_contra hf
        exact hdefined ((verifyJwt_eq_undefined h).2 ⟨exp, hl, hn, hf⟩)
      refine ⟨hfits, ?_⟩
      intro hpassing
      have hvalid := (hiff _).1 ((verifyJwt_eq_accepted h).2 ⟨rfl, hfits, hpassing⟩)
      obtain ⟨-, hfirst, hsecond, htyped, -⟩ := (valid_iff h).1 hvalid
      exact ⟨hfirst, hsecond, htyped⟩
    · intro hregular
      obtain ⟨hfits, hpass⟩ := hregular first second payload h
      constructor
      · intro heq
        obtain ⟨exp, hl, hn, hf⟩ := (verifyJwt_eq_undefined h).1 heq
        exact hf (hfits exp hl hn)
      · intro claims
        rw [verifyJwt_eq_accepted h, valid_iff h]
        constructor
        · rintro ⟨rfl, -, hpassing⟩
          obtain ⟨hfirst, hsecond, htyped⟩ := hpass hpassing
          exact ⟨rfl, hfirst, hsecond, htyped, hpassing⟩
        · rintro ⟨rfl, -, -, -, hpassing⟩
          exact ⟨rfl, hfits, hpassing⟩
  · have hunsigned : ∀ first second payload, ¬Signed C secret token first second payload :=
      fun first second payload h => hsigned ⟨first, second, payload, h⟩
    rw [verifyJwt_of_unsigned hunsigned]
    constructor
    · intro _ first second payload h
      exact absurd h (hunsigned first second payload)
    · intro _
      refine ⟨by rintro ⟨⟩, fun claims => iff_of_false (by rintro ⟨⟩) ?_⟩
      rintro ⟨first, second, payload, h, -⟩
      exact hunsigned first second payload h

/-- The token of two texts. -/
def tokenOf (secret header payload : Bytes) : Bytes :=
  base64urlEncode header ++ dot :: (base64urlEncode payload ++ dot ::
    base64urlEncode (hmacSha256 secret (base64urlEncode header ++ dot :: base64urlEncode payload)))

theorem signed_tokenOf {header : Dict} {headerText payloadText : Bytes}
    (hheader : parseJson C headerText = some (.dict header))
    (halg : header.lookup (ascii "alg") = some (.str (ascii "HS256")))
    (hpayload : parseJson C payloadText = some (.dict payload)) :
    Signed C secret (tokenOf secret headerText payloadText) (base64urlEncode headerText)
      (base64urlEncode payloadText) payload where
  token_eq := rfl
  first_part := dot_not_mem_encode headerText
  second_part := dot_not_mem_encode payloadText
  header := ⟨header, ⟨headerText, base64urlDecode_encode headerText, hheader⟩, halg⟩
  payload := ⟨payloadText, base64urlDecode_encode payloadText, hpayload⟩

/-- A token whose `exp` is a text never expires. -/
theorem mistyped_exp_accepted :
    let token := tokenOf (ascii "secreto") (ascii "\x7b\"alg\":\"HS256\"\x7d") (ascii "\x7b\"exp\":\"ayer\"\x7d")
    let claims := Value.dict [(ascii "exp", .str (ascii "ayer"))]
    let clock : Clock := ⟨1700000000, by decide, by decide⟩
    verifyJwt Json.charconvOfBits clock token (ascii "secreto") [] = .accepted claims ∧
      ¬Valid Json.charconvOfBits clock token (ascii "secreto") [] claims := by
  intro token claims clock
  have hsigned := @signed_tokenOf Json.charconvOfBits (ascii "secreto")
    [(ascii "exp", .str (ascii "ayer"))] [(ascii "alg", .str (ascii "HS256"))]
    (ascii "\x7b\"alg\":\"HS256\"\x7d") (ascii "\x7b\"exp\":\"ayer\"\x7d") rfl rfl rfl
  have hexp : ∀ exp, [(ascii "exp", Value.str (ascii "ayer"))].lookup (ascii "exp") = some exp →
      isNum exp ≠ true := by
    intro exp h
    cases h
    exact Bool.false_ne_true
  constructor
  · refine (verifyJwt_eq_accepted hsigned).2 ⟨rfl, ?_, ?_, ?_⟩
    · exact fun exp hl hn => absurd hn (hexp exp hl)
    · exact fun exp hl hn => absurd hn (hexp exp hl)
    · exact fun h => absurd rfl h
  · intro hvalid
    obtain ⟨-, -, -, htyped, -⟩ := (valid_iff hsigned).1 hvalid
    exact hexp _ rfl (htyped.1 _ rfl)

end Checks

end Osodio.Auth
