import Osodio.Http.Routing
import Osodio.Http.StaticFiles
import Osodio.Lib.Cuts

/-!
# Percent-encoding

A query string and the body of a form are decoded by two functions that are written
separately.  Both leave it to `strtoul` to say what a hexadecimal digit is.

## Main definitions

- `urlDecode`, `formUrlDecode` — the two decoders
- `parseQuery`, `parseFormEncoded` — the parameters of a text
- `Codifica` — the texts that a string is encoded as
- `decodifica` — a decoder that takes hexadecimal digits only

## Main results

- `urlDecode_codifica` — a string comes back from each of its texts
- `lookup_parametros` — so does the value of a parameter
- `urlDecode_eq_iff` — the decoders take digits only, exactly where there is no sign and no blank
-/

namespace Osodio.Http

/-! ## The decoders -/

/-- A byte that is not decoded: `+` is a blank. -/
def literal (c : UInt8) : UInt8 := if c = 0x2B then 0x20 else c

/-- `url_decode`.  A `%` without two bytes behind it is no escape. -/
def urlDecode : Bytes → Bytes
  | c :: a :: b :: s =>
    if c = 0x25 then
      match strtoul a b with
      | some v => (if v = 0 then [] else [UInt8.ofNat v]) ++ urlDecode s
      | none => c :: urlDecode (a :: b :: s)
    else literal c :: urlDecode (a :: b :: s)
  | c :: s => literal c :: urlDecode s
  | [] => []

/-- `form_url_decode`. -/
def formUrlDecode : Bytes → Bytes
  | c :: a :: b :: s =>
    if c = 0x2B then 0x20 :: formUrlDecode (a :: b :: s)
    else if c = 0x25 then
      match strtoul a b with
      | some v => (if v = 0 then [] else [UInt8.ofNat v]) ++ formUrlDecode s
      | none => 0x25 :: formUrlDecode (a :: b :: s)
    else c :: formUrlDecode (a :: b :: s)
  | c :: s => literal c :: formUrlDecode s
  | [] => []

/-- One of the texts between two `&`: the name and the value, decoded. -/
def parametro (decode : Bytes → Bytes) (pair : Bytes) : Option (Bytes × Bytes) :=
  match Lib.cut 0x3D pair with
  | some (key, value) => some (decode key, decode value)
  | none => if pair = [] then none else some (decode pair, [])

/-- `out[key] = value`. -/
def asigna (out : List (Bytes × Bytes)) (p : Bytes × Bytes) : List (Bytes × Bytes) :=
  p :: out.filter fun q => q.1 ≠ p.1

/-- The parameters of a text.  Of parameters with one name, the last counts. -/
def parametros (decode : Bytes → Bytes) (src : Bytes) : List (Bytes × Bytes) :=
  ((src.splitOn 0x26).filterMap (parametro decode)).foldl asigna []

/-- `parse_query`. -/
def parseQuery (qs : Bytes) : List (Bytes × Bytes) := parametros urlDecode qs

/-- `parse_form_encoded`. -/
def parseFormEncoded (src : Bytes) : List (Bytes × Bytes) := parametros formUrlDecode src

/-! ## What they are for -/

/-- The bytes that need no escape: letters, digits and `-`, `.`, `_`, `~`. -/
def noReservado (c : UInt8) : Bool :=
  0x41 ≤ c && c ≤ 0x5A || 0x61 ≤ c && c ≤ 0x7A || 0x30 ≤ c && c ≤ 0x39 ||
    c == 0x2D || c == 0x2E || c == 0x5F || c == 0x7E

/-- `e` is `s`, percent-encoded: a byte that is not reserved may stand for itself, and any byte may
    be escaped, with digits of either case. -/
inductive Codifica : Bytes → Bytes → Prop
  | nil : Codifica [] []
  | libre {c : UInt8} {s e : Bytes} (hc : noReservado c = true) (h : Codifica s e) :
      Codifica (c :: s) (c :: e)
  | escapado {c a b : UInt8} {s e : Bytes} (ha : xdigit a = some (c.toNat / 16))
      (hb : xdigit b = some (c.toNat % 16)) (h : Codifica s e) :
      Codifica (c :: s) (0x25 :: a :: b :: e)

/-- A `%` and two hexadecimal digits stand for a byte, which is left out if it is zero; `+` is a
    blank; everything else stays. -/
def decodifica : Bytes → Bytes
  | c :: a :: b :: s =>
    if c = 0x25 then
      match xdigit a, xdigit b with
      | some x, some y =>
        (if 16 * x + y = 0 then [] else [UInt8.ofNat (16 * x + y)]) ++ decodifica s
      | _, _ => c :: decodifica (a :: b :: s)
    else literal c :: decodifica (a :: b :: s)
  | c :: s => literal c :: decodifica s
  | [] => []

/-- A blank or a sign, and a hexadecimal digit. -/
def Laxo (a b : UInt8) : Prop :=
  (isSpace a = true ∨ a = 0x2B ∨ a = 0x2D) ∧ (xdigit b).isSome = true

section Decoders

variable {a b c : UInt8} {s e t : Bytes}

/-- **The two decoders are one.** -/
theorem formUrlDecode_eq (t : Bytes) : formUrlDecode t = urlDecode t := by
  fun_induction urlDecode t with
  | case1 a b s v hv ih =>
    rw [formUrlDecode, if_neg (by decide), if_pos rfl]
    simp only [hv, ih]
  | case2 a b s hv ih =>
    rw [formUrlDecode, if_neg (by decide), if_pos rfl]
    simp only [hv, ih]
  | case3 c a b s hc ih =>
    rw [formUrlDecode]
    by_cases hplus : c = 0x2B
    · rw [if_pos hplus, ih, literal, if_pos hplus]
    · rw [if_neg hplus, if_neg hc, ih, literal, if_neg hplus]
  | case4 c s hs ih =>
    rw [formUrlDecode, ih]
    exact hs
  | case5 => rfl

theorem urlDecode_cons (hc : c ≠ 0x25) (s : Bytes) :
    urlDecode (c :: s) = literal c :: urlDecode s := by
  match s with
  | [] => rfl
  | [_] => rfl
  | a :: b :: s => rw [urlDecode, if_neg hc]

theorem decodifica_cons (hc : c ≠ 0x25) (s : Bytes) :
    decodifica (c :: s) = literal c :: decodifica s := by
  match s with
  | [] => rfl
  | [_] => rfl
  | a :: b :: s => rw [decodifica, if_neg hc]

theorem urlDecode_escape {v : ℕ} (h : strtoul a b = some v) (s : Bytes) :
    urlDecode (0x25 :: a :: b :: s) = (if v = 0 then [] else [UInt8.ofNat v]) ++ urlDecode s := by
  rw [urlDecode, if_pos rfl]
  simp only [h]

theorem noReservado_ne (h : noReservado c = true) : c ≠ 0x25 ∧ c ≠ 0x2B := by
  constructor <;>
  · rintro rfl
    cases h

/-- A digit is no `%`, no blank and no sign. -/
theorem xdigit_ne {x : ℕ} (h : xdigit a = some x) :
    a ≠ 0x25 ∧ isSpace a = false ∧ a ≠ 0x2B ∧ a ≠ 0x2D := by
  have hall : ∀ n < 256, (xdigit (UInt8.ofNat n)).isSome = true → UInt8.ofNat n ≠ 0x25 ∧
      isSpace (UInt8.ofNat n) = false ∧ UInt8.ofNat n ≠ 0x2B ∧ UInt8.ofNat n ≠ 0x2D := by
    decide +kernel
  have ha := hall a.toNat a.toNat_lt
  rw [UInt8.ofNat_toNat] at ha
  exact ha (Option.isSome_of_mem h)

/-- A string that has no zero byte comes back from each of its texts. -/
theorem urlDecode_codifica (h : Codifica s e) (h0 : 0 ∉ s) : urlDecode e = s := by
  induction h with
  | nil => rfl
  | @libre c s e hc h ih =>
    obtain ⟨hpercent, hplus⟩ := noReservado_ne hc
    rw [urlDecode_cons hpercent, literal, if_neg hplus, ih fun h => h0 (List.mem_cons_of_mem _ h)]
  | @escapado c a b s e ha hb h ih =>
    have hc : c.toNat ≠ 0 := by
      intro hc
      obtain rfl : c = 0 := UInt8.toNat_inj.1 hc
      exact h0 (List.mem_cons_self ..)
    have hv : strtoul a b = some c.toNat := by
      unfold strtoul
      rw [ha, hb]
      exact congrArg some (Nat.div_add_mod ..)
    rw [urlDecode_escape hv, if_neg hc, ih fun h => h0 (List.mem_cons_of_mem _ h),
      UInt8.ofNat_toNat]
    rfl

/-! ## Lax digits -/

/-- No `%` has a blank or a sign behind it, and then a digit. -/
def Limpio (t : Bytes) : Prop := ∀ a b, [0x25, a, b] <:+: t → ¬ Laxo a b

theorem limpio_cons (hc : c ≠ 0x25) : Limpio (c :: s) ↔ Limpio s := by
  constructor
  · exact fun h a b hi => h a b (List.infix_cons hi)
  · intro h a b hi
    obtain hp | hi := List.infix_cons_iff.1 hi
    · exact absurd (List.cons_prefix_cons.1 hp).1.symm hc
    · exact h a b hi

theorem limpio_escape : Limpio (0x25 :: a :: b :: s) ↔ ¬ Laxo a b ∧ Limpio (a :: b :: s) := by
  constructor
  · exact fun h => ⟨h a b ⟨[], s, rfl⟩, fun a' b' hi => h a' b' (List.infix_cons hi)⟩
  · rintro ⟨hl, h⟩ a' b' hi
    obtain ⟨t, ht⟩ | hi := List.infix_cons_iff.1 hi
    · cases ht
      exact hl
    · exact h a' b' hi

theorem limpio_short (h : s.length < 2) : Limpio (c :: s) := by
  intro a b hi
  have hle := hi.length_le
  simp only [List.length_cons, List.length_nil] at hle
  omega

/-- What `strtoul` takes without being two digits. -/
theorem laxo_iff : Laxo a b ↔ xdigit a = none ∧ (strtoul a b).isSome = true := by
  unfold Laxo strtoul
  cases ha : xdigit a with
  | some x =>
    obtain ⟨-, hspace, hplus, hminus⟩ := xdigit_ne ha
    simp [hspace, hplus, hminus]
  | none =>
    cases hb : xdigit b with
    | none => simp
    | some y =>
      dsimp only
      constructor
      · rintro ⟨hl, -⟩
        refine ⟨rfl, ?_⟩
        by_cases hspace : (isSpace a || a == 0x2B) = true
        · rw [if_pos hspace]
          rfl
        · rw [if_neg hspace]
          rw [Bool.or_eq_true, beq_iff_eq, not_or] at hspace
          have hminus := (hl.resolve_left hspace.1).resolve_left hspace.2
          rw [if_pos (beq_iff_eq.2 hminus)]
          rfl
      · rintro ⟨-, h⟩
        refine ⟨?_, rfl⟩
        by_cases hspace : (isSpace a || a == 0x2B) = true
        · rw [Bool.or_eq_true, beq_iff_eq] at hspace
          exact hspace.imp_right .inl
        · rw [if_neg hspace] at h
          by_cases hminus : a = 0x2D
          · exact .inr (.inr hminus)
          · rw [if_neg fun h => hminus (beq_iff_eq.1 h)] at h
            cases h

theorem xdigit_of_not_laxo {v : ℕ} (h : strtoul a b = some v) (hl : ¬ Laxo a b) :
    ∃ x y, xdigit a = some x ∧ xdigit b = some y ∧ v = 16 * x + y := by
  rw [laxo_iff, h] at hl
  cases ha : xdigit a with
  | none => exact absurd ⟨ha, rfl⟩ hl
  | some x =>
    cases hb : xdigit b with
    | none =>
      rw [strtoul, ha, hb] at h
      cases h
    | some y =>
      rw [strtoul, ha, hb] at h
      cases h
      exact ⟨x, y, rfl, rfl, rfl⟩

theorem Laxo.ne (h : Laxo a b) : a ≠ 0x25 ∧ b ≠ 0x25 := by
  obtain ⟨hl, hb⟩ := h
  constructor
  · rintro rfl
    revert hl
    decide
  · obtain ⟨y, hy⟩ := Option.isSome_iff_exists.1 hb
    exact (xdigit_ne hy).1

/-- **The decoder, compared with one for digits**: it does the same, or it finds something else and
    its result is shorter. -/
theorem urlDecode_cases (t : Bytes) : (urlDecode t = decodifica t ∧ Limpio t) ∨
    ((urlDecode t).length < (decodifica t).length ∧ ¬ Limpio t) := by
  fun_induction urlDecode t with
  | case1 a b s v hv ih =>
    by_cases hl : Laxo a b
    · -- three bytes stay where the decoder makes one
      have ha := (laxo_iff.1 hl).1
      have hle : (urlDecode s).length ≤ (decodifica s).length :=
        ih.elim (fun h => h.1 ▸ le_rfl) fun h => h.1.le
      refine .inr ⟨?_, fun h => (limpio_escape.1 h).1 hl⟩
      rw [decodifica, if_pos rfl]
      simp only [ha]
      rw [decodifica_cons hl.ne.1, decodifica_cons hl.ne.2]
      simp only [List.length_append, List.length_cons]
      split
      · simp only [List.length_nil]
        omega
      · simp only [List.length_cons, List.length_nil]
        omega
    · obtain ⟨x, y, ha, hb, rfl⟩ := xdigit_of_not_laxo hv hl
      rw [decodifica, if_pos rfl]
      simp only [ha, hb]
      rw [limpio_escape, limpio_cons (xdigit_ne ha).1, limpio_cons (xdigit_ne hb).1]
      obtain ⟨he, hs⟩ | ⟨hlt, hs⟩ := ih
      · exact .inl ⟨by rw [he], hl, hs⟩
      · refine .inr ⟨?_, fun h => hs h.2⟩
        rw [List.length_append, List.length_append]
        omega
  | case2 a b s hv ih =>
    have hl : ¬ Laxo a b := fun h => by
      have hsome := (laxo_iff.1 h).2
      rw [hv] at hsome
      cases hsome
    have hd : decodifica (0x25 :: a :: b :: s) = 0x25 :: decodifica (a :: b :: s) := by
      rw [decodifica, if_pos rfl]
      split
      · rename_i x y ha hb
        rw [strtoul, ha, hb] at hv
        cases hv
      · rfl
    rw [hd, limpio_escape]
    obtain ⟨he, hs⟩ | ⟨hlt, hs⟩ := ih
    · exact .inl ⟨by rw [he], hl, hs⟩
    · exact .inr ⟨Nat.succ_lt_succ hlt, fun h => hs h.2⟩
  | case3 c a b s hc ih =>
    rw [decodifica_cons hc, limpio_cons hc]
    obtain ⟨he, hs⟩ | ⟨hlt, hs⟩ := ih
    · exact .inl ⟨by rw [he], hs⟩
    · exact .inr ⟨Nat.succ_lt_succ hlt, hs⟩
  | case4 c s hs ih =>
    left
    match s with
    | [] => exact ⟨rfl, limpio_short (by decide)⟩
    | [a] => exact ⟨rfl, limpio_short (by simp)⟩
    | a :: b :: s => exact absurd rfl (hs a b s)
  | case5 => exact .inl ⟨rfl, fun a b hi => by simpa using hi.length_le⟩

/-- **The decoder takes digits only**, exactly where there are no lax ones. -/
theorem urlDecode_eq_iff (t : Bytes) : urlDecode t = decodifica t ↔ Limpio t := by
  obtain ⟨he, hl⟩ | ⟨hlt, hl⟩ := urlDecode_cases t
  · exact iff_of_true he hl
  · exact iff_of_false (fun he => absurd (congrArg List.length he) hlt.ne) hl

end Decoders

/-! ## Parameters -/

section Parameters

variable {decode : Bytes → Bytes} {k e : Bytes} {antes despues : List Bytes}

theorem lookup_asigna (out : List (Bytes × Bytes)) (p : Bytes × Bytes) (k : Bytes) :
    (asigna out p).lookup k = if k = p.1 then some p.2 else out.lookup k := by
  obtain ⟨k', v⟩ := p
  unfold asigna
  by_cases hk : k = k'
  · rw [if_pos hk, hk, List.lookup_cons_self]
  · rw [if_neg hk, List.lookup_cons, beq_eq_false_iff_ne.2 hk]
    exact lookup_filter_ne hk out

/-- Other names do not matter. -/
theorem lookup_foldl_asigna {ps : List (Bytes × Bytes)} (h : ∀ p ∈ ps, p.1 ≠ k)
    (out : List (Bytes × Bytes)) : (ps.foldl asigna out).lookup k = out.lookup k := by
  induction ps generalizing out with
  | nil => rfl
  | cons p ps ih =>
    rw [List.foldl_cons, ih fun q hq => h q (List.mem_cons_of_mem _ hq), lookup_asigna,
      if_neg (h p (List.mem_cons_self ..)).symm]

/-- A parameter is read as its value, decoded, unless a later one has its name. -/
theorem lookup_parametros (hk : 0x3D ∉ k) (hpart : 0x26 ∉ k ++ 0x3D :: e)
    (hantes : ∀ p ∈ antes, 0x26 ∉ p) (hdespues : ∀ p ∈ despues, 0x26 ∉ p)
    (hlast : ∀ p ∈ despues, ∀ q ∈ parametro decode p, q.1 ≠ decode k) :
    (parametros decode ([0x26].intercalate (antes ++ (k ++ 0x3D :: e) :: despues))).lookup
      (decode k) = some (decode e) := by
  have hparts : ∀ p ∈ antes ++ (k ++ 0x3D :: e) :: despues, 0x26 ∉ p := by
    intro p hp
    obtain hp | hp := List.mem_append.1 hp
    · exact hantes p hp
    · obtain rfl | hp := List.mem_cons.1 hp
      · exact hpart
      · exact hdespues p hp
  have hthis : parametro decode (k ++ 0x3D :: e) = some (decode k, decode e) := by
    rw [parametro, Lib.cut_append hk]
  unfold parametros
  rw [List.splitOn_intercalate _ hparts (by simp), List.filterMap_append,
    List.filterMap_cons_some hthis, List.foldl_append, List.foldl_cons, lookup_foldl_asigna,
    lookup_asigna, if_pos rfl]
  intro q hq
  obtain ⟨p, hp, hq⟩ := List.mem_filterMap.1 hq
  exact hlast p hp q hq

end Parameters

end Osodio.Http
