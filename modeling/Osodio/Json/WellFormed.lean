import Osodio.Json.Grammar

/-!
# What is written is JSON

The text of any value is a document in UTF-8, whatever bytes its strings and keys are made of.

## Main definitions

- `Carried` — what a document has of a value: no internal keys, no number that is not finite,
  and the strings repaired

## Main results

- `escapar_chars` — a string between quotes, for any bytes
- `toJsonText_wellFormed` — the whole
-/

namespace Osodio.Json

open Osodio.Lib

/-! ## What a document has of a value -/

/-- The key of a pair is written. -/
def visible (e : Bytes × Value) : Bool := !interna e.1

/-- What is left of a value in its document. -/
inductive Carried : Value → Value → Prop
  | null : Carried .null .null
  | bool (b : Bool) : Carried (.bool b) (.bool b)
  | int (i : Int64) : Carried (.int i) (.int i)
  | float {d : Double} (hd : d.isFinite = true) : Carried (.float d) (.float d)
  | notFinite {d : Double} (hd : d.isFinite = false) : Carried (.float d) .null
  | str {s t : Bytes} (h : Repair s t) : Carried (.str s) (.str t)
  | list {vs ws : List Value} (h : List.Forall₂ Carried vs ws) : Carried (.list vs) (.list ws)
  | dict {es fs : List (Bytes × Value)}
      (hk : List.Forall₂ Repair ((es.filter visible).map Prod.fst) (fs.map Prod.fst))
      (hv : List.Forall₂ Carried ((es.filter visible).map Prod.snd) (fs.map Prod.snd)) :
      Carried (.dict es) (.dict (dictOf fs))

/-! ## Strings -/

section Strings

variable {s : Bytes}

theorem hex4_digits {n : ℕ} (hn : n < 65536) : Hex4 (hex04 n) n := by
  have hm (k : ℕ) : hexValue (hexDigit (k % 16)) = some (k % 16) :=
    hexValue_hexDigit _ (Nat.mod_lt _ (by decide))
  have h := Hex4.mk (hm (n / 4096)) (hm (n / 256)) (hm (n / 16)) (hm n)
  rwa [show 4096 * (n / 4096 % 16) + 256 * (n / 256 % 16) + 16 * (n / 16 % 16) + n % 16 = n by
    omega] at h

/-- An escape denotes its byte. -/
theorem chars_escape {c : UInt8} (hc : sucio c = true) {t s : Bytes} (h : Chars t s) :
    Chars (escape c ++ t) (c :: s) := by
  unfold escape
  split_ifs with h1 h2 h3 h4 h5 h6 h7
  · exact .simple (by rw [h1]; decide) h
  · exact .simple (by rw [h2]; decide) h
  · exact .simple (by rw [h3]; decide) h
  · exact .simple (by rw [h4]; decide) h
  · exact .simple (by rw [h5]; decide) h
  · exact .simple (by rw [h6]; decide) h
  · exact .simple (by rw [h7]; decide) h
  -- only the control characters are left
  have hlt : c.toNat < 0x20 := by
    simp only [sucio, h1, h2, Bool.or_eq_true, beq_iff_eq, decide_eq_true_eq, or_false] at hc
    exact UInt8.lt_iff_toNat_lt.1 hc
  obtain ⟨ch, hch⟩ := exists_char (v := c.toNat) (by omega)
  have hch : ch.toNat = c.toNat := hch
  have henc : String.utf8EncodeChar ch = [c] := by
    rw [← utf8_eq, hch, utf8, if_pos (by omega), UInt8.ofNat_toNat]
  have hx : Hex4 (hex04 c.toNat) ch.toNat := by
    rw [hch]
    exact hex4_digits (by omega)
  have hunicode := Chars.unicode hx h
  rwa [henc] at hunicode

/-- What is escaped denotes the text, byte by byte. -/
theorem chars_flatMap (s : Bytes) : Chars (s.flatMap escapeByte) s := by
  induction s with
  | nil => exact .nil
  | cons c s ih =>
    rw [List.flatMap_cons, escapeByte]
    split
    · next hc => exact chars_escape hc ih
    · next hc => exact .byte (Bool.eq_false_iff.2 hc) ih

/-- An escape is ASCII. -/
theorem escape_ascii (c : UInt8) : ∀ b ∈ escape c, b < 0x80 := by
  have hdigit : ∀ n < 16, hexDigit n < 0x80 := by decide
  have hmod (n : ℕ) : hexDigit (n % 16) < 0x80 := hdigit _ (Nat.mod_lt _ (by decide))
  unfold escape
  split_ifs
  all_goals try decide +kernel
  intro b hb
  simp only [hex04, List.cons_append, List.nil_append, List.mem_cons, List.not_mem_nil,
    or_false] at hb
  obtain rfl | rfl | rfl | rfl | rfl | rfl := hb
  · decide
  · decide
  · exact hmod _
  · exact hmod _
  · exact hmod _
  · exact hmod _

theorem ValidUtf8.cons {b : UInt8} (hb : b < 0x80) (hs : ValidUtf8 s) : ValidUtf8 (b :: s) :=
  .append (.ascii fun c hc => by rwa [List.mem_singleton.1 hc]) hs

/-- A character is one byte, or has no byte of ASCII. -/
theorem encode_cases (c : Char) : (∃ b : UInt8, b < 0x80 ∧ String.utf8EncodeChar c = [b]) ∨
    ∀ b ∈ String.utf8EncodeChar c, ¬b < 0x80 := by
  have hvalid : c.toNat < 0xD800 ∨ 0xDFFF < c.toNat ∧ c.toNat < 0x110000 := c.valid
  have hge {n m k : ℕ} (hn : n < m) (hk : 0x80 ≤ k) (hm : m + k ≤ 256) :
      ¬UInt8.ofNat (n + k) < 0x80 := by
    apply not_lt_of_toNat
    rw [toNat_ofNat_add hn hm]
    exact Nat.le_trans hk (Nat.le_add_left _ _)
  have htail (n : ℕ) : ¬UInt8.ofNat (n % 0x40 + 0x80) < 0x80 :=
    hge (Nat.mod_lt n (by decide)) (by decide) (by decide)
  unfold String.utf8EncodeChar
  show (∃ b, b < 0x80 ∧ (if c.toNat ≤ 0x7F then _ else _) = [b]) ∨
    ∀ b ∈ (if c.toNat ≤ 0x7F then _ else _), ¬b < 0x80
  split
  · next h1 =>
    have h1 : c.val.toNat ≤ 0x7F := h1
    refine .inl ⟨_, ?_, rfl⟩
    rw [UInt8.lt_iff_toNat_lt, UInt8.toNat_ofNat_of_lt' (show c.val.toNat < 256 by omega)]
    exact Nat.lt_succ_of_le h1
  · right
    split
    · rintro b (_ | ⟨_, _ | ⟨_, ⟨⟩⟩⟩)
      · exact hge (Nat.mod_lt _ (by decide)) (by decide) (by decide)
      · exact htail _
    split
    · rintro b (_ | ⟨_, _ | ⟨_, _ | ⟨_, ⟨⟩⟩⟩⟩)
      · exact hge (Nat.mod_lt _ (by decide)) (by decide) (by decide)
      · exact htail _
      · exact htail _
    · rintro b (_ | ⟨_, _ | ⟨_, _ | ⟨_, _ | ⟨_, ⟨⟩⟩⟩⟩⟩)
      · exact hge (Nat.mod_lt _ (by decide)) (by decide) (by decide)
      · exact htail _
      · exact htail _
      · exact htail _

/-- Escaping keeps the encoding. -/
theorem ValidUtf8.escape (hs : ValidUtf8 s) : ValidUtf8 (s.flatMap escapeByte) := by
  obtain ⟨cs, rfl⟩ := hs
  induction cs with
  | nil => exact .nil
  | cons c cs ih =>
    rw [List.flatMap_cons, List.flatMap_append]
    refine ValidUtf8.append ?_ ih
    obtain ⟨b, hb, henc⟩ | hhigh := encode_cases c
    · rw [henc, List.flatMap_singleton, escapeByte]
      split
      · exact .ascii (escape_ascii b)
      · exact .cons hb .nil
    · have hclean : ∀ b ∈ String.utf8EncodeChar c, sucio b = false := by
        intro b hb
        have h := hhigh b hb
        have h1 : ¬b < 0x20 := fun hlt => h (UInt8.lt_trans hlt (by decide))
        have h2 : b ≠ 0x22 := fun e => h (e ▸ by decide)
        have h3 : b ≠ 0x5C := fun e => h (e ▸ by decide)
        simp [sucio, h1, h2, h3]
      rw [flatMap_escapeByte hclean]
      exact .encode c

/-- What is between the quotes of a string that is written. -/
theorem escapar_chars (s : Bytes) : ∃ u t, Repair s t ∧ Chars u t ∧ ValidUtf8 u ∧
    escapar s = 0x22 :: (u ++ [0x22]) := by
  have hwritten {t : Bytes} (ht : ValidUtf8 t) : Chars (escaparDesde t) t ∧
      ValidUtf8 (escaparDesde t) := by
    rw [escaparDesde_eq]
    exact ⟨chars_flatMap t, ht.escape⟩
  rw [escapar]
  split
  · next hs =>
    have hs := valid_of_utf8Valido hs
    obtain ⟨hchars, hvalid⟩ := hwritten hs
    exact ⟨_, s, .refl hs, hchars, hvalid, rfl⟩
  · have hrepair := repair_sanearUtf8 s
    obtain ⟨hchars, hvalid⟩ := hwritten hrepair.valid
    exact ⟨_, _, hrepair, hchars, hvalid, rfl⟩

end Strings

/-! ## Numbers -/

section Numbers

variable {C : Charconv} {t : Bytes}

theorem Digitos.ascii {ds : Bytes} (h : Digitos ds) : ∀ d ∈ ds, d < 0x80 := by
  intro d hd
  have hdig := h.2 d hd
  simp only [digito, Bool.and_eq_true, decide_eq_true_eq] at hdig
  exact UInt8.lt_of_le_of_lt hdig.2 (by decide)

/-- A number is written with digits, signs, a point and an `e`. -/
theorem NumberText.chars (h : NumberText t) :
    ∀ b ∈ t, digito b = true ∨ b ∈ [0x2D, 0x2B, 0x2E, 0x65, 0x45] := by
  obtain ⟨signo, entera, fraccion, exponente, hparts, rfl⟩ := h
  intro b hb
  simp only [List.mem_append] at hb
  obtain ((hb | hb) | hb) | hb := hb
  · obtain rfl | rfl := hparts.signo
    · cases hb
    · exact .inr (by rw [List.mem_singleton.1 hb]; decide)
  · obtain rfl | ⟨hd, -⟩ := hparts.entera
    · exact .inl (by rw [List.mem_singleton.1 hb]; decide)
    · exact .inl (hd.2 b hb)
  · obtain rfl | ⟨ds, hds, rfl⟩ := hparts.fraccion
    · cases hb
    · obtain rfl | hb := List.mem_cons.1 hb
      · exact .inr (by decide)
      · exact .inl (hds.2 b hb)
  · obtain rfl | ⟨e, sgn, ds, he, hsgn, hds, rfl⟩ := hparts.exponente
    · cases hb
    · obtain rfl | hb := List.mem_cons.1 hb
      · exact .inr (by obtain rfl | rfl := he <;> decide)
      obtain hb | hb := List.mem_append.1 hb
      · obtain rfl | rfl | rfl := hsgn
        · cases hb
        · exact .inr (by rw [List.mem_singleton.1 hb]; decide)
        · exact .inr (by rw [List.mem_singleton.1 hb]; decide)
      · exact .inl (hds.2 b hb)

/-- A number is ASCII. -/
theorem NumberText.ascii (h : NumberText t) : ∀ b ∈ t, b < 0x80 := by
  intro b hb
  obtain hd | hb := h.chars b hb
  · exact (Digitos.single hd).ascii b (List.mem_singleton_self b)
  · have hall : ∀ c ∈ ([0x2D, 0x2B, 0x2E, 0x65, 0x45] : Bytes), c < 0x80 := by decide +kernel
    exact hall b hb

/-- The text of an integer denotes it. -/
theorem decimal_denotes (real : Bytes → Double → Prop) (i : Int64) :
    NumberDenotes real (decimal i) (.int i) := by
  have hlt := Int64.toInt_lt i
  have hle := Int64.le_toInt i
  have hof := Int64.ofInt_toInt i
  have hnat : natOf (digitos i.toInt.natAbs) = i.toInt.natAbs := ofDigits_digitos _
  have hparts {signo : Bytes} (h : signo = [] ∨ signo = [0x2D]) :
      NumberParts signo (digitos i.toInt.natAbs) [] [] :=
    ⟨h, digitos_entera _, .inl rfl, .inl rfl⟩
  unfold decimal
  split
  · next hneg =>
    have hneg : i.toInt < 0 := Int64.lt_iff_toInt_lt.1 hneg
    have hi : integerOf [0x2D] (digitos i.toInt.natAbs) = i.toInt := by
      rw [integerOf, if_neg (List.cons_ne_nil _ _), hnat]
      omega
    have h : NumberDenotes real _ _ := .int (hparts (.inr rfl)) (by rw [hi]; exact ⟨hle, hlt⟩)
    rwa [hi, hof] at h
  · next hneg =>
    have hneg : ¬i.toInt < 0 := fun h => hneg (Int64.lt_iff_toInt_lt.2 h)
    have hi : integerOf [] (digitos i.toInt.natAbs) = i.toInt := by
      rw [integerOf, if_pos rfl, hnat]
      omega
    have h : NumberDenotes real _ _ := .int (hparts (.inl rfl)) (by rw [hi]; exact ⟨hle, hlt⟩)
    rwa [hi, hof] at h

/-- The text of a finite double is read as it. -/
theorem escribirDouble_denotes (hC : C.Inverse) {d : Double} (hd : d.isFinite = true) :
    NumberDenotes (fun t d => C.fromChars t = some d) (escribirDouble C d) (.float d) := by
  have hmarked {t : Bytes} (ht : NumberText t) (hm : marcaReal t = true)
      (hread : C.fromChars t = some d) :
      NumberDenotes (fun t d => C.fromChars t = some d) t (.float d) := by
    obtain ⟨signo, entera, fraccion, exponente, hparts, rfl⟩ := ht
    refine .float hparts ?_ hread
    rintro rfl rfl
    rw [hparts.marcaReal] at hm
    exact absurd hm (by decide)
  obtain ⟨t, ht, htext, hread⟩ := hC.inverse d hd
  simp only [escribirDouble, hd, ht]
  rw [if_neg (by decide)]
  split
  · next hm => exact hmarked htext hm hread
  · next hm =>
    have hm : marcaReal t = false := Bool.eq_false_iff.2 hm
    refine hmarked (htext.point hm) ?_ ((hC.point t htext hm).trans hread)
    rw [marcaReal, List.any_append, Bool.or_eq_true]
    exact .inr (by decide)

end Numbers

/-! ## Values -/

section Values

variable {C : Charconv} {n : ℕ}

/-- The text is UTF-8, and has what is left of the value. -/
def Writes (C : Charconv) (n : ℕ) (v : Value) : Prop :=
  ∃ w, Carried v w ∧ ValidUtf8 (v.writeJson C) ∧
    Denotes (fun t d => C.fromChars t = some d) n (v.writeJson C) w

theorem ws_nil : Ws [] := nofun

theorem items_writes {v : Value} {vs : List Value} (h : ∀ w ∈ v :: vs, Writes C n w) :
    ∃ ws, List.Forall₂ Carried (v :: vs) ws ∧ ValidUtf8 (writeItems C true (v :: vs)) ∧
      Items (Denotes (fun t d => C.fromChars t = some d) n) (writeItems C true (v :: vs)) ws := by
  induction vs generalizing v with
  | nil =>
    obtain ⟨w, hw, hvalid, hden⟩ := h v (List.mem_cons_self ..)
    have hitems := Items.one ws_nil hden ws_nil
    rw [writeItems, writeItems, if_pos rfl]
    exact ⟨[w], .cons hw .nil, by simpa using hvalid, hitems⟩
  | cons u vs ih =>
    obtain ⟨w, hw, hvalid, hden⟩ := h v (List.mem_cons_self ..)
    obtain ⟨ws, hws, hvalid', hitems⟩ := ih (v := u) fun x hx => h x (List.mem_cons_of_mem _ hx)
    have hcons := Items.cons ws_nil hden ws_nil hitems
    rw [writeItems, writeItems_false, if_pos rfl]
    rw [List.nil_append, List.append_nil] at hcons
    refine ⟨w :: ws, .cons hw hws, ?_, hcons⟩
    exact hvalid.append (.cons (by decide) hvalid')

/-- Internal keys might as well not be there. -/
theorem writeEntries_filter (primero : Bool) (es : List (Bytes × Value)) :
    writeEntries C primero es = writeEntries C primero (es.filter visible) := by
  induction es generalizing primero with
  | nil => rfl
  | cons e es ih =>
    obtain ⟨k, v⟩ := e
    by_cases hk : interna k = true
    · rw [List.filter_cons_of_neg (by simp [visible, hk]), writeEntries, if_pos hk, ih]
    · rw [List.filter_cons_of_pos (by simp [visible, hk]), writeEntries, if_neg hk, writeEntries,
        if_neg hk, ih]

theorem pair_writes {e : Bytes × Value} (h : Writes C n e.2) :
    ∃ f : Bytes × Value, Repair e.1 f.1 ∧ Carried e.2 f.2 ∧ ValidUtf8 (pairText C e) ∧
      Pair (Denotes (fun t d => C.fromChars t = some d) n) (pairText C e) f := by
  obtain ⟨k, v⟩ := e
  obtain ⟨w, hw, hvalid, hden⟩ := h
  obtain ⟨u, l, hrepair, hchars, hu, htext⟩ := escapar_chars k
  have hpair := Pair.mk ws_nil hchars ws_nil ws_nil hden ws_nil
  refine ⟨(l, w), hrepair, hw, ?_, ?_⟩
  · rw [pairText, htext]
    exact (ValidUtf8.cons (by decide) (hu.append (.cons (by decide) .nil))).append
      (.cons (by decide) hvalid)
  · rw [pairText, htext]
    simpa using hpair

theorem entries_writes {e : Bytes × Value} {es : List (Bytes × Value)}
    (hk : ∀ f ∈ e :: es, interna f.1 = false) (h : ∀ f ∈ e :: es, Writes C n f.2) :
    ∃ fs : List (Bytes × Value),
      List.Forall₂ Repair ((e :: es).map Prod.fst) (fs.map Prod.fst) ∧
        List.Forall₂ Carried ((e :: es).map Prod.snd) (fs.map Prod.snd) ∧
          ValidUtf8 (writeEntries C true (e :: es)) ∧
            Entries (Denotes (fun t d => C.fromChars t = some d) n)
              (writeEntries C true (e :: es)) fs := by
  induction es generalizing e with
  | nil =>
    obtain ⟨f, hrepair, hcarried, hvalid, hpair⟩ := pair_writes (h e (List.mem_cons_self ..))
    rw [writeEntries_cons (hk e (List.mem_cons_self ..)), if_pos rfl, writeEntries,
      List.nil_append, List.append_nil]
    exact ⟨[f], .cons hrepair .nil, .cons hcarried .nil, hvalid, .one hpair⟩
  | cons g es ih =>
    obtain ⟨f, hrepair, hcarried, hvalid, hpair⟩ := pair_writes (h e (List.mem_cons_self ..))
    obtain ⟨fs, hrepairs, hcarrieds, hvalid', hentries⟩ :=
      ih (fun x hx => hk x (List.mem_cons_of_mem _ hx)) fun x hx =>
        h x (List.mem_cons_of_mem _ hx)
    have hcomma : writeEntries C false (g :: es) = 0x2C :: writeEntries C true (g :: es) := by
      have hg := hk g (List.mem_cons_of_mem _ (List.mem_cons_self ..))
      rw [writeEntries_cons hg, writeEntries_cons hg]
      rfl
    rw [writeEntries_cons (hk e (List.mem_cons_self ..)), if_pos rfl, hcomma, List.nil_append]
    refine ⟨f :: fs, .cons hrepair hrepairs, .cons hcarried hcarrieds, ?_, .cons hpair hentries⟩
    exact hvalid.append (.cons (by decide) hvalid')

theorem Writes.mono {m : ℕ} {v : Value} (hle : m ≤ n) (h : Writes C m v) : Writes C n v := by
  obtain ⟨w, hw, hvalid, hden⟩ := h
  exact ⟨w, hw, hvalid, hden.mono hle⟩

theorem Denotes.of_level {real : Bytes → Double → Prop} {t : Bytes} {v : Value}
    (h : Level (fun _ _ => False) real t v) : Denotes real n t v :=
  Denotes.mono (m := 0) (Nat.zero_le n) h

theorem list_writes {items : List Value} (h : ∀ v ∈ items, v.nesting < n ∧ Writes C v.nesting v) :
    Writes C n (.list items) := by
  cases items with
  | nil =>
    refine ⟨.list [], .list .nil, ?_, .of_level (.nil ws_nil)⟩
    exact .cons (by decide) (.cons (by decide) .nil)
  | cons v vs =>
    obtain ⟨m, rfl⟩ : ∃ m, n = m + 1 := ⟨n - 1, by have := (h v (List.mem_cons_self ..)).1; omega⟩
    obtain ⟨ws, hws, hvalid, hitems⟩ := items_writes fun w hw =>
      (h w hw).2.mono (Nat.le_of_lt_succ (h w hw).1)
    refine ⟨.list ws, .list hws, ?_, Level.list hitems⟩
    exact (ValidUtf8.cons (by decide) hvalid).append (.cons (by decide) .nil)

theorem dict_writes {entries : List (Bytes × Value)}
    (h : ∀ e ∈ entries, e.2.nesting < n ∧ Writes C e.2.nesting e.2) :
    Writes C n (.dict entries) := by
  have hvisible : ∀ e ∈ entries.filter visible, interna e.1 = false := fun e he => by
    simpa [visible] using (List.mem_filter.1 he).2
  have hentry : ∀ e ∈ entries.filter visible, e.2.nesting < n ∧ Writes C e.2.nesting e.2 :=
    fun e he => h e (List.mem_filter.1 he).1
  have htext : (Value.dict entries).writeJson C =
      0x7B :: (writeEntries C true (entries.filter visible) ++ [0x7D]) := by
    rw [Value.writeJson, writeEntries_filter]
    rfl
  cases hes : entries.filter visible with
  | nil =>
    rw [hes] at htext
    have hcarried : Carried (.dict entries) (.dict []) := by
      refine @Carried.dict entries [] ?_ ?_ <;>
      · rw [hes]
        exact .nil
    refine ⟨.dict [], hcarried, ?_, ?_⟩
    · rw [htext]
      exact .cons (by decide) (.cons (by decide) .nil)
    · rw [htext]
      exact .of_level (.empty ws_nil)
  | cons e es =>
    rw [hes] at htext hvisible hentry
    obtain ⟨m, rfl⟩ : ∃ m, n = m + 1 :=
      ⟨n - 1, by have := (hentry e (List.mem_cons_self ..)).1; omega⟩
    obtain ⟨fs, hk, hv, hvalid, hentries⟩ := entries_writes hvisible fun f hf =>
      (hentry f hf).2.mono (Nat.le_of_lt_succ (hentry f hf).1)
    refine ⟨.dict (dictOf fs), .dict (by rwa [hes]) (by rwa [hes]), ?_, ?_⟩
    · rw [htext]
      exact (ValidUtf8.cons (by decide) hvalid).append (.cons (by decide) .nil)
    · rw [htext]
      exact Level.dict hentries

/-- Every value is written. -/
theorem writes_nesting (hC : C.Inverse) (v : Value) : Writes C v.nesting v := by
  match v with
  | .null =>
    exact ⟨.null, .null, .ascii (show ∀ b ∈ ascii "null", b < 0x80 by decide +kernel),
      .of_level .null⟩
  | .bool true =>
    exact ⟨.bool true, .bool _, .ascii (show ∀ b ∈ ascii "true", b < 0x80 by decide +kernel),
      .of_level .true⟩
  | .bool false =>
    exact ⟨.bool false, .bool _, .ascii (show ∀ b ∈ ascii "false", b < 0x80 by decide +kernel),
      .of_level .false⟩
  | .int i =>
    have hden := decimal_denotes (fun t d => C.fromChars t = some d) i
    exact ⟨.int i, .int i, .ascii hden.text.ascii, .of_level (.number hden)⟩
  | .float d =>
    by_cases hd : d.isFinite = true
    · have hden := escribirDouble_denotes hC hd
      exact ⟨.float d, .float hd, .ascii hden.text.ascii, .of_level (.number hden)⟩
    · have hd : d.isFinite = false := Bool.eq_false_iff.2 hd
      have hnull : (Value.float d).writeJson C = ascii "null" := by
        rw [Value.writeJson, escribirDouble, hd]
        rfl
      refine ⟨.null, .notFinite hd, ?_, ?_⟩
      · rw [hnull]
        exact .ascii (by decide +kernel)
      · rw [hnull]
        exact .of_level .null
  | .str s =>
    obtain ⟨u, t, hrepair, hchars, hu, htext⟩ := escapar_chars s
    have hwrite : (Value.str s).writeJson C = 0x22 :: (u ++ [0x22]) := by
      rw [Value.writeJson, htext]
    refine ⟨.str t, .str hrepair, ?_, ?_⟩
    · rw [hwrite]
      exact .cons (by decide) (hu.append (.cons (by decide) .nil))
    · rw [hwrite]
      exact .of_level (.str hchars)
  | .list items => exact list_writes fun w hw => ⟨nesting_of_mem hw, writes_nesting hC w⟩
  | .dict entries =>
    exact dict_writes fun e he => ⟨nesting_of_mem_entries he, writes_nesting hC e.2⟩
termination_by sizeOf v
decreasing_by
  · have := List.sizeOf_lt_of_mem hw
    simp only [Value.list.sizeOf_spec]
    omega
  · have hlt := List.sizeOf_lt_of_mem he
    obtain ⟨k, w⟩ := e
    simp only [Value.dict.sizeOf_spec, Prod.mk.sizeOf_spec] at hlt ⊢
    omega

end Values

/-! ## The document -/

/-- **What is written is a document in UTF-8**, of all that JSON has of the value.  A string
    that is UTF-8 denotes itself, and the blocks of eight bytes that are skipped have nothing
    to escape and nothing to repair. -/
theorem toJsonText_wellFormed {C : Charconv} (hC : C.Inverse) (v : Value) :
    ValidUtf8 (v.toJsonText C) ∧
      (∃ w, Carried v w ∧
        Document (fun t d => C.fromChars t = some d) v.nesting (v.toJsonText C) w) ∧
      (∀ s t, ValidUtf8 s → (Repair s t ↔ t = s)) ∧
      ∀ bs, (∀ b ∈ (bloques (fun w => !bloqueSucio w) bs).1, sucio b = false) ∧
        ∀ b ∈ (bloques (fun w => w &&& tops == 0) bs).1, b < 0x80 := by
  obtain ⟨w, hw, hvalid, hden⟩ := writes_nesting hC v
  have hdoc := Document.mk ws_nil hden ws_nil
  rw [List.nil_append, List.append_nil] at hdoc
  refine ⟨hvalid, ⟨w, hw, hdoc⟩, fun s t hs => ⟨fun h => h.eq_of_valid hs, ?_⟩, fun bs => ⟨?_, ?_⟩⟩
  · rintro rfl
    exact .refl hs
  · exact bloques_forall (fun _ => limpio_of_bloque) bs
  · exact bloques_forall (fun bs hlen hw => lt_of_tops_eq_zero hlen (eq_of_beq hw)) bs

/-- A string with a byte that is no character, behind an internal key. -/
theorem toJsonText_wellFormed_repaired :
    let v := Value.dict [(ascii "__id", .null), (ascii "a", .str [0x61, 0xFF])]
    ValidUtf8 (v.toJsonText charconvOfBits) ∧ ∃ w, Carried v w ∧
      Document (fun t d => charconvOfBits.fromChars t = some d) v.nesting
        (v.toJsonText charconvOfBits) w :=
  ⟨(toJsonText_wellFormed charconvOfBits_inverse _).1,
    (toJsonText_wellFormed charconvOfBits_inverse _).2.1⟩

end Osodio.Json
