import Osodio.Syntax.Complete
import Osodio.Syntax.Progress

/-!
# Whatever is read without a word is in the grammar

An error is noted and the parser goes on, so a rule that notes none has found what it asks for at
each of its steps.  What is said of a rule is about the tokens it has taken, its value, and the
token that it has come to.  On the last token the parser stays when it takes it; it does so without
a word only where that token has a text, and could be the name behind a point.

## Main definitions

- `Fiel` — what a rule has taken when it has noted no error
- `Leida` — an expression and the token that it is read up to

## Main results

- `Fiel.bind`, `Fiel.mientras` — one rule after another, and loops
- `parseExpr_leida`, `parseType_tipo` — expressions and types are in the grammar
-/

namespace Osodio.Syntax

set_option synthInstance.maxSize 1000

/-- The parser has not come to the last token, or that token has no text. -/
def Libre (s : Parser) : Prop := 2 ≤ s.rest.length ∨ ∀ t ∈ s.rest.getLast?, t.text = ""

/-- What is known of the tokens that a rule takes in front of a token, from its first one on, if it
    notes no error. -/
structure Fiel {α : Type} (N : ℕ) (b : Bool) (P : Token → Prop) (x : Parse α)
    (R : List Token → α → Token → Prop) : Prop where
  de : ∀ s t r a s', Buena s → s.rest = t :: r → P t → s.rest.length + b.toNat ≤ N →
    x s = .ok (a, s') → s'.diags = s.diags → Libre s' →
    ∃ ts u r', s'.rest = u :: r' ∧ s.rest = ts ++ u :: r' ∧ R ts a u

section States

variable {s s' s'' : Parser}

theorem Sigue.libre (h : Sigue s s') (hs : Buena s) (hl : Libre s') : Libre s := by
  refine hl.imp (fun hlen => hlen.trans h.le) fun hlast t ht => hlast t ?_
  have := congrArg List.getLast? h.toks
  rw [List.getLast?_append_of_ne_nil _ h.queda, List.getLast?_append_of_ne_nil _ hs.queda] at this
  rwa [this]

/-- What is ahead ends with what is ahead from further on. -/
theorem Sigue.resto (h : Sigue s s') : ∃ ts, s.rest = ts ++ s'.rest := by
  have hlen := congrArg List.length h.toks
  have hle := h.le
  simp only [List.length_append, List.length_reverse] at hlen
  rcases List.append_eq_append_iff.mp h.toks with ⟨as, has, hrest⟩ | ⟨cs, hcs, hrest⟩
  · have := congrArg List.length has
    simp only [List.length_append, List.length_reverse] at this
    obtain rfl : as = [] := List.length_eq_zero_iff.mp (by omega)
    exact ⟨[], hrest.symm⟩
  · exact ⟨cs, hrest⟩

/-- Between two states with the same errors there are no others. -/
theorem Sigue.calla (h : Sigue s s') (h' : Sigue s' s'') (hd : s''.diags = s.diags) :
    s'.diags = s.diags ∧ s''.diags = s'.diags := by
  have hlen := h.diags.length_le
  have hlen' := h'.diags.length_le
  rw [hd] at hlen'
  have heq := h.diags.eq_of_length (le_antisymm hlen hlen')
  exact ⟨heq.symm, hd.trans heq⟩

end States

section Rules

variable {α β σ : Type} {N : ℕ} {b d : Bool} {P Q : Token → Prop} {x y : Parse α}
  {f : α → Parse β} {R S : List Token → α → Token → Prop} {T : List Token → β → Token → Prop}

/-- What a rule comes to is what it is known to come to. -/
theorem Sana.sigue {q : α → Bool} (h : Sana N b d q x) {s s' : Parser} {a : α} (hs : Buena s)
    (hN : s.rest.length + b.toNat ≤ N) (hd : d = true → 2 ≤ s.rest.length)
    (hx : x s = .ok (a, s')) : Sigue s s' ∧ (q a = true → s'.rest.length < s.rest.length) := by
  obtain ⟨a', s₁, hx', hs'⟩ := h.va s hs hN hd
  cases hx.symm.trans hx'
  exact hs'

theorem Fiel.imp (h : Fiel N b P x R) (himp : ∀ ts a u, R ts a u → S ts a u) :
    Fiel N b P x S where
  de s t r a s' hs hr hP hN hx hd hl := by
    obtain ⟨ts, u, r', hrest, hts, hR⟩ := h.de s t r a s' hs hr hP hN hx hd hl
    exact ⟨ts, u, r', hrest, hts, himp _ _ _ hR⟩

theorem Fiel.de_imp (h : Fiel N b Q x R) (himp : ∀ t, P t → Q t) : Fiel N b P x R where
  de s t r a s' hs hr hP := h.de s t r a s' hs hr (himp t hP)

theorem Fiel.pure {a : α} (h : ∀ t, P t → R [] a t) : Fiel N b P (Pure.pure a) R where
  de s t r a' s' hs hr hP hN hx hd hl := by
    cases hx
    exact ⟨[], t, r, hr, hr, h t hP⟩

/-- Less calls may be open behind a token that has been taken. -/
theorem Fiel.succ (h : Fiel N false P x R) : Fiel N b P x R where
  de s t r a s' hs hr hP hN := h.de s t r a s' hs hr hP (by rw [Bool.toNat_false]; omega)

theorem Fiel.bind [Sana N b false nunca x] [∀ a, Sana N b false nunca (f a)]
    (hx : Fiel N b P x R)
    (hf : ∀ ts a u, R ts a u → Fiel N b (· = u) (f a) fun ts' => T (ts ++ ts')) :
    Fiel N b P (x >>= f) T where
  de s t r z s'' hs hr hP hN hz hd hl := by
    obtain ⟨a, s', hxs, hfs⟩ := bind_inv hz
    have hs' := (Sana.sigue (d := false) (q := nunca) inferInstance hs hN (by simp) hxs).1
    have hbuena := hs'.buena hs
    have hN' : s'.rest.length + b.toNat ≤ N := by have := hs'.le; omega
    have hs'' := (Sana.sigue (d := false) (q := nunca) inferInstance hbuena hN' (by simp) hfs).1
    obtain ⟨hcalla, hcalla'⟩ := hs'.calla hs'' hd
    obtain ⟨ts, u, r', hrest, hts, hR⟩ :=
      hx.de s t r a s' hs hr hP hN hxs hcalla (hs''.libre hbuena hl)
    obtain ⟨ts', v, r'', hrest', hts', hT⟩ :=
      (hf ts a u hR).de s' u r' z s'' hbuena hrest rfl hN' hfs hcalla' hl
    refine ⟨ts ++ ts', v, r'', hrest', ?_, hT⟩
    rw [hts, List.append_assoc, ← hts', hrest]

/-- What is not looked at again. -/
theorem Fiel.nada [Sana N b false nunca x] : Fiel N b P x fun _ _ _ => True where
  de s t r a s' hs _ _ hN hx _ _ := by
    have hsigue := (Sana.sigue (d := false) (q := nunca) inferInstance hs hN (by simp) hx).1
    obtain ⟨u, r', hrest⟩ := List.exists_cons_of_ne_nil hsigue.queda
    obtain ⟨ts, hts⟩ := hsigue.resto
    exact ⟨ts, u, r', hrest, hrest ▸ hts, trivial⟩

/-- A whole run, when the last token has no text. -/
theorem Fiel.corre [Sana N false false nunca x] (h : Fiel N false (fun _ => True) x R)
    {s s' : Parser} {a : α} (hs : Buena s) (hmudo : ∀ t ∈ s.rest.getLast?, t.text = "")
    (hN : s.rest.length ≤ N) (hx : x s = .ok (a, s')) (hd : s'.diags = s.diags) :
    ∃ ts u, R ts a u := by
  obtain ⟨t, r, hr⟩ := List.exists_cons_of_ne_nil hs.queda
  have hsigue := (Sana.sigue (b := false) (d := false) (q := nunca) inferInstance hs hN (by simp) hx).1
  have hlast := congrArg List.getLast? hsigue.toks
  rw [List.getLast?_append_of_ne_nil _ hsigue.queda, List.getLast?_append_of_ne_nil _ hs.queda]
    at hlast
  obtain ⟨ts, u, _, _, _, hR⟩ :=
    h.de s t r a s' hs hr trivial hN hx hd (.inr fun t ht => hmudo t (hlast ▸ ht))
  exact ⟨ts, u, hR⟩

/-- A rule that only looks takes nothing. -/
theorem Fiel.peek {f : Token → Parse β} (h : ∀ t, P t → Fiel N b (· = t) (f t) T) :
    Fiel N b P (Syntax.peek >>= f) T where
  de s t r z s' hs hr hP hN hz hd hl := by
    rw [bind_ok (peek_cons hr)] at hz
    exact (h t hP).de s t r z s' hs hr rfl hN hz hd hl

/-- A token is taken if there is another one behind it. -/
theorem Fiel.avanza {f : Token → Parse β}
    (hmas : ∀ s t r z s', Buena s → s.rest = t :: r → P t → s.rest.length + b.toNat ≤ N →
      (Syntax.advance >>= f) s = .ok (z, s') → Libre s' → r ≠ [])
    (h : ∀ t, P t → Fiel N true (fun _ => True) (f t) fun ts => T (t :: ts)) :
    Fiel N b P (Syntax.advance >>= f) T where
  de s t r z s' hs hr hP hN hz hd hl := by
    obtain ⟨u, r, rfl⟩ := List.exists_cons_of_ne_nil (hmas s t r z s' hs hr hP hN hz hl)
    have hadvance : Syntax.advance s = .ok (t, { s with past := t :: s.past, rest := u :: r }) := by
      rw [Syntax.advance, hr]
    have hsigue := Sana.sigue (N := s.rest.length) (d := false) (b := false) (q := nunca)
      inferInstance hs le_rfl (by simp) hadvance
    rw [bind_ok hadvance] at hz
    rw [hr] at hN ⊢
    obtain ⟨ts, v, r', hrest, hts, hT⟩ := (h t hP).de _ u r z s' (hsigue.1.buena hs) rfl trivial
      (by simp only [List.length_cons, Bool.toNat_true] at hN ⊢; omega) hz hd hl
    exact ⟨t :: ts, v, r', hrest, congrArg (t :: ·) hts, hT⟩

theorem Fiel.advance {f : Token → Parse β} (hfin : ∀ t, P t → t.kind ≠ .endOfFile)
    (h : ∀ t, P t → Fiel N true (fun _ => True) (f t) fun ts => T (t :: ts)) :
    Fiel N b P (Syntax.advance >>= f) T := by
  refine .avanza (fun s t r z s' hs hr hP _ _ _ hnil => ?_) h
  have := hs.dos_rest hr (hfin t hP)
  rw [hr, hnil] at this
  exact absurd this (by simp)

/-- A token with a text is not the last one, where the parser does not come to that with one. -/
theorem Fiel.advance_texto {f : Token → Parse β} [∀ t, Sana N b false nunca (f t)]
    (htexto : ∀ t, P t → t.text ≠ "")
    (h : ∀ t, P t → Fiel N true (fun _ => True) (f t) fun ts => T (t :: ts)) :
    Fiel N b P (Syntax.advance >>= f) T := by
  refine .avanza (fun s t r z s' hs hr hP hN hz hl hnil => ?_) h
  have hbind : Sana N b false nunca (Syntax.advance >>= f) := inferInstance
  rw [hnil] at hr
  rcases (hbind.sigue hs hN (by simp) hz).1.libre hs hl with hdos | hlast
  · rw [hr] at hdos
    exact absurd hdos (by simp)
  · exact htexto t hP (hlast t (by rw [hr]; rfl))

/-- The token behind is the one just taken. -/
theorem Fiel.advance_prev {f : Token → Parse β} (hfin : ∀ t, P t → t.kind ≠ .endOfFile)
    (h : ∀ t, P t → Fiel N true (fun _ => True) (f t) fun ts => T (t :: ts)) :
    Fiel N b P (Syntax.advance >>= fun _ => Syntax.prev >>= f) T where
  de s t r z s' hs hr hP hN hz hd hl := by
    obtain ⟨u, r, rfl⟩ : ∃ u r', r = u :: r' := by
      have := hs.dos_rest hr (hfin t hP)
      rw [hr] at this
      exact List.exists_cons_of_length_pos (Nat.le_of_succ_le_succ this)
    have hadvance : Syntax.advance s = .ok (t, { s with past := t :: s.past, rest := u :: r }) := by
      rw [Syntax.advance, hr]
    have hsame : (Syntax.advance >>= f) s = .ok (z, s') := by
      rw [bind_ok hadvance] at hz ⊢
      exact hz
    exact (Fiel.advance hfin h).de s t _ z s' hs hr hP hN hsame hd hl

theorem Fiel.cuando {k : Tok} {hk : k ≠ .endOfFile} (hx : Fiel N b (fun t => P t ∧ t.kind = k) x R)
    (hy : Fiel N b (fun t => P t ∧ t.kind ≠ k) y R) : Fiel N b P (Syntax.cuando k x y hk) R where
  de s t r a s' hs hr hP hN hz hd hl := by
    have hcheck : Syntax.cuando k x y hk s = (if decide (t.kind = k) then x else y) s :=
      bind_ok (bind_ok (peek_cons hr))
    rw [hcheck] at hz
    by_cases ht : t.kind = k
    · rw [if_pos (decide_eq_true ht)] at hz
      exact hx.de s t r a s' hs hr ⟨hP, ht⟩ hN hz hd hl
    · rw [if_neg (by simpa using ht)] at hz
      exact hy.de s t r a s' hs hr ⟨hP, ht⟩ hN hz hd hl

theorem Fiel.toma {k : Tok} {hk : k ≠ .endOfFile} {x : Token → Parse α}
    (hx : ∀ t, P t → t.kind = k → Fiel N true (fun _ => True) (x t) fun ts => R (t :: ts))
    (hy : Fiel N b (fun t => P t ∧ t.kind ≠ k) y R) : Fiel N b P (Syntax.toma k x y hk) R :=
  .cuando (.advance (fun _ ht => ht.2 ▸ hk) fun t ht => hx t ht.1 ht.2) hy

/-- Behind an error there is nothing to say. -/
theorem Fiel.error {m : String} {f : Unit → Parse β} [∀ a, Sana N b false nunca (f a)] :
    Fiel N b P (errorHere m >>= f) T where
  de s t r z s'' hs hr hP hN hz hd hl := by
    have herror : errorHere m s = .ok ((), { s with diags := s.diags ++ [m] }) :=
      bind_ok (peek_cons hr)
    have hsigue := (Sana.sigue (N := s.rest.length) (d := false) (b := false) (q := nunca)
      inferInstance hs le_rfl (by simp) herror).1
    rw [bind_ok herror] at hz
    have hs'' := (Sana.sigue (d := false) (q := nunca) inferInstance (hsigue.buena hs) hN (by simp)
      hz).1
    have hlen := hs''.diags.length_le
    rw [hd] at hlen
    simp only [List.length_append, List.length_singleton] at hlen
    omega

theorem Fiel.diagSi {cond : Bool} {m : String} {f : Unit → Parse β}
    [∀ a, Sana N b false nunca (f a)] (h : cond = false → Fiel N b P (f ()) T) :
    Fiel N b P (Syntax.diagSi cond m >>= f) T where
  de s t r z s'' hs hr hP hN hz hd hl := by
    cases cond with
    | false => exact (h rfl).de s t r z s'' hs hr hP hN hz hd hl
    | true =>
      have hsame : (errorHere m >>= f) s = (Syntax.diagSi true m >>= f) s := by
        rw [bind_ok (x := errorHere m) (bind_ok (peek_cons hr))]
        rfl
      exact Fiel.error.de s t r z s'' hs hr hP hN (hsame.trans hz) hd hl

theorem Fiel.expect {k : Tok} {hk : k ≠ .endOfFile} {context : String} {f : Bool → Parse β}
    [∀ a, Sana N b false nunca (f a)]
    (h : ∀ t, P t → t.kind = k → Fiel N true (fun _ => True) (f true) fun ts => T (t :: ts)) :
    Fiel N b P (Syntax.expect k context hk >>= f) T where
  de s t r z s'' hs hr hP hN hz hd hl := by
    obtain ⟨ok, s', hx, hf⟩ := bind_inv hz
    by_cases ht : t.kind = k
    · have htake : (Syntax.advance >>= fun _ => f true) s = .ok (z, s'') := by
        obtain ⟨u, s₁, hadv, hpure⟩ := bind_inv (by
          have hcheck : Syntax.expect k context hk s =
              (if decide (t.kind = k) then Syntax.advance >>= fun _ => return true else _) s :=
            bind_ok (bind_ok (peek_cons hr))
          rw [hcheck, if_pos (decide_eq_true ht)] at hx
          exact hx)
        cases hpure
        rw [bind_ok hadv, hf]
      exact (Fiel.advance (P := fun u => P u ∧ u.kind = k) (fun _ hu => hu.2 ▸ hk)
        fun u hu => h u hu.1 hu.2).de s t r z s'' hs hr ⟨hP, ht⟩ hN htake hd hl
    · -- what is not there is missed
      have hmiss : ∃ m, s' = { s with diags := s.diags ++ [m] } := by
        have hcheck : Syntax.expect k context hk s = (if decide (t.kind = k) then _ else do
            errorHere ("se esperaba '" ++ tokName k ++ "' " ++ context ++ ", pero hay '" ++
              tokName (← Syntax.peek).kind ++ "'")
            return false) s := bind_ok (bind_ok (peek_cons hr))
        rw [hcheck, if_neg (by simpa using ht), bind_ok (peek_cons hr),
          bind_ok (x := errorHere _) (bind_ok (peek_cons hr))] at hx
        cases hx
        exact ⟨_, rfl⟩
      obtain ⟨m, rfl⟩ := hmiss
      have herror : (errorHere m >>= fun _ => f ok) s = .ok (z, s'') := by
        rw [bind_ok (x := errorHere m) (bind_ok (peek_cons hr)), hf]
      exact Fiel.error.de s t r z s'' hs hr hP hN herror hd hl

/-- A loop keeps `I` from turn to turn, and ends with `J`. -/
theorem Fiel.mientras {p : Tok → Bool} {cuerpo : σ → Parse (σ ⊕ σ)} {hp : p .endOfFile = false}
    {I J : List Token → σ → Token → Prop} [hc : ∀ a, Sana N b true vuelve (cuerpo a)]
    (hturno : ∀ ts a u, I ts a u → p u.kind = true → Fiel N b (· = u) (cuerpo a) fun ts' y v =>
      y.elim (fun a' => I (ts ++ ts') a' v) fun a' => J (ts ++ ts') a' v)
    (hfin : ∀ ts a u, I ts a u → p u.kind = false → J ts a u) (ts : List Token) (a : σ) :
    Fiel N b (I ts a) (Syntax.mientras p cuerpo a hp) fun ts' a' v => J (ts ++ ts') a' v where
  de s t r a' s' hs hr hI hN hx hd hl := by
    replace hx : Syntax.vueltas (fun a => do
      if p (← Syntax.peek).kind then cuerpo a else return .inr a) (s.rest.length + 1) a s =
        .ok (a', s') := hx
    have hn : s.rest.length < s.rest.length + 1 := Nat.lt_succ_self _
    generalize s.rest.length + 1 = n at hn hx
    induction n generalizing ts a s t r with
    | zero => cases hx
    | succ n ih =>
      have hpeek : ∀ z, z = (do if p (← Syntax.peek).kind then cuerpo a else return .inr a) s →
          z = (if p t.kind then cuerpo a else return .inr a) s := fun z hz =>
        hz.trans (bind_ok (peek_cons hr))
      dsimp only [Syntax.vueltas] at hx
      split at hx
      · next a₁ s₁ hturn =>
        have hgo := hpeek _ hturn.symm
        split at hgo
        · next hpt =>
          have hdos := hs.dos_rest hr (fun hk => by rw [hk, hp] at hpt; cases hpt)
          obtain ⟨hs₁, -⟩ := (hc a).sigue hs hN (fun _ => hdos) hgo.symm
          split at hx
          · next hlt =>
            have hbuena := hs₁.buena hs
            have hN₁ : s₁.rest.length + b.toNat ≤ N := by omega
            obtain ⟨a₂, s₂, hv, hs₂⟩ :=
              Sana.vueltas (Sana.turno hp hc) n a₁ s₁ hbuena hN₁ (by omega)
            cases hx.symm.trans hv
            obtain ⟨hcalla, hcalla'⟩ := hs₁.calla hs₂ hd
            obtain ⟨ts₁, u, r₁, hrest, hts, hI₁⟩ := (hturno ts a t hI hpt).de s t r _ s₁ hs hr rfl
              hN hgo.symm hcalla (hs₂.libre hbuena hl)
            obtain ⟨ts₂, v, r₂, hrest₂, hts₂, hJ⟩ :=
              ih (ts ++ ts₁) a₁ s₁ u r₁ hbuena hrest hI₁ hN₁ hcalla' (by omega) hx
            refine ⟨ts₁ ++ ts₂, v, r₂, hrest₂, ?_, ?_⟩
            · rw [hts, List.append_assoc, ← hts₂, hrest]
            · rwa [List.append_assoc] at hJ
          · cases hx
        · cases hgo
      · next a₁ s₁ hturn =>
        cases hx
        have hgo := hpeek _ hturn.symm
        split at hgo
        · next hpt => exact (hturno ts a t hI hpt).de s t r _ s' hs hr rfl hN hgo.symm hd hl
        · next hpt =>
          cases hgo
          refine ⟨[], t, r, hr, hr, ?_⟩
          rw [List.append_nil]
          exact hfin ts _ t hI (Bool.eq_false_iff.mpr hpt)
      · cases hx

end Rules

/-! ## Expressions -/

/-- An expression of a level, up to a token that does not go on with it. -/
def Leida (c : Entorno) (n : ℕ) (ts : List Token) (e : Expr) (u : Token) : Prop :=
  Deriva c n ts e ∧ sigueNivel n u.kind = false

theorem sigueNivel_ocho {k : Tok} : sigueNivel 8 k = siguePostfijo k := by
  cases k <;> rfl

/-- What goes on with an expression goes on with the level above, or is an operator of its own. -/
theorem sigueNivel_succ {n : ℕ} {k : Tok} (hn : 0 < n) (hn' : n < 9)
    (h : sigueNivel (n + 1) k = false) (hk : nivelDe k ≠ some n) : sigueNivel n k = false := by
  simp only [sigueNivel, Bool.or_eq_false_iff, Bool.and_eq_false_iff, decide_eq_false_iff_not]
    at h ⊢
  obtain ⟨⟨hpost, hlevel⟩, -⟩ := h
  refine ⟨⟨hpost.imp_right (by omega), ?_⟩, .inr (by omega)⟩
  cases hm : nivelDe k with
  | none => rfl
  | some m =>
    rw [hm] at hlevel hk
    simp only [Option.any_some, decide_eq_false_iff_not, ne_eq, Option.some.injEq] at hlevel hk ⊢
    omega

theorem Leida.baja {c : Entorno} {n : ℕ} {ts : List Token} {e : Expr} {u : Token} (hn : 0 < n)
    (hn' : n < 9) (h : Leida c (n + 1) ts e u) (hu : nivelDe u.kind ≠ some n) : Leida c n ts e u :=
  ⟨.sube (by omega) h.1, sigueNivel_succ hn hn' h.2 hu⟩

/-- The rules that are called again read what is in the grammar. -/
structure Recur.Fiel (c : Entorno) (N : ℕ) (r : Recur) : Prop where
  expr : Syntax.Fiel N true (fun _ => True) r.expr (Leida c 0)
  not : Syntax.Fiel N true (fun _ => True) r.not (Leida c 3)
  unary : Syntax.Fiel N true (fun _ => True) r.unary (Leida c 8)
  type : Syntax.Fiel N true (fun _ => True) r.type fun ts T _ => Tipo ts T

theorem Recur.Fiel.deriva {c : Entorno} {N : ℕ} {r : Recur} (hr : r.Fiel c N) :
    Syntax.Fiel N true (fun _ => True) r.expr fun ts e _ => Deriva c 0 ts e :=
  hr.expr.imp fun _ _ _ h => h.1

section Parser

variable {c : Entorno} {N : ℕ} {b : Bool} {r : Recur} [r.Sana N]

/-- The elements of a list, up to what closes it: what they are with one more in front is known. -/
theorem Fiel.separados {α : Type} {cierre : Tok} {uno : Parse α} {R : List Token → List α → Prop}
    {S : List Token → α → Prop} [Sana N b false nunca uno]
    (huno : Fiel N b (fun _ => True) uno fun ts x _ => S ts x) (hnil : R [] [])
    (hcons : ∀ ts x, S ts x → R ts [x] ∧ ∀ co ts' xs, co.kind = .comma → R ts' xs →
      R (ts ++ co :: ts') (x :: xs)) :
    Fiel N b (fun _ => True) (Syntax.separados cierre uno) fun ts xs _ => R ts xs := by
  have hturno : ∀ ts xs u, (∀ ts' ys, R ts' ys → R (ts ++ ts') (xs ++ ys)) → Fiel N b (· = u)
      (do
        let x ← uno
        Syntax.toma .comma (fun _ => return .inl (xs ++ [x])) (return .inr (xs ++ [x])) :
          Parse (List α ⊕ List α)) fun ts₁ y _ =>
      y.elim (fun xs' => ∀ ts' ys, R ts' ys → R (ts ++ ts₁ ++ ts') (xs' ++ ys))
        fun xs' => R (ts ++ ts₁) xs' := by
    intro ts xs u hI
    refine .bind (huno.de_imp fun _ _ => trivial) fun ts₁ x v hx => .toma (fun t _ ht => ?_) ?_
    · refine .pure fun _ _ ts' ys hR => ?_
      have := hI _ _ ((hcons ts₁ x hx).2 t ts' ys ht hR)
      simpa using this
    · refine .pure fun _ _ => ?_
      have := hI _ _ (hcons ts₁ x hx).1
      simpa using this
  unfold Syntax.separados
  -- the elements up to here, with a comma behind them
  exact (Fiel.mientras (I := fun ts xs _ => ∀ ts' ys, R ts' ys → R (ts ++ ts') (xs ++ ys))
    (J := fun ts xs _ => R ts xs) (fun ts xs u hI _ => hturno ts xs u hI)
    (fun ts xs u hI _ => by simpa using hI [] [] hnil) [] []).de_imp fun _ _ _ _ h => h

/-! ### Operators -/

/-- A level of binary operators, if the level below is known. -/
theorem Fiel.izquierda {P : Token → Prop} {n : ℕ} {ops : Tok → Bool} {sub : Parse Expr}
    {h : ops .endOfFile = false} [Sana N b false nunca sub] [Sana N true false nunca sub]
    (hops : ∀ k, ops k = true ↔ nivelDe k = some n) (hn : 0 < n) (hn' : n < 9)
    (hsub : Fiel N b P sub (Leida c (n + 1)))
    (hsub' : Fiel N true (fun _ => True) sub (Leida c (n + 1))) :
    Fiel N b P (Syntax.izquierda ops sub h) (Leida c n) := by
  -- what is read so far, up to what does not go on with its last operand
  have hturno : ∀ ts l u, Deriva c n ts l ∧ sigueNivel (n + 1) u.kind = false →
      ops u.kind = true → Fiel N b (· = u) (do
      let op ← Syntax.advance
      let r ← sub
      return .inl (binario op.kind l r) : Parse (Expr ⊕ Expr)) fun ts' y v =>
        y.elim (fun e => Deriva c n (ts ++ ts') e ∧ sigueNivel (n + 1) v.kind = false)
          fun e => Leida c n (ts ++ ts') e v := by
    intro ts l u hl hu
    refine .advance (fun t ht => ?_) fun t ht => .bind hsub' fun ts' r v hr => .pure fun w hw => ?_
    · rintro hk
      rw [← ht, hk, h] at hu
      cases hu
    · have := Deriva.binario ((hops _).mp hu) hl.1 hr.1
      refine ⟨by simpa [ht] using this, ?_⟩
      rw [hw]
      exact hr.2
  unfold Syntax.izquierda
  refine .bind hsub fun ts l u hl => ?_
  refine (Fiel.mientras (I := fun ts l u => Deriva c n ts l ∧ sigueNivel (n + 1) u.kind = false)
    (J := Leida c n) (fun ts l u hl hu => hturno ts l u hl hu) (fun ts l u hl hu => ?_) ts l).de_imp
    fun v (hv : v = u) => hv ▸ ⟨.sube (by omega) hl.1, hl.2⟩
  refine ⟨hl.1, sigueNivel_succ hn hn' hl.2 fun hk => ?_⟩
  rw [(hops _).mpr hk] at hu
  cases hu

/-! ### Arguments -/

/-- The name of an argument, or no token and no name, if there has been none before. -/
theorem parseArgName_fiel {seenNamed : Bool} :
    Fiel N b (fun _ => True) (parseArgName seenNamed) fun ts n _ =>
      (∃ i q : Token, ts = [i, q] ∧ i.kind = .ident ∧ q.kind = .assign ∧ n = (i.text, true)) ∨
        ts = [] ∧ seenNamed = false ∧ n = ("", false) := by
  refine .peek fun t _ => ⟨fun s t' r n s' hs hr ht hN hx hd hl => ?_⟩
  obtain rfl : t' = t := ht
  obtain ⟨u, s₁, hmira, hgo⟩ := bind_inv hx
  have hu : s₁ = s ∧ s.mira 1 = some u := by
    rw [peekAt] at hmira
    split at hmira
    · cases hmira
      exact ⟨rfl, ‹_›⟩
    · cases hmira
  obtain ⟨rfl, hu⟩ := hu
  by_cases hkinds : t'.kind = .ident ∧ u.kind = .assign
  · rw [if_pos hkinds] at hgo
    -- the second token is there, and so is one behind it
    obtain ⟨v, r, rfl⟩ : ∃ v r', r = v :: r' := by
      have := hs.dos_rest hr (by rw [hkinds.1]; decide)
      rw [hr] at this
      exact List.exists_cons_of_length_pos (Nat.le_of_succ_le_succ this)
    obtain rfl : v = u := by
      rw [Parser.mira, hr] at hu
      exact Option.some.inj hu
    cases r with
    | nil =>
      have := hs.fin v (by rw [hr]; rfl)
      rw [hkinds.2] at this
      cases this
    | cons w r =>
      have hadvance : advance s₁ =
          .ok (t', { s₁ with past := t' :: s₁.past, rest := v :: w :: r }) := by
        rw [advance, hr]
      rw [bind_ok hadvance] at hgo
      cases hgo
      exact ⟨[t', v], w, r, rfl, hr, .inl ⟨t', v, rfl, hkinds.1, hkinds.2, rfl⟩⟩
  · rw [if_neg hkinds] at hgo
    split at hgo
    · have hfiel : Fiel N b (fun _ => True) (do
          errorHere "los argumentos posicionales van antes que los nombrados"
          return ("", true)) fun _ (_ : String × Bool) _ => False := .error
      obtain ⟨_, _, _, _, _, hno⟩ := hfiel.de _ _ _ _ _ hs hr trivial hN hgo hd hl
      cases hno
    · next hseen =>
      cases hgo
      exact ⟨[], t', r, hr, hr, .inr ⟨rfl, Bool.eq_false_iff.mpr hseen, rfl⟩⟩

theorem parseArgs_fiel (hr : r.Fiel c N) :
    Fiel N true (fun _ => True) (parseArgs r) fun ts as _ => Args c false ts as := by
  have hturno : ∀ ts (a : List (String × Expr) × Bool) u,
      (∀ ts' as, Args c a.2 ts' as → Args c false (ts ++ ts') (a.1 ++ as)) → Fiel N true (· = u) (do
        let n ← parseArgName a.2
        let value ← r.expr
        Syntax.toma .comma (fun _ => return .inl (a.1 ++ [(n.1, value)], n.2))
          (return .inr (a.1 ++ [(n.1, value)], n.2)) :
          Parse ((List (String × Expr) × Bool) ⊕ (List (String × Expr) × Bool))) fun ts₁ y _ =>
      y.elim (fun a' => ∀ ts' as, Args c a'.2 ts' as → Args c false (ts ++ ts₁ ++ ts') (a'.1 ++ as))
        fun a' => Args c false (ts ++ ts₁) a'.1 := by
    intro ts a u hI
    refine .bind (parseArgName_fiel.de_imp fun _ _ => trivial) fun ts₁ n _ hn => ?_
    refine .bind (hr.deriva.de_imp fun _ _ => trivial) fun ts₂ e _ he => ?_
    have harg : Arg c a.2 (ts₁ ++ ts₂) (n.1, e) n.2 := by
      rcases hn with ⟨i, q, rfl, hi, hq, rfl⟩ | ⟨rfl, hseen, rfl⟩
      · exact .nombrado hi hq he
      · rw [hseen]
        exact .posicional he
    refine .toma (fun t _ ht => .pure fun _ _ ts' as hargs => ?_) (.pure fun _ _ => ?_)
    · have := hI _ _ (.mas harg ht hargs)
      simpa using this
    · have := hI _ _ (.uno harg)
      simpa using this
  unfold parseArgs
  refine .bind (R := fun ts a _ => Args c false ts a.1) ?_ fun ts a _ ha => .pure fun _ _ => ?_
  · exact (Fiel.mientras
      (I := fun ts a _ => ∀ ts' as, Args c a.2 ts' as → Args c false (ts ++ ts') (a.1 ++ as))
      (J := fun ts a _ => Args c false ts a.1) (fun ts a u hI _ => hturno ts a u hI)
      (fun ts a u hI _ => by simpa using hI [] [] .nil) [] ([], false)).de_imp fun _ _ _ _ h => h
  · rwa [List.append_nil]

/-! ### What follows an expression -/

theorem parseOperador_fiel (hr : r.Fiel c N) {e : Expr} :
    Fiel N b (fun t => siguePostfijo t.kind = true) (parseOperador r e) fun ts y _ =>
      ∃ e', y = .inl e' ∧ ∀ pre, Deriva c 9 pre e → Deriva c 9 (pre ++ ts) e' := by
  refine .advance (fun t ht hk => by rw [hk] at ht; cases ht) fun op hop => ?_
  split
  · next hk =>
    refine .diagSi fun he => .pure fun _ _ => ⟨_, rfl, fun pre hpre => ?_⟩
    exact .despues (.inl hk) hpre (by simpa using he)
  · next hk =>
    refine .diagSi fun he => .pure fun _ _ => ⟨_, rfl, fun pre hpre => ?_⟩
    exact .despues (.inr hk) hpre (by simpa using he)
  · next hk =>
    refine .peek fun t _ => ?_
    split
    · next ht =>
      have hcampo : ∀ u, t = u → Fiel N true (fun _ => True)
          (return .inl { kind := .member, text := u.text, object := e } : Parse (Expr ⊕ Expr))
          fun ts y _ => ∃ e', y = .inl e' ∧
            ∀ pre, Deriva c 9 pre e → Deriva c 9 (pre ++ op :: t :: ts) e' := by
        rintro u rfl
        exact .pure fun _ _ => ⟨_, rfl, fun pre hpre => .campo hpre hk ht⟩
      by_cases htext : t.text = ""
      · refine .advance (fun u hu => ?_) fun u hu => ?_
        · rw [hu, ht.resolve_right fun h => h htext]
          decide
        · obtain rfl : u = t := hu
          exact hcampo u rfl
      · refine .advance_texto (fun u hu => hu ▸ htext) fun u hu => ?_
        obtain rfl : u = t := hu
        exact hcampo u rfl
    · exact .error
  · next hk =>
    refine .bind (parseArgs_fiel hr) fun ts args _ hargs => .expect fun g _ hg => ?_
    refine .pure fun _ _ => ?_
    exact ⟨_, rfl, fun pre hpre => .llamada hpre hk hargs hg⟩
  · next h₁ h₂ h₃ h₄ =>
    have hk : op.kind = .lBracket := by
      revert hop h₁ h₂ h₃ h₄
      cases op.kind <;> simp [siguePostfijo]
    refine .bind hr.deriva fun ts i _ hi => .expect fun g _ hg => .pure fun _ _ => ?_
    exact ⟨_, rfl, fun pre hpre => .indice hpre hk hi hg⟩

/-! ### From the tightest level to the loosest one -/

/-- What needs nothing around it, or what is waited for, which goes on as far as it can. -/
theorem parsePrimary_fiel (hr : r.Fiel c N) :
    Fiel N false (fun _ => True) (parsePrimary c r) fun ts e u =>
      Deriva c 10 ts e ∨ Deriva c 8 ts e ∧ siguePostfijo u.kind = false := by
  refine .peek fun t _ => ?_
  -- the kinds that are an expression by themselves
  have hatomo : ∀ {f : Token → Expr}, t.kind ≠ .endOfFile → atomo c t = some (f t) →
      Fiel N false (· = t) (advance >>= fun _ => prev >>= fun t => return f t) fun ts e u =>
        Deriva c 10 ts e ∨ Deriva c 8 ts e ∧ siguePostfijo u.kind = false := by
    intro f hfin h
    refine .advance_prev (fun u hu => hu ▸ hfin) fun u hu => .pure fun _ _ => .inl ?_
    obtain rfl : u = t := hu
    exact .atomo h
  have hsolo : ∀ {e : Expr}, t.kind ≠ .endOfFile → atomo c t = some e →
      Fiel N false (· = t) (advance >>= fun _ => return e) fun ts e u =>
        Deriva c 10 ts e ∨ Deriva c 8 ts e ∧ siguePostfijo u.kind = false := by
    intro e hfin h
    refine .advance (fun u hu => hu ▸ hfin) fun u hu => .pure fun _ _ => .inl ?_
    obtain rfl : u = t := hu
    exact .atomo h
  have hkind : ∀ {k : Tok}, t.kind = k → k ≠ .endOfFile → t.kind ≠ .endOfFile := fun h hk => h ▸ hk
  split
  · next hk => exact hatomo (hkind hk (by decide)) (by rw [atomo, hk])
  · next hk => exact hatomo (hkind hk (by decide)) (by rw [atomo, hk])
  · next hk => exact hatomo (hkind hk (by decide)) (by rw [atomo, hk])
  · next hk =>
    exact hatomo (f := fun t => { kind := .boolLit, boolValue := t.kind = .kwTrue })
      (hkind hk (by decide)) (by rw [atomo, hk])
  · next hk =>
    exact hatomo (f := fun t => { kind := .boolLit, boolValue := t.kind = .kwTrue })
      (hkind hk (by decide)) (by rw [atomo, hk])
  · next hk => exact hsolo (hkind hk (by decide)) (by rw [atomo, hk])
  · next hk => exact hsolo (hkind hk (by decide)) (by rw [atomo, hk])
  · next hk =>
    refine .advance (fun u hu => hu ▸ hkind hk (by decide)) fun u hu => .bind hr.unary ?_
    rintro ts e v ⟨he, hv⟩
    refine .pure fun w hw => .inr ⟨?_, hw ▸ sigueNivel_ocho ▸ hv⟩
    rw [List.append_nil]
    exact .espera (hu ▸ hk) he
  · next hk => exact hatomo (hkind hk (by decide)) (by rw [atomo, hk])
  · next hk => exact hatomo (hkind hk (by decide)) (by rw [atomo, hk])
  · next hk => exact hatomo (hkind hk (by decide)) (by rw [atomo, hk])
  · next hk => exact hatomo (hkind hk (by decide)) (by rw [atomo, hk])
  · next hk =>
    refine .advance (fun u hu => hu ▸ hkind hk (by decide)) fun u hu => .bind hr.deriva ?_
    exact fun ts e v he => .expect fun g _ hg => .pure fun _ _ => .inl (.grupo (hu ▸ hk) he hg)
  · next hk =>
    refine .advance (fun u hu => hu ▸ hkind hk (by decide)) fun u hu =>
      .bind (.separados (R := Items c) (S := Deriva c 0) hr.deriva .nil fun ts e he =>
        ⟨.uno he, fun co ts' es hco hes => .mas he hco hes⟩) ?_
    exact fun ts items v h => .expect fun g _ hg => .pure fun _ _ => .inl (.lista (hu ▸ hk) h hg)
  · next hk =>
    refine .advance (fun u hu => hu ▸ hkind hk (by decide)) fun u hu =>
      .bind (.separados (R := Entradas c) (S := fun ts x => ∃ ks co vs, ts = ks ++ co :: vs ∧
        co.kind = .colon ∧ Deriva c 0 ks x.1 ∧ Deriva c 0 vs x.2) ?_ .nil ?_) ?_
    · refine .bind hr.deriva fun ks k _ hkey => .expect fun co _ hco => ?_
      refine .bind hr.deriva fun vs v _ hvalue => .pure fun _ _ => ?_
      refine ⟨ks, co, vs, ?_, hco, hkey, hvalue⟩
      rw [List.append_nil]
    · rintro ts ⟨k, v⟩ ⟨ks, co, vs, rfl, hco, hkey, hvalue⟩
      exact ⟨.uno hkey hco hvalue, fun s ts' es hs hes => .mas hkey hco hvalue hs hes⟩
    · exact fun ts items v h => .expect fun g _ hg => .pure fun _ _ => .inl (.dict (hu ▸ hk) h hg)
  · exact .error

theorem parsePostfix_fiel (hr : r.Fiel c N) :
    Fiel N false (fun _ => True) (parsePostfix c r) fun ts e u =>
      Deriva c 8 ts e ∧ siguePostfijo u.kind = false := by
  have := parsePrimary_fin (N := N) (c := c) (r := r)
  refine .bind (parsePrimary_fiel hr) fun ts e u he => ?_
  refine (Fiel.mientras
    (I := fun ts e u => Deriva c 9 ts e ∨ Deriva c 8 ts e ∧ siguePostfijo u.kind = false)
    (J := fun ts e u => Deriva c 8 ts e ∧ siguePostfijo u.kind = false)
    (fun ts e u hI hu => ?_) (fun ts e u hI hu => ?_) ts e).de_imp ?_
  · refine ((parseOperador_fiel hr).de_imp fun t (ht : t = u) => ht ▸ hu).imp ?_
    rintro ts' y v ⟨e', rfl, hstep⟩
    refine .inl (hstep ts ?_)
    rcases hI with he | ⟨-, hno⟩
    · exact he
    · rw [hno] at hu
      cases hu
  · exact hI.elim (fun he => ⟨.sube (by decide) he, hu⟩) id
  · rintro t rfl
    exact he.imp_left (.sube (by decide))

theorem parseUnary_fiel (hr : r.Fiel c N) :
    Fiel N false (fun _ => True) (parseUnary c r) (Leida c 8) := by
  refine .peek fun t _ => ?_
  have hstep : t.kind = .plusPlus ∨ t.kind = .minusMinus → Fiel N false (· = t) (do
      let op ← advance
      let lhs ← r.unary
      diagSi (!assignable lhs) soloVariables
      return ({ kind := .preStep, text := masMenos op.kind, lhs := lhs } : Expr)) (Leida c 8) := by
    intro hk
    refine .advance (fun u hu => ?_) fun u hu => .bind hr.unary ?_
    · rw [hu]
      rcases hk with hk | hk <;> rw [hk] <;> decide
    · rintro ts e v ⟨he, hv⟩
      refine .diagSi fun hassign => .pure fun w hw => ⟨?_, hw ▸ hv⟩
      rw [List.append_nil]
      exact .antes (hu ▸ hk) he (by simpa using hassign)
  split
  · next hk => exact hstep (.inl hk)
  · next hk => exact hstep (.inr hk)
  · next hk =>
    refine .advance (fun u hu => by rw [hu, hk]; decide) fun u hu => .bind hr.unary ?_
    rintro ts e v ⟨he, hv⟩
    refine .pure fun w hw => ⟨?_, hw ▸ hv⟩
    rw [List.append_nil]
    exact .menos (hu ▸ hk) he
  · refine ((parsePostfix_fiel hr).de_imp fun _ _ => trivial).imp fun ts e u h => ⟨h.1, ?_⟩
    rw [sigueNivel_ocho]
    exact h.2

/-- A level of binary operators with the rule of the level below. -/
theorem Fiel.nivel {n : ℕ} {ops : Tok → Bool} {sub : Parse Expr} {h : ops .endOfFile = false}
    [Sana N false false nunca sub] [Sana N true false nunca sub]
    (hops : ∀ k, ops k = true ↔ nivelDe k = some n) (hn : 0 < n) (hn' : n < 9)
    (hsub : Fiel N false (fun _ => True) sub (Leida c (n + 1))) :
    Fiel N false (fun _ => True) (Syntax.izquierda ops sub h) (Leida c n) :=
  .izquierda hops hn hn' hsub hsub.succ

theorem parseEquality_fiel (hr : r.Fiel c N) :
    Fiel N false (fun _ => True) (parseEquality c r) (Leida c 4) := by
  have hproduct : Fiel N false (fun _ => True) (parseProduct c r) (Leida c 7) :=
    .nivel (fun k => by cases k <;> decide) (by decide) (by decide) (parseUnary_fiel hr)
  have hsum : Fiel N false (fun _ => True) (parseSum c r) (Leida c 6) :=
    .nivel (fun k => by cases k <;> decide) (by decide) (by decide) hproduct
  have hcomparison : Fiel N false (fun _ => True) (parseComparison c r) (Leida c 5) :=
    .nivel (fun k => by cases k <;> decide) (by decide) (by decide) hsum
  exact .nivel (fun k => by cases k <;> decide) (by decide) (by decide) hcomparison

theorem parseNot_fiel (hr : r.Fiel c N) :
    Fiel N false (fun _ => True) (parseNot c r) (Leida c 3) := by
  refine .toma (fun t _ ht => .bind hr.not fun ts e v he => .pure fun w hw => ?_) ?_
  · rw [List.append_nil]
    exact ⟨.no ht he.1, hw ▸ he.2⟩
  · refine ((parseEquality_fiel hr).de_imp fun _ _ => trivial).imp fun _ _ u he => ?_
    exact he.baja (by decide) (by decide) (by cases u.kind <;> simp [nivelDe])

theorem parseExpr_fiel (hr : r.Fiel c N) :
    Fiel N false (fun _ => True) (parseExpr c r) (Leida c 0) := by
  have hand : Fiel N false (fun _ => True) (parseAnd c r) (Leida c 2) :=
    .nivel (fun k => by cases k <;> decide) (by decide) (by decide) (parseNot_fiel hr)
  have hor : Fiel N false (fun _ => True) (parseOr c r) (Leida c 1) :=
    .nivel (fun k => by cases k <;> decide) (by decide) (by decide) hand
  refine .bind hor fun cs cond u hcond => .toma (fun q _ hq => ?_) (.pure fun t ht => ?_)
  · refine .bind hr.deriva fun as l _ hl => .expect fun co _ hco => ?_
    refine .bind hr.expr fun bs e v he => .pure fun w hw => ?_
    rw [List.append_nil]
    exact ⟨.ternario hcond.1 hq hl hco he.1, hw ▸ he.2⟩
  · obtain ⟨rfl, hq⟩ := ht
    rw [List.append_nil]
    refine ⟨.sube (by decide) hcond.1, ?_⟩
    have := hcond.2
    revert hq this
    cases t.kind <;> simp [sigueNivel, siguePostfijo, nivelDe]

/-- One more parameter behind the others. -/
theorem TipoArgs.snoc {co : Token} {ts' : List Token} {T : TypeRef} (hco : co.kind = .comma)
    (hT : Tipo ts' T) : ∀ {ts : List Token} {Ts : List TypeRef}, TipoArgs ts Ts →
      TipoArgs (ts ++ co :: ts') (Ts ++ [T])
  | _, _, .mas h hco' h' => by
    rw [List.append_assoc]
    exact .mas h hco' (h'.snoc hco hT)
  | _, _, .uno h => .mas h hco (.uno hT)

/-- A mark behind a type, or none. -/
theorem marca_fiel :
    Fiel N b (fun _ => True) (toma .question (fun _ => return true) (return false))
      fun ts optional _ => Marca ts optional :=
  .toma (fun t _ ht => .pure fun _ _ => .inr ⟨t, rfl, ht, rfl⟩) (.pure fun _ _ => .inl ⟨rfl, rfl⟩)

theorem parseType_fiel (hr : r.Fiel c N) :
    Fiel N b (fun _ => True) (parseType r) fun ts T _ => Tipo ts T := by
  refine .toma (fun t _ ht => .pure fun _ _ => .void ht) (.toma (fun t _ ht => ?_) .error)
  refine .bind (R := fun ts args _ => ts = [] ∧ args = [] ∨
      ∃ l as g, ts = l :: (as ++ [g]) ∧ l.kind = .lt ∧ TipoArgs as args ∧ g.kind = .gt) ?_ ?_
  · refine .toma (fun l _ hl => ?_) (.pure fun _ _ => .inl ⟨rfl, rfl⟩)
    refine .bind hr.type fun ts T _ hT => .bind (R := fun ts' args _ => TipoArgs (ts ++ ts') args)
      ?_ fun ts' args _ hargs => .expect fun g _ hg => .pure fun _ _ => ?_
    · refine (Fiel.mientras (I := fun ts args _ => TipoArgs ts args)
        (J := fun ts args _ => TipoArgs ts args) (fun ts args u hargs hu => ?_)
        (fun _ _ _ hargs _ => hargs) ts [T]).de_imp fun _ _ => .uno hT
      have hcomma : u.kind = .comma := by simpa using hu
      refine .advance (fun v hv => by rw [hv, hcomma]; decide) fun co hco =>
        .bind hr.type fun ts' T' _ hT' => .pure fun _ _ => ?_
      rw [List.append_nil]
      exact hargs.snoc (hco ▸ hcomma) hT'
    · exact .inr ⟨l, ts ++ ts', g, by simp, hl, hargs, hg⟩
  · rintro ts args u (⟨rfl, rfl⟩ | ⟨l, as, g, rfl, hl, hargs, hg⟩)
    · refine .bind (marca_fiel.de_imp fun _ _ => trivial) fun q optional _ hq => .pure fun _ _ => ?_
      rw [List.append_nil]
      exact .nombre ht hq
    · refine .bind (marca_fiel.de_imp fun _ _ => trivial) fun q optional _ hq => .pure fun _ _ => ?_
      have := Tipo.conArgs ht hl hargs hg hq
      simpa using this

theorem recur_fiel (n : ℕ) : (recur c n).Fiel c n := by
  induction n with
  | zero =>
    have hnone : ∀ {α : Type} {P : Token → Prop} {x : Parse α} {R : List Token → α → Token → Prop},
        Fiel 0 true P x R :=
      ⟨fun s t r a s' hs hr hP hN => absurd hN (by rw [Bool.toNat_true]; omega)⟩
    exact ⟨hnone, hnone, hnone, hnone⟩
  | succ n ih =>
    have hsucc : ∀ {α : Type} {x : Parse α} {R : List Token → α → Token → Prop},
        Fiel n false (fun _ => True) x R → Fiel (n + 1) true (fun _ => True) x R := fun h =>
      ⟨fun s t r a s' hs hr hP hN => h.de s t r a s' hs hr hP (by simpa using hN)⟩
    exact ⟨hsucc (parseExpr_fiel ih), hsucc (parseNot_fiel ih), hsucc (parseUnary_fiel ih),
      hsucc (parseType_fiel ih)⟩

end Parser

section Read

variable {c : Entorno} {n : ℕ} {s s' : Parser}

/-- What is read as an expression without an error is in the grammar, up to a token that does not
    go on with it. -/
theorem parseExpr_leida {e : Expr} (hs : Buena s) (hn : s.rest.length ≤ n)
    (h : parseExpr c (recur c n) s = .ok (e, s')) (hd : s'.diags = s.diags) (hl : Libre s') :
    ∃ ts u r, s'.rest = u :: r ∧ s.rest = ts ++ s'.rest ∧ Leida c 0 ts e u := by
  obtain ⟨t, r, hr⟩ := List.exists_cons_of_ne_nil hs.queda
  obtain ⟨ts, u, r', hrest, hts, hleida⟩ :=
    (parseExpr_fiel (recur_fiel n)).de s t r e s' hs hr trivial hn h hd hl
  exact ⟨ts, u, r', hrest, hrest ▸ hts, hleida⟩

theorem parseExpr_deriva {e : Expr} (hs : Buena s) (hn : s.rest.length ≤ n)
    (h : parseExpr c (recur c n) s = .ok (e, s')) (hd : s'.diags = s.diags) (hl : Libre s') :
    ∃ ts, s.rest = ts ++ s'.rest ∧ Deriva c 0 ts e := by
  obtain ⟨ts, u, r, -, hts, hleida⟩ := parseExpr_leida hs hn h hd hl
  exact ⟨ts, hts, hleida.1⟩

/-- What is read as a type without an error is one. -/
theorem parseType_tipo {T : TypeRef} (hs : Buena s) (hn : s.rest.length ≤ n)
    (h : parseType (recur c n) s = .ok (T, s')) (hd : s'.diags = s.diags) (hl : Libre s') :
    ∃ ts, s.rest = ts ++ s'.rest ∧ Tipo ts T := by
  obtain ⟨t, r, hr⟩ := List.exists_cons_of_ne_nil hs.queda
  obtain ⟨ts, u, r', hrest, hts, hT⟩ :=
    (parseType_fiel (b := false) (recur_fiel n)).de s t r T s' hs hr trivial hn h hd hl
  exact ⟨ts, hrest ▸ hts, hT⟩

end Read

end Osodio.Syntax
