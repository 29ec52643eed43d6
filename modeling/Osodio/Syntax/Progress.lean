import Mathlib.Data.List.Basic
import Osodio.Syntax.Declarations

/-!
# The parser comes to an end

Every rule of the parser goes on from where it starts and stays before the end of the text.  Rules
are made of others, and so is what is known of them: it is found by their form.  Only loops have to
be looked at, for what a turn of theirs takes.

## Main definitions

- `Buena`, `Sigue` — the states of the parser, and what comes after one
- `Sana` — a rule that goes on

## Main results

- `parseExpr_come` — an expression takes a token, if there is one
- `parse_terminates` — a file and an expression are read to the end
-/

namespace Osodio.Syntax

set_option synthInstance.maxSize 1000

/-! ## States -/

/-- There is a token ahead, the last one ends the text, and there is another one. -/
structure Buena (s : Parser) : Prop where
  queda : s.rest ≠ []
  fin : ∀ t ∈ s.rest.getLast?, t.kind = .endOfFile
  dos : 2 ≤ s.past.length + s.rest.length

/-- The same tokens from further on. -/
structure Sigue (s s' : Parser) : Prop where
  toks : s'.past.reverse ++ s'.rest = s.past.reverse ++ s.rest
  le : s'.rest.length ≤ s.rest.length
  queda : s'.rest ≠ []
  diags : s.diags <+: s'.diags

section States

variable {s s' s'' : Parser}

theorem Sigue.refl (h : Buena s) : Sigue s s := ⟨rfl, le_rfl, h.queda, List.prefix_rfl⟩

theorem Sigue.trans (h : Sigue s s') (h' : Sigue s' s'') : Sigue s s'' :=
  ⟨h'.toks.trans h.toks, h'.le.trans h.le, h'.queda, h.diags.trans h'.diags⟩

theorem Sigue.buena (h : Sigue s s') (hs : Buena s) : Buena s' where
  queda := h.queda
  fin t ht := by
    have := congrArg List.getLast? h.toks
    rw [List.getLast?_append_of_ne_nil _ h.queda, List.getLast?_append_of_ne_nil _ hs.queda] at this
    exact hs.fin t (this ▸ ht)
  dos := by
    have := congrArg List.length h.toks
    simp only [List.length_append, List.length_reverse] at this
    have := hs.dos
    omega

/-- A token that does not end the text is not the last one. -/
theorem Buena.dos_rest (h : Buena s) {t : Token} {r : List Token} (hr : s.rest = t :: r)
    (ht : t.kind ≠ .endOfFile) : 2 ≤ s.rest.length := by
  cases r with
  | nil => exact absurd (h.fin t (by rw [hr]; rfl)) ht
  | cons u r => rw [hr, List.length_cons, List.length_cons]; omega

end States

/-! ## Rules -/

/-- The rule goes on from every state with at most `N` tokens ahead: with less than `N` of them if
    one of them has been taken, and with one before the last if that is known.  It takes a token
    where it gives what it is asked for. -/
class Sana {α : Type} (N : ℕ) (tomado delante : Bool) (Q : α → Bool) (x : Parse α) : Prop where
  va : ∀ s, Buena s → s.rest.length + tomado.toNat ≤ N → (delante = true → 2 ≤ s.rest.length) →
    ∃ a s', x s = .ok (a, s') ∧ Sigue s s' ∧ (Q a = true → s'.rest.length < s.rest.length)

/-- The rule only looks. -/
class Quieta {α : Type} (x : Parse α) : Prop where
  mira : ∀ s, Buena s → ∃ a s', x s = .ok (a, s') ∧ Sigue s s' ∧ s'.rest = s.rest

/-- Nothing is said of the tokens it takes. -/
abbrev nunca {α : Type} : α → Bool := fun _ => false

/-- It always takes one. -/
abbrev siempre {α : Type} : α → Bool := fun _ => true

/-- It takes one if the loop goes on. -/
abbrev vuelve {σ : Type} : σ ⊕ σ → Bool := Sum.isLeft

section Rules

variable {α β σ : Type} {N : ℕ} {b d : Bool} {Q : α → Bool} {R : β → Bool} {x y : Parse α}
  {f : α → Parse β}

theorem Sana.de (h : Sana N false false nunca x) : Sana N b d nunca x where
  va s hs hN _ := h.va s hs (by simp only [Bool.toNat_false]; omega) nofun

/-- It need not be known that a token is ahead. -/
instance (priority := low) [h : Sana N b false Q x] : Sana N b d Q x where
  va s hs hN _ := h.va s hs hN nofun

instance : Quieta peek where
  mira s hs := by
    obtain ⟨t, r, hr⟩ := List.exists_cons_of_ne_nil hs.queda
    exact ⟨t, s, peek_cons hr, .refl hs, rfl⟩

instance : Quieta prev where
  mira s hs := by
    cases hp : s.past with
    | nil =>
      obtain ⟨t, s', h⟩ := Quieta.mira (x := peek) s hs
      exact ⟨t, s', by rw [prev, hp]; exact h.1, h.2⟩
    | cons t p => exact ⟨t, s, by rw [prev, hp], .refl hs, rfl⟩

instance {n : ℕ} : Quieta (peekAt n) where
  mira s hs := by
    have ht := List.getLast?_eq_some_getLast hs.queda
    cases hn : s.rest[n]? with
    | some u => exact ⟨u, s, by rw [peekAt, Parser.mira, hn]; rfl, .refl hs, rfl⟩
    | none => exact ⟨_, s, by rw [peekAt, Parser.mira, hn, ht]; rfl, .refl hs, rfl⟩

instance {m : String} : Quieta (diag m) where
  mira _ hs := ⟨(), _, rfl, ⟨rfl, le_rfl, hs.queda, List.prefix_append _ _⟩, rfl⟩

instance {n : ℕ} {m : String} : Quieta (diagVeces n m) where
  mira _ hs := ⟨(), _, rfl, ⟨rfl, le_rfl, hs.queda, List.prefix_append _ _⟩, rfl⟩

instance {cond : Bool} {m : String} : Quieta (diagSi cond m) where
  mira s hs := by
    cases cond with
    | false => exact ⟨(), s, rfl, .refl hs, rfl⟩
    | true => exact Quieta.mira (x := diag m) s hs

instance : Quieta quedan where
  mira s hs := ⟨_, s, rfl, .refl hs, rfl⟩

instance : Quieta looksLikeType where
  mira s hs := ⟨_, s, rfl, .refl hs, rfl⟩

instance {a : α} : Quieta (pure a : Parse α) where
  mira s hs := ⟨a, s, rfl, .refl hs, rfl⟩

instance [Quieta x] [∀ a, Quieta (f a)] : Quieta (x >>= f) where
  mira s hs := by
    obtain ⟨a, s', hx, hs', hr⟩ := Quieta.mira (x := x) s hs
    obtain ⟨b, s'', hf, hs'', hr'⟩ := Quieta.mira (x := f a) s' (hs'.buena hs)
    exact ⟨b, s'', (bind_ok hx).trans hf, hs'.trans hs'', hr'.trans hr⟩

instance {k : Tok} : Quieta (check k) := by
  unfold check
  infer_instance

instance {m : String} : Quieta (errorHere m) := by
  unfold errorHere
  infer_instance

instance (priority := low) [Quieta x] : Sana N b d nunca x where
  va s hs _ _ := by
    obtain ⟨a, s', hx, hs', -⟩ := Quieta.mira (x := x) s hs
    exact ⟨a, s', hx, hs', nofun⟩

instance {a : σ} : Sana N b d vuelve (pure (.inr a) : Parse (σ ⊕ σ)) where
  va s hs _ _ := ⟨_, s, rfl, .refl hs, nofun⟩

instance {c : Prop} [Decidable c] [Sana N b d Q x] [Sana N b d Q y] :
    Sana N b d Q (if c then x else y) where
  va s hs hN hd := by
    split
    · exact Sana.va s hs hN hd
    · exact Sana.va s hs hN hd

theorem Sana.bind (hx : Sana N b d nunca x) (hf : ∀ a, Sana N b false R (f a)) :
    Sana N b d R (x >>= f) where
  va s hs hN hd := by
    obtain ⟨a, s', hx, hs', -⟩ := hx.va s hs hN hd
    obtain ⟨y, s'', hf, hs'', hR⟩ := (hf a).va s' (hs'.buena hs) (by have := hs'.le; omega) nofun
    exact ⟨y, s'', (bind_ok hx).trans hf, hs'.trans hs'', fun h => (hR h).trans_le hs'.le⟩

/-- What comes first takes a token, so that the rest need not. -/
theorem Sana.bind_tomado (hx : Sana N b d siempre x) (hf : ∀ a, Sana N true false nunca (f a)) :
    Sana N b d R (x >>= f) where
  va s hs hN hd := by
    obtain ⟨a, s', hx, hs', hlt⟩ := hx.va s hs hN hd
    have hlt := hlt rfl
    obtain ⟨y, s'', hf, hs'', -⟩ := (hf a).va s' (hs'.buena hs)
      (by simp only [Bool.toNat_true]; omega) nofun
    exact ⟨y, s'', (bind_ok hx).trans hf, hs'.trans hs'', fun _ => hs''.le.trans_lt hlt⟩

/-- What only looks leaves everything as it is. -/
instance (priority := high) [Quieta x] [∀ a, Sana N b d R (f a)] : Sana N b d R (x >>= f) where
  va s hs hN hd := by
    obtain ⟨a, s', hx, hs', hr⟩ := Quieta.mira (x := x) s hs
    have hf : Sana N b d R (f a) := inferInstance
    obtain ⟨y, s'', hf, hs'', hR⟩ := hf.va s' (hs'.buena hs) (by rwa [hr]) (by rwa [hr])
    exact ⟨y, s'', (bind_ok hx).trans hf, hs'.trans hs'', hr ▸ hR⟩

instance (priority := low) [Sana N b d nunca x] [∀ a, Sana N b false R (f a)] :
    Sana N b d R (x >>= f) :=
  .bind inferInstance inferInstance

/-! ## Tokens -/

instance : Sana N b true siempre advance where
  va s hs _ hd := by
    have hd := hd rfl
    match hr : s.rest, hd with
    | t :: u :: r, _ =>
      refine ⟨t, { s with past := t :: s.past, rest := u :: r }, by rw [advance, hr],
        ⟨?_, ?_, List.cons_ne_nil u r, List.prefix_rfl⟩, fun _ => ?_⟩
      · rw [hr, List.reverse_cons, List.append_assoc]
        rfl
      · rw [hr]
        exact Nat.le_succ _
      · exact Nat.lt_succ_self _

instance (priority := high) {f : Token → Parse β} [∀ t, Sana N true false nunca (f t)] :
    Sana N b true R (advance >>= f) :=
  .bind_tomado inferInstance inferInstance

instance : Sana N b d nunca advance where
  va s hs _ _ := by
    by_cases hd : 2 ≤ s.rest.length
    · have h : Sana s.rest.length false true siempre advance := inferInstance
      obtain ⟨t, s', ht, hs', -⟩ := h.va s hs le_rfl fun _ => hd
      exact ⟨t, s', ht, hs', nofun⟩
    · -- on the last token it stays
      obtain ⟨t, hr⟩ := List.length_eq_one_iff.mp
        (show s.rest.length = 1 by have := List.length_pos_iff.mpr hs.queda; omega)
      have hp : s.past ≠ [] := by
        intro hp
        have := hs.dos
        rw [hp, hr] at this
        simp at this
      obtain ⟨u, p, hp⟩ := List.exists_cons_of_ne_nil hp
      exact ⟨u, s, by rw [advance, hr, hp], .refl hs, nofun⟩

instance {k : Tok} {hk : k ≠ .endOfFile} [Sana N b true Q x] [Sana N b d Q y] :
    Sana N b d Q (cuando k x y hk) where
  va s hs hN hd := by
    obtain ⟨t, r, hr⟩ := List.exists_cons_of_ne_nil hs.queda
    have hcheck : cuando k x y hk s = (if decide (t.kind = k) then x else y) s :=
      bind_ok (bind_ok (peek_cons hr))
    have hx : Sana N b true Q x := inferInstance
    have hy : Sana N b d Q y := inferInstance
    rw [hcheck]
    by_cases ht : t.kind = k
    · rw [if_pos (decide_eq_true ht)]
      exact hx.va s hs hN fun _ => hs.dos_rest hr (ht ▸ hk)
    · rw [if_neg (by simpa using ht)]
      exact hy.va s hs hN hd

instance {k : Tok} {hk : k ≠ .endOfFile} {x : Token → Parse α} [∀ t, Sana N true false nunca (x t)]
    [Sana N b d Q y] : Sana N b d Q (toma k x y hk) := by
  unfold toma
  infer_instance

/-- What is done with the token ahead. -/
theorem Sana.peek {f : Token → Parse β} (h : ∀ t, t.kind ≠ .endOfFile → Sana N b true R (f t))
    (hfin : ∀ t, t.kind = .endOfFile → Sana N b d R (f t)) : Sana N b d R (peek >>= f) where
  va s hs hN hd := by
    obtain ⟨t, r, hr⟩ := List.exists_cons_of_ne_nil hs.queda
    have hpeek : (Syntax.peek >>= f) s = f t s := bind_ok (peek_cons hr)
    rw [hpeek]
    by_cases ht : t.kind = .endOfFile
    · exact (hfin t ht).va s hs hN hd
    · exact (h t ht).va s hs hN fun _ => hs.dos_rest hr ht

instance {k : Tok} {context : String} {hk : k ≠ .endOfFile} :
    Sana N b d nunca (expect k context hk) := by
  unfold expect
  infer_instance

/-! ## Loops -/

theorem Sana.vueltas {turno : σ → Parse (σ ⊕ σ)} (h : ∀ a, Sana N b false vuelve (turno a)) (n : ℕ)
    (a : σ) (s : Parser) (hs : Buena s) (hN : s.rest.length + b.toNat ≤ N)
    (hn : s.rest.length < n) : ∃ a' s', Syntax.vueltas turno n a s = .ok (a', s') ∧ Sigue s s' := by
  induction n generalizing a s with
  | zero => omega
  | succ n ih =>
    obtain ⟨y, s', hy, hs', hlt⟩ := (h a).va s hs hN nofun
    cases y with
    | inl a' =>
      have hlt := hlt rfl
      obtain ⟨a'', s'', hv, hs''⟩ := ih a' s' (hs'.buena hs) (by omega) (by omega)
      exact ⟨a'', s'', (vueltas_inl hy hlt).trans hv, hs'.trans hs''⟩
    | inr a' => exact ⟨a', s', vueltas_inr hy, hs'⟩

/-- A turn of a loop begins with a token that does not end the text. -/
theorem Sana.turno {p : Tok → Bool} {cuerpo : σ → Parse (σ ⊕ σ)} (hp : p .endOfFile = false)
    (hc : ∀ a, Sana N b true vuelve (cuerpo a)) (a : σ) :
    Sana N b false vuelve (do if p (← Syntax.peek).kind then cuerpo a else return .inr a) := by
  refine .peek (fun t _ => inferInstance) fun t ht => ?_
  rw [ht, hp]
  exact inferInstanceAs (Sana N b false vuelve (pure (.inr a)))

instance {p : Tok → Bool} {cuerpo : σ → Parse (σ ⊕ σ)} {a : σ} {hp : p .endOfFile = false}
    [∀ a, Sana N b true vuelve (cuerpo a)] : Sana N b d nunca (mientras p cuerpo a hp) where
  va s hs hN _ := by
    have hcuerpo : ∀ a, Sana N b true vuelve (cuerpo a) := inferInstance
    obtain ⟨a', s', h, hs'⟩ :=
      Sana.vueltas (Sana.turno hp hcuerpo) _ a s hs hN (Nat.lt_succ_self _)
    exact ⟨a', s', h, hs', nofun⟩

instance : Sana N b d nunca skipNewlines := by
  unfold skipNewlines
  infer_instance

instance : Sana N b d nunca synchronize := by
  unfold synchronize
  infer_instance

instance : Sana N b d nunca hastaFinLinea := by
  unfold hastaFinLinea
  infer_instance

instance {k : Tok} [Sana N b false nunca x] : Sana N b d nunca (separados k x) := by
  unfold separados
  infer_instance

instance {message : String} : Sana N b d nunca (nombreO message) := by
  unfold nombreO
  infer_instance

instance : Sana N b d nunca finBloque := by
  unfold finBloque
  infer_instance

instance {k : Tok} {context : String} {a : α} {hk : k ≠ .endOfFile} [Sana N b false nunca x] :
    Sana N b d nunca (exige k context a x hk) := by
  unfold exige
  infer_instance

instance {message : String} {a : α} : Sana N b d nunca (abandona message a) := by
  unfold abandona
  infer_instance

/-- A loop that is left only in front of a token that does not go on with it. -/
theorem vueltas_fin {p : Tok → Bool} {cuerpo : σ → Parse (σ ⊕ σ)}
    (hc : ∀ a s a' s', cuerpo a s ≠ .ok (.inr a', s')) (n : ℕ) (a a' : σ) (s s' : Parser)
    (h : Syntax.vueltas (fun a => do if p (← Syntax.peek).kind then cuerpo a else return .inr a)
      n a s = .ok (a', s')) : ∀ t ∈ s'.rest.head?, p t.kind = false := by
  induction n generalizing a s with
  | zero => cases h
  | succ n ih =>
    dsimp only [Syntax.vueltas] at h
    split at h
    · split at h
      · exact ih _ _ h
      · cases h
    · next b s₁ hb =>
      cases h
      intro t ht
      obtain ⟨u, _, hpeek, hturno⟩ := bind_inv hb
      obtain ⟨rfl, r, hr⟩ := peek_inv hpeek
      split at hturno
      · exact absurd hturno (hc _ _ _ _)
      · next hp =>
        cases hturno
        rw [hr] at ht
        cases ht
        exact Bool.eq_false_iff.mpr hp
    · cases h

theorem skipNewlines_va (s : Parser) (hs : Buena s) :
    ∃ s', skipNewlines s = .ok ((), s') ∧ Sigue s s' ∧ ∀ t ∈ s'.rest.head?, t.kind ≠ .newline := by
  have hskip : Sana s.rest.length false false nunca skipNewlines := inferInstance
  obtain ⟨u, s', h, hs', -⟩ := hskip.va s hs le_rfl nofun
  refine ⟨s', h, hs', fun t ht hk => ?_⟩
  have hvuelve : ∀ (_ : Unit) (s : Parser) (_ : Unit) (s' : Parser), (do
      let _ ← advance
      return .inl () : Parse (Unit ⊕ Unit)) s ≠ .ok (.inr (), s') := by
    intro _ s _ s' hadv
    obtain ⟨t, s', -, h⟩ := bind_inv hadv
    cases h
  have hfin := vueltas_fin (p := (· = .newline)) hvuelve _ _ _ _ _ h t ht
  rw [hk] at hfin
  cases hfin

/-- A loop takes a token if it begins in front of one that goes on with it. -/
theorem mientras_come {p : Tok → Bool} {cuerpo : σ → Parse (σ ⊕ σ)} (hp : p .endOfFile = false)
    (hc : ∀ a, Sana N b true siempre (cuerpo a)) (a : σ) (s : Parser) (hs : Buena s)
    (hN : s.rest.length + b.toNat ≤ N) {t : Token} {r : List Token} (hr : s.rest = t :: r)
    (ht : p t.kind) : ∃ a' s', mientras p cuerpo a hp s = .ok (a', s') ∧ Sigue s s' ∧
      s'.rest.length < s.rest.length := by
  have hfin : t.kind ≠ .endOfFile := by
    rintro hk
    rw [hk, hp] at ht
    cases ht
  obtain ⟨y, s₁, hy, hs₁, hlt⟩ := (hc a).va s hs hN fun _ => hs.dos_rest hr hfin
  replace hlt : s₁.rest.length < s.rest.length := hlt rfl
  have hturno : (do if p (← Syntax.peek).kind then cuerpo a else return .inr a) s =
      .ok (y, s₁) := by
    rw [bind_ok (peek_cons hr), if_pos ht, hy]
  cases y with
  | inr a' => exact ⟨a', s₁, vueltas_inr hturno, hs₁, hlt⟩
  | inl a' =>
    have hc' : ∀ a, Sana N b true vuelve (cuerpo a) := fun a => ⟨fun s hs hN hd => by
      obtain ⟨y, s', h, hs', hlt⟩ := (hc a).va s hs hN hd
      exact ⟨y, s', h, hs', fun _ => hlt rfl⟩⟩
    obtain ⟨a'', s₂, h, hs₂⟩ :=
      Sana.vueltas (Sana.turno hp hc') _ a' s₁ (hs₁.buena hs) (by omega) hlt
    exact ⟨a'', s₂, (vueltas_inl hturno hlt).trans h, hs₁.trans hs₂, hs₂.le.trans_lt hlt⟩

theorem hastaFinLinea_come (s : Parser) (hs : Buena s) {t : Token} {r : List Token}
    (hr : s.rest = t :: r) (ht : t.kind ≠ .newline ∧ t.kind ≠ .dedent ∧ t.kind ≠ .endOfFile) :
    ∃ s', hastaFinLinea s = .ok ((), s') ∧ Sigue s s' ∧ s'.rest.length < s.rest.length := by
  have hturno : ∀ _ : Unit, Sana s.rest.length false true siempre (do
      let _ ← advance
      return .inl () : Parse (Unit ⊕ Unit)) := fun _ => inferInstance
  obtain ⟨_, s', h⟩ := mientras_come (p := fun k => k ≠ .newline ∧ k ≠ .dedent ∧ k ≠ .endOfFile)
    (by decide) hturno () s hs le_rfl hr (by simpa using ht)
  exact ⟨s', h⟩

/-- A line of a block begins with a token that ends neither a line nor the block nor the text. -/
theorem Sana.linea {cuerpo : σ → Parse (σ ⊕ σ)} (h : ∀ a s, Buena s →
    s.rest.length + b.toNat ≤ N → (∀ t ∈ s.rest.head?, t.kind ≠ .newline ∧ t.kind ≠ .dedent ∧
      t.kind ≠ .endOfFile) → ∃ y s', cuerpo a s = .ok (y, s') ∧ Sigue s s' ∧
        (y.isLeft = true → s'.rest.length < s.rest.length)) (a : σ) :
    Sana N b true vuelve (do
      skipNewlines
      let t ← Syntax.peek
      if t.kind = .dedent ∨ t.kind = .endOfFile then return .inr a else cuerpo a) where
  va s hs hN _ := by
    obtain ⟨s₁, hskip, hs₁, hhead⟩ := skipNewlines_va s hs
    obtain ⟨t, r, hr⟩ := List.exists_cons_of_ne_nil hs₁.queda
    rw [hr] at hhead
    rw [bind_ok hskip, bind_ok (peek_cons hr)]
    by_cases ht : t.kind = .dedent ∨ t.kind = .endOfFile
    · rw [if_pos ht]
      exact ⟨_, s₁, rfl, hs₁, nofun⟩
    · rw [if_neg ht]
      obtain ⟨y, s₂, hy, hs₂, hlt⟩ := h a s₁ (hs₁.buena hs) (by have := hs₁.le; omega) (by
        intro u hu
        rw [hr] at hu
        cases hu
        exact ⟨hhead t rfl, not_or.mp ht⟩)
      exact ⟨y, s₂, hy, hs₁.trans hs₂, fun hl => (hlt hl).trans_le hs₁.le⟩

theorem Sana.lineas {cuerpo : σ → Parse (σ ⊕ σ)} (h : ∀ a s, Buena s →
    s.rest.length + b.toNat ≤ N → (∀ t ∈ s.rest.head?, t.kind ≠ .newline ∧ t.kind ≠ .dedent ∧
      t.kind ≠ .endOfFile) → ∃ y s', cuerpo a s = .ok (y, s') ∧ Sigue s s' ∧
        (y.isLeft = true → s'.rest.length < s.rest.length)) (a : σ) :
    Sana N b d nunca (lineas cuerpo a) := by
  have hturno := Sana.linea h
  unfold Syntax.lineas
  infer_instance

/-- There is another token behind the first one of a line. -/
theorem Sana.de_linea (hc : Sana N b true Q x) (s : Parser) (hs : Buena s)
    (hN : s.rest.length + b.toNat ≤ N) (hhead : ∀ t ∈ s.rest.head?, t.kind ≠ .newline ∧
      t.kind ≠ .dedent ∧ t.kind ≠ .endOfFile) :
    ∃ y s', x s = .ok (y, s') ∧ Sigue s s' ∧ (Q y = true → s'.rest.length < s.rest.length) := by
  refine hc.va s hs hN fun _ => ?_
  obtain ⟨t, r, hr⟩ := List.exists_cons_of_ne_nil hs.queda
  exact hs.dos_rest hr (hhead t (by rw [hr]; rfl)).2.2

instance {cuerpo : σ → Parse (σ ⊕ σ)} {a : σ} [∀ a, Sana N b true vuelve (cuerpo a)] :
    Sana N b d nunca (lineas cuerpo a) :=
  .lineas (fun _ => Sana.de_linea inferInstance) a

/-- A net takes a token if the turn goes on and has not taken any. -/
instance {cuerpo : Parse (σ ⊕ σ)} [hc : Sana N b true nunca cuerpo] :
    Sana N b true vuelve (conRed cuerpo) where
  va s hs hN hd := by
    obtain ⟨y, s₁, hy, hs₁, -⟩ := hc.va s hs hN hd
    have hrun : conRed cuerpo s = red s.rest.length y s₁ :=
      (bind_ok (a := s.rest.length) (x := quedan) rfl).trans (bind_ok hy)
    rw [hrun]
    cases y with
    | inr a => exact ⟨.inr a, s₁, rfl, hs₁, nofun⟩
    | inl a =>
      have hskip : Sana s₁.rest.length false false nunca skipNewlines := inferInstance
      obtain ⟨u, s₂, hu, hs₂, -⟩ := hskip.va s₁ (hs₁.buena hs) le_rfl nofun
      have hs₂ := hs₁.trans hs₂
      have hnet : red s.rest.length (.inl a) s₁ = (if s₂.rest.length = s.rest.length then do
            let _ ← advance
            return .inl a
          else return .inl a : Parse (σ ⊕ σ)) s₂ :=
        (bind_ok hu).trans (bind_ok (a := s₂.rest.length) rfl)
      rw [hnet]
      by_cases hsame : s₂.rest.length = s.rest.length
      · rw [if_pos hsame]
        have hadvance : Sana s₂.rest.length false true siempre advance := inferInstance
        obtain ⟨t, s₃, ht, hs₃, hlt⟩ := hadvance.va s₂ (hs₂.buena hs) le_rfl
          fun _ => hsame ▸ hd rfl
        exact ⟨.inl a, s₃, bind_ok ht, hs₂.trans hs₃, fun _ => (hlt rfl).trans_eq hsame⟩
      · rw [if_neg hsame]
        exact ⟨.inl a, s₂, rfl, hs₂, fun _ => lt_of_le_of_ne hs₂.le hsame⟩

end Rules

/-! ## The rules of the parser -/

/-- The rules that are called again go on when less than `N` tokens are ahead. -/
class Recur.Sana (N : ℕ) (r : Recur) : Prop where
  expr : Syntax.Sana N true false nunca r.expr
  not : Syntax.Sana N true false nunca r.not
  unary : Syntax.Sana N true false nunca r.unary
  type : Syntax.Sana N true false nunca r.type
  block : Syntax.Sana N true false nunca r.block
  ifStmt : Syntax.Sana N true true nunca r.ifStmt
  ifFromElif : Syntax.Sana N true true nunca r.ifFromElif
  group : ∀ out pre guards, Syntax.Sana N true true nunca (r.group out pre guards)

section Parser

variable {N : ℕ} {b d : Bool} {c : Entorno} {r : Recur} [hr : r.Sana N] {context : String}

instance : Sana N true false nunca r.expr := hr.expr
instance : Sana N true false nunca r.not := hr.not
instance : Sana N true false nunca r.unary := hr.unary
instance : Sana N true false nunca r.type := hr.type
instance : Sana N true false nunca r.block := hr.block
instance : Sana N true true nunca r.ifStmt := hr.ifStmt
instance : Sana N true true nunca r.ifFromElif := hr.ifFromElif
instance {out : Program} {pre : String} {guards : List Guard} :
    Sana N true true nunca (r.group out pre guards) := hr.group out pre guards

instance : Sana N b d nunca (parseType r) := by
  refine .de ?_
  unfold parseType
  infer_instance

/-! ### Expressions -/

/-- An expression takes a token, even where there is none that it may begin with. -/
theorem parsePrimary_come : Sana N false true siempre (parsePrimary c r) := by
  unfold parsePrimary
  refine .peek (fun t _ => ?_) fun t ht => ?_
  · split <;> infer_instance
  · rw [ht]
    infer_instance

theorem parsePrimary_fin : Sana N false false nunca (parsePrimary c r) := by
  unfold parsePrimary
  refine .peek (fun t _ => ?_) fun t ht => ?_
  · split <;> infer_instance
  · rw [ht]
    infer_instance

instance {seenNamed : Bool} : Sana N b d nunca (parseArgName seenNamed) := by
  unfold parseArgName
  infer_instance

instance : Sana N true d nunca (parseArgs r) := by
  unfold parseArgs
  infer_instance

instance {e : Expr} : Sana N b true vuelve (parseOperador r e) := by
  have hva : Sana N false true vuelve (parseOperador r e) := by
    unfold parseOperador
    refine .bind_tomado inferInstance fun op => ?_
    split <;> infer_instance
  exact ⟨fun s hs hN hd => hva.va s hs (by simp only [Bool.toNat_false]; omega) hd⟩

instance : Sana N b d nunca (parsePostfix c r) := by
  have := parsePrimary_fin (N := N) (c := c) (r := r)
  refine .de ?_
  unfold parsePostfix
  infer_instance

instance : Sana N b d nunca (parseUnary c r) := by
  refine .de ?_
  unfold parseUnary
  refine .peek (fun t _ => ?_) fun t ht => ?_
  · split <;> infer_instance
  · rw [ht]
    infer_instance

instance {ops : Tok → Bool} {x : Parse Expr} {h : ops .endOfFile = false}
    [Sana N b false nunca x] [Sana N true false nunca x] :
    Sana N b d nunca (izquierda ops x h) := by
  unfold izquierda
  infer_instance

instance : Sana N b d nunca (parseProduct c r) := by
  unfold parseProduct
  infer_instance

instance : Sana N b d nunca (parseSum c r) := by
  unfold parseSum
  infer_instance

instance : Sana N b d nunca (parseComparison c r) := by
  unfold parseComparison
  infer_instance

instance : Sana N b d nunca (parseEquality c r) := by
  unfold parseEquality
  infer_instance

instance : Sana N b d nunca (parseNot c r) := by
  refine .de ?_
  unfold parseNot
  infer_instance

instance : Sana N b d nunca (parseAnd c r) := by
  unfold parseAnd
  infer_instance

instance : Sana N b d nunca (parseOr c r) := by
  unfold parseOr
  infer_instance

instance : Sana N b d nunca (parseTernary c r) := by
  refine .de ?_
  unfold parseTernary
  infer_instance

instance : Sana N b d nunca (parseExpr c r) := by
  unfold parseExpr
  infer_instance

/-! An expression takes a token, if there is one. -/

instance : Sana N false true siempre (parsePostfix c r) := by
  unfold parsePostfix
  exact .bind_tomado parsePrimary_come inferInstance

instance : Sana N false true siempre (parseUnary c r) := by
  unfold parseUnary
  refine .peek (fun t _ => ?_) fun t ht => ?_
  · split <;> infer_instance
  · rw [ht]
    infer_instance

instance {ops : Tok → Bool} {x : Parse Expr} {h : ops .endOfFile = false}
    [hx : Sana N false true siempre x] [Sana N true false nunca x] :
    Sana N false true siempre (izquierda ops x h) := by
  unfold izquierda
  exact .bind_tomado hx inferInstance

instance : Sana N false true siempre (parseEquality c r) := by
  unfold parseEquality parseComparison parseSum parseProduct
  infer_instance

instance : Sana N false true siempre (parseNot c r) := by
  unfold parseNot
  infer_instance

theorem parseExpr_come : Sana N false true siempre (parseExpr c r) := by
  unfold parseExpr parseTernary
  refine .bind_tomado ?_ inferInstance
  unfold parseOr parseAnd
  infer_instance

/-! ### Statements -/

instance : Sana N b d nunca (parseReturn c r) := by
  refine .de ?_
  unfold parseReturn
  infer_instance

instance : Sana N b true nunca (parseIfDe c r context) := by
  unfold parseIfDe
  infer_instance

instance : Sana N b true nunca (parseIf c r) := by
  unfold parseIf
  infer_instance

instance : Sana N b true nunca (parseIfFromElif c r) := by
  unfold parseIfFromElif
  infer_instance

instance : Sana N b true nunca (parseWhile c r) := by
  unfold parseWhile
  infer_instance

instance : Sana N b true nunca (parseFor c r) := by
  unfold parseFor
  infer_instance

instance : Sana N b d nunca (parseRequire c r) := by
  refine .de ?_
  unfold parseRequire
  infer_instance

instance : Sana N b true nunca (parseTry r) := by
  unfold parseTry
  infer_instance

instance : Sana N b d nunca (parseVarDecl c r) := by
  refine .de ?_
  unfold parseVarDecl
  infer_instance

instance : Sana N b d nunca (parseSuelta c r) := by
  refine .de (.bind inferInstance fun e => .peek (fun t _ => ?_) fun t _ => ?_)
  · split <;> infer_instance
  · split <;> infer_instance

instance : Sana N false true nunca (parseStatement c r) := by
  unfold parseStatement
  refine .peek (fun t _ => ?_) fun t ht => ?_
  · split <;> infer_instance
  · rw [ht]
    infer_instance

instance : Sana N b d nunca (parseBlock c r) := by
  refine .de ?_
  unfold parseBlock
  infer_instance

/-! ### Declarations -/

instance : Sana N b d nunca (parseParam c r) := by
  refine .de ?_
  unfold parseParam
  infer_instance

instance {out : Program} : Sana N b true nunca (parseFn c r out) := by
  unfold parseFn
  infer_instance

instance {f : Expr → Parse (ClassDecl ⊕ ClassDecl)} [∀ e, Sana N true false nunca (f e)] :
    Sana N false true vuelve (parseExpr c r >>= f) :=
  .bind_tomado parseExpr_come inferInstance

instance {cl : ClassDecl} : Sana N b d nunca (parseValidate c r cl) := by
  refine .de ?_
  unfold parseValidate
  infer_instance

instance {cl : ClassDecl} : Sana N b true nunca (parseMethod c r cl) := by
  unfold parseMethod
  infer_instance

instance {cl : ClassDecl} : Sana N b true nunca (parseCtor c r cl) := by
  unfold parseCtor
  infer_instance

instance {cl : ClassDecl} : Sana N b d nunca (parseField r cl) := by
  refine .de ?_
  unfold parseField
  infer_instance

instance {cl : ClassDecl} : Sana N b true nunca (parseMiembro c r cl) := by
  unfold parseMiembro
  infer_instance

instance {out : Program} : Sana N b true nunca (parseClass c r out) := by
  unfold parseClass
  infer_instance

instance : Sana N b d nunca parseOrigins := by
  unfold parseOrigins
  infer_instance

instance {out : Program} {method pre : String} {guards : List Guard} :
    Sana N true d nunca (parseRoute c r out method pre guards) := by
  unfold parseRoute
  infer_instance

instance {combined : String} {a : EnGrupo} :
    Sana N true true nunca (parseEnGrupo c r combined a) := by
  obtain ⟨out, guards, seenRoute⟩ := a
  unfold parseEnGrupo
  refine .peek (fun t _ => ?_) fun t ht => ?_
  · split
    · infer_instance
    · infer_instance
    · split <;> infer_instance
  · rw [ht]
    dsimp only [metodo]
    infer_instance

instance {out : Program} {pre : String} {guards : List Guard} :
    Sana N b true nunca (parseGroup c r out pre guards) := by
  have hva : Sana N false true nunca (parseGroup c r out pre guards) := by
    unfold parseGroup
    infer_instance
  exact ⟨fun s hs hN hd => hva.va s hs (by simp only [Bool.toNat_false]; omega) hd⟩

instance {out : Program} : Sana N b true nunca (parseError r out) := by
  unfold parseError
  infer_instance

instance : Sana N b d nunca (configValue c) := by
  unfold configValue
  refine .peek (fun t _ => ?_) fun t _ => ?_
  · split <;> infer_instance
  · split <;> infer_instance

instance {α : Type} {pon : String → Valor → α → Parse α} {a : α}
    [∀ key v a, Quieta (pon key v a)] : Sana N b d nunca (parseOpciones c pon a) := by
  have hvalor : ∀ (t : Token) (a : α) (v : Option Valor), Sana N true false nunca (match v with
      | some v => do
        let a ← pon t.text v a
        skipNewlines
        return .inl a
      | none => do
        errorHere
          "valor invalido: se esperaba una cadena, un numero, true/false o env(\"VAR\")"
        hastaFinLinea
        return .inl a : Parse (α ⊕ α)) := by
    intro t a v
    cases v <;> infer_instance
  unfold parseOpciones
  infer_instance

instance {key : String} {v : Valor} {app : AppDecl} : Quieta (ponSession key v app) := by
  unfold ponSession
  split <;> infer_instance

instance {key : String} {v : Valor} {app : AppDecl} : Quieta (ponJwt key v app) := by
  unfold ponJwt
  split <;> infer_instance

instance {context abrir : String} {app : AppDecl} {cuerpo : AppDecl → Parse AppDecl}
    [∀ app, Sana N b false nunca (cuerpo app)] :
    Sana N b d nunca (parseSubBloque context abrir app cuerpo) := by
  unfold parseSubBloque
  infer_instance

instance {pon : String → AppDecl} {app : AppDecl} : Sana N b d nunca (parseCadena pon app) := by
  unfold parseCadena
  infer_instance

instance {app : AppDecl} : Sana N b d nunca (parsePort app) := by
  unfold parsePort
  infer_instance

instance {imports : List String} {k : String} {app : AppDecl} :
    Sana N b d nunca (parseClave c imports k app) := by
  unfold parseClave
  infer_instance

theorem parseEnApp_va {imports : List String} {app : AppDecl} (s : Parser) (hs : Buena s)
    (hhead : ∀ t ∈ s.rest.head?, t.kind ≠ .newline ∧ t.kind ≠ .dedent ∧ t.kind ≠ .endOfFile) :
    ∃ y s', parseEnApp c imports app s = .ok (y, s') ∧ Sigue s s' ∧
      (y.isLeft = true → s'.rest.length < s.rest.length) := by
  obtain ⟨t, r, hr⟩ := List.exists_cons_of_ne_nil hs.queda
  have ht := hhead t (by rw [hr]; rfl)
  unfold parseEnApp
  rw [bind_ok (peek_cons hr)]
  have hdos := hs.dos_rest hr ht.2.2
  split
  · have hstatic : Sana s.rest.length false true siempre (parseStatic app) := by
      unfold parseStatic
      infer_instance
    obtain ⟨app', s', h, hs', hlt⟩ := hstatic.va s hs le_rfl fun _ => hdos
    exact ⟨.inl app', s', bind_ok h, hs', fun _ => hlt rfl⟩
  · split
    · have hclave : Sana s.rest.length false true vuelve (do
          let t ← advance
          parseClave c imports t.text app) := inferInstance
      exact hclave.va s hs le_rfl fun _ => hdos
    · obtain ⟨_, s₁, h₁, hs₁, hsame⟩ := Quieta.mira
        (x := errorHere "se esperaba una clave de configuracion") s hs
      obtain ⟨s₂, h₂, hs₂, hlt⟩ := hastaFinLinea_come s₁ (hs₁.buena hs) (hsame.trans hr) ht
      exact ⟨.inl app, s₂, (bind_ok h₁).trans (bind_ok h₂), hs₁.trans hs₂, fun _ => hsame ▸ hlt⟩

instance {imports : List String} {app : AppDecl} :
    Sana N b d nunca (lineas (parseLineaApp c imports) app) := by
  refine .lineas (fun app s hs _ hhead => ?_) app
  obtain ⟨y, s₁, hy, hs₁, hlt⟩ := parseEnApp_va (c := c) s hs hhead
  cases y with
  | inr app => exact ⟨_, s₁, bind_ok hy, hs₁, nofun⟩
  | inl app =>
    have hskip : Sana s₁.rest.length false false nunca skipNewlines := inferInstance
    obtain ⟨_, s₂, h₂, hs₂, -⟩ := hskip.va s₁ (hs₁.buena hs) le_rfl nofun
    exact ⟨_, s₂, (bind_ok hy).trans (bind_ok h₂), hs₁.trans hs₂,
      fun _ => hs₂.le.trans_lt (hlt rfl)⟩

instance {out : Program} {app : AppDecl} : Sana N b d nunca (enApp c out app) := by
  unfold enApp
  infer_instance

instance {out : Program} : Sana N b d nunca (parseApp c out) := by
  unfold parseApp
  infer_instance

instance {out : Program} : Sana N b d nunca (parseImport out) := by
  unfold parseImport
  infer_instance

instance {out : Program} : Sana N false true nunca (parseDeclaration c r out) := by
  unfold parseDeclaration
  refine .peek (fun t _ => ?_) fun t ht => ?_
  · split
    all_goals first | infer_instance | (split <;> infer_instance)
  · rw [ht]
    dsimp only [metodo]
    infer_instance

end Parser

/-! ## The end -/

section End

variable {c : Entorno} {n : ℕ}

theorem Sana.succ {α : Type} {d : Bool} {Q : α → Bool} {x : Parse α} (h : Sana n false d Q x) :
    Sana (n + 1) true d Q x where
  va s hs hN hd := h.va s hs (by simp only [Bool.toNat_true, Bool.toNat_false] at *; omega) hd

/-- So many calls of one rule in another are enough for as many tokens. -/
instance recur_sana : (recur c n).Sana n := by
  induction n with
  | zero =>
    have hnone : ∀ {α : Type} {d : Bool} {x : Parse α}, Sana 0 true d nunca x :=
      ⟨fun s _ hN _ => absurd hN (by simp)⟩
    exact ⟨hnone, hnone, hnone, hnone, hnone, hnone, hnone, fun _ _ _ => hnone⟩
  | succ n ih =>
    exact {
      expr := .succ (inferInstanceAs (Sana n _ _ _ (parseExpr c (recur c n))))
      not := .succ (inferInstanceAs (Sana n _ _ _ (parseNot c (recur c n))))
      unary := .succ (inferInstanceAs (Sana n _ _ _ (parseUnary c (recur c n))))
      type := .succ (inferInstanceAs (Sana n _ _ _ (parseType (recur c n))))
      block := .succ (inferInstanceAs (Sana n _ _ _ (parseBlock c (recur c n))))
      ifStmt := .succ (inferInstanceAs (Sana n _ _ _ (parseIf c (recur c n))))
      ifFromElif := .succ (inferInstanceAs (Sana n _ _ _ (parseIfFromElif c (recur c n))))
      group := fun out pre guards =>
        .succ (inferInstanceAs (Sana n _ _ _ (parseGroup c (recur c n) out pre guards))) }

/-- A list of tokens that ends as the lexer ends it. -/
theorem buena_init {toks : List Token} (h : toks.getLast?.map (·.kind) = some .endOfFile)
    (hlen : toks.length ≠ 1) : Buena { rest := toks } := by
  obtain ⟨t, ht, hk⟩ := Option.map_eq_some_iff.mp h
  have hne : toks ≠ [] := by rintro rfl; cases ht
  refine ⟨hne, fun u hu => ?_, ?_⟩
  · rw [ht] at hu
    cases hu
    exact hk
  · have := List.length_pos_iff.mpr hne
    simp only [List.length_nil]
    omega

/-- A file and an expression are read to the end, whatever the tokens are: no loop goes on without
    taking a token, no token is read that is not there, and no more calls are open than there are
    tokens. -/
theorem parse_terminates (c : Entorno) (out : Program) (toks : List Token)
    (h : toks.getLast?.map (·.kind) = some .endOfFile) :
    (∃ out' s, parseInto c out { rest := toks } = .ok (out', s)) ∧
      ∃ e s, parseSingleExpression c { rest := toks } = .ok (e, s) := by
  by_cases hlen : toks.length = 1
  · obtain ⟨⟨k, text⟩, rfl⟩ := List.length_eq_one_iff.mp hlen
    obtain rfl : k = .endOfFile := Option.some.inj h
    exact ⟨⟨out, _, rfl⟩, none, _, rfl⟩
  · have hs := buena_init h hlen
    constructor
    · have hfile : Sana toks.length false false nunca (do
          skipNewlines
          mientras (· ≠ .endOfFile) (fun out => conRed do
            let out ← parseDeclaration c (recur c toks.length) out
            return .inl out) out : Parse Program) := inferInstance
      obtain ⟨out', s, hok, -⟩ := hfile.va _ hs le_rfl nofun
      exact ⟨out', s, hok⟩
    · have hexpr : Sana toks.length false false nunca (do
          skipNewlines
          if ← check .endOfFile then
            errorHere "se esperaba una expresion"
            return none
          else
            let e ← parseExpr c (recur c toks.length)
            skipNewlines
            if ← check .endOfFile then return some e
            else
              errorHere "sobra algo detras de la expresion"
              return none : Parse (Option Expr)) := inferInstance
      obtain ⟨e, s, hok, -⟩ := hexpr.va _ hs le_rfl nofun
      exact ⟨e, s, hok⟩

/-- A route that is cut off. -/
theorem parse_terminates_cortada :
    (∃ out s, parseInto ⟨fun _ => ⟨0⟩, fun _ => none⟩ {}
        { rest := [⟨.kwGet, "get"⟩, ⟨.kwEndpoint, "endpoint"⟩, ⟨.lParen, ""⟩, ⟨.newline, ""⟩,
          ⟨.dedent, ""⟩, ⟨.endOfFile, ""⟩] } = .ok (out, s)) ∧
      ∃ e s, parseSingleExpression ⟨fun _ => ⟨0⟩, fun _ => none⟩
        { rest := [⟨.kwGet, "get"⟩, ⟨.kwEndpoint, "endpoint"⟩, ⟨.lParen, ""⟩, ⟨.newline, ""⟩,
          ⟨.dedent, ""⟩, ⟨.endOfFile, ""⟩] } = .ok (e, s) :=
  parse_terminates _ {} _ rfl

end End

end Osodio.Syntax
