import Osodio.Syntax.Compound

/-!
# What is read without a word

A rule that notes no error has found all that it asks for.  What is said here of a rule is about the
states that it is begun and left in, when it notes none: where the text has been cut, and what may
begin at the cut.

## Main definitions

- `Arranca` — the places where a statement may begin
- `Llanas` — a text whose compound assignments have targets that are copied whole
- `Hace` — what a rule leaves behind when it notes no error

## Main results

- `Hace.bind`, `Hace.toma`, `Hace.expect`, `Hace.mientras` — rules put together
- `Hace.lineas`, `Hace.conRed` — the lines of a block
-/

namespace Osodio.Syntax

set_option synthInstance.maxSize 1000

/-! ## Places -/

/-- The kinds behind which a statement may begin, whatever it begins with. -/
def acabaSentencia : Tok → Bool
  | .newline | .indent | .dedent | .kwBreak | .kwContinue => true
  | _ => false

/-- A statement may begin between these tokens, the last one of which comes first, and those: on a
    line of its own, behind an expression that does not go on, or behind a declaration. -/
inductive Arranca (c : Entorno) : List Token → List Token → Prop
  | linea {t : Token} {past rest : List Token} (ht : acabaSentencia t.kind = true) :
      Arranca c (t :: past) rest
  | expresion {past es rest : List Token} {e : Expr} {t : Token} (he : Deriva c 0 es e)
      (ht : sigueNivel 0 t.kind = false) : Arranca c (es.reverse ++ past) (t :: rest)
  | declaracion {past ts rest : List Token} {T : TypeRef} {name : Token}
      (h : Arranca c past (ts ++ name :: rest)) (hT : Tipo ts T) (hname : name.kind = .ident) :
      Arranca c (name :: (ts.reverse ++ past)) rest

/-- Wherever a statement may begin, what is assigned to with an operator is copied whole. -/
def Llanas (c : Entorno) (toks : List Token) : Prop :=
  ∀ past xs op rest x, past.reverse ++ (xs ++ op :: rest) = toks →
    Arranca c past (xs ++ op :: rest) → Deriva c 0 xs x → assignable x = true →
      (compuesta op.kind).isSome = true → llana x = true

/-- A state on the way through such a text, the end of which has no text of its own. -/
structure Pulcra (c : Entorno) (s : Parser) : Prop extends Buena s where
  mudo : ∀ t ∈ s.rest.getLast?, t.text = ""
  llanas : Llanas c (s.past.reverse ++ s.rest)

/-- A statement may begin here, unless the line ends. -/
def Listo (c : Entorno) (s : Parser) : Prop :=
  ∀ t ∈ s.rest.head?, acabaLinea t.kind = false → Arranca c s.past s.rest

/-- The token has just been taken. -/
def Tras (P : Parser → Prop) (t : Token) (s : Parser) : Prop :=
  ∃ past, s.past = t :: past ∧ P { s with past := past, rest := t :: s.rest }

section States

variable {c : Entorno} {s s' : Parser}

theorem Sigue.past {ts : List Token} (h : Sigue s s') (hts : s.rest = ts ++ s'.rest) :
    s'.past = ts.reverse ++ s.past := by
  have htoks := h.toks
  rw [hts, ← List.append_assoc] at htoks
  rw [← List.reverse_reverse s'.past, List.append_cancel_right htoks, List.reverse_append,
    List.reverse_reverse]

theorem Pulcra.libre (hs : Pulcra c s) : Libre s := .inr hs.mudo

theorem Sigue.pulcra (h : Sigue s s') (hs : Pulcra c s) : Pulcra c s' where
  toBuena := h.buena hs.toBuena
  mudo t ht := by
    have := congrArg List.getLast? h.toks
    rw [List.getLast?_append_of_ne_nil _ h.queda, List.getLast?_append_of_ne_nil _ hs.queda] at this
    exact hs.mudo t (this ▸ ht)
  llanas := by
    rw [h.toks]
    exact hs.llanas

theorem Arranca.listo (h : Arranca c s.past s.rest) : Listo c s := fun _ _ _ => h

end States

/-! ## Rules -/

/-- What holds of the state that a rule leaves, and of its value, if it notes no error. -/
structure Hace {α : Type} (c : Entorno) (N : ℕ) (b d : Bool) (P : Parser → Prop) (x : Parse α)
    (R : α → Parser → Prop) : Prop where
  da : ∀ s a s', Pulcra c s → s.rest.length + b.toNat ≤ N → (d = true → 2 ≤ s.rest.length) → P s →
    x s = .ok (a, s') → s'.diags = s.diags → R a s'

section Rules

variable {α β σ : Type} {c : Entorno} {N : ℕ} {b d : Bool} {P Q : Parser → Prop} {x y : Parse α}
  {f : α → Parse β} {R S : α → Parser → Prop} {T : β → Parser → Prop}

theorem Hace.imp (h : Hace c N b d P x R) (himp : ∀ a s, R a s → S a s) : Hace c N b d P x S where
  da s a s' hs hN hd hP hx hdiags := himp a s' (h.da s a s' hs hN hd hP hx hdiags)

theorem Hace.de_imp (h : Hace c N b d Q x R) (himp : ∀ s, P s → Q s) : Hace c N b d P x R where
  da s a s' hs hN hd hP := h.da s a s' hs hN hd (himp s hP)

/-- Nothing is asked of the state that it begins in. -/
theorem Hace.libre (h : Hace c N b d (fun _ => True) x R) : Hace c N b d P x R :=
  h.de_imp fun _ _ => trivial

theorem Hace.nada : Hace c N b d P x fun _ _ => True := ⟨fun _ _ _ _ _ _ _ _ _ => trivial⟩

theorem Hace.pulcra (h : Hace c N b d (fun s => P s ∧ Pulcra c s) x R) : Hace c N b d P x R where
  da s a s' hs hN hd hP := h.da s a s' hs hN hd ⟨hP, hs⟩

/-- What the state tells of anything else. -/
theorem Hace.consta {F : Prop} (hF : ∀ s, P s → F) (h : F → Hace c N b d P x R) :
    Hace c N b d P x R where
  da s a s' hs hN hd hP := (h (hF s hP)).da s a s' hs hN hd hP

/-- Less calls may be open, and more tokens are ahead. -/
theorem Hace.de (h : Hace c N false false P x R) : Hace c N b d P x R where
  da s a s' hs hN _ hP := h.da s a s' hs (by rw [Bool.toNat_false]; omega) (by simp) hP

theorem Hace.de_tomado (h : Hace c N b false P x R) : Hace c N b d P x R where
  da s a s' hs hN _ hP := h.da s a s' hs hN (by simp) hP

theorem Hace.pure {a : α} (h : ∀ s, P s → R a s) : Hace c N b d P (Pure.pure a) R where
  da s a' s' hs hN hd hP hx hdiags := by
    cases hx
    exact h s hP

theorem Hace.bind [Sana N b d nunca x] [∀ a, Sana N b false nunca (f a)] (hx : Hace c N b d P x S)
    (hf : ∀ a, Hace c N b false (S a) (f a) T) : Hace c N b d P (x >>= f) T where
  da s z s'' hs hN hd hP hz hdiags := by
    obtain ⟨a, s', hxs, hfs⟩ := bind_inv hz
    have hs' := (Sana.sigue (q := nunca) inferInstance hs.toBuena hN hd hxs).1
    have hpulcra := hs'.pulcra hs
    have hN' : s'.rest.length + b.toNat ≤ N := by have := hs'.le; omega
    have hs'' := (Sana.sigue (d := false) (q := nunca) inferInstance hpulcra.toBuena hN' (by simp)
      hfs).1
    obtain ⟨hcalla, hcalla'⟩ := hs'.calla hs'' hdiags
    exact (hf a).da s' z s'' hpulcra hN' (by simp) (hx.da s a s' hs hN hd hP hxs hcalla) hfs hcalla'

/-- What comes behind is told to go on. -/
theorem Hace.bind_sana [Sana N b d nunca x] (hsana : ∀ a, Sana N b false nunca (f a))
    (hx : Hace c N b d P x S) (hf : ∀ a, Hace c N b false (S a) (f a) T) :
    Hace c N b d P (x >>= f) T :=
  .bind hx hf

/-- What is not looked at again. -/
theorem Hace.salta [Sana N b d nunca x] [∀ a, Sana N b false nunca (f a)]
    (hf : ∀ a, Hace c N b false (fun _ => True) (f a) T) : Hace c N b d P (x >>= f) T :=
  .bind .nada hf

/-- No token is taken. -/
theorem Hace.quieta [Quieta x] [∀ a, Sana N b d nunca (f a)]
    (hf : ∀ a, Hace c N b d (fun _ => True) (f a) T) : Hace c N b d P (x >>= f) T where
  da s z s'' hs hN hd _ hz hdiags := by
    obtain ⟨a, s', hx, hs', hrest⟩ := Quieta.mira (x := x) s hs.toBuena
    rw [bind_ok hx] at hz
    have hsana : Sana N b d nunca (f a) := inferInstance
    have hpulcra := hs'.pulcra hs
    rw [← hrest] at hN hd
    have hs'' := (hsana.sigue hpulcra.toBuena hN hd hz).1
    exact (hf a).da s' z s'' hpulcra hN hd trivial hz (hs'.calla hs'' hdiags).2

/-- A rule that only looks. -/
theorem Hace.mira (hx : ∀ s, ∃ a, x s = .ok (a, s)) (hf : ∀ a, Hace c N b d P (f a) T) :
    Hace c N b d P (x >>= f) T where
  da s z s' hs hN hd hP hz hdiags := by
    obtain ⟨a, ha⟩ := hx s
    rw [bind_ok ha] at hz
    exact (hf a).da s z s' hs hN hd hP hz hdiags

theorem Hace.peek {f : Token → Parse β}
    (hf : ∀ t, Hace c N b d (fun s => P s ∧ s.rest.head? = some t) (f t) T) :
    Hace c N b d P (Syntax.peek >>= f) T where
  da s z s' hs hN hd hP hz hdiags := by
    obtain ⟨t, r, hr⟩ := List.exists_cons_of_ne_nil hs.queda
    rw [bind_ok (peek_cons hr)] at hz
    exact (hf t).da s z s' hs hN hd ⟨hP, by rw [hr]; rfl⟩ hz hdiags

theorem Hace.advance {f : Token → Parse β} (h : ∀ t, Hace c N true false (Tras P t) (f t) T) :
    Hace c N b true P (Syntax.advance >>= f) T where
  da s z s' hs hN hd hP hz hdiags := by
    obtain ⟨t, u, r, hr⟩ : ∃ t u r, s.rest = t :: u :: r := by
      have hlen := hd rfl
      rcases hr : s.rest with _ | ⟨t, _ | ⟨u, r⟩⟩
      · simp [hr] at hlen
      · simp [hr] at hlen
      · exact ⟨t, u, r, rfl⟩
    have hadvance : Syntax.advance s = .ok (t, { s with past := t :: s.past, rest := u :: r }) := by
      rw [Syntax.advance, hr]
    have hsigue := (Sana.sigue (N := s.rest.length) (d := false) (b := false) (q := nunca)
      inferInstance hs.toBuena le_rfl (by simp) hadvance).1
    rw [bind_ok hadvance] at hz
    refine (h t).da _ z s' (hsigue.pulcra hs) ?_ (by simp) ⟨s.past, rfl, ?_⟩ hz hdiags
    · rw [hr] at hN
      simp only [List.length_cons, Bool.toNat_true] at hN ⊢
      omega
    · rw [← hr]
      exact hP

theorem Hace.cuando {k : Tok} {hk : k ≠ .endOfFile}
    (hx : Hace c N b true (fun s => P s ∧ ∀ t ∈ s.rest.head?, t.kind = k) x R)
    (hy : Hace c N b d (fun s => P s ∧ ∀ t ∈ s.rest.head?, t.kind ≠ k) y R) :
    Hace c N b d P (Syntax.cuando k x y hk) R where
  da s a s' hs hN hd hP hz hdiags := by
    obtain ⟨t, r, hr⟩ := List.exists_cons_of_ne_nil hs.queda
    have hhead : ∀ u ∈ s.rest.head?, u = t := by
      rw [hr]
      exact fun u hu => (Option.some.inj hu).symm
    have hcheck : Syntax.cuando k x y hk s = (if decide (t.kind = k) then x else y) s :=
      bind_ok (bind_ok (peek_cons hr))
    rw [hcheck] at hz
    by_cases ht : t.kind = k
    · rw [if_pos (decide_eq_true ht)] at hz
      exact hx.da s a s' hs hN (fun _ => hs.dos_rest hr (ht ▸ hk))
        ⟨hP, fun u hu => hhead u hu ▸ ht⟩ hz hdiags
    · rw [if_neg (by simpa using ht)] at hz
      exact hy.da s a s' hs hN hd ⟨hP, fun u hu => hhead u hu ▸ ht⟩ hz hdiags

theorem Hace.toma {k : Tok} {hk : k ≠ .endOfFile} {x : Token → Parse α}
    (hx : ∀ t, t.kind = k → Hace c N true false (Tras P t) (x t) R)
    (hy : Hace c N b d (fun s => P s ∧ ∀ t ∈ s.rest.head?, t.kind ≠ k) y R) :
    Hace c N b d P (Syntax.toma k x y hk) R :=
  .cuando (.advance fun t => .consta (F := t.kind = k) (fun _ ⟨_, _, _, h⟩ => h t rfl) fun ht =>
    (hx t ht).de_imp fun _ ⟨past, hpast, hP, _⟩ => ⟨past, hpast, hP⟩) hy

/-- Behind an error there is nothing to say. -/
theorem Hace.diag {m : String} {f : Unit → Parse β} [∀ a, Sana N b false nunca (f a)] :
    Hace c N b d P (Syntax.diag m >>= f) T where
  da s z s'' hs hN hd hP hz hdiags := by
    have herror : Syntax.diag m s = .ok ((), { s with diags := s.diags ++ [m] }) := rfl
    have hsigue := (Sana.sigue (N := s.rest.length) (d := false) (b := false) (q := nunca)
      inferInstance hs.toBuena le_rfl (by simp) herror).1
    rw [bind_ok herror] at hz
    have hs'' := (Sana.sigue (d := false) (q := nunca) inferInstance (hsigue.buena hs.toBuena)
      hN (by simp) hz).1
    have hlen := hs''.diags.length_le
    rw [hdiags] at hlen
    simp only [List.length_append, List.length_singleton] at hlen
    omega

theorem Hace.error {m : String} {f : Unit → Parse β} [∀ a, Sana N b false nunca (f a)] :
    Hace c N b d P (errorHere m >>= f) T where
  da s z s' hs hN hd hP hz hdiags := by
    obtain ⟨t, r, hr⟩ := List.exists_cons_of_ne_nil hs.queda
    have hsame : (errorHere m >>= f) s = (Syntax.diag m >>= f) s := by
      rw [bind_ok (x := errorHere m) (bind_ok (peek_cons hr))]
      rfl
    exact (Hace.diag (d := d) (P := P)).da s z s' hs hN hd hP (hsame ▸ hz) hdiags

theorem Hace.expect {k : Tok} {hk : k ≠ .endOfFile} {context : String} {f : Bool → Parse β}
    [∀ a, Sana N b false nunca (f a)]
    (h : ∀ t, t.kind = k → Hace c N true false (Tras P t) (f true) T) :
    Hace c N b d P (Syntax.expect k context hk >>= f) T where
  da s z s'' hs hN hd hP hz hdiags := by
    obtain ⟨t, r, hr⟩ := List.exists_cons_of_ne_nil hs.queda
    obtain ⟨ok, s', hx, hf⟩ := bind_inv hz
    have hcheck : Syntax.expect k context hk s = (if decide (t.kind = k) then
        Syntax.advance >>= fun _ => return true else do
          errorHere ("se esperaba '" ++ tokName k ++ "' " ++ context ++ ", pero hay '" ++
            tokName (← Syntax.peek).kind ++ "'")
          return false) s := bind_ok (bind_ok (peek_cons hr))
    by_cases ht : t.kind = k
    · rw [hcheck, if_pos (decide_eq_true ht)] at hx
      obtain ⟨u, s₁, hadv, hpure⟩ := bind_inv hx
      cases hpure
      have htake : (Syntax.advance >>= fun _ => f true) s = .ok (z, s'') := by rw [bind_ok hadv, hf]
      have hrule : Hace c N b true (fun s => P s ∧ s.rest.head? = some t)
          (Syntax.advance >>= fun _ => f true) T :=
        .advance fun u => .consta (F := u.kind = k)
          (fun _ ⟨_, _, _, h⟩ => Option.some.inj h ▸ ht) fun hu =>
            (h u hu).de_imp fun _ ⟨past, hpast, hP, _⟩ => ⟨past, hpast, hP⟩
      exact hrule.da s z s'' hs hN (fun _ => hs.dos_rest hr (ht ▸ hk)) ⟨hP, by rw [hr]; rfl⟩ htake
        hdiags
    · -- what is not there is missed
      rw [hcheck, if_neg (by simpa using ht), bind_ok (peek_cons hr)] at hx
      obtain ⟨_, s₁, herror, hpure⟩ := bind_inv hx
      cases hpure
      have hmiss := (bind_ok (f := fun _ => f false) herror).trans hf
      exact (Hace.error (d := d) (P := P)).da s z s'' hs hN hd hP hmiss hdiags

theorem Hace.diagSi {cond : Bool} {m : String} {f : Unit → Parse β}
    [∀ a, Sana N b false nunca (f a)] (h : cond = false → Hace c N b d P (f ()) T) :
    Hace c N b d P (Syntax.diagSi cond m >>= f) T where
  da s z s' hs hN hd hP hz hdiags := by
    cases cond with
    | false => exact (h rfl).da s z s' hs hN hd hP hz hdiags
    | true => exact (Hace.diag (m := m) (d := d) (P := P)).da s z s' hs hN hd hP hz hdiags

/-- A token ahead that does not end the text is not the last one. -/
theorem Hace.hay (hP : ∀ s, P s → ∀ t ∈ s.rest.head?, t.kind ≠ .endOfFile)
    (h : Hace c N b true P x R) : Hace c N b d P x R where
  da s a s' hs hN hd hPs := by
    obtain ⟨t, r, hr⟩ := List.exists_cons_of_ne_nil hs.queda
    exact h.da s a s' hs hN (fun _ => hs.dos_rest hr (hP s hPs t (by rw [hr]; rfl))) hPs

theorem Hace.exige {k : Tok} {context : String} {a : α} {hk : k ≠ .endOfFile}
    [Sana N b false nunca x] (h : ∀ t, t.kind = k → Hace c N true false (Tras P t) x R) :
    Hace c N b d P (Syntax.exige k context a x hk) R :=
  .expect fun t ht => h t ht

theorem Hace.abandona {m : String} {a : α} : Hace c N b d P (Syntax.abandona m a) R := .error

/-! ## Loops -/

theorem forall_mem_snoc {Q : α → Prop} {as : List α} {a : α} (h : ∀ u ∈ as, Q u) (ha : Q a) :
    ∀ u ∈ as ++ [a], Q u := by
  intro u hu
  rcases List.mem_append.mp hu with hu | hu
  · exact h u hu
  · exact List.mem_singleton.mp hu ▸ ha

/-- A loop keeps `I` from turn to turn, and is left with `J`. -/
theorem Hace.mientras {p : Tok → Bool} {cuerpo : σ → Parse (σ ⊕ σ)} {hp : p .endOfFile = false}
    {I J : σ → Parser → Prop} [hc : ∀ a, Sana N b true vuelve (cuerpo a)]
    (hturno : ∀ a, Hace c N b true (fun s => I a s ∧ ∀ t ∈ s.rest.head?, p t.kind = true)
      (cuerpo a) fun y s => y.elim (I · s) (J · s))
    (hfin : ∀ a s, I a s → (∀ t ∈ s.rest.head?, p t.kind = false) → J a s) (a : σ) :
    Hace c N b d (I a) (Syntax.mientras p cuerpo a hp) J where
  da s a' s' hs hN hd hI hx hdiags := by
    clear hd
    replace hx : Syntax.vueltas (fun a => do
      if p (← Syntax.peek).kind then cuerpo a else return .inr a) (s.rest.length + 1) a s =
        .ok (a', s') := hx
    have hn : s.rest.length < s.rest.length + 1 := Nat.lt_succ_self _
    generalize s.rest.length + 1 = n at hn hx
    induction n generalizing a s with
    | zero => cases hx
    | succ n ih =>
      obtain ⟨t, r, hr⟩ := List.exists_cons_of_ne_nil hs.queda
      have hhead : ∀ u ∈ s.rest.head?, u = t := by
        rw [hr]
        exact fun u hu => (Option.some.inj hu).symm
      have hpeek : ∀ z, z = (do if p (← Syntax.peek).kind then cuerpo a else return .inr a) s →
          z = (if p t.kind then cuerpo a else return .inr a) s := fun z hz =>
        hz.trans (bind_ok (peek_cons hr))
      dsimp only [Syntax.vueltas] at hx
      split at hx
      · next a₁ s₁ hturn =>
        have hgo := hpeek _ hturn.symm
        split at hgo
        · next hpt =>
          have hdos := hs.dos_rest hr (fun hk => by rw [hk, hp] at hpt; cases hpt)
          obtain ⟨hs₁, -⟩ := (hc a).sigue hs.toBuena hN (fun _ => hdos) hgo.symm
          split at hx
          · next hlt =>
            have hpulcra := hs₁.pulcra hs
            have hN₁ : s₁.rest.length + b.toNat ≤ N := by omega
            obtain ⟨a₂, s₂, hv, hs₂⟩ :=
              Sana.vueltas (Sana.turno hp hc) n a₁ s₁ hpulcra.toBuena hN₁ (by omega)
            cases hx.symm.trans hv
            obtain ⟨hcalla, hcalla'⟩ := hs₁.calla hs₂ hdiags
            have hI₁ := (hturno a).da s _ s₁ hs hN (fun _ => hdos)
              ⟨hI, fun u hu => hhead u hu ▸ hpt⟩ hgo.symm hcalla
            exact ih a₁ s₁ hpulcra hN₁ hI₁ hcalla' (by omega) hx
          · cases hx
        · cases hgo
      · next a₁ s₁ hturn =>
        cases hx
        have hgo := hpeek _ hturn.symm
        split at hgo
        · next hpt =>
          have hdos := hs.dos_rest hr (fun hk => by rw [hk, hp] at hpt; cases hpt)
          exact (hturno a).da s _ s' hs hN (fun _ => hdos) ⟨hI, fun u hu => hhead u hu ▸ hpt⟩
            hgo.symm hdiags
        · next hpt =>
          cases hgo
          exact hfin _ _ hI fun u hu => hhead u hu ▸ Bool.eq_false_iff.mpr hpt
      · cases hx

/-- The elements of a list. -/
theorem Hace.separados {cierre : Tok} {Q : α → Prop} [Sana N b false nunca x]
    (h : Hace c N b false (fun _ => True) x fun a _ => Q a) :
    Hace c N b d P (Syntax.separados cierre x) fun as _ => ∀ a ∈ as, Q a := by
  unfold Syntax.separados
  refine (Hace.mientras (I := fun as _ => ∀ a ∈ as, Q a) (J := fun as _ => ∀ a ∈ as, Q a)
    (fun as => ?_) (fun _ _ hI _ => hI) []).de_imp fun _ _ => nofun
  refine .consta (F := ∀ a ∈ as, Q a) (fun _ h => h.1) fun has => ?_
  refine .bind h.de_tomado.libre fun a => .consta (F := Q a) (fun _ h => h) fun ha => ?_
  have hmas := forall_mem_snoc has ha
  exact .toma (fun _ _ => .pure fun _ _ => hmas) (.pure fun _ _ => hmas)

/-! ## Lines -/

/-- What holds behind the end of a line holds in front of the next one. -/
def TrasLinea (I : Parser → Prop) : Prop :=
  ∀ s t past, s.past = t :: past → t.kind = .newline → I s

theorem trasLinea_listo : TrasLinea (Listo c) := by
  intro s t past hpast ht
  refine Arranca.listo ?_
  rw [hpast]
  exact .linea (by rw [ht]; rfl)

theorem trasLinea_nada : TrasLinea fun _ => True := fun _ _ _ _ _ => trivial

theorem skipNewlines_hace {I : Parser → Prop} (hI : TrasLinea I) :
    Hace c N b d I skipNewlines fun _ s => I s ∧ ∀ t ∈ s.rest.head?, t.kind ≠ .newline := by
  unfold skipNewlines
  refine Hace.mientras (I := fun _ => I) (fun _ => ?_) (fun _ s hs hfin => ?_) ()
  · refine .advance fun t => .pure fun s ⟨past, hpast, _, ht⟩ => hI s t past hpast ?_
    simpa using ht t rfl
  · exact ⟨hs, fun t ht hk => by simpa [hk] using hfin t ht⟩

/-- A line of a block, behind what separates it from the one before. -/
theorem Hace.linea {cuerpo : Parse (σ ⊕ σ)} {I : Parser → Prop} {J : σ ⊕ σ → Parser → Prop}
    (hI : TrasLinea I) [hc : Sana N b true vuelve cuerpo]
    (h : Hace c N b true (fun s => I s ∧ ∀ t ∈ s.rest.head?, acabaLinea t.kind = false) cuerpo J)
    {a : σ} (hfin : ∀ s, I s → J (.inr a) s) :
    Hace c N b true I (do
      skipNewlines
      let t ← Syntax.peek
      if t.kind = .dedent ∨ t.kind = .endOfFile then return .inr a else cuerpo) J where
  da s y s' hs hN _ hIs hx hdiags := by
    obtain ⟨s₁, hskip, hs₁, hhead⟩ := skipNewlines_va s hs.toBuena
    have hpulcra := hs₁.pulcra hs
    have hN₁ : s₁.rest.length + b.toNat ≤ N := by have := hs₁.le; omega
    obtain ⟨t, r, hr⟩ := List.exists_cons_of_ne_nil hs₁.queda
    have hskips : s₁.diags = s.diags → I s₁ := fun hd =>
      ((skipNewlines_hace hI).da s () s₁ hs hN (d := false) (by simp) hIs hskip hd).1
    rw [bind_ok hskip, bind_ok (peek_cons hr)] at hx
    by_cases ht : t.kind = .dedent ∨ t.kind = .endOfFile
    · rw [if_pos ht] at hx
      cases hx
      exact hfin _ (hskips hdiags)
    · rw [if_neg ht] at hx
      have hline : ∀ u ∈ s₁.rest.head?, u.kind ≠ .newline ∧ u.kind ≠ .dedent ∧
          u.kind ≠ .endOfFile := by
        intro u hu
        refine ⟨hhead u hu, ?_⟩
        rw [hr] at hu
        cases hu
        exact not_or.mp ht
      obtain ⟨y', s₂, hx', hs₂, -⟩ := hc.de_linea s₁ hpulcra.toBuena hN₁ hline
      cases hx.symm.trans hx'
      obtain ⟨hcalla, hcalla'⟩ := hs₁.calla hs₂ hdiags
      refine h.da s₁ y s' hpulcra hN₁ (fun _ => hpulcra.dos_rest hr (not_or.mp ht).2)
        ⟨hskips hcalla, fun u hu => ?_⟩ hx hcalla'
      have := hline u hu
      revert this
      cases u.kind <;> simp [acabaLinea]

/-- The lines of a block keep what holds of the value, and what holds behind the end of a line. -/
theorem Hace.lineas {cuerpo : σ → Parse (σ ⊕ σ)} {I : Parser → Prop} {Q : σ → Prop}
    (hI : TrasLinea I) [∀ a, Sana N b true vuelve (cuerpo a)]
    (h : ∀ a, Q a → Hace c N b true (fun s => I s ∧ ∀ t ∈ s.rest.head?, acabaLinea t.kind = false)
      (cuerpo a) fun y s => Q (y.elim id id) ∧ I s) (a : σ) (ha : Q a) :
    Hace c N b d I (Syntax.lineas cuerpo a) fun a s => Q a ∧ I s := by
  have hturno := @Sana.linea σ N b cuerpo fun a => Sana.de_linea (x := cuerpo a) inferInstance
  unfold Syntax.lineas
  refine (Hace.mientras (I := fun a s => Q a ∧ I s) (J := fun a s => Q a ∧ I s) (fun a => ?_)
    (fun _ _ hs _ => hs) a).de_imp fun s hs => ⟨ha, hs⟩
  refine .consta (F := Q a) (fun s hs => hs.1.1) fun ha => ?_
  refine (Hace.linea hI (h a ha) fun s hs => ⟨ha, hs⟩).imp (fun y s hs => ?_) |>.de_imp
    fun s hs => hs.1.2
  cases y <;> exact hs

/-- A net changes nothing where each turn takes a token, or where nothing is said of the state. -/
theorem Hace.conRed {cuerpo : Parse (σ ⊕ σ)} {I : Parser → Prop} {Q : σ → Prop} (hI : TrasLinea I)
    [hc : Sana N b true nunca cuerpo]
    (h : Hace c N b true P cuerpo fun y s => Q (y.elim id id) ∧ I s)
    (hcome : (∀ s, I s) ∨ Sana N b true siempre cuerpo) :
    Hace c N b true P (Syntax.conRed cuerpo) fun y s => Q (y.elim id id) ∧ I s where
  da s z s' hs hN hd hP hz hdiags := by
    obtain ⟨y, s₁, hy, hs₁, -⟩ := hc.va s hs.toBuena hN hd
    have hrun : Syntax.conRed cuerpo s = red s.rest.length y s₁ :=
      (bind_ok (a := s.rest.length) (x := quedan) rfl).trans (bind_ok hy)
    rw [hrun] at hz
    cases y with
    | inr a =>
      cases hz
      exact h.da s _ s' hs hN hd hP hy hdiags
    | inl a =>
      obtain ⟨u, s₂, hskip, hz⟩ := bind_inv hz
      have hskips : Sana N b false nunca skipNewlines := inferInstance
      have hpulcra := hs₁.pulcra hs
      have hN₁ : s₁.rest.length + b.toNat ≤ N := by have := hs₁.le; omega
      have hs₂ := (hskips.sigue hpulcra.toBuena hN₁ (by simp) hskip).1
      rw [bind_ok (a := s₂.rest.length) (x := quedan) rfl] at hz
      split at hz
      · next hsame =>
        obtain ⟨t, s₃, hadvance, hpure⟩ := bind_inv hz
        cases hpure
        have hadvances : Sana N b false nunca Syntax.advance := inferInstance
        have hs₃ := (hadvances.sigue (hs₂.buena hpulcra.toBuena) (by have := hs₂.le; omega) (by simp)
          hadvance).1
        rcases hcome with hall | hcome
        · have hcalla := (hs₁.calla (hs₂.trans hs₃) hdiags).1
          exact ⟨(h.da s _ s₁ hs hN hd hP hy hcalla).1, hall _⟩
        · have hlt := (hcome.sigue hs.toBuena hN hd hy).2 rfl
          have := hs₂.le
          omega
      · cases hz
        obtain ⟨hcalla, hcalla'⟩ := hs₁.calla hs₂ hdiags
        obtain ⟨hQ, hIs⟩ := h.da s _ s₁ hs hN hd hP hy hcalla
        exact ⟨hQ, ((skipNewlines_hace hI).da s₁ u s' hpulcra hN₁ (d := false) (by simp) hIs hskip
          hcalla').1⟩

end Rules

end Osodio.Syntax
