import Osodio.Syntax.Declarations

/-!
# What a rule reads

A rule reads some tokens in front of others: it takes exactly these, gives a value for them, and
has nothing to say against them.  Whether it stops where it should may depend on the first token
that it leaves.

## Main definitions

- `Lee` — a rule reads some tokens
- `Ante` — what a rule leaves begins with a token that does not go on with it

## Main results

- `Lee.bind` — one rule after another
- `Lee.vuelta`, `Lee.sale`, `Lee.para` — the turns of a loop
-/

namespace Osodio.Syntax

/-- The rule takes the tokens `ts`, in front of `rest`, for `a`. -/
def Lee {α : Type} (x : Parse α) (ts : List Token) (a : α) (rest : List Token) : Prop :=
  ∀ past diags, x ⟨past, ts ++ rest, diags⟩ = .ok (a, ⟨ts.reverse ++ past, rest, diags⟩)

/-- There is a token ahead, and its kind is not one of these. -/
def Ante (p : Tok → Bool) (rest : List Token) : Prop :=
  ∃ t r, rest = t :: r ∧ p t.kind = false

section Ante

variable {p q : Tok → Bool} {rest : List Token}

theorem Ante.cons {t : Token} (h : p t.kind = false) : Ante p (t :: rest) := ⟨t, rest, rfl, h⟩

theorem Ante.ne_nil (h : Ante p rest) : rest ≠ [] := by
  obtain ⟨t, r, rfl, -⟩ := h
  exact List.cons_ne_nil t r

theorem Ante.imp (h : Ante p rest) (hpq : ∀ k, p k = false → q k = false) : Ante q rest := by
  obtain ⟨t, r, rfl, ht⟩ := h
  exact .cons (hpq _ ht)

end Ante

section Rules

variable {α β : Type} {x y : Parse α} {f : α → Parse β} {ts ts' rest : List Token} {a : α} {b : β}

theorem Lee.pure : Lee (Pure.pure a) [] a rest := fun _ _ => rfl

theorem Lee.bind (hx : Lee x ts a (ts' ++ rest)) (hf : Lee (f a) ts' b rest) :
    Lee (x >>= f) (ts ++ ts') b rest := by
  intro past diags
  have hfirst := hx past diags
  rw [← List.append_assoc] at hfirst
  rw [bind_ok hfirst, hf, List.reverse_append, List.append_assoc]

/-- Nothing more is taken behind it. -/
theorem Lee.map (hx : Lee x ts a rest) (hf : Lee (f a) [] b rest) : Lee (x >>= f) ts b rest := by
  simpa using @Lee.bind _ _ _ _ _ [] _ _ _ hx hf

theorem Lee.nil_bind (hx : Lee x [] a (ts ++ rest)) (hf : Lee (f a) ts b rest) :
    Lee (x >>= f) ts b rest :=
  @Lee.bind _ _ _ _ [] _ _ _ _ hx hf

variable {t : Token} {r : List Token} {k : Tok}

theorem Lee.advance (h : rest ≠ []) : Lee advance [t] t rest := by
  intro past diags
  obtain ⟨u, r, rfl⟩ := List.exists_cons_of_ne_nil h
  rfl

theorem Lee.take {f : Token → Parse β} (hf : Lee (f t) ts b rest) (h : ts ++ rest ≠ []) :
    Lee (Syntax.advance >>= f) (t :: ts) b rest :=
  @Lee.bind _ _ _ _ [t] _ _ _ _ (.advance h) hf

/-- The token behind is the one just taken. -/
theorem Lee.take_prev {f : Token → Parse β} (hf : Lee (f t) [] b rest) (h : rest ≠ []) :
    Lee (Syntax.advance >>= fun _ => Syntax.prev >>= f) [t] b rest := by
  intro past diags
  obtain ⟨u, r, rfl⟩ := List.exists_cons_of_ne_nil h
  exact hf (t :: past) diags

theorem Lee.peek {f : Token → Parse β} (hhead : ts ++ rest = t :: r) (hf : Lee (f t) ts b rest) :
    Lee (Syntax.peek >>= f) ts b rest := by
  intro past diags
  rw [bind_ok (peek_cons hhead)]
  exact hf past diags

theorem Lee.cuando_si {hk : k ≠ .endOfFile} (ht : t.kind = k) (h : Lee x (t :: ts) a rest) :
    Lee (cuando k x y hk) (t :: ts) a rest := by
  intro past diags
  have hcheck : check k ⟨past, t :: ts ++ rest, diags⟩ =
      .ok (true, ⟨past, t :: ts ++ rest, diags⟩) := by
    rw [check, bind_ok (peek_cons rfl), ht, decide_eq_true rfl]
    rfl
  rw [cuando, bind_ok hcheck, if_pos rfl]
  exact h past diags

theorem Lee.cuando_no {hk : k ≠ .endOfFile} (hante : Ante (· = k) (ts ++ rest))
    (h : Lee y ts a rest) : Lee (cuando k x y hk) ts a rest := by
  intro past diags
  obtain ⟨t, r, hr, ht⟩ := hante
  replace ht : decide (t.kind = k) = false := ht
  have hcheck : check k ⟨past, ts ++ rest, diags⟩ = .ok (false, ⟨past, ts ++ rest, diags⟩) := by
    rw [check, bind_ok (peek_cons hr), ht]
    rfl
  rw [cuando, bind_ok hcheck, if_neg Bool.false_ne_true]
  exact h past diags

theorem Lee.toma_si {hk : k ≠ .endOfFile} {x : Token → Parse α} (ht : t.kind = k)
    (h : Lee (x t) ts a rest) (hrest : ts ++ rest ≠ []) : Lee (toma k x y hk) (t :: ts) a rest :=
  .cuando_si ht (.take h hrest)

theorem Lee.toma_no {hk : k ≠ .endOfFile} {x : Token → Parse α} (hante : Ante (· = k) (ts ++ rest))
    (h : Lee y ts a rest) : Lee (toma k x y hk) ts a rest :=
  .cuando_no hante h

theorem Lee.expect {hk : k ≠ .endOfFile} {context : String} (ht : t.kind = k) (h : rest ≠ []) :
    Lee (expect k context hk) [t] true rest :=
  .toma_si ht .pure h

/-- A token that has to be there. -/
theorem Lee.take_expect {hk : k ≠ .endOfFile} {context : String} {f : Bool → Parse β}
    (ht : t.kind = k) (hf : Lee (f true) ts b rest) (h : ts ++ rest ≠ []) :
    Lee (Syntax.expect k context hk >>= f) (t :: ts) b rest :=
  @Lee.bind _ _ _ _ [t] _ _ _ _ (.expect ht h) hf

end Rules

/-! ## Loops -/

section Loops

variable {σ : Type} {turno : σ → Parse (σ ⊕ σ)}

/-- Turns beyond the tokens that are left change nothing. -/
theorem vueltas_add (n m : ℕ) (a : σ) (s : Parser) (h : s.rest.length < n) :
    vueltas turno (n + m) a s = vueltas turno n a s := by
  induction n generalizing a s with
  | zero => omega
  | succ n ih =>
    rw [Nat.succ_add]
    dsimp only [vueltas]
    split
    · split
      · next hlt => exact ih _ _ (by omega)
      · rfl
    · rfl
    · rfl

variable {p : Tok → Bool} {cuerpo : σ → Parse (σ ⊕ σ)} {hp : p .endOfFile = false} {a b b' : σ}
  {t : Token} {ts ts' rest : List Token}

theorem Lee.para (h : Ante p rest) : Lee (mientras p cuerpo a hp) [] a rest := by
  intro past diags
  obtain ⟨t, r, rfl, ht⟩ := h
  refine vueltas_inr ?_
  rw [bind_ok (peek_cons rfl), if_neg (by rw [ht]; exact Bool.false_ne_true)]
  rfl

theorem Lee.sale (ht : p t.kind = true) (h : Lee (cuerpo a) (t :: ts) (.inr b) rest) :
    Lee (mientras p cuerpo a hp) (t :: ts) b rest := by
  intro past diags
  refine vueltas_inr ?_
  rw [bind_ok (peek_cons rfl), if_pos ht]
  exact h past diags

theorem Lee.vuelta (ht : p t.kind = true) (h : Lee (cuerpo a) (t :: ts) (.inl b) (ts' ++ rest))
    (h' : Lee (mientras p cuerpo b hp) ts' b' rest) :
    Lee (mientras p cuerpo a hp) (t :: ts ++ ts') b' rest := by
  intro past diags
  have hturno : (do if p (← Syntax.peek).kind then cuerpo a else return .inr a)
      ⟨past, t :: ts ++ ts' ++ rest, diags⟩ =
      .ok (.inl b, ⟨(t :: ts).reverse ++ past, ts' ++ rest, diags⟩) := by
    rw [List.append_assoc, bind_ok (peek_cons rfl), if_pos ht]
    exact h past diags
  have hlt : (ts' ++ rest).length < (t :: ts ++ ts' ++ rest).length := by
    simp only [List.length_append, List.length_cons]
    omega
  have hlen : (t :: ts ++ ts' ++ rest).length = (ts' ++ rest).length + 1 + ts.length := by
    simp only [List.length_append, List.length_cons]
    omega
  have hsigue := h' ((t :: ts).reverse ++ past) diags
  rw [mientras, ← vueltas_add _ ts.length _ _ (Nat.lt_succ_self _)] at hsigue
  rw [mientras, vueltas_inl hturno hlt]
  dsimp only at hsigue ⊢
  rw [hlen, hsigue, List.reverse_append, List.append_assoc]

end Loops

end Osodio.Syntax
