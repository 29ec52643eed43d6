import Osodio.Odio.Rendering
import Osodio.Odio.Structure

/-!
# Running the code of a tree

A tree is drawn part by part: of the branches of a condition the first one whose condition holds,
and a loop as its rule says.  The code of the tree does the same, instruction by instruction.

## Main definitions

- `Arbol.pintar` — a tree is drawn; the rule for loops is a parameter
- `vueltas` — the rule of the source
- `Ley` — a condition on the states of a rendering, and what follows from it
- `Tramo` — a part of the code

## Main results

- `rondaDe_fiel` — the passes of a loop are those of its two instructions
- `Arbol.llega` — the code of a tree draws the tree
- `Arbol.isSome` — a rendering that ends has drawn the tree
-/

namespace Osodio.Odio.Template

/-! ## Drawing -/

/-- What a part of a template does to the page. -/
abbrev Trazo := Lienzo → Efecto Lienzo

/-- How a loop over the list at an address draws its body. -/
abbrev Ronda := (cuerpo : Trazo) → (addr slot slotLoop : ℕ) → Trazo

/-- The passes of a loop from the one at `i` on, as the source makes them: as long as the list has
    an item there.  They are cut off after a number of passes. -/
def vueltas (cuerpo : Trazo) (addr slot slotLoop : ℕ) : ℕ → ℕ → Trazo
  | 0, _, _ => none
  | n + 1, i, s =>
    match (listAt s.world.heap addr)[i]? with
    | none => some (.ok s)
    | some item =>
      Efecto.luego (some (s.poner slot slotLoop item i (listAt s.world.heap addr).length))
        fun s => (cuerpo s).luego (vueltas cuerpo addr slot slotLoop n (i + 1))

/-- The rule of the source for loops. -/
def rondaDe (n : ℕ) : Ronda := fun cuerpo addr slot slotLoop =>
  vueltas cuerpo addr slot slotLoop n 0

section Draw

variable (V : Evaluador) (p : Compilador) (R : Ronda)

mutual

/-- A tree is drawn. -/
def Arbol.pintar : Arbol → Origen → Trazo
  | .nada, _, s => some (.ok s)
  | .luego a b, o, s => (a.pintar o s).luego (b.pintar (a.tras o))
  | .texto _, o, s => s.imprimir p o.textos
  | .escribir crudo _, o, s => s.escribir V p crudo o.exprs
  | .si _ rama resto, o, s => (s.evaluar V p o.exprs).luego fun r =>
    if r.1.truthy r.2.world.heap then rama.pintar o.condicion r.2
    else resto.pintar (rama.tras o.condicion) r.2
  | .bucle _ _ cuerpo, o, s => (s.evaluar V p o.exprs).luego fun r =>
    match r.1 with
    | .list addr => R (cuerpo.pintar o.dentro) addr o.nombres (o.nombres + 1) r.2
    | v => some (.error (noLista v))

/-- None of the conditions so far was true. -/
def Ramas.pintar : Ramas → Origen → Trazo
  | .fin, _, s => some (.ok s)
  | .sino rama, o, s => rama.pintar o.salto s
  | .elif _ rama resto, o, s => (s.evaluar V p o.salto.exprs).luego fun r =>
    if r.1.truthy r.2.world.heap then rama.pintar o.salto.condicion r.2
    else resto.pintar (rama.tras o.salto.condicion) r.2

end

end Draw

/-! ## Parts of the code -/

/-- A part of a list, from a place on. -/
def Tramo {α : Type} (l : List α) (pos : ℕ) (parte : List α) : Prop :=
  ∃ antes despues, l = antes ++ parte ++ despues ∧ antes.length = pos

section Parts

variable {α : Type} {l : List α} {pos : ℕ} {i : α} {parte parte' : List α}

theorem Tramo.head (h : Tramo l pos (i :: parte)) : l[pos]? = some i := by
  obtain ⟨antes, despues, rfl, rfl⟩ := h
  simp

theorem Tramo.tail (h : Tramo l pos (i :: parte)) : Tramo l (pos + 1) parte := by
  obtain ⟨antes, despues, rfl, rfl⟩ := h
  exact ⟨antes ++ [i], despues, by simp, by simp⟩

theorem Tramo.left (h : Tramo l pos (parte ++ parte')) : Tramo l pos parte := by
  obtain ⟨antes, despues, rfl, rfl⟩ := h
  exact ⟨antes, parte' ++ despues, by simp, rfl⟩

theorem Tramo.right (h : Tramo l pos (parte ++ parte')) :
    Tramo l (pos + parte.length) parte' := by
  obtain ⟨antes, despues, rfl, rfl⟩ := h
  exact ⟨antes ++ parte, despues, by simp, by simp⟩

theorem Tramo.refl (l : List α) : Tramo l 0 l := ⟨[], [], by simp, rfl⟩

end Parts

/-! ## What follows from a condition on the states -/

/-- A condition on the states of a rendering, and what a step from such a state keeps for the
    lists that are gone through. -/
structure Ley (V : Evaluador) (p : Compilador) where
  condicion : Estado → Prop
  guarda : List Marco → Lienzo → Lienzo → Prop
  refl : ∀ bucles s, guarda bucles s s
  trans : ∀ {bucles s t u}, guarda bucles s t → guarda bucles t u → guarda bucles s u
  /-- What is kept for all the lists is kept for those outside. -/
  outside : ∀ {m bucles s t}, guarda (m :: bucles) s t → guarda bucles s t
  step : ∀ {e e'}, condicion e → paso V p e = some (.ok e') → guarda e.bucles e.lienzo e'.lienzo

namespace Ley

/-- No condition. -/
def ninguna (V : Evaluador) (p : Compilador) : Ley V p where
  condicion _ := True
  guarda _ _ _ := True
  refl _ _ := trivial
  trans _ _ := trivial
  outside _ := trivial
  step _ _ := trivial

variable {V : Evaluador} {p : Compilador} (L : Ley V p) {e e' : Estado} {bucles : List Marco}
  {s : Lienzo} {r : Except Desenlace Lienzo} {pos : ℕ}

/-- All states of the rendering from here on meet the condition. -/
def Rige (e : Estado) : Prop := ∀ e', Llega V p e e' → L.condicion e'

/-- From `e` the rendering goes on to `pos`, or ends. -/
def Sale (e : Estado) (bucles : List Marco) (pos : ℕ) : Except Desenlace Lienzo → Prop
  | .ok t => Llega V p e ⟨pos, bucles, t⟩ ∧ L.guarda bucles e.lienzo t
  | .error d => Acaba V p e d

variable {L}

theorem Rige.llega (h : L.Rige e) (hr : Llega V p e e') : L.Rige e' :=
  fun e₁ h₁ => h e₁ (hr.trans h₁)

theorem Sale.refl (s : Lienzo) : L.Sale ⟨pos, bucles, s⟩ bucles pos (.ok s) :=
  ⟨.refl, L.refl bucles s⟩

/-- What comes after states that are left behind. -/
theorem Sale.after (h : L.Sale e' bucles pos r) (hr : Llega V p e e')
    (hkept : L.guarda bucles e.lienzo e'.lienzo) : L.Sale e bucles pos r := by
  cases r with
  | ok t => exact ⟨hr.trans h.1, L.trans hkept h.2⟩
  | error d => exact hr.acaba h

/-- An action, and what comes after it. -/
theorem Sale.luego {x : Efecto Lienzo} {f : Trazo} {medio : ℕ} (hx : x.luego f = some r)
    (h : ∀ r, x = some r → L.Sale e bucles medio r)
    (hf : ∀ t r, x = some (.ok t) → L.Sale e bucles medio (.ok t) → f t = some r →
      L.Sale ⟨medio, bucles, t⟩ bucles pos r) : L.Sale e bucles pos r := by
  cases x with
  | none => cases hx
  | some a =>
    have ha := h a rfl
    cases a with
    | error d =>
      cases hx
      exact ha
    | ok t => exact (hf t r rfl ha hx).after ha.1 ha.2

/-- The rule `R` is that of the instructions of a loop. -/
def Fiel (L : Ley V p) (R : Ronda) : Prop :=
  ∀ (cuerpo : Trazo) (addr slot slotLoop ini pie fin : ℕ) (e : Estado) (s : Lienzo)
    (r : Except Desenlace Lienzo),
    (∀ i t r, L.Rige ⟨ini, ⟨addr, i⟩ :: e.bucles, t⟩ → cuerpo t = some r →
      L.Sale ⟨ini, ⟨addr, i⟩ :: e.bucles, t⟩ (⟨addr, i⟩ :: e.bucles) pie r) →
    (∀ i t, paso V p ⟨pie, ⟨addr, i⟩ :: e.bucles, t⟩ =
      some (pasar addr (i + 1) ini fin slot slotLoop e.bucles t)) →
    paso V p e = some (pasar addr 0 ini fin slot slotLoop e.bucles s) →
    L.Rige e → R cuerpo addr slot slotLoop s = some r → L.Sale e e.bucles fin r

end Ley

/-! ## The rule of the source -/

section Passes

variable {V : Evaluador} {p : Compilador} {L : Ley V p} {bucles : List Marco}
  {cuerpo : Trazo} {addr slot slotLoop ini pie fin : ℕ}

/-- The passes from the one at `i` on, which begins with the step from `e`. -/
theorem vueltas_sale
    (hcuerpo : ∀ i t r, L.Rige ⟨ini, ⟨addr, i⟩ :: bucles, t⟩ → cuerpo t = some r →
      L.Sale ⟨ini, ⟨addr, i⟩ :: bucles, t⟩ (⟨addr, i⟩ :: bucles) pie r)
    (hpie : ∀ i t, paso V p ⟨pie, ⟨addr, i⟩ :: bucles, t⟩ =
      some (pasar addr (i + 1) ini fin slot slotLoop bucles t))
    {n i : ℕ} {e : Estado} {s : Lienzo} {r : Except Desenlace Lienzo}
    (hpaso : paso V p e = some (pasar addr i ini fin slot slotLoop bucles s))
    (hb : ∀ t, L.guarda e.bucles e.lienzo t → L.guarda bucles e.lienzo t) (hL : L.Rige e)
    (hr : vueltas cuerpo addr slot slotLoop n i s = some r) : L.Sale e bucles fin r := by
  induction n generalizing i e s with
  | zero => cases hr
  | succ n ih =>
    unfold vueltas at hr
    unfold pasar at hpaso
    cases hitem : (listAt s.world.heap addr)[i]? with
    | none =>
      simp only [hitem] at hr hpaso
      cases hr
      exact ⟨.single hpaso, hb _ (L.step (hL e .refl) hpaso)⟩
    | some item =>
      simp only [hitem] at hr hpaso
      cases hponer : s.poner slot slotLoop item i (listAt s.world.heap addr).length with
      | error d =>
        rw [hponer] at hr hpaso
        cases hr
        exact ⟨e, .refl, hpaso⟩
      | ok t =>
        rw [hponer] at hr hpaso
        have hkept := hb _ (L.step (hL e .refl) hpaso)
        have hL' := hL.llega (.single hpaso)
        have hr : (cuerpo t).luego (vueltas cuerpo addr slot slotLoop n (i + 1)) = some r := hr
        cases hc : cuerpo t with
        | none =>
          rw [hc] at hr
          cases hr
        | some a =>
          have hs := hcuerpo i t a hL' hc
          rw [hc] at hr
          cases a with
          | error d =>
            cases hr
            exact Llega.acaba (.single hpaso) hs
          | ok u =>
            have hrest := ih (hpie i u) (fun _ h => L.outside h)
              (hL'.llega hs.1) hr
            exact hrest.after (.head hpaso hs.1) (L.trans hkept (L.outside hs.2))

theorem rondaDe_fiel (L : Ley V p) (n : ℕ) : L.Fiel (rondaDe n) :=
  fun _ _ _ _ _ _ _ _ _ _ hcuerpo hpie hpaso hL hr =>
    vueltas_sale hcuerpo hpie hpaso (fun _ h => h) hL hr

end Passes

/-! ## The code of a tree draws the tree -/

section Code

variable {V : Evaluador} {p : Compilador} {L : Ley V p} {R : Ronda} {B : List Marco}
  {s : Lienzo} {r : Except Desenlace Lienzo} {pos fin : ℕ}

/-- An instruction that acts on the page. -/
theorem accion_sale {x : Efecto Lienzo} (hL : L.Rige ⟨pos, B, s⟩)
    (hstep : paso V p ⟨pos, B, s⟩ = x.luego fun t => some (.ok ⟨pos + 1, B, t⟩))
    (hx : x = some r) : L.Sale ⟨pos, B, s⟩ B (pos + 1) r := by
  subst hx
  cases r with
  | ok t => exact ⟨.single hstep, L.step (hL _ .refl) hstep⟩
  | error d => exact ⟨_, .refl, hstep⟩

/-- `Saltar`. -/
theorem saltar_sale {destino : ℕ} (hL : L.Rige ⟨pos, B, s⟩)
    (hc : p.code[pos]? = some (.saltar destino)) (h : L.Sale ⟨destino, B, s⟩ B fin r) :
    L.Sale ⟨pos, B, s⟩ B fin r := by
  have hstep : paso V p ⟨pos, B, s⟩ = some (.ok ⟨destino, B, s⟩) := by simp [paso, hc]
  exact h.after (.single hstep) (L.step (hL _ .refl) hstep)

/-- `SaltarSiFalso`. -/
theorem condicion_sale {k destino : ℕ} {f g : Trazo} (hL : L.Rige ⟨pos, B, s⟩)
    (hc : p.code[pos]? = some (.saltarSiFalso k destino))
    (hr : (s.evaluar V p k).luego (fun r =>
      if r.1.truthy r.2.world.heap then f r.2 else g r.2) = some r)
    (hf : ∀ t, L.Rige ⟨pos + 1, B, t⟩ → f t = some r → L.Sale ⟨pos + 1, B, t⟩ B fin r)
    (hg : ∀ t, L.Rige ⟨destino, B, t⟩ → g t = some r → L.Sale ⟨destino, B, t⟩ B fin r) :
    L.Sale ⟨pos, B, s⟩ B fin r := by
  have hstep : paso V p ⟨pos, B, s⟩ = (s.evaluar V p k).luego fun r =>
      some (.ok ⟨if r.1.truthy r.2.world.heap then pos + 1 else destino, B, r.2⟩) := by
    simp [paso, hc]
  cases hv : s.evaluar V p k with
  | none =>
    rw [hv] at hr
    cases hr
  | some a =>
    rw [hv] at hr hstep
    cases a with
    | error d =>
      cases hr
      exact ⟨_, .refl, hstep⟩
    | ok v =>
      obtain ⟨v, t⟩ := v
      have hr : (if v.truthy t.world.heap then f t else g t) = some r := hr
      have hstep : paso V p ⟨pos, B, s⟩ =
          some (.ok ⟨if v.truthy t.world.heap then pos + 1 else destino, B, t⟩) := hstep
      have hkept := L.step (hL _ .refl) hstep
      have hL' := hL.llega (.single hstep)
      by_cases htrue : v.truthy t.world.heap = true
      · simp only [htrue, if_true] at hr hstep hL'
        exact (hf t hL' hr).after (.single hstep) hkept
      · simp only [htrue] at hr hstep hL'
        exact (hg t hL' hr).after (.single hstep) hkept

/-- What comes after a part that has been drawn. -/
theorem Ley.Sale.sigue {e : Estado} {medio : ℕ} (h : L.Sale e B medio r) (hL : L.Rige e)
    (hrest : ∀ t, L.Rige ⟨medio, B, t⟩ → L.Sale ⟨medio, B, t⟩ B fin (.ok t)) :
    L.Sale e B fin r := by
  cases r with
  | ok t => exact (hrest t (hL.llega h.1)).after h.1 h.2
  | error d => exact h

/-- From the end of a branch to the end of the condition. -/
theorem Ramas.salta (rs : Ramas) {o : Origen} (hT : Tramo p.code o.pos (rs.code o fin))
    (hfin : (rs.tras o).pos = fin) (hL : L.Rige ⟨o.pos, B, s⟩) :
    L.Sale ⟨o.pos, B, s⟩ B fin (.ok s) := by
  cases rs with
  | fin =>
    subst hfin
    exact .refl s
  | sino rama => exact saltar_sale hL hT.head (.refl s)
  | elif cond rama resto => exact saltar_sale hL hT.head (.refl s)

mutual

/-- **The code of a tree draws the tree.** -/
theorem Arbol.llega (hR : L.Fiel R) (a : Arbol) (o : Origen) (B : List Marco) (s : Lienzo)
    (r : Except Desenlace Lienzo) (hT : Tramo p.code o.pos (a.code o)) (hL : L.Rige ⟨o.pos, B, s⟩)
    (hr : a.pintar V p R o s = some r) : L.Sale ⟨o.pos, B, s⟩ B (a.tras o).pos r := by
  cases a with
  | nada =>
    cases hr
    exact .refl s
  | luego a b =>
    rw [Arbol.code] at hT
    rw [Arbol.pintar] at hr
    have hright := hT.right
    rw [← Arbol.length_code] at hright
    refine Ley.Sale.luego hr (fun r hr => a.llega hR o B s r hT.left hL hr) fun t r _ hs hr => ?_
    exact b.llega hR (a.tras o) B t r hright (hL.llega hs.1) hr
  | texto t =>
    have hc := hT.head
    exact accion_sale hL (by simp [paso, hc, Arbol.pintar]) hr
  | escribir crudo expr =>
    have hc := hT.head
    refine accion_sale hL ?_ hr
    cases crudo <;> simp [paso, hc, Arbol.pintar]
  | si cond rama resto =>
    rw [Arbol.code] at hT
    have hrama := hT.tail.left
    have hresto := hT.tail.right
    have hpos : (rama.tras o.condicion).pos = o.pos + 1 + (rama.code o.condicion).length :=
      rama.length_code o.condicion
    rw [← hpos] at hresto
    refine condicion_sale hL hT.head hr (fun t hL hr => ?_) fun t hL hr => ?_
    · exact (rama.llega hR o.condicion B t r hrama hL hr).sigue hL fun t hL =>
        resto.salta hresto rfl hL
    · exact resto.llega hR (rama.tras o.condicion) B t r hresto rfl hL hr
  | bucle var lista cuerpo =>
    rw [Arbol.code] at hT
    have hcuerpo := hT.tail.left
    have hpie := hT.tail.right.head
    have hpos : (cuerpo.tras o.dentro).pos = o.pos + 1 + (cuerpo.code o.dentro).length :=
      cuerpo.length_code o.dentro
    rw [← hpos] at hpie
    rw [Arbol.pintar] at hr
    have hc := hT.head
    cases hv : s.evaluar V p o.exprs with
    | none =>
      rw [hv] at hr
      cases hr
    | some x =>
      rw [hv] at hr
      cases x with
      | error d =>
        cases hr
        exact ⟨_, .refl, by simp [paso, hc, hv, Efecto.luego]⟩
      | ok v =>
        obtain ⟨v, t⟩ := v
        cases v with
        | list addr =>
          refine hR (cuerpo.pintar V p R o.dentro) addr o.nombres (o.nombres + 1) (o.pos + 1)
            (cuerpo.tras o.dentro).pos ((cuerpo.tras o.dentro).pos + 1) ⟨o.pos, B, s⟩ t r
            (fun i u r hL hr => ?_) (fun i u => ?_) ?_ hL hr
          · exact cuerpo.llega hR o.dentro (⟨addr, i⟩ :: B) u r hcuerpo hL hr
          · simp [paso, hpie]
          · simp [paso, hc, hv, Efecto.luego]
        | _ =>
          cases hr
          exact ⟨_, .refl, by simp [paso, hc, hv, Efecto.luego]⟩

theorem Ramas.llega (hR : L.Fiel R) (rs : Ramas) (o : Origen) (B : List Marco) (s : Lienzo)
    (r : Except Desenlace Lienzo) {fin : ℕ} (hT : Tramo p.code o.pos (rs.code o fin))
    (hfin : (rs.tras o).pos = fin) (hL : L.Rige ⟨o.pos + rs.hueco, B, s⟩)
    (hr : rs.pintar V p R o s = some r) : L.Sale ⟨o.pos + rs.hueco, B, s⟩ B fin r := by
  cases rs with
  | fin =>
    cases hr
    subst hfin
    exact .refl s
  | sino rama =>
    subst hfin
    exact rama.llega hR o.salto B s r hT.tail hL hr
  | elif cond rama resto =>
    rw [Ramas.code] at hT
    have hrama := hT.tail.tail.left
    have hresto := hT.tail.tail.right
    have hpos : (rama.tras o.salto.condicion).pos =
        o.pos + 1 + 1 + (rama.code o.salto.condicion).length :=
      rama.length_code o.salto.condicion
    rw [← hpos] at hresto
    refine condicion_sale hL hT.tail.head hr (fun t hL hr => ?_) fun t hL hr => ?_
    · exact (rama.llega hR o.salto.condicion B t r hrama hL hr).sigue hL fun t hL =>
        resto.salta hresto hfin hL
    · exact resto.llega hR (rama.tras o.salto.condicion) B t r hresto hfin hL hr

end

end Code

/-! ## A rendering that ends has drawn the tree -/

section Ends

variable {V : Evaluador} {p : Compilador} {B : List Marco} {s t : Lienzo} {d : Desenlace}
  {n N : ℕ}

theorem Arbol.llega_ok {a : Arbol} {o : Origen} (hT : Tramo p.code o.pos (a.code o))
    (hr : a.pintar V p (rondaDe N) o s = some (.ok t)) :
    Llega V p ⟨o.pos, B, s⟩ ⟨(a.tras o).pos, B, t⟩ :=
  (a.llega (rondaDe_fiel (.ninguna V p) N) o B s (.ok t) hT (fun _ _ => trivial) hr).1

theorem vueltas_isSome {cuerpo : Trazo} {addr slot slotLoop : ℕ} (ini pie fin : ℕ)
    (hcuerpo : ∀ i t n, n ≤ N → correr V p n ⟨ini, ⟨addr, i⟩ :: B, t⟩ = some d →
      (cuerpo t).isSome)
    (hllega : ∀ i t u, cuerpo t = some (.ok u) →
      Llega V p ⟨ini, ⟨addr, i⟩ :: B, t⟩ ⟨pie, ⟨addr, i⟩ :: B, u⟩)
    (hpie : ∀ i t, paso V p ⟨pie, ⟨addr, i⟩ :: B, t⟩ =
      some (pasar addr (i + 1) ini fin slot slotLoop B t))
    {e : Estado} {i k : ℕ} (hk : n ≤ k) (hN : n ≤ N)
    (hpaso : paso V p e = some (pasar addr i ini fin slot slotLoop B s))
    (hn : correr V p n e = some d) : (vueltas cuerpo addr slot slotLoop k i s).isSome := by
  -- each pass takes a step at least, so the instructions run out before the passes do
  induction k generalizing n e i s with
  | zero =>
    obtain rfl := Nat.le_zero.1 hk
    cases hn
  | succ k ih =>
    cases n with
    | zero => cases hn
    | succ n =>
      unfold vueltas
      unfold pasar at hpaso
      cases hitem : (listAt s.world.heap addr)[i]? with
      | none => rfl
      | some item =>
        simp only [hitem] at hpaso ⊢
        cases hponer : s.poner slot slotLoop item i (listAt s.world.heap addr).length with
        | error d' => rfl
        | ok t =>
          rw [hponer] at hpaso
          rw [correr_succ_ok hpaso] at hn
          have hsome := hcuerpo i t n (Nat.le_of_succ_le hN) hn
          change ((cuerpo t).luego (vueltas cuerpo addr slot slotLoop k (i + 1))).isSome = true
          cases hc : cuerpo t with
          | none =>
            rw [hc] at hsome
            cases hsome
          | some a =>
            cases a with
            | error d' => rfl
            | ok u =>
              obtain ⟨m, hm, hn⟩ := (hllega i t u hc).correr hn
              exact ih (hm.trans (Nat.le_of_succ_le_succ hk)) (hm.trans (Nat.le_of_succ_le hN))
                (hpie i u) hn

/-- The instruction that evaluates an expression ends, so the evaluation returns. -/
theorem evaluar_isSome {pos k : ℕ} {f : Value × Lienzo → Efecto Estado}
    (hstep : paso V p ⟨pos, B, s⟩ = (s.evaluar V p k).luego f)
    (hn : correr V p n ⟨pos, B, s⟩ = some d) : (s.evaluar V p k).isSome := by
  cases n with
  | zero => cases hn
  | succ n =>
    cases hv : s.evaluar V p k with
    | none =>
      rw [correr, hstep, hv] at hn
      cases hn
    | some a => rfl

/-- An action whose instruction ends. -/
theorem accion_isSome {pos : ℕ} {x : Efecto Lienzo} {f : Lienzo → Efecto Estado}
    (hstep : paso V p ⟨pos, B, s⟩ = x.luego f)
    (hn : correr V p n ⟨pos, B, s⟩ = some d) : x.isSome := by
  cases n with
  | zero => cases hn
  | succ n =>
    cases x with
    | none =>
      rw [correr, hstep] at hn
      cases hn
    | some a => rfl

/-- A condition whose two continuations draw what is left. -/
theorem condicion_isSome {pos k destino : ℕ} {f g : Trazo}
    (hc : p.code[pos]? = some (.saltarSiFalso k destino)) (hN : n ≤ N)
    (hf : ∀ t m, m ≤ N → correr V p m ⟨pos + 1, B, t⟩ = some d → (f t).isSome)
    (hg : ∀ t m, m ≤ N → correr V p m ⟨destino, B, t⟩ = some d → (g t).isSome)
    (hn : correr V p n ⟨pos, B, s⟩ = some d) :
    ((s.evaluar V p k).luego fun r =>
      if r.1.truthy r.2.world.heap then f r.2 else g r.2).isSome := by
  have hstep : paso V p ⟨pos, B, s⟩ = (s.evaluar V p k).luego fun r =>
      some (.ok ⟨if r.1.truthy r.2.world.heap then pos + 1 else destino, B, r.2⟩) := by
    simp [paso, hc]
  have hsome := evaluar_isSome hstep hn
  cases hv : s.evaluar V p k with
  | none =>
    rw [hv] at hsome
    cases hsome
  | some a =>
    rw [hv] at hstep
    cases a with
    | error d' => rfl
    | ok v =>
      obtain ⟨v, t⟩ := v
      have hstep : paso V p ⟨pos, B, s⟩ =
          some (.ok ⟨if v.truthy t.world.heap then pos + 1 else destino, B, t⟩) := hstep
      have hllega : Llega V p _ _ := .single hstep
      obtain ⟨m, hm, hn⟩ := hllega.correr hn
      change (if v.truthy t.world.heap then f t else g t).isSome = true
      by_cases htrue : v.truthy t.world.heap = true
      · simp only [htrue, if_true] at hn ⊢
        exact hf t m (hm.trans hN) hn
      · simp only [htrue] at hn ⊢
        exact hg t m (hm.trans hN) hn

mutual

/-- **A rendering that ends has drawn the tree**, in no more passes than instructions. -/
theorem Arbol.isSome (a : Arbol) (o : Origen) (B : List Marco) (s : Lienzo) (n : ℕ)
    (hT : Tramo p.code o.pos (a.code o)) (hN : n ≤ N) (hn : correr V p n ⟨o.pos, B, s⟩ = some d) :
    (a.pintar V p (rondaDe N) o s).isSome := by
  cases a with
  | nada => rfl
  | luego a b =>
    rw [Arbol.code] at hT
    rw [Arbol.pintar]
    have hright := hT.right
    rw [← Arbol.length_code] at hright
    have ha := a.isSome o B s n hT.left hN hn
    cases hr : a.pintar V p (rondaDe N) o s with
    | none =>
      rw [hr] at ha
      cases ha
    | some r =>
      cases r with
      | error d' => rfl
      | ok t =>
        obtain ⟨m, hm, hn⟩ := (Arbol.llega_ok hT.left hr).correr hn
        exact b.isSome (a.tras o) B t m hright (hm.trans hN) hn
  | texto t =>
    have hc := hT.head
    exact accion_isSome (f := fun t => some (.ok ⟨o.pos + 1, B, t⟩))
      (by simp [paso, hc, Arbol.pintar]) hn
  | escribir crudo expr =>
    have hc := hT.head
    refine accion_isSome (f := fun t => some (.ok ⟨o.pos + 1, B, t⟩)) ?_ hn
    cases crudo <;> simp [paso, hc, Arbol.pintar]
  | si cond rama resto =>
    rw [Arbol.code] at hT
    have hrama := hT.tail.left
    have hresto := hT.tail.right
    have hpos : (rama.tras o.condicion).pos = o.pos + 1 + (rama.code o.condicion).length :=
      rama.length_code o.condicion
    rw [← hpos] at hresto
    refine condicion_isSome hT.head hN (fun t m hm hn => ?_) (fun t m hm hn => ?_) hn
    · exact rama.isSome o.condicion B t m hrama hm hn
    · exact resto.isSome (rama.tras o.condicion) B t m hresto rfl hm hn
  | bucle var lista cuerpo =>
    rw [Arbol.code] at hT
    have hcuerpo := hT.tail.left
    have hpie := hT.tail.right.head
    have hpos : (cuerpo.tras o.dentro).pos = o.pos + 1 + (cuerpo.code o.dentro).length :=
      cuerpo.length_code o.dentro
    rw [← hpos] at hpie
    rw [Arbol.pintar]
    have hc := hT.head
    have hstep : paso V p ⟨o.pos, B, s⟩ = (s.evaluar V p o.exprs).luego fun r =>
        match r.1 with
        | .list addr => some (pasar addr 0 (o.pos + 1) ((cuerpo.tras o.dentro).pos + 1) o.nombres
            (o.nombres + 1) B r.2)
        | v => some (.error (noLista v)) := by
      unfold paso
      rw [hc]
      all_goals rfl
    have hsome := evaluar_isSome hstep hn
    cases hv : s.evaluar V p o.exprs with
    | none =>
      rw [hv] at hsome
      cases hsome
    | some x =>
      cases x with
      | error d' => rfl
      | ok v =>
        obtain ⟨v, t⟩ := v
        cases v with
        | list addr =>
          refine vueltas_isSome (B := B) (o.pos + 1) (cuerpo.tras o.dentro).pos
            ((cuerpo.tras o.dentro).pos + 1) (fun i t m hm hn => ?_) (fun i t u hu => ?_)
            (fun i t => ?_) hN hN ?_ hn
          · exact cuerpo.isSome o.dentro (⟨addr, i⟩ :: B) t m hcuerpo hm hn
          · exact Arbol.llega_ok hcuerpo hu
          · simp [paso, hpie]
          · rw [hstep, hv, Efecto.luego]
        | _ => rfl

theorem Ramas.isSome (rs : Ramas) (o : Origen) (B : List Marco) (s : Lienzo) (n : ℕ) {fin : ℕ}
    (hT : Tramo p.code o.pos (rs.code o fin)) (hfin : (rs.tras o).pos = fin) (hN : n ≤ N)
    (hn : correr V p n ⟨o.pos + rs.hueco, B, s⟩ = some d) :
    (rs.pintar V p (rondaDe N) o s).isSome := by
  cases rs with
  | fin => rfl
  | sino rama => exact rama.isSome o.salto B s n hT.tail hN hn
  | elif cond rama resto =>
    rw [Ramas.code] at hT
    have hrama := hT.tail.tail.left
    have hresto := hT.tail.tail.right
    have hpos : (rama.tras o.salto.condicion).pos =
        o.pos + 1 + 1 + (rama.code o.salto.condicion).length :=
      rama.length_code o.salto.condicion
    rw [← hpos] at hresto
    refine condicion_isSome hT.tail.head hN (fun t m hm hn => ?_) (fun t m hm hn => ?_) hn
    · exact rama.isSome o.salto.condicion B t m hrama hm hn
    · exact resto.isSome (rama.tras o.salto.condicion) B t m hresto hfin hm hn

end

end Ends

end Osodio.Odio.Template
