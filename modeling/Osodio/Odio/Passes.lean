import Osodio.Odio.Interleaving

/-!
# The passes of a loop

A loop of a template asks for the length of its list again after every pass.  It makes as many
passes as the list had elements when it began if no evaluation in between changes that length.

## Main definitions

- `pasadas` — the rule for loops that fixes the number of passes at the beginning
- `Responde` — the evaluation that comes next returns
- `Quieto` — the evaluation that comes next leaves the lists as long as they are
- `Ley.quieta` — both, in every state of a rendering

## Main results

- `pasadas_fiel` — as long as the lists keep their length, the passes are those of the source
- `rendering_returns` — a rendering all of whose evaluations are quiet returns
- `growing_list` — a rendering that never returns
-/

namespace Osodio.Odio.Template

/-! ## A fixed number of passes -/

/-- `k` more passes of a loop, from the one at `i` on. -/
def pasadasDesde (cuerpo : Trazo) (addr slot slotLoop : ℕ) : ℕ → ℕ → Trazo
  | 0, _, s => some (.ok s)
  | k + 1, i, s =>
    Efecto.luego (some (s.poner slot slotLoop ((listAt s.world.heap addr).getD i .null) i
        (i + (k + 1))))
      fun s => (cuerpo s).luego (pasadasDesde cuerpo addr slot slotLoop k (i + 1))

/-- As many passes as the list has elements when the loop begins. -/
def pasadas : Ronda := fun cuerpo addr slot slotLoop s =>
  pasadasDesde cuerpo addr slot slotLoop (listAt s.world.heap addr).length 0 s

/-! ## Evaluations that are quiet -/

/-- The expression that an instruction evaluates. -/
def Instr.expr? : Instr → Option ℕ
  | .escribir k | .escribirCrudo k | .saltarSiFalso k _ | .bucleInicio k _ _ _ => some k
  | _ => none

/-- The value is written. -/
def Instr.escribe : Instr → Bool
  | .escribir _ | .escribirCrudo _ => true
  | _ => false

/-- The evaluation that comes next: the instruction, and the code of its expression. -/
def Estado.evalua (p : Compilador) (e : Estado) : Option (Instr × Chunk) := do
  let i ← p.code[e.pc]?
  let k ← i.expr?
  let chunk ← p.exprs[k]?
  return (i, chunk)

/-- The evaluation that comes next returns. -/
def Responde (V : Evaluador) (p : Compilador) (e : Estado) : Prop :=
  ∀ i chunk, e.evalua p = some (i, chunk) →
    (V.evaluar e.lienzo.world e.lienzo.valores chunk).isSome

/-- The evaluation that comes next changes no length of a list that is gone through, and a value
    that is written has a text. -/
def Quieto (V : Evaluador) (p : Compilador) (e : Estado) : Prop :=
  ∀ i chunk v w, e.evalua p = some (i, chunk) →
    V.evaluar e.lienzo.world e.lienzo.valores chunk = some (.ok v, w) →
    (∀ m ∈ e.bucles,
      (listAt w.heap m.lista).length = (listAt e.lienzo.world.heap m.lista).length) ∧
    (i.escribe → (V.texto w.heap v).isSome)

section Quiet

variable {V : Evaluador} {p : Compilador} {s t : Lienzo} {e e' : Estado}

theorem listAt_concat_dict (heap : Heap) (d : Dict) (addr : ℕ) :
    listAt (heap ++ [.dict d]) addr = listAt heap addr := by
  unfold listAt
  obtain hlt | rfl | hgt := Nat.lt_trichotomy addr heap.length
  · rw [List.getElem?_append_left hlt]
  · rw [List.getElem?_concat_length, List.getElem?_eq_none le_rfl]
  · have hlen : (heap ++ [Obj.dict d]).length ≤ addr := by
      rw [List.length_append]
      exact hgt
    rw [List.getElem?_eq_none hlen, List.getElem?_eq_none hgt.le]

/-- The box of `loop` is new, and no list. -/
theorem poner_listas {slot slotLoop i n : ℕ} {item : Value}
    (h : s.poner slot slotLoop item i n = .ok t) (addr : ℕ) :
    listAt t.world.heap addr = listAt s.world.heap addr := by
  unfold Lienzo.poner at h
  split at h
  · cases h
    exact listAt_concat_dict _ _ addr
  · cases h

theorem pasar_listas {addr i cuerpo fin slot slotLoop : ℕ} {bucles : List Marco}
    (h : some (pasar addr i cuerpo fin slot slotLoop bucles s) = some (.ok e')) (a : ℕ) :
    listAt e'.lienzo.world.heap a = listAt s.world.heap a := by
  unfold pasar at h
  split at h
  · cases h
    rfl
  · cases hp : s.poner slot slotLoop _ i (listAt s.world.heap addr).length with
    | error d =>
      rw [hp] at h
      cases h
    | ok t =>
      rw [hp] at h
      cases h
      exact poner_listas hp a

/-- **What a step does to the lists**: nothing, or what the evaluation does. -/
theorem paso_listas (h : paso V p e = some (.ok e')) :
    (∀ a, listAt e'.lienzo.world.heap a = listAt e.lienzo.world.heap a) ∨
      ∃ i chunk v w, e.evalua p = some (i, chunk) ∧
        V.evaluar e.lienzo.world e.lienzo.valores chunk = some (.ok v, w) ∧
        ∀ a, listAt e'.lienzo.world.heap a = listAt w.heap a := by
  unfold paso at h
  dsimp only at h
  cases hi : p.code[e.pc]? with
  | none =>
    rw [hi] at h
    cases h
  | some i =>
    rw [hi] at h
    have hevalua {k : ℕ} {v : Value} {u : Lienzo} (hk : i.expr? = some k)
        (hu : e.lienzo.evaluar V p k = some (.ok (v, u)))
        (ha : ∀ a, listAt e'.lienzo.world.heap a = listAt u.world.heap a) :
        ∃ i chunk v w, e.evalua p = some (i, chunk) ∧
          V.evaluar e.lienzo.world e.lienzo.valores chunk = some (.ok v, w) ∧
          ∀ a, listAt e'.lienzo.world.heap a = listAt w.heap a := by
      obtain ⟨-, chunk, hc, he⟩ := evaluar_ok hu
      exact ⟨i, chunk, v, u.world, by simp [Estado.evalua, hi, hk, hc], he, ha⟩
    cases i with
    | texto a =>
      obtain ⟨u, hu, h⟩ := luego_ok h
      cases h
      unfold Lienzo.imprimir at hu
      split at hu <;> cases hu
      exact .inl fun a => rfl
    | escribir k | escribirCrudo k =>
      obtain ⟨u, hu, h⟩ := luego_ok h
      cases h
      obtain ⟨⟨v, u'⟩, hv, hu⟩ := luego_ok hu
      dsimp only at hu
      split at hu <;> cases hu
      exact .inr (hevalua rfl hv fun a => rfl)
    | saltarSiFalso k b =>
      obtain ⟨⟨v, u⟩, hu, h⟩ := luego_ok h
      cases h
      exact .inr (hevalua rfl hu fun a => rfl)
    | saltar b =>
      cases h
      exact .inl fun a => rfl
    | bucleInicio k b slot slotLoop =>
      obtain ⟨⟨v, u⟩, hu, h⟩ := luego_ok h
      cases v with
      | list addr => exact .inr (hevalua rfl hu fun a => pasar_listas h a)
      | _ => cases h
    | bucleSiguiente b slot slotLoop =>
      dsimp only at h
      split at h
      · exact .inl fun a => pasar_listas h a
      · cases h

/-- The evaluation of a state that has a next one returns. -/
theorem responde_of_paso (h : (paso V p e).isSome) : Responde V p e := by
  intro i chunk hi
  obtain ⟨i', hc, hi⟩ := Option.bind_eq_some_iff.1 hi
  obtain ⟨k, hk, hi⟩ := Option.bind_eq_some_iff.1 hi
  obtain ⟨chunk', hx, hi⟩ := Option.bind_eq_some_iff.1 hi
  cases hi
  by_contra hn
  have hnone : e.lienzo.evaluar V p k = none := by
    unfold Lienzo.evaluar
    simp [hx, Option.not_isSome_iff_eq_none.1 hn]
  unfold paso at h
  cases i <;> cases hk <;> simp [hc, hnone, Lienzo.escribir, Efecto.luego] at h

end Quiet

/-- All evaluations return and are quiet: the lists that are gone through keep their length. -/
def Ley.quieta (V : Evaluador) (p : Compilador) : Ley V p where
  condicion e := Responde V p e ∧ Quieto V p e
  guarda bucles s t := ∀ m ∈ bucles,
    (listAt t.world.heap m.lista).length = (listAt s.world.heap m.lista).length
  refl _ _ _ _ := rfl
  trans h h' m hm := (h' m hm).trans (h m hm)
  outside h m hm := h m (List.mem_cons_of_mem _ hm)
  step := by
    rintro e e' ⟨-, hq⟩ hstep m hm
    obtain h | ⟨i, chunk, v, w, hev, hv, h⟩ := paso_listas hstep
    · rw [h]
    · rw [h]
      exact (hq i chunk v w hev hv).1 m hm

/-! ## The passes are those of the source -/

section Passes

variable {V : Evaluador} {p : Compilador} {B : List Marco} {cuerpo : Trazo}
  {addr slot slotLoop ini pie fin : ℕ}

/-- A pass begins with an item that is there. -/
theorem pasar_item {i k : ℕ} {s : Lienzo}
    (hn : (listAt s.world.heap addr).length = i + (k + 1)) :
    pasar addr i ini fin slot slotLoop B s =
      (s.poner slot slotLoop ((listAt s.world.heap addr).getD i .null) i (i + (k + 1))).map
        fun s => ⟨ini, ⟨addr, i⟩ :: B, s⟩ := by
  have hlt : i < (listAt s.world.heap addr).length := by omega
  unfold pasar
  rw [List.getElem?_eq_getElem hlt, List.getD_eq_getElem _ _ hlt, hn]

/-- The passes from the one at `i` on, the first of which begins with the step from `e`. -/
theorem pasadas_sale
    (hcuerpo : ∀ i t r, (Ley.quieta V p).Rige ⟨ini, ⟨addr, i⟩ :: B, t⟩ → cuerpo t = some r →
      (Ley.quieta V p).Sale ⟨ini, ⟨addr, i⟩ :: B, t⟩ (⟨addr, i⟩ :: B) pie r)
    (hpie : ∀ i t, paso V p ⟨pie, ⟨addr, i⟩ :: B, t⟩ =
      some (pasar addr (i + 1) ini fin slot slotLoop B t))
    {k i : ℕ} {e : Estado} {s : Lienzo} {r : Except Desenlace Lienzo}
    (hn : (listAt s.world.heap addr).length = i + k)
    (hpaso : paso V p e = some (pasar addr i ini fin slot slotLoop B s))
    (hb : ∀ t, (Ley.quieta V p).guarda e.bucles e.lienzo t →
      (Ley.quieta V p).guarda B e.lienzo t)
    (hL : (Ley.quieta V p).Rige e) (hr : pasadasDesde cuerpo addr slot slotLoop k i s = some r) :
    (Ley.quieta V p).Sale e B fin r := by
  induction k generalizing i e s with
  | zero =>
    cases hr
    have hend : (listAt s.world.heap addr)[i]? = none := List.getElem?_eq_none hn.le
    simp only [pasar, hend] at hpaso
    exact ⟨.single hpaso, hb _ ((Ley.quieta V p).step (hL e .refl) hpaso)⟩
  | succ k ih =>
    rw [pasar_item hn] at hpaso
    rw [pasadasDesde] at hr
    cases hponer : s.poner slot slotLoop ((listAt s.world.heap addr).getD i .null) i
        (i + (k + 1)) with
    | error d =>
      rw [hponer] at hr hpaso
      cases hr
      exact ⟨e, .refl, hpaso⟩
    | ok t =>
      rw [hponer] at hr hpaso
      have hkept := hb _ ((Ley.quieta V p).step (hL e .refl) hpaso)
      have hL' := hL.llega (.single hpaso)
      have hr : (cuerpo t).luego (pasadasDesde cuerpo addr slot slotLoop k (i + 1)) = some r := hr
      cases hc : cuerpo t with
      | none =>
        rw [hc] at hr
        cases hr
      | some a =>
        have hs := hcuerpo i t a hL' hc
        rw [hc] at hr
        cases a with
        | error d =>
          cases hr
          exact Llega.acaba (.single hpaso) hs
        | ok u =>
          have hlen := hs.2 ⟨addr, i⟩ (List.mem_cons_self ..)
          simp only [poner_listas hponer, hn] at hlen
          have hrest := ih (hlen.trans (by omega)) (hpie i u)
            (fun _ h => (Ley.quieta V p).outside h) (hL'.llega hs.1) hr
          exact hrest.after (.head hpaso hs.1)
            ((Ley.quieta V p).trans hkept ((Ley.quieta V p).outside hs.2))

theorem pasadas_fiel (V : Evaluador) (p : Compilador) : (Ley.quieta V p).Fiel pasadas :=
  fun _ _ _ _ _ _ _ _ _ _ hcuerpo hpie hpaso hL hr =>
    pasadas_sale hcuerpo hpie (Nat.zero_add _).symm hpaso (fun _ h => h) hL hr

/-- The passes end if the body does. -/
theorem pasadasDesde_isSome (ini pie fin : ℕ)
    (hcuerpo : ∀ i t, (Ley.quieta V p).Rige ⟨ini, ⟨addr, i⟩ :: B, t⟩ → (cuerpo t).isSome)
    (hsale : ∀ i t r, (Ley.quieta V p).Rige ⟨ini, ⟨addr, i⟩ :: B, t⟩ → cuerpo t = some r →
      (Ley.quieta V p).Sale ⟨ini, ⟨addr, i⟩ :: B, t⟩ (⟨addr, i⟩ :: B) pie r)
    (hpie : ∀ i t, paso V p ⟨pie, ⟨addr, i⟩ :: B, t⟩ =
      some (pasar addr (i + 1) ini fin slot slotLoop B t))
    {k i : ℕ} {e : Estado} {s : Lienzo} (hn : (listAt s.world.heap addr).length = i + k)
    (hpaso : paso V p e = some (pasar addr i ini fin slot slotLoop B s))
    (hL : (Ley.quieta V p).Rige e) : (pasadasDesde cuerpo addr slot slotLoop k i s).isSome := by
  induction k generalizing i e s with
  | zero => rfl
  | succ k ih =>
    rw [pasar_item hn] at hpaso
    rw [pasadasDesde]
    cases hponer : s.poner slot slotLoop ((listAt s.world.heap addr).getD i .null) i
        (i + (k + 1)) with
    | error d => rfl
    | ok t =>
      rw [hponer] at hpaso
      have hL' := hL.llega (.single hpaso)
      change ((cuerpo t).luego (pasadasDesde cuerpo addr slot slotLoop k (i + 1))).isSome = true
      obtain ⟨a, hc⟩ := Option.isSome_iff_exists.1 (hcuerpo i t hL')
      have hs := hsale i t a hL' hc
      rw [hc]
      cases a with
      | error d => rfl
      | ok u =>
        have hlen := hs.2 ⟨addr, i⟩ (List.mem_cons_self ..)
        simp only [poner_listas hponer, hn] at hlen
        exact ih (hlen.trans (by omega)) (hpie i u) (hL'.llega hs.1)

end Passes

/-! ## A quiet rendering returns -/

section Returns

variable {V : Evaluador} {p : Compilador} {B : List Marco} {s : Lienzo} {pos k : ℕ}

/-- The evaluation of a state returns. -/
theorem evaluar_isSome_of {i : Instr} (hL : (Ley.quieta V p).Rige ⟨pos, B, s⟩)
    (hc : p.code[pos]? = some i) (hk : i.expr? = some k) : (s.evaluar V p k).isSome := by
  unfold Lienzo.evaluar
  cases hx : p.exprs[k]? with
  | none => rfl
  | some chunk =>
    have hev : Estado.evalua p ⟨pos, B, s⟩ = some (i, chunk) := by
      simp [Estado.evalua, hc, hk, hx]
    obtain ⟨r, hr⟩ := Option.isSome_iff_exists.1 ((hL _ .refl).1 i chunk hev)
    have hr : V.evaluar s.world s.valores chunk = some r := hr
    simp only [hr]
    obtain ⟨v | v, w⟩ := r <;> rfl

/-- So does what writes its value. -/
theorem escribir_isSome_of {i : Instr} {crudo : Bool} (hL : (Ley.quieta V p).Rige ⟨pos, B, s⟩)
    (hc : p.code[pos]? = some i) (hk : i.expr? = some k) (hw : i.escribe) :
    (s.escribir V p crudo k).isSome := by
  unfold Lienzo.escribir
  obtain ⟨r, hr⟩ := Option.isSome_iff_exists.1 (evaluar_isSome_of hL hc hk)
  rw [hr]
  cases r with
  | error d => rfl
  | ok r =>
    obtain ⟨v, t⟩ := r
    obtain ⟨-, chunk, hx, hv⟩ := evaluar_ok hr
    have hev : Estado.evalua p ⟨pos, B, s⟩ = some (i, chunk) := by
      simp [Estado.evalua, hc, hk, hx]
    obtain ⟨text, htext⟩ :=
      Option.isSome_iff_exists.1 (((hL _ .refl).2 i chunk v t.world hev hv).2 hw)
    simp [Efecto.luego, htext]

/-- A condition, whose continuations return. -/
theorem condicion_isSome_of {destino : ℕ} {f g : Trazo} (hL : (Ley.quieta V p).Rige ⟨pos, B, s⟩)
    (hc : p.code[pos]? = some (.saltarSiFalso k destino))
    (hf : ∀ t, (Ley.quieta V p).Rige ⟨pos + 1, B, t⟩ → (f t).isSome)
    (hg : ∀ t, (Ley.quieta V p).Rige ⟨destino, B, t⟩ → (g t).isSome) :
    ((s.evaluar V p k).luego fun r =>
      if r.1.truthy r.2.world.heap then f r.2 else g r.2).isSome := by
  have hstep : paso V p ⟨pos, B, s⟩ = (s.evaluar V p k).luego fun r =>
      some (.ok ⟨if r.1.truthy r.2.world.heap then pos + 1 else destino, B, r.2⟩) := by
    simp [paso, hc]
  obtain ⟨r, hr⟩ := Option.isSome_iff_exists.1 (evaluar_isSome_of hL hc rfl)
  rw [hr] at hstep ⊢
  cases r with
  | error d => rfl
  | ok r =>
    obtain ⟨v, t⟩ := r
    have hL' := hL.llega (.single hstep)
    change (if v.truthy t.world.heap then f t else g t).isSome = true
    by_cases htrue : v.truthy t.world.heap = true
    · simp only [htrue, if_true] at hL' ⊢
      exact hf t hL'
    · simp only [htrue] at hL' ⊢
      exact hg t hL'

mutual

/-- **A tree whose evaluations are quiet is drawn**, with the passes fixed at the beginning. -/
theorem Arbol.pasadas_isSome (a : Arbol) (o : Origen) (B : List Marco) (s : Lienzo)
    (hT : Tramo p.code o.pos (a.code o)) (hL : (Ley.quieta V p).Rige ⟨o.pos, B, s⟩) :
    (a.pintar V p pasadas o s).isSome := by
  cases a with
  | nada => rfl
  | luego a b =>
    rw [Arbol.code] at hT
    rw [Arbol.pintar]
    have hright := hT.right
    rw [← Arbol.length_code] at hright
    obtain ⟨r, hr⟩ := Option.isSome_iff_exists.1 (a.pasadas_isSome o B s hT.left hL)
    have hs := a.llega (pasadas_fiel V p) o B s r hT.left hL hr
    rw [hr]
    cases r with
    | error d => rfl
    | ok t => exact b.pasadas_isSome (a.tras o) B t hright (hL.llega hs.1)
  | texto t =>
    rw [Arbol.pintar, Lienzo.imprimir]
    split <;> rfl
  | escribir crudo expr =>
    rw [Arbol.pintar]
    cases crudo <;> exact escribir_isSome_of hL hT.head rfl rfl
  | si cond rama resto =>
    rw [Arbol.code] at hT
    have hresto := hT.tail.right
    have hpos : (rama.tras o.condicion).pos = o.pos + 1 + (rama.code o.condicion).length :=
      rama.length_code o.condicion
    rw [← hpos] at hresto
    refine condicion_isSome_of hL hT.head (fun t hL => ?_) fun t hL => ?_
    · exact rama.pasadas_isSome o.condicion B t hT.tail.left hL
    · exact resto.pasadas_isSome (rama.tras o.condicion) B t hresto hL
  | bucle var lista cuerpo =>
    rw [Arbol.code] at hT
    have hcuerpo := hT.tail.left
    have hpie := hT.tail.right.head
    have hpos : (cuerpo.tras o.dentro).pos = o.pos + 1 + (cuerpo.code o.dentro).length :=
      cuerpo.length_code o.dentro
    rw [← hpos] at hpie
    rw [Arbol.pintar]
    have hc := hT.head
    obtain ⟨r, hr⟩ := Option.isSome_iff_exists.1 (evaluar_isSome_of hL hc rfl)
    rw [hr]
    cases r with
    | error d => rfl
    | ok r =>
      obtain ⟨v, t⟩ := r
      cases v with
      | list addr =>
        refine pasadasDesde_isSome (B := B) (o.pos + 1) (cuerpo.tras o.dentro).pos
          ((cuerpo.tras o.dentro).pos + 1) (fun i u hL => ?_) (fun i u r hL hu => ?_)
          (fun i u => ?_) (Nat.zero_add _).symm ?_ hL
        · exact cuerpo.pasadas_isSome o.dentro (⟨addr, i⟩ :: B) u hcuerpo hL
        · exact cuerpo.llega (pasadas_fiel V p) o.dentro (⟨addr, i⟩ :: B) u r hcuerpo hL hu
        · simp [paso, hpie]
        · simp [paso, hc, hr, Efecto.luego]
      | _ => rfl

theorem Ramas.pasadas_isSome (rs : Ramas) (o : Origen) (B : List Marco) (s : Lienzo) {fin : ℕ}
    (hT : Tramo p.code o.pos (rs.code o fin))
    (hL : (Ley.quieta V p).Rige ⟨o.pos + rs.hueco, B, s⟩) :
    (rs.pintar V p pasadas o s).isSome := by
  cases rs with
  | fin => rfl
  | sino rama => exact rama.pasadas_isSome o.salto B s hT.tail hL
  | elif cond rama resto =>
    rw [Ramas.code] at hT
    have hresto := hT.tail.tail.right
    have hpos : (rama.tras o.salto.condicion).pos =
        o.pos + 1 + 1 + (rama.code o.salto.condicion).length :=
      rama.length_code o.salto.condicion
    rw [← hpos] at hresto
    refine condicion_isSome_of hL hT.tail.head (fun t hL => ?_) fun t hL => ?_
    · exact rama.pasadas_isSome o.salto.condicion B t hT.tail.tail.left hL
    · exact resto.pasadas_isSome (rama.tras o.salto.condicion) B t hresto hL

end

/-- **A rendering returns** whose evaluations all return and are quiet: it is the drawing of the
    tree of the marks, every loop of which makes as many passes as its list had elements when the
    loop began. -/
theorem rendering_returns {T : Taller} {ficheros : List (String × String)} {fuente : String}
    {datos : Nombres} {fuel : ℕ} {ps : List Pieza} {c : Compilador} {valores : List Value}
    {w : World} (hps : piezasDe ficheros fuel fuente = some ps)
    (hc : compilarPlantilla T ficheros fuel fuente datos = some c) (he : c.errores = [])
    (hd : (compilador T datos).Meets Dentro ps)
    (hq : ∀ e, Llega V c (inicio c valores w) e → Responde V c e ∧ Quieto V c e) :
    ∃ a : Arbol, a.piezas = ps ∧ ∃ n r,
      a.pintar V c pasadas ⟨0, 0, 0, datos.length⟩ (inicio c valores w).lienzo = some r ∧
        renderPlantilla V c n valores w = some (.de r) := by
  obtain ⟨rfl, hab⟩ := compilarPlantilla_ok hps hc he
  obtain ⟨a, rfl⟩ := exists_arbol ((meets_dentro_iff (by rintro ab ⟨⟩) ps).1 hd) he hab
  have hcode := (a.compila _ he).code
  generalize a.piezas.foldl (Compilador.pieza T) (compilador T datos).init = c at *
  have hT : Tramo c.code 0 (a.code ⟨0, 0, 0, datos.length⟩) := hcode ▸ .refl _
  obtain ⟨r, hr⟩ := Option.isSome_iff_exists.1
    (a.pasadas_isSome ⟨0, 0, 0, datos.length⟩ [] (inicio c valores w).lienzo hT hq)
  have hs := a.llega (pasadas_fiel V c) ⟨0, 0, 0, datos.length⟩ [] _ r hT hq hr
  obtain ⟨n, hn⟩ := acaba_iff.1 (hs.acaba hcode rfl)
  exact ⟨a, rfl, n, r, hr, hn⟩

end Returns

/-! ## Two templates -/

section Templates

/-- The code of `{% for x in xs %}{{ x }}{% endfor %}`. -/
def recorriendo : Compilador where
  nombres := [("xs", "List"), ("x", ""), ("loop", "")]
  exprs := [primerNombre 1, { code := [⟨.loadLocal, 1, {}⟩, ⟨.ret, 0, {}⟩], numLocals := 3 }]
  code := [.bucleInicio 0 3 1 2, .escribir 1, .bucleSiguiente 1 1 2]
  ambito := [("xs", "List"), (" tapado1", ""), (" tapado2", "")]
  sucesos := [.cierre [("xs", "List")] [("xs", "List"), ("x", ""), ("loop", "")],
    .expresion "x" [("xs", "List"), ("x", ""), ("loop", "")] true,
    .expresion "xs" [("xs", "List")] true]

/-- A state that meets the condition of a law, and the rest of the rendering. -/
theorem Ley.Rige.cons {V : Evaluador} {p : Compilador} {L : Ley V p} {e e' : Estado}
    (hc : L.condicion e) (hs : paso V p e = some (.ok e')) (h : L.Rige e') : L.Rige e := by
  intro e₁ hr
  obtain rfl | ⟨e₂, hs₂, hr⟩ := Relation.ReflTransGen.cases_head hr
  · exact hc
  · cases hs.symm.trans hs₂
    exact h e₁ hr

/-- The last state. -/
theorem Ley.Rige.last {V : Evaluador} {p : Compilador} {L : Ley V p} {e : Estado} {d : Desenlace}
    (hc : L.condicion e) (hs : paso V p e = some (.error d)) : L.Rige e := by
  intro e₁ hr
  obtain rfl | ⟨e₂, hs₂, hr⟩ := Relation.ReflTransGen.cases_head hr
  · exact hc
  · cases hs.symm.trans hs₂

/-- A state that evaluates nothing. -/
theorem condicion_of_none {V : Evaluador} {p : Compilador} {e : Estado}
    (h : e.evalua p = none) : (Ley.quieta V p).condicion e := by
  refine ⟨fun i chunk hi => ?_, fun i chunk v w hi => ?_⟩ <;>
  · rw [h] at hi
    cases hi

/-- A state whose evaluation gives a value. -/
theorem condicion_of_some {V : Evaluador} {p : Compilador} {e : Estado} {i : Instr}
    {chunk : Chunk} {v : Value} {w : World} (h : e.evalua p = some (i, chunk))
    (hv : V.evaluar e.lienzo.world e.lienzo.valores chunk = some (.ok v, w))
    (hlen : ∀ m ∈ e.bucles,
      (listAt w.heap m.lista).length = (listAt e.lienzo.world.heap m.lista).length)
    (htext : i.escribe → (V.texto w.heap v).isSome) : (Ley.quieta V p).condicion e := by
  constructor
  · intro i' chunk' hi
    cases h.symm.trans hi
    exact Option.isSome_of_mem hv
  · intro i' chunk' v' w' hi hv'
    cases h.symm.trans hi
    cases hv.symm.trans hv'
    exact ⟨hlen, htext⟩

/-- A list of one element is gone through once. -/
theorem rendering_returns_once :
    ∃ a : Arbol, a.piezas = [.bucle "x" "xs", .escribir false "x", .endfor] ∧ ∃ n r,
      a.pintar .sinNumeros recorriendo pasadas ⟨0, 0, 0, 1⟩
          (inicio recorriendo [.list 0] { heap := [.list [.str "a"]] }).lienzo = some r ∧
        renderPlantilla .sinNumeros recorriendo n [.list 0] { heap := [.list [.str "a"]] } =
          some (.de r) := by
  have hps : piezasDe [] 4
      "\x7b% for x in xs %\x7d\x7b\x7b x \x7d\x7d\x7b% endfor %\x7d" =
      some [.bucle "x" "xs", .escribir false "x", .endfor] := by decide
  have hcompila : compilarPlantilla .nombres [] 4
      "\x7b% for x in xs %\x7d\x7b\x7b x \x7d\x7d\x7b% endfor %\x7d" [("xs", "List")] =
      some recorriendo := by
    rw [compilarPlantilla, hps]
    rfl
  refine rendering_returns hps hcompila rfl ?_ ?_
  · exact (meets_dentro_iff (by rintro ab ⟨⟩) _).2 <|
      .cons (ordenado_of_ne (by simp) (by simp)) rfl <|
      .cons (ordenado_of_ne (by simp) (by simp)) rfl <|
      .cons (ordenado_of_ne (by simp) (by simp)) rfl trivial
  · change (Ley.quieta _ _).Rige _
    exact .cons (condicion_of_some rfl rfl (by rintro m ⟨⟩) (by rintro ⟨⟩)) rfl <|
      .cons (condicion_of_some rfl rfl (fun m _ => rfl) fun _ => rfl) rfl <|
      .cons (condicion_of_none rfl) rfl <| .last (condicion_of_none rfl) rfl

/-- A parser that knows `xs` and `xs.add(1)`. -/
def Taller.sumando : Taller where
  parse s :=
    if s = "xs" then .ok (.ident {} s)
    else if s = "xs.add(1)" then
      .ok (.call {} (.member {} (.ident {} "xs") "add") [.intLit {} 1] [])
    else .error "expresion invalida"
  emitter := {}
  fuel := 3

/-- The code of `{% for x in xs %}{% if xs.add(1) %}{% endif %}{% endfor %}`. -/
def sumando : Compilador where
  nombres := [("xs", "List"), ("x", ""), ("loop", "")]
  exprs := [primerNombre 1, {
    code := [⟨.loadLocal, 0, {}⟩, ⟨.const, 0, {}⟩, ⟨.callMethod, callOperand 1 1, {}⟩,
      ⟨.ret, 0, {}⟩]
    constants := [.int 1, .str "add"]
    numLocals := 3 }]
  code := [.bucleInicio 0 3 1 2, .saltarSiFalso 1 2, .bucleSiguiente 1 1 2]
  ambito := [("xs", "List"), (" tapado1", ""), (" tapado2", "")]
  sucesos := [.cierre [("xs", "List")] [("xs", "List"), ("x", ""), ("loop", "")],
    .expresion "xs.add(1)" [("xs", "List"), ("x", ""), ("loop", "")] true,
    .expresion "xs" [("xs", "List")] true]

/-- The list is always longer than the pass: by one element before the condition is evaluated, and
    by two behind it. -/
inductive Alarga : Estado → Prop
  | inicio : Alarga (inicio sumando [.list 0] { heap := [.list [.int 1]] })
  | si {i : ℕ} {items : List Value} (h : items.length = i + 1) (resto : Heap)
      (hist : List Event) (x l : Value) (salida : Json.Bytes) :
      Alarga ⟨1, [⟨0, i⟩], [.list 0, x, l], ⟨.list items :: resto, hist⟩, salida⟩
  | siguiente {i : ℕ} {items : List Value} (h : items.length = i + 2) (resto : Heap)
      (hist : List Event) (x l : Value) (salida : Json.Bytes) :
      Alarga ⟨2, [⟨0, i⟩], [.list 0, x, l], ⟨.list items :: resto, hist⟩, salida⟩

/-- **Step lemma**: there is always a next instruction. -/
theorem Alarga.paso {e : Estado} (h : Alarga e) : ∃ e',
    Template.paso .sinNumeros sumando e = some (.ok e') ∧ Alarga e' := by
  cases h with
  | inicio => exact ⟨_, rfl, .si rfl _ _ _ _ _⟩
  | @si i items h resto hist x l salida =>
    have hev : ∃ hist', Evaluador.sinNumeros.evaluar ⟨.list items :: resto, hist⟩ [.list 0, x, l]
        sumando.exprs[1] = some (.ok (.list 0), ⟨.list (items ++ [.int 1]) :: resto, hist'⟩) :=
      ⟨_, rfl⟩
    obtain ⟨hist', hev⟩ := hev
    have hlen : (items ++ [Value.int 1]).length = i + 2 := by simp [h]
    refine ⟨_, ?_, .siguiente hlen resto hist' x l salida⟩
    simp [Template.paso, Lienzo.evaluar, sumando] at hev ⊢
    simp [hev, Efecto.luego]
  | @siguiente i items h resto hist x l salida =>
    have hlt : i + 1 < items.length := by omega
    -- the box of `loop` for the next pass
    let box : Obj := .dict [("index", .int (Int64.ofNat (i + 1 + 1))),
      ("index0", .int (Int64.ofNat (i + 1))), ("first", .bool (i + 1 == 0)),
      ("last", .bool (i + 1 + 1 == items.length)), ("length", .int (Int64.ofNat items.length))]
    refine ⟨_, ?_, .si h (resto ++ [box]) hist items[i + 1] (.dict (resto.length + 1)) salida⟩
    simp only [Template.paso, sumando, pasar, listAt, List.getElem?_cons_succ,
      List.getElem?_cons_zero, List.getElem?_eq_getElem hlt]
    rfl

/-- **A rendering without end**: every evaluation returns, and no number of instructions is
    enough. -/
theorem growing_list :
    ∃ c, compilarPlantilla .sumando [] 5 ("\x7b% for x in xs %\x7d\x7b% if xs.add(1) %\x7d" ++
        "\x7b% endif %\x7d\x7b% endfor %\x7d") [("xs", "List")] = some c ∧ c.errores = [] ∧
      (∀ e, Llega .sinNumeros c (inicio c [.list 0] { heap := [.list [.int 1]] }) e →
        Responde .sinNumeros c e) ∧
      ∀ n, renderPlantilla .sinNumeros c n [.list 0] { heap := [.list [.int 1]] } = none := by
  have hps : piezasDe [] 5 ("\x7b% for x in xs %\x7d\x7b% if xs.add(1) %\x7d" ++
      "\x7b% endif %\x7d\x7b% endfor %\x7d") =
      some [.bucle "x" "xs", .si "xs.add(1)", .endif, .endfor] := by decide
  refine ⟨sumando, ?_, rfl, fun e he => ?_, fun n => ?_⟩
  · rw [compilarPlantilla, hps]
    rfl
  · have halarga : Alarga e := by
      induction he with
      | refl => exact .inicio
      | tail _ hs ih =>
        obtain ⟨e', he', h⟩ := ih.paso
        cases hs.symm.trans he'
        exact h
    obtain ⟨e', hs, -⟩ := halarga.paso
    exact responde_of_paso (Option.isSome_of_mem hs)
  · suffices h : ∀ e, Alarga e → correr .sinNumeros sumando n e = none from h _ .inicio
    induction n with
    | zero => exact fun e _ => rfl
    | succ n ih =>
      intro e he
      obtain ⟨e', hs, he'⟩ := he.paso
      rw [correr_succ_ok hs]
      exact ih e' he'

end Templates

end Osodio.Odio.Template
