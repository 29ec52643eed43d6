import Osodio.Json.Writer

/-!
# Escaping for HTML

`escapar_html` copies the runs between the characters that it replaces.  The result is that of
replacing the characters one by one, and the text can be read back from it.

## Main definitions

- `entidad` — what stands for a character that markup is made of
- `escaparHtml` — `escapar_html`

## Main results

- `escaparHtml_eq` — the runs change nothing
- `escaparHtml_injective` — two texts have two images
-/

namespace Osodio.Odio.Template

open Json (Bytes)

/-! ## The loop -/

/-- The entity that stands for a character, if the character needs one. -/
def entidad (c : UInt8) : Option Bytes :=
  if c = 0x26 then some (Json.ascii "&amp;")
  else if c = 0x3C then some (Json.ascii "&lt;")
  else if c = 0x3E then some (Json.ascii "&gt;")
  else if c = 0x22 then some (Json.ascii "&quot;")
  else if c = 0x27 then some (Json.ascii "&#39;")
  else none

/-- The five entities. -/
def entidades : List Bytes := ["&amp;", "&lt;", "&gt;", "&quot;", "&#39;"].map Json.ascii

/-- The loop of `escapar_html` from the character at `i` on.  What follows `limpio` up to there is
    still to be copied. -/
def escaparHtmlDesde (entrada : Bytes) (i limpio : ℕ) (salida : Bytes) : Bytes :=
  if h : i < entrada.length then
    match entidad entrada[i] with
    | none => escaparHtmlDesde entrada (i + 1) limpio salida
    | some rep =>
      escaparHtmlDesde entrada (i + 1) (i + 1)
        (salida ++ (entrada.drop limpio).take (i - limpio) ++ rep)
  else salida ++ (entrada.drop limpio).take (entrada.length - limpio)
termination_by entrada.length - i

/-- `escapar_html`, which appends to a page. -/
def escaparHtml (entrada salida : Bytes) : Bytes := escaparHtmlDesde entrada 0 0 salida

/-! ## One character at a time -/

/-- What a character becomes. -/
def escapado (c : UInt8) : Bytes := (entidad c).getD [c]

theorem entidad_mem {c : UInt8} {e : Bytes} (h : entidad c = some e) : e ∈ entidades := by
  unfold entidad at h
  split_ifs at h <;> cases h <;> decide

section Loop

variable {entrada : Bytes} {i limpio : ℕ}

/-- One more character of a run. -/
theorem take_run (hle : limpio ≤ i) (h : i < entrada.length) :
    (entrada.drop limpio).take (i + 1 - limpio) =
      (entrada.drop limpio).take (i - limpio) ++ [entrada[i]] := by
  have hlen : i - limpio < (entrada.drop limpio).length := by
    rw [List.length_drop]
    omega
  have hidx : (entrada.drop limpio)[i - limpio] = entrada[i] := by
    rw [List.getElem_drop]
    congr 1
    omega
  have hsucc : i + 1 - limpio = i - limpio + 1 := by omega
  rw [hsucc, List.take_succ_eq_append_getElem hlen, hidx]

/-- What the loop has left to do: the run, and the characters from `i` on. -/
theorem escaparHtmlDesde_eq (salida : Bytes) (hle : limpio ≤ i) (hi : i ≤ entrada.length) :
    escaparHtmlDesde entrada i limpio salida =
      salida ++ (entrada.drop limpio).take (i - limpio) ++ (entrada.drop i).flatMap escapado := by
  induction hk : entrada.length - i generalizing i limpio salida with
  | zero =>
    have hend : i = entrada.length := by omega
    subst hend
    rw [escaparHtmlDesde, dif_neg (lt_irrefl _), List.drop_length, List.flatMap_nil,
      List.append_nil]
  | succ k ih =>
    have hlt : i < entrada.length := by omega
    have hcons : (entrada.drop i).flatMap escapado =
        escapado entrada[i] ++ (entrada.drop (i + 1)).flatMap escapado := by
      rw [List.drop_eq_getElem_cons hlt, List.flatMap_cons]
    rw [escaparHtmlDesde, dif_pos hlt, hcons]
    cases he : entidad entrada[i] with
    | none =>
      dsimp only
      have hsame : escapado entrada[i] = [entrada[i]] := by rw [escapado, he, Option.getD_none]
      rw [ih salida (by omega) (by omega) (by omega), take_run hle hlt, hsame]
      simp only [List.append_assoc]
    | some rep =>
      dsimp only
      have hrep : escapado entrada[i] = rep := by rw [escapado, he, Option.getD_some]
      rw [ih _ le_rfl (by omega) (by omega), hrep, Nat.sub_self, List.take_zero, List.append_nil]
      simp only [List.append_assoc]

end Loop

/-- **`escapar_html` replaces the characters one by one.** -/
theorem escaparHtml_eq (entrada salida : Bytes) :
    escaparHtml entrada salida = salida ++ entrada.flatMap escapado := by
  rw [escaparHtml, escaparHtmlDesde_eq salida le_rfl (Nat.zero_le _)]
  simp

/-! ## Reading back -/

/-- A character that is not replaced is none of those that begin an entity. -/
theorem entidad_none {c : UInt8} (h : entidad c = none) :
    c ≠ 0x26 ∧ c ≠ 0x3C ∧ c ≠ 0x3E ∧ c ≠ 0x22 ∧ c ≠ 0x27 := by
  unfold entidad at h
  split_ifs at h
  exact ⟨‹_›, ‹_›, ‹_›, ‹_›, ‹_›⟩

/-- The characters that are replaced. -/
theorem entidad_some {c : UInt8} {e : Bytes} (h : entidad c = some e) :
    c ∈ [0x26, 0x3C, 0x3E, 0x22, 0x27] := by
  unfold entidad at h
  split_ifs at h <;> simp [*]

/-- An entity begins with `&`. -/
theorem head_entidad {e : Bytes} (h : e ∈ entidades) : e.head? = some 0x26 := by
  revert e
  decide

/-- Of two characters whose images begin a text, one is the other. -/
theorem escapado_append_inj {a b : UInt8} {x y : Bytes} (h : escapado a ++ x = escapado b ++ y) :
    a = b := by
  have hclean {a b : UInt8} {x y e : Bytes} (ha : entidad a = none) (hb : entidad b = some e)
      (h : escapado a ++ x = escapado b ++ y) : False := by
    rw [escapado, escapado, ha, hb] at h
    have hhead := head_entidad (entidad_mem hb)
    cases e with
    | nil => cases hhead
    | cons c e =>
      obtain rfl := Option.some.inj hhead
      exact (entidad_none ha).1 (List.cons.inj h).1
  cases ha : entidad a with
  | none =>
    cases hb : entidad b with
    | none =>
      rw [escapado, escapado, ha, hb] at h
      exact (List.cons.inj h).1
    | some e => exact (hclean ha hb h).elim
  | some d =>
    cases hb : entidad b with
    | none => exact (hclean hb ha h.symm).elim
    | some e =>
      -- no entity is the beginning of another one
      have hpre : escapado a <+: escapado b ∨ escapado b <+: escapado a :=
        List.prefix_or_prefix_of_prefix (List.prefix_append _ x) (h ▸ List.prefix_append _ y)
      have hcode : ∀ a ∈ ([0x26, 0x3C, 0x3E, 0x22, 0x27] : Bytes),
          ∀ b ∈ ([0x26, 0x3C, 0x3E, 0x22, 0x27] : Bytes),
          escapado a <+: escapado b ∨ escapado b <+: escapado a → a = b := by decide +kernel
      exact hcode a (entidad_some ha) b (entidad_some hb) hpre

theorem escapado_ne_nil (c : UInt8) : escapado c ≠ [] := by
  unfold escapado
  cases h : entidad c with
  | none => exact List.cons_ne_nil _ _
  | some e =>
    have hhead := head_entidad (entidad_mem h)
    rintro rfl
    cases hhead

theorem flatMap_escapado_injective : Function.Injective fun bs : Bytes => bs.flatMap escapado := by
  intro bs
  induction bs with
  | nil =>
    intro cs h
    cases cs with
    | nil => rfl
    | cons c cs =>
      have h : [] = escapado c ++ cs.flatMap escapado := h
      exact absurd (List.append_eq_nil_iff.1 h.symm).1 (escapado_ne_nil c)
  | cons b bs ih =>
    intro cs h
    cases cs with
    | nil =>
      have h : escapado b ++ bs.flatMap escapado = [] := h
      exact absurd (List.append_eq_nil_iff.1 h).1 (escapado_ne_nil b)
    | cons c cs =>
      have h : escapado b ++ bs.flatMap escapado = escapado c ++ cs.flatMap escapado := h
      obtain rfl := escapado_append_inj h
      rw [ih (List.append_cancel_left h)]

/-- **No two texts have the same image.** -/
theorem escaparHtml_injective (salida : Bytes) :
    Function.Injective fun entrada => escaparHtml entrada salida := by
  intro bs cs h
  have h : escaparHtml bs salida = escaparHtml cs salida := h
  rw [escaparHtml_eq, escaparHtml_eq] at h
  exact flatMap_escapado_injective (List.append_cancel_left h)

end Osodio.Odio.Template
