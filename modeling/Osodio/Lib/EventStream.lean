import Osodio.Lib.Cuts

/-!
# Event streams

A reader of event streams, as browsers have one: lines end at CR, at LF or at both; a line is a
field or a comment; an empty line dispatches the event, if it has data.

## Main definitions

- `lineas` — the lines of a text
- `Lector` — the buffers of the reader
- `eventos`, `tras` — the events of some lines, and the buffers behind them
- `parse` — the events of a stream

## Main results

- `lineas_append` — a text is read line by line
- `eventos_append` — so are its events
- `linea_field` — what one line adds to the data
- `eventos_eq_nil` — where there are no data there is no event
-/

namespace Osodio.Lib.EventStream

/-! ## Lines -/

/-- The lines of a text that are ended.  `cur` has been read of the first one, and `cr` tells that
    the text comes behind a CR, which a LF belongs to. -/
def lineas (cr : Bool) (cur : List UInt8) : List UInt8 → List (List UInt8)
  | [] => []
  | c :: s =>
    if c = 0x0A then
      if cr then lineas false [] s else cur :: lineas false [] s
    else if c = 0x0D then cur :: lineas true [] s
    else lineas false (cur ++ [c]) s

/-- Each end of a line is a LF. -/
def normaliza (cr : Bool) : List UInt8 → List UInt8
  | [] => []
  | c :: s =>
    if c = 0x0A then
      if cr then normaliza false s else 0x0A :: normaliza false s
    else if c = 0x0D then 0x0A :: normaliza true s
    else c :: normaliza false s

/-! ## The reader -/

structure Evento where
  data : List UInt8
  type : List UInt8
  id : List UInt8
  deriving DecidableEq, Repr

/-- The data buffer, the event type buffer and the last event id buffer. -/
structure Lector where
  data : List UInt8 := []
  type : List UInt8 := []
  id : List UInt8 := []
  deriving DecidableEq, Repr

def nombreData : List UInt8 := [0x64, 0x61, 0x74, 0x61]
def nombreEvent : List UInt8 := [0x65, 0x76, 0x65, 0x6E, 0x74]
def nombreId : List UInt8 := [0x69, 0x64]

/-- The name and the value of a field; one blank behind the colon goes.  A comment is a field
    without a name. -/
def campo (l : List UInt8) : List UInt8 × List UInt8 :=
  match cut 0x3A l with
  | some (name, value) => (name, if value.head? = some 0x20 then value.tail else value)
  | none => (l, [])

namespace Lector

/-- A field.  Other names, `retry` among them, make no event. -/
def field (st : Lector) (name value : List UInt8) : Lector :=
  if name = nombreData then { st with data := st.data ++ value ++ [0x0A] }
  else if name = nombreEvent then { st with type := value }
  else if name = nombreId then if 0 ∈ value then st else { st with id := value }
  else st

/-- The last event id stays. -/
def reset (st : Lector) : Lector := { id := st.id }

/-- The event that an empty line dispatches. -/
def evento (st : Lector) : Option Evento :=
  if st.data = [] then none else some ⟨st.data.dropLast, st.type, st.id⟩

/-- One line. -/
def linea (st : Lector) (l : List UInt8) : Lector × Option Evento :=
  if l = [] then (st.reset, st.evento) else (st.field (campo l).1 (campo l).2, none)

end Lector

/-- The buffers behind some lines. -/
def tras (st : Lector) : List (List UInt8) → Lector
  | [] => st
  | l :: ls => tras (st.linea l).1 ls

/-- The events of some lines.  An event that is not dispatched is lost. -/
def eventos (st : Lector) : List (List UInt8) → List Evento
  | [] => []
  | l :: ls => (st.linea l).2.toList ++ eventos (st.linea l).1 ls

/-- A byte order mark at the beginning goes. -/
def sinBom : List UInt8 → List UInt8
  | 0xEF :: 0xBB :: 0xBF :: s => s
  | s => s

/-- The events of a stream. -/
def parse (s : List UInt8) : List Evento := eventos {} (lineas false [] (sinBom s))

section Reading

variable {cr : Bool} {cur l v x y : List UInt8} {ls : List (List UInt8)} {st : Lector}

/-- The text behind a LF is read on its own. -/
theorem lineas_append (cr : Bool) (cur x y : List UInt8) :
    lineas cr cur (x ++ 0x0A :: y) = lineas cr cur (x ++ [0x0A]) ++ lineas false [] y := by
  induction x generalizing cr cur with
  | nil => cases cr <;> rfl
  | cons c x ih =>
    rw [List.cons_append, List.cons_append, lineas, lineas]
    by_cases hlf : c = 0x0A
    · rw [if_pos hlf, if_pos hlf]
      cases cr with
      | true => exact ih ..
      | false => exact congrArg (cur :: ·) (ih ..)
    · rw [if_neg hlf, if_neg hlf]
      by_cases hcr : c = 0x0D
      · rw [if_pos hcr, if_pos hcr, ih]
        rfl
      · rw [if_neg hcr, if_neg hcr, ih]

/-- Text without ends of lines goes on with the line. -/
theorem lineas_text (h : ∀ c ∈ x, c ≠ 0x0A ∧ c ≠ 0x0D) (cr : Bool) (cur y : List UInt8)
    (hx : cr = true → x ≠ []) : lineas cr cur (x ++ y) = lineas false (cur ++ x) y := by
  induction x generalizing cr cur with
  | nil =>
    cases cr with
    | true => exact absurd rfl (hx rfl)
    | false => rw [List.nil_append, List.append_nil]
  | cons c x ih =>
    obtain ⟨hlf, hcr⟩ := h c (List.mem_cons_self ..)
    rw [List.cons_append, lineas, if_neg hlf, if_neg hcr,
      ih (fun c hc => h c (List.mem_cons_of_mem _ hc)) false (cur ++ [c]) nofun,
      List.append_assoc]
    rfl

/-- What has been read of the first line. -/
theorem lineas_cur (cur x : List UInt8) :
    lineas false cur x = (lineas false [] x).modifyHead (cur ++ ·) := by
  induction x generalizing cur with
  | nil => rfl
  | cons c x ih =>
    rw [lineas, lineas]
    by_cases hlf : c = 0x0A
    · rw [if_pos hlf, if_pos hlf, if_neg Bool.false_ne_true, if_neg Bool.false_ne_true,
        List.modifyHead_cons, List.append_nil]
    · rw [if_neg hlf, if_neg hlf]
      by_cases hcr : c = 0x0D
      · rw [if_pos hcr, if_pos hcr, List.modifyHead_cons, List.append_nil]
      · rw [if_neg hcr, if_neg hcr, ih, ih ([] ++ [c]), List.modifyHead_modifyHead]
        refine congrArg (List.modifyHead · _) (funext fun l => ?_)
        simp

theorem eventos_append (st : Lector) (ls ms : List (List UInt8)) :
    eventos st (ls ++ ms) = eventos st ls ++ eventos (tras st ls) ms := by
  induction ls generalizing st with
  | nil => rfl
  | cons l ls ih => rw [List.cons_append, eventos, eventos, ih, List.append_assoc, tras]

theorem tras_append (st : Lector) (ls ms : List (List UInt8)) :
    tras st (ls ++ ms) = tras (tras st ls) ms := by
  induction ls generalizing st with
  | nil => rfl
  | cons l ls ih => exact ih _

/-! ## One line -/

@[simp] theorem linea_nil (st : Lector) : st.linea [] = (st.reset, st.evento) := if_pos rfl

theorem linea_of_ne (h : l ≠ []) : st.linea l = (st.field (campo l).1 (campo l).2, none) := if_neg h

/-- A field with a blank behind its colon. -/
theorem campo_text {name : List UInt8} (h : 0x3A ∉ name) (v : List UInt8) :
    campo (name ++ [0x3A, 0x20] ++ v) = (name, v) := by
  rw [campo, List.append_assoc, List.cons_append, cut_append h]
  rfl

/-- The event that is dispatched behind some lines, which is one less than the data buffer. -/
theorem evento_length {e : Evento} (h : st.evento = some e) :
    e.data.length + 1 = st.data.length := by
  unfold Lector.evento at h
  split at h
  · cases h
  · rename_i hne
    cases h
    rw [List.length_dropLast]
    exact Nat.sub_add_cancel (List.length_pos_iff.2 hne)

theorem evento_isSome (h : st.data ≠ []) : ∃ e, st.evento = some e := ⟨_, if_neg h⟩

/-- A field is a line with a value. -/
def EsDato (l : List UInt8) : Prop := (campo l).1 = nombreData

instance : DecidablePred EsDato := fun _ => inferInstanceAs (Decidable (_ = _))

theorem campo_length (h : EsDato l) : (campo l).2.length < l.length := by
  unfold EsDato campo at *
  split at h
  · rename_i name value hcut
    obtain ⟨rfl, -⟩ := cut_eq_some.1 hcut
    dsimp only at h ⊢
    rw [List.length_append, List.length_cons]
    split
    · rw [List.length_tail]
      omega
    · omega
  · subst h
    decide

theorem field_data (name v : List UInt8) : (st.field name v).data =
    if name = nombreData then st.data ++ v ++ [0x0A] else st.data := by
  unfold Lector.field
  by_cases hdata : name = nombreData
  · rw [if_pos hdata, if_pos hdata]
  · rw [if_neg hdata, if_neg hdata]
    split
    · rfl
    · split
      · split <;> rfl
      · rfl

/-- A field adds no more to the data than the bytes of its line. -/
theorem field_length (l : List UInt8) :
    (st.field (campo l).1 (campo l).2).data.length ≤ st.data.length + l.length := by
  rw [field_data]
  split
  · rename_i hdata
    have hlt := campo_length hdata
    rw [List.length_append, List.length_append, List.length_singleton]
    omega
  · exact Nat.le_add_right ..

theorem field_ne (h : st.data ≠ []) (name v : List UInt8) : (st.field name v).data ≠ [] := by
  rw [field_data]
  split
  · exact List.append_ne_nil_of_right_ne_nil _ (List.cons_ne_nil _ _)
  · exact h

/-! ## Zero bytes -/

theorem field_id (h : 0 ∉ st.id) (name v : List UInt8) : 0 ∉ (st.field name v).id := by
  unfold Lector.field
  split
  · exact h
  · split
    · exact h
    · split
      · split
        · exact h
        · assumption
      · exact h

theorem linea_id (h : 0 ∉ st.id) (l : List UInt8) : 0 ∉ (st.linea l).1.id := by
  unfold Lector.linea
  split
  · exact h
  · exact field_id h _ _

theorem tras_id (h : 0 ∉ st.id) (ls : List (List UInt8)) : 0 ∉ (tras st ls).id := by
  induction ls generalizing st with
  | nil => exact h
  | cons l ls ih => exact ih (linea_id h l)

/-- No event has an id with a zero byte. -/
theorem eventos_id (h : 0 ∉ st.id) (ls : List (List UInt8)) : ∀ e ∈ eventos st ls, 0 ∉ e.id := by
  induction ls generalizing st with
  | nil => exact List.forall_mem_nil _
  | cons l ls ih =>
    intro e he
    rw [eventos, List.mem_append, Option.mem_toList] at he
    obtain he | he := he
    · unfold Lector.linea at he
      split at he
      · unfold Lector.evento at he
        split at he
        · cases he
        · cases he
          exact h
      · cases he
    · exact ih (linea_id h l) e he

/-! ## Data -/

/-- Some lines and an empty one make an event, if there are data. -/
theorem eventos_ne_nil (ls : List (List UInt8)) (h : st.data ≠ []) :
    eventos st (ls ++ [[]]) ≠ [] := by
  induction ls generalizing st with
  | nil =>
    obtain ⟨e, he⟩ := evento_isSome h
    simp [eventos, he]
  | cons l ls ih =>
    by_cases hl : l = []
    · obtain ⟨e, he⟩ := evento_isSome h
      subst hl
      simp [eventos, he]
    · rw [List.cons_append, eventos, linea_of_ne hl]
      exact ih (field_ne h _ _)

/-- **No data, no event.** -/
theorem eventos_eq_nil (h : st.data = []) (ls : List (List UInt8)) :
    eventos st (ls ++ [[]]) = [] ↔ ∀ l ∈ ls, ¬ EsDato l := by
  induction ls generalizing st with
  | nil => simp [eventos, Lector.evento, h]
  | cons l ls ih =>
    rw [List.forall_mem_cons, List.cons_append, eventos]
    by_cases hl : l = []
    · subst hl
      rw [linea_nil, Lector.evento, if_pos h]
      exact (ih rfl).trans (and_iff_right (by decide)).symm
    · rw [linea_of_ne hl, Option.toList_none, List.nil_append]
      by_cases hdata : EsDato l
      · refine iff_of_false (eventos_ne_nil ls ?_) fun h => h.1 hdata
        have hname : (campo l).1 = nombreData := hdata
        rw [field_data, if_pos hname]
        exact List.append_ne_nil_of_right_ne_nil _ (List.cons_ne_nil _ _)
      · refine (ih ?_).trans (and_iff_right hdata).symm
        rw [field_data, h]
        exact if_neg hdata

end Reading

end Osodio.Lib.EventStream
