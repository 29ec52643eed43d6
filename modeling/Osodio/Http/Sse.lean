import Mathlib.Data.List.Forall2
import Osodio.Http.Output
import Osodio.Lib.EventStream

/-!
# Server-sent events

`SSEWriter` writes an event as a frame of fields, which ends with an empty line.  It puts `data: `
behind each LF of the data, while a reader ends a line at a CR too.

## Main definitions

- `Envio` — the calls of a handler
- `writeFrame`, `Envio.frame` — the frames
- `Fiel` — a call whose texts do not get in the way of the format

## Main results

- `eventos_codifica` — the data come back where no CR stands alone
- `acotado` — a lone CR costs data
- `calls_spec` — the reader gets the events that were sent, exactly if each call is faithful
-/

namespace Osodio.Http.Sse

open Lib.EventStream

/-! ## Frames -/

def camposId : Bytes := nombreId ++ [0x3A, 0x20]
def camposEvent : Bytes := nombreEvent ++ [0x3A, 0x20]
def camposData : Bytes := nombreData ++ [0x3A, 0x20]

/-- `sanitize_field`. -/
def sanitizeField (s : Bytes) : Bytes := s.filter fun c => c ≠ 0x0D ∧ c ≠ 0x0A

/-- The frame of `write_frame`. -/
def writeFrame (event data id : Bytes) : Bytes :=
  (if id = [] then [] else camposId ++ sanitizeField id ++ [0x0A]) ++
    ((if event = [] then [] else camposEvent ++ sanitizeField event ++ [0x0A]) ++
      ((data.splitOn 0x0A).flatMap (fun rem => camposData ++ rem ++ [0x0A]) ++ [0x0A]))

/-- A call of `send`, of `send_event` or of `ping`. -/
inductive Envio where
  | send (data : Bytes)
  | sendEvent (event data id : Bytes)
  | ping (comment : Bytes)
  deriving DecidableEq, Repr

namespace Envio

def frame : Envio → Bytes
  | send data => writeFrame [] data []
  | sendEvent event data id => writeFrame event data id
  | ping comment => [0x3A, 0x20] ++ comment ++ [0x0A, 0x0A]

/-- The call sends an event. -/
def esEvento : Envio → Bool
  | ping _ => false
  | _ => true

end Envio

/-! ## The reader

A line of `data` is followed by what its text makes of it.  Where a CR stands alone the reader sees
the end of the line, and the rest of the text is a line of its own. -/

/-- The text with `data: ` behind each LF. -/
def codifica (data : Bytes) : Bytes :=
  data.flatMap fun c => if c = 0x0A then 0x0A :: camposData else [c]

/-- Behind each CR is a LF. -/
def CrLf (data : Bytes) : Prop := ∀ x y, data = x ++ 0x0D :: y → y.head? = some 0x0A

/-- There is a first event, with less data than some bytes. -/
def Primero (n : ℕ) (es : List Evento) : Prop :=
  ∃ e rest, es = e :: rest ∧ e.data.length < n

section Encoding

variable {st : Lector} {c : UInt8} {cur d v : Bytes} {n m : ℕ} {es : List Evento}

theorem splitOn_codifica (v d : Bytes) : ((d.splitOn 0x0A).modifyHead (v ++ ·)).flatMap
    (fun rem => camposData ++ rem ++ [0x0A]) = camposData ++ v ++ codifica d ++ [0x0A] := by
  induction d generalizing v with
  | nil => simp [codifica, List.splitOn_nil]
  | cons c d ih =>
    have hcod : codifica (c :: d) = (if c = 0x0A then 0x0A :: camposData else [c]) ++ codifica d :=
      List.flatMap_cons
    rw [List.splitOn_cons_eq_if_modifyHead, hcod]
    by_cases hlf : c = 0x0A
    · have ih := ih []
      have hid : (d.splitOn 0x0A).modifyHead (([] : Bytes) ++ ·) = d.splitOn 0x0A :=
        congrFun List.modifyHead_id _
      rw [hid] at ih
      rw [if_pos (beq_iff_eq.2 hlf), if_pos hlf, List.modifyHead_cons, List.flatMap_cons, ih]
      simp
    · rw [if_neg (by simpa using hlf), if_neg hlf, List.modifyHead_modifyHead]
      have ih := ih (v ++ [c])
      simpa [Function.comp_def] using ih

theorem crLf_cons : CrLf (c :: d) ↔ (c = 0x0D → d.head? = some 0x0A) ∧ CrLf d := by
  constructor
  · intro h
    refine ⟨?_, fun x y hd => h (c :: x) y (by rw [hd, List.cons_append])⟩
    rintro rfl
    exact h [] d rfl
  · rintro ⟨hc, h⟩ x y hd
    cases x with
    | nil =>
      cases hd
      exact hc rfl
    | cons a x =>
      cases hd
      exact h x y rfl

theorem crLf_nil : CrLf [] := fun x y h => absurd h (by simp)

/-- A line of data. -/
theorem linea_data (st : Lector) (v : Bytes) : st.linea (camposData ++ v) =
    ({ st with data := st.data ++ v ++ [0x0A] }, none) := by
  have hcampo : campo (camposData ++ v) = (nombreData, v) := campo_text (by decide) v
  rw [linea_of_ne (by simp [camposData, nombreData]), hcampo]
  rfl

theorem lineas_data (s : Bytes) (cr : Bool) :
    lineas cr [] (camposData ++ s) = lineas false camposData s :=
  lineas_text (by decide +kernel) cr [] s fun _ => by decide

/-- **The data come back** where no CR stands alone. -/
theorem eventos_codifica (h : CrLf d) :
    (∀ st v, eventos st (lineas false (camposData ++ v) (codifica d ++ [0x0A, 0x0A])) =
      [⟨st.data ++ v ++ normaliza false d, st.type, st.id⟩]) ∧
    (d.head? = some 0x0A → ∀ st, eventos st (lineas true [] (codifica d ++ [0x0A, 0x0A])) =
      [⟨st.data ++ normaliza true d, st.type, st.id⟩]) := by
  induction d with
  | nil =>
    refine ⟨fun st v => ?_, nofun⟩
    show eventos st [camposData ++ v, []] = _
    rw [eventos, linea_data]
    simp [eventos, Lector.evento, normaliza]
  | cons c d ih =>
    obtain ⟨hcr, h⟩ := crLf_cons.1 h
    obtain ⟨ih₁, ih₂⟩ := ih h
    by_cases hlf : c = 0x0A
    · subst hlf
      constructor
      · intro st v
        show eventos st ((camposData ++ v) ::
          lineas false [] (camposData ++ (codifica d ++ [0x0A, 0x0A]))) = _
        rw [eventos, linea_data, lineas_data, ← camposData.append_nil, ih₁]
        simp [normaliza]
      · intro _ st
        show eventos st (lineas false [] (camposData ++ (codifica d ++ [0x0A, 0x0A]))) = _
        rw [lineas_data, ← camposData.append_nil, ih₁]
        simp [normaliza]
    · have hcod : codifica (c :: d) ++ [0x0A, 0x0A] = c :: (codifica d ++ [0x0A, 0x0A]) := by
        simp [codifica, hlf]
      rw [hcod]
      refine ⟨fun st v => ?_, fun hhead => absurd (Option.some.inj hhead) hlf⟩
      rw [lineas, if_neg hlf, normaliza, if_neg hlf]
      by_cases hret : c = 0x0D
      · rw [if_pos hret, if_pos hret, eventos, linea_data, ih₂ (hcr hret)]
        simp
      · rw [if_neg hret, if_neg hret, List.append_assoc, ih₁]
        simp

/-! ## Lone CRs -/

theorem Primero.mono (h : Primero n es) (hle : n ≤ m) : Primero m es := by
  obtain ⟨e, rest, rfl, hlt⟩ := h
  exact ⟨e, rest, rfl, hlt.trans_le hle⟩

/-- An empty line dispatches the event. -/
theorem primero_nil (h : st.data ≠ []) (ls : List Bytes) :
    Primero st.data.length (eventos st ([] :: ls)) := by
  obtain ⟨e, he⟩ := evento_isSome h
  have hlen := evento_length he
  rw [eventos, linea_nil, he]
  exact ⟨e, _, rfl, by omega⟩

/-- A line that is no empty one adds its bytes to the data, at most. -/
theorem primero_cons (h : st.data ≠ []) {l : Bytes} (ls : List Bytes)
    (hls : ∀ st' : Lector, st'.data ≠ [] → st'.data.length ≤ st.data.length + l.length →
      Primero n (eventos st' ls)) (hn : st.data.length ≤ n) : Primero n (eventos st (l :: ls)) := by
  by_cases hl : l = []
  · subst hl
    exact (primero_nil h ls).mono hn
  · rw [eventos, linea_of_ne hl]
    exact hls _ (field_ne h _ _) (field_length l)

/-- The first event of a text: behind `data: `, on a line of its own, and behind a CR. -/
structure Acotado (d : Bytes) : Prop where
  data : ∀ st v, Primero (st.data.length + v.length + (normaliza false d).length + 1)
    (eventos st (lineas false (camposData ++ v) (codifica d ++ [0x0A, 0x0A])))
  dataLone : ¬ CrLf d → ∀ st v, Primero (st.data.length + v.length + (normaliza false d).length)
    (eventos st (lineas false (camposData ++ v) (codifica d ++ [0x0A, 0x0A])))
  line : ∀ st cur, st.data ≠ [] → Primero (st.data.length + cur.length + (normaliza false d).length)
    (eventos st (lineas false cur (codifica d ++ [0x0A, 0x0A])))
  ret : ∀ st, st.data ≠ [] → Primero (st.data.length + (normaliza true d).length + 1)
    (eventos st (lineas true [] (codifica d ++ [0x0A, 0x0A])))
  retLone : d.head? ≠ some 0x0A ∨ ¬ CrLf d → ∀ st, st.data ≠ [] →
    Primero (st.data.length + (normaliza true d).length)
      (eventos st (lineas true [] (codifica d ++ [0x0A, 0x0A])))

theorem acotado_nil : Acotado [] where
  data st v := by
    have h := (eventos_codifica crLf_nil).1 st v
    refine ⟨_, _, h, ?_⟩
    simp only [List.length_append]
    omega
  dataLone h := absurd crLf_nil h
  line st cur h := by
    refine primero_cons h [[]] (fun st' h' hle => (primero_nil h' []).mono (by omega)) ?_
    omega
  ret st h := (primero_nil h []).mono (by omega)
  retLone _ st h := (primero_nil h []).mono (by omega)

theorem Acotado.lf (h : Acotado d) : Acotado (0x0A :: d) := by
  have hnorm : (normaliza false (0x0A :: d)).length = (normaliza false d).length + 1 := rfl
  have hret : (normaliza true (0x0A :: d)).length = (normaliza false d).length := rfl
  have hcod : codifica (0x0A :: d) ++ [0x0A, 0x0A] =
      0x0A :: (camposData ++ (codifica d ++ [0x0A, 0x0A])) := rfl
  have hlone : ¬ CrLf (0x0A :: d) → ¬ CrLf d := fun hn hd => hn (crLf_cons.2 ⟨nofun, hd⟩)
  have hlineas : ∀ cur, lineas false cur (codifica (0x0A :: d) ++ [0x0A, 0x0A]) =
      cur :: lineas false (camposData ++ []) (codifica d ++ [0x0A, 0x0A]) := by
    intro cur
    rw [hcod, List.append_nil, ← lineas_data _ false]
    rfl
  have hlineas' : lineas true [] (codifica (0x0A :: d) ++ [0x0A, 0x0A]) =
      lineas false (camposData ++ []) (codifica d ++ [0x0A, 0x0A]) := by
    rw [hcod, List.append_nil, ← lineas_data _ false]
    rfl
  refine ⟨fun st v => ?_, fun hn st v => ?_, fun st cur hst => ?_, fun st _ => ?_,
    fun hn st _ => ?_⟩
  · rw [hlineas, eventos, linea_data]
    refine (h.data _ []).mono ?_
    simp only [List.length_append, List.length_cons, List.length_nil, hnorm]
    omega
  · rw [hlineas, eventos, linea_data]
    refine (h.dataLone (hlone hn) _ []).mono ?_
    simp only [List.length_append, List.length_cons, List.length_nil, hnorm]
    omega
  · rw [hlineas, hnorm]
    refine primero_cons hst _ (fun st' _ hle => (h.data st' []).mono ?_) (by omega)
    rw [List.length_nil]
    omega
  · rw [hlineas', hret]
    exact h.data st []
  · rw [hlineas', hret]
    exact h.dataLone (hlone (hn.resolve_left fun hh => hh rfl)) st []

theorem Acotado.cr (h : Acotado d) : Acotado (0x0D :: d) := by
  have hnorm : ∀ cr, (normaliza cr (0x0D :: d)).length = (normaliza true d).length + 1 :=
    fun _ => rfl
  have hlineas : ∀ cr cur, lineas cr cur (codifica (0x0D :: d) ++ [0x0A, 0x0A]) =
      cur :: lineas true [] (codifica d ++ [0x0A, 0x0A]) := fun _ _ => rfl
  refine ⟨fun st v => ?_, fun hn st v => ?_, fun st cur hst => ?_, fun st hst => ?_,
    fun _ st hst => ?_⟩
  · rw [hlineas, eventos, linea_data, hnorm]
    refine (h.ret _ (List.append_ne_nil_of_right_ne_nil _ (List.cons_ne_nil _ _))).mono ?_
    simp only [List.length_append, List.length_cons, List.length_nil]
    omega
  · have hlone : d.head? ≠ some 0x0A ∨ ¬ CrLf d := by
      by_contra hno
      rw [not_or, not_not, not_not] at hno
      exact hn (crLf_cons.2 ⟨fun _ => hno.1, hno.2⟩)
    rw [hlineas, eventos, linea_data, hnorm]
    refine (h.retLone hlone _
      (List.append_ne_nil_of_right_ne_nil _ (List.cons_ne_nil _ _))).mono ?_
    simp only [List.length_append, List.length_cons, List.length_nil]
    omega
  · rw [hlineas, hnorm]
    exact primero_cons hst _ (fun st' hst' hle => (h.ret st' hst').mono (by omega)) (by omega)
  · rw [hlineas]
    exact (primero_nil hst _).mono (by omega)
  · rw [hlineas]
    exact (primero_nil hst _).mono (by omega)

theorem Acotado.other (h : Acotado d) (hlf : c ≠ 0x0A) (hcr : c ≠ 0x0D) : Acotado (c :: d) := by
  have hnorm : ∀ cr, (normaliza cr (c :: d)).length = (normaliza false d).length + 1 := by
    intro cr
    rw [normaliza, if_neg hlf, if_neg hcr, List.length_cons]
  have hlineas : ∀ cr cur, lineas cr cur (codifica (c :: d) ++ [0x0A, 0x0A]) =
      lineas false (cur ++ [c]) (codifica d ++ [0x0A, 0x0A]) := by
    intro cr cur
    have hcod : codifica (c :: d) ++ [0x0A, 0x0A] = c :: (codifica d ++ [0x0A, 0x0A]) := by
      simp [codifica, hlf]
    rw [hcod, lineas, if_neg hlf, if_neg hcr]
  have hlone : ¬ CrLf (c :: d) → ¬ CrLf d := fun hn hd =>
    hn (crLf_cons.2 ⟨fun heq => absurd heq hcr, hd⟩)
  refine ⟨fun st v => ?_, fun hn st v => ?_, fun st cur hst => ?_, fun st hst => ?_,
    fun _ st hst => ?_⟩
  · rw [hlineas, List.append_assoc, hnorm]
    refine (h.data st (v ++ [c])).mono ?_
    rw [List.length_append, List.length_singleton]
    omega
  · rw [hlineas, List.append_assoc, hnorm]
    refine (h.dataLone (hlone hn) st (v ++ [c])).mono ?_
    rw [List.length_append, List.length_singleton]
    omega
  · rw [hlineas, hnorm]
    refine (h.line st (cur ++ [c]) hst).mono ?_
    rw [List.length_append, List.length_singleton]
    omega
  · rw [hlineas, hnorm]
    refine (h.line st [c] hst).mono ?_
    rw [List.length_singleton]
    omega
  · rw [hlineas, hnorm]
    refine (h.line st [c] hst).mono ?_
    rw [List.length_singleton]
    omega

/-- **What a lone CR costs.** -/
theorem acotado (d : Bytes) : Acotado d := by
  induction d with
  | nil => exact acotado_nil
  | cons c d ih =>
    by_cases hlf : c = 0x0A
    · exact hlf ▸ ih.lf
    · by_cases hcr : c = 0x0D
      · exact hcr ▸ ih.cr
      · exact ih.other hlf hcr

end Encoding

/-! ## Calls -/

/-- What an event is for its call. -/
def Denota (e : Evento) : Envio → Prop
  | .send data => e.data = normaliza false data ∧ e.type = []
  | .sendEvent event data id => e.data = normaliza false data ∧ e.type = sanitizeField event ∧
      (id ≠ [] → e.id = sanitizeField id)
  | .ping _ => False

/-- No CR of the data stands alone, the id has no zero byte, and no line of a comment but the first
    is one of data. -/
def Envio.Fiel : Envio → Prop
  | .send data => CrLf data
  | .sendEvent _ data id => CrLf data ∧ 0 ∉ id
  | .ping comment => ∀ l ∈ (lineas false [] (comment ++ [0x0A])).tail, ¬ EsDato l

section Calls

variable {st : Lector} {c : Envio} {event data id comment : Bytes}

theorem sanitizeField_text (s : Bytes) : ∀ c ∈ sanitizeField s, c ≠ 0x0A ∧ c ≠ 0x0D := by
  intro c hc
  have h := (List.mem_filter.1 hc).2
  exact (of_decide_eq_true h).symm

theorem zero_mem_sanitizeField {s : Bytes} : 0 ∈ sanitizeField s ↔ 0 ∈ s := by
  rw [sanitizeField, List.mem_filter]
  exact and_iff_left (by decide)

/-- A line with a field that has been cleaned. -/
theorem lineas_field {name : Bytes} (h : ∀ c ∈ name, c ≠ 0x0A ∧ c ≠ 0x0D) (s y : Bytes) :
    lineas false [] (name ++ sanitizeField s ++ [0x0A] ++ y) =
      (name ++ sanitizeField s) :: lineas false [] y := by
  have htext : ∀ c ∈ name ++ sanitizeField s, c ≠ 0x0A ∧ c ≠ 0x0D := by
    intro c hc
    exact (List.mem_append.1 hc).elim (h c) (sanitizeField_text s c)
  rw [List.append_assoc, lineas_text htext false [] _ nofun]
  rfl

/-- The buffers behind the fields that come before the data. -/
def antesDe (event id : Bytes) (st : Lector) : Lector where
  data := st.data
  type := if event = [] then st.type else sanitizeField event
  id := if id = [] ∨ 0 ∈ id then st.id else sanitizeField id

/-- The line of the id. -/
theorem eventos_id_field (id y : Bytes) (st : Lector) : eventos st (lineas false []
    ((if id = [] then [] else camposId ++ sanitizeField id ++ [0x0A]) ++ y)) =
      eventos (antesDe [] id st) (lineas false [] y) := by
  unfold antesDe
  by_cases hid : id = []
  · rw [if_pos hid, if_pos rfl, if_pos (.inl hid)]
    rfl
  · have hcampo : campo (camposId ++ sanitizeField id) = (nombreId, sanitizeField id) :=
      campo_text (by decide) _
    rw [if_neg hid, lineas_field (by decide +kernel), eventos,
      linea_of_ne (by simp [camposId, nombreId]), hcampo]
    by_cases h0 : 0 ∈ id
    · rw [if_pos rfl, if_pos (.inr h0)]
      show eventos (if 0 ∈ sanitizeField id then st else _) _ = _
      rw [if_pos (zero_mem_sanitizeField.2 h0)]
    · rw [if_pos rfl, if_neg (not_or.2 ⟨hid, h0⟩)]
      show eventos (if 0 ∈ sanitizeField id then st else _) _ = _
      rw [if_neg (zero_mem_sanitizeField.not.2 h0)]

/-- The line of the type. -/
theorem eventos_event_field (event y : Bytes) (st : Lector) : eventos st (lineas false []
    ((if event = [] then [] else camposEvent ++ sanitizeField event ++ [0x0A]) ++ y)) =
      eventos (antesDe event [] st) (lineas false [] y) := by
  unfold antesDe
  by_cases hev : event = []
  · rw [if_pos hev, if_pos hev]
    rfl
  · have hcampo : campo (camposEvent ++ sanitizeField event) =
        (nombreEvent, sanitizeField event) := campo_text (by decide) _
    rw [if_neg hev, lineas_field (by decide +kernel), eventos,
      linea_of_ne (by simp [camposEvent, nombreEvent]), hcampo, if_neg hev]
    rfl

theorem writeFrame_eq (event data id : Bytes) : writeFrame event data id =
    (if id = [] then [] else camposId ++ sanitizeField id ++ [0x0A]) ++
      ((if event = [] then [] else camposEvent ++ sanitizeField event ++ [0x0A]) ++
        (camposData ++ (codifica data ++ [0x0A, 0x0A]))) := by
  have hid : (data.splitOn 0x0A).modifyHead (([] : Bytes) ++ ·) = data.splitOn 0x0A :=
    congrFun List.modifyHead_id _
  have hdata := splitOn_codifica [] data
  rw [hid] at hdata
  rw [writeFrame, hdata]
  simp

/-- The events of a frame. -/
theorem eventos_writeFrame (event data id : Bytes) (st : Lector) :
    eventos st (lineas false [] (writeFrame event data id)) =
      eventos (antesDe event [] (antesDe [] id st))
        (lineas false (camposData ++ []) (codifica data ++ [0x0A, 0x0A])) := by
  rw [writeFrame_eq, eventos_id_field, eventos_event_field, lineas_data, List.append_nil]

/-- A frame has an event, and the event of the call as the only one exactly if its texts do not get
    in the way. -/
theorem writeFrame_spec (event data id : Bytes) (hd : st.data = []) (ht : st.type = [])
    (h0 : 0 ∉ st.id) :
    (∃ e rest, eventos st (lineas false [] (writeFrame event data id)) = e :: rest) ∧
    ((∃ e, eventos st (lineas false [] (writeFrame event data id)) = [e] ∧
      e.data = normaliza false data ∧ e.type = sanitizeField event ∧
      (id ≠ [] → e.id = sanitizeField id)) ↔ CrLf data ∧ 0 ∉ id) := by
  have hid := eventos_id h0 (lineas false [] (writeFrame event data id))
  rw [eventos_writeFrame] at hid ⊢
  have htype : (antesDe event [] (antesDe [] id st)).type = sanitizeField event := by
    by_cases hev : event = []
    · simp [antesDe, hev, ht, sanitizeField]
    · simp [antesDe, hev]
  constructor
  · obtain ⟨e, rest, h, -⟩ := (acotado data).data (antesDe event [] (antesDe [] id st)) []
    exact ⟨e, rest, h⟩
  · constructor
    · rintro ⟨e, he, hdata, -, heid⟩
      constructor
      · by_contra hlone
        obtain ⟨e', rest, he', hlt⟩ :=
          (acotado data).dataLone hlone (antesDe event [] (antesDe [] id st)) []
        rw [he] at he'
        obtain ⟨rfl, -⟩ := List.cons.inj he'
        rw [hdata] at hlt
        have hnil : (antesDe event [] (antesDe [] id st)).data = [] := hd
        rw [hnil, List.length_nil] at hlt
        omega
      · intro hz
        have hne : id ≠ [] := List.ne_nil_of_mem hz
        refine hid e (he ▸ List.mem_singleton_self e) ?_
        rw [heid hne]
        exact zero_mem_sanitizeField.2 hz
    · rintro ⟨hcrlf, hz⟩
      refine ⟨_, (eventos_codifica hcrlf).1 .., ?_, htype, fun hne => ?_⟩
      · show st.data ++ [] ++ normaliza false data = _
        rw [hd]
        rfl
      · have hbefore : (antesDe [] id st).id = sanitizeField id := if_neg (not_or.2 ⟨hne, hz⟩)
        have hafter : (antesDe event [] (antesDe [] id st)).id = (antesDe [] id st).id := by
          simp only [antesDe, true_or, if_true]
        exact hafter.trans hbefore

/-- A ping has no event, exactly if its comment has no line of data. -/
theorem ping_spec (comment : Bytes) (hd : st.data = []) :
    eventos st (lineas false [] (Envio.ping comment).frame) = [] ↔
      (Envio.ping comment).Fiel := by
  have hlineas : lineas false [] (Envio.ping comment).frame =
      (lineas false [] (comment ++ [0x0A])).modifyHead ([0x3A, 0x20] ++ ·) ++ [[]] := by
    show lineas false [0x3A, 0x20] (comment ++ [0x0A, 0x0A]) = _
    rw [lineas_append, lineas_cur]
    rfl
  rw [hlineas, eventos_eq_nil hd, Envio.Fiel]
  cases lineas false [] (comment ++ [0x0A]) with
  | nil => exact Iff.rfl
  | cons l ls =>
    rw [List.modifyHead_cons, List.forall_mem_cons, List.tail_cons]
    refine and_iff_right fun h => ?_
    have hcampo : campo ([0x3A, 0x20] ++ l) = ([], l) := campo_text List.not_mem_nil l
    rw [EsDato, hcampo] at h
    cases h

theorem writeFrame_end (event data id : Bytes) :
    ∃ y, writeFrame event data id = y ++ [0x0A] ++ [0x0A] := by
  refine ⟨(if id = [] then [] else camposId ++ sanitizeField id ++ [0x0A]) ++
    ((if event = [] then [] else camposEvent ++ sanitizeField event ++ [0x0A]) ++
      (camposData ++ codifica data)), ?_⟩
  rw [writeFrame_eq]
  simp only [List.append_assoc]
  rfl

/-- A frame ends with an empty line. -/
theorem frame_eq (c : Envio) : ∃ y, c.frame = y ++ [0x0A] ++ [0x0A] := by
  cases c with
  | send data => exact writeFrame_end ..
  | sendEvent event data id => exact writeFrame_end ..
  | ping comment =>
    refine ⟨[0x3A, 0x20] ++ comment, ?_⟩
    rw [List.append_assoc _ [_]]
    rfl

/-- What comes behind a frame is read on its own, and the buffers are empty but for the id. -/
theorem eventos_frame (c : Envio) (st : Lector) (y : Bytes) (h0 : 0 ∉ st.id) :
    ∃ st', st'.data = [] ∧ st'.type = [] ∧ 0 ∉ st'.id ∧
      eventos st (lineas false [] (c.frame ++ y)) =
        eventos st (lineas false [] c.frame) ++ eventos st' (lineas false [] y) := by
  obtain ⟨x, hx⟩ := frame_eq c
  have hlines : lineas false [] c.frame = lineas false [] (x ++ [0x0A]) ++ [[]] := by
    rw [hx, List.append_assoc, List.singleton_append, lineas_append]
    rfl
  refine ⟨tras st (lineas false [] c.frame), ?_, ?_, tras_id h0 _, ?_⟩
  · rw [hlines, tras_append]
    rfl
  · rw [hlines, tras_append]
    rfl
  · rw [hx, List.append_assoc _ [_] y, List.singleton_append, lineas_append, eventos_append]

/-- One call, and the calls behind it. -/
theorem call_spec (c : Envio) (hd : st.data = []) (ht : st.type = []) (h0 : 0 ∉ st.id) :
    (c.esEvento = true → (∃ e rest, eventos st (lineas false [] c.frame) = e :: rest) ∧
      ((∃ e, eventos st (lineas false [] c.frame) = [e] ∧ Denota e c) ↔ c.Fiel)) ∧
    (c.esEvento = false → (eventos st (lineas false [] c.frame) = [] ↔ c.Fiel)) := by
  cases c with
  | send data =>
    obtain ⟨hfirst, hiff⟩ := writeFrame_spec [] data [] hd ht h0
    refine ⟨fun _ => ⟨hfirst, ?_⟩, nofun⟩
    refine Iff.trans ?_ (hiff.trans (and_iff_left List.not_mem_nil))
    refine exists_congr fun e => and_congr_right fun _ => and_congr_right fun _ => ?_
    exact (and_iff_left fun h => absurd rfl h).symm
  | sendEvent event data id =>
    exact ⟨fun _ => writeFrame_spec event data id hd ht h0, nofun⟩
  | ping comment => exact ⟨nofun, fun _ => ping_spec comment hd⟩

/-- The events of some calls are no fewer than the calls that send one. -/
theorem length_le_eventos (calls : List Envio) (hd : st.data = []) (ht : st.type = [])
    (h0 : 0 ∉ st.id) : (calls.filter Envio.esEvento).length ≤
      (eventos st (lineas false [] (calls.flatMap Envio.frame))).length := by
  induction calls generalizing st with
  | nil => exact Nat.zero_le _
  | cons c calls ih =>
    obtain ⟨st', hd', ht', h0', heq⟩ := eventos_frame c st (calls.flatMap Envio.frame) h0
    have ih := ih hd' ht' h0'
    rw [List.flatMap_cons, heq, List.length_append]
    cases hc : c.esEvento with
    | true =>
      obtain ⟨e, rest, hes⟩ := (((call_spec c hd ht h0).1 hc).1)
      rw [List.filter_cons_of_pos hc, hes, List.length_cons, List.length_cons]
      omega
    | false =>
      rw [List.filter_cons_of_neg (by simp [hc])]
      omega

/-- **Some calls**: the reader gets their events, exactly if each call is faithful. -/
theorem calls_spec (calls : List Envio) (hd : st.data = []) (ht : st.type = []) (h0 : 0 ∉ st.id) :
    List.Forall₂ Denota (eventos st (lineas false [] (calls.flatMap Envio.frame)))
      (calls.filter Envio.esEvento) ↔ ∀ c ∈ calls, c.Fiel := by
  induction calls generalizing st with
  | nil => exact iff_of_true .nil (List.forall_mem_nil _)
  | cons c calls ih =>
    obtain ⟨st', hd', ht', h0', heq⟩ := eventos_frame c st (calls.flatMap Envio.frame) h0
    obtain ⟨hevent, hping⟩ := call_spec c hd ht h0
    have hle := length_le_eventos calls hd' ht' h0'
    rw [List.forall_mem_cons, ← ih hd' ht' h0', List.flatMap_cons, heq]
    cases hc : c.esEvento with
    | true =>
      obtain ⟨⟨e, rest, hes⟩, hiff⟩ := hevent hc
      rw [List.filter_cons_of_pos hc, ← hiff, hes]
      constructor
      · intro h
        -- there is an event for each call, and so no second one for this call
        have hlen := h.length_eq
        rw [List.length_append, List.length_cons, List.length_cons] at hlen
        obtain rfl : rest = [] := List.length_eq_zero_iff.1 (by omega)
        obtain ⟨he, hrest⟩ := List.forall₂_cons.1 h
        exact ⟨⟨e, rfl, he⟩, hrest⟩
      · rintro ⟨⟨e', he', hden⟩, hrest⟩
        obtain ⟨rfl, rfl⟩ := List.cons.inj he'
        exact .cons hden hrest
    | false =>
      rw [List.filter_cons_of_neg (by simp [hc]), ← hping hc]
      constructor
      · intro h
        have hlen := h.length_eq
        rw [List.length_append] at hlen
        have hnil := List.length_eq_zero_iff.1 (by omega :
          (eventos st (lineas false [] c.frame)).length = 0)
        rw [hnil] at h
        exact ⟨hnil, h⟩
      · rintro ⟨hnil, hrest⟩
        rw [hnil]
        exact hrest

end Calls

end Osodio.Http.Sse
