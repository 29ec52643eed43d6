import Mathlib.Data.List.Nodup
import Osodio.Odio.ErrorHandlers
import Osodio.Odio.Messages

/-!
# The validation of a body

The fields of a body are checked one after the other, and every one that is wrong has its message;
only if none is, the rules of the class are run on the fields, each from the start of the machine
but in the world that the one before has left.

## Main definitions

- `Regla`, `Reglas` — how rules end, one and all of them
- `Vincula` — `bind_body`, with rules that run on the machine
- `Debida` — the response that is due to a body
- `Valoran` — every rule comes to a value

## Main results

- `vincula_bindBody` — the binding of a route, where its rules end as they do on the machine
- `body_validated` — the response is the one that is due exactly where the rules come to values
-/

namespace Osodio.Odio

/-! ## The rules on the machine -/

section Rules

variable (E : Env) (ordered : List Value)

/-- `rule_vm.start`: whether the rule holds on the fields, or the text of the result; that of a
    rule that waits is empty. -/
inductive Regla (rule : ClassRule) (w : World) : Except String Bool → World → Prop
  | valor {last : Vm} {v : Value} (h : (Vm.start rule.chunk ordered w).Ends E last)
    (hs : last.status = .done v) : Regla rule w (.ok (v.truthy last.world.heap)) last.world
  | error {last : Vm} {message : String} {loc : SourceLoc}
    (h : (Vm.start rule.chunk ordered w).Ends E last) (hs : last.status = .error message loc) :
    Regla rule w (.error message) last.world
  | espera {last : Vm} {id : ℕ} {args : List Value}
    (h : (Vm.start rule.chunk ordered w).Ends E last) (hs : last.status = .suspended id args) :
    Regla rule w (.error "") last.world

/-- The rules in order, with the messages of those that do not hold, up to the first that ends
    in an error. -/
inductive Reglas : List ClassRule → World → Except String (List String) → World → Prop
  | nil {w : World} : Reglas [] w (.ok []) w
  | falla {rule : ClassRule} {rules : List ClassRule} {w w' : World} {message : String}
    (h : Regla E ordered rule w (.error message) w') :
    Reglas (rule :: rules) w (.error message) w'
  | sigue {rule : ClassRule} {rules : List ClassRule} {w w' w'' : World} {b : Bool}
    {r : Except String (List String)} (h : Regla E ordered rule w (.ok b) w')
    (hs : Reglas rules w' r w'') :
    Reglas (rule :: rules) w (r.map fun ms => if b then ms else rule.message :: ms) w''

/-- Every rule comes to a value, true or false. -/
inductive Evaluan : List ClassRule → World → List Bool → Prop
  | nil {w : World} : Evaluan [] w []
  | cons {rule : ClassRule} {rules : List ClassRule} {w w' : World} {b : Bool} {bs : List Bool}
    (h : Regla E ordered rule w (.ok b) w') (hs : Evaluan rules w' bs) :
    Evaluan (rule :: rules) w (b :: bs)

end Rules

/-- The messages of the rules that are false. -/
def incumplidas (rules : List ClassRule) (bs : List Bool) : List String :=
  ((rules.zip bs).filter fun p => !p.2).map fun p => p.1.message

/-! ## The body -/

section Body

variable (O : Primitives) (E : Env) (w : World) (ci : ClassInfo) (body : String)

/-- `bind_body`, given how the rules end. -/
def bindBodyWith (left : List String) (reglas : List Value → Except String (List String)) :
    Except Refusal Slot × List String :=
  match O.parseJson body with
  | none => (.error .invalidJson, left)
  | some (.dict addr, heap) =>
    let s := ci.fields.foldl (bindField (dictAt heap addr)) {}
    match if s.messages = [] then reglas s.ordered else .ok s.messages with
    | .error e => (.error (.ruleFailed e), left)
    | .ok [] => (.ok (.dict s.fields), left)
    | .ok messages => (.error (.invalid messages), messages)
  | some _ => (.error .notObject, left)

/-- The rules are reached, with these values of the fields. -/
def HastaReglas (ordered : List Value) : Prop := ∃ addr heap,
  O.parseJson body = some (.dict addr, heap) ∧
    (ci.fields.foldl (bindField (dictAt heap addr)) {}).messages = [] ∧
      (ci.fields.foldl (bindField (dictAt heap addr)) {}).ordered = ordered

/-- `bind_body` in a world, with its rules on the machine. -/
def Vincula (left : List String) (r : Except Refusal Slot × List String) : Prop := ∃ reglas,
  (∀ ordered, HastaReglas O ci body ordered →
    ∃ w', Reglas E ordered ci.rules w (reglas ordered) w') ∧
    r = bindBodyWith O ci body left reglas

/-! ## What is due -/

/-- The value has the type; a number without a fraction is a real as well. -/
inductive DeTipo : String → Value → Prop
  | string {s : String} : DeTipo "string" (.str s)
  | bool {b : Bool} : DeTipo "bool" (.bool b)
  | int {type : String} {i : Int64} (ht : type = "int" ∨ type = "long") : DeTipo type (.int i)
  | real {type : String} {d : Float} (ht : type = "float" ∨ type = "double") :
    DeTipo type (.float d)
  | entero {type : String} {i : Int64} (ht : type = "float" ∨ type = "double") :
    DeTipo type (.int i)

/-- The field is violated, and this is its message. -/
inductive Violado (body : Dict) (f : ClassField) : String → Prop
  | falta (hv : valueAt f.name body = .null) (ho : f.optional = false) :
    Violado body f (f.name ++ ": obligatorio")
  | tipo (hv : valueAt f.name body ≠ .null) (ht : ¬DeTipo f.type (valueAt f.name body)) :
    Violado body f (f.name ++ ": se esperaba " ++ f.type)

/-- One message for each field that is violated. -/
inductive Listado (body : Dict) : List ClassField → List String → Prop
  | nil : Listado body [] []
  | violado {f : ClassField} {fs : List ClassField} {m : String} {ms : List String}
    (h : Violado body f m) (hs : Listado body fs ms) : Listado body (f :: fs) (m :: ms)
  | bien {f : ClassField} {fs : List ClassField} {ms : List String} (h : ∀ m, ¬Violado body f m)
    (hs : Listado body fs ms) : Listado body (f :: fs) ms

/-- A real is a real even if it is written without a fraction. -/
def comoReal (type : String) : Value → Value
  | .int i => if type = "float" ∨ type = "double" then .float i.toFloat else .int i
  | v => v

/-- The value of a field. -/
def campoDe (body : Dict) (f : ClassField) : Value := comoReal f.type (valueAt f.name body)

/-- The value is of the type itself. -/
inductive Propio : String → Value → Prop
  | string {s : String} : Propio "string" (.str s)
  | bool {b : Bool} : Propio "bool" (.bool b)
  | int {type : String} {i : Int64} (ht : type = "int" ∨ type = "long") : Propio type (.int i)
  | real {type : String} {d : Float} (ht : type = "float" ∨ type = "double") :
    Propio type (.float d)

/-- The dictionary has exactly the fields, each with its value, which is of its type, or null if
    the field is optional. -/
structure Instancia (body : Dict) (d : Dict) : Prop where
  claves : ∀ k, k ∈ d.map Prod.fst ↔ ∃ f ∈ ci.fields, f.name = k
  nodup : (d.map Prod.fst).Nodup
  valor : ∀ f ∈ ci.fields, valueAt f.name d = campoDe body f
  tipo : ∀ f ∈ ci.fields, Propio f.type (valueAt f.name d) ∨
    valueAt f.name d = .null ∧ f.optional = true

/-- The response that is due to the body. -/
inductive Debida : Except Refusal Slot → Prop
  | invalido (h : O.parseJson body = none) : Debida (.error .invalidJson)
  | noObjeto {v : Value} {heap : Heap} (h : O.parseJson body = some (v, heap))
    (hv : ∀ addr, v ≠ .dict addr) : Debida (.error .notObject)
  | campos {addr : ℕ} {heap : Heap} {ms : List String}
    (h : O.parseJson body = some (.dict addr, heap))
    (hm : Listado (dictAt heap addr) ci.fields ms) (hne : ms ≠ []) :
    Debida (.error (.invalid ms))
  | reglas {addr : ℕ} {heap : Heap} {bs : List Bool}
    (h : O.parseJson body = some (.dict addr, heap))
    (hm : Listado (dictAt heap addr) ci.fields [])
    (hb : Evaluan E (ci.fields.map (campoDe (dictAt heap addr))) ci.rules w bs)
    (hne : false ∈ bs) : Debida (.error (.invalid (incumplidas ci.rules bs)))
  | bien {addr : ℕ} {heap : Heap} {bs : List Bool} {d : Dict}
    (h : O.parseJson body = some (.dict addr, heap))
    (hm : Listado (dictAt heap addr) ci.fields [])
    (hb : Evaluan E (ci.fields.map (campoDe (dictAt heap addr))) ci.rules w bs)
    (hall : ∀ b ∈ bs, b = true) (hd : Instancia ci (dictAt heap addr) d) :
    Debida (.ok (.dict d))

/-- There is a response, and it is the one that is due. -/
def Cumple (left : List String) : Prop :=
  (∃ r, Vincula O E w ci body left r) ∧
    ∀ r, Vincula O E w ci body left r → Debida O E w ci body r.1

/-- If the body is an object in which no field is violated, every rule comes to a value. -/
def Valoran : Prop := ∀ addr heap, O.parseJson body = some (.dict addr, heap) →
  Listado (dictAt heap addr) ci.fields [] →
    ∃ bs, Evaluan E (ci.fields.map (campoDe (dictAt heap addr))) ci.rules w bs

end Body

/-! ## Fields -/

section Fields

variable {body d : Dict} {f : ClassField} {fs : List ClassField} {s : Fields} {k m : String}
variable {ms ms' : List String} {v : Value} {type : String}

/-- A value that is there fits exactly if it has the type. -/
theorem valorEncaja_spec (v : Value) (type : String) (hv : v ≠ .null) :
    (DeTipo type v ∧ valorEncaja v type = some (comoReal type v)) ∨
      (¬DeTipo type v ∧ valorEncaja v type = none) := by
  cases v with
  | null => exact absurd rfl hv
  | str s =>
    by_cases ht : type = "string"
    · subst ht
      exact .inl ⟨.string, rfl⟩
    · refine .inr ⟨?_, if_neg ht⟩
      rintro ⟨⟩
      exact ht rfl
  | bool b =>
    by_cases ht : type = "bool"
    · subst ht
      exact .inl ⟨.bool, rfl⟩
    · refine .inr ⟨?_, if_neg ht⟩
      rintro ⟨⟩
      exact ht rfl
  | int i =>
    by_cases hi : type = "int" ∨ type = "long"
    · have hr : ¬(type = "float" ∨ type = "double") := by
        obtain rfl | rfl := hi <;> decide
      refine .inl ⟨.int hi, ?_⟩
      rw [comoReal, if_neg hr]
      exact if_pos hi
    by_cases hr : type = "float" ∨ type = "double"
    · refine .inl ⟨.entero hr, ?_⟩
      rw [comoReal, if_pos hr]
      exact (if_neg hi).trans (if_pos hr)
    · refine .inr ⟨?_, (if_neg hi).trans (if_neg hr)⟩
      rintro (_ | _ | h | _ | h)
      · exact hi h
      · exact hr h
  | float x =>
    by_cases hr : type = "float" ∨ type = "double"
    · exact .inl ⟨.real hr, if_pos hr⟩
    · refine .inr ⟨?_, if_neg hr⟩
      rintro (_ | _ | _ | h | _)
      exact hr h
  | list addr => exact .inr ⟨by rintro ⟨⟩, rfl⟩
  | dict addr => exact .inr ⟨by rintro ⟨⟩, rfl⟩

/-- What a field leaves: its message and null, or its value. -/
theorem bindField_cases (body : Dict) (s : Fields) (f : ClassField) :
    (∃ m, Violado body f m ∧ bindField body s f =
      ⟨s.messages ++ [m], setKey f.name .null s.fields, s.ordered ++ [.null]⟩) ∨
    ((∀ m, ¬Violado body f m) ∧ bindField body s f =
      ⟨s.messages, setKey f.name (campoDe body f) s.fields, s.ordered ++ [campoDe body f]⟩) := by
  by_cases hv : valueAt f.name body = .null
  · by_cases ho : f.optional = true
    · refine .inr ⟨?_, ?_⟩
      · rintro m (⟨-, h⟩ | ⟨h, -⟩)
        · rw [ho] at h
          cases h
        · exact h hv
      · simp only [bindField, campoDe, comoReal, hv, ho, if_true]
    · refine .inl ⟨_, .falta hv (Bool.not_eq_true _ ▸ ho), ?_⟩
      simp only [bindField, hv, ho, Bool.false_eq_true, if_false]
  · have hput : bindField body s f = (valorEncaja (valueAt f.name body) f.type).elim
        ⟨s.messages ++ [f.name ++ ": se esperaba " ++ f.type],
          setKey f.name .null s.fields, s.ordered ++ [.null]⟩
        fun v => ⟨s.messages, setKey f.name v s.fields, s.ordered ++ [v]⟩ := by
      rw [bindField]
      generalize valueAt f.name body = v at hv
      cases v with
      | null => exact absurd rfl hv
      | _ =>
        dsimp only
        all_goals
          generalize valorEncaja _ f.type = o
          cases o <;> rfl
    obtain ⟨ht, hsome⟩ | ⟨ht, hnone⟩ := valorEncaja_spec _ f.type hv
    · refine .inr ⟨?_, ?_⟩
      · rintro m (⟨h, -⟩ | ⟨-, h⟩)
        · exact hv h
        · exact h ht
      · rw [hput, hsome]
        rfl
    · refine .inl ⟨_, .tipo hv ht, ?_⟩
      rw [hput, hnone]
      rfl

theorem Violado.unique {m' : String} (h : Violado body f m) (h' : Violado body f m') : m = m' := by
  cases h with
  | falta hv =>
    cases h' with
    | falta => rfl
    | tipo hv' => exact absurd hv hv'
  | tipo hv =>
    cases h' with
    | falta hv' => exact absurd hv' hv
    | tipo => rfl

theorem Listado.unique (h : Listado body fs ms) (h' : Listado body fs ms') : ms = ms' := by
  induction h generalizing ms' with
  | nil =>
    cases h'
    rfl
  | violado hm _ ih =>
    cases h' with
    | violado hm' hs' => rw [hm.unique hm', ih hs']
    | bien hno => exact absurd hm (hno _)
  | bien hno _ ih =>
    cases h' with
    | violado hm' => exact absurd hm' (hno _)
    | bien _ hs' => exact ih hs'

/-- The fields leave one message for each that is violated. -/
theorem fold_messages (body : Dict) (fs : List ClassField) (s : Fields) : ∃ ms,
    Listado body fs ms ∧ (fs.foldl (bindField body) s).messages = s.messages ++ ms := by
  induction fs generalizing s with
  | nil => exact ⟨[], .nil, (List.append_nil _).symm⟩
  | cons f fs ih =>
    obtain ⟨ms, hms, heq⟩ := ih (bindField body s f)
    rw [List.foldl_cons, heq]
    obtain ⟨m, hm, hf⟩ | ⟨hno, hf⟩ := bindField_cases body s f
    · exact ⟨m :: ms, .violado hm hms, by rw [hf, List.append_assoc, List.singleton_append]⟩
    · exact ⟨ms, .bien hno hms, by rw [hf]⟩

/-- Where none is violated, they leave their values. -/
theorem fold_values (h : Listado body fs []) (s : Fields) :
    (fs.foldl (bindField body) s).ordered = s.ordered ++ fs.map (campoDe body) ∧
      (fs.foldl (bindField body) s).fields =
        fs.foldl (fun d f => setKey f.name (campoDe body f) d) s.fields := by
  induction fs generalizing s with
  | nil => exact ⟨(List.append_nil _).symm, rfl⟩
  | cons f fs ih =>
    cases h with
    | bien hno hs =>
      obtain ⟨hordered, hfields⟩ := ih hs (bindField body s f)
      obtain ⟨m, hm, -⟩ | ⟨-, hf⟩ := bindField_cases body s f
      · exact absurd hm (hno m)
      · rw [List.foldl_cons, List.foldl_cons, hordered, hfields, hf, List.map_cons,
          List.append_assoc]
        exact ⟨rfl, rfl⟩

theorem lookup_setKey_of_ne {k' : String} (h : k ≠ k') (v : Value) (d : Dict) :
    (setKey k' v d).lookup k = d.lookup k := by
  induction d with
  | nil => rw [setKey, List.lookup_cons, beq_eq_false_iff_ne.2 h]
  | cons p d ih =>
    obtain ⟨k'', v'⟩ := p
    rw [setKey]
    split
    · next heq =>
      subst heq
      rw [List.lookup_cons, List.lookup_cons, beq_eq_false_iff_ne.2 h]
    · rw [List.lookup_cons, List.lookup_cons, ih]

theorem keys_setKey (k : String) (v : Value) (d : Dict) :
    (setKey k v d).map Prod.fst =
      if k ∈ d.map Prod.fst then d.map Prod.fst else d.map Prod.fst ++ [k] := by
  induction d with
  | nil => rfl
  | cons p d ih =>
    obtain ⟨k', v'⟩ := p
    rw [setKey]
    by_cases h : k' = k
    · subst h
      rw [if_pos rfl, List.map_cons, List.map_cons, if_pos (List.mem_cons_self ..)]
    · rw [if_neg h, List.map_cons, ih, List.map_cons]
      by_cases hk : k ∈ d.map Prod.fst
      · rw [if_pos hk, if_pos (List.mem_cons_of_mem _ hk)]
      · rw [if_neg hk, if_neg (by simpa [Ne.symm h] using hk)]
        rfl

theorem nodup_setKey (h : (d.map Prod.fst).Nodup) (k : String) (v : Value) :
    ((setKey k v d).map Prod.fst).Nodup := by
  rw [keys_setKey]
  split
  · exact h
  · next hk =>
    refine List.nodup_append.2 ⟨h, List.nodup_singleton k, ?_⟩
    rintro a ha b hb rfl
    exact hk (List.mem_singleton.1 hb ▸ ha)

/-- Each key is there once: those of the dictionary, and the names of the fields. -/
theorem fold_keys (fs : List ClassField) (g : ClassField → Value) (hd : (d.map Prod.fst).Nodup) :
    ((fs.foldl (fun d f => setKey f.name (g f) d) d).map Prod.fst).Nodup ∧
      ∀ k, k ∈ (fs.foldl (fun d f => setKey f.name (g f) d) d).map Prod.fst ↔
        k ∈ d.map Prod.fst ∨ ∃ f ∈ fs, f.name = k := by
  induction fs generalizing d with
  | nil => exact ⟨hd, fun k => by simp⟩
  | cons f fs ih =>
    obtain ⟨hnodup, hmem⟩ := ih (nodup_setKey hd f.name (g f))
    refine ⟨hnodup, fun k => ?_⟩
    have hset : k ∈ (setKey f.name (g f) d).map Prod.fst ↔ k ∈ d.map Prod.fst ∨ f.name = k := by
      rw [keys_setKey]
      split
      · next hf => exact ⟨.inl, fun h => h.elim id fun h => h ▸ hf⟩
      · rw [List.mem_append, List.mem_singleton, eq_comm]
    rw [List.foldl_cons, hmem, hset, or_assoc, List.exists_mem_cons_iff]

theorem fold_lookup_of_notin (g : ClassField → Value) (h : ∀ f ∈ fs, f.name ≠ k) :
    (fs.foldl (fun d f => setKey f.name (g f) d) d).lookup k = d.lookup k := by
  induction fs generalizing d with
  | nil => rfl
  | cons f fs ih =>
    rw [List.foldl_cons, ih fun f' hf' => h f' (List.mem_cons_of_mem _ hf'),
      lookup_setKey_of_ne (h f (List.mem_cons_self ..)).symm]

theorem fold_valueAt (g : ClassField → Value) (hn : (fs.map (·.name)).Nodup) (hf : f ∈ fs) :
    valueAt f.name (fs.foldl (fun d f => setKey f.name (g f) d) d) = g f := by
  induction fs generalizing d with
  | nil => cases hf
  | cons f' fs ih =>
    rw [List.map_cons, List.nodup_cons] at hn
    obtain rfl | hf := List.mem_cons.1 hf
    · have hrest : ∀ f' ∈ fs, f'.name ≠ f.name := by
        intro f' hf' heq
        exact hn.1 (heq ▸ List.mem_map_of_mem hf')
      rw [List.foldl_cons, valueAt, fold_lookup_of_notin g hrest, lookup_setKey_self]
      rfl
    · exact ih hn.2 hf

/-- A field that is not violated has a value of its type, or null if it is optional. -/
theorem campoDe_propio (h : ∀ m, ¬Violado body f m) :
    Propio f.type (campoDe body f) ∨ campoDe body f = .null ∧ f.optional = true := by
  by_cases hv : valueAt f.name body = .null
  · right
    constructor
    · rw [campoDe, hv, comoReal]
      rintro i ⟨⟩
    · by_contra ho
      exact h _ (.falta hv (Bool.not_eq_true _ ▸ ho))
  · left
    have ht : DeTipo f.type (valueAt f.name body) := by
      by_contra ht
      exact h _ (.tipo hv ht)
    rw [campoDe]
    generalize valueAt f.name body = v at ht
    generalize f.type = type at ht ⊢
    cases ht with
    | string => exact .string
    | bool => exact .bool
    | int ht =>
      have hr : ¬(type = "float" ∨ type = "double") := by
        obtain rfl | rfl := ht <;> decide
      rw [comoReal, if_neg hr]
      exact .int ht
    | real ht => exact .real ht
    | entero ht =>
      rw [comoReal, if_pos ht]
      exact .real ht

theorem Listado.not_violado (h : Listado body fs []) (hf : f ∈ fs) : ∀ m, ¬Violado body f m := by
  induction fs with
  | nil => cases hf
  | cons f' fs ih =>
    cases h with
    | bien hno hs =>
      obtain rfl | hf := List.mem_cons.1 hf
      · exact hno
      · exact ih hs hf

/-- What the fields leave is an instance of the class. -/
theorem fold_instancia {ci : ClassInfo} (hn : (ci.fields.map (·.name)).Nodup)
    (h : Listado body ci.fields []) :
    Instancia ci body (ci.fields.foldl (bindField body) {}).fields := by
  rw [(fold_values h {}).2]
  obtain ⟨hnodup, hmem⟩ := fold_keys ci.fields (campoDe body) (d := []) List.nodup_nil
  refine ⟨fun k => ?_, hnodup, fun f hf => fold_valueAt _ hn hf, fun f hf => ?_⟩
  · rw [hmem]
    simp
  · rw [fold_valueAt _ hn hf]
    exact campoDe_propio (h.not_violado hf)

end Fields

/-! ## Rules -/

section Machine

variable {E : Env} {ordered : List Value} {rule : ClassRule} {rules : List ClassRule}
variable {w w₁ w₂ : World} {vm last last' : Vm} {bs : List Bool}

theorem Vm.Ends.unique (h : vm.Ends E last) (h' : vm.Ends E last') : last = last' := by
  induction h with
  | halted hh =>
    cases h' with
    | halted => rfl
    | tick hn => rw [hh] at hn; cases hn
  | tick hn ht _ ih =>
    cases h' with
    | halted hh => rw [hn] at hh; cases hh
    | tick _ ht' hends' =>
      cases ht.symm.trans ht'
      exact ih hends'

/-- A rule ends in one way. -/
theorem Regla.unique {r₁ r₂ : Except String Bool} (h : Regla E ordered rule w r₁ w₁)
    (h' : Regla E ordered rule w r₂ w₂) : r₁ = r₂ ∧ w₁ = w₂ := by
  cases h with
  | valor h hs =>
    cases h' with
    | valor h' hs' =>
      obtain rfl := h.unique h'
      cases hs.symm.trans hs'
      exact ⟨rfl, rfl⟩
    | error h' hs' | espera h' hs' =>
      obtain rfl := h.unique h'
      cases hs.symm.trans hs'
  | error h hs =>
    cases h' with
    | error h' hs' =>
      obtain rfl := h.unique h'
      cases hs.symm.trans hs'
      exact ⟨rfl, rfl⟩
    | valor h' hs' | espera h' hs' =>
      obtain rfl := h.unique h'
      cases hs.symm.trans hs'
  | espera h hs =>
    cases h' with
    | espera h' hs' =>
      obtain rfl := h.unique h'
      cases hs.symm.trans hs'
      exact ⟨rfl, rfl⟩
    | valor h' hs' | error h' hs' =>
      obtain rfl := h.unique h'
      cases hs.symm.trans hs'

theorem incumplidas_cons (rule : ClassRule) (rules : List ClassRule) (b : Bool) (bs : List Bool) :
    incumplidas (rule :: rules) (b :: bs) =
      if b then incumplidas rules bs else rule.message :: incumplidas rules bs := by
  cases b <;> rfl

/-- Where every rule comes to a value, the messages are those of the rules that are false. -/
theorem Evaluan.reglas (h : Evaluan E ordered rules w bs) :
    ∃ w', Reglas E ordered rules w (.ok (incumplidas rules bs)) w' := by
  induction h with
  | nil => exact ⟨_, .nil⟩
  | @cons rule rules w w' b bs hr _ ih =>
    obtain ⟨w'', hs⟩ := ih
    refine ⟨w'', ?_⟩
    rw [incumplidas_cons]
    exact .sigue hr hs

theorem Evaluan.eq {r : Except String (List String)} (h : Evaluan E ordered rules w bs)
    (h' : Reglas E ordered rules w r w₁) : r = .ok (incumplidas rules bs) := by
  induction h generalizing r w₁ with
  | nil =>
    cases h'
    rfl
  | cons hr _ ih =>
    cases h' with
    | falla hr' => cases (hr.unique hr').1
    | sigue hr' hs' =>
      obtain ⟨hb, rfl⟩ := hr.unique hr'
      cases hb
      rw [ih hs', incumplidas_cons]
      rfl

theorem Evaluan.length (h : Evaluan E ordered rules w bs) : bs.length = rules.length := by
  induction h with
  | nil => rfl
  | cons _ _ ih => rw [List.length_cons, List.length_cons, ih]

/-- A rule that is false has its message. -/
theorem incumplidas_eq_nil (h : bs.length = rules.length) :
    incumplidas rules bs = [] ↔ false ∉ bs := by
  induction rules generalizing bs with
  | nil =>
    obtain rfl := List.length_eq_zero_iff.1 h
    exact ⟨fun _ => List.not_mem_nil, fun _ => rfl⟩
  | cons rule rules ih =>
    cases bs with
    | nil => cases h
    | cons b bs =>
      rw [incumplidas_cons]
      cases b with
      | false => simp
      | true => simpa using ih (Nat.succ.inj h)

end Machine

/-! ## The binding -/

section Binding

variable {O : Primitives} {E : Env} {w : World} {ci : ClassInfo} {body : String}
variable {left : List String} {addr : ℕ} {heap : Heap}

theorem bindBody_eq (O : Primitives) (ci : ClassInfo) (body : String) (left : List String) :
    bindBody O ci body left =
      bindBodyWith O ci body left fun ordered => runRules O ordered ci.rules := rfl

/-- The binding of a route, where its rules end as they do on the machine. -/
theorem vincula_bindBody (h : ∀ ordered, HastaReglas O ci body ordered →
    ∃ w', Reglas E ordered ci.rules w (runRules O ordered ci.rules) w') :
    Vincula O E w ci body left (bindBody O ci body left) :=
  ⟨_, h, bindBody_eq O ci body left⟩

/-- The rules are reached with the values of the fields, if none is violated. -/
theorem hastaReglas_iff (h : O.parseJson body = some (.dict addr, heap)) (ordered : List Value) :
    HastaReglas O ci body ordered ↔ Listado (dictAt heap addr) ci.fields [] ∧
      ordered = ci.fields.map (campoDe (dictAt heap addr)) := by
  obtain ⟨ms, hms, heq⟩ := fold_messages (dictAt heap addr) ci.fields {}
  constructor
  · rintro ⟨addr', heap', h', hm, rfl⟩
    cases h.symm.trans h'
    obtain rfl : ms = [] := heq.symm.trans hm
    exact ⟨hms, (fold_values hms {}).1⟩
  · rintro ⟨hm, rfl⟩
    refine ⟨addr, heap, h, heq.trans (hms.unique hm), (fold_values hm {}).1⟩

/-- Fields that are violated are the response. -/
theorem bindBodyWith_campos {ms : List String} {reglas : List Value → Except String (List String)}
    (h : O.parseJson body = some (.dict addr, heap))
    (hm : Listado (dictAt heap addr) ci.fields ms) (hne : ms ≠ []) :
    (bindBodyWith O ci body left reglas).1 = .error (.invalid ms) := by
  obtain ⟨ms', hms, heq⟩ := fold_messages (dictAt heap addr) ci.fields {}
  obtain rfl := hms.unique hm
  replace heq : (ci.fields.foldl (bindField (dictAt heap addr)) {}).messages = ms' := heq
  rw [bindBodyWith, h]
  dsimp only
  rw [heq, if_neg hne]
  cases ms' with
  | nil => exact absurd rfl hne
  | cons m ms => rfl

/-- Otherwise the response depends on how the rules end. -/
theorem bindBodyWith_reglas {reglas : List Value → Except String (List String)}
    (h : O.parseJson body = some (.dict addr, heap))
    (hm : Listado (dictAt heap addr) ci.fields []) :
    (bindBodyWith O ci body left reglas).1 =
      match reglas (ci.fields.map (campoDe (dictAt heap addr))) with
      | .error e => .error (.ruleFailed e)
      | .ok [] => .ok (.dict (ci.fields.foldl (bindField (dictAt heap addr)) {}).fields)
      | .ok messages => .error (.invalid messages) := by
  obtain ⟨ms', hms, heq⟩ := fold_messages (dictAt heap addr) ci.fields {}
  obtain rfl := hms.unique hm
  replace heq : (ci.fields.foldl (bindField (dictAt heap addr)) {}).messages = [] := heq
  have hordered : (ci.fields.foldl (bindField (dictAt heap addr)) {}).ordered =
      ci.fields.map (campoDe (dictAt heap addr)) := (fold_values hm {}).1
  rw [bindBodyWith, h]
  dsimp only
  rw [heq, if_pos rfl, hordered]
  cases reglas (ci.fields.map (campoDe (dictAt heap addr))) with
  | error e => rfl
  | ok ms => cases ms <;> rfl

/-- Where every rule comes to a value, the response is the one that is due. -/
theorem Valoran.debida (hn : (ci.fields.map (·.name)).Nodup) (h : Valoran O E w ci body)
    {r : Except Refusal Slot × List String} (hr : Vincula O E w ci body left r) :
    Debida O E w ci body r.1 := by
  obtain ⟨reglas, hreglas, rfl⟩ := hr
  cases hp : O.parseJson body with
  | none =>
    rw [bindBodyWith, hp]
    exact .invalido hp
  | some p =>
    obtain ⟨v, heap⟩ := p
    by_cases hv : ∃ addr, v = .dict addr
    · obtain ⟨addr, rfl⟩ := hv
      obtain ⟨ms, hms, -⟩ := fold_messages (dictAt heap addr) ci.fields {}
      by_cases hne : ms = []
      · subst hne
        obtain ⟨bs, hbs⟩ := h addr heap hp hms
        obtain ⟨w', hw'⟩ := hreglas _ ((hastaReglas_iff hp _).2 ⟨hms, rfl⟩)
        have hlen := hbs.length
        rw [bindBodyWith_reglas hp hms, hbs.eq hw']
        cases hinc : incumplidas ci.rules bs with
        | nil =>
          refine .bien hp hms hbs (fun b hb => ?_) (fold_instancia hn hms)
          by_contra hfalse
          rw [Bool.not_eq_true] at hfalse
          exact (incumplidas_eq_nil hlen).1 hinc (hfalse ▸ hb)
        | cons m ms =>
          have hmem : false ∈ bs := by
            by_contra hno
            rw [(incumplidas_eq_nil hlen).2 hno] at hinc
            cases hinc
          have hdue : Debida O E w ci body (.error (.invalid (incumplidas ci.rules bs))) :=
            .reglas hp hms hbs hmem
          rw [hinc] at hdue
          exact hdue
      · rw [bindBodyWith_campos hp hms hne]
        exact .campos hp hms hne
    · have hno : (bindBodyWith O ci body left reglas).1 = .error .notObject := by
        rw [bindBodyWith, hp]
        cases v with
        | dict addr => exact absurd ⟨addr, rfl⟩ hv
        | _ => rfl
      rw [hno]
      exact .noObjeto hp fun addr heq => hv ⟨addr, heq⟩

theorem Valoran.vincula (h : Valoran O E w ci body) (left : List String) :
    ∃ r, Vincula O E w ci body left r := by
  by_cases hreach : ∃ ordered, HastaReglas O ci body ordered
  · obtain ⟨ordered, addr, heap, hp, hreach⟩ := hreach
    obtain ⟨hms, -⟩ := (hastaReglas_iff hp ordered).1 ⟨addr, heap, hp, hreach⟩
    obtain ⟨bs, hbs⟩ := h addr heap hp hms
    refine ⟨_, fun _ => .ok (incumplidas ci.rules bs), fun ordered' h' => ?_, rfl⟩
    obtain ⟨-, rfl⟩ := (hastaReglas_iff hp _).1 h'
    exact hbs.reglas
  · exact ⟨_, fun _ => .ok [], fun ordered h' => absurd ⟨ordered, h'⟩ hreach, rfl⟩

theorem cumple_iff_valoran (hn : (ci.fields.map (·.name)).Nodup) :
    Cumple O E w ci body left ↔ Valoran O E w ci body := by
  refine ⟨fun h addr heap hp hms => ?_, fun h => ⟨h.vincula left, fun r hr => h.debida hn hr⟩⟩
  obtain ⟨⟨r, hr⟩, hdue⟩ := h
  have hdue := hdue r hr
  generalize r.1 = response at hdue
  cases hdue with
  | invalido h => rw [hp] at h; cases h
  | noObjeto h hv =>
    cases hp.symm.trans h
    exact absurd rfl (hv _)
  | campos h hm hne =>
    cases hp.symm.trans h
    exact absurd (hm.unique hms) hne
  | reglas h _ hb =>
    cases hp.symm.trans h
    exact ⟨_, hb⟩
  | bien h _ hb =>
    cases hp.symm.trans h
    exact ⟨_, hb⟩

/-- A body that is refused is the refusal of the request, and no handler starts. -/
def Detiene (O : Primitives) : Prop :=
  ∀ before b after input slots ci refusal, (prepareArgs O before input).1 = .ok slots →
    b.kind = .body ci → (∀ left, (bindBody O ci input.body left).1 = .error refusal) →
      (prepareArgs O (before ++ b :: after) input).1 = .error refusal ∧
        ∀ handlers s t id thread, (threads O handlers).step s
          (.arrive ⟨id, thread, .route (before ++ b :: after) input⟩) = some t →
            t.running = s.running

theorem detiene (O : Primitives) : Detiene O := by
  intro before b after input slots ci refusal hbefore hk hbody
  have herror : (prepareArgs O (before ++ b :: after) input).1 = .error refusal :=
    prepareArgs_refused hbefore fun left => by
      rw [bindParam, hk]
      exact hbody left
  exact ⟨herror, fun handlers s t id thread ht => running_of_refused herror ht⟩

/-- **The response to a body is the one that is due exactly where every rule comes to a value.** -/
theorem body_validated (O : Primitives) (E : Env) (w : World) {ci : ClassInfo}
    (hn : (ci.fields.map (·.name)).Nodup) (body : String) (left : List String) :
    (Cumple O E w ci body left ↔ Valoran O E w ci body) ∧ Detiene O :=
  ⟨cumple_iff_valoran hn, detiene O⟩

end Binding

/-! ## An optional field -/

/-- `edad >= 0`, on the first field. -/
def noNegativa : Chunk where
  code := [⟨.loadLocal, 0, ⟨"app.odio", 4, 9⟩⟩, ⟨.const, 0, ⟨"app.odio", 4, 17⟩⟩,
    ⟨.geInt, 0, ⟨"app.odio", 4, 14⟩⟩, ⟨.ret, 0, ⟨"app.odio", 4, 9⟩⟩]
  constants := [.int 0]
  numLocals := 1

/-- A class whose only field may be absent. -/
def conEdad : ClassInfo :=
  ⟨"Alta", [⟨"edad", "int", true⟩], [⟨noNegativa, "edad: no puede ser negativa"⟩]⟩

def sinFunciones : Env := ⟨[], [], fun w _ => ⟨.null, "", w.heap⟩⟩

theorem body_validated_edad :
    (Cumple .empty sinFunciones {} conEdad "\x7b\x7d" [] ↔
      Valoran .empty sinFunciones {} conEdad "\x7b\x7d") ∧ Detiene .empty :=
  @body_validated .empty sinFunciones {} conEdad (by decide) "\x7b\x7d" []

/-- The rule compares null, and the response is an error of the server. -/
theorem absent_field_fails :
    (∃ left, Vincula .empty sinFunciones {} conEdad "\x7b\x7d" []
      (.error (.ruleFailed "no se pueden comparar null y int"), left)) ∧
      (Refusal.ruleFailed "no se pueden comparar null y int").code = 500 ∧
      ¬Cumple .empty sinFunciones {} conEdad "\x7b\x7d" [] := by
  have hend : ∃ last, (Vm.start noNegativa [.null] {}).Ends sinFunciones last ∧
      last.status = .error "no se pueden comparar null y int" ⟨"app.odio", 4, 14⟩ :=
    ⟨_, .tick rfl rfl (.tick rfl rfl (.tick rfl rfl (.tick rfl rfl (.tick rfl rfl
      (.halted rfl))))), rfl⟩
  obtain ⟨last, hend, hstatus⟩ := hend
  have hv : Vincula .empty sinFunciones {} conEdad "\x7b\x7d" []
      (.error (.ruleFailed "no se pueden comparar null y int"), []) := by
    refine ⟨fun _ => .error "no se pueden comparar null y int", ?_, rfl⟩
    rintro ordered ⟨addr, heap, h, -, rfl⟩
    cases h
    exact ⟨_, .falla (.error hend hstatus)⟩
  refine ⟨⟨[], hv⟩, rfl, fun h => ?_⟩
  cases h.2 _ hv

end Osodio.Odio
