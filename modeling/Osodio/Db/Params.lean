import Osodio.Db.Registry
import Osodio.Json.Streaming

/-!
# Parameters of a query

The arguments of a query are bound as parameters, by each driver in its way: PostgreSQL takes C
strings, MySQL texts with a length, and SQLite values.  What reaches the engine denotes the
argument, but for texts with a NUL, texts longer than an `int`, and doubles of more than six
digits.

## Main definitions

- `Parametro` — what an engine is given
- `Driver.parametros` — `run` and `prepare`, as far as they bind
- `Motor` — how an engine reads a text as a double
- `Motor.Denota` — the parameter is read as the argument
- `Driver.Cabe` — the arguments that get through

## Main results

- `parametros_denota` — exactly these are denoted
- `nul_not_denoted` — a text that is cut
-/

namespace Osodio.Db

open Json (Bytes Value Double Charconv ascii decimal NumberParts Rounded Representable unitsOf
  OfSixDigits finiteRanks fromCharsInt)

/-! ## The drivers -/

/-- A bound parameter. -/
inductive Parametro where
  | nulo
  | entero (i : Int64)
  | real (d : Double)
  | texto (t : Bytes)

/-- `v.is_null()`. -/
def esNulo : Value → Bool
  | .null => true
  | _ => false

/-- A C string ends at its first NUL. -/
def cString (s : Bytes) : Bytes := s.takeWhile fun c => c != 0

/-- What the textual drivers store for an argument that is not null. -/
def texto (C : Charconv) (si no : String) : Value → Bytes
  | .bool b => ascii (if b then si else no)
  | v => v.toString C

/-- `PostgresDriver::run`: the pointers are taken from the store once it is complete, and no
    lengths are passed along with them. -/
def parametrosPostgres (C : Charconv) (args : List Value) : List Parametro :=
  let store := args.map fun v => if esNulo v then [] else texto C "true" "false" v
  List.zipWith (fun v s => if esNulo v then .nulo else .texto (cString s)) args store

/-- `MysqlDriver::prepare`: each text has its length, of 64 bits. -/
def parametrosMysql (C : Charconv) (args : List Value) : List Parametro :=
  let store := args.map fun v => if esNulo v then [] else texto C "1" "0" v
  List.zipWith (fun v s => if esNulo v then .nulo else .texto s) args store

/-- `sqlite3_bind_text` with a length that was cast to `int`: a negative one means that the text
    ends at its first NUL. -/
def bindText (s : Bytes) : Parametro :=
  .texto (if s.length % 2 ^ 32 < 2 ^ 31 then s.take (s.length % 2 ^ 32) else cString s)

/-- `std::isnan`. -/
def esNaN (d : Double) : Bool := decide (finiteRanks < d.rank)

/-- `sqlite3_bind_double`, for which what is no number is null. -/
def bindDouble (d : Double) : Parametro := if esNaN d then .nulo else .real d

/-- The call that `SqliteDriver::prepare` makes for an argument. -/
def enlazar (C : Charconv) : Value → Parametro
  | .null => .nulo
  | .bool b => .entero (if b then 1 else 0)
  | .int i => .entero i
  | .float d => bindDouble d
  | v => bindText (v.toString C)

/-- The parameters of a query, once its arguments have been counted.  A call has at most 255
    arguments, so that the counts and places are no matter of their types. -/
def Driver.parametros (C : Charconv) (args : List Value) : Driver → List Parametro
  | .postgres => parametrosPostgres C args
  | .mysql => parametrosMysql C args
  | .sqlite => args.map (enlazar C)

/-! ## The engines -/

/-- An engine: how it reads a text as a double. -/
structure Motor where
  leeReal : Bytes → Option Double

/-- Numbers in the range of the doubles are read as the nearest one. -/
def Motor.LeeNumeros (M : Motor) : Prop :=
  ∀ signo entera fraccion exponente, NumberParts signo entera fraccion exponente →
    Representable (unitsOf entera fraccion exponente) → ∀ d,
      M.leeReal (signo ++ entera ++ fraccion ++ exponente) = some d ↔
        Rounded (signo ++ entera ++ fraccion ++ exponente) d

/-- A text as a truth value. -/
def leeLogico (t : Bytes) : Option Bool :=
  if t = ascii "true" ∨ t = ascii "1" then some true
  else if t = ascii "false" ∨ t = ascii "0" then some false
  else none

/-- The parameter is read as the argument, at the type of the argument. -/
def Motor.Denota (M : Motor) : Parametro → Value → Prop
  | .nulo, .null => True
  | .texto t, .bool b => leeLogico t = some b
  | .entero n, .bool b => n = if b then 1 else 0
  | .texto t, .int i => fromCharsInt t = some i
  | .entero n, .int i => n = i
  | .texto t, .float d => M.leeReal t = some d
  | .real e, .float d => e = d
  | .texto t, .str s => t = s
  | _, _ => False

/-- A value that is not behind a box. -/
def Escalar : Value → Prop
  | .list _ | .dict _ => False
  | _ => True

/-- A double of at most six digits, or one whose name the engine knows. -/
def Motor.CabeReal (M : Motor) (d : Double) : Prop :=
  if d.isFinite then OfSixDigits d else M.leeReal (d.signo ++ d.nombre) = some d

/-- The length of the text is an `int`, or the text is found to end where it ends. -/
def CabeTexto (s : Bytes) : Prop :=
  if s.length % 2 ^ 32 < 2 ^ 31 then s.length < 2 ^ 31 else 0 ∉ s

/-- The arguments that get through to the engine. -/
def Driver.Cabe (M : Motor) : Driver → Value → Prop
  | .postgres, .str s => 0 ∉ s
  | .sqlite, .str s => CabeTexto s
  | .sqlite, .float d => esNaN d = false
  | .postgres, .float d | .mysql, .float d => M.CabeReal d
  | _, _ => True

/-! ## What is denoted -/

section Denoted

variable {M : Motor} {C : Charconv} {s t : Bytes} {d : Double} {v : Value}

theorem cString_eq_self : cString s = s ↔ 0 ∉ s := by
  rw [cString, List.takeWhile_eq_self_iff]
  constructor
  · intro h hmem
    exact absurd (h 0 hmem) (by decide)
  · intro h c hc
    exact bne_iff_ne.2 fun heq => h (heq ▸ hc)

theorem bindText_eq : bindText s = .texto s ↔ CabeTexto s := by
  rw [bindText, Parametro.texto.injEq, CabeTexto]
  split
  · rw [List.take_eq_self_iff]
    omega
  · exact cString_eq_self

/-- A number has no NUL. -/
theorem number_cString (ht : Json.NumberText t) : cString t = t := by
  refine cString_eq_self.2 fun h => ?_
  obtain hd | hd := ht.chars 0 h
  · exact absurd hd (by decide)
  · exact absurd hd (by decide)

theorem nombre_cString (d : Double) : cString (d.signo ++ d.nombre) = d.signo ++ d.nombre := by
  rw [Double.signo, Double.nombre]
  split <;> split <;> rfl

/-- The engine reads the text of a double. -/
theorem leeReal_stream (hM : M.LeeNumeros) (d : Double) :
    M.leeReal d.stream = some d ↔ M.CabeReal d := by
  rw [Motor.CabeReal]
  split
  · next hd =>
    rw [← Json.rounded_stream_iff hd]
    obtain ⟨signo, entera, fraccion, exponente, hparts, htext, -, hunits, -⟩ :=
      Json.stream_number hd
    rw [htext]
    refine hM _ _ _ _ hparts ?_ d
    rw [hunits]
    exact Json.representable_redondeado ((Json.isFinite_iff d).1 hd)
  · next hd => rw [Double.stream, if_neg hd]

theorem stream_cString (d : Double) : cString d.stream = d.stream := by
  by_cases hd : d.isFinite
  · obtain ⟨signo, entera, fraccion, exponente, hparts, htext, -⟩ := Json.stream_number hd
    exact number_cString ⟨_, _, _, _, hparts, htext⟩
  · rw [Double.stream, if_neg hd]
    exact nombre_cString d

theorem fromCharsInt_decimal (i : Int64) : fromCharsInt (decimal i) = some i := by
  obtain ⟨-, -, -, h⟩ := Json.decimal_parts i
  exact h

/-- What a driver binds for one argument. -/
def Driver.parametro (C : Charconv) : Driver → Value → Parametro
  | .postgres, v => if esNulo v then .nulo else .texto (cString (texto C "true" "false" v))
  | .mysql, v => if esNulo v then .nulo else .texto (texto C "1" "0" v)
  | .sqlite, v => enlazar C v

/-- The store keeps the texts in the order of the arguments. -/
theorem zipWith_store (f : Value → Bytes → Parametro) (g : Value → Bytes) (args : List Value) :
    List.zipWith f args (args.map g) = args.map fun v => f v (g v) := by
  rw [List.zipWith_map_right, List.zipWith_self]

theorem parametros_eq_map (driver : Driver) (args : List Value) :
    driver.parametros C args = args.map (driver.parametro C) := by
  have hstore (f : Bytes → Bytes) (g : Value → Bytes) (v : Value) :
      (if esNulo v then Parametro.nulo else .texto (f (if esNulo v then [] else g v))) =
        if esNulo v then .nulo else .texto (f (g v)) := by
    cases esNulo v <;> rfl
  cases driver with
  | postgres =>
    refine (zipWith_store _ _ args).trans (List.map_congr_left fun v _ => ?_)
    exact hstore cString (texto C "true" "false") v
  | mysql =>
    refine (zipWith_store _ _ args).trans (List.map_congr_left fun v _ => ?_)
    exact hstore id (texto C "1" "0") v
  | sqlite => rfl

/-- A scalar is denoted by what is bound for it exactly if it gets through. -/
theorem parametro_denota (hM : M.LeeNumeros) (driver : Driver) (hv : Escalar v) :
    M.Denota (driver.parametro C v) v ↔ driver.Cabe M v := by
  cases v with
  | null => cases driver <;> exact Iff.rfl
  | bool b =>
    refine iff_of_true ?_ (by cases driver <;> trivial)
    cases driver <;> cases b <;> rfl
  | int i =>
    refine iff_of_true ?_ (by cases driver <;> trivial)
    have hcut := number_cString (Json.decimal_text i)
    cases driver with
    | postgres => exact (congrArg fromCharsInt hcut).trans (fromCharsInt_decimal i)
    | mysql => exact fromCharsInt_decimal i
    | sqlite => rfl
  | float d =>
    cases driver with
    | postgres =>
      have hread := leeReal_stream hM d
      rw [← stream_cString d] at hread
      exact hread
    | mysql => exact leeReal_stream hM d
    | sqlite =>
      by_cases hd : esNaN d = true
      · exact iff_of_false (by rw [Driver.parametro, enlazar, bindDouble, if_pos hd]; exact id)
          (fun h => Bool.noConfusion (hd.symm.trans h))
      · refine iff_of_true ?_ (Bool.eq_false_iff.2 hd)
        rw [Driver.parametro, enlazar, bindDouble, if_neg hd]
        rfl
  | str s =>
    cases driver with
    | postgres => exact cString_eq_self
    | mysql => exact iff_of_true rfl trivial
    | sqlite => 
      have htext : M.Denota (bindText s) (.str s) ↔ bindText s = .texto s := by
        rw [bindText, Parametro.texto.injEq]
        exact Iff.rfl
      exact htext.trans bindText_eq
  | list items => exact hv.elim
  | dict entries => exact hv.elim

end Denoted

/-- **Parameters denote their arguments**, in the order of the arguments, exactly if each argument
    gets through. -/
theorem parametros_denota {M : Motor} (hM : M.LeeNumeros) (C : Charconv) (driver : Driver)
    {args : List Value} (hargs : ∀ v ∈ args, Escalar v) :
    List.Forall₂ M.Denota (driver.parametros C args) args ↔ ∀ v ∈ args, driver.Cabe M v := by
  rw [parametros_eq_map, List.forall₂_map_left_iff, List.forall₂_same]
  exact forall₂_congr fun v hv => parametro_denota hM driver (hargs v hv)

/-- An engine that reads as JSON does. -/
noncomputable def lector : Motor := ⟨Json.roundingConv.fromChars⟩

theorem lector_lee : lector.LeeNumeros :=
  fun _ _ _ _ _ _ d => Json.roundingConv_rounds _ d

theorem parametros_denota_mixed : List.Forall₂ lector.Denota
    (Driver.postgres.parametros Json.charconvOfBits
      [.str [0x69, 0x74, 0x27, 0x73], .null, .bool true, .int (-7), .float ⟨0x4004000000000000⟩])
    [.str [0x69, 0x74, 0x27, 0x73], .null, .bool true, .int (-7), .float ⟨0x4004000000000000⟩] := by
  have hreal : OfSixDigits ⟨0x4004000000000000⟩ :=
    ⟨_, _, _, _, Json.parts_exact, by decide, Json.rounded_exact⟩
  refine (parametros_denota lector_lee _ .postgres ?_).2 ?_
  · rintro v (_ | ⟨_, _ | ⟨_, _ | ⟨_, _ | ⟨_, _ | ⟨_, ⟨⟩⟩⟩⟩⟩⟩) <;> trivial
  · rintro v (_ | ⟨_, _ | ⟨_, _ | ⟨_, _ | ⟨_, _ | ⟨_, ⟨⟩⟩⟩⟩⟩⟩)
    · exact (by decide : (0 : UInt8) ∉ [0x69, 0x74, 0x27, 0x73])
    · trivial
    · trivial
    · trivial
    · exact hreal

/-- A text is cut at a NUL, and the query runs with what is left of it. -/
theorem nul_not_denoted : (∀ v ∈ [Value.str [0x61, 0x00, 0x62]], Escalar v) ∧
    Driver.postgres.parametros Json.charconvOfBits [.str [0x61, 0x00, 0x62]] = [.texto [0x61]] ∧
      ¬List.Forall₂ lector.Denota (Driver.postgres.parametros Json.charconvOfBits
        [.str [0x61, 0x00, 0x62]]) [.str [0x61, 0x00, 0x62]] := by
  refine ⟨?_, rfl, ?_⟩
  · rintro v (_ | ⟨_, ⟨⟩⟩)
    trivial
  · rintro (_ | ⟨h, -⟩)
    have h : ([0x61] : Bytes) = [0x61, 0x00, 0x62] := h
    exact absurd h (by decide)

end Osodio.Db
