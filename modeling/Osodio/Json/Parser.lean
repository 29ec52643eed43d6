import Osodio.Json.Writer

/-!
# Reading JSON

A recursive descent over the bytes of a text.  A parser takes what is left of the
text and gives what it has read and what is left then.

## Main definitions

- `cadena` — a text after its opening quote
- `numero` — a number, an integer where it has no fraction and no exponent
- `valor` — a value, with a bound on the nesting
- `parseJson` — `parse_json`
-/

namespace Osodio.Json

/-- What a parser reads, and what it leaves. -/
abbrev Reader (α : Type) := Bytes → Option (α × Bytes)

/-- `kMaxProfundidad`. -/
def kMaxProfundidad : ℕ := 200

/-! ## Bytes -/

/-- `digito`. -/
def digito (c : UInt8) : Bool := 0x30 ≤ c && c ≤ 0x39

def espacio (c : UInt8) : Bool := c == 0x20 || c == 0x09 || c == 0x0A || c == 0x0D

/-- `espacios`. -/
def espacios (s : Bytes) : Bytes := s.dropWhile espacio

/-- `literal`. -/
def literal (lit : String) (v : Value) : Reader Value := fun s =>
  if (ascii lit).isPrefixOf s then some (v, s.drop (ascii lit).length) else none

/-! ## Texts -/

/-- A code point in UTF-8. -/
def utf8 (cp : ℕ) : Bytes :=
  if cp < 0x80 then [UInt8.ofNat cp]
  else if cp < 0x800 then
    [UInt8.ofNat (0xC0 ||| cp >>> 6), UInt8.ofNat (0x80 ||| cp &&& 0x3F)]
  else if cp < 0x10000 then
    [UInt8.ofNat (0xE0 ||| cp >>> 12), UInt8.ofNat (0x80 ||| cp >>> 6 &&& 0x3F),
      UInt8.ofNat (0x80 ||| cp &&& 0x3F)]
  else
    [UInt8.ofNat (0xF0 ||| cp >>> 18), UInt8.ofNat (0x80 ||| cp >>> 12 &&& 0x3F),
      UInt8.ofNat (0x80 ||| cp >>> 6 &&& 0x3F), UInt8.ofNat (0x80 ||| cp &&& 0x3F)]

/-- The value of a hexadecimal digit. -/
def hexValue (c : UInt8) : Option ℕ :=
  if 0x30 ≤ c && c ≤ 0x39 then some (c.toNat - 0x30)
  else if 0x61 ≤ c && c ≤ 0x66 then some (c.toNat - 0x61 + 10)
  else if 0x41 ≤ c && c ≤ 0x46 then some (c.toNat - 0x41 + 10)
  else none

/-- `hex4`. -/
def hex4 : Reader ℕ
  | a :: b :: c :: d :: s => do
    let a ← hexValue a
    let b ← hexValue b
    let c ← hexValue c
    let d ← hexValue d
    return (4096 * a + 256 * b + 16 * c + d, s)
  | _ => none

/-- What `\u` stands for: a high surrogate takes the low one after it. -/
def escapeUnicode : Reader Bytes := fun s => do
  let (cp, s) ← hex4 s
  if 0xD800 ≤ cp ∧ cp ≤ 0xDBFF then
    match s with
    | 0x5C :: 0x75 :: s => do
      let (bajo, s) ← hex4 s
      if bajo < 0xDC00 ∨ 0xDFFF < bajo then none
      else return (utf8 (0x10000 + (cp - 0xD800) * 1024 + (bajo - 0xDC00)), s)
    | _ => none
  else if 0xDC00 ≤ cp ∧ cp ≤ 0xDFFF then none
  else return (utf8 cp, s)

/-- What stands after a backslash. -/
def escapado : Reader Bytes
  | [] => none
  | e :: s =>
    if e = 0x22 then some ([0x22], s)
    else if e = 0x5C then some ([0x5C], s)
    else if e = 0x2F then some ([0x2F], s)
    else if e = 0x62 then some ([0x08], s)
    else if e = 0x66 then some ([0x0C], s)
    else if e = 0x6E then some ([0x0A], s)
    else if e = 0x72 then some ([0x0D], s)
    else if e = 0x74 then some ([0x09], s)
    else if e = 0x75 then escapeUnicode s
    else none

/-- The loop of `cadena` that looks at every byte; it reads a byte or more in each of
    its turns. -/
def cadenaDesde : ℕ → Reader Bytes
  | 0, _ => none
  | _ + 1, [] => none
  | n + 1, c :: s =>
    if c = 0x22 then some ([], s)
    else if c < 0x20 then none
    else if c ≠ 0x5C then do
      let (resto, s) ← cadenaDesde n s
      return (c :: resto, s)
    else do
      let (e, s) ← escapado s
      let (resto, s) ← cadenaDesde n s
      return (e ++ resto, s)

/-- `cadena`, after the opening quote: what comes before the first quote or backslash
    is copied at once. -/
def cadena : Reader Bytes := fun s =>
  let limpio := s.takeWhile fun c => !sucio c
  match s.dropWhile fun c => !sucio c with
  | [] => none
  | c :: s =>
    if c = 0x22 then some (limpio, s)
    else if c = 0x5C then do
      let (resto, s) ← cadenaDesde (s.length + 2) (c :: s)
      return (limpio ++ resto, s)
    else none

/-! ## Numbers -/

/-- The sign of a number. -/
def signoDe : Bytes → Bytes × Bytes
  | 0x2D :: s => ([0x2D], s)
  | s => ([], s)

/-- `from_chars` for `long long`, when it reads a whole text. -/
def fromCharsInt (t : Bytes) : Option Int64 :=
  let (signo, ds) := signoDe t
  if ds.isEmpty || !ds.all digito then none
  else
    let m : ℕ := Nat.ofDigits 10 (ds.reverse.map fun d => d.toNat - 0x30)
    let n : ℤ := if signo.isEmpty then m else -m
    if -2 ^ 63 ≤ n ∧ n < 2 ^ 63 then some (Int64.ofInt n) else none

/-- One digit or more. -/
def digitosDe : Reader Bytes := fun s =>
  if (s.takeWhile digito).isEmpty then none else some (s.takeWhile digito, s.dropWhile digito)

/-- The digits before the fraction: a zero stands alone. -/
def enteraDe : Reader Bytes
  | [] => none
  | c :: s =>
    if c = 0x30 then some ([0x30], s)
    else if 0x31 ≤ c && c ≤ 0x39 then digitosDe (c :: s)
    else none

/-- The fraction, if there is one. -/
def fraccionDe : Reader Bytes
  | 0x2E :: s => do
    let (ds, s) ← digitosDe s
    return (0x2E :: ds, s)
  | s => some ([], s)

/-- The sign of an exponent. -/
def signoExponente : Bytes → Bytes × Bytes
  | c :: s => if c = 0x2B ∨ c = 0x2D then ([c], s) else ([], c :: s)
  | [] => ([], [])

/-- The exponent, if there is one. -/
def exponenteDe : Reader Bytes
  | c :: s =>
    if c = 0x65 ∨ c = 0x45 then do
      let (ds, s') ← digitosDe (signoExponente s).2
      return (c :: (signoExponente s).1 ++ ds, s')
    else some ([], c :: s)
  | [] => some ([], [])

/-- The text of a number, and whether it has a fraction or an exponent. -/
def textoDe : Reader (Bytes × Bool) := fun s => do
  let (signo, s) := signoDe s
  let (entera, s) ← enteraDe s
  let (fraccion, s) ← fraccionDe s
  let (exponente, s) ← exponenteDe s
  return ((signo ++ entera ++ fraccion ++ exponente, !fraccion.isEmpty || !exponente.isEmpty), s)

/-- What the text of a number stands for: an integer out of range is a double. -/
def numeroDe (C : Charconv) (t : Bytes) (real : Bool) : Option Value :=
  match if real then none else fromCharsInt t with
  | some n => some (.int n)
  | none => (C.fromChars t).map .float

/-- `numero`. -/
def numero (C : Charconv) : Reader Value := fun s => do
  let ((t, real), s) ← textoDe s
  let v ← numeroDe C t real
  return (v, s)

/-! ## Values -/

/-- `d[k] = v`: a key that exists keeps its place. -/
def setKey (k : Bytes) (v : Value) : List (Bytes × Value) → List (Bytes × Value)
  | [] => [(k, v)]
  | (k', v') :: es => if k' = k then (k, v) :: es else (k', v') :: setKey k v es

/-- The loop of `lista`; it reads a byte or more in each of its turns. -/
def elementos (valor : Reader Value) : ℕ → Reader (List Value)
  | 0, _ => none
  | n + 1, s => do
    let (v, s) ← valor (espacios s)
    match espacios s with
    | 0x2C :: s => do
      let (vs, s) ← elementos valor n s
      return (v :: vs, s)
    | 0x5D :: s => return ([v], s)
    | _ => none

/-- `lista`, after its bracket. -/
def lista (valor : Reader Value) : Reader Value := fun s =>
  match espacios s with
  | 0x5D :: s => some (.list [], s)
  | s => do
    let (vs, s) ← elementos valor (s.length + 1) s
    return (.list vs, s)

/-- One pair of an object. -/
def par (valor : Reader Value) : Reader (Bytes × Value) := fun s =>
  match espacios s with
  | 0x22 :: s => do
    let (k, s) ← cadena s
    match espacios s with
    | 0x3A :: s => do
      let (v, s) ← valor (espacios s)
      return ((k, v), s)
    | _ => none
  | _ => none

/-- The loop of `objeto`, which fills the dictionary `d`. -/
def pares (valor : Reader Value) : ℕ → List (Bytes × Value) → Reader (List (Bytes × Value))
  | 0, _, _ => none
  | n + 1, d, s => do
    let ((k, v), s) ← par valor s
    match espacios s with
    | 0x2C :: s => pares valor n (setKey k v d) s
    | 0x7D :: s => return (setKey k v d, s)
    | _ => none

/-- `objeto`, after its brace. -/
def objeto (valor : Reader Value) : Reader Value := fun s =>
  match espacios s with
  | 0x7D :: s => some (.dict [], s)
  | s => do
    let (d, s) ← pares valor (s.length + 1) [] s
    return (.dict d, s)

/-- `valor`, at a depth that leaves `n` levels. -/
def valor (C : Charconv) : ℕ → Reader Value
  | 0, _ => none
  | _ + 1, [] => none
  | n + 1, c :: s =>
    if c = 0x6E then literal "null" .null (c :: s)
    else if c = 0x74 then literal "true" (.bool true) (c :: s)
    else if c = 0x66 then literal "false" (.bool false) (c :: s)
    else if c = 0x22 then do
      let (t, s) ← cadena s
      return (.str t, s)
    else if c = 0x5B then lista (valor C n) s
    else if c = 0x7B then objeto (valor C n) s
    else numero C (c :: s)

/-- `parse_json`: the whole text is one value. -/
def parseJson (C : Charconv) (texto : Bytes) : Option Value :=
  match valor C (kMaxProfundidad + 1) (espacios texto) with
  | some (v, s) => if (espacios s).isEmpty then some v else none
  | none => none

end Osodio.Json
