import Osodio.Lib.Transition
import Osodio.Odio.Emitter

/-!
# Compiling a template

The source of a template is text with marks in it: expressions, tags and comments.
The compiler takes the marks in order, those of included files and of replaced
blocks in their place, and keeps the names that expressions can see in a table of
slots that only grows.

## Main definitions

- `Pieza`, `cuerpo`, `compilarPiezas` — the marks of a source, in order
- `Compilador`, `Compilador.step` — the compiler, one mark at a time
- `expresion` — an expression, compiled against the table of names
-/

namespace Osodio.Odio.Template

open Osodio.Lib

/-! ## Text -/

def blanco (c : Char) : Bool := c == ' ' || c == '\t' || c == '\n' || c == '\r'

/-- `recortar_izq`: without the blanks at the end. -/
def recortarIzq (t : List Char) : List Char := (t.reverse.dropWhile blanco).reverse

/-- `recortar_der`: without the blanks at the beginning. -/
def recortarDer (t : List Char) : List Char := t.dropWhile blanco

def trim (t : List Char) : List Char := recortarIzq (recortarDer t)

/-- What comes before the first `ab`, and what comes after it. -/
def hasta (a b : Char) : List Char → Option (List Char × List Char)
  | x :: y :: rest =>
    if x = a ∧ y = b then some ([], rest)
    else (hasta a b (y :: rest)).map fun p => (x :: p.1, p.2)
  | _ => none

/-- What comes before the first mark, its kind, and what comes after `{x`. -/
def abertura : List Char → Option (List Char × Char × List Char)
  | '{' :: c :: rest =>
    if c = '{' ∨ c = '%' ∨ c = '#' then some ([], c, rest)
    else (abertura (c :: rest)).map fun p => ('{' :: p.1, p.2)
  | c :: rest => (abertura rest).map fun p => (c :: p.1, p.2)
  | [] => none

/-- What comes before the first `in` between blanks, and what comes after it. -/
def parteIn : List Char → Option (List Char × List Char)
  | ' ' :: 'i' :: 'n' :: ' ' :: rest => some ([], rest)
  | c :: rest => (parteIn rest).map fun p => (c :: p.1, p.2)
  | [] => none

/-- A name between quotes loses them. -/
def sinComillas (t : List Char) : List Char :=
  match t with
  | c :: _ :: _ => if c = '"' ∨ c = '\'' then t.tail.dropLast else t
  | _ => t

/-- A path with `..` in it. -/
def conPuntos (t : List Char) : Bool := (hasta '.' '.' t).isSome

/-! ## The marks of a source -/

/-- A mark of the source, or the text between two of them. -/
inductive Pieza where
  | texto (t : String)
  | escribir (crudo : Bool) (expr : String)
  | si (expr : String)
  | elif (expr : String)
  | sino
  | endif
  | bucle (var lista : String)
  | endfor
  | error (message : String)
  deriving DecidableEq, Repr

/-- The files of the templates, and the blocks that a child has defined. -/
structure Carpeta where
  ficheros : List (String × String) := []
  bloques : List (String × List Char) := []

/-- A tag in a source: what comes before it, the tag, its contents, and what comes after it. -/
structure Etiqueta where
  previo : List Char
  marca : List Char
  cont : List Char
  resto : List Char

/-- The next tag, as `padre_de`, `fin_de_bloque` and `recoger_bloques` find it.  They look for its
    end from the `{` on: in `{%}` the end overlaps the beginning, and the contents are the rest of
    the source. -/
def etiquetaSimple (src : List Char) : Option Etiqueta := do
  let (previo, tras) ← hasta '{' '%' src
  match tras with
  | '}' :: resto => some ⟨previo, ['{', '%', '}'], trim tras, resto⟩
  | _ =>
    let (cont, resto) ← hasta '%' '}' tras
    some ⟨previo, '{' :: '%' :: cont ++ ['%', '}'], trim cont, resto⟩

/-- `fin_de_bloque`: what is inside the block, and what comes after its end. -/
def finDeBloque : ℕ → ℕ → List Char → Option (List Char × List Char)
  | 0, _, _ => none
  | n + 1, nivel, src => do
    let e ← etiquetaSimple src
    let sigue (nivel : ℕ) := (finDeBloque n nivel e.resto).map fun p =>
      (e.previo ++ e.marca ++ p.1, p.2)
    if "block".toList <+: e.cont then sigue (nivel + 1)
    else if "endblock".toList <+: e.cont then
      if nivel = 1 then some (e.previo, e.resto) else sigue (nivel - 1)
    else sigue nivel

/-- `{{ … }}`. -/
def expresionPieza (contenido : List Char) : Pieza :=
  let crudo := 5 < contenido.length ∧ "|safe".toList <:+ contenido
  let contenido := if crudo then trim (contenido.take (contenido.length - 5)) else contenido
  if '|' ∈ contenido then
    .error ("los filtros de Jinja2 no existen aqui: son metodos de Odio. " ++
      "En vez de \x7b\x7b x|upper \x7d\x7d, escribe \x7b\x7b x.upper() \x7d\x7d")
  else .escribir crudo (String.ofList contenido)

/-- `{% for … %}`. -/
def buclePieza (resto : List Char) : Pieza :=
  match parteIn resto with
  | none => .error "se esperaba \x7b% for x in lista %\x7d"
  | some (var, lista) =>
    if trim var = [] then .error "falta el nombre de la variable del bucle"
    else .bucle (String.ofList (trim var)) (String.ofList (trim lista))

/-- A tag that stands for itself. -/
def etiquetaPieza (etiqueta : String) (resto : List Char) : Option Pieza :=
  if etiqueta = "if" then some (.si (String.ofList resto))
  else if etiqueta = "elif" then some (.elif (String.ofList resto))
  else if etiqueta = "else" then some .sino
  else if etiqueta = "endif" then some .endif
  else if etiqueta = "for" then some (buclePieza resto)
  else if etiqueta = "endfor" then some .endfor
  else if etiqueta = "endblock" then none
  else if etiqueta = "extends" then
    some (.error "\x7b% extends %\x7d tiene que ser lo primero de la plantilla")
  else if etiqueta = "macro" ∨ etiqueta = "endmacro" then
    some (.error ("\x7b% " ++ etiqueta ++ " %\x7d no existe en Odio: " ++
      "para reutilizar, usa \x7b% include %\x7d o una funcion del .odio"))
  else some (.error ("etiqueta desconocida: \x7b% " ++ etiqueta ++ " %\x7d"))

def textoPieza (t : List Char) : List Pieza :=
  if t = [] then [] else [.texto (String.ofList t)]

/-- `cuerpo`: the marks of a source in order, those of its includes and blocks in
    their place.  It is cut off after `fuel` marks, since a block that contains
    itself has no end. -/
def cuerpo (C : Carpeta) : ℕ → List Char → ℕ → Option (List Pieza)
  | 0, _, _ => none
  | fuel + 1, src, profundidad =>
    match abertura src with
    | none => some (textoPieza src)
    | some (previo, tipo, tras) =>
      match hasta (if tipo = '{' then '}' else tipo) '}' tras with
      | none => some [.error "falta el cierre"]
      | some (marca, resto) =>
        let antes := marca.head? = some '-'
        let despues := marca.getLast? = some '-'
        let texto := textoPieza (if antes then recortarIzq previo else previo)
        let contenido :=
          -- with a single '-' the length of the contents wraps around
          if marca = ['-'] then
            trim ((if tipo = '{' then '}' else tipo) :: '}' :: resto)
          else trim ((if antes then marca.tail else marca).take
            (marca.length - (if antes then 1 else 0) - (if despues then 1 else 0)))
        let resto := if despues then recortarDer resto else resto
        let sigue (piezas : List Pieza) := (cuerpo C fuel resto profundidad).map
          fun rest => texto ++ piezas ++ rest
        if tipo = '#' then sigue []
        else if tipo = '{' then sigue [expresionPieza contenido]
        else
          let etiqueta := String.ofList (contenido.takeWhile fun c => c != ' ' && c != '\t')
          let cola := trim (contenido.dropWhile fun c => c != ' ' && c != '\t')
          if etiqueta = "include" then
            if 16 < profundidad then
              sigue [.error "demasiados \x7b% include %\x7d anidados: hay un ciclo?"]
            else
              let nombre := sinComillas cola
              if nombre = [] ∨ conPuntos nombre then
                sigue [.error "nombre de plantilla no valido en \x7b% include %\x7d"]
              else
                match C.ficheros.lookup (String.ofList nombre) with
                | none => sigue [.error ("no se encuentra la plantilla '" ++
                    String.ofList nombre ++ "'")]
                | some incluido =>
                  (cuerpo C fuel incluido.toList (profundidad + 1)).bind sigue
          else if etiqueta = "block" then
            match finDeBloque (resto.length + 1) 1 resto with
            | none => some (texto ++ [.error ("falta \x7b% endblock %\x7d para el bloque '" ++
                String.ofList cola ++ "'")])
            | some (_, trasBloque) =>
              match C.bloques.lookup (String.ofList cola) with
              | none => sigue []
              | some bloque =>
                (cuerpo C fuel bloque (profundidad + 1)).bind fun piezas =>
                  (cuerpo C fuel trasBloque profundidad).map fun rest => texto ++ piezas ++ rest
          else sigue (etiquetaPieza etiqueta cola).toList

/-- `padre_de`: the base that a source extends. -/
def padreDe (src : List Char) : Option (List Char) := do
  let e ← etiquetaSimple (recortarDer src)
  if e.previo ≠ [] then none
  if "extends".toList <+: e.cont then some (sinComillas (trim (e.cont.drop 7))) else none

/-- `recoger_bloques`: the blocks of a child, and the errors found.  A block that is
    there already stays. -/
def recogerBloques : ℕ → List Char → List (String × List Char) →
    List Pieza × List (String × List Char)
  | 0, _, bloques => ([], bloques)
  | n + 1, src, bloques =>
    match etiquetaSimple src with
    | none => ([], bloques)
    | some e =>
      if "block".toList <+: e.cont then
        let nombre := String.ofList (trim (e.cont.drop 5))
        match finDeBloque (e.resto.length + 1) 1 e.resto with
        | none =>
          ([.error ("falta \x7b% endblock %\x7d para el bloque '" ++ nombre ++ "'")], bloques)
        | some (dentro, tras) =>
          recogerBloques n tras
            (if nombre = "" ∨ (bloques.lookup nombre).isSome then bloques
              else bloques ++ [(nombre, dentro)])
      else recogerBloques n e.resto bloques

/-- The source that a template is compiled from, with the blocks of its children and
    the errors found; or the error that ends the search. -/
def raizDe (ficheros : List (String × String)) (n : ℕ) (src : List Char)
    (bloques : List (String × List Char)) :
    Except String (List Pieza × List Char × List (String × List Char)) :=
  match padreDe src with
  | none => .ok ([], src, bloques)
  | some [] => .ok ([.error "\x7b% extends %\x7d sin nombre de plantilla"], src, bloques)
  | some padre =>
    match n with
    | 0 => .error "demasiados \x7b% extends %\x7d encadenados: hay un ciclo?"
    | n + 1 =>
      let (errores, bloques) := recogerBloques (src.length + 1) src bloques
      match if conPuntos padre then none else ficheros.lookup (String.ofList padre) with
      | none => .error ("no se encuentra la plantilla base '" ++ String.ofList padre ++ "'")
      | some texto => do
        let (mas, raiz, bloques) ← raizDe ficheros n texto.toList bloques
        return (errores ++ mas, raiz, bloques)

/-- The marks of a template: those of the last of its bases, which are at most 16. -/
def piezasDe (ficheros : List (String × String)) (fuel : ℕ) (fuente : String) :
    Option (List Pieza) :=
  match raizDe ficheros 16 fuente.toList [] with
  | .error message => some [.error message]
  | .ok (errores, raiz, bloques) =>
    (cuerpo ⟨ficheros, bloques⟩ fuel raiz 0).map fun piezas => errores ++ piezas

/-! ## The compiler -/

/-- The names of the slots, each with its type. -/
abbrev Nombres := List (String × String)

/-- An instruction of a template. -/
inductive Instr where
  | texto (a : ℕ)
  | escribir (a : ℕ)
  | escribirCrudo (a : ℕ)
  | saltarSiFalso (a b : ℕ)
  | saltar (b : ℕ)
  | bucleInicio (a b slot slotLoop : ℕ)
  | bucleSiguiente (b slot slotLoop : ℕ)
  deriving DecidableEq, Repr

/-- The target of a jump that was left open. -/
def Instr.parchear (destino : ℕ) : Instr → Instr
  | .saltarSiFalso a _ => .saltarSiFalso a destino
  | .saltar _ => .saltar destino
  | .bucleInicio a _ slot slotLoop => .bucleInicio a destino slot slotLoop
  | i => i

/-- A tag that is still open. -/
inductive Abierto where
  /-- `inicio` is the condition that still has no target. -/
  | si (parches : List ℕ) (inicio : Option ℕ)
  /-- `tapados` are the names that the loop hides.  The source does not keep
      `antes` and `ambito`, the two tables before the loop. -/
  | bucle (inicio : ℕ) (tapados : List (ℕ × String)) (antes ambito : Nombres)
  deriving DecidableEq, Repr

/-- What happened in a compilation; the source does not record it. -/
inductive Suceso where
  /-- A loop was closed: the table before it, and the one after it. -/
  | cierre (antes despues : Nombres)
  /-- An expression was compiled, or not.  `ambito` is the table that the scopes of
      the loops ask for. -/
  | expresion (texto : String) (ambito : Nombres) (compilada : Bool)
  deriving DecidableEq, Repr

/-- The state of the compiler.  The innermost open tag comes first. -/
structure Compilador where
  nombres : Nombres
  textos : List String := []
  exprs : List Chunk := []
  code : List Instr := []
  abiertos : List Abierto := []
  errores : List String := []
  /-- The table with the names of the loops that were closed out of sight. -/
  ambito : Nombres
  sucesos : List Suceso := []

/-- What the compiler needs for expressions: the parser, and the emitter. -/
structure Taller where
  parse : String → Except String Expr
  emitter : Emitter
  fuel : ℕ

/-- `expresion`: an expression against a table of names. -/
def expresion (T : Taller) (texto : String) (nombres : Nombres) : Except String Chunk := do
  let e ← T.parse texto
  match emitCondition T.emitter T.fuel e nombres {} with
  | .ok (_, s) => .ok s.chunk
  | .error d => .error d.message

/-- The name of a slot that is hidden, which is no identifier. -/
def marcador (i : ℕ) : String := " tapado" ++ toString i

/-- The last slot of a name. -/
def ranura (nombre : String) (nombres : Nombres) : Option ℕ :=
  (nombres.reverse.findIdx? fun n => n.1 == nombre).map fun k => nombres.length - 1 - k

def renombrar (nombres : Nombres) (i : ℕ) (nombre : String) : Nombres :=
  nombres.modify i fun n => (nombre, n.2)

/-- `tapar`: hides a name, if it is in sight. -/
def tapar (nombre : String) (nombres : Nombres) : Nombres × List (ℕ × String) :=
  match ranura nombre nombres with
  | some i => (renombrar nombres i (marcador i), [(i, nombre)])
  | none => (nombres, [])

/-- The names that were hidden come back. -/
def destapar (nombres : Nombres) (tapados : List (ℕ × String)) : Nombres :=
  tapados.foldl (fun n p => renombrar n p.1 p.2) nombres

/-- The table in a loop over `var`, and the names that it hides. -/
def entrar (var : String) (nombres : Nombres) : Nombres × List (ℕ × String) :=
  let (n₁, t₁) := tapar var nombres
  let (n₂, t₂) := tapar "loop" n₁
  (n₂ ++ [(var, ""), ("loop", "")], t₁ ++ t₂)

/-- The table after a loop, as the scopes ask for it: the one before it, with the
    slots that are new out of sight. -/
def salir (antes nombres : Nombres) : Nombres :=
  antes ++ ((nombres.drop antes.length).zipIdx antes.length).map fun p => (marcador p.2, p.1.2)

namespace Compilador

def error (c : Compilador) (message : String) : Compilador :=
  { c with errores := message :: c.errores }

def emitir (c : Compilador) (i : Instr) : Compilador := { c with code := c.code ++ [i] }

def parchear (c : Compilador) (pos : ℕ) : Compilador :=
  { c with code := c.code.modify pos (Instr.parchear c.code.length) }

/-- `expresion`, with what follows if it compiles. -/
def conExpresion (T : Taller) (c : Compilador) (texto : String)
    (sigue : ℕ → Compilador → Compilador) : Compilador :=
  match expresion T texto c.nombres with
  | .ok chunk =>
    sigue c.exprs.length { c with
      exprs := c.exprs ++ [chunk]
      sucesos := .expresion texto c.ambito true :: c.sucesos }
  | .error message =>
    { c with sucesos := .expresion texto c.ambito false :: c.sucesos }.error
      ("en la expresion de la plantilla: " ++ message)

/-- The branch before an `elif` or an `else` jumps to the end, and the condition that
    is still open comes here. -/
def otraRama (c : Compilador) (inicio : Option ℕ) : Compilador :=
  let c := c.emitir (.saltar 0)
  match inicio with
  | some pos => c.parchear pos
  | none => c

/-- One mark. -/
def pieza (T : Taller) (c : Compilador) : Pieza → Compilador
  | .texto t => { c with textos := c.textos ++ [t] }.emitir (.texto c.textos.length)
  | .error message => c.error message
  | .escribir crudo texto =>
    c.conExpresion T texto fun k c => c.emitir (if crudo then .escribirCrudo k else .escribir k)
  | .si texto =>
    c.conExpresion T texto fun k c =>
      { c with abiertos := .si [] (some c.code.length) :: c.abiertos }.emitir (.saltarSiFalso k 0)
  | .elif texto =>
    match c.abiertos with
    | .si parches inicio :: resto =>
      let parches := parches ++ [c.code.length]
      let c := { c.otraRama inicio with abiertos := .si parches inicio :: resto }
      c.conExpresion T texto fun k c =>
        { c with abiertos := .si parches (some c.code.length) :: resto }.emitir
          (.saltarSiFalso k 0)
    | _ => c.error "\x7b% elif %\x7d sin \x7b% if %\x7d"
  | .sino =>
    match c.abiertos with
    | .si parches inicio :: resto =>
      { c.otraRama inicio with abiertos := .si (parches ++ [c.code.length]) none :: resto }
    | _ => c.error "\x7b% else %\x7d sin \x7b% if %\x7d"
  | .endif =>
    match c.abiertos with
    | .si parches inicio :: resto =>
      (inicio.toList ++ parches).foldl parchear { c with abiertos := resto }
    | _ => c.error "\x7b% endif %\x7d sin \x7b% if %\x7d"
  | .bucle var lista =>
    c.conExpresion T lista fun k c =>
      let (nombres, tapados) := entrar var c.nombres
      { c with
        nombres := nombres
        ambito := (entrar var c.ambito).1
        abiertos := .bucle c.code.length tapados c.nombres c.ambito :: c.abiertos }.emitir
          (.bucleInicio k 0 c.nombres.length (c.nombres.length + 1))
  | .endfor =>
    match c.abiertos with
    | .bucle inicio tapados antes ambito :: resto =>
      let nombres := destapar c.nombres tapados
      { c with
        nombres := nombres
        ambito := salir ambito c.ambito
        abiertos := resto
        sucesos := .cierre antes nombres :: c.sucesos }.emitir
          (.bucleSiguiente (inicio + 1) antes.length (antes.length + 1)) |>.parchear inicio
    | _ => c.error "\x7b% endfor %\x7d sin \x7b% for %\x7d"

end Compilador

/-- The compiler over the marks of a template.  The names of the data come first. -/
def compilador (T : Taller) (datos : Nombres) : System Compilador Pieza where
  init := { nombres := datos, ambito := datos }
  step c p := some (c.pieza T p)

/-- `compilar_plantilla`: the compiler after the last mark.  Nothing may be open. -/
def compilarPlantilla (T : Taller) (ficheros : List (String × String)) (fuel : ℕ)
    (fuente : String) (datos : Nombres) : Option Compilador := do
  let piezas ← piezasDe ficheros fuel fuente
  let c ← (compilador T datos).run piezas
  return match c.abiertos with
    | [] => c
    | .si .. :: _ => c.error "falta \x7b% endif %\x7d"
    | .bucle .. :: _ => c.error "falta \x7b% endfor %\x7d"

end Osodio.Odio.Template
