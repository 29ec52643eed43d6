import Osodio.Odio.Value
import Mathlib.Data.List.Nodup
import Mathlib.Logic.Function.Basic

/-!
# Dictionaries with an index

A `Value::Dict` is a vector of pairs.  Beyond a threshold there is an index from keys to positions
as well, which one operation builds and the others keep.  Several objects are copied and moved into
each other.

## Main definitions

- `Dict` — the vector and the index, with the operations of the class
- `Op`, `Op.aplicar` — an operation on one of several objects, and what it gives
- `Op.enLista` — the same operation on lists of pairs
- `Bien` — what holds of an object between two operations

## Main results

- `aplicar_enLista` — one operation does to the objects what it does to their lists
- `correr_enLista` — so does any sequence of operations, and the index is exact throughout
-/

namespace Osodio.Odio.Indexed

/-! ## The class -/

/-- `std::unordered_map`: `emplace` leaves a key that is there as it is. -/
abbrev Idx := List (String × ℕ)

def emplace (k : String) (i : ℕ) (m : Idx) : Idx :=
  if (m.lookup k).isSome then m else (k, i) :: m

structure Dict where
  v : List (String × Value) := []
  idx : Idx := []
  deriving Inhabited

namespace Dict

def kUmbral : ℕ := 16

def claves (d : Dict) : List String := d.v.map Prod.fst

/-- The keys from position `i` on, entered in an index. -/
def indexarDesde (i : ℕ) (m : Idx) : List String → Idx
  | [] => m
  | k :: ks => indexarDesde (i + 1) (emplace k i m) ks

def indexar (d : Dict) : Dict := { d with idx := indexarDesde 0 [] d.claves }

/-- `find`: the position of a key; `none` is `end()`. -/
def find (k : String) (d : Dict) : Option ℕ :=
  if d.idx = [] then d.v.findIdx? fun p => p.1 == k else d.idx.lookup k

def size (d : Dict) : ℕ := d.v.length

def empty (d : Dict) : Bool := d.v.isEmpty

def count (k : String) (d : Dict) : ℕ := if d.find k = none then 0 else 1

def clear (_ : Dict) : Dict := {}

/-- `reservar`: the capacity of the vector is not observed. -/
def reservar (_ : ℕ) (d : Dict) : Dict := d

/-- `operator[]` on a key that is not there. -/
def anadir (k : String) (d : Dict) : Dict :=
  let d := { d with v := d.v ++ [(k, .null)] }
  if d.idx ≠ [] then { d with idx := emplace k (d.v.length - 1) d.idx }
  else if kUmbral < d.v.length then d.indexar
  else d

/-- `operator[]`: the position that the reference is to. -/
def acceder (k : String) (d : Dict) : ℕ × Dict :=
  match d.find k with
  | some i => (i, d)
  | none => (d.v.length, d.anadir k)

/-- What a reference or an iterator to a position reads. -/
def valor (i : ℕ) (d : Dict) : Value := ((d.v[i]?).map Prod.snd).getD .null

/-- An assignment through a reference or an iterator. -/
def asignar (i : ℕ) (x : Value) (d : Dict) : Dict :=
  { d with v := d.v.modify i fun p => (p.1, x) }

/-- A loop over the pairs that assigns to the values. -/
def recorrer (f : String → Value → Value) (d : Dict) : Dict :=
  { d with v := d.v.map fun p => (p.1, f p.1 p.2) }

end Dict

/-! ## Operations on objects -/

/-- An operation on the object `o`. -/
inductive Op where
  /-- `x = d[k]`. -/
  | leer (o : ℕ) (k : String)
  /-- `d[k] = x`. -/
  | escribir (o : ℕ) (k : String) (x : Value)
  /-- `find`, and what the iterator reads. -/
  | buscar (o : ℕ) (k : String)
  /-- `find`, and an assignment through the iterator unless it is `end()`. -/
  | buscarYAsignar (o : ℕ) (k : String) (x : Value)
  | count (o : ℕ) (k : String)
  | size (o : ℕ)
  | empty (o : ℕ)
  | clear (o : ℕ)
  | reservar (o n : ℕ)
  /-- A loop over the pairs. -/
  | pares (o : ℕ)
  /-- A loop over the pairs that assigns to the values. -/
  | recorrer (o : ℕ) (f : String → Value → Value)
  /-- Copy construction or assignment to `o`. -/
  | copiar (o desde : ℕ)
  /-- Move construction or assignment to `o`; what it moves from is another object. -/
  | mover (o desde : ℕ) (h : o ≠ desde)

/-- What an operation gives. -/
inductive Obs where
  | nada
  | valor (x : Value)
  | quiza (x : Option Value)
  | num (n : ℕ)
  | bool (b : Bool)
  | pares (ps : List (String × Value))

/-- The objects, by name. -/
abbrev Objetos := ℕ → Dict

/-- A vector and a map that are moved from are left empty. -/
def Op.aplicar (s : Objetos) : Op → Obs × Objetos
  | .leer o k =>
    let (i, d) := (s o).acceder k
    (.valor (d.valor i), Function.update s o d)
  | .escribir o k x =>
    let (i, d) := (s o).acceder k
    (.nada, Function.update s o (d.asignar i x))
  | .buscar o k => (.quiza (((s o).find k).map fun i => (s o).valor i), s)
  | .buscarYAsignar o k x =>
    match (s o).find k with
    | some i => (.nada, Function.update s o ((s o).asignar i x))
    | none => (.nada, s)
  | .count o k => (.num ((s o).count k), s)
  | .size o => (.num (s o).size, s)
  | .empty o => (.bool (s o).empty, s)
  | .clear o => (.nada, Function.update s o (s o).clear)
  | .reservar o n => (.nada, Function.update s o ((s o).reservar n))
  | .pares o => (.pares (s o).v, s)
  | .recorrer o f => (.nada, Function.update s o ((s o).recorrer f))
  | .copiar o desde => (.nada, Function.update s o (s desde))
  | .mover o desde _ => (.nada, Function.update (Function.update s o (s desde)) desde {})

/-- The lists of pairs, by name. -/
abbrev Listas := ℕ → Odio.Dict

/-- A key that is not there is entered at the end, with `null`. -/
def conClave (k : String) (l : Odio.Dict) : Odio.Dict :=
  if (l.lookup k).isSome then l else l ++ [(k, .null)]

/-- **The same operations on lists** of pairs with different keys, in the order in which the keys
    were first inserted. -/
def Op.enLista (s : Listas) : Op → Obs × Listas
  | .leer o k => (.valor (valueAt k (s o)), Function.update s o (conClave k (s o)))
  | .escribir o k x => (.nada, Function.update s o (setKey k x (s o)))
  | .buscar o k => (.quiza ((s o).lookup k), s)
  | .buscarYAsignar o k x =>
    (.nada, if ((s o).lookup k).isSome then Function.update s o (setKey k x (s o)) else s)
  | .count o k => (.num (if ((s o).lookup k).isSome then 1 else 0), s)
  | .size o => (.num (s o).length, s)
  | .empty o => (.bool (s o).isEmpty, s)
  | .clear o => (.nada, Function.update s o [])
  | .reservar _ _ => (.nada, s)
  | .pares o => (.pares (s o), s)
  | .recorrer o f => (.nada, Function.update s o ((s o).map fun p => (p.1, f p.1 p.2)))
  | .copiar o desde => (.nada, Function.update s o (s desde))
  | .mover o desde _ => (.nada, Function.update (Function.update s o (s desde)) desde [])

/-- A sequence of operations, with what each of them gives. -/
def correr {σ : Type} (aplicar : σ → Op → Obs × σ) : List Op → σ → List Obs × σ
  | [], s => ([], s)
  | op :: ops, s =>
    let (x, s) := aplicar s op
    let (xs, s) := correr aplicar ops s
    (x :: xs, s)

/-! ## Lists of pairs -/

section Pairs

variable {k k' : String} {x : Value} {l : Odio.Dict} {i : ℕ} {m : Idx}

theorem lookup_emplace (k k' : String) (i : ℕ) (m : Idx) :
    (emplace k i m).lookup k' = (m.lookup k').or (if k = k' then some i else none) := by
  unfold emplace
  cases hm : m.lookup k with
  | some j =>
    rw [Option.isSome_some, if_pos rfl]
    by_cases hk : k = k'
    · rw [← hk, hm, Option.some_or]
    · rw [if_neg hk, Option.or_none]
  | none =>
    rw [if_neg nofun]
    by_cases hk : k = k'
    · rw [← hk, List.lookup_cons_self, hm, if_pos rfl, Option.none_or]
    · rw [if_neg hk, Option.or_none, List.lookup_cons, beq_eq_false_iff_ne.2 (Ne.symm hk)]

/-- Of equal keys, the first is the one in the index. -/
theorem lookup_indexarDesde (i : ℕ) (m : Idx) (ks : List String) (k : String) :
    (Dict.indexarDesde i m ks).lookup k =
      (m.lookup k).or ((ks.findIdx? (· == k)).map (· + i)) := by
  induction ks generalizing i m with
  | nil => simp [Dict.indexarDesde]
  | cons k' ks ih =>
    rw [Dict.indexarDesde, ih, lookup_emplace, List.findIdx?_cons]
    by_cases hk : k' = k
    · subst hk
      cases hm : m.lookup k' <;> simp
    · have hb : (k' == k) = false := beq_eq_false_iff_ne.2 hk
      rw [if_neg hk, hb, Option.or_none, if_neg Bool.false_ne_true, Option.map_map]
      congr 2
      funext j
      simp only [Function.comp]
      omega

/-- The value of a key is that at its position. -/
theorem lookup_eq_findIdx (l : Odio.Dict) (k : String) :
    l.lookup k = ((l.map Prod.fst).findIdx? (· == k)).bind fun i => (l[i]?).map Prod.snd := by
  induction l with
  | nil => rfl
  | cons p l ih =>
    obtain ⟨k', x⟩ := p
    rw [List.lookup_cons, List.map_cons, List.findIdx?_cons]
    by_cases hk : k' = k
    · subst hk
      simp
    · have hb : (k == k') = false := beq_eq_false_iff_ne.2 (Ne.symm hk)
      have hb' : (k' == k) = false := beq_eq_false_iff_ne.2 hk
      rw [hb, hb', if_neg Bool.false_ne_true, ih, Option.bind_map]
      rfl

/-- A key that is not there is entered at the end. -/
theorem setKey_of_none (x : Value) (h : (l.map Prod.fst).findIdx? (· == k) = none) :
    setKey k x l = l ++ [(k, x)] := by
  induction l with
  | nil => rfl
  | cons p l ih =>
    obtain ⟨k', x'⟩ := p
    rw [List.map_cons, List.findIdx?_cons] at h
    by_cases hk : k' = k
    · subst hk
      simp at h
    · have hb : (k' == k) = false := beq_eq_false_iff_ne.2 hk
      rw [hb, if_neg Bool.false_ne_true] at h
      rw [setKey, if_neg hk, ih (Option.map_eq_none_iff.1 h)]
      rfl

/-- A key that is there keeps its position. -/
theorem setKey_of_some (x : Value) (h : (l.map Prod.fst).findIdx? (· == k) = some i) :
    setKey k x l = l.modify i fun p => (p.1, x) := by
  induction l generalizing i with
  | nil => cases h
  | cons p l ih =>
    obtain ⟨k', x'⟩ := p
    rw [List.map_cons, List.findIdx?_cons] at h
    by_cases hk : k' = k
    · subst hk
      rw [beq_self_eq_true, if_pos rfl] at h
      cases h
      rw [setKey, if_pos rfl]
      rfl
    · have hb : (k' == k) = false := beq_eq_false_iff_ne.2 hk
      rw [hb, if_neg Bool.false_ne_true] at h
      obtain ⟨j, hj, rfl⟩ := Option.map_eq_some_iff.1 h
      rw [setKey, if_neg hk, ih hj]
      rfl

/-- The key of a position, where the keys are different. -/
theorem findIdx_eq_some_iff {ks : List String} (h : ks.Nodup) :
    ks.findIdx? (· == k) = some i ↔ ks[i]? = some k := by
  rw [List.findIdx?_eq_some_iff_getElem]
  constructor
  · rintro ⟨hi, hk, -⟩
    rw [List.getElem?_eq_getElem hi, eq_of_beq hk]
  · intro hk
    obtain ⟨hi, hk⟩ := List.getElem?_eq_some_iff.1 hk
    refine ⟨hi, beq_iff_eq.2 hk, fun j hj => ?_⟩
    have hne : ks[j] ≠ k := fun he =>
      absurd (h.getElem_inj_iff.1 (he.trans hk.symm)) (Nat.ne_of_lt hj)
    simpa using hne

end Pairs

/-! ## One object -/

/-- What holds between two operations: the keys are different, and the index, unless it is empty,
    says where they are; it is empty up to the threshold only. -/
structure Bien (d : Dict) : Prop where
  nodup : d.claves.Nodup
  exacto : d.idx ≠ [] → ∀ k, d.idx.lookup k = d.claves.findIdx? (· == k)
  umbral : d.idx = [] → d.size ≤ Dict.kUmbral

namespace Bien

variable {d : Dict} {k : String} {i : ℕ} {x : Value}

/-- **`find` is the search through the vector**, with the index as without it. -/
theorem find_eq (h : Bien d) (k : String) : d.find k = d.claves.findIdx? (· == k) := by
  unfold Dict.find
  by_cases hidx : d.idx = []
  · rw [if_pos hidx, Dict.claves, List.findIdx?_map]
    rfl
  · rw [if_neg hidx, h.exacto hidx]

/-- The value of a key is what the iterator to it reads. -/
theorem lookup_eq (h : Bien d) (k : String) : d.v.lookup k = (d.find k).map d.valor := by
  rw [h.find_eq, lookup_eq_findIdx]
  cases hf : d.claves.findIdx? (· == k) with
  | none =>
    rw [show (d.v.map Prod.fst).findIdx? (· == k) = none from hf]
    rfl
  | some i =>
    have hi : i < d.v.length := by
      obtain ⟨hi, -⟩ := List.findIdx?_eq_some_iff_getElem.1 hf
      simpa [Dict.claves] using hi
    rw [show (d.v.map Prod.fst).findIdx? (· == k) = some i from hf]
    simp [Dict.valor, hi]

theorem isSome_lookup (h : Bien d) (k : String) : (d.v.lookup k).isSome = (d.find k).isSome := by
  rw [h.lookup_eq, Option.isSome_map]

theorem vacio : Bien {} := by
  refine ⟨List.nodup_nil, fun h => absurd rfl h, fun _ => Nat.zero_le _⟩

/-- What does not change the keys. -/
theorem of_claves {d' : Dict} (h : Bien d) (hk : d'.claves = d.claves) (hi : d'.idx = d.idx) :
    Bien d' := by
  have hsize : d'.size = d.size := by
    simpa [Dict.claves, Dict.size] using congrArg List.length hk
  refine ⟨hk ▸ h.nodup, fun hne k => ?_, fun he => ?_⟩
  · rw [hi, hk]
    exact h.exacto (hi ▸ hne) k
  · rw [hsize]
    exact h.umbral (hi ▸ he)

theorem asignar (h : Bien d) (i : ℕ) (x : Value) : Bien (d.asignar i x) := by
  refine h.of_claves ?_ rfl
  apply List.ext_getElem?
  intro j
  simp only [Dict.claves, Dict.asignar, List.getElem?_map, List.getElem?_modify]
  by_cases hj : i = j
  · simp only [if_pos hj, Option.map_eq_map, Option.map_map]
    rfl
  · simp only [if_neg hj, Option.map_eq_map, Option.map_map]
    rfl

theorem recorrer (h : Bien d) (f : String → Value → Value) : Bien (d.recorrer f) := by
  refine h.of_claves ?_ rfl
  simp [Dict.claves, Dict.recorrer]

/-- **A new key** comes at the end, in the index as well if there is one; the index is built when
    the vector grows past the threshold. -/
theorem anadir (h : Bien d) (hk : d.find k = none) : Bien (d.anadir k) := by
  rw [h.find_eq] at hk
  have hmem : k ∉ d.claves := by
    intro hm
    have hne := List.findIdx?_eq_none_iff.1 hk k hm
    simp at hne
  have hnodup : (d.claves ++ [k]).Nodup := by
    rw [List.nodup_append]
    refine ⟨h.nodup, List.nodup_singleton k, fun a ha b hb hab => hmem ?_⟩
    rwa [← List.mem_singleton.1 hb, ← hab]
  have hclaves (m : Idx) : Dict.claves ⟨d.v ++ [(k, .null)], m⟩ = d.claves ++ [k] := by
    rw [Dict.claves, List.map_append]
    rfl
  have hlen : d.claves.length = d.v.length := List.length_map ..
  have hfind (k' : String) : (d.claves ++ [k]).findIdx? (· == k') =
      (d.claves.findIdx? (· == k')).or (if k = k' then some d.v.length else none) := by
    rw [List.findIdx?_append, List.findIdx?_singleton, hlen]
    by_cases hkk : k = k'
    · simp [hkk]
    · simp [hkk]
  unfold Dict.anadir
  dsimp only
  by_cases hidx : d.idx = []
  · rw [if_neg (not_not.2 hidx)]
    by_cases hlarge : Dict.kUmbral < (d.v ++ [(k, Value.null)]).length
    · rw [if_pos hlarge]
      -- the index has all keys, as an index that is built from nothing
      have hexacto (k' : String) : (Dict.indexarDesde 0 [] (d.claves ++ [k])).lookup k' =
          (d.claves ++ [k]).findIdx? (· == k') := by
        rw [lookup_indexarDesde, List.lookup_nil, Option.none_or]
        exact Option.map_id'
      unfold Dict.indexar
      rw [hclaves]
      refine ⟨?_, fun _ k' => ?_, fun he => ?_⟩
      · rw [hclaves]
        exact hnodup
      · rw [hclaves]
        exact hexacto k'
      · have hnone := hexacto k
        dsimp only at he
        rw [he, hfind, if_pos rfl, hk] at hnone
        cases hnone
    · rw [if_neg hlarge]
      refine ⟨hclaves _ ▸ hnodup, fun hne => absurd hidx hne, fun _ => Nat.le_of_not_lt hlarge⟩
  · rw [if_pos hidx]
    refine ⟨hclaves _ ▸ hnodup, fun _ k' => ?_, fun he => ?_⟩
    · rw [hclaves, hfind, lookup_emplace, h.exacto hidx, List.length_append]
      rfl
    · unfold emplace at he
      split at he
      · exact absurd he hidx
      · cases he

theorem acceder (h : Bien d) (k : String) : Bien (d.acceder k).2 := by
  unfold Dict.acceder
  cases hk : d.find k with
  | some i => exact h
  | none => exact h.anadir hk

/-- The vector after `operator[]`. -/
theorem v_acceder (h : Bien d) (k : String) : (d.acceder k).2.v = conClave k d.v := by
  unfold conClave
  rw [h.isSome_lookup]
  unfold Dict.acceder
  cases hk : d.find k with
  | some i => rfl
  | none =>
    unfold Dict.anadir
    dsimp only
    split
    · rfl
    · split <;> rfl

/-- The reference is to the key. -/
theorem find_acceder (h : Bien d) (k : String) :
    (d.acceder k).2.claves.findIdx? (· == k) = some (d.acceder k).1 := by
  have hd := h.v_acceder k
  have hfind := h.find_eq k
  unfold conClave at hd
  rw [h.isSome_lookup] at hd
  unfold Dict.claves
  rw [hd]
  cases hk : d.find k with
  | some i =>
    have hi : (d.acceder k).1 = i := by
      rw [Dict.acceder, hk]
    rw [hi, Option.isSome_some, if_pos rfl]
    exact hfind.symm.trans hk
  | none =>
    have hi : (d.acceder k).1 = d.v.length := by
      rw [Dict.acceder, hk]
    have hnone : (d.v.map Prod.fst).findIdx? (· == k) = none := hfind.symm.trans hk
    rw [hi, Option.isSome_none, if_neg Bool.false_ne_true, List.map_append, List.findIdx?_append,
      hnone]
    simp

end Bien

/-! ## Several objects -/

/-- The lists of the objects. -/
def Objetos.listas (s : Objetos) : Listas := fun o => (s o).v

/-- All objects are as they should be. -/
def Bienes (s : Objetos) : Prop := ∀ o, Bien (s o)

section Objects

variable {s : Objetos}

theorem listas_update (s : Objetos) (o : ℕ) (d : Dict) :
    Objetos.listas (Function.update s o d) = Function.update s.listas o d.v := by
  funext o'
  unfold Objetos.listas
  by_cases ho : o' = o
  · subst ho
    rw [Function.update_self, Function.update_self]
  · rw [Function.update_of_ne ho, Function.update_of_ne ho]

theorem Bienes.update {d : Dict} (hs : Bienes s) (hd : Bien d) (o : ℕ) :
    Bienes (Function.update s o d) := by
  intro o'
  by_cases ho : o' = o
  · subst ho
    rw [Function.update_self]
    exact hd
  · rw [Function.update_of_ne ho]
    exact hs o'

/-- The list of an object after an assignment through a reference to a key. -/
theorem v_asignar {d : Dict} {k : String} {i : ℕ} (x : Value)
    (h : d.claves.findIdx? (· == k) = some i) : (d.asignar i x).v = setKey k x d.v :=
  (setKey_of_some x h).symm

theorem setKey_conClave (k : String) (x : Value) (l : Odio.Dict) :
    setKey k x (conClave k l) = setKey k x l := by
  unfold conClave
  by_cases hk : (l.lookup k).isSome
  · rw [if_pos hk]
  · rw [if_neg hk]
    induction l with
    | nil => simp [setKey]
    | cons p l ih =>
      obtain ⟨k', x'⟩ := p
      rw [List.lookup_cons] at hk
      by_cases hkk : k' = k
      · subst hkk
        simp at hk
      · rw [beq_eq_false_iff_ne.2 (Ne.symm hkk)] at hk
        rw [List.cons_append, setKey, if_neg hkk, ih hk, setKey, if_neg hkk]

/-- The value of a reference. -/
theorem valor_acceder {d : Dict} (h : Bien d) (k : String) :
    (d.acceder k).2.valor (d.acceder k).1 = valueAt k d.v := by
  have hd := h.acceder k
  have hfind : (d.acceder k).2.find k = some (d.acceder k).1 := by
    rw [hd.find_eq, h.find_acceder]
  have hlookup := hd.lookup_eq k
  rw [hfind, Option.map_some, h.v_acceder] at hlookup
  unfold valueAt
  unfold conClave at hlookup
  by_cases hk : (d.v.lookup k).isSome
  · rw [if_pos hk] at hlookup
    rw [hlookup]
    rfl
  · rw [if_neg hk, List.lookup_append, Option.not_isSome_iff_eq_none.1 hk, Option.none_or,
      List.lookup_cons_self] at hlookup
    rw [Option.not_isSome_iff_eq_none.1 hk]
    exact (Option.some.inj hlookup).symm

/-- **One operation** does to the objects what it does to their lists. -/
theorem aplicar_enLista (hs : Bienes s) (op : Op) :
    Bienes (op.aplicar s).2 ∧ (op.aplicar s).1 = (op.enLista s.listas).1 ∧
      (op.aplicar s).2.listas = (op.enLista s.listas).2 := by
  have hsame (o : ℕ) : Function.update s.listas o (s o).v = s.listas := Function.update_eq_self ..
  cases op with
  | leer o k =>
    refine ⟨hs.update ((hs o).acceder k) o, ?_, ?_⟩
    · exact congrArg Obs.valor (valor_acceder (hs o) k)
    · exact (listas_update ..).trans (congrArg _ ((hs o).v_acceder k))
  | escribir o k x =>
    have hv : (((s o).acceder k).2.asignar ((s o).acceder k).1 x).v = setKey k x (s o).v := by
      rw [v_asignar x ((hs o).find_acceder k), (hs o).v_acceder, setKey_conClave]
    refine ⟨hs.update (((hs o).acceder k).asignar _ x) o, rfl, ?_⟩
    exact (listas_update ..).trans (congrArg _ hv)
  | buscar o k =>
    refine ⟨hs, congrArg Obs.quiza ((hs o).lookup_eq k).symm, rfl⟩
  | buscarYAsignar o k x =>
    have hsome := (hs o).isSome_lookup k
    unfold Op.aplicar Op.enLista
    dsimp only
    cases hk : (s o).find k with
    | none =>
      rw [hk, Option.isSome_none] at hsome
      refine ⟨hs, rfl, ?_⟩
      rw [show ((s.listas o).lookup k).isSome = false from hsome, if_neg Bool.false_ne_true]
    | some i =>
      rw [hk, Option.isSome_some] at hsome
      refine ⟨hs.update ((hs o).asignar i x) o, rfl, ?_⟩
      rw [show ((s.listas o).lookup k).isSome = true from hsome, if_pos rfl, listas_update,
        v_asignar x ((hs o).find_eq k ▸ hk)]
      rfl
  | count o k =>
    refine ⟨hs, congrArg Obs.num ?_, rfl⟩
    rw [Dict.count, show (s.listas o).lookup k = _ from (hs o).lookup_eq k]
    cases (s o).find k <;> rfl
  | size o => exact ⟨hs, rfl, rfl⟩
  | empty o => exact ⟨hs, rfl, rfl⟩
  | clear o => exact ⟨hs.update .vacio o, rfl, listas_update ..⟩
  | reservar o n =>
    refine ⟨hs.update (hs o) o, rfl, ?_⟩
    exact (listas_update ..).trans (hsame o)
  | pares o => exact ⟨hs, rfl, rfl⟩
  | recorrer o f => exact ⟨hs.update ((hs o).recorrer f) o, rfl, listas_update ..⟩
  | copiar o desde => exact ⟨hs.update (hs desde) o, rfl, listas_update ..⟩
  | mover o desde h =>
    refine ⟨(hs.update (hs desde) o).update .vacio desde, rfl, ?_⟩
    rw [Op.aplicar, listas_update, listas_update]
    rfl

/-- A sequence of operations does to the objects what it does to their lists. -/
theorem correr_bienes (ops : List Op) (hs : Bienes s) :
    Bienes (correr (fun s op => op.aplicar s) ops s).2 ∧
      (correr (fun s op => op.aplicar s) ops s).1 =
        (correr (fun s op => op.enLista s) ops s.listas).1 ∧
      (correr (fun s op => op.aplicar s) ops s).2.listas =
        (correr (fun s op => op.enLista s) ops s.listas).2 := by
  induction ops generalizing s with
  | nil => exact ⟨hs, rfl, rfl⟩
  | cons op ops ih =>
    obtain ⟨hs', hobs, hlistas⟩ := aplicar_enLista hs op
    obtain ⟨hbien, hobs', hlistas'⟩ := ih hs'
    rw [hlistas] at hobs' hlistas'
    refine ⟨hbien, ?_, hlistas'⟩
    exact congrArg₂ List.cons hobs hobs'

/-- **A `Dict` is a list of pairs.**  Any sequence of operations on any number of objects gives
    what it gives on lists of pairs, and leaves those lists.  Their keys are different; the index
    of an object is exact unless it is empty, which it is up to the threshold only. -/
theorem correr_enLista (ops : List Op) :
    (correr (fun s op => op.aplicar s) ops fun _ => {}).1 =
        (correr (fun s op => op.enLista s) ops fun _ => []).1 ∧
      ∀ o, ∃ d, (correr (fun s op => op.aplicar s) ops fun _ => {}).2 o = d ∧
        d.v = (correr (fun s op => op.enLista s) ops fun _ => []).2 o ∧ d.claves.Nodup ∧
        (d.idx ≠ [] → ∀ k i, d.idx.lookup k = some i ↔ d.claves[i]? = some k) ∧
        (d.idx = [] → d.size ≤ 16) := by
  obtain ⟨hbien, hobs, hlistas⟩ := correr_bienes ops fun _ => .vacio
  refine ⟨hobs, fun o => ⟨_, rfl, congrFun hlistas o, (hbien o).nodup, ?_, (hbien o).umbral⟩⟩
  intro hidx k i
  rw [(hbien o).exacto hidx, findIdx_eq_some_iff (hbien o).nodup]

end Objects

end Osodio.Odio.Indexed
