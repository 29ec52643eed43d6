import Osodio.Odio.Value

/-!
# Boxes and what a value shows

A value shows the tree of scalars that is behind its boxes.  It shows the same as
long as none of the boxes that it reaches is written.

## Main definitions

- `Reaches` — the boxes behind a value
- `Value.view` — what a value shows, down to a depth
- `Value.In`, `Closed` — no address dangles
- `Changes` — new boxes, and at most one that is written

## Main results

- `Changes.view_eq` — a value that does not reach the written box shows the same
-/

namespace Osodio.Odio

/-- The address of the box of a value. -/
def Value.box : Value → Option ℕ
  | .list addr | .dict addr => some addr
  | _ => none

/-- The values in a box. -/
def Obj.values : Obj → List Value
  | .list items => items
  | .dict pairs => pairs.map Prod.snd

/-- The box at an address is behind a value. -/
inductive Reaches (heap : Heap) : Value → ℕ → Prop
  | own {v : Value} {addr : ℕ} : v.box = some addr → Reaches heap v addr
  | through {v w : Value} {addr addr' : ℕ} {o : Obj} : v.box = some addr →
      heap[addr]? = some o → w ∈ o.values → Reaches heap w addr' → Reaches heap v addr'

/-- What a value shows. -/
inductive View where
  /-- Below the depth. -/
  | cut
  | scalar (v : Value)
  | list (items : List View)
  | dict (pairs : List (String × View))

/-- What a value shows, down to a depth. -/
def Value.view (heap : Heap) : ℕ → Value → View
  | 0, _ => .cut
  | n + 1, .list addr => .list ((listAt heap addr).map (view heap n))
  | n + 1, .dict addr => .dict ((dictAt heap addr).map fun p => (p.1, view heap n p.2))
  | _ + 1, v => .scalar v

/-- The box of the value exists. -/
def Value.In (heap : Heap) (v : Value) : Prop := ∀ addr, v.box = some addr → addr < heap.length

instance (heap : Heap) (v : Value) : Decidable (v.In heap) :=
  decidable_of_iff (v.box.all (· < heap.length)) (by simp [Option.all_eq_true, Value.In])

/-- The boxes of all values in boxes exist. -/
def Closed (heap : Heap) : Prop := ∀ o ∈ heap, ∀ v ∈ o.values, v.In heap

/-- New boxes, and no change in the others but for the one at `target`. -/
structure Changes (target : Option ℕ) (heap heap' : Heap) : Prop where
  grows : heap.length ≤ heap'.length
  same : ∀ addr < heap.length, target ≠ some addr → heap'[addr]? = heap[addr]?

/-! ## Values and their boxes -/

section Values

variable {heap heap' : Heap}

@[simp] theorem Value.in_null : Value.null.In heap := nofun
@[simp] theorem Value.in_bool (b : Bool) : (Value.bool b).In heap := nofun
@[simp] theorem Value.in_int (i : Int64) : (Value.int i).In heap := nofun
@[simp] theorem Value.in_float (d : Float) : (Value.float d).In heap := nofun
@[simp] theorem Value.in_str (s : String) : (Value.str s).In heap := nofun

theorem Value.In.mono {v : Value} (h : v.In heap) (hle : heap.length ≤ heap'.length) :
    v.In heap' :=
  fun addr ha => Nat.lt_of_lt_of_le (h addr ha) hle

theorem in_listAt (hc : Closed heap) {addr : ℕ} {v : Value} (hv : v ∈ listAt heap addr) :
    v.In heap := by
  unfold listAt at hv
  split at hv
  · rename_i items h
    exact hc _ (List.mem_of_getElem? h) v hv
  · cases hv

theorem in_dictAt (hc : Closed heap) {addr : ℕ} {p : String × Value}
    (hp : p ∈ dictAt heap addr) : p.2.In heap := by
  unfold dictAt at hp
  split at hp
  · rename_i pairs h
    exact hc _ (List.mem_of_getElem? h) p.2 (List.mem_map_of_mem hp)
  · cases hp

theorem mem_setKey {k : String} {v : Value} {d : Dict} {p : String × Value}
    (hp : p ∈ setKey k v d) : p = (k, v) ∨ p ∈ d := by
  induction d with
  | nil => exact .inl (List.mem_singleton.1 hp)
  | cons q d ih =>
    obtain ⟨k', v'⟩ := q
    unfold setKey at hp
    split at hp
    · exact (List.mem_cons.1 hp).imp_right (List.mem_cons_of_mem _)
    · rcases List.mem_cons.1 hp with rfl | hp
      · exact .inr (by simp)
      · exact (ih hp).imp_right (List.mem_cons_of_mem _)

theorem in_valueAt {d : Dict} (hd : ∀ p ∈ d, p.2.In heap) (k : String) :
    (valueAt k d).In heap := by
  unfold valueAt
  cases h : d.lookup k with
  | none => simp
  | some v =>
    obtain ⟨l₁, l₂, rfl, -⟩ := List.lookup_eq_some_iff.1 h
    exact hd (k, v) (by simp)

/-- What a value reaches exists. -/
theorem Reaches.lt (hc : Closed heap) {v : Value} {addr : ℕ} (h : Reaches heap v addr)
    (hv : v.In heap) : addr < heap.length := by
  induction h with
  | own h => exact hv _ h
  | through _ ho hw _ ih => exact ih (hc _ (List.mem_of_getElem? ho) _ hw)

/-- A value shows the same if the boxes that it reaches are the same. -/
theorem view_congr {v : Value} (h : ∀ addr, Reaches heap v addr → heap'[addr]? = heap[addr]?)
    (n : ℕ) : v.view heap' n = v.view heap n := by
  induction n generalizing v with
  | zero => rfl
  | succ n ih =>
    cases v with
    | list addr =>
      have hl : listAt heap' addr = listAt heap addr := by
        rw [listAt, listAt, h addr (.own rfl)]
      refine congrArg View.list ?_
      rw [hl]
      refine List.map_congr_left fun w hw => ih fun addr' hr => h addr' ?_
      unfold listAt at hw
      split at hw
      · exact .through rfl ‹_› hw hr
      · cases hw
    | dict addr =>
      have hd : dictAt heap' addr = dictAt heap addr := by
        rw [dictAt, dictAt, h addr (.own rfl)]
      refine congrArg View.dict ?_
      rw [hd]
      refine List.map_congr_left fun p hp => congrArg (Prod.mk p.1) (ih fun addr' hr => h addr' ?_)
      unfold dictAt at hp
      split at hp
      · exact .through rfl ‹_› (List.mem_map_of_mem hp) hr
      · cases hp
    | _ => rfl

end Values

/-! ## Changes -/

section Changes

variable {heap heap' : Heap} {target : Option ℕ}

theorem Changes.refl (target : Option ℕ) (heap : Heap) : Changes target heap heap :=
  ⟨Nat.le_refl _, fun _ _ _ => rfl⟩

/-- New boxes. -/
theorem Changes.append (target : Option ℕ) (heap boxes : Heap) :
    Changes target heap (heap ++ boxes) where
  grows := by simp
  same addr h _ := List.getElem?_append_left h

/-- A box that is written. -/
theorem Changes.set (heap : Heap) (addr : ℕ) (o : Obj) :
    Changes (some addr) heap (heap.set addr o) where
  grows := by simp
  same addr' _ hne := List.getElem?_set_ne fun h => hne (congrArg some h)

/-- A value that does not reach the box that is written shows the same. -/
theorem Changes.view_eq (h : Changes target heap heap') (hc : Closed heap) {v : Value}
    (hv : v.In heap) (hr : ∀ addr, target = some addr → ¬ Reaches heap v addr) (n : ℕ) :
    v.view heap' n = v.view heap n :=
  view_congr (fun addr ha => h.same addr (ha.lt hc hv) fun ht => hr addr ht ha) n

theorem Closed.append {boxes : Heap} (hc : Closed heap)
    (hb : ∀ o ∈ boxes, ∀ v ∈ o.values, v.In (heap ++ boxes)) : Closed (heap ++ boxes) := by
  intro o ho v hv
  rcases List.mem_append.1 ho with ho | ho
  · exact (hc o ho v hv).mono (by simp)
  · exact hb o ho v hv

theorem Closed.set (hc : Closed heap) {addr : ℕ} {o : Obj} (ho : ∀ v ∈ o.values, v.In heap) :
    Closed (heap.set addr o) := by
  intro o' ho' v hv
  have hin : v.In heap := by
    rcases List.mem_or_eq_of_mem_set ho' with h | rfl
    · exact hc o' h v hv
    · exact ho v hv
  exact hin.mono (by simp)

end Changes

end Osodio.Odio
