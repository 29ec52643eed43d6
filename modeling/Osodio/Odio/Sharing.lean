import Osodio.Odio.State

/-!
# What the store shows

`state.get` hands out the box that is in the store, and `state.set` puts in the box
that it is given.  So what the store shows changes without an operation of `state`
exactly by writing a box that a stored value reaches.

## Main definitions

- `Vm.target` — the box that the next instruction of a machine writes
- `Unshared` — a turn does not write a box that is behind a key of the store
- `Allocates` — natives that make boxes and write none

## Main results

- `tick_turned` — what one turn of a machine can do to the boxes and the calls
- `stored_view_eq` — without operations on a key, what it shows stays the same
-/

namespace Osodio.Odio

open Osodio.Lib

/-! ## Writing a box -/

/-- The box that `obj[idx] = v` writes. -/
def indexTarget (heap : Heap) : Value → Value → Option ℕ
  | .list addr, .int i =>
    match position (listAt heap addr) i with
    | .ok _ => some addr
    | .error _ => none
  | .dict addr, .str _ => some addr
  | _, _ => none

/-- The box that `obj.name = v` writes. -/
def memberTarget : Value → Option ℕ
  | .dict addr => some addr
  | _ => none

/-- The box that a method writes. -/
def methodTarget : Value → String → ℕ → Option ℕ
  | .list addr, "add", 1 => some addr
  | _, _, _ => none

/-- The box that a call writes. -/
def Call.box : Call → Option ℕ
  | .method receiver name args => methodTarget receiver name args.length
  | _ => none

/-- The box that an instruction writes. -/
def instrTarget (heap : Heap) (chunk : Chunk) (stack : List Value) (i : Instr) : Option ℕ :=
  match i.op with
  | .setIndex =>
    match stack with
    | _ :: idx :: obj :: _ => indexTarget heap obj idx
    | _ => none
  | .setMember =>
    match stack with
    | _ :: obj :: _ => memberTarget obj
    | _ => none
  | .callMethod =>
    match chunk.name (calleeOf i.operand), stack.drop (argcOf i.operand) with
    | .ok name, receiver :: _ => methodTarget receiver name (argcOf i.operand)
    | _, _ => none
  | _ => none

/-- The box that the next turn of a machine writes. -/
def Vm.target (vm : Vm) : Option ℕ :=
  match vm.status, vm.frames with
  | .running, f :: _ => f.chunk.code[f.pc]?.bind (instrTarget vm.world.heap f.chunk vm.stack)
  | _, _ => none

/-- The turn writes no box behind what the store holds under `key`. -/
def Unshared (key : String) (s : Server) : Turn → Prop
  | .tick i => ∀ vm, s.machines i = some vm → ∀ addr,
      Vm.target { vm with world := s.world } = some addr →
      ¬ Reaches s.world.heap ((storeOf s.world.history).get key) addr
  | _ => True

/-! ## Nothing dangles -/

/-- The values that go with a call. -/
def Call.values : Call → List Value
  | .native _ args | .await _ args => args
  | .method receiver _ args => receiver :: args
  | .render _ datos => [datos]

/-- The boxes of all values in boxes and in calls exist. -/
structure World.Fits (w : World) : Prop where
  closed : Closed w.heap
  history : ∀ e ∈ w.history, ∀ v ∈ e.call.values, v.In w.heap

/-- The boxes of all values of a machine exist. -/
structure Vm.Fits (vm : Vm) (heap : Heap) : Prop where
  stack : ∀ v ∈ vm.stack, v.In heap
  locals : ∀ v ∈ vm.locals, v.In heap
  frames : ∀ f ∈ vm.frames, f.chunk.Literal

/-- A value that was given, and the boxes after that. -/
structure Gives (target : Option ℕ) (heap : Heap) (v : Value) (heap' : Heap) : Prop where
  changes : Changes target heap heap'
  closed : Closed heap'
  value : v.In heap'

/-- Natives that make boxes and write none. -/
def Allocates (oracle : Oracle) : Prop :=
  ∀ w call, w.Fits → (∀ v ∈ call.values, v.In w.heap) →
    Gives none w.heap (oracle w call).value (oracle w call).heap

/-- What a turn can do: it makes boxes, writes at most the one at `target`, and
    makes calls. -/
structure Turned (target : Option ℕ) (vm vm' : Vm) : Prop where
  changes : Changes target vm.world.heap vm'.world.heap
  world : vm'.world.Fits
  fits : vm'.Fits vm'.world.heap
  calls : ∃ new, vm'.world.history = new ++ vm.world.history

/-! ## Operations on values -/

section Operations

variable {heap : Heap} {target : Option ℕ}

theorem Gives.same (hc : Closed heap) {v : Value} (hv : v.In heap) : Gives target heap v heap :=
  ⟨.refl target heap, hc, hv⟩

theorem Gives.newList (hc : Closed heap) {items : List Value} (h : ∀ v ∈ items, v.In heap) :
    Gives target heap (newList items heap).1 (newList items heap).2 where
  changes := .append target heap _
  closed := by
    refine hc.append fun o ho v hv => ?_
    obtain rfl := List.mem_singleton.1 ho
    exact (h v hv).mono (by simp)
  value addr ha := by
    cases ha
    simp [Osodio.Odio.newList]

theorem Gives.newDict (hc : Closed heap) {pairs : Dict} (h : ∀ p ∈ pairs, p.2.In heap) :
    Gives target heap (newDict pairs heap).1 (newDict pairs heap).2 where
  changes := .append target heap _
  closed := by
    refine hc.append fun o ho v hv => ?_
    obtain rfl := List.mem_singleton.1 ho
    obtain ⟨p, hp, rfl⟩ := List.mem_map.1 hv
    exact (h p hp).mono (by simp)
  value addr ha := by
    cases ha
    simp [Osodio.Odio.newDict]

/-- The operation writes at most the box at `target`. -/
def OpResult.Sound (target : Option ℕ) (heap : Heap) (r : OpResult) : Prop :=
  ∀ v heap', r = .ok (v, heap') → Gives target heap v heap'

theorem OpResult.Sound.error (message : String) : OpResult.Sound target heap (.error message) :=
  nofun

theorem OpResult.Sound.ok {v : Value} {heap' : Heap} (h : Gives target heap v heap') :
    OpResult.Sound target heap (.ok (v, heap')) := by
  intro _ _ he
  cases he
  exact h

/-- An operation that gives a scalar and leaves the boxes alone. -/
theorem OpResult.Sound.scalar (hc : Closed heap) {v : Value} (hv : v.box = none) :
    OpResult.Sound target heap (.ok (v, heap)) :=
  .ok (.same hc fun addr ha => by simp [hv] at ha)

theorem addValues_sound (hc : Closed heap) (a b : Value) :
    (addValues heap a b).Sound target heap := by
  unfold addValues
  split
  · exact .scalar hc rfl
  · exact .error _
  · exact .error _
  · exact .scalar hc rfl
  · refine .ok (.newList hc fun v hv => ?_)
    rcases List.mem_append.1 hv with hv | hv <;> exact in_listAt hc hv
  · split
    · exact .scalar hc rfl
    · exact .error _

theorem arithmetic_sound (hc : Closed heap) (op : Arith) (a b : Value) :
    (arithmetic op heap a b).Sound target heap := by
  unfold arithmetic
  split
  · exact .error _
  · split <;> (try split) <;> (try split) <;>
      first | exact .error _ | exact .scalar hc rfl

theorem compareValues_sound (hc : Closed heap) (op : Cmp) (a b : Value) :
    (compareValues op heap a b).Sound target heap := by
  unfold compareValues
  split
  · exact .scalar hc rfl
  · exact .error _

theorem genericoArit_sound (hc : Closed heap) (op : Op) (a b : Value) :
    (Vm.genericoArit op heap a b).Sound target heap := by
  obtain ⟨op', h⟩ : ∃ op', Vm.genericoArit op = arithmetic op' := by
    unfold Vm.genericoArit
    split <;> exact ⟨_, rfl⟩
  rw [h]
  exact arithmetic_sound hc op' a b

theorem genericoCmp_sound (hc : Closed heap) (op : Op) (a b : Value) :
    (Vm.genericoCmp op heap a b).Sound target heap := by
  obtain ⟨op', h⟩ : ∃ op', Vm.genericoCmp op = compareValues op' := by
    unfold Vm.genericoCmp
    split <;> exact ⟨_, rfl⟩
  rw [h]
  exact compareValues_sound hc op' a b

theorem especializada_sound (hc : Closed heap) (op : Op) (a b : Value) :
    (Vm.especializada op heap a b).Sound target heap := by
  unfold Vm.especializada
  split
  · split <;> exact .scalar hc rfl
  · split
    · exact addValues_sound hc a b
    · exact genericoArit_sound hc _ a b
    · exact genericoArit_sound hc _ a b
    · exact genericoCmp_sound hc _ a b

theorem negate_sound (hc : Closed heap) (a : Value) : (negate heap a).Sound target heap := by
  unfold negate
  split
  · exact .scalar hc rfl
  · exact .scalar hc rfl
  · exact .error _

theorem getIndex_sound (hc : Closed heap) (a b : Value) :
    (getIndex heap a b).Sound target heap := by
  unfold getIndex
  split
  · rename_i addr i
    cases h : position (listAt heap addr) i with
    | error e => exact .error e
    | ok k =>
      refine .ok (.same hc ?_)
      rw [List.getD_eq_getElem?_getD]
      cases hk : (listAt heap addr)[k]? with
      | none => simp
      | some v => exact in_listAt hc (List.mem_of_getElem? hk)
  · exact .error _
  · exact .ok (.same hc (in_valueAt (fun _ hp => in_dictAt hc hp) _))
  · exact .error _
  · exact .error _

theorem getMember_sound (hc : Closed heap) (name : String) (a : Value) :
    (getMember name heap a).Sound target heap := by
  unfold getMember
  split
  · exact .ok (.same hc (in_valueAt (fun _ hp => in_dictAt hc hp) _))
  · exact .error _

theorem Gives.set (hc : Closed heap) {addr : ℕ} {o : Obj} {v : Value}
    (ho : ∀ w ∈ o.values, w.In heap) (hv : v.In heap) :
    Gives (some addr) heap v (heap.set addr o) :=
  ⟨.set heap addr o, hc.set ho, hv.mono (by simp)⟩

theorem in_setKey (hc : Closed heap) {addr : ℕ} {k : String} {v : Value} (hv : v.In heap) :
    ∀ w ∈ (Obj.dict (setKey k v (dictAt heap addr))).values, w.In heap := by
  intro w hw
  obtain ⟨p, hp, rfl⟩ := List.mem_map.1 hw
  rcases mem_setKey hp with rfl | hp
  · exact hv
  · exact in_dictAt hc hp

theorem setIndex_sound (hc : Closed heap) (a b : Value) {v : Value} (hv : v.In heap) :
    (setIndex heap a b v).Sound (indexTarget heap a b) heap := by
  unfold setIndex
  split
  · rename_i addr i
    have ht : indexTarget heap (.list addr) (.int i) =
      match position (listAt heap addr) i with
      | .ok _ => some addr
      | .error _ => none := rfl
    rw [ht]
    cases position (listAt heap addr) i with
    | error e => exact .error e
    | ok k =>
      refine .ok (.set hc (fun w hw => ?_) hv)
      rcases List.mem_or_eq_of_mem_set hw with hw | rfl
      · exact in_listAt hc hw
      · exact hv
  · exact .error _
  · exact .ok (.set hc (in_setKey hc hv) hv)
  · exact .error _
  · exact .error _

theorem setMember_sound (hc : Closed heap) (name : String) (a : Value) {v : Value}
    (hv : v.In heap) : (setMember name heap a v).Sound (memberTarget a) heap := by
  unfold setMember
  split
  · exact .ok (.set hc (in_setKey hc hv) hv)
  · exact .error _

theorem iterList_sound (hc : Closed heap) {a : Value} (ha : a.In heap) :
    (iterList heap a).Sound target heap := by
  unfold iterList
  split
  · exact .ok (.same hc ha)
  · refine .ok (.newList hc fun v hv => ?_)
    obtain ⟨p, -, rfl⟩ := List.mem_map.1 hv
    simp
  · exact .error _

theorem pairsFrom_in {vs : List Value} (hvs : ∀ v ∈ vs, v.In heap) {d d' : Dict}
    (hd : ∀ p ∈ d, p.2.In heap) (h : pairsFrom d vs = .ok d') : ∀ p ∈ d', p.2.In heap := by
  fun_induction pairsFrom d vs with
  | case1 d k v rest ih =>
    refine ih (fun w hw => hvs w (by simp [hw])) (fun p hp => ?_) h
    rcases mem_setKey hp with rfl | hp
    · exact hvs v (by simp)
    · exact hd p hp
  | case2 => cases h
  | case3 =>
    cases h
    exact hd

theorem makeDict_sound (hc : Closed heap) {vs : List Value} (hvs : ∀ v ∈ vs, v.In heap) :
    (makeDict heap vs).Sound target heap := by
  unfold makeDict
  cases h : pairsFrom [] vs with
  | error e => exact .error e
  | ok d => exact .ok (.newDict hc (pairsFrom_in hvs (by simp) h))

end Operations

/-! ## The store -/

section Store

variable {heap : Heap} {s : SharedState}

/-- A native of `state` gives and keeps values that it was given. -/
def StateFn.Sound (f : StateFn) : Prop :=
  ∀ (heap : Heap) (s : SharedState) (args : List Value), (∀ p ∈ s, p.2.In heap) →
    (∀ v ∈ args, v.In heap) →
    (∀ p ∈ (f s args).2, p.2.In heap) ∧ ∀ v, (f s args).1 = .ok v → v.In heap

theorem SharedState.set_in (hs : ∀ p ∈ s, p.2.In heap) {key : String} {v : Value}
    (hv : v.In heap) : ∀ p ∈ s.set key v, p.2.In heap := by
  intro p hp
  rcases mem_setKey hp with rfl | hp
  · exact hv
  · exact hs p hp

theorem withKey_sound {name : String}
    {f : SharedState → String → List Value → Except String Value × SharedState}
    (hf : ∀ key, StateFn.Sound fun s rest => f s key rest) :
    StateFn.Sound fun s => withKey name (f s) s := by
  intro heap s args hs ha
  cases args with
  | nil => exact ⟨hs, nofun⟩
  | cons a rest =>
    cases a with
    | str key => exact hf key heap s rest hs fun v hv => ha v (List.mem_cons_of_mem _ hv)
    | _ => exact ⟨hs, nofun⟩

theorem ok_in {a : Value} (ha : a.In heap) (v : Value)
    (h : (Except.ok a : Except String Value) = .ok v) : v.In heap := by
  cases h
  exact ha

theorem fnStateIncr_sound : StateFn.Sound fnStateIncr :=
  withKey_sound fun key heap s rest hs _ => by
    dsimp only
    split
    · exact ⟨SharedState.set_in hs (by simp), ok_in (by simp)⟩
    · exact ⟨SharedState.set_in hs (by simp), ok_in (by simp)⟩
    · exact ⟨hs, nofun⟩

theorem fnStateDecr_sound : StateFn.Sound fnStateDecr :=
  withKey_sound fun key heap s rest hs _ =>
    ⟨SharedState.set_in hs (by simp), ok_in (by simp)⟩

theorem fnStateGet_sound : StateFn.Sound fnStateGet :=
  withKey_sound fun key heap s rest hs ha => by
    dsimp only
    split
    · exact ⟨hs, ok_in (ha _ (by simp))⟩
    · exact ⟨hs, ok_in (in_valueAt hs key)⟩

theorem fnStateSet_sound : StateFn.Sound fnStateSet :=
  withKey_sound fun key heap s rest hs ha => by
    have hv : (rest.headD .null).In heap := by
      cases rest with
      | nil => simp
      | cons v rest => exact ha v (by simp)
    exact ⟨SharedState.set_in hs hv, ok_in hv⟩

theorem fnStateRemove_sound : StateFn.Sound fnStateRemove :=
  withKey_sound fun key heap s rest hs _ =>
    ⟨fun p hp => hs p (List.mem_of_mem_filter hp), ok_in (by simp)⟩

theorem stateFns_sound {name : String} {f : StateFn} (h : stateFns.lookup name = some f) :
    StateFn.Sound f := by
  obtain ⟨l₁, l₂, hl, -⟩ := List.lookup_eq_some_iff.1 h
  have hm : (name, f) ∈ stateFns := by simp [hl]
  simp only [stateFns, List.mem_cons, List.not_mem_nil, or_false, Prod.mk.injEq] at hm
  rcases hm with ⟨-, rfl⟩ | ⟨-, rfl⟩ | ⟨-, rfl⟩ | ⟨-, rfl⟩ | ⟨-, rfl⟩
  · exact fnStateIncr_sound
  · exact fnStateDecr_sound
  · exact fnStateGet_sound
  · exact fnStateSet_sound
  · exact fnStateRemove_sound

/-- The store holds values that calls gave it. -/
theorem storeOf_in {history : List Event} (h : ∀ e ∈ history, ∀ v ∈ e.call.values, v.In heap) :
    ∀ p ∈ storeOf history, p.2.In heap := by
  induction history with
  | nil => simp [storeOf]
  | cons e history ih =>
    have ih := ih fun e' he' => h e' (List.mem_cons_of_mem e he')
    unfold storeOf storeAfter
    split
    · rename_i name args hcall
      cases hf : stateFns.lookup name with
      | none => exact ih
      | some f =>
        refine (stateFns_sound hf heap _ args ih fun v hv => h e (by simp) v ?_).1
        rw [hcall]
        exact hv
    · exact ih

theorem SharedState.get_set_ne {key key' : String} (hne : key' ≠ key) (v : Value) :
    (s.set key' v).get key = s.get key := by
  unfold get valueAt set
  congr 1
  induction s with
  | nil => simp [setKey, List.lookup_cons, beq_eq_false_iff_ne.2 hne.symm]
  | cons p s ih =>
    obtain ⟨k, w⟩ := p
    unfold setKey
    split
    · rename_i hk
      subst hk
      simp [List.lookup_cons, beq_eq_false_iff_ne.2 hne.symm]
    · simp only [List.lookup_cons, ih]

theorem SharedState.get_remove_ne {key key' : String} (hne : key' ≠ key) :
    (s.remove key').2.get key = s.get key := by
  unfold get valueAt remove
  congr 1
  induction s with
  | nil => rfl
  | cons p s ih =>
    obtain ⟨k, w⟩ := p
    by_cases hk : k = key'
    · subst hk
      simpa [List.lookup_cons, beq_eq_false_iff_ne.2 hne.symm] using ih
    · simp only [List.filter_cons, bne_iff_ne, ne_eq, hk, not_false_eq_true, if_true,
        List.lookup_cons]
      rw [ih]

/-- Without a key, no native of `state` changes the store. -/
theorem withKey_of_not_str {name : String}
    {f : String → List Value → Except String Value × SharedState} {args : List Value}
    (h : ∀ key rest, args ≠ .str key :: rest) : (withKey name f s args).2 = s := by
  unfold withKey
  split
  · rename_i key rest
    exact absurd rfl (h key rest)
  · rfl

theorem fnStateGet_store (args : List Value) : (fnStateGet s args).2 = s := by
  unfold fnStateGet withKey
  split
  · dsimp only
    split <;> rfl
  · rfl

/-- Every native of `state` is given its key, or leaves the store alone. -/
theorem stateFns_store {name : String} {f : StateFn} (h : (name, f) ∈ stateFns)
    {args : List Value} (ha : ∀ key rest, args ≠ .str key :: rest) : (f s args).2 = s := by
  simp only [stateFns, List.mem_cons, List.not_mem_nil, or_false, Prod.mk.injEq] at h
  rcases h with ⟨-, rfl⟩ | ⟨-, rfl⟩ | ⟨-, rfl⟩ | ⟨-, rfl⟩ | ⟨-, rfl⟩ <;>
    exact withKey_of_not_str ha

/-- A native of `state` leaves the other keys alone. -/
theorem stateFns_get {name : String} {f : StateFn} (h : (name, f) ∈ stateFns)
    {key key' : String} {rest : List Value}
    (hne : Call.changes (.native name (.str key' :: rest)) ≠ some key) :
    (f s (.str key' :: rest)).2.get key = s.get key := by
  simp only [stateFns, List.mem_cons, List.not_mem_nil, or_false, Prod.mk.injEq] at h
  rcases h with ⟨rfl, rfl⟩ | ⟨rfl, rfl⟩ | ⟨rfl, rfl⟩ | ⟨rfl, rfl⟩ | ⟨rfl, rfl⟩
  · have hkey : key' ≠ key := fun he => hne (congrArg some he)
    unfold fnStateIncr withKey
    dsimp only
    split
    · exact SharedState.get_set_ne hkey _
    · exact SharedState.get_set_ne hkey _
    · rfl
  · have hne : key' ≠ key := fun he => hne (congrArg some he)
    exact SharedState.get_set_ne hne _
  · rw [fnStateGet_store]
  · have hne : key' ≠ key := fun he => hne (congrArg some he)
    exact SharedState.get_set_ne hne _
  · have hne : key' ≠ key := fun he => hne (congrArg some he)
    exact SharedState.get_remove_ne hne

/-- A call that is no operation on `key` leaves its value alone. -/
theorem storeAfter_get {key : String} {call : Call} (h : call.changes ≠ some key) :
    (storeAfter s call).get key = s.get key := by
  unfold storeAfter
  split
  · rename_i name args
    cases hf : stateFns.lookup name with
    | none => rfl
    | some f =>
      obtain ⟨l₁, l₂, hl, -⟩ := List.lookup_eq_some_iff.1 hf
      have hm : (name, f) ∈ stateFns := by simp [hl]
      by_cases ha : ∃ key' rest, args = .str key' :: rest
      · obtain ⟨key', rest, rfl⟩ := ha
        exact stateFns_get hm h
      · have hs := stateFns_store (s := s) hm fun key' rest he => ha ⟨key', rest, he⟩
        exact congrArg (SharedState.get · key) hs
  · rfl

/-- Calls that are no operations on `key` leave its value alone. -/
theorem storeOf_get {key : String} {new history : List Event}
    (h : ∀ e ∈ new, e.call.changes ≠ some key) :
    (storeOf (new ++ history)).get key = (storeOf history).get key := by
  induction new with
  | nil => rfl
  | cons e new ih =>
    have he : (storeOf (e :: (new ++ history))).get key = (storeOf (new ++ history)).get key :=
      storeAfter_get (h e (by simp))
    exact he.trans (ih fun e' he' => h e' (List.mem_cons_of_mem e he'))

end Store

/-! ## Calls -/

section Calls

variable {w : World} {target : Option ℕ}

/-- What a call leaves: its result, and the boxes and the history after it. -/
structure Asked (target : Option ℕ) (w : World) (p : Except String Value × World) : Prop where
  changes : Changes target w.heap p.2.heap
  fits : p.2.Fits
  calls : ∃ new, p.2.history = new ++ w.history
  value : ∀ v, p.1 = .ok v → v.In p.2.heap

/-- A call that is answered without leaving the machine. -/
theorem Asked.same (hw : w.Fits) {r : Except String Value} (hr : ∀ v, r = .ok v → v.In w.heap) :
    Asked target w (r, w) :=
  ⟨.refl target w.heap, hw, ⟨[], rfl⟩, hr⟩

theorem ask_asked {oracle : Oracle} {call : Call} (hw : w.Fits)
    (hcall : ∀ v ∈ call.values, v.In w.heap)
    (hg : Gives target w.heap (oracle w call).value (oracle w call).heap) :
    Asked target w (oracle.ask w call) where
  changes := hg.changes
  fits := by
    refine ⟨hg.closed, fun e he v hv => ?_⟩
    rcases List.mem_cons.1 he with rfl | he
    · exact (hcall v hv).mono hg.changes.grows
    · exact (hw.history e he v hv).mono hg.changes.grows
  calls := ⟨[⟨call, w.heap⟩], rfl⟩
  value v h := by
    unfold Oracle.ask at h
    dsimp only at h
    split at h
    · cases h
    · cases h
      exact hg.value

theorem addTo_gives (hw : w.Fits) {addr : ℕ} {args : List Value}
    (hargs : ∀ v ∈ args, v.In w.heap) (haddr : (Value.list addr).In w.heap) :
    Gives (methodTarget (.list addr) "add" args.length) w.heap (addTo w.heap addr args).value
      (addTo w.heap addr args).heap := by
  unfold addTo
  split
  · rename_i v
    refine .set hw.closed (fun u hu => ?_) haddr
    rcases List.mem_append.1 hu with hu | hu
    · exact in_listAt hw.closed hu
    · exact hargs u hu
  · exact .same hw.closed (by simp)

theorem answerOf_gives (hw : w.Fits) {r : Except String Value}
    (hr : ∀ v, r = .ok v → v.In w.heap) :
    Gives target w.heap (answerOf w.heap r).value (answerOf w.heap r).heap := by
  cases r with
  | ok v => exact .same hw.closed (hr v rfl)
  | error message => exact .same hw.closed (by simp [answerOf])

theorem Gives.mono {heap heap' : Heap} {v : Value} (h : Gives none heap v heap') :
    Gives target heap v heap' :=
  ⟨⟨h.changes.grows, fun addr ha _ => h.changes.same addr ha nofun⟩, h.closed, h.value⟩

theorem oracle_gives {P : Project} {i : ℕ} (hP : Allocates (P.outside i)) (hw : w.Fits)
    {call : Call} (hcall : ∀ v ∈ call.values, v.In w.heap) :
    Gives call.box w.heap (P.oracle i w call).value (P.oracle i w call).heap := by
  unfold Project.oracle
  split
  · rename_i name args
    cases hf : stateFns.lookup name with
    | none => exact hP w _ hw hcall
    | some f =>
      exact answerOf_gives hw
        (stateFns_sound hf w.heap _ args (storeOf_in hw.history) hcall).2
  · rename_i addr args
    exact addTo_gives hw (fun v hv => hcall v (List.mem_cons_of_mem _ hv))
      (hcall (.list addr) (List.mem_cons_self ..))
  · exact (hP w _ hw hcall).mono

theorem lenOf_in {heap : Heap} (a : Value) (v : Value) (h : lenOf heap a = .ok v) :
    v.In heap := by
  unfold lenOf at h
  split at h <;> cases h <;> simp

theorem callNative_asked {P : Project} {i : ℕ} (hP : Allocates (P.outside i)) (hw : w.Fits)
    {id : ℕ} {args : List Value} (hargs : ∀ v ∈ args, v.In w.heap) :
    Asked none w (callNative (P.env i) w id args) := by
  unfold callNative
  split
  · exact .same hw (lenOf_in _)
  · split
    · unfold fnRenderTpl
      split
      · rename_i n rest
        split
        · rename_i p hp
          have hdatos : (rest.headD .null).In w.heap := by
            cases rest with
            | nil => simp
            | cons v rest => exact hargs v (by simp)
          have hcall : ∀ v ∈ (Call.render p.nombre (rest.headD .null)).values, v.In w.heap :=
            fun v hv => List.mem_singleton.1 hv ▸ hdatos
          exact ask_asked hw hcall (oracle_gives hP hw hcall)
        · exact .same hw nofun
      · exact .same hw nofun
    · have hcall : ∀ v ∈ (Call.native (nativeAt id).name args).values, v.In w.heap := hargs
      exact ask_asked hw hcall (oracle_gives hP hw hcall)

end Calls

/-! ## Turns of a machine -/

section Machine

variable {vm : Vm} {target : Option ℕ}

theorem World.Fits.with_heap {w : World} (hw : w.Fits) {heap' : Heap}
    (h : Changes target w.heap heap') (hc : Closed heap') :
    World.Fits { w with heap := heap' } :=
  ⟨hc, fun e he v hv => (hw.history e he v hv).mono h.grows⟩

theorem Vm.Fits.mono {heap heap' : Heap} (h : vm.Fits heap) (hle : heap.length ≤ heap'.length) :
    vm.Fits heap' :=
  ⟨fun v hv => (h.stack v hv).mono hle, fun v hv => (h.locals v hv).mono hle, h.frames⟩

/-- A turn that leaves the boxes and the calls alone. -/
theorem Turned.same (hw : vm.world.Fits) {vm' : Vm} (he : vm'.world = vm.world)
    (hf : vm'.Fits vm.world.heap) : Turned target vm vm' := by
  refine ⟨?_, ?_, ?_, [], ?_⟩ <;> rw [he]
  · exact .refl target vm.world.heap
  · exact hw
  · exact hf
  · rfl

theorem settle_turned (hw : vm.world.Fits) (hf : vm.Fits vm.world.heap) {st : List Value}
    (hst : ∀ v ∈ st, v.In vm.world.heap) {loc : SourceLoc} {r : OpResult}
    (hr : r.Sound target vm.world.heap) : Turned target vm (vm.settle st loc r) := by
  cases r with
  | error message => exact .same hw rfl ⟨hst, hf.locals, hf.frames⟩
  | ok p =>
    obtain ⟨v, heap'⟩ := p
    have hg := hr v heap' rfl
    refine ⟨hg.changes, hw.with_heap hg.changes hg.closed, ⟨?_, ?_, hf.frames⟩, [], rfl⟩
    · intro u hu
      rcases List.mem_cons.1 hu with rfl | hu
      · exact hg.value
      · exact (hst u hu).mono hg.changes.grows
    · exact (hf.mono hg.changes.grows).locals

theorem settleCall_turned (hf : vm.Fits vm.world.heap) {st : List Value}
    (hst : ∀ v ∈ st, v.In vm.world.heap) {loc : SourceLoc} {p : Except String Value × World}
    (hp : Asked target vm.world p) : Turned target vm (vm.settleCall st loc p) := by
  obtain ⟨r, w'⟩ := p
  have hst' : ∀ v ∈ st, v.In w'.heap := fun v hv => (hst v hv).mono hp.changes.grows
  have hf' := hf.mono hp.changes.grows
  cases r with
  | error message => exact ⟨hp.changes, hp.fits, ⟨hst', hf'.locals, hf.frames⟩, hp.calls⟩
  | ok v =>
    refine ⟨hp.changes, hp.fits, ⟨?_, hf'.locals, hf.frames⟩, hp.calls⟩
    intro u hu
    rcases List.mem_cons.1 hu with rfl | hu
    · exact hp.value u rfl
    · exact hst' u hu

theorem unary_turned (hw : vm.world.Fits) (hf : vm.Fits vm.world.heap) {loc : SourceLoc}
    {f : Heap → Value → OpResult} {vm' : Vm} (h : vm.unary loc f = .ok vm')
    (hs : ∀ a, a.In vm.world.heap → (f vm.world.heap a).Sound target vm.world.heap) :
    Turned target vm vm' := by
  have hst := hf.stack
  unfold Vm.unary at h
  split at h
  · rename_i a st heq
    cases h
    rw [heq] at hst
    exact settle_turned hw hf (fun v hv => hst v (by simp [hv])) (hs a (hst a (by simp)))
  · cases h

theorem binary_turned (hw : vm.world.Fits) (hf : vm.Fits vm.world.heap) {loc : SourceLoc}
    {f : Heap → Value → Value → OpResult} {vm' : Vm} (h : vm.binary loc f = .ok vm')
    (hs : ∀ a b st, vm.stack = b :: a :: st → b.In vm.world.heap →
      (f vm.world.heap a b).Sound target vm.world.heap) : Turned target vm vm' := by
  have hst := hf.stack
  unfold Vm.binary at h
  split at h
  · rename_i b a st heq
    cases h
    rw [heq] at hst
    exact settle_turned hw hf (fun v hv => hst v (by simp [hv])) (hs a b st heq (hst b (by simp)))
  · cases h

theorem ternary_turned (hw : vm.world.Fits) (hf : vm.Fits vm.world.heap) {loc : SourceLoc}
    {f : Heap → Value → Value → Value → OpResult} {vm' : Vm} (h : vm.ternary loc f = .ok vm')
    (hs : ∀ a b v st, vm.stack = v :: b :: a :: st → v.In vm.world.heap →
      (f vm.world.heap a b v).Sound target vm.world.heap) : Turned target vm vm' := by
  have hst := hf.stack
  unfold Vm.ternary at h
  split at h
  · rename_i v b a st heq
    cases h
    rw [heq] at hst
    exact settle_turned hw hf (fun u hu => hst u (by simp [hu]))
      (hs a b v st heq (hst v (by simp)))
  · cases h

theorem popArgs_in {heap : Heap} {n : ℕ} {stack args st : List Value}
    (hs : ∀ v ∈ stack, v.In heap) (h : popArgs n stack = .ok (args, st)) :
    (∀ v ∈ args, v.In heap) ∧ (∀ v ∈ st, v.In heap) ∧ args.length = n ∧ st = stack.drop n := by
  unfold popArgs at h
  split at h
  · rename_i hn
    cases h
    refine ⟨fun v hv => ?_, fun v hv => hs v (List.mem_of_mem_drop hv), by simp [hn], rfl⟩
    exact hs v (List.mem_of_mem_take (List.mem_reverse.1 hv))
  · cases h

theorem setPc_fits {heap : Heap} (hf : vm.Fits heap) (pc : ℕ) : (vm.setPc pc).Fits heap := by
  unfold Vm.setPc
  split
  · rename_i f rest heq
    refine ⟨hf.stack, hf.locals, fun g hg => ?_⟩
    rcases List.mem_cons.1 hg with rfl | hg
    · exact hf.frames f (by simp [heq])
    · exact hf.frames g (by simp [heq, hg])
  · exact hf

@[simp] theorem setPc_world (vm : Vm) (pc : ℕ) : (vm.setPc pc).world = vm.world := by
  unfold Vm.setPc
  split <;> rfl

theorem resizeStack_in {heap : Heap} {n : ℕ} {stack : List Value}
    (h : ∀ v ∈ stack, v.In heap) : ∀ v ∈ resizeStack n stack, v.In heap := by
  intro v hv
  rcases List.mem_append.1 hv with hv | hv
  · simp [List.eq_of_mem_replicate hv]
  · exact h v (List.mem_of_mem_drop hv)

theorem resizeLocals_in {heap : Heap} {n : ℕ} {locals : List Value}
    (h : ∀ v ∈ locals, v.In heap) : ∀ v ∈ resizeLocals n locals, v.In heap := by
  intro v hv
  rcases List.mem_append.1 hv with hv | hv
  · exact h v (List.mem_of_mem_take hv)
  · simp [List.eq_of_mem_replicate hv]

/-- `leave` leaves the boxes and the calls alone. -/
theorem leave_turned (hw : vm.world.Fits) (hf : vm.Fits vm.world.heap) {f : Frame}
    {rest : List Frame} (hrest : ∀ g ∈ rest, g.chunk.Literal) {v : Value}
    (hv : v.In vm.world.heap) : Turned target vm (vm.leave f rest v) := by
  unfold Vm.leave
  split
  · exact .same hw rfl ⟨hf.stack, hf.locals, by simp⟩
  · refine .same hw rfl ⟨fun u hu => ?_, resizeLocals_in hf.locals, hrest⟩
    rcases List.mem_cons.1 hu with rfl | hu
    · exact hv
    · exact resizeStack_in hf.stack u hu

theorem jump_turned (hw : vm.world.Fits) (hf : vm.Fits vm.world.heap) (f : Frame) (i : Instr) :
    Turned target vm (vm.jump f i) := by
  unfold Vm.jump
  split
  · split
    · exact .same hw rfl ⟨hf.stack, hf.locals, hf.frames⟩
    · refine .same hw (setPc_world _ _) (setPc_fits ?_ _)
      exact ⟨hf.stack, hf.locals, hf.frames⟩
  · exact .same hw (setPc_world _ _) (setPc_fits hf _)

theorem callFunction_turned {E : Env} (hE : ∀ c ∈ E.functions, c.Literal)
    (hw : vm.world.Fits) (hf : vm.Fits vm.world.heap) {i : Instr} {vm' : Vm}
    (h : vm.callFunction E i = .ok vm') : Turned target vm vm' := by
  unfold Vm.callFunction at h
  split at h
  · cases h
    exact .same hw rfl ⟨hf.stack, hf.locals, hf.frames⟩
  · rename_i callee hcallee
    split at h
    · cases h
      exact .same hw rfl ⟨hf.stack, hf.locals, hf.frames⟩
    · cases hp : popArgs (argcOf i.operand) vm.stack with
      | error e => simp [hp, bind, Except.bind] at h
      | ok p =>
        obtain ⟨args, st⟩ := p
        obtain ⟨hargs, hst, -, -⟩ := popArgs_in hf.stack hp
        simp only [hp, bind, Except.bind] at h
        split at h
        · cases h
        · cases h
          refine .same hw rfl ⟨hst, fun v hv => ?_, fun g hg => ?_⟩
          · rcases List.mem_append.1 hv with hv | hv
            · rcases List.mem_append.1 hv with hv | hv
              · exact hf.locals v hv
              · exact hargs v hv
            · simp [List.eq_of_mem_replicate hv]
          · rcases List.mem_cons.1 hg with rfl | hg
            · exact hE callee (List.mem_of_getElem? hcallee)
            · exact hf.frames g hg

/-- A conditional jump pops its condition, or leaves it. -/
theorem branch_turned (hw : vm.world.Fits) (hf : vm.Fits vm.world.heap) {st : List Value}
    (hst : ∀ v ∈ st, v.In vm.world.heap) (pc : ℕ) :
    Turned target vm { vm with stack := st } ∧
      Turned target vm (Vm.setPc { vm with stack := st } pc) := by
  have hf' : Vm.Fits { vm with stack := st } vm.world.heap := ⟨hst, hf.locals, hf.frames⟩
  exact ⟨.same hw rfl hf', .same hw (setPc_world _ _) (setPc_fits hf' pc)⟩

/-- **What an instruction can do**: it makes boxes and calls, and writes at most the
    box that is its target. -/
theorem exec_turned {P : Project} {n : ℕ} (hP : Allocates (P.outside n)) (hw : vm.world.Fits)
    (hf : vm.Fits vm.world.heap) {f : Frame} {rest : List Frame} (hfr : vm.frames = f :: rest)
    {i : Instr} {vm' : Vm} (h : vm.exec (P.env n) f rest i = .ok vm') :
    Turned (instrTarget vm.world.heap f.chunk vm.stack i) vm vm' := by
  have hc := hw.closed
  have hst := hf.stack
  have hlit : f.chunk.Literal := hf.frames f (by simp [hfr])
  have hrest : ∀ g ∈ rest, g.chunk.Literal := fun g hg => hf.frames g (by simp [hfr, hg])
  obtain ⟨op, k, loc⟩ := i
  unfold Vm.exec at h
  cases op with
  | const =>
    dsimp only at h
    split at h
    · rename_i v hv
      cases h
      refine .same hw rfl ⟨fun u hu => ?_, hf.locals, hf.frames⟩
      rcases List.mem_cons.1 hu with rfl | hu
      · intro addr ha
        rw [hlit u (List.mem_of_getElem? hv)] at ha
        cases ha
      · exact hst u hu
    · cases h
  | loadLocal =>
    dsimp only at h
    split at h
    · rename_i v hv
      cases h
      refine .same hw rfl ⟨fun u hu => ?_, hf.locals, hf.frames⟩
      rcases List.mem_cons.1 hu with rfl | hu
      · exact hf.locals u (List.mem_of_getElem? hv)
      · exact hst u hu
    · cases h
  | storeLocal =>
    dsimp only at h
    split at h
    · rename_i v st heq
      rw [heq] at hst
      split at h
      · cases h
        refine .same hw rfl ⟨fun u hu => hst u (by simp [hu]), fun u hu => ?_, hf.frames⟩
        rcases List.mem_or_eq_of_mem_set hu with hu | rfl
        · exact hf.locals u hu
        · exact hst u (by simp)
      · cases h
    · cases h
  | pop =>
    dsimp only at h
    split at h
    · rename_i v st heq
      rw [heq] at hst
      cases h
      exact (branch_turned hw hf (fun u hu => hst u (by simp [hu])) 0).1
    · cases h
  | add => exact binary_turned hw hf h fun a b _ _ _ => addValues_sound hc a b
  | sub | mul | div | mod =>
    exact binary_turned hw hf h fun a b _ _ _ => genericoArit_sound hc _ a b
  | neg => exact unary_turned hw hf h fun a _ => negate_sound hc a
  | eq | ne => exact binary_turned hw hf h fun a b _ _ _ => .scalar hc rfl
  | lt | le | gt | ge =>
    exact binary_turned hw hf h fun a b _ _ _ => genericoCmp_sound hc _ a b
  | not => exact unary_turned hw hf h fun a _ => .scalar hc rfl
  | addInt | subInt | mulInt | ltInt | leInt | gtInt | geInt =>
    exact binary_turned hw hf h fun a b _ _ _ => especializada_sound hc _ a b
  | jump =>
    cases h
    exact jump_turned hw hf f _
  | jumpIfFalse =>
    dsimp only at h
    split at h
    · rename_i v st heq
      rw [heq] at hst
      cases h
      split
      · exact (branch_turned hw hf (fun u hu => hst u (by simp [hu])) 0).1
      · exact (branch_turned hw hf (fun u hu => hst u (by simp [hu])) k).2
    · cases h
  | jumpIfFalsePeek =>
    dsimp only at h
    split at h
    · rename_i v st heq
      rw [heq] at hst
      cases h
      split
      · exact (branch_turned hw hf (fun u hu => hst u (by simp [hu])) 0).1
      · exact .same hw (setPc_world _ _) (setPc_fits hf _)
    · cases h
  | jumpIfTruePeek =>
    dsimp only at h
    split at h
    · rename_i v st heq
      rw [heq] at hst
      cases h
      split
      · exact .same hw (setPc_world _ _) (setPc_fits hf _)
      · exact (branch_turned hw hf (fun u hu => hst u (by simp [hu])) 0).1
    · cases h
  | makeList =>
    cases hp : popArgs k vm.stack with
    | error e => simp [hp, bind, Except.bind] at h
    | ok p =>
      obtain ⟨items, st⟩ := p
      obtain ⟨hitems, hst', -, -⟩ := popArgs_in hst hp
      simp only [hp, bind, Except.bind] at h
      cases h
      exact settle_turned hw hf hst' (.ok (.newList hc hitems))
  | makeDict =>
    cases hp : popArgs (k * 2) vm.stack with
    | error e => simp [hp, bind, Except.bind] at h
    | ok p =>
      obtain ⟨items, st⟩ := p
      obtain ⟨hitems, hst', -, -⟩ := popArgs_in hst hp
      simp only [hp, bind, Except.bind] at h
      cases h
      exact settle_turned hw hf hst' (makeDict_sound hc hitems)
  | getIndex => exact binary_turned hw hf h fun a b _ _ _ => getIndex_sound hc a b
  | setIndex =>
    refine ternary_turned hw hf h fun a b v st heq hv => ?_
    simp only [instrTarget, heq]
    exact setIndex_sound hc a b hv
  | iterList => exact unary_turned hw hf h fun a ha => iterList_sound hc ha
  | getMember =>
    cases hn : f.chunk.name k with
    | error e => simp [hn, bind, Except.bind] at h
    | ok name =>
      simp only [hn, bind, Except.bind] at h
      exact unary_turned hw hf h fun a _ => getMember_sound hc name a
  | setMember =>
    cases hn : f.chunk.name k with
    | error e => simp [hn, bind, Except.bind] at h
    | ok name =>
      simp only [hn, bind, Except.bind] at h
      refine binary_turned hw hf h fun a b st heq hv => ?_
      simp only [instrTarget, heq]
      exact setMember_sound hc name a hv
  | callFunction => exact callFunction_turned P.literal hw hf h
  | callMethod =>
    cases hp : popArgs (argcOf k) vm.stack with
    | error e => simp [hp, bind, Except.bind] at h
    | ok p =>
      obtain ⟨args, st⟩ := p
      obtain ⟨hargs, hst', hlen, hdrop⟩ := popArgs_in hst hp
      cases hn : f.chunk.name (calleeOf k) with
      | error e => simp [hp, hn, bind, Except.bind] at h
      | ok name =>
        simp only [hp, hn, bind, Except.bind] at h
        cases st with
        | nil => cases h
        | cons receiver st =>
          cases h
          have hcall : ∀ v ∈ (Call.method receiver name args).values, v.In vm.world.heap := by
            intro v hv
            rcases List.mem_cons.1 hv with rfl | hv
            · exact hst' v (by simp)
            · exact hargs v hv
          have ht : instrTarget vm.world.heap f.chunk vm.stack ⟨.callMethod, k, loc⟩ =
              (Call.method receiver name args).box := by
            simp only [instrTarget, hn, ← hdrop, Call.box, hlen]
          rw [ht]
          exact settleCall_turned hf (fun v hv => hst' v (by simp [hv]))
            (ask_asked hw hcall (oracle_gives hP hw hcall))
  | callNative =>
    cases hp : popArgs (argcOf k) vm.stack with
    | error e => simp [hp, bind, Except.bind] at h
    | ok p =>
      obtain ⟨args, st⟩ := p
      obtain ⟨hargs, hst', -, -⟩ := popArgs_in hst hp
      simp only [hp, bind, Except.bind] at h
      split at h
      · cases h
      · split at h
        · cases h
        · cases h
          exact settleCall_turned hf hst' (callNative_asked hP hw hargs)
  | callAsync =>
    cases hp : popArgs (argcOf k) vm.stack with
    | error e => simp [hp, bind, Except.bind] at h
    | ok p =>
      obtain ⟨args, st⟩ := p
      obtain ⟨-, hst', -, -⟩ := popArgs_in hst hp
      simp only [hp, bind, Except.bind] at h
      cases h
      exact .same hw rfl ⟨hst', hf.locals, hf.frames⟩
  | ret =>
    dsimp only at h
    split at h
    · rename_i v st heq
      rw [heq] at hst
      cases h
      have hf' : Vm.Fits { vm with stack := st } vm.world.heap :=
        ⟨fun u hu => hst u (by simp [hu]), hf.locals, hf.frames⟩
      have ht : Turned none { vm with stack := st } (Vm.leave { vm with stack := st } f rest v) := by
        refine leave_turned ?_ hf' hrest (hst v (by simp))
        exact hw
      exact ⟨ht.changes, ht.world, ht.fits, ht.calls⟩
    · cases h
  | retNull =>
    cases h
    exact leave_turned hw hf hrest (by simp)

theorem enterCatch_turned (hw : vm.world.Fits) (hf : vm.Fits vm.world.heap) {f : Frame}
    {rest : List Frame} (hfr : vm.frames = f :: rest) (h : TryRange) (message : String) :
    Turned target vm (vm.enterCatch f rest h message) := by
  have hg : Gives target vm.world.heap (errorValue message vm.world.heap).1
      (errorValue message vm.world.heap).2 :=
    .newDict hw.closed fun p hp => by
      obtain rfl := List.mem_singleton.1 hp
      simp
  refine ⟨hg.changes, hw.with_heap hg.changes hg.closed, ⟨?_, ?_, ?_⟩, [], rfl⟩
  · intro u hu
    rcases List.mem_cons.1 hu with rfl | hu
    · exact hg.value
    · exact (resizeStack_in hf.stack u hu).mono hg.changes.grows
  · exact (hf.mono hg.changes.grows).locals
  · intro g hg
    rcases List.mem_cons.1 hg with rfl | hg
    · exact hf.frames f (by simp [hfr])
    · exact hf.frames g (by simp [hfr, hg])

/-- **One turn** of a machine writes at most the box that is its target. -/
theorem tick_turned {P : Project} {n : ℕ} (hP : Allocates (P.outside n)) (hw : vm.world.Fits)
    (hf : vm.Fits vm.world.heap) {vm' : Vm} (h : vm.tick (P.env n) = .ok vm') :
    Turned vm.target vm vm' := by
  unfold Vm.tick at h
  split at h
  · rename_i hstatus
    split at h
    · cases h
      exact .same hw rfl ⟨hf.stack, hf.locals, hf.frames⟩
    · rename_i f rest hfr
      have hrest : ∀ g ∈ rest, g.chunk.Literal := fun g hg => hf.frames g (by simp [hfr, hg])
      have ht : vm.target =
          f.chunk.code[f.pc]?.bind (instrTarget vm.world.heap f.chunk vm.stack) := by
        simp only [Vm.target, hstatus, hfr]
      split at h
      · cases h
        exact leave_turned hw hf hrest (by simp)
      · rename_i i hi
        have hf' : Vm.Fits { vm with frames := { f with pc := f.pc + 1 } :: rest }
            vm.world.heap := by
          refine ⟨hf.stack, hf.locals, fun g hg => ?_⟩
          rcases List.mem_cons.1 hg with rfl | hg
          · exact hf.frames f (by simp [hfr])
          · exact hrest g hg
        rw [ht, hi]
        obtain ⟨hchanges, hworld, hfits, hcalls⟩ := exec_turned hP (by exact hw) hf' rfl h
        exact ⟨hchanges, hworld, hfits, hcalls⟩
  · split at h
    · cases h
      exact .same hw rfl ⟨hf.stack, hf.locals, hf.frames⟩
    · rename_i f rest hfr
      split at h
      · cases h
        exact enterCatch_turned hw hf hfr _ _
      · cases h
        refine .same hw rfl ⟨resizeStack_in hf.stack, resizeLocals_in hf.locals, fun g hg => ?_⟩
        refine hf.frames g ?_
        rw [hfr]
        exact List.mem_cons_of_mem f hg
  · cases h
    exact .same hw rfl hf

end Machine

/-! ## The server -/

section Server

variable {P : Project} {s t : Server} {key : String}

/-- The boxes of all values of a server exist. -/
structure Server.Fits (s : Server) : Prop where
  world : s.world.Fits
  machines : ∀ i vm, s.machines i = some vm → vm.Fits s.world.heap

theorem init_fits (P : Project) : (server P).init.Fits :=
  ⟨⟨nofun, nofun⟩, nofun⟩

/-- What a turn of the server can do. -/
structure Stepped (target : Option ℕ) (s t : Server) : Prop where
  fits : t.Fits
  changes : Changes target s.world.heap t.world.heap
  calls : ∃ new, t.world.history = new ++ s.world.history

theorem install_fits (hs : s.Fits) {i : ℕ} {vm : Vm} {w : World} (hw : w.Fits)
    (hle : s.world.heap.length ≤ w.heap.length) (hvm : vm.Fits w.heap) :
    (s.install i vm w).Fits := by
  refine ⟨hw, fun j vm' h => ?_⟩
  have h : Function.update s.machines i (some vm) j = some vm' := h
  rw [Function.update_apply] at h
  split at h
  · cases h
    exact hvm
  · exact (hs.machines j vm' h).mono hle

theorem receive_fits (hs : s.Fits) {vs : List Value} {boxes : List Obj}
    (h : s.world.Receives vs boxes) : (s.world.receive boxes).Fits :=
  hs.world.with_heap (.append none _ boxes) (hs.world.closed.append h.2)

/-- The box that a turn writes. -/
def Server.target (s : Server) : Turn → Option ℕ
  | .tick i => (s.machines i).bind fun vm => Vm.target { vm with world := s.world }
  | _ => none

/-- **Step lemma** of the server. -/
theorem step_stepped (hP : ∀ i, Allocates (P.outside i)) (hs : s.Fits) {e : Turn}
    (h : s.step P e = some t) : Stepped (s.target e) s t := by
  cases e with
  | start i chunk params boxes =>
    obtain ⟨⟨hlit, hrec⟩, h⟩ := Option.ite_none_right_eq_some.1 h
    cases h
    have hw := receive_fits hs hrec
    refine ⟨install_fits hs hw (by simp [World.receive]) ⟨nofun, fun v hv => ?_, ?_⟩,
      .append _ _ boxes, [], rfl⟩
    · rcases List.mem_append.1 hv with hv | hv
      · exact hrec.1 v (List.mem_of_mem_take hv)
      · simp [List.eq_of_mem_replicate hv]
    · intro f hf
      obtain rfl := List.mem_singleton.1 hf
      exact hlit
  | tick i =>
    unfold Server.step at h
    dsimp only at h
    split at h
    · rename_i vm hvm
      split at h
      · rename_i vm' htick
        cases h
        have hf := hs.machines i vm hvm
        have hf' : Vm.Fits { vm with world := s.world } s.world.heap :=
          ⟨hf.stack, hf.locals, hf.frames⟩
        have ht := tick_turned (hP i) (by exact hs.world) hf' htick
        have htarget : s.target (.tick i) = Vm.target { vm with world := s.world } := by
          simp only [Server.target, hvm, Option.bind_some]
        rw [htarget]
        exact ⟨install_fits hs ht.world ht.changes.grows ht.fits, ht.changes, ht.calls⟩
      · cases h
    · cases h
  | resume i v boxes =>
    unfold Server.step at h
    dsimp only at h
    split at h
    · rename_i vm hvm
      split at h
      · obtain ⟨hrec, h⟩ := Option.ite_none_right_eq_some.1 h
        cases h
        have hw := receive_fits hs hrec
        have hf : vm.Fits (s.world.heap ++ boxes) := (hs.machines i vm hvm).mono (by simp)
        refine ⟨install_fits hs hw (by simp [World.receive]) ⟨fun u hu => ?_, hf.locals,
          hf.frames⟩, .append _ _ boxes, [], rfl⟩
        rcases List.mem_cons.1 hu with rfl | hu
        · exact hrec.1 u (by simp)
        · exact hf.stack u hu
      · cases h
    · cases h

/-- No address dangles in any state of any run. -/
theorem run_fits (hP : ∀ i, Allocates (P.outside i)) {es : List Turn}
    (h : (server P).run es = some s) : s.Fits :=
  (server P).run_induction (init_fits P) (fun _ _ _ hs he => (step_stepped hP hs he).fits) h

theorem unshared_target {e : Turn} (h : Unshared key s e) (addr : ℕ)
    (ht : s.target e = some addr) :
    ¬ Reaches s.world.heap ((storeOf s.world.history).get key) addr := by
  cases e with
  | tick i =>
    obtain ⟨vm, hvm, ht⟩ := Option.bind_eq_some_iff.1 ht
    exact h vm hvm addr ht
  | start => cases ht
  | resume => cases ht

/-- What the store shows under a key stays the same over turns that make no
    operation on it and write no box behind it. -/
theorem view_eq_of_runFrom (hP : ∀ i, Allocates (P.outside i)) (hs : s.Fits) {es : List Turn}
    (hC : (server P).MeetsFrom (Unshared key) s es) (hr : (server P).runFrom s es = some t) :
    ∃ new, t.world.history = new ++ s.world.history ∧
      ((∀ e ∈ new, e.call.changes ≠ some key) →
        ∀ n, ((storeOf t.world.history).get key).view t.world.heap n =
          ((storeOf s.world.history).get key).view s.world.heap n) := by
  induction es generalizing s with
  | nil =>
    cases hr
    exact ⟨[], rfl, fun _ _ => rfl⟩
  | cons e es ih =>
    obtain ⟨u, hu, hrest⟩ := ((server P).runFrom_cons).1 hr
    have hstep := step_stepped hP hs hu
    obtain ⟨new₁, hnew₁⟩ := hstep.calls
    obtain ⟨new₂, hnew₂, hview⟩ := ih hstep.fits (hC.2 u hu) hrest
    refine ⟨new₂ ++ new₁, by rw [hnew₂, hnew₁, List.append_assoc], fun hq n => ?_⟩
    have hkey : (storeOf u.world.history).get key = (storeOf s.world.history).get key := by
      rw [hnew₁]
      exact storeOf_get fun e' he' => hq e' (List.mem_append_right _ he')
    rw [hview (fun e' he' => hq e' (List.mem_append_left _ he')) n, hkey]
    exact hstep.changes.view_eq hs.world.closed
      (in_valueAt (storeOf_in hs.world.history) key) (unshared_target hC.1) n

/-- **Frame**: in every run, over turns that write no box behind a key of the store,
    what the store shows under the key changes only by operations on the key. -/
theorem stored_view_eq (P : Project) (hP : ∀ i, Allocates (P.outside i)) (key : String)
    (before after : List Turn) (s t : Server) (new : List Event)
    (hs : (server P).run before = some s) (ht : (server P).runFrom s after = some t)
    (hC : (server P).MeetsFrom (Unshared key) s after)
    (hnew : t.world.history = new ++ s.world.history)
    (hops : ∀ e ∈ new, e.call.changes ≠ some key) (n : ℕ) :
    ((storeOf t.world.history).get key).view t.world.heap n =
      ((storeOf s.world.history).get key).view s.world.heap n := by
  obtain ⟨new', hnew', hview⟩ := view_eq_of_runFrom hP (run_fits hP hs) hC ht
  obtain rfl : new' = new := List.append_cancel_right (hnew'.symm.trans hnew)
  exact hview hops n

end Server

theorem idle_allocates (i : ℕ) : Allocates (Project.idle.outside i) :=
  fun _ _ hw _ => .same hw.closed Value.in_null

/-- `state.set("k", [])`, and then `[].add(1)` on another list. -/
def handlerOther : Chunk where
  code := [⟨.const, 0, {}⟩, ⟨.makeList, 0, {}⟩, ⟨.callNative, callOperand 33 2, {}⟩,
    ⟨.makeList, 0, {}⟩, ⟨.const, 1, {}⟩, ⟨.callMethod, callOperand 2 1, {}⟩, ⟨.ret, 0, {}⟩]
  constants := [.str "k", .int 1, .str "add"]

/-- A write to another list, which the store does not show. -/
theorem stored_view_eq_other :
    ((storeOf [⟨.method (.list 1) "add" [.int 1], [.list [], .list []]⟩,
        ⟨.native "__state_set" [.str "k", .list 0], [.list []]⟩]).get "k").view
        [.list [], .list [.int 1]] 5 =
      ((storeOf [⟨.native "__state_set" [.str "k", .list 0], [.list []]⟩]).get "k").view
        [.list []] 5 :=
  stored_view_eq .idle idle_allocates "k"
    [.start 0 handlerOther [] [], .tick 0, .tick 0, .tick 0] [.tick 0, .tick 0, .tick 0] _ _
    [⟨.method (.list 1) "add" [.int 1], [.list [], .list []]⟩] rfl rfl
    (.cons (fun _ hvm _ ht => by cases hvm; cases ht) rfl <|
      .cons (fun _ hvm _ ht => by cases hvm; cases ht) rfl <|
      .cons (fun _ hvm _ ht => by
        cases hvm
        cases ht
        rintro (h | ⟨h, ho, hw, -⟩)
        · cases h
        · cases h
          cases ho
          cases hw) rfl trivial) rfl (by decide) 5

/-- `List xs = []`, `state.set("k", xs)`, `xs.add(1)`. -/
def handlerSame : Chunk where
  code := [⟨.makeList, 0, {}⟩, ⟨.storeLocal, 0, {}⟩, ⟨.const, 0, {}⟩, ⟨.loadLocal, 0, {}⟩,
    ⟨.callNative, callOperand 33 2, {}⟩, ⟨.pop, 0, {}⟩, ⟨.loadLocal, 0, {}⟩, ⟨.const, 1, {}⟩,
    ⟨.callMethod, callOperand 2 1, {}⟩, ⟨.ret, 0, {}⟩]
  constants := [.str "k", .int 1, .str "add"]
  numLocals := 1

/-- A handler adds to a list that it has put into the store: the store shows it. -/
theorem stored_list_changes :
    ∃ s t new, (server .idle).run (.start 0 handlerSame [] [] :: List.replicate 6 (.tick 0)) =
        some s ∧
      (server .idle).runFrom s (List.replicate 3 (.tick 0)) = some t ∧
      t.world.history = new ++ s.world.history ∧ (∀ e ∈ new, e.call.changes ≠ some "k") ∧
      ((storeOf t.world.history).get "k").view t.world.heap 2 ≠
        ((storeOf s.world.history).get "k").view s.world.heap 2 :=
  ⟨_, _, [⟨.method (.list 0) "add" [.int 1], [.list []]⟩], rfl, rfl, rfl, by decide, nofun⟩

end Osodio.Odio
