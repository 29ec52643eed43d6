import Osodio.Json.Writer
import Osodio.Odio.Program
import Osodio.Odio.Sharing

/-!
# Values that contain themselves

`to_json_text`, `to_string` and `equals` call themselves on what is in a box.  They return as long
as no box is behind itself, and boxes are written in place: a list to which itself is added is
behind itself.

## Main definitions

- `writeJson?`, `toString?`, `equals?` — the operations, cut off after so many nested calls
- `Shallow`, `Acyclic` — no more than so many boxes are one behind the other
- `Effect` — what a turn can do to the boxes, and the value that it stores
- `Loopless` — a turn stores nothing that the written box is behind

## Main results

- `Effect.acyclic` — a step lemma for the boxes
- `operations_return` — in runs without such a turn the operations return
- `self_added_list` — a list to which itself was added
-/

namespace Osodio.Odio

open Osodio.Lib
open Json (Charconv)

/-! ## The operations -/

/-- The bytes of a string. -/
def bytesOf (s : String) : Json.Bytes := s.toList.flatMap String.utf8EncodeChar

/-- `write_json`, cut off after a number of nested calls. -/
def writeJson? (C : Charconv) (heap : Heap) : ℕ → Value → Option Json.Bytes
  | 0, _ => none
  | _ + 1, .null => some (Json.ascii "null")
  | _ + 1, .bool b => some (Json.ascii (if b then "true" else "false"))
  | _ + 1, .int i => some (Json.decimal i)
  | _ + 1, .float d => some (Json.escribirDouble C ⟨d.toBits⟩)
  | _ + 1, .str s => some (Json.escapar (bytesOf s))
  | n + 1, .list addr =>
    ((listAt heap addr).mapM (writeJson? C heap n)).map fun ts =>
      [0x5B] ++ List.intercalate [0x2C] ts ++ [0x5D]
  | n + 1, .dict addr =>
    (((dictAt heap addr).filter fun e => !Json.interna (bytesOf e.1)).mapM fun e =>
      (writeJson? C heap n e.2).map fun t => Json.escapar (bytesOf e.1) ++ [0x3A] ++ t).map fun ts =>
        [0x7B] ++ List.intercalate [0x2C] ts ++ [0x7D]

/-- `to_string`; `stream` is how a stream writes a `double`. -/
def toString? (C : Charconv) (stream : Float → Json.Bytes) (heap : Heap) (n : ℕ) :
    Value → Option Json.Bytes
  | .null => some (Json.ascii "null")
  | .bool b => some (Json.ascii (if b then "true" else "false"))
  | .int i => some (Json.decimal i)
  | .float d => some (stream d)
  | .str s => some (bytesOf s)
  | v => writeJson? C heap n v

/-- The first comparison that fails ends the loop. -/
def allEqual? {α : Type} (f : α → Option Bool) : List α → Option Bool
  | [] => some true
  | a :: as => (f a).bind fun r => if r then allEqual? f as else some false

/-- `equals`, cut off after a number of nested calls. -/
def equals? (heap : Heap) : ℕ → Value → Value → Option Bool
  | 0, _, _ => none
  | n + 1, .list x, .list y =>
    if (listAt heap x).length = (listAt heap y).length then
      allEqual? (fun p => equals? heap n p.1 p.2) ((listAt heap x).zip (listAt heap y))
    else some false
  | n + 1, .dict x, .dict y =>
    if (dictAt heap x).length = (dictAt heap y).length then
      allEqual? (fun e =>
        match (dictAt heap y).lookup e.1 with
        | some v => equals? heap n e.2 v
        | none => some false) (dictAt heap x)
    else some false
  | _ + 1, v, w => some (Value.equalScalars v w)

/-! ## Boxes one behind the other -/

/-- No more than `n` values are one behind the other. -/
def Shallow (heap : Heap) : ℕ → Value → Prop
  | 0, _ => False
  | n + 1, v => ∀ addr o, v.box = some addr → heap[addr]? = some o → ∀ w ∈ o.values, Shallow heap n w

/-- Behind every value there is an end. -/
def Acyclic (heap : Heap) : Prop := ∀ v, ∃ n, Shallow heap n v

section Shallow

variable {heap heap' : Heap} {v w : Value} {m n addr : ℕ} {o : Obj}

theorem Shallow.mono (h : Shallow heap m v) (hle : m ≤ n) : Shallow heap n v := by
  induction n generalizing m v with
  | zero =>
    obtain rfl := Nat.le_zero.1 hle
    exact h
  | succ n ih =>
    cases m with
    | zero => exact h.elim
    | succ m => exact fun addr o hb ho w hw => ih (h addr o hb ho w hw) (Nat.le_of_succ_le_succ hle)

/-- A bound for each of the values is a bound for all. -/
theorem exists_shallow {vs : List Value} (h : ∀ v ∈ vs, ∃ n, Shallow heap n v) :
    ∃ n, ∀ v ∈ vs, Shallow heap n v := by
  induction vs with
  | nil => exact ⟨0, nofun⟩
  | cons v vs ih =>
    obtain ⟨n, hn⟩ := h v (List.mem_cons_self ..)
    obtain ⟨m, hm⟩ := ih fun w hw => h w (List.mem_cons_of_mem _ hw)
    refine ⟨max n m, fun w hw => ?_⟩
    obtain rfl | hw := List.mem_cons.1 hw
    · exact hn.mono (le_max_left _ _)
    · exact (hm w hw).mono (le_max_right _ _)

/-- A value that has an end behind it, if what is in its box has. -/
theorem shallow_of_box (hb : v.box = some addr) (ho : heap[addr]? = some o)
    (h : ∀ w ∈ o.values, ∃ n, Shallow heap n w) : ∃ n, Shallow heap n v := by
  obtain ⟨n, hn⟩ := exists_shallow h
  refine ⟨n + 1, fun addr' o' hb' ho' w hw => ?_⟩
  obtain rfl := Option.some.inj (hb.symm.trans hb')
  obtain rfl := Option.some.inj (ho.symm.trans ho')
  exact hn w hw

theorem shallow_of_no_box (hb : ∀ addr, v.box = some addr → heap[addr]? = none) :
    Shallow heap 1 v := by
  intro addr o hb' ho
  rw [hb addr hb'] at ho
  cases ho

/-- The boxes that are not behind a value do not matter. -/
theorem Shallow.congr (h : Shallow heap n v)
    (hsame : ∀ addr, Reaches heap v addr → heap'[addr]? = heap[addr]?) : Shallow heap' n v := by
  induction n generalizing v with
  | zero => exact h.elim
  | succ n ih =>
    intro addr o hb ho w hw
    rw [hsame addr (.own hb)] at ho
    exact ih (h addr o hb ho w hw) fun addr' hr => hsame addr' (.through hb ho hw hr)

theorem Reaches.shallow (hr : Reaches heap v addr) (h : Shallow heap n v) :
    ∃ u, u.box = some addr ∧ Shallow heap n u := by
  induction hr generalizing n with
  | own hb => exact ⟨_, hb, h⟩
  | through hb ho hw _ ih =>
    cases n with
    | zero => exact h.elim
    | succ n =>
      obtain ⟨u, hu, hin⟩ := ih (h _ _ hb ho _ hw)
      exact ⟨u, hu, hin.mono (Nat.le_succ n)⟩

/-- A box is not behind itself. -/
theorem Shallow.not_reaches (h : Shallow heap n v) (hb : v.box = some addr)
    (ho : heap[addr]? = some o) (hw : w ∈ o.values) : ¬Reaches heap w addr := by
  induction n generalizing v w with
  | zero => exact h.elim
  | succ n ih =>
    intro hr
    obtain ⟨u, hu, hin⟩ := hr.shallow (h addr o hb ho w hw)
    exact ih hin hu hw hr

end Shallow

/-! ## What a turn does to the boxes -/

/-- One step of the boxes; `stored` is the box that is written and the value that is put
    into it. -/
inductive Effect (stored : Option (ℕ × Value)) (heap : Heap) : Heap → Prop
  | same : Effect stored heap heap
  | new {o : Obj} (h : ∀ v ∈ o.values, v.In heap) : Effect stored heap (heap ++ [o])
  | write {addr : ℕ} {v : Value} {o : Obj} (hs : stored = some (addr, v))
      (h : ∀ w ∈ o.values, w = v ∨ ∃ o₀, heap[addr]? = some o₀ ∧ w ∈ o₀.values) :
      Effect stored heap (heap.set addr o)
  /-- A native that is outside. -/
  | outside {heap' : Heap} (h : Acyclic heap → Acyclic heap') : Effect stored heap heap'

section Acyclic

variable {heap heap' : Heap} {v : Value} {addr : ℕ} {o : Obj}

/-- A new box has older ones behind it. -/
theorem Acyclic.new (h : Acyclic heap) (hc : Closed heap) (ho : ∀ v ∈ o.values, v.In heap) :
    Acyclic (heap ++ [o]) := by
  have hold {v : Value} (hv : v.In heap) : ∃ n, Shallow (heap ++ [o]) n v := by
    obtain ⟨n, hn⟩ := h v
    exact ⟨n, hn.congr fun addr hr => List.getElem?_append_left (hr.lt hc hv)⟩
  intro v
  cases hb : v.box with
  | none => exact ⟨1, shallow_of_no_box fun addr ha => by rw [hb] at ha; cases ha⟩
  | some addr =>
    by_cases hlt : addr < heap.length
    · refine hold fun addr' ha => ?_
      obtain rfl := Option.some.inj (hb.symm.trans ha)
      exact hlt
    by_cases heq : addr = heap.length
    · refine shallow_of_box (o := o) hb ?_ fun w hw => hold (ho w hw)
      rw [heq, List.getElem?_concat_length]
    · refine ⟨1, shallow_of_no_box fun addr' ha => ?_⟩
      obtain rfl := Option.some.inj (hb.symm.trans ha)
      rw [List.getElem?_eq_none_iff, List.length_append, List.length_singleton]
      omega

/-- A box is written with a value that it is not behind. -/
theorem Acyclic.write (h : Acyclic heap) (hv : ¬Reaches heap v addr)
    (ho : ∀ w ∈ o.values, w = v ∨ ∃ o₀, heap[addr]? = some o₀ ∧ w ∈ o₀.values) :
    Acyclic (heap.set addr o) := by
  have hunreached {w : Value} (hw : ¬Reaches heap w addr) : ∃ n, Shallow (heap.set addr o) n w := by
    obtain ⟨n, hn⟩ := h w
    refine ⟨n, hn.congr fun addr' hr => List.getElem?_set_ne fun e => hw ?_⟩
    rwa [e]
  -- what the box holds now is not behind it
  have hinside : ∀ w ∈ o.values, ∃ n, Shallow (heap.set addr o) n w := by
    intro w hw
    obtain rfl | ⟨o₀, ho₀, hw₀⟩ := ho w hw
    · exact hunreached hv
    · obtain ⟨n, hn⟩ := h (.list addr)
      exact hunreached (hn.not_reaches rfl ho₀ hw₀)
  intro u
  obtain ⟨n, hn⟩ := h u
  induction n generalizing u with
  | zero => exact hn.elim
  | succ n ih =>
    cases hb : u.box with
    | none => exact ⟨1, shallow_of_no_box fun addr ha => by rw [hb] at ha; cases ha⟩
    | some addr' =>
      cases ho' : (heap.set addr o)[addr']? with
      | none =>
        refine ⟨1, shallow_of_no_box fun addr'' ha => ?_⟩
        obtain rfl := Option.some.inj (hb.symm.trans ha)
        exact ho'
      | some o' =>
        refine shallow_of_box hb ho' fun w hw => ?_
        by_cases heq : addr = addr'
        · subst heq
          have hlen : addr < heap.length := by
            have := List.getElem?_eq_some_iff.1 ho'
            obtain ⟨hlt, -⟩ := this
            simpa using hlt
          rw [List.getElem?_set_self hlen] at ho'
          cases ho'
          exact hinside w hw
        · rw [List.getElem?_set_ne heq] at ho'
          exact ih w (hn addr' o' hb ho' w hw)

/-- **Step lemma** for the boxes. -/
theorem Effect.acyclic {stored : Option (ℕ × Value)} (he : Effect stored heap heap')
    (hc : Closed heap) (hs : ∀ addr v, stored = some (addr, v) → ¬Reaches heap v addr)
    (h : Acyclic heap) : Acyclic heap' := by
  cases he with
  | same => exact h
  | new ho => exact h.new hc ho
  | write hstored ho => exact h.write (hs _ _ hstored) ho
  | outside hout => exact hout h

end Acyclic

/-! ## Operations on values -/

section Operations

variable {heap : Heap} {stored : Option (ℕ × Value)}

/-- The operation makes a box of old values, or stores one value. -/
def OpResult.Makes (stored : Option (ℕ × Value)) (heap : Heap) (r : OpResult) : Prop :=
  ∀ v heap', r = .ok (v, heap') → Effect stored heap heap'

theorem OpResult.Makes.error (message : String) : OpResult.Makes stored heap (.error message) :=
  nofun

theorem OpResult.Makes.ok {v : Value} {heap' : Heap} (h : Effect stored heap heap') :
    OpResult.Makes stored heap (.ok (v, heap')) := by
  intro _ _ he
  cases he
  exact h

/-- An operation that leaves the boxes alone. -/
theorem OpResult.Makes.same {v : Value} : OpResult.Makes stored heap (.ok (v, heap)) := .ok .same

theorem Effect.newList {items : List Value} (h : ∀ v ∈ items, v.In heap) :
    Effect stored heap (newList items heap).2 :=
  .new h

theorem Effect.newDict {pairs : Dict} (h : ∀ p ∈ pairs, p.2.In heap) :
    Effect stored heap (newDict pairs heap).2 := by
  refine .new fun v hv => ?_
  obtain ⟨p, hp, rfl⟩ := List.mem_map.1 hv
  exact h p hp

theorem addValues_makes (hc : Closed heap) (a b : Value) :
    (addValues heap a b).Makes stored heap := by
  unfold addValues
  split
  · exact .same
  · exact .error _
  · exact .error _
  · exact .same
  · refine .ok (.newList fun v hv => ?_)
    obtain hv | hv := List.mem_append.1 hv <;> exact in_listAt hc hv
  · split
    · exact .same
    · exact .error _

theorem arithmetic_makes (op : Arith) (a b : Value) :
    (arithmetic op heap a b).Makes stored heap := by
  unfold arithmetic
  split
  · exact .error _
  · split <;> (try split) <;> (try split) <;> first | exact .error _ | exact .same

theorem compareValues_makes (op : Cmp) (a b : Value) :
    (compareValues op heap a b).Makes stored heap := by
  unfold compareValues
  split
  · exact .same
  · exact .error _

theorem genericoArit_makes (op : Op) (a b : Value) :
    (Vm.genericoArit op heap a b).Makes stored heap := by
  obtain ⟨op', h⟩ : ∃ op', Vm.genericoArit op = arithmetic op' := by
    unfold Vm.genericoArit
    split <;> exact ⟨_, rfl⟩
  rw [h]
  exact arithmetic_makes op' a b

theorem genericoCmp_makes (op : Op) (a b : Value) :
    (Vm.genericoCmp op heap a b).Makes stored heap := by
  obtain ⟨op', h⟩ : ∃ op', Vm.genericoCmp op = compareValues op' := by
    unfold Vm.genericoCmp
    split <;> exact ⟨_, rfl⟩
  rw [h]
  exact compareValues_makes op' a b

theorem especializada_makes (hc : Closed heap) (op : Op) (a b : Value) :
    (Vm.especializada op heap a b).Makes stored heap := by
  unfold Vm.especializada
  split
  · split <;> exact .same
  · split
    · exact addValues_makes hc a b
    · exact genericoArit_makes _ a b
    · exact genericoArit_makes _ a b
    · exact genericoCmp_makes _ a b

theorem negate_makes (a : Value) : (negate heap a).Makes stored heap := by
  unfold negate
  split
  · exact .same
  · exact .same
  · exact .error _

theorem getIndex_makes (a b : Value) : (getIndex heap a b).Makes stored heap := by
  unfold getIndex
  split
  · rename_i addr i
    cases position (listAt heap addr) i with
    | error e => exact .error e
    | ok k => exact .same
  · exact .error _
  · exact .same
  · exact .error _
  · exact .error _

theorem getMember_makes (name : String) (a : Value) :
    (getMember name heap a).Makes stored heap := by
  unfold getMember
  split
  · exact .same
  · exact .error _

/-- What is in a list after a value has been put into it. -/
theorem listAt_mem {addr : ℕ} {w : Value} (hw : w ∈ listAt heap addr) :
    ∃ o, heap[addr]? = some o ∧ w ∈ o.values := by
  unfold listAt at hw
  split at hw
  · rename_i items ho
    exact ⟨.list items, ho, hw⟩
  · cases hw

theorem dictAt_mem {addr : ℕ} {p : String × Value} (hp : p ∈ dictAt heap addr) :
    ∃ o, heap[addr]? = some o ∧ p.2 ∈ o.values := by
  unfold dictAt at hp
  split at hp
  · rename_i pairs ho
    exact ⟨.dict pairs, ho, List.mem_map_of_mem hp⟩
  · cases hp

theorem Effect.setKey (addr : ℕ) (k : String) (v : Value) :
    Effect (some (addr, v)) heap (heap.set addr (.dict (setKey k v (dictAt heap addr)))) := by
  refine .write rfl fun w hw => ?_
  obtain ⟨p, hp, rfl⟩ := List.mem_map.1 hw
  obtain rfl | hp := mem_setKey hp
  · exact .inl rfl
  · exact .inr (dictAt_mem hp)

theorem setIndex_makes (a b v : Value) :
    (setIndex heap a b v).Makes ((indexTarget heap a b).map (·, v)) heap := by
  unfold setIndex
  split
  · rename_i addr i
    simp only [indexTarget]
    cases position (listAt heap addr) i with
    | error e => exact .error e
    | ok k =>
      refine .ok (.write rfl fun w hw => ?_)
      obtain hw | rfl := List.mem_or_eq_of_mem_set hw
      · exact .inr (listAt_mem hw)
      · exact .inl rfl
  · exact .error _
  · exact .ok (.setKey _ _ _)
  · exact .error _
  · exact .error _

theorem setMember_makes (name : String) (a v : Value) :
    (setMember name heap a v).Makes ((memberTarget a).map (·, v)) heap := by
  unfold setMember
  split
  · exact .ok (.setKey _ _ _)
  · exact .error _

theorem iterList_makes (a : Value) : (iterList heap a).Makes stored heap := by
  unfold iterList
  split
  · exact .same
  · refine .ok (.newList fun v hv => ?_)
    obtain ⟨p, -, rfl⟩ := List.mem_map.1 hv
    simp
  · exact .error _

theorem makeDict_makes {vs : List Value} (hvs : ∀ v ∈ vs, v.In heap) :
    (makeDict heap vs).Makes stored heap := by
  unfold makeDict
  cases h : pairsFrom [] vs with
  | error e => exact .error e
  | ok d => exact .ok (.newDict (pairsFrom_in hvs (by simp) h))

end Operations

/-! ## Calls -/

/-- Natives behind whose results there is an end. -/
def Builds (oracle : Oracle) : Prop :=
  ∀ w call, w.Fits → (∀ v ∈ call.values, v.In w.heap) → Acyclic w.heap →
    Acyclic (oracle w call).heap

/-- The box that a method writes, and the value that it puts there. -/
def Call.stores : Call → Option (ℕ × Value)
  | .method (.list addr) "add" [v] => some (addr, v)
  | _ => none

section Calls

variable {w : World} {P : Project} {n : ℕ}

theorem ask_heap (oracle : Oracle) (call : Call) :
    (oracle.ask w call).2.heap = (oracle w call).heap := rfl

theorem addTo_effect (addr : ℕ) (args : List Value) :
    Effect (Call.method (.list addr) "add" args).stores w.heap (addTo w.heap addr args).heap := by
  unfold addTo
  split
  · refine .write rfl fun u hu => ?_
    obtain hu | hu := List.mem_append.1 hu
    · exact .inr (listAt_mem hu)
    · exact .inl (List.mem_singleton.1 hu)
  · exact .same

theorem oracle_effect (hB : Builds (P.outside n)) (hw : w.Fits) {call : Call}
    (hcall : ∀ v ∈ call.values, v.In w.heap) :
    Effect call.stores w.heap (P.oracle n w call).heap := by
  unfold Project.oracle
  split
  · rename_i name args
    split
    · rename_i f _
      cases (f (storeOf w.history) args).1 with
      | ok v => exact .same
      | error message => exact .same
    · exact .outside (hB w _ hw hcall)
  · exact addTo_effect _ _
  · exact .outside (hB w _ hw hcall)

theorem callNative_effect (hB : Builds (P.outside n)) (hw : w.Fits) {id : ℕ}
    {args : List Value} (hargs : ∀ v ∈ args, v.In w.heap) :
    Effect none w.heap (callNative (P.env n) w id args).2.heap := by
  unfold callNative
  split
  · exact .same
  · split
    · unfold fnRenderTpl
      split
      · rename_i i rest
        split
        · rename_i p _
          have hdatos : (rest.headD .null).In w.heap := by
            cases rest with
            | nil => simp
            | cons v rest => exact hargs v (by simp)
          have hvalues : ∀ v ∈ (Call.render p.nombre (rest.headD .null)).values, v.In w.heap :=
            fun v hv => List.mem_singleton.1 hv ▸ hdatos
          exact oracle_effect hB hw hvalues
        · exact .same
      · exact .same
    · have hvalues : ∀ v ∈ (Call.native (nativeAt id).name args).values, v.In w.heap := hargs
      exact oracle_effect hB hw hvalues

end Calls

/-! ## Turns of a machine -/

/-- What an instruction stores: the box that it writes, and the value that it puts there. -/
def instrStores (heap : Heap) (chunk : Chunk) (stack : List Value) (i : Instr) :
    Option (ℕ × Value) :=
  match i.op with
  | .setIndex =>
    match stack with
    | v :: idx :: obj :: _ => (indexTarget heap obj idx).map (·, v)
    | _ => none
  | .setMember =>
    match stack with
    | v :: obj :: _ => (memberTarget obj).map (·, v)
    | _ => none
  | .callMethod =>
    match chunk.name (calleeOf i.operand), stack.drop (argcOf i.operand) with
    | .ok name, receiver :: _ =>
      (Call.method receiver name (stack.take (argcOf i.operand)).reverse).stores
    | _, _ => none
  | _ => none

/-- What the next turn of a machine stores. -/
def Vm.stores (vm : Vm) : Option (ℕ × Value) :=
  match vm.status, vm.frames with
  | .running, f :: _ => f.chunk.code[f.pc]?.bind (instrStores vm.world.heap f.chunk vm.stack)
  | _, _ => none

section Machine

variable {vm vm' : Vm} {stored : Option (ℕ × Value)} {loc : SourceLoc}

theorem Effect.of_eq {heap heap' : Heap} (h : heap' = heap) : Effect stored heap heap' := by
  subst h
  exact .same

theorem settle_effect {st : List Value} {r : OpResult} (hr : r.Makes stored vm.world.heap) :
    Effect stored vm.world.heap (vm.settle st loc r).world.heap := by
  cases r with
  | error message => exact .same
  | ok p => exact hr p.1 p.2 rfl

theorem settleCall_effect {st : List Value} {p : Except String Value × World}
    (hp : Effect stored vm.world.heap p.2.heap) :
    Effect stored vm.world.heap (vm.settleCall st loc p).world.heap := by
  obtain ⟨r, w⟩ := p
  cases r with
  | error message => exact hp
  | ok v => exact hp

theorem unary_effect {f : Heap → Value → OpResult} (h : vm.unary loc f = .ok vm')
    (hs : ∀ a, (f vm.world.heap a).Makes stored vm.world.heap) :
    Effect stored vm.world.heap vm'.world.heap := by
  unfold Vm.unary at h
  split at h
  · cases h
    exact settle_effect (hs _)
  · cases h

theorem binary_effect {f : Heap → Value → Value → OpResult} (h : vm.binary loc f = .ok vm')
    (hs : ∀ a b st, vm.stack = b :: a :: st →
      (f vm.world.heap a b).Makes stored vm.world.heap) :
    Effect stored vm.world.heap vm'.world.heap := by
  unfold Vm.binary at h
  split at h
  · rename_i b a st heq
    cases h
    exact settle_effect (hs a b st heq)
  · cases h

theorem ternary_effect {f : Heap → Value → Value → Value → OpResult}
    (h : vm.ternary loc f = .ok vm')
    (hs : ∀ a b v st, vm.stack = v :: b :: a :: st →
      (f vm.world.heap a b v).Makes stored vm.world.heap) :
    Effect stored vm.world.heap vm'.world.heap := by
  unfold Vm.ternary at h
  split at h
  · rename_i v b a st heq
    cases h
    exact settle_effect (hs a b v st heq)
  · cases h

theorem leave_world (vm : Vm) (f : Frame) (rest : List Frame) (v : Value) :
    (vm.leave f rest v).world = vm.world := by
  unfold Vm.leave
  split <;> rfl

theorem jump_world (vm : Vm) (f : Frame) (i : Instr) : (vm.jump f i).world = vm.world := by
  unfold Vm.jump
  split
  · split
    · rfl
    · exact setPc_world _ _
  · exact setPc_world _ _

theorem callFunction_world {E : Env} {i : Instr} (h : vm.callFunction E i = .ok vm') :
    vm'.world = vm.world := by
  unfold Vm.callFunction at h
  split at h
  · cases h
    rfl
  · split at h
    · cases h
      rfl
    · cases hp : popArgs (argcOf i.operand) vm.stack with
      | error e => simp [hp, bind, Except.bind] at h
      | ok p =>
        simp only [hp, bind, Except.bind] at h
        split at h
        · cases h
        · cases h
          rfl

/-- **What an instruction can do to the boxes.** -/
theorem exec_effect {P : Project} {n : ℕ} (hB : Builds (P.outside n)) (hw : vm.world.Fits)
    (hf : vm.Fits vm.world.heap) {f : Frame} {rest : List Frame} {i : Instr}
    (h : vm.exec (P.env n) f rest i = .ok vm') :
    Effect (instrStores vm.world.heap f.chunk vm.stack i) vm.world.heap vm'.world.heap := by
  have hc := hw.closed
  have hst := hf.stack
  obtain ⟨op, k, loc⟩ := i
  unfold Vm.exec at h
  cases op with
  | const | loadLocal | pop | ret =>
    dsimp only at h
    split at h
    · cases h
      exact .of_eq (by simp [leave_world])
    · cases h
  | storeLocal =>
    dsimp only at h
    split at h
    · split at h
      · cases h
        exact .same
      · cases h
    · cases h
  | add => exact binary_effect h fun a b _ _ => addValues_makes hc a b
  | sub | mul | div | mod => exact binary_effect h fun a b _ _ => genericoArit_makes _ a b
  | neg => exact unary_effect h negate_makes
  | eq | ne => exact binary_effect h fun _ _ _ _ => .same
  | lt | le | gt | ge => exact binary_effect h fun a b _ _ => genericoCmp_makes _ a b
  | not => exact unary_effect h fun _ => .same
  | addInt | subInt | mulInt | ltInt | leInt | gtInt | geInt =>
    exact binary_effect h fun a b _ _ => especializada_makes hc _ a b
  | jump =>
    cases h
    exact .of_eq (by rw [jump_world])
  | jumpIfFalse | jumpIfFalsePeek | jumpIfTruePeek =>
    dsimp only at h
    split at h
    · cases h
      refine .of_eq ?_
      split <;> simp
    · cases h
  | makeList =>
    cases hp : popArgs k vm.stack with
    | error e => simp [hp, bind, Except.bind] at h
    | ok p =>
      obtain ⟨hitems, -⟩ := popArgs_in hst hp
      simp only [hp, bind, Except.bind] at h
      cases h
      exact settle_effect (.ok (.newList hitems))
  | makeDict =>
    cases hp : popArgs (k * 2) vm.stack with
    | error e => simp [hp, bind, Except.bind] at h
    | ok p =>
      obtain ⟨hitems, -⟩ := popArgs_in hst hp
      simp only [hp, bind, Except.bind] at h
      cases h
      exact settle_effect (makeDict_makes hitems)
  | getIndex => exact binary_effect h fun a b _ _ => getIndex_makes a b
  | setIndex =>
    refine ternary_effect h fun a b v st heq => ?_
    simp only [instrStores, heq]
    exact setIndex_makes a b v
  | iterList => exact unary_effect h iterList_makes
  | getMember =>
    cases hn : f.chunk.name k with
    | error e => simp [hn, bind, Except.bind] at h
    | ok name =>
      simp only [hn, bind, Except.bind] at h
      exact unary_effect h (getMember_makes name)
  | setMember =>
    cases hn : f.chunk.name k with
    | error e => simp [hn, bind, Except.bind] at h
    | ok name =>
      simp only [hn, bind, Except.bind] at h
      refine binary_effect h fun a b st heq => ?_
      simp only [instrStores, heq]
      exact setMember_makes name a b
  | callFunction => exact .of_eq (by rw [callFunction_world h])
  | callMethod =>
    cases hp : popArgs (argcOf k) vm.stack with
    | error e => simp [hp, bind, Except.bind] at h
    | ok p =>
      obtain ⟨args, st⟩ := p
      obtain ⟨hargs, hst', -, hdrop⟩ := popArgs_in hst hp
      have htake : args = (vm.stack.take (argcOf k)).reverse := by
        unfold popArgs at hp
        split at hp
        · cases hp
          rfl
        · cases hp
      cases hn : f.chunk.name (calleeOf k) with
      | error e => simp [hp, hn, bind, Except.bind] at h
      | ok name =>
        simp only [hp, hn, bind, Except.bind] at h
        cases st with
        | nil => cases h
        | cons receiver st =>
          cases h
          have hcall : ∀ v ∈ (Call.method receiver name args).values, v.In vm.world.heap := by
            intro v hv
            obtain rfl | hv := List.mem_cons.1 hv
            · exact hst' v (by simp)
            · exact hargs v hv
          simp only [instrStores, hn, ← hdrop, ← htake]
          exact settleCall_effect (oracle_effect hB hw hcall)
  | callNative =>
    cases hp : popArgs (argcOf k) vm.stack with
    | error e => simp [hp, bind, Except.bind] at h
    | ok p =>
      obtain ⟨hargs, -⟩ := popArgs_in hst hp
      simp only [hp, bind, Except.bind] at h
      split at h
      · cases h
      · split at h
        · cases h
        · cases h
          exact settleCall_effect (callNative_effect hB hw hargs)
  | callAsync =>
    cases hp : popArgs (argcOf k) vm.stack with
    | error e => simp [hp, bind, Except.bind] at h
    | ok p =>
      simp only [hp, bind, Except.bind] at h
      cases h
      exact .same
  | retNull =>
    cases h
    exact .of_eq (by rw [leave_world])

/-- **One turn** of a machine. -/
theorem tick_effect {P : Project} {n : ℕ} (hB : Builds (P.outside n)) (hw : vm.world.Fits)
    (hf : vm.Fits vm.world.heap) (h : vm.tick (P.env n) = .ok vm') :
    Effect vm.stores vm.world.heap vm'.world.heap := by
  unfold Vm.tick at h
  split at h
  · rename_i hstatus
    split at h
    · cases h
      exact .same
    · rename_i f rest hfr
      split at h
      · cases h
        exact .of_eq (by rw [leave_world])
      · rename_i i hi
        have ht : vm.stores = instrStores vm.world.heap f.chunk vm.stack i := by
          simp only [Vm.stores, hstatus, hfr, hi, Option.bind_some]
        have hf' : Vm.Fits { vm with frames := { f with pc := f.pc + 1 } :: rest }
            vm.world.heap := by
          refine ⟨hf.stack, hf.locals, fun g hg => ?_⟩
          obtain rfl | hg := List.mem_cons.1 hg
          · exact hf.frames f (by simp [hfr])
          · exact hf.frames g (by simp [hfr, hg])
        have heff := exec_effect hB (by exact hw) hf' h
        rw [ht]
        exact heff
  · split at h
    · cases h
      exact .same
    · split at h
      · cases h
        refine .newDict fun p hp => ?_
        obtain rfl := List.mem_singleton.1 hp
        simp
      · cases h
        exact .same
  · cases h
    exact .same

end Machine

/-! ## Where there is an end, the operations return -/

section Return

variable {heap : Heap} {v w : Value} {n : ℕ} {α β : Type}

theorem mapM_isSome {f : α → Option β} {as : List α} (h : ∀ a ∈ as, (f a).isSome) :
    (as.mapM f).isSome := by
  induction as with
  | nil => rfl
  | cons a as ih =>
    obtain ⟨b, hb⟩ := Option.isSome_iff_exists.1 (h a (List.mem_cons_self ..))
    obtain ⟨bs, hbs⟩ := Option.isSome_iff_exists.1 (ih fun a ha => h a (List.mem_cons_of_mem _ ha))
    simp [List.mapM_cons, hb, hbs]

theorem allEqual?_isSome {f : α → Option Bool} {as : List α} (h : ∀ a ∈ as, (f a).isSome) :
    (allEqual? f as).isSome := by
  induction as with
  | nil => rfl
  | cons a as ih =>
    obtain ⟨r, hr⟩ := Option.isSome_iff_exists.1 (h a (List.mem_cons_self ..))
    unfold allEqual?
    rw [hr, Option.bind_some]
    cases r with
    | true => exact ih fun a ha => h a (List.mem_cons_of_mem _ ha)
    | false => rfl

/-- What is in a list is one value behind it. -/
theorem Shallow.listAt {addr : ℕ} (h : Shallow heap (n + 1) (.list addr))
    (hw : w ∈ listAt heap addr) : Shallow heap n w := by
  obtain ⟨o, ho, hmem⟩ := listAt_mem hw
  exact h addr o rfl ho w hmem

theorem Shallow.dictAt {addr : ℕ} {p : String × Value} (h : Shallow heap (n + 1) (.dict addr))
    (hp : p ∈ dictAt heap addr) : Shallow heap n p.2 := by
  obtain ⟨o, ho, hmem⟩ := dictAt_mem hp
  exact h addr o rfl ho p.2 hmem

theorem writeJson?_isSome (C : Charconv) (h : Shallow heap n v) :
    (writeJson? C heap n v).isSome := by
  induction n generalizing v with
  | zero => exact h.elim
  | succ n ih =>
    cases v with
    | list addr =>
      rw [writeJson?, Option.isSome_map]
      exact mapM_isSome fun w hw => ih (h.listAt hw)
    | dict addr =>
      rw [writeJson?, Option.isSome_map]
      refine mapM_isSome fun p hp => ?_
      rw [Option.isSome_map]
      exact ih (h.dictAt (List.mem_of_mem_filter hp))
    | _ => rfl

theorem toString?_isSome (C : Charconv) (stream : Float → Json.Bytes) (h : Shallow heap n v) :
    (toString? C stream heap n v).isSome := by
  cases v with
  | list addr => exact writeJson?_isSome C h
  | dict addr => exact writeJson?_isSome C h
  | _ => rfl

/-- It is enough that one of the two has an end. -/
theorem equals?_isSome (h : Shallow heap n v) (w : Value) : (equals? heap n v w).isSome := by
  induction n generalizing v w with
  | zero => exact h.elim
  | succ n ih =>
    cases v with
    | list x =>
      cases w with
      | list y =>
        rw [equals?]
        split
        · exact allEqual?_isSome fun p hp => ih (h.listAt (List.of_mem_zip hp).1) p.2
        · rfl
      | _ => rfl
    | dict x =>
      cases w with
      | dict y =>
        rw [equals?]
        split
        · refine allEqual?_isSome fun p hp => ?_
          split
          · exact ih (h.dictAt hp) _
          · rfl
        · rfl
      | _ => rfl
    | _ => rfl

end Return

/-! ## Runs -/

/-- What a turn stores is not in front of the box that it is stored in, and what comes from
    outside has an end. -/
def Loopless (s : Server) : Turn → Prop
  | .start _ _ _ boxes | .resume _ _ boxes => Acyclic (s.world.heap ++ boxes)
  | .tick i => ∀ vm, s.machines i = some vm → ∀ addr v,
      Vm.stores { vm with world := s.world } = some (addr, v) → ¬Reaches s.world.heap v addr

section Runs

variable {P : Project} {s t : Server}

theorem step_acyclic (hB : ∀ i, Builds (P.outside i)) (hs : s.Fits) (h : Acyclic s.world.heap)
    {e : Turn} (hC : Loopless s e) (he : s.step P e = some t) : Acyclic t.world.heap := by
  cases e with
  | start i chunk params boxes =>
    obtain ⟨-, he⟩ := Option.ite_none_right_eq_some.1 he
    cases he
    exact hC
  | tick i =>
    unfold Server.step at he
    dsimp only at he
    split at he
    · rename_i vm hvm
      split at he
      · rename_i vm' htick
        cases he
        have hf := hs.machines i vm hvm
        have hf' : Vm.Fits { vm with world := s.world } s.world.heap :=
          ⟨hf.stack, hf.locals, hf.frames⟩
        have heff := tick_effect (hB i) (by exact hs.world) hf' htick
        exact heff.acyclic hs.world.closed (hC vm hvm) h
      · cases he
    · cases he
  | resume i v boxes =>
    unfold Server.step at he
    dsimp only at he
    split at he
    · split at he
      · obtain ⟨-, he⟩ := Option.ite_none_right_eq_some.1 he
        cases he
        exact hC
      · cases he
    · cases he

theorem empty_acyclic : Acyclic [] := fun _ => ⟨1, shallow_of_no_box fun _ _ => rfl⟩

theorem run_acyclic (hP : ∀ i, Allocates (P.outside i)) (hB : ∀ i, Builds (P.outside i))
    {es : List Turn} (hr : (server P).run es = some s) (hC : (server P).Meets Loopless es) :
    Acyclic s.world.heap := by
  have hinit : (server P).init.Fits ∧ Acyclic (server P).init.world.heap :=
    ⟨init_fits P, empty_acyclic⟩
  have hstep (s : Server) (e : Turn) (t : Server) (hs : s.Fits ∧ Acyclic s.world.heap)
      (hl : Loopless s e) (he : (server P).step s e = some t) : t.Fits ∧ Acyclic t.world.heap :=
    ⟨(step_stepped hP hs.1 he).fits, step_acyclic hB hs.1 hs.2 hl he⟩
  have hinv : s.Fits ∧ Acyclic s.world.heap := (server P).guarded_induction hinit hstep hC hr
  exact hinv.2

/-- **The operations on values return**: over turns that store nothing in front of the box that
    it is stored in, the three operations have an end on every value. -/
theorem operations_return (P : Project) (hP : ∀ i, Allocates (P.outside i))
    (hB : ∀ i, Builds (P.outside i)) (C : Charconv) (stream : Float → Json.Bytes)
    (es : List Turn) (s : Server) (hr : (server P).run es = some s)
    (hC : (server P).Meets Loopless es) (v : Value) :
    ∃ n, (writeJson? C s.world.heap n v).isSome ∧ (toString? C stream s.world.heap n v).isSome ∧
      ∀ w, (equals? s.world.heap n v w).isSome := by
  obtain ⟨n, hn⟩ := run_acyclic hP hB hr hC v
  exact ⟨n, writeJson?_isSome C hn, toString?_isSome C stream hn, equals?_isSome hn⟩

end Runs

theorem idle_builds (i : ℕ) : Builds (Project.idle.outside i) := fun _ _ _ _ h => h

/-- Conversions for values without doubles. -/
def sinDoubles : Charconv := ⟨fun _ _ => none, fun _ => none⟩

/-- A list is added to another one. -/
theorem operations_return_other :
    ∃ n, (writeJson? sinDoubles [.list [], .list [.int 1]] n (.list 1)).isSome ∧
      (toString? sinDoubles (fun _ => []) [.list [], .list [.int 1]] n (.list 1)).isSome ∧
      ∀ w, (equals? [.list [], .list [.int 1]] n (.list 1) w).isSome :=
  operations_return .idle idle_allocates idle_builds sinDoubles (fun _ => [])
    (.start 0 handlerOther [] [] :: List.replicate 6 (.tick 0)) _ rfl
    (.cons empty_acyclic rfl <|
      .cons (fun _ hvm _ _ ht => by cases hvm; cases ht) rfl <|
      .cons (fun _ hvm _ _ ht => by cases hvm; cases ht) rfl <|
      .cons (fun _ hvm _ _ ht => by cases hvm; cases ht) rfl <|
      .cons (fun _ hvm _ _ ht => by cases hvm; cases ht) rfl <|
      .cons (fun _ hvm _ _ ht => by cases hvm; cases ht) rfl <|
      .cons (fun _ hvm _ _ ht => by
        cases hvm
        cases ht
        rintro (h | ⟨h, -, -, -⟩) <;> cases h) rfl trivial) (.list 1)

/-- `List xs = []`, and then `xs.add(xs)`. -/
def selfAdding : Program where
  routes := [{
    method := "GET"
    body := [
      .varDecl {} "List" "xs" (some (.listLit {} [])),
      .exprStmt {} (.call {} (.member {} (.ident {} "xs") "add") [.ident {} "xs"] [])] }]

/-- One box, which holds a list in that box. -/
def holdsItself : Heap → Bool
  | [.list [.list 0]] => true
  | _ => false

section Itself

variable {heap : Heap} (h : holdsItself heap = true) (n : ℕ)
include h

theorem listAt_holdsItself : listAt heap 0 = [.list 0] := by
  unfold holdsItself at h
  split at h
  · rfl
  · cases h

theorem writeJson?_holdsItself (C : Charconv) : writeJson? C heap n (.list 0) = none := by
  induction n with
  | zero => rfl
  | succ n ih => simp [writeJson?, listAt_holdsItself h, List.mapM_cons, ih]

theorem equals?_holdsItself : equals? heap n (.list 0) (.list 0) = none := by
  induction n with
  | zero => rfl
  | succ n ih => simp [equals?, listAt_holdsItself h, allEqual?, ih]

end Itself

/-- A handler adds a list to itself: the program is compiled, and when the call has returned none
    of the operations on the list has an end. -/
theorem self_added_list :
    ∃ M c s, compile (fun _ _ => .error "") 1 selfAdding = .ok M ∧ M.chunks = [c] ∧
      (server .idle).run (.start 0 c [] [] :: List.replicate 5 (.tick 0)) = some s ∧
      ∀ C stream n, writeJson? C s.world.heap n (.list 0) = none ∧
        toString? C stream s.world.heap n (.list 0) = none ∧
        equals? s.world.heap n (.list 0) (.list 0) = none := by
  have hruns : ((compile (fun _ _ => .error "") 1 selfAdding).toOption.any fun M =>
      M.chunks.length == 1 && M.chunks.any fun c =>
        ((server .idle).run (.start 0 c [] [] :: List.replicate 5 (.tick 0))).any
          fun s => holdsItself s.world.heap) = true := by decide +kernel
  obtain ⟨M, hM, hruns⟩ := ok_of_any hruns
  obtain ⟨hlen, hruns⟩ := Bool.and_eq_true_iff.1 hruns
  obtain ⟨c, hc⟩ := List.length_eq_one_iff.1 (eq_of_beq hlen)
  rw [hc, List.any_cons, List.any_nil, Bool.or_false] at hruns
  obtain ⟨s, hs, hheap⟩ := (Option.any_eq_true _ _).1 hruns
  exact ⟨M, c, s, hM, hc, hs, fun C stream n =>
    ⟨writeJson?_holdsItself hheap n C, writeJson?_holdsItself hheap n C,
      equals?_holdsItself hheap n⟩⟩

end Osodio.Odio
