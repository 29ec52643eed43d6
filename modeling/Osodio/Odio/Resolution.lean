import Mathlib.Data.List.Forall2
import Osodio.Odio.Chunks
import Osodio.Odio.Calls
import Osodio.Odio.Semantics

/-!
# Names and what they refer to

The emitter knows locals where the meaning of a program has variables, and signatures where it has
declarations.  Both find the same.

## Main definitions

- `Held` — slots hold the values of the variables in scope
- `Alike` — two scopes declare their names with the same types
- `Callee.Denotes` — a signature stands for a declaration

## Main results

- `Held.value`, `Held.assign` — the slot of a variable
- `resolveCall_denotes` — the emitter finds the target of a call
-/

namespace Osodio.Odio

/-! ## Slots -/

/-- The slots `f` of the locals `Γ` hold the variables in scope, and `αs` in those that the emitter
    made up. -/
inductive Held (f : ℕ → Value) : List Local → Scope → List Value → Prop where
  | nil : Held f [] [] []
  | user {Γ vars αs name type d v} (h : Held f Γ vars αs) (hv : f Γ.length = v) :
      Held f (⟨.user name, d, type⟩ :: Γ) (⟨name, type, v⟩ :: vars) αs
  | aux {Γ vars αs name d v} (h : Held f Γ vars αs) (hv : f Γ.length = v) :
      Held f (auxLocal d name :: Γ) vars (v :: αs)

section Slots

variable {f g : ℕ → Value} {Γ Γ' : List Local} {vars vars' : Scope} {αs : List Value} {name : String}
  {slot : ℕ} {v : Value}

/-- Only the slots of the locals matter. -/
theorem Held.congr (h : Held f Γ vars αs) (hg : ∀ k < Γ.length, g k = f k) : Held g Γ vars αs := by
  induction h with
  | nil => exact .nil
  | user _ hv ih =>
    refine .user (ih fun k hk => hg k ?_) ((hg _ ?_).trans hv)
    · exact Nat.lt_succ_of_lt hk
    · exact Nat.lt_succ_self _
  | aux _ hv ih =>
    refine .aux (ih fun k hk => hg k ?_) ((hg _ ?_).trans hv)
    · exact Nat.lt_succ_of_lt hk
    · exact Nat.lt_succ_self _

/-- A slot behind those of the locals is free. -/
theorem Held.update (h : Held f Γ vars αs) (hs : Γ.length ≤ slot) :
    Held (Function.update f slot v) Γ vars αs :=
  h.congr fun k hk => Function.update_of_ne (by omega) _ _

/-- A new variable, or a new slot of the emitter. -/
theorem Held.declare {d : ℕ} {type : String} (h : Held f Γ vars αs) :
    Held (Function.update f Γ.length v) (⟨.user name, d, type⟩ :: Γ) (⟨name, type, v⟩ :: vars) αs :=
  .user (h.update le_rfl) (Function.update_self ..)

theorem Held.declareAux {d : ℕ} (h : Held f Γ vars αs) :
    Held (Function.update f Γ.length v) (auxLocal d name :: Γ) vars (v :: αs) :=
  .aux (h.update le_rfl) (Function.update_self ..)

theorem Held.tail {d : ℕ} {type : String} (h : Held f (⟨.user name, d, type⟩ :: Γ) vars αs) :
    Held f Γ vars.tail αs := by
  cases h with
  | user h _ => exact h

theorem Held.auxTail {d : ℕ} {αs : List Value} (h : Held f (auxLocal d name :: Γ) vars (v :: αs)) :
    Held f Γ vars αs ∧ f Γ.length = v := by
  cases h with
  | aux h hv => exact ⟨h, hv⟩

theorem Held.count (h : Held f Γ vars αs) : vars.length + αs.length = Γ.length := by
  induction h with
  | nil => rfl
  | user _ _ ih | aux _ _ ih =>
    simp only [List.length_cons]
    omega

theorem Held.length_eq (h : Held f Γ vars αs) (h' : Held g Γ vars' αs) :
    vars'.length = vars.length := by
  have hcount := h.count
  have hcount' := h'.count
  omega

theorem findLocal_cons {l : Local} {x : LocalName} : findLocal x (l :: Γ) =
    if l.name = x then some (Γ.length, l.type) else findLocal x Γ := rfl

/-- **A name is found** in the slot of the newest variable with it. -/
theorem Held.find (h : Held f Γ vars αs) (name : String) :
    Option.Rel (fun l x => f l.1 = x.value ∧ l.2 = x.type) (findLocal (.user name) Γ)
      (vars.var name) := by
  induction h with
  | nil => exact .none
  | @user Γ vars αs n type d v h hv ih =>
    by_cases hn : n = name
    · subst hn
      have hvar : Scope.var (⟨n, type, v⟩ :: vars) n = some ⟨n, type, v⟩ := by simp [Scope.var]
      rw [findLocal_cons, if_pos rfl, hvar]
      exact .some ⟨hv, rfl⟩
    · have hvar : Scope.var (⟨n, type, v⟩ :: vars) name = vars.var name := by simp [Scope.var, hn]
      rw [findLocal_cons, if_neg (fun he => hn (LocalName.user.inj he)), hvar]
      exact ih
  | aux h hv ih => exact ih

/-- The slot that a name resolves to holds its variable. -/
theorem Held.value {x : Variable} (h : Held f Γ vars αs) (hs : resolveLocal Γ name = some slot)
    (hx : vars.var name = some x) : f slot = x.value := by
  have hfind := h.find name
  obtain ⟨l, hl, rfl⟩ := Option.map_eq_some_iff.1 hs
  rw [hl, hx] at hfind
  cases hfind with
  | some h => exact h.1

/-- **An assignment** to the slot that a name resolves to. -/
theorem Held.assign (h : Held f Γ vars αs) (hs : resolveLocal Γ name = some slot) :
    Held (Function.update f slot v) Γ (vars.assign name v) αs := by
  induction h with
  | nil => cases hs
  | @user Γ vars αs n type d u h hv ih =>
    by_cases hn : n = name
    · subst hn
      have hslot : slot = Γ.length := by
        rw [resolveLocal, findLocal_cons, if_pos rfl] at hs
        exact (Option.some.inj hs).symm
      have hassign : Scope.assign n v (⟨n, type, u⟩ :: vars) = ⟨n, type, v⟩ :: vars := if_pos rfl
      rw [hslot, hassign]
      exact h.declare
    · have hs' : resolveLocal Γ name = some slot := by
        rwa [resolveLocal, findLocal_cons, if_neg (fun he => hn (LocalName.user.inj he))] at hs
      have hassign : Scope.assign name v (⟨n, type, u⟩ :: vars) =
          ⟨n, type, u⟩ :: vars.assign name v := if_neg hn
      rw [hassign]
      refine .user (ih hs') ?_
      rw [Function.update_of_ne (Nat.ne_of_gt (resolveLocal_lt hs'))]
      exact hv
  | @aux Γ vars αs n d u h hv ih =>
    have hs' : resolveLocal Γ name = some slot := hs
    refine .aux (ih hs') ?_
    rw [Function.update_of_ne (Nat.ne_of_gt (resolveLocal_lt hs'))]
    exact hv

/-- What a block has declared is dropped at its end. -/
theorem Held.leave {opened : Scope} (h : Held f Γ vars αs)
    (hΓ : Γ' = Γ ∨ ∃ d name type, Γ' = ⟨.user name, d, type⟩ :: Γ)
    (ho : Held g Γ' opened αs) {k : ℕ → Value} (hi : Held k Γ' vars' αs) :
    Held k Γ (vars.leave opened vars') αs := by
  rcases hΓ with rfl | ⟨d, name, type, rfl⟩
  · rw [Scope.leave, h.length_eq ho, Nat.sub_self]
    exact hi
  · have hlen := h.length_eq ho.tail
    have hone : opened.length - vars.length = 1 := by
      cases ho with
      | user ho _ =>
        simp only [List.tail_cons, List.length_cons] at hlen ⊢
        omega
    rw [Scope.leave, hone, List.drop_one]
    exact hi.tail

end Slots

/-! ## Types -/

/-- Two scopes declare their names with the same types. -/
def Alike (Γ Δ : List Local) : Prop :=
  ∀ name, (findLocal (.user name) Γ).map Prod.snd = (findLocal (.user name) Δ).map Prod.snd

section Types

variable {f : ℕ → Value} {Γ Δ : List Local} {vars : Scope} {αs : List Value}

theorem Scope.type_locals (vars : Scope) (name : String) :
    (findLocal (.user name) vars.locals).map Prod.snd = (vars.var name).map (·.type) := by
  induction vars with
  | nil => rfl
  | cons x vars ih =>
    have hcons : Scope.locals (x :: vars) = ⟨.user x.name, 0, x.type⟩ :: Scope.locals vars := rfl
    rw [hcons, findLocal_cons]
    by_cases hn : x.name = name
    · subst hn
      simp [Scope.var]
    · have hvar : Scope.var (x :: vars) name = Scope.var vars name := by simp [Scope.var, hn]
      rw [if_neg (fun he => hn (LocalName.user.inj he)), hvar, ih]

theorem Held.alike (h : Held f Γ vars αs) : Alike Γ vars.locals := by
  intro name
  rw [vars.type_locals]
  have hfind := h.find name
  generalize findLocal (.user name) Γ = l at hfind
  generalize vars.var name = x at hfind
  cases hfind with
  | none => rfl
  | some h => exact congrArg some h.2

theorem Alike.localType (h : Alike Γ Δ) (name : String) : localType Γ name = localType Δ name :=
  congrArg (·.getD "") (h name)

theorem Alike.isNone (h : Alike Γ Δ) (name : String) :
    (resolveLocal Γ name).isNone = (resolveLocal Δ name).isNone := by
  have hsome := congrArg Option.isNone (h name)
  simpa only [resolveLocal, Option.isNone_map] using hsome

theorem Alike.reservedObject (h : Alike Γ Δ) (e : Expr) :
    reservedObject Γ e = reservedObject Δ e := by
  cases e with
  | ident loc obj => simp only [Odio.reservedObject, h.isNone]
  | _ => rfl

theorem Alike.tipoDe (h : Alike Γ Δ) (e : Expr) : tipoDe Γ e = tipoDe Δ e := by
  induction e using tipoDe.induct Γ with
  | case5 loc name => exact h.localType name
  | case6 loc => exact h.localType "this"
  | case7 loc mloc recv name args named tipo m hm ih => simp only [Odio.tipoDe, ih]
  | case8 loc mloc recv name args named tipo hm ih => simp only [Odio.tipoDe, ih]
  | case9 e => simp only [Odio.tipoDe, *]
  | _ => rfl

end Types

/-! ## Signatures -/

/-- The signature of a function or of a method stands for its declaration, whose body is `mk`. -/
structure Signs (table : List Body) (mk : FnDecl → Body) (d : FnDecl) (s : String × FnSig) :
    Prop where
  name : s.1 = d.name
  body : table[s.2.index]? = some (mk d)
  defaults : s.2.defaults = d.params.map Param.default

/-- The entry of a constructor. -/
structure SignsCtor (table : List Body) (c : ClassDecl) (d : CtorDecl) (s : ℕ × ℕ) : Prop where
  arity : s.1 = d.params.length
  body : table[s.2]? = some (.ctor c.name c.fieldNames d)

/-- The signature of a class. -/
structure SignsClass (table : List Body) (c : ClassDecl) (s : String × ClassSig) : Prop where
  name : s.1 = c.name
  methods : List.Forall₂ (Signs table (.method c.name)) c.methods s.2.methods
  ctors : List.Forall₂ (SignsCtor table c) c.allCtors s.2.ctors

/-- Signatures that stand for the declarations of a program. -/
structure Program.Signed (p : Program) (fns : FunctionSigs) (cls : ClassSigs) : Prop where
  functions : List.Forall₂ (Signs p.table .function) p.functions fns
  classes : List.Forall₂ (SignsClass p.table) p.classes cls

section Signatures

variable {p : Program} {table : List Body} {index : ℕ}

/-- What is looked up among entries in the order of declarations is the entry of the declaration that
    is found. -/
theorem lookup_rel {α β κ : Type} [BEq κ] [LawfulBEq κ] {key : α → κ} {R : α → κ × β → Prop}
    {ds : List α} {entries : List (κ × β)} (hkey : ∀ d s, R d s → s.1 = key d)
    (h : List.Forall₂ R ds entries) (k : κ) :
    Option.Rel (fun d s => R d (k, s)) (ds.find? (key · == k)) (entries.lookup k) := by
  induction h with
  | nil => exact .none
  | @cons d s ds entries hd _ ih =>
    obtain ⟨k', s⟩ := s
    obtain rfl : k' = key d := hkey d _ hd
    rw [List.find?_cons, List.lookup_cons]
    by_cases hk : key d = k
    · subst hk
      simpa using hd
    · have hne : (k == key d) = false := beq_false_of_ne fun he => hk he.symm
      rw [beq_false_of_ne hk, hne]
      exact ih

theorem makeSig_defaults {params : List Param} {sig : FnSig} (h : makeSig index params = .ok sig) :
    sig.index = index ∧ sig.defaults = params.map Param.default := by
  simp only [makeSig, bind, Except.bind] at h
  split at h
  · cases h
  · cases h
    exact ⟨rfl, rfl⟩

/-- Signatures that are made one after the other. -/
theorem signs_of_cons {F : ℕ → List FnDecl → Except Diagnostic FunctionSigs}
    {mk : FnDecl → Body} (hnil : ∀ i, F i [] = .ok [])
    (hcons : ∀ {i d ds sigs}, F i (d :: ds) = .ok sigs → ∃ sig rest,
      makeSig i d.params = .ok sig ∧ F (i + 1) ds = .ok rest ∧ sigs = (d.name, sig) :: rest)
    {ds : List FnDecl} {sigs : FunctionSigs} (h : F index ds = .ok sigs)
    (ht : ∀ k d, ds[k]? = some d → table[index + k]? = some (mk d)) :
    List.Forall₂ (Signs table mk) ds sigs := by
  induction ds generalizing index sigs with
  | nil =>
    cases (hnil index).symm.trans h
    exact .nil
  | cons d ds ih =>
    obtain ⟨sig, rest, hsig, hrest, rfl⟩ := hcons h
    obtain ⟨hi, hd⟩ := makeSig_defaults hsig
    refine .cons ⟨rfl, ?_, hd⟩ (ih hrest fun k e he => ?_)
    · rw [hi]
      exact ht 0 d rfl
    · rw [Nat.add_assoc, Nat.add_comm 1 k]
      exact ht (k + 1) e he

theorem ctorSigs_signs {c : ClassDecl} {cls : String} {ds : List CtorDecl} {sigs : List (ℕ × ℕ)}
    (h : ctorSigs cls index ds = .ok sigs)
    (ht : ∀ k d, ds[k]? = some d → table[index + k]? = some (.ctor c.name c.fieldNames d)) :
    List.Forall₂ (SignsCtor table c) ds sigs := by
  induction ds generalizing index sigs with
  | nil =>
    cases h
    exact .nil
  | cons d ds ih =>
    obtain ⟨rest, hrest, rfl⟩ := ctorSigs_cons h
    refine .cons ⟨rfl, ht 0 d rfl⟩ (ih hrest fun k e he => ?_)
    rw [Nat.add_assoc, Nat.add_comm 1 k]
    exact ht (k + 1) e he

theorem classSigs_signs {cs : List ClassDecl} {sigs : ClassSigs} (h : classSigs index cs = .ok sigs)
    (ht : ∀ k b, (cs.flatMap ClassDecl.bodies)[k]? = some b → table[index + k]? = some b) :
    List.Forall₂ (SignsClass table) cs sigs := by
  induction cs generalizing index sigs with
  | nil =>
    cases h
    exact .nil
  | cons c cs ih =>
    obtain ⟨methods, ctors, rest, hm, hc, hrest, rfl⟩ := classSigs_cons h
    have hown : ∀ k b, c.bodies[k]? = some b → table[index + k]? = some b := by
      intro k b hb
      refine ht k b ?_
      rw [List.flatMap_cons, List.getElem?_append_left (List.getElem?_eq_some_iff.1 hb).1]
      exact hb
    refine .cons ⟨rfl, ?_, ?_⟩ (ih hrest fun k b hb => ?_)
    · refine signs_of_cons (F := methodSigs c.name) (fun i => rfl) methodSigs_cons hm ?_
      intro k m hk
      refine hown k _ ?_
      have hlt := (List.getElem?_eq_some_iff.1 hk).1
      rw [ClassDecl.bodies, List.getElem?_append_left (by simpa using hlt), List.getElem?_map, hk]
      rfl
    · refine ctorSigs_signs hc fun k d hk => ?_
      rw [Nat.add_assoc]
      refine hown _ _ ?_
      rw [ClassDecl.bodies, List.getElem?_append_right (by simp), List.length_map,
        Nat.add_sub_cancel_left, List.getElem?_map, hk]
      rfl
    · rw [Nat.add_assoc]
      refine ht _ b ?_
      rw [List.flatMap_cons, List.getElem?_append_right (by simp [length_bodies]), length_bodies,
        Nat.add_sub_cancel_left]
      exact hb

/-- **The tables of a program that compiles** stand for its declarations. -/
theorem Program.signed {fns : FunctionSigs} {cls : ClassSigs}
    (hf : functionSigs 0 p.functions = .ok fns)
    (hc : classSigs p.functions.length p.classes = .ok cls) : p.Signed fns cls := by
  constructor
  · refine signs_of_cons (fun i => rfl) functionSigs_cons hf fun k f hk => ?_
    have hlt := (List.getElem?_eq_some_iff.1 hk).1
    rw [Nat.zero_add, Program.table, List.getElem?_append_left (by simpa using hlt),
      List.getElem?_map, hk]
    rfl
  · refine classSigs_signs hc fun k b hb => ?_
    rw [Program.table, List.getElem?_append_right (by simp), List.length_map,
      Nat.add_sub_cancel_left]
    exact hb

end Signatures

/-! ## Calls -/

/-- What the emitter calls is the target of the call. -/
inductive Callee.Denotes (table : List Body) (object : Expr) : Callee → Callable → Prop where
  | native {id name} : Denotes table object (.native id name) (.native id name)
  | modulo {id obj member} : Denotes table object (.modulo id obj member) (.modulo id obj)
  | function {name sig fn} (h : Signs table .function fn (name, sig)) :
      Denotes table object (.function name sig) (.function fn)
  | ctor {name sig c} (h : SignsClass table c (name, sig)) :
      Denotes table object (.ctor name sig) (.ctor c)
  | method {type name sig recv c m} (hr : object.receiver = some recv)
      (h : Signs table (.method c.name) m (name, sig)) :
      Denotes table object (.method type name sig) (.method recv c m)
  | dynamic {name recv} (hr : object.receiver = some recv) :
      Denotes table object (.dynamic name) (.dynamic recv name)

section Calls

variable {p : Program} {b : Body} {X : Emitter} {fns : FunctionSigs} {cls : ClassSigs}
  {imports : List String} {compilar : PlantillaCompiler} {Γ : List Local} {vars : Scope}
  {loc : SourceLoc} {object recv : Expr} {args named : ℕ} {awaited : Bool} {callee : Callee}

/-- The classes that the emitter of a body knows are those that are visible in it. -/
theorem Program.Signed.visible (hS : p.Signed fns cls) (imports : List String)
    (compilar : PlantillaCompiler) (b : Body) :
    List.Forall₂ (SignsClass p.table) (p.classesOf b)
      ((Body.emitter fns cls imports compilar b).classes.getD []) := by
  cases b with
  | function fn => exact .nil
  | _ => exact hS.classes

/-- The class of a receiver is that of its variable. -/
theorem Program.Signed.receiver (hS : p.Signed fns cls) (imports : List String)
    (compilar : PlantillaCompiler) (b : Body) (hΓ : Alike Γ vars.locals) (recv : Expr) :
    Option.Rel (SignsClass p.table) (p.classOf b vars recv)
      (receiverClass (Body.emitter fns cls imports compilar b) Γ recv) := by
  have hclass : ∀ name, Option.Rel (SignsClass p.table)
      (if localType vars.locals name = "" then none else
        (p.classesOf b).find? (·.name == localType vars.locals name))
      (if localType Γ name = "" then none else
        (((Body.emitter fns cls imports compilar b).classes.getD []).lookup (localType Γ name)).map
          (localType Γ name, ·)) := by
    intro name
    rw [hΓ.localType]
    have hrel := lookup_rel (fun c s (h : SignsClass p.table c s) => h.name)
      (hS.visible imports compilar b) (localType vars.locals name)
    by_cases htype : localType vars.locals name = ""
    · rw [if_pos htype, if_pos htype]
      exact .none
    · rw [if_neg htype, if_neg htype]
      revert hrel
      generalize (p.classesOf b).find? _ = c
      generalize List.lookup (localType vars.locals name) _ = s
      rintro (h | -)
      · exact .some h
      · exact .none
  cases recv with
  | ident iloc name => exact hclass name
  | this tloc => exact hclass "this"
  | _ => exact .none

/-- **The emitter finds the target of a call.** -/
theorem resolveCall_denotes (hS : p.Signed fns cls)
    (hX : X = Body.emitter fns cls imports compilar b) (hΓ : Alike Γ vars.locals)
    (h : resolveCall X Γ loc object args named awaited = .ok callee) :
    ∃ T, p.target b vars object = some T ∧ callee.Denotes p.table object T := by
  subst hX
  cases object with
  | member mloc recv name =>
    simp only [resolveCall, hΓ.reservedObject] at h
    simp only [Program.target]
    cases hobj : reservedObject vars.locals recv with
    | some obj =>
      rw [hobj] at h
      cases hid : memberNativeId obj name with
      | none =>
        simp only [hid] at h
        cases h
      | some id =>
        simp only [hid, Option.map_some] at h ⊢
        by_cases hdb : isDbModule obj = true
        · rw [if_pos hdb] at h ⊢
          split_ifs at h
          · cases h
            exact ⟨_, rfl, .modulo⟩
        · rw [if_neg hdb] at h ⊢
          cases hr : comprobarObjeto (Body.emitter fns cls imports compilar b) obj mloc with
          | error d =>
            rw [hr] at h
            cases h
          | ok u =>
            rw [hr] at h
            cases h
            exact ⟨_, rfl, .native⟩
    | none =>
      rw [hobj] at h
      -- a member that no class of the receiver has is found when the call is executed
      have hdynamic : ∀ {r : Except Diagnostic Unit}, (do r; return Callee.dynamic name) = .ok callee →
          callee = .dynamic name := by
        intro r hr
        cases r with
        | error d => cases hr
        | ok u =>
          cases hr
          rfl
      have hrel := hS.receiver imports compilar b hΓ recv
      revert h hrel
      generalize p.classOf b vars recv = c
      generalize receiverClass _ Γ recv = s
      rintro h (@⟨c, ⟨type, sig⟩, hc⟩ | -)
      · simp only at h
        have hm := lookup_rel (fun d s (h : Signs p.table (.method c.name) d s) => h.name)
          hc.methods name
        revert h hm
        generalize hfind : c.methods.find? _ = m
        generalize List.lookup name sig.methods = msig
        rintro h (hm | -)
        · cases h
          refine ⟨_, ?_, .method rfl hm⟩
          simp only [Option.bind_some, hfind, Option.map_some]
        · simp only at h
          have hc' : callee = .dynamic name := by
            split_ifs at h
            exact hdynamic h
          subst hc'
          refine ⟨_, ?_, .dynamic rfl⟩
          simp only [Option.bind_some, hfind, Option.map_none]
      · obtain rfl := hdynamic h
        exact ⟨_, rfl, .dynamic rfl⟩
  | ident iloc name =>
    simp only [resolveCall] at h
    simp only [Program.target]
    cases hid : nativeId name with
    | some id =>
      simp only [hid] at h
      cases h
      exact ⟨_, rfl, .native⟩
    | none =>
      simp only [hid] at h
      have hf := lookup_rel (fun d s (h : Signs p.table .function d s) => h.name) hS.functions name
      have hc := lookup_rel (fun c s (h : SignsClass p.table c s) => h.name)
        (hS.visible imports compilar b) name
      have hfns : (Body.emitter fns cls imports compilar b).functions.getD [] = fns := rfl
      rw [hfns] at h
      revert h hf hc
      generalize p.functions.find? _ = fn
      generalize List.lookup name fns = sig
      generalize (p.classesOf b).find? _ = c
      generalize List.lookup name _ = s
      rintro h (hf | -)
      · rintro -
        cases h
        exact ⟨_, rfl, .function hf⟩
      · rintro (hc | -)
        · cases h
          exact ⟨_, rfl, .ctor hc⟩
        · cases h
  | _ => cases h

end Calls

end Osodio.Odio
