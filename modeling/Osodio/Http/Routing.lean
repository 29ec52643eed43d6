import Mathlib.Data.List.Nodup
import Osodio.Http.Router

/-!
# What the router finds

The search goes down the tree with backtracking, and keeps one table of parameters
that it changes on the way.  The tree is read back as the list of the routes that
were registered, and the result of the search is stated in terms of that list.

## Main definitions

- `Matches`, `Before` — what a pattern matches, and which pattern goes first
- `Chosen` — the route that serves a request
- `NamesAgree` — the names of parameters do not get in each other's way

## Main results

- `tells_addAll` — the tree holds the registered routes
- `matchRecursive_spec` — what the search finds below a node
- `match_spec` — the router serves a request with the right route
-/

namespace Osodio.Http

section Tree

variable {H : Type}

/-! ## What the routes say

The rest of the module speaks of the routes as a list, and of a pattern as the
keys of its segments. -/

/-- A route that was registered. -/
structure Route (H : Type) where
  segs : List String
  method : String
  handler : H
  deriving DecidableEq, Repr

def Route.keys (r : Route H) : List Key := r.segs.map keyOf

/-- The route of a registration that does not throw. -/
def Registration.route (reg : Registration H) : Option (Route H) :=
  match normalizePattern reg.pattern with
  | .ok norm => some ⟨splitPath norm, upper reg.method, reg.handler⟩
  | .error _ => none

def routesOf (regs : List (Registration H)) : List (Route H) := regs.filterMap (·.route)

/-- A pattern matches the segments of a path.  A wildcard in the middle of a
    pattern matches nothing. -/
def Matches : List Key → List String → Prop
  | [], [] => True
  | .static seg :: ks, seg' :: rest => seg = seg' ∧ Matches ks rest
  | .param :: ks, _ :: rest => Matches ks rest
  | [.wildcard], _ :: _ => True
  | _, _ => False

def Key.rank : Key → ℕ
  | static _ => 0
  | param => 1
  | wildcard => 2

/-- From left to right, static goes before parameter before wildcard. -/
def Before : List Key → List Key → Prop
  | k :: ks, k' :: ks' => k.rank < k'.rank ∨ (k.rank = k'.rank ∧ Before ks ks')
  | _, _ => False

/-- The route is one for the method and for the path. -/
def Route.Serves (r : Route H) (method : String) (segs : List String) : Prop :=
  Matches r.keys segs ∧ (r.method = method ∨ r.method = "*")

/-- The route that serves a request: the first in the order of the patterns; with
    the method itself, rather than with `*`; and the last one registered so. -/
structure Chosen (routes : List (Route H)) (method : String) (segs : List String)
    (r : Route H) : Prop where
  serves : r.Serves method segs
  least : ∀ r' ∈ routes, r'.Serves method segs → r'.keys = r.keys ∨ Before r.keys r'.keys
  specific : r.method ≠ method → ∀ r' ∈ routes, r'.keys = r.keys → r'.method ≠ method
  last : ∃ pre post, routes = pre ++ r :: post ∧
    ∀ r' ∈ post, r'.keys = r.keys → r'.method ≠ r.method

/-- The parameters of a pattern, each with the segment at its position. -/
def bindings : List String → List String → Params
  | seg :: segs, value :: rest =>
    if keyOf seg = .param then (nameOf seg, value) :: bindings segs rest else bindings segs rest
  | _, _ => []

/-- The names of the parameters of a pattern. -/
def paramNames (segs : List String) : List String :=
  (segs.filter fun seg => keyOf seg = .param).map nameOf

/-- No pattern uses a name twice, and patterns that share a parameter name it alike. -/
structure NamesAgree (routes : List (Route H)) : Prop where
  nodup : ∀ r ∈ routes, (paramNames r.segs).Nodup
  shared : ∀ r ∈ routes, ∀ r' ∈ routes, ∀ pre pre' seg seg', pre ++ [seg] <+: r.segs →
    pre' ++ [seg'] <+: r'.segs → pre.map keyOf = pre'.map keyOf → keyOf seg = .param →
    keyOf seg' = .param → nameOf seg = nameOf seg'

/-! ## The nodes of the tree -/

/-- The other keys of an association list, when those of one key go. -/
theorem lookup_filter_ne {κ α : Type} [BEq κ] [LawfulBEq κ] [DecidableEq κ] {m m' : κ}
    (hm : m' ≠ m) (hs : List (κ × α)) :
    (hs.filter fun p => p.1 ≠ m).lookup m' = hs.lookup m' := by
  induction hs with
  | nil => rfl
  | cons p hs ih =>
    obtain ⟨q, x⟩ := p
    by_cases hq : q = m
    · have hb : (m' == q) = false := by simpa [hq] using hm
      rw [List.filter_cons_of_neg (by simpa using hq), List.lookup_cons, hb, ih]
    · rw [List.filter_cons_of_pos (by simpa using hq), List.lookup_cons, List.lookup_cons, ih]

namespace Node

/-- The child of a segment. -/
def child (n : Node H) (k : Key) : Option (Node H) := n.children.find? (·.hasKey k)

/-- The node below some segments. -/
def walk : Node H → List Key → Option (Node H)
  | n, [] => some n
  | n, k :: ks => (n.child k).bind fun c => c.walk ks

theorem hasKey_unique {n : Node H} {k k' : Key} (h : n.hasKey k) (h' : n.hasKey k') :
    k = k' := by
  cases k <;> cases k' <;> simp_all [hasKey]

@[simp] theorem type_add (n : Node H) (segs : List String) (m : String) (h : H) :
    (n.add segs m h).type = n.type := by
  cases n
  cases segs <;> rfl

@[simp] theorem segment_add (n : Node H) (segs : List String) (m : String) (h : H) :
    (n.add segs m h).segment = n.segment := by
  cases n
  cases segs <;> rfl

@[simp] theorem hasKey_add (n : Node H) (segs : List String) (m : String) (h : H) (k : Key) :
    (n.add segs m h).hasKey k = n.hasKey k := by
  cases k <;> simp [hasKey]

theorem find?_modifyChild {k : Key} {fresh : Node H} {f : Node H → Node H}
    (hfresh : fresh.hasKey k) (hf : ∀ c k', (f c).hasKey k' = c.hasKey k') (k' : Key)
    (cs : List (Node H)) : (modifyChild k fresh f cs).find? (·.hasKey k') =
      if k' = k then some (f ((cs.find? (·.hasKey k)).getD fresh))
      else cs.find? (·.hasKey k') := by
  induction cs with
  | nil =>
    by_cases hk : k' = k
    · subst hk
      simp [modifyChild, hf, hfresh]
    · have hn : fresh.hasKey k' = false := by
        by_contra hc
        exact hk (hasKey_unique (by simpa using hc) hfresh)
      simp [modifyChild, hf, hk, hn]
  | cons c cs ih =>
    by_cases hc : c.hasKey k = true
    · by_cases hk : k' = k
      · subst hk
        simp [modifyChild, hc, hf]
      · have hn : c.hasKey k' = false := by
          by_contra hn
          exact hk (hasKey_unique (by simpa using hn) hc)
        simp [modifyChild, hc, hf, hk, hn]
    · have hc : c.hasKey k = false := by simpa using hc
      by_cases hk : k' = k
      · subst hk
        simp [modifyChild, hc, ih]
      · simp only [modifyChild, hc, Bool.false_eq_true, if_false, List.find?_cons, ih, if_neg hk]

theorem hasKey_fresh (seg : String) : (fresh seg : Node H).hasKey (keyOf seg) := by
  cases hk : keyOf seg with
  | static s =>
    have hs : nameOf seg = seg := by simp [nameOf, hk]
    have he : s = seg := by
      unfold keyOf at hk
      split_ifs at hk
      exact (Key.static.inj hk).symm
    simp [hasKey, fresh, type, segment, hk, hs, he, Key.type]
  | param => simp [hasKey, fresh, type, hk, Key.type]
  | wildcard => simp [hasKey, fresh, type, hk, Key.type]

theorem child_add (n : Node H) (seg : String) (segs : List String) (m : String) (h : H)
    (k : Key) : (n.add (seg :: segs) m h).child k =
      if k = keyOf seg then some (((n.child (keyOf seg)).getD (fresh seg)).add segs m h)
      else n.child k := by
  cases n
  exact find?_modifyChild (hasKey_fresh seg) (fun c k' => hasKey_add c segs m h k') k _

/-- The handler below some segments for exactly a method. -/
def handlerAt (n : Node H) (ks : List Key) (m : String) : Option H :=
  (n.walk ks).bind fun c => c.handlers.lookup m

theorem lookup_setHandler (m m' : String) (h : H) (hs : List (String × H)) :
    (setHandler m h hs).lookup m' = if m' = m then some h else hs.lookup m' := by
  by_cases hm : m' = m
  · simp [setHandler, hm]
  · have hb : (m' == m) = false := by simpa using hm
    rw [setHandler, List.lookup_cons, hb, if_neg hm]
    exact lookup_filter_ne hm hs

theorem walk_fresh (seg : String) (ks : List Key) :
    (fresh seg : Node H).walk ks = if ks = [] then some (fresh seg) else none := by
  cases ks with
  | nil => rfl
  | cons k ks => rfl

/-- A registration sets the handler of its pattern and method, and no other. -/
theorem handlerAt_add (n : Node H) (segs : List String) (m : String) (h : H) (ks : List Key)
    (m' : String) : (n.add segs m h).handlerAt ks m' =
      if ks = segs.map keyOf ∧ m' = m then some h else n.handlerAt ks m' := by
  induction segs generalizing n ks with
  | nil =>
    cases n with
    | mk segment type hs cs =>
      cases ks with
      | nil => simp [handlerAt, walk, add, handlers, lookup_setHandler]
      | cons k ks => rfl
  | cons seg segs ih =>
    cases ks with
    | nil =>
      cases n
      rfl
    | cons k ks =>
      by_cases hk : k = keyOf seg
      · subst hk
        have hw : (n.add (seg :: segs) m h).walk (keyOf seg :: ks) =
            (((n.child (keyOf seg)).getD (fresh seg)).add segs m h).walk ks := by
          simp [walk, child_add]
        have hs : ((n.child (keyOf seg)).getD (fresh seg)).handlerAt ks m' =
            n.handlerAt (keyOf seg :: ks) m' := by
          unfold handlerAt
          cases hc : n.child (keyOf seg) with
          | none =>
            simp only [Option.getD_none, walk_fresh, walk, hc, Option.bind_none]
            split <;> rfl
          | some c => simp [walk, hc]
        rw [handlerAt, hw]
        refine (ih _ ks).trans ?_
        rw [hs]
        simp
      · have hw : (n.add (seg :: segs) m h).walk (k :: ks) = n.walk (k :: ks) := by
          simp [walk, child_add, hk]
        simp [handlerAt, hw, hk]

/-- The node below some segments is called after a pattern that goes there. -/
theorem walk_add_segment {n c : Node H} {segs : List String} {m : String} {h : H}
    {ks : List Key} {k : Key} (hc : (n.add segs m h).walk (ks ++ [k]) = some c) :
    (∃ c', n.walk (ks ++ [k]) = some c' ∧ c'.segment = c.segment) ∨
      ∃ pre seg, pre ++ [seg] <+: segs ∧ pre.map keyOf = ks ∧ keyOf seg = k ∧
        c.segment = nameOf seg := by
  induction segs generalizing n ks with
  | nil =>
    refine .inl ⟨c, ?_, rfl⟩
    cases n
    cases ks <;> exact hc
  | cons seg segs ih =>
    cases ks with
    | nil =>
      simp only [List.nil_append, walk, child_add] at hc ⊢
      by_cases hk : k = keyOf seg
      · simp only [if_pos hk, Option.bind_some, Option.some.injEq] at hc
        subst hc hk
        cases hn : n.child (keyOf seg) with
        | none =>
          exact .inr ⟨[], seg, ⟨segs, rfl⟩, rfl, rfl, segment_add _ segs m h⟩
        | some c' => exact .inl ⟨c', rfl, by simp⟩
      · rw [if_neg hk] at hc
        exact .inl ⟨c, hc, rfl⟩
    | cons k' ks =>
      simp only [List.cons_append, walk, child_add] at hc ⊢
      by_cases hk : k' = keyOf seg
      · simp only [if_pos hk, Option.bind_some] at hc
        rcases ih hc with ⟨c', hc', hs⟩ | ⟨pre, seg', hp, hks, hk', hs⟩
        · cases hn : n.child (keyOf seg) with
          | none =>
            rw [hn, Option.getD_none, walk_fresh, if_neg (by simp)] at hc'
            cases hc'
          | some d =>
            rw [hn, Option.getD_some] at hc'
            exact .inl ⟨c', by rw [hk, hn]; exact hc', hs⟩
        · refine .inr ⟨seg :: pre, seg', ?_, ?_, hk', hs⟩
          · exact (List.cons_prefix_cons.2 ⟨rfl, hp⟩)
          · rw [List.map_cons, hks, hk]
      · rw [if_neg hk] at hc
        exact .inl ⟨c, hc, rfl⟩

end Node

/-! ## The tree of a list of routes -/

/-- The last route with some keys and exactly a method. -/
def lastRoute (routes : List (Route H)) (ks : List Key) (m : String) : Option (Route H) :=
  routes.reverse.find? fun r => r.keys = ks ∧ r.method = m

/-- What a tree says of the routes that were registered. -/
structure Tells (n : Node H) (routes : List (Route H)) : Prop where
  handler : ∀ ks m, n.handlerAt ks m = (lastRoute routes ks m).map (·.handler)
  named : ∀ ks k c, n.walk (ks ++ [k]) = some c → ∃ r ∈ routes, ∃ pre seg,
    pre ++ [seg] <+: r.segs ∧ pre.map keyOf = ks ∧ keyOf seg = k ∧ c.segment = nameOf seg

theorem Tells.add {n : Node H} {routes : List (Route H)} (h : Tells n routes) (r : Route H) :
    Tells (n.add r.segs r.method r.handler) (routes ++ [r]) where
  handler ks m := by
    rw [Node.handlerAt_add, h.handler]
    simp only [lastRoute, List.reverse_append, List.reverse_singleton, List.singleton_append,
      List.find?_cons]
    by_cases hk : ks = r.segs.map keyOf ∧ m = r.method
    · have hd : decide (r.keys = ks ∧ r.method = m) = true :=
        decide_eq_true ⟨hk.1.symm, hk.2.symm⟩
      rw [if_pos hk, hd]
      rfl
    · have hd : decide (r.keys = ks ∧ r.method = m) = false :=
        decide_eq_false fun h => hk ⟨h.1.symm, h.2.symm⟩
      rw [if_neg hk, hd]
  named ks k c hc := by
    rcases Node.walk_add_segment hc with ⟨c', hc', hs⟩ | ⟨pre, seg, hp, hks, hk, hs⟩
    · obtain ⟨r', hr', pre, seg, hp, hks, hk, hs'⟩ := h.named ks k c' hc'
      exact ⟨r', List.mem_append_left _ hr', pre, seg, hp, hks, hk, hs.symm.trans hs'⟩
    · exact ⟨r, by simp, pre, seg, hp, hks, hk, hs⟩

theorem tells_addAll (regs : List (Registration H)) :
    Tells (Router.empty.addAll regs).root (routesOf regs) := by
  have key : ∀ (r : Router H) (routes : List (Route H)), Tells r.root routes →
      Tells (r.addAll regs).root (routes ++ routesOf regs) := by
    induction regs with
    | nil =>
      intro r routes h
      simpa [routesOf, Router.addAll] using h
    | cons reg regs ih =>
      intro r routes h
      cases hn : normalizePattern reg.pattern with
      | error message =>
        have hr : reg.route = none := by simp [Registration.route, hn]
        simpa [routesOf, hr, Router.addAll, Router.addInternal, hn] using ih r routes h
      | ok norm =>
        have hr : reg.route = some ⟨splitPath norm, upper reg.method, reg.handler⟩ := by
          simp [Registration.route, hn]
        have h' := ih ⟨r.root.add (splitPath norm) (upper reg.method) reg.handler⟩ _
          (h.add ⟨splitPath norm, upper reg.method, reg.handler⟩)
        simpa [routesOf, hr, Router.addAll, Router.addInternal, hn] using h'
  refine key Router.empty [] ⟨fun ks m => ?_, fun ks k c hc => ?_⟩
  · cases ks <;> rfl
  · cases ks <;> cases hc

/-! ## The search -/

/-- No pattern below a node serves the rest of a path. -/
def Fails (method : String) (n : Node H) (segs : List String) : Prop :=
  ∀ ks c, n.walk ks = some c → Matches ks segs → c.serve method = none

/-- The pattern below a node that serves the rest of a path, before all others. -/
structure Finds (method : String) (n : Node H) (segs : List String) (h : H) (ks : List Key) :
    Prop where
  serves : ∃ c, n.walk ks = some c ∧ c.serve method = some h
  fits : Matches ks segs
  least : ∀ ks' c, n.walk ks' = some c → Matches ks' segs → c.serve method ≠ none →
    ks' = ks ∨ Before ks ks'

/-- A pattern that matches a path with a first segment starts with that segment, with
    a parameter, or is a wildcard. -/
theorem Matches.cases {ks : List Key} {seg : String} {rest : List String}
    (h : Matches ks (seg :: rest)) : (∃ ks', ks = .static seg :: ks' ∧ Matches ks' rest) ∨
      (∃ ks', ks = .param :: ks' ∧ Matches ks' rest) ∨ ks = [.wildcard] := by
  cases ks with
  | nil => cases h
  | cons k ks =>
    cases k with
    | static seg' =>
      obtain ⟨rfl, h⟩ := h
      exact .inl ⟨ks, rfl, h⟩
    | param => exact .inr (.inl ⟨ks, rfl, h⟩)
    | wildcard =>
      cases ks with
      | nil => exact .inr (.inr rfl)
      | cons k ks => cases h

theorem Matches.nil_iff {ks : List Key} : Matches ks [] ↔ ks = [] := by
  cases ks with
  | nil => exact ⟨fun _ => rfl, fun _ => trivial⟩
  | cons k ks =>
    constructor
    · intro h
      cases k <;> cases ks <;> cases h
    · intro h
      cases h

section Search

variable {method seg : String} {rest : List String} {n c : Node H} {h : H} {ks : List Key}

theorem walk_cons {k : Key} (hc : n.child k = some c) : n.walk (k :: ks) = c.walk ks := by
  rw [Node.walk, hc, Option.bind_some]

theorem fails_cons (hs : ∀ c, n.child (.static seg) = some c → Fails method c rest)
    (hp : ∀ c, n.child .param = some c → Fails method c rest)
    (hw : ∀ c, n.child .wildcard = some c → c.serve method = none) :
    Fails method n (seg :: rest) := by
  intro ks d hd hm
  rcases hm.cases with ⟨ks', rfl, hm'⟩ | ⟨ks', rfl, hm'⟩ | rfl
  · obtain ⟨c, hc, hd⟩ := Option.bind_eq_some_iff.1 hd
    exact hs c hc ks' d hd hm'
  · obtain ⟨c, hc, hd⟩ := Option.bind_eq_some_iff.1 hd
    exact hp c hc ks' d hd hm'
  · obtain ⟨c, hc, hd⟩ := Option.bind_eq_some_iff.1 hd
    cases hd
    exact hw _ hc

theorem finds_static (hc : n.child (.static seg) = some c) (hf : Finds method c rest h ks) :
    Finds method n (seg :: rest) h (.static seg :: ks) where
  serves := by
    rw [walk_cons hc]
    exact hf.serves
  fits := ⟨rfl, hf.fits⟩
  least ks' d hd hm hne := by
    rcases hm.cases with ⟨ks', rfl, hm'⟩ | ⟨ks', rfl, hm'⟩ | rfl
    · rw [walk_cons hc] at hd
      rcases hf.least ks' d hd hm' hne with rfl | hb
      · exact .inl rfl
      · exact .inr (.inr ⟨rfl, hb⟩)
    · exact .inr (.inl (by simp [Key.rank]))
    · exact .inr (.inl (by simp [Key.rank]))

theorem finds_param (hs : ∀ c, n.child (.static seg) = some c → Fails method c rest)
    (hc : n.child .param = some c) (hf : Finds method c rest h ks) :
    Finds method n (seg :: rest) h (.param :: ks) where
  serves := by
    rw [walk_cons hc]
    exact hf.serves
  fits := hf.fits
  least ks' d hd hm hne := by
    rcases hm.cases with ⟨ks', rfl, hm'⟩ | ⟨ks', rfl, hm'⟩ | rfl
    · obtain ⟨c', hc', hd⟩ := Option.bind_eq_some_iff.1 hd
      exact absurd (hs c' hc' ks' d hd hm') hne
    · rw [walk_cons hc] at hd
      rcases hf.least ks' d hd hm' hne with rfl | hb
      · exact .inl rfl
      · exact .inr (.inr ⟨rfl, hb⟩)
    · exact .inr (.inl (by simp [Key.rank]))

theorem finds_wildcard (hs : ∀ c, n.child (.static seg) = some c → Fails method c rest)
    (hp : ∀ c, n.child .param = some c → Fails method c rest)
    (hc : n.child .wildcard = some c) (hh : c.serve method = some h) :
    Finds method n (seg :: rest) h [.wildcard] where
  serves := ⟨c, by rw [walk_cons hc]; rfl, hh⟩
  fits := trivial
  least ks' d hd hm hne := by
    rcases hm.cases with ⟨ks', rfl, hm'⟩ | ⟨ks', rfl, hm'⟩ | rfl
    · obtain ⟨c', hc', hd⟩ := Option.bind_eq_some_iff.1 hd
      exact absurd (hs c' hc' ks' d hd hm') hne
    · obtain ⟨c', hc', hd⟩ := Option.bind_eq_some_iff.1 hd
      exact absurd (hp c' hc' ks' d hd hm') hne
    · exact .inl rfl

/-- What the nodes on the way bind to the segments of a path. -/
def bound : Node H → List Key → List String → Params
  | n, k :: ks, seg :: rest =>
    match n.child k with
    | some c => if k = .param then (c.segment, seg) :: bound c ks rest else bound c ks rest
    | none => []
  | _, _, _ => []

/-- The names of the parameters on the way down a tree. -/
def namesAlong : Node H → List Key → List String
  | _, [] => []
  | n, k :: ks =>
    match n.child k with
    | some c => if k = .param then c.segment :: namesAlong c ks else namesAlong c ks
    | none => []

/-- Along any way down, the names differ from each other and from those in use. -/
def Distinct (used : List String) (n : Node H) : Prop :=
  ∀ ks c, n.walk ks = some c → (used ++ namesAlong n ks).Nodup

theorem Distinct.child {used : List String} {k : Key} (hd : Distinct used n)
    (hc : n.child k = some c) (hk : k ≠ .param) : Distinct used c := by
  intro ks d hw
  have h := hd (k :: ks) d (by rw [walk_cons hc]; exact hw)
  simpa [namesAlong, hc, hk] using h

theorem Distinct.param {used : List String} (hd : Distinct used n)
    (hc : n.child .param = some c) :
    c.segment ∉ used ∧ Distinct (c.segment :: used) c := by
  have h : ∀ ks d, c.walk ks = some d → (used ++ c.segment :: namesAlong c ks).Nodup := by
    intro ks d hw
    simpa [namesAlong, hc] using hd (.param :: ks) d (by rw [walk_cons hc]; exact hw)
  constructor
  · intro hm
    have := h [] c rfl
    exact (List.nodup_append.1 this).2.2 _ hm _ (by simp) rfl
  · intro ks d hw
    exact (List.perm_middle.nodup_iff).1 (h ks d hw)

theorem filter_fresh {name : String} {ps : Params} (h : name ∉ ps.map Prod.fst) :
    (ps.filter fun p => p.1 ≠ name) = ps := by
  refine List.filter_eq_self.2 fun p hp => ?_
  have hne : p.1 ≠ name := fun he => h (he ▸ List.mem_map_of_mem hp)
  exact decide_eq_true hne

theorem setParam_fresh {name value : String} {ps : Params} (h : name ∉ ps.map Prod.fst) :
    setParam name value ps = (name, value) :: ps := by
  rw [setParam, filter_fresh h]

theorem eraseParam_set {name value : String} {ps : Params} (h : name ∉ ps.map Prod.fst) :
    eraseParam name ((name, value) :: ps) = ps := by
  rw [eraseParam, List.filter_cons_of_neg (by simp), filter_fresh h]

/-- What the search gives, and what it leaves in the table of parameters. -/
def SearchSpec (method : String) (n : Node H) (segs : List String) (ps : Params) :
    Option H × Params → Prop
  | (none, ps') => Fails method n segs ∧ (Distinct (ps.map Prod.fst) n → ps' = ps)
  | (some h, ps') => ∃ ks, Finds method n segs h ks ∧
    (Distinct (ps.map Prod.fst) n → ps' = (bound n ks segs).reverse ++ ps)

/-- What the way down through one child gives.  If it fails, the other children are
    still to be tried. -/
def StageSpec (method : String) (n : Node H) (seg : String) (rest : List String) (k : Key)
    (ps : Params) : Option H × Params → Prop
  | (none, ps') => (∀ c, n.child k = some c → Fails method c rest) ∧
    (Distinct (ps.map Prod.fst) n → ps' = ps)
  | (some h, ps') => ∃ ks, Finds method n (seg :: rest) h ks ∧
    (Distinct (ps.map Prod.fst) n → ps' = (bound n ks (seg :: rest)).reverse ++ ps)

theorem tryStatic_spec
    (ih : ∀ (n : Node H) ps, SearchSpec method n rest ps (matchRecursive method rest n ps))
    (ps : Params) : StageSpec method n seg rest (.static seg) ps
      (tryStatic (matchRecursive method rest) n seg ps) := by
  have hdef : n.findStaticChild seg = n.child (.static seg) := rfl
  rw [tryStatic, hdef]
  cases hc : n.child (.static seg) with
  | none => exact ⟨fun c hc' => by simp [hc] at hc', fun _ => rfl⟩
  | some c =>
    have h := ih c ps
    dsimp only
    generalize matchRecursive method rest c ps = r at h
    obtain ⟨f, p⟩ := r
    cases f with
    | none =>
      refine ⟨fun d hd => ?_, fun hd => h.2 (hd.child hc (by simp))⟩
      rw [hc] at hd
      cases hd
      exact h.1
    | some x =>
      obtain ⟨ks, hf, hp⟩ := h
      refine ⟨.static seg :: ks, finds_static hc hf, fun hd => ?_⟩
      rw [hp (hd.child hc (by simp))]
      simp [bound, hc]

theorem tryParam_spec
    (ih : ∀ (n : Node H) ps, SearchSpec method n rest ps (matchRecursive method rest n ps))
    (hs : ∀ c, n.child (.static seg) = some c → Fails method c rest) (ps : Params) :
    StageSpec method n seg rest .param ps
      (tryParam (matchRecursive method rest) n seg ps) := by
  have hdef : n.findParamChild = n.child .param := rfl
  rw [tryParam, hdef]
  cases hc : n.child .param with
  | none => exact ⟨fun c hc' => by simp [hc] at hc', fun _ => rfl⟩
  | some c =>
    have h := ih c (setParam c.segment seg ps)
    -- with fresh names, the table is the old one with one more entry
    have hset : Distinct (ps.map Prod.fst) n → c.segment ∉ ps.map Prod.fst ∧
        setParam c.segment seg ps = (c.segment, seg) :: ps ∧
        Distinct ((setParam c.segment seg ps).map Prod.fst) c := by
      intro hd
      obtain ⟨hfresh, hd'⟩ := hd.param hc
      have hset : setParam c.segment seg ps = (c.segment, seg) :: ps := setParam_fresh hfresh
      exact ⟨hfresh, hset, by rw [hset]; exact hd'⟩
    dsimp only
    generalize matchRecursive method rest c (setParam c.segment seg ps) = r at h
    obtain ⟨f, p⟩ := r
    cases f with
    | none =>
      refine ⟨fun d hd => ?_, fun hd => ?_⟩
      · rw [hc] at hd
        cases hd
        exact h.1
      · obtain ⟨hfresh, hset, hd'⟩ := hset hd
        rw [h.2 hd', hset, eraseParam_set hfresh]
    | some x =>
      obtain ⟨ks, hf, hp⟩ := h
      refine ⟨.param :: ks, finds_param hs hc hf, fun hd => ?_⟩
      obtain ⟨-, hset, hd'⟩ := hset hd
      rw [hp hd', hset]
      simp [bound, hc]

theorem tryWildcard_spec {ps p : Params}
    (hs : ∀ c, n.child (.static seg) = some c → Fails method c rest)
    (hp : ∀ c, n.child .param = some c → Fails method c rest)
    (hps : Distinct (ps.map Prod.fst) n → p = ps) :
    SearchSpec method n (seg :: rest) ps (tryWildcard method n p) := by
  have hdef : n.findWildcardChild = n.child .wildcard := rfl
  rw [tryWildcard, hdef]
  cases hc : n.child .wildcard with
  | none => exact ⟨fails_cons hs hp fun c hc' => by simp [hc] at hc', hps⟩
  | some c =>
    dsimp only
    cases hh : c.serve method with
    | none =>
      refine ⟨fails_cons hs hp fun d hd => ?_, hps⟩
      rw [hc] at hd
      cases hd
      exact hh
    | some h =>
      refine ⟨[.wildcard], finds_wildcard hs hp hc hh, fun hd => ?_⟩
      rw [hps hd]
      cases rest <;> simp [bound, hc]

theorem matchRecursive_spec (method : String) (segs : List String) (n : Node H)
    (ps : Params) : SearchSpec method n segs ps (matchRecursive method segs n ps) := by
  induction segs generalizing n ps with
  | nil =>
    rw [matchRecursive]
    cases hs : n.serve method with
    | none =>
      refine ⟨fun ks c hc hm => ?_, fun _ => rfl⟩
      obtain rfl := Matches.nil_iff.1 hm
      cases hc
      exact hs
    | some h =>
      refine ⟨[], ⟨⟨n, rfl, hs⟩, trivial, fun ks c _ hm _ => .inl (Matches.nil_iff.1 hm)⟩,
        fun _ => rfl⟩
  | cons seg rest ih =>
    rw [matchRecursive]
    have h₁ : StageSpec method n seg rest (.static seg) ps _ := tryStatic_spec ih ps
    generalize tryStatic (matchRecursive method rest) n seg ps = r₁ at h₁
    obtain ⟨f₁, p₁⟩ := r₁
    cases f₁ with
    | some h => exact h₁
    | none =>
      obtain ⟨hs, hp₁⟩ := h₁
      have h₂ := tryParam_spec ih hs p₁
      dsimp only
      generalize tryParam (matchRecursive method rest) n seg p₁ = r₂ at h₂
      obtain ⟨f₂, p₂⟩ := r₂
      cases f₂ with
      | some h =>
        obtain ⟨ks, hf, hp⟩ := h₂
        refine ⟨ks, hf, fun hd => ?_⟩
        have hd' := hd
        rw [← hp₁ hd] at hd'
        rw [hp hd', hp₁ hd]
      | none =>
        obtain ⟨hp, hp₂⟩ := h₂
        refine tryWildcard_spec hs hp fun hd => ?_
        have hd' := hd
        rw [← hp₁ hd] at hd'
        rw [hp₂ hd', hp₁ hd]

end Search

/-! ## Routes -/

section Routes

variable {n c : Node H} {routes : List (Route H)} {ks : List Key} {method : String}

theorem lastRoute_some {r : Route H} (h : lastRoute routes ks method = some r) :
    r.keys = ks ∧ r.method = method ∧ ∃ pre post, routes = pre ++ r :: post ∧
      ∀ r' ∈ post, r'.keys = r.keys → r'.method ≠ r.method := by
  obtain ⟨hr, as, bs, hl, hn⟩ := List.find?_eq_some_iff_append.1 h
  obtain ⟨rfl, rfl⟩ : r.keys = ks ∧ r.method = method := by simpa using hr
  refine ⟨rfl, rfl, bs.reverse, as.reverse, ?_, fun r' hr' hk hm => ?_⟩
  · have := congrArg List.reverse hl
    simpa using this
  · have := hn r' (List.mem_reverse.1 hr')
    simp [hk, hm] at this

theorem lastRoute_none (h : lastRoute routes ks method = none) :
    ∀ r ∈ routes, r.keys = ks → r.method ≠ method := by
  intro r hr hk hm
  have := List.find?_eq_none.1 h r (List.mem_reverse.2 hr)
  simp [hk, hm] at this

/-- What serves a method below some segments, as the routes tell. -/
theorem Tells.serve (h : Tells n routes) (hc : n.walk ks = some c) :
    c.serve method = ((lastRoute routes ks method).or (lastRoute routes ks "*")).map
      (·.handler) := by
  have hl : ∀ m, c.handlers.lookup m = (lastRoute routes ks m).map (·.handler) := by
    intro m
    have := h.handler ks m
    rwa [Node.handlerAt, hc, Option.bind_some] at this
  rw [Node.serve, hl, hl]
  cases lastRoute routes ks method <;> rfl

/-- The node of a route exists. -/
theorem Tells.walk (h : Tells n routes) {r : Route H} (hr : r ∈ routes) :
    ∃ c, n.walk r.keys = some c := by
  cases hw : n.walk r.keys with
  | some c => exact ⟨c, rfl⟩
  | none =>
    have hh := h.handler r.keys r.method
    rw [Node.handlerAt, hw, Option.bind_none] at hh
    have hn : lastRoute routes r.keys r.method = none := Option.map_eq_none_iff.1 hh.symm
    exact absurd rfl (lastRoute_none hn r hr rfl)

/-- A route that serves a request makes its node serve it. -/
theorem Tells.serve_ne_none (h : Tells n routes) {r : Route H} (hr : r ∈ routes)
    (hm : r.method = method ∨ r.method = "*") (hc : n.walk r.keys = some c) :
    c.serve method ≠ none := by
  rw [h.serve hc]
  intro hn
  obtain ⟨h₁, h₂⟩ := Option.or_eq_none_iff.1 (Option.map_eq_none_iff.1 hn)
  rcases hm with hm | hm
  · exact lastRoute_none h₁ r hr rfl hm
  · exact lastRoute_none h₂ r hr rfl hm

theorem Tells.chosen (h : Tells n routes) {segs : List String} {x : H}
    (hf : Finds method n segs x ks) :
    ∃ r, Chosen routes method segs r ∧ r.handler = x ∧ r.keys = ks := by
  obtain ⟨c, hc, hs⟩ := hf.serves
  rw [h.serve hc] at hs
  obtain ⟨r, hr, rfl⟩ := Option.map_eq_some_iff.1 hs
  have hleast : ∀ r' ∈ routes, r'.Serves method segs → r'.keys = ks ∨ Before ks r'.keys := by
    intro r' hr' hsv
    obtain ⟨c', hc'⟩ := h.walk hr'
    exact hf.least _ c' hc' hsv.1 (h.serve_ne_none hr' hsv.2 hc')
  rcases Option.or_eq_some_iff.1 hr with hr | ⟨hn, hr⟩
  · obtain ⟨rfl, hm, hlast⟩ := lastRoute_some hr
    exact ⟨r, ⟨⟨hf.fits, .inl hm⟩, hleast, fun hne => absurd hm hne, hlast⟩, rfl, rfl⟩
  · obtain ⟨rfl, hm, hlast⟩ := lastRoute_some hr
    exact ⟨r, ⟨⟨hf.fits, .inr hm⟩, hleast, fun _ => lastRoute_none hn, hlast⟩, rfl, rfl⟩

/-! ## The names of the parameters -/

theorem namesAlong_append (n : Node H) (ks : List Key) (k : Key) :
    namesAlong n (ks ++ [k]) = namesAlong n ks ++
      (match n.walk (ks ++ [k]) with
        | some c => if k = .param then [c.segment] else []
        | none => []) := by
  induction ks generalizing n with
  | nil =>
    simp only [List.nil_append, namesAlong, Node.walk]
    cases n.child k with
    | none => rfl
    | some c => by_cases hk : k = .param <;> simp [hk]
  | cons k' ks ih =>
    simp only [List.cons_append, namesAlong, Node.walk]
    cases n.child k' with
    | none => rfl
    | some c =>
      rw [Option.bind_some]
      by_cases hk : k' = .param <;> simp [hk, ih c]

theorem walk_prefix {k : Key} (h : n.walk (ks ++ [k]) = some c) : ∃ d, n.walk ks = some d := by
  induction ks generalizing n with
  | nil => exact ⟨n, rfl⟩
  | cons k' ks ih =>
    obtain ⟨d, hd, h⟩ := Option.bind_eq_some_iff.1 h
    obtain ⟨d', hd'⟩ := ih h
    exact ⟨d', by rw [walk_cons hd, hd']⟩

theorem paramNames_append (pre : List String) (seg : String) :
    paramNames (pre ++ [seg]) = paramNames pre ++
      (if keyOf seg = .param then [nameOf seg] else []) := by
  by_cases hk : keyOf seg = .param <;> simp [paramNames, hk, List.filter_append]

/-- When the names agree, those on the way of a pattern are its own. -/
theorem Tells.names (h : Tells n routes) (ha : NamesAgree routes) {r : Route H}
    (hr : r ∈ routes) {pre : List String} (hp : pre <+: r.segs)
    (hw : n.walk (pre.map keyOf) = some c) :
    namesAlong n (pre.map keyOf) = paramNames pre := by
  induction pre using List.reverseRecOn generalizing c with
  | nil => rfl
  | append_singleton pre seg ih =>
    rw [List.map_append, List.map_singleton] at hw ⊢
    obtain ⟨d, hd⟩ := walk_prefix hw
    rw [namesAlong_append, hw, paramNames_append,
      ih ((List.prefix_append pre [seg]).trans hp) hd]
    by_cases hk : keyOf seg = .param
    · obtain ⟨r', hr', pre', seg', hp', hks, hk', hs⟩ := h.named _ _ c hw
      have hn := ha.shared r hr r' hr' pre pre' seg seg' hp hp' hks.symm hk (hk'.trans hk)
      simp [hk, hs, hn]
    · simp [hk]

/-- When the names agree, they differ along any way down. -/
theorem Tells.distinct (h : Tells n routes) (ha : NamesAgree routes) : Distinct [] n := by
  intro ks c hc
  rw [List.nil_append]
  rcases List.eq_nil_or_concat ks with rfl | ⟨ks, k, rfl⟩
  · exact List.nodup_nil
  · rw [List.concat_eq_append] at hc ⊢
    obtain ⟨r, hr, pre, seg, hp, hks, hk, -⟩ := h.named ks k c hc
    have hm : (pre ++ [seg]).map keyOf = ks ++ [k] := by simp [hks, hk]
    rw [← hm] at hc ⊢
    rw [h.names ha hr hp hc]
    exact (ha.nodup r hr).sublist ((hp.sublist.filter _).map _)

/-- The segments of a path at the parameters of a pattern. -/
def paramValues : List Key → List String → List String
  | k :: ks, v :: vs => if k = .param then v :: paramValues ks vs else paramValues ks vs
  | _, _ => []

theorem bound_eq_zip {segs : List String} (hw : n.walk ks = some c) :
    bound n ks segs = (namesAlong n ks).zip (paramValues ks segs) := by
  induction ks generalizing n segs with
  | nil => cases segs <;> rfl
  | cons k ks ih =>
    obtain ⟨d, hd, hw⟩ := Option.bind_eq_some_iff.1 hw
    cases segs with
    | nil => simp [bound, paramValues]
    | cons v vs =>
      simp only [bound, namesAlong, paramValues, hd, ih hw]
      by_cases hk : k = .param <;> simp [hk]

theorem bindings_eq_zip (segs vs : List String) :
    bindings segs vs = (paramNames segs).zip (paramValues (segs.map keyOf) vs) := by
  induction segs generalizing vs with
  | nil => cases vs <;> rfl
  | cons seg segs ih =>
    cases vs with
    | nil => simp [bindings, paramValues]
    | cons v vs =>
      by_cases hk : keyOf seg = .param <;>
        simp [bindings, paramValues, paramNames, hk, ih vs]

theorem getElem?_of_append_prefix {pre segs : List String} {seg : String}
    (h : pre ++ [seg] <+: segs) : segs[pre.length]? = some seg := by
  obtain ⟨rest, rfl⟩ := h
  simp

/-- The names of a single route agree if they differ from each other. -/
theorem namesAgree_single {r : Route H} (h : (paramNames r.segs).Nodup) : NamesAgree [r] where
  nodup r' hr' := by
    obtain rfl := List.mem_singleton.1 hr'
    exact h
  shared r₁ h₁ r₂ h₂ pre pre' seg seg' hp hp' hks _ _ := by
    obtain rfl := List.mem_singleton.1 h₁
    obtain rfl := List.mem_singleton.1 h₂
    have hlen : pre.length = pre'.length := by simpa using congrArg List.length hks
    have hseg := getElem?_of_append_prefix hp
    rw [hlen, getElem?_of_append_prefix hp'] at hseg
    rw [Option.some.inj hseg]

end Routes

/-- The router serves a request exactly if a route does: with the route that goes
    first in the order of the patterns, a handler for the method itself before one
    for all methods, and the last one that was registered so.  Where the names of the
    routes agree, each of its parameters is bound to the segment at its position. -/
theorem match_spec (regs : List (Registration H)) (method path : String) :
    match (Router.empty.addAll regs).match method path with
    | ⟨none, params⟩ => params = [] ∧
        ∀ r ∈ routesOf regs, ¬ r.Serves method (splitPath (dropSlash path.toList))
    | ⟨some h, params⟩ => ∃ r,
        Chosen (routesOf regs) method (splitPath (dropSlash path.toList)) r ∧ r.handler = h ∧
        (NamesAgree (routesOf regs) →
          params.Perm (bindings r.segs (splitPath (dropSlash path.toList)))) := by
  have ht := tells_addAll regs
  have hs := matchRecursive_spec method (splitPath (dropSlash path.toList))
    (Router.empty.addAll regs).root []
  rw [Router.match]
  generalize matchRecursive method (splitPath (dropSlash path.toList))
    (Router.empty.addAll regs).root [] = res at hs
  obtain ⟨f, ps⟩ := res
  cases f with
  | none =>
    refine ⟨rfl, fun r hr hsv => ?_⟩
    obtain ⟨c, hc⟩ := ht.walk hr
    exact ht.serve_ne_none hr hsv.2 hc (hs.1 _ c hc hsv.1)
  | some h =>
    obtain ⟨ks, hf, hp⟩ := hs
    obtain ⟨r, hr, hh, rfl⟩ := ht.chosen hf
    refine ⟨r, hr, hh, fun ha => ?_⟩
    obtain ⟨pre, post, hroutes, -⟩ := hr.last
    have hmem : r ∈ routesOf regs := by simp [hroutes]
    obtain ⟨c, hc⟩ := ht.walk hmem
    have hps : ps = (bound (Router.empty.addAll regs).root r.keys
        (splitPath (dropSlash path.toList))).reverse ++ [] := hp (ht.distinct ha)
    have hn := ht.names ha hmem List.prefix_rfl hc
    show ps.Perm _
    rw [hps, List.append_nil, bindings_eq_zip, bound_eq_zip hc]
    rw [show r.keys = r.segs.map keyOf from rfl, hn]
    exact List.reverse_perm _

end Tree

/-- A parameter of the only route there is. -/
theorem match_spec_user : ∃ r : Route ℕ,
    Chosen (routesOf [⟨"get", "/u/:id", 7⟩]) "GET" ["u", "5"] r ∧ r.handler = 7 ∧
      [("id", "5")].Perm (bindings r.segs ["u", "5"]) := by
  have h := match_spec [⟨"get", "/u/:id", 7⟩] "GET" "/u/5"
  have hr : routesOf [(⟨"get", "/u/:id", 7⟩ : Registration ℕ)] =
      [⟨["u", ":id"], "GET", 7⟩] := by decide
  have hm : (Router.empty.addAll [⟨"get", "/u/:id", 7⟩]).match "GET" "/u/5" =
      ⟨some 7, [("id", "5")]⟩ := by decide
  have hs : splitPath (dropSlash "/u/5".toList) = ["u", "5"] := by decide
  rw [hm, hs] at h
  obtain ⟨r, hc, hh, hp⟩ := h
  rw [hr] at hp
  exact ⟨r, hc, hh, hp (namesAgree_single (by decide))⟩

/-- The last route that serves a request among those with the first pattern. -/
structure LatestServing {H : Type} (routes : List (Route H)) (method : String)
    (segs : List String) (r : Route H) : Prop where
  serves : r.Serves method segs
  least : ∀ r' ∈ routes, r'.Serves method segs → r'.keys = r.keys ∨ Before r.keys r'.keys
  last : ∃ pre post, routes = pre ++ r :: post ∧
    ∀ r' ∈ post, r'.keys = r.keys → ¬ r'.Serves method segs

/-- A route for the method itself goes before a later one for all methods. -/
theorem specific_before_latest :
    ¬ ∃ r, LatestServing (routesOf [⟨"GET", "/x", 1⟩, ⟨"*", "/x", 2⟩]) "GET" ["x"] r ∧
      ((Router.empty.addAll [⟨"GET", "/x", 1⟩, ⟨"*", "/x", 2⟩]).match "GET" "/x").handler =
        some r.handler := by
  rintro ⟨r, hl, hh⟩
  have hr : routesOf [⟨"GET", "/x", 1⟩, ⟨"*", "/x", 2⟩] =
      [⟨["x"], "GET", 1⟩, ⟨["x"], "*", 2⟩] := by decide
  have hm : ((Router.empty.addAll [⟨"GET", "/x", 1⟩, ⟨"*", "/x", 2⟩]).match "GET" "/x").handler =
      some 1 := by decide
  obtain ⟨pre, post, he, hlast⟩ := hl.last
  rw [hr] at he
  rw [hm] at hh
  match pre, he with
  | [], he =>
    obtain ⟨rfl, rfl⟩ := List.cons.inj he
    exact hlast ⟨["x"], "*", 2⟩ (by simp) rfl ⟨⟨rfl, trivial⟩, .inr rfl⟩
  | [a], he =>
    obtain ⟨-, he⟩ := List.cons.inj he
    obtain ⟨rfl, -⟩ := List.cons.inj he
    cases hh
  | a :: b :: pre, he => simp at he

end Osodio.Http
