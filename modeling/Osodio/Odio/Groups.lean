import Osodio.Odio.Ast
import Osodio.Odio.Emitter

/-!
# Groups of routes

A group declares guards and then routes and further groups.  The parser leaves no
trace of the groups: each route gets the guards of all the groups around it.

## Main definitions

- `GroupItem` — what a group, or a file, consists of
- `parseDeclarations` — the routes of a file
- `Nested` — a route and the guards of the groups around it

## Main results

- `parseDeclarations_spec` — the routes of a file are those that its groups nest,
  with the guards of the groups from the outermost to the innermost
-/

namespace Osodio.Odio

/-- What a group consists of, after its prefix. -/
inductive GroupItem where
  | require (g : Guard)
  | route (r : RouteDecl)
  | group (items : List GroupItem)

/-- What the loop of `parse_group` carries from one item to the next one. -/
structure GroupState where
  guards : List Guard
  seenRoute : Bool := false

mutual

/-- One turn of the loop of `parse_group`. -/
def parseItem (s : GroupState) : GroupItem → Except Diagnostic (GroupState × List RouteDecl)
  | .require g =>
    if s.seenRoute then .error ⟨g.loc, "las guardas del grupo van antes que sus rutas"⟩
    else .ok ({ s with guards := s.guards ++ [g] }, [])
  | .route r => .ok ({ s with seenRoute := true }, [{ r with guards := s.guards }])
  | .group items => do
    let routes ← parseItems { guards := s.guards } items
    return ({ s with seenRoute := true }, routes)

/-- `parse_group`, from its first item on. -/
def parseItems (s : GroupState) : List GroupItem → Except Diagnostic (List RouteDecl)
  | [] => .ok []
  | item :: items => do
    let (s', routes) ← parseItem s item
    let rest ← parseItems s' items
    return routes ++ rest

end

/-- The routes of the declarations of a file.  A guard is no declaration. -/
def parseDeclarations : List GroupItem → Except Diagnostic (List RouteDecl)
  | [] => .ok []
  | .require g :: _ =>
    .error ⟨g.loc, "se esperaba una declaracion (get/post/... endpoint, o app)"⟩
  | item :: items => do
    let (_, routes) ← parseItem { guards := [] } item
    let rest ← parseDeclarations items
    return routes ++ rest

/-! ## Nesting -/

/-- The guards that a group declares itself. -/
def ownGuards (items : List GroupItem) : List Guard :=
  items.filterMap fun
    | .require g => some g
    | _ => none

/-- `Nested items gs r`: the route `r` stands somewhere in the group, and `gs` are
    the guards of the groups around it, those of the outermost group first. -/
inductive Nested : List GroupItem → List Guard → RouteDecl → Prop where
  | route {items r} (h : .route r ∈ items) : Nested items (ownGuards items) r
  | group {items sub gs r} (h : .group sub ∈ items) (hn : Nested sub gs r) :
      Nested items (ownGuards items ++ gs) r

section Parsing

variable {s s' : GroupState} {items : List GroupItem} {routes : List RouteDecl} {r' : RouteDecl}

theorem parseItems_cons {item : GroupItem} (h : parseItems s (item :: items) = .ok routes) :
    ∃ s' first rest, parseItem s item = .ok (s', first) ∧ parseItems s' items = .ok rest ∧
      routes = first ++ rest := by
  rw [parseItems] at h
  cases hi : parseItem s item with
  | error d => simp [hi, bind, Except.bind] at h
  | ok p =>
    obtain ⟨s', first⟩ := p
    cases hr : parseItems s' items with
    | error d => simp [hi, hr, bind, Except.bind] at h
    | ok rest =>
      simp only [hi, hr, bind, Except.bind, pure, Except.pure, Except.ok.injEq] at h
      exact ⟨s', first, rest, rfl, hr, h.symm⟩

theorem parseItem_require {g : Guard} {first : List RouteDecl}
    (h : parseItem s (.require g) = .ok (s', first)) :
    s.seenRoute = false ∧ s' = { s with guards := s.guards ++ [g] } ∧ first = [] := by
  rw [parseItem] at h
  split at h
  · cases h
  · next hs =>
    simp only [Except.ok.injEq, Prod.mk.injEq] at h
    exact ⟨by simpa using hs, h.1.symm, h.2.symm⟩

theorem parseItem_route {r : RouteDecl} {first : List RouteDecl}
    (h : parseItem s (.route r) = .ok (s', first)) :
    s' = { s with seenRoute := true } ∧ first = [{ r with guards := s.guards }] := by
  simp only [parseItem, Except.ok.injEq, Prod.mk.injEq] at h
  exact ⟨h.1.symm, h.2.symm⟩

theorem parseItem_group {sub : List GroupItem} {first : List RouteDecl}
    (h : parseItem s (.group sub) = .ok (s', first)) :
    s' = { s with seenRoute := true } ∧ parseItems { guards := s.guards } sub = .ok first := by
  rw [parseItem] at h
  cases hr : parseItems { guards := s.guards } sub with
  | error d => simp [hr, bind, Except.bind] at h
  | ok routes =>
    simp only [hr, bind, Except.bind, pure, Except.pure, Except.ok.injEq, Prod.mk.injEq] at h
    exact ⟨h.1.symm, congrArg _ h.2⟩

/-- After a route, a group declares no more guards. -/
theorem ownGuards_of_seen (hs : s.seenRoute = true) (h : parseItems s items = .ok routes) :
    ownGuards items = [] := by
  induction items generalizing s routes with
  | nil => rfl
  | cons item items ih =>
    obtain ⟨s', first, rest, hi, hr, -⟩ := parseItems_cons h
    cases item with
    | require g =>
      obtain ⟨hn, -⟩ := parseItem_require hi
      rw [hs] at hn
      cases hn
    | route r =>
      obtain ⟨rfl, -⟩ := parseItem_route hi
      exact ih rfl hr
    | group sub =>
      obtain ⟨rfl, -⟩ := parseItem_group hi
      exact ih rfl hr

/-! ### The first item of a group -/

variable {gs : List Guard} {r : RouteDecl}

theorem nested_require {g : Guard} :
    Nested (.require g :: items) gs r ↔ ∃ gs', gs = g :: gs' ∧ Nested items gs' r := by
  constructor
  · rintro (h | ⟨h, hn⟩)
    · exact ⟨_, rfl, .route (by simpa using h)⟩
    · exact ⟨_, rfl, .group (by simpa using h) hn⟩
  · rintro ⟨_, rfl, h | ⟨h, hn⟩⟩
    · exact .route (List.mem_cons_of_mem _ h)
    · exact .group (List.mem_cons_of_mem _ h) hn

theorem nested_route {r₁ : RouteDecl} (h0 : ownGuards items = []) :
    Nested (.route r₁ :: items) gs r ↔ (r = r₁ ∧ gs = []) ∨ Nested items gs r := by
  have hown : ownGuards (.route r₁ :: items) = ownGuards items := rfl
  constructor
  · rintro (h | ⟨h, hn⟩)
    · rw [hown]
      obtain h | h := List.mem_cons.1 h
      · exact .inl ⟨GroupItem.route.inj h, h0⟩
      · exact .inr (.route h)
    · rw [hown]
      exact .inr (.group (by simpa using h) hn)
  · rintro (⟨rfl, rfl⟩ | h | ⟨h, hn⟩)
    · have := @Nested.route (.route r :: items) r (List.mem_cons_self ..)
      rwa [hown, h0] at this
    · exact .route (List.mem_cons_of_mem _ h)
    · exact .group (List.mem_cons_of_mem _ h) hn

theorem nested_group {sub : List GroupItem} (h0 : ownGuards items = []) :
    Nested (.group sub :: items) gs r ↔ Nested sub gs r ∨ Nested items gs r := by
  have hown : ownGuards (.group sub :: items) = ownGuards items := rfl
  constructor
  · rintro (h | ⟨h, hn⟩)
    · rw [hown]
      exact .inr (.route (by simpa using h))
    · rw [hown]
      obtain h | h := List.mem_cons.1 h
      · obtain rfl := GroupItem.group.inj h
        rw [h0]
        exact .inl hn
      · exact .inr (.group h hn)
  · rintro (hn | h | ⟨h, hn⟩)
    · have := @Nested.group (.group sub :: items) sub _ _ (List.mem_cons_self ..) hn
      rwa [hown, h0] at this
    · exact .route (List.mem_cons_of_mem _ h)
    · exact .group (List.mem_cons_of_mem _ h) hn

end Parsing

/-! ## The routes of a file -/

/-- The routes of a group get the guards before it, and then those of the groups
    around them. -/
theorem parseItems_spec (items : List GroupItem) :
    ∀ s routes, parseItems s items = .ok routes → ∀ r', r' ∈ routes ↔
      ∃ gs r, Nested items gs r ∧ r' = { r with guards := s.guards ++ gs } := by
  intro s routes h r'
  match items with
  | [] =>
    obtain rfl : [] = routes := Except.ok.inj h
    constructor
    · exact nofun
    · rintro ⟨_, _, h | ⟨h, -⟩, -⟩ <;> cases h
  | .require g :: items =>
    obtain ⟨s', first, rest, hi, hr, rfl⟩ := parseItems_cons h
    obtain ⟨-, rfl, rfl⟩ := parseItem_require hi
    rw [List.nil_append, parseItems_spec items _ _ hr r']
    simp only [nested_require]
    constructor
    · rintro ⟨gs, r, hn, rfl⟩
      exact ⟨g :: gs, r, ⟨gs, rfl, hn⟩, by rw [List.append_assoc]; rfl⟩
    · rintro ⟨_, r, ⟨gs, rfl, hn⟩, rfl⟩
      exact ⟨gs, r, hn, by rw [List.append_assoc]; rfl⟩
  | .route r₁ :: items =>
    obtain ⟨s', first, rest, hi, hr, rfl⟩ := parseItems_cons h
    obtain ⟨rfl, rfl⟩ := parseItem_route hi
    rw [List.mem_append, List.mem_singleton, parseItems_spec items _ _ hr r']
    simp only [nested_route (ownGuards_of_seen rfl hr)]
    constructor
    · rintro (rfl | ⟨gs, r, hn, rfl⟩)
      · exact ⟨[], r₁, .inl ⟨rfl, rfl⟩, by rw [List.append_nil]⟩
      · exact ⟨gs, r, .inr hn, rfl⟩
    · rintro ⟨gs, r, ⟨rfl, rfl⟩ | hn, rfl⟩
      · exact .inl (by rw [List.append_nil])
      · exact .inr ⟨gs, r, hn, rfl⟩
  | .group sub :: items =>
    obtain ⟨s', first, rest, hi, hr, rfl⟩ := parseItems_cons h
    obtain ⟨rfl, hsub⟩ := parseItem_group hi
    rw [List.mem_append, parseItems_spec sub _ _ hsub r', parseItems_spec items _ _ hr r']
    simp only [nested_group (ownGuards_of_seen rfl hr)]
    constructor
    · rintro (⟨gs, r, hn, rfl⟩ | ⟨gs, r, hn, rfl⟩)
      · exact ⟨gs, r, .inl hn, rfl⟩
      · exact ⟨gs, r, .inr hn, rfl⟩
    · rintro ⟨gs, r, hn | hn, rfl⟩
      · exact .inl ⟨gs, r, hn, rfl⟩
      · exact .inr ⟨gs, r, hn, rfl⟩
  termination_by sizeOf items

theorem parseDeclarations_items {items : List GroupItem} {routes : List RouteDecl}
    (h : parseDeclarations items = .ok routes) :
    ∀ b, parseItems { guards := [], seenRoute := b } items = .ok routes := by
  induction items generalizing routes with
  | nil => exact fun _ => h
  | cons item items ih =>
    intro b
    cases item with
    | require g => cases h
    | route r =>
      simp only [parseDeclarations, parseItem, bind, Except.bind] at h
      cases hr : parseDeclarations items with
      | error d => simp [hr] at h
      | ok rest =>
        simp only [hr] at h
        simp only [parseItems, parseItem, bind, Except.bind, ih hr true]
        exact h
    | group sub =>
      simp only [parseDeclarations, parseItem, bind, Except.bind] at h
      cases hs : parseItems { guards := [] } sub with
      | error d => simp [hs] at h
      | ok first =>
        cases hr : parseDeclarations items with
        | error d => simp [hs, hr, pure, Except.pure] at h
        | ok rest =>
          simp only [hs, hr, pure, Except.pure] at h
          simp only [parseItems, parseItem, bind, Except.bind, pure, Except.pure, hs, ih hr true]
          exact h

/-- The routes of a file have the guards of the groups around them, from the
    outermost to the innermost. -/
theorem parseDeclarations_spec {items : List GroupItem} {routes : List RouteDecl}
    (h : parseDeclarations items = .ok routes) (r' : RouteDecl) :
    r' ∈ routes ↔ ∃ gs r, Nested items gs r ∧ r' = { r with guards := gs } :=
  parseItems_spec items _ routes (parseDeclarations_items h false) r'

end Osodio.Odio
