import Osodio.Http.Decoding
import Osodio.Odio.Binding

/-!
# What a handler receives

A client sends a string in three places: as a parameter of the query, as a field of a form, and
as a segment of the path.  The router hands the segments on as they stand.

## Main definitions

- `Peticion` — a request, but for the value that is sent
- `Recibe` — the handler receives a string, wherever it was sent

## Main results

- `received_iff` — a string is received when none of its bytes is escaped
-/

namespace Osodio.Odio

open Http

/-! ## Texts -/

/-- Bytes as a string, with a character for each. -/
def texto (b : Bytes) : String := String.ofList (b.map fun c => Char.ofNat c.toNat)

/-- The parameters of a text as strings. -/
def campos (ps : List (Bytes × Bytes)) : List (String × String) := ps.map (Prod.map texto texto)

/-- The path with some segments. -/
def rutaDe (segs : List String) : String :=
  String.ofList (segs.flatMap fun seg => '/' :: seg.toList)

/-! ## Requests -/

/-- A request, but for the value that is sent: the other parameters, the key, the routes and the
    other segments, and the name that the segment is bound to. -/
structure Peticion (H : Type) where
  antes : List Bytes
  key : Bytes
  despues : List Bytes
  regs : List (Registration H)
  method : String
  pre : List String
  post : List String
  name : String

namespace Peticion

variable {H : Type} (p : Peticion H) (e : Bytes)

/-- The query, or the form. -/
def consulta : Bytes := [0x26].intercalate (p.antes ++ (p.key ++ 0x3D :: e) :: p.despues)

def segmentos : List String := p.pre ++ texto e :: p.post

/-- What the router finds. -/
def encontrado : RouteMatch H :=
  (Router.empty.addAll p.regs).match p.method (rutaDe (p.segmentos e))

/-- What the binding reads. -/
def input : Input where
  params := (p.encontrado e).params
  query := campos (parseQuery (p.consulta e))

/-- The segment is served by a route that binds it. -/
structure Enlaza : Prop where
  served : ∃ r ∈ routesOf p.regs, r.Serves p.method (p.segmentos e)
  bound : ∀ r, Chosen (routesOf p.regs) p.method (p.segmentos e) r →
    ∃ seg, r.segs[p.pre.length]? = some seg ∧ keyOf seg = .param ∧ nameOf seg = p.name

/-- The other parameters are whole, none behind has the key, and the other segments are segments
    of a path. -/
structure Bien : Prop where
  key_eq : 0x3D ∉ p.key
  key_amp : 0x26 ∉ p.key
  antes : ∀ q ∈ p.antes, 0x26 ∉ q
  despues : ∀ q ∈ p.despues, 0x26 ∉ q
  last : ∀ q ∈ p.despues, ∀ r ∈ parametro urlDecode q, r.1 ≠ urlDecode p.key
  segs : ∀ seg ∈ p.pre ++ p.post, seg ≠ "" ∧ '/' ∉ seg.toList
  agree : NamesAgree (routesOf p.regs)
  enlaza : e ≠ [] → p.Enlaza e

end Peticion

/-- A parameter is there, and its slot is filled with a string. -/
def Llega (O : Primitives) (b : ParamBind) (input : Input) (s : Bytes) : Prop :=
  rawText b input = some (texto s) ∧
    ∀ left, bindParam O b input left = (.ok (.value (.str (texto s))), left)

/-- The handler receives `s`, which was sent as `e`: as a parameter of the query, in the fields
    that `form()` gives, and as a segment. -/
structure Recibe {H : Type} (O : Primitives) (p : Peticion H) (s e : Bytes) : Prop where
  query : Llega O ⟨.query, texto (urlDecode p.key), "string", none⟩ (p.input e) s
  form : (campos (parseFormEncoded (p.consulta e))).lookup (texto (formUrlDecode p.key)) =
    some (texto s)
  path : (p.encontrado e).handler.isSome = true ∧
    Llega O ⟨.path, p.name, "string", none⟩ (p.input e) s

section Strings

variable {s t e : Bytes} {segs : List String} {O : Primitives} {b : ParamBind} {input : Input}

theorem ofNat_inj {a c : UInt8} (h : Char.ofNat a.toNat = Char.ofNat c.toNat) : a = c := by
  have hall : ∀ n < 256, (Char.ofNat n).toNat = n := by decide +kernel
  apply UInt8.toNat_inj.1
  rw [← hall _ a.toNat_lt, h, hall _ c.toNat_lt]

theorem texto_inj : texto s = texto t ↔ s = t := by
  refine ⟨fun h => ?_, congrArg texto⟩
  apply List.map_injective_iff.2 (fun _ _ => ofNat_inj)
  exact String.ofList_injective h

theorem lookup_campos (ps : List (Bytes × Bytes)) (k : Bytes) :
    (campos ps).lookup (texto k) = (ps.lookup k).map texto := by
  induction ps with
  | nil => rfl
  | cons q ps ih =>
    obtain ⟨k', v⟩ := q
    have hcons : campos ((k', v) :: ps) = (texto k', texto v) :: campos ps := rfl
    rw [hcons, List.lookup_cons, List.lookup_cons]
    by_cases hk : k = k'
    · rw [beq_iff_eq.2 hk, beq_iff_eq.2 (congrArg texto hk)]
      rfl
    · rw [beq_eq_false_iff_ne.2 hk, beq_eq_false_iff_ne.2 (texto_inj.not.2 hk), ih]

/-- The segments of a path. -/
theorem splitPath_rutaDe (h : ∀ seg ∈ segs, seg ≠ "" ∧ '/' ∉ seg.toList) :
    splitPath (rutaDe segs).toList = segs := by
  have hchars : ∀ q ∈ segs.map String.toList, '/' ∉ q := by
    intro q hq
    obtain ⟨seg, hseg, rfl⟩ := List.mem_map.1 hq
    exact (h seg hseg).2
  have hsplit : (rutaDe segs).toList.splitOn '/' = [] :: segs.map String.toList := by
    rw [rutaDe, String.toList_ofList, ← Lib.splitOn_flatMap List.not_mem_nil hchars,
      List.flatMap_map]
    rfl
  have hall : (segs.map String.toList).filter (· ≠ []) = segs.map String.toList := by
    apply List.filter_eq_self.2
    intro q hq
    obtain ⟨seg, hseg, rfl⟩ := List.mem_map.1 hq
    simpa using (h seg hseg).1
  rw [splitPath, hsplit, List.filter_cons_of_neg (by simp), hall, List.map_map]
  exact List.map_congr_left (fun seg _ => String.ofList_toList) |>.trans (List.map_id _)

/-- The path ends in a segment. -/
theorem dropSlash_rutaDe (h : ∀ seg ∈ segs, seg ≠ "" ∧ '/' ∉ seg.toList) :
    dropSlash (rutaDe segs).toList = (rutaDe segs).toList := by
  unfold dropSlash
  refine if_neg fun hslash => ?_
  rw [rutaDe, String.toList_ofList] at hslash
  induction segs using List.reverseRecOn with
  | nil => cases hslash.2
  | append_singleton init seg =>
    obtain ⟨hne, hno⟩ := h seg (by simp)
    have hlast : seg.toList.getLast? = some '/' := by
      have hcons : ('/' :: seg.toList).getLast? = seg.toList.getLast? := by
        cases hs : seg.toList with
        | nil => exact absurd (String.toList_eq_nil_iff.1 hs) hne
        | cons c cs => rfl
      rw [← hcons, ← hslash.2, List.flatMap_append, List.flatMap_singleton,
        List.getLast?_append_of_ne_nil _ (List.cons_ne_nil _ _)]
    exact hno (List.mem_of_getLast? hlast)

theorem splitPath_ne {cs : List Char} {seg : String} (h : seg ∈ splitPath cs) : seg ≠ "" := by
  obtain ⟨q, hq, rfl⟩ := List.mem_map.1 h
  simpa using (List.mem_filter.1 hq).2

theorem llega_iff (hk : b.kind = .path ∨ b.kind = .query) (ht : b.type = "string") :
    Llega O b input s ↔ rawText b input = some (texto s) := by
  refine and_iff_left_of_imp fun hraw left => ?_
  obtain ⟨kind, name, type, default⟩ := b
  obtain rfl | rfl := hk <;>
  · subst ht
    simp only [bindParam, hraw]
    rfl

end Strings

/-! ## Bindings -/

section Bindings

variable {segs vs : List String} {seg value : String} {i : ℕ}

theorem mem_bindings (hseg : segs[i]? = some seg) (hparam : keyOf seg = .param)
    (hvalue : vs[i]? = some value) : (nameOf seg, value) ∈ bindings segs vs := by
  induction segs generalizing i vs with
  | nil => cases hseg
  | cons seg' segs ih =>
    cases vs with
    | nil => cases hvalue
    | cons value' vs =>
      cases i with
      | zero =>
        cases hseg
        cases hvalue
        rw [bindings, if_pos hparam]
        exact List.mem_cons_self ..
      | succ i =>
        have hmem := ih (by simpa using hseg) (by simpa using hvalue)
        rw [bindings]
        split
        · exact List.mem_cons_of_mem _ hmem
        · exact hmem

/-- Each name is bound to a segment of the path. -/
theorem bindings_mem {name : String} (h : (name, value) ∈ bindings segs vs) : value ∈ vs := by
  induction segs generalizing vs with
  | nil => cases h
  | cons seg segs ih =>
    cases vs with
    | nil => cases h
    | cons value' vs =>
      rw [bindings] at h
      split at h
      · obtain heq | h := List.mem_cons.1 h
        · cases heq
          exact List.mem_cons_self ..
        · exact List.mem_cons_of_mem _ (ih h)
      · exact List.mem_cons_of_mem _ (ih h)

theorem names_bindings (segs vs : List String) :
    ((bindings segs vs).map Prod.fst).Sublist (paramNames segs) := by
  induction segs generalizing vs with
  | nil => exact List.nil_sublist _
  | cons seg segs ih =>
    cases vs with
    | nil => exact List.nil_sublist _
    | cons value vs =>
      rw [bindings, paramNames]
      by_cases hk : keyOf seg = .param
      · rw [if_pos hk, List.filter_cons_of_pos (by simpa using hk)]
        exact (ih vs).cons_cons _
      · rw [if_neg hk, List.filter_cons_of_neg (by simpa using hk)]
        exact ih vs

theorem lookup_of_nodup {l : List (String × String)} {name : String}
    (hn : (l.map Prod.fst).Nodup) (h : (name, value) ∈ l) : l.lookup name = some value := by
  induction l with
  | nil => cases h
  | cons q l ih =>
    obtain ⟨name', value'⟩ := q
    rw [List.map_cons, List.nodup_cons] at hn
    obtain heq | h := List.mem_cons.1 h
    · cases heq
      exact List.lookup_cons_self
    · have hne : name ≠ name' := fun heq => hn.1 (List.mem_map.2 ⟨_, h, heq⟩)
      rw [List.lookup_cons, beq_eq_false_iff_ne.2 hne]
      exact ih hn.2 h

end Bindings

/-! ## What is received -/

section Received

variable {H : Type} {O : Primitives} {p : Peticion H} {s e : Bytes}

theorem codifica_bytes (h : Codifica s e) : ∀ c ∈ e, c = 0x25 ∨ noReservado c = true := by
  have hall : ∀ n < 256, (xdigit (UInt8.ofNat n)).isSome = true →
      noReservado (UInt8.ofNat n) = true := by
    decide +kernel
  have hdigit : ∀ {a : UInt8} {x : ℕ}, xdigit a = some x → noReservado a = true := by
    intro a x ha
    rw [← UInt8.ofNat_toNat (x := a)]
    refine hall _ a.toNat_lt ?_
    rw [UInt8.ofNat_toNat, ha]
    rfl
  induction h with
  | nil => exact List.forall_mem_nil _
  | libre hc h ih => exact List.forall_mem_cons.2 ⟨.inr hc, ih⟩
  | escapado ha hb h ih =>
    exact List.forall_mem_cons.2 ⟨.inl rfl,
      List.forall_mem_cons.2 ⟨.inr (hdigit ha), List.forall_mem_cons.2 ⟨.inr (hdigit hb), ih⟩⟩⟩

theorem codifica_not_mem {c : UInt8} (h : Codifica s e) (hc : ¬ (c = 0x25 ∨ noReservado c = true)) :
    c ∉ e := fun hmem => hc (codifica_bytes h c hmem)

theorem codifica_nil : Codifica s [] ↔ s = [] := by
  constructor
  · intro h
    cases h
    rfl
  · rintro rfl
    exact .nil

/-- The query and the form give the value back. -/
theorem lookup_consulta (h0 : 0 ∉ s) (he : Codifica s e) (hp : p.Bien e) :
    (parseQuery (p.consulta e)).lookup (urlDecode p.key) = some s := by
  have hamp : 0x26 ∉ p.key ++ 0x3D :: e := by
    rw [List.mem_append, List.mem_cons]
    rintro (hkey | heq | hmem)
    · exact hp.key_amp hkey
    · cases heq
    · exact codifica_not_mem he (by decide +kernel) hmem
  rw [Peticion.consulta, parseQuery,
    lookup_parametros hp.key_eq hamp hp.antes hp.despues hp.last, urlDecode_codifica he h0]

theorem form_eq_query (src : Bytes) : parseFormEncoded src = parseQuery src := by
  have hdecode : formUrlDecode = urlDecode := funext formUrlDecode_eq
  rw [parseFormEncoded, hdecode]
  rfl

/-- The text that the segment is bound to. -/
theorem rawText_path (input : Input) (name : String) :
    rawText ⟨.path, name, "string", none⟩ input = input.params.lookup name := rfl

theorem input_params (p : Peticion H) (e : Bytes) :
    (p.input e).params = (p.encontrado e).params := by
  unfold Peticion.input
  with_reducible rfl

/-- The text of the parameter of the query. -/
theorem rawText_query (p : Peticion H) (e : Bytes) (k : Bytes) :
    rawText ⟨.query, texto k, "string", none⟩ (p.input e) =
      ((parseQuery (p.consulta e)).lookup k).map texto := by
  rw [← lookup_campos]
  exact Option.or_none ..

/-- The route that the router finds, and what it binds. -/
theorem match_cases {regs : List (Registration H)} {method path : String} {found : RouteMatch H}
    {segs : List String} (hfound : (Router.empty.addAll regs).match method path = found)
    (hsegs : splitPath (dropSlash path.toList) = segs) :
    (found.params = [] ∧ ∀ r ∈ routesOf regs, ¬ r.Serves method segs) ∨
      (found.handler.isSome = true ∧ ∃ r, Chosen (routesOf regs) method segs r ∧
        (NamesAgree (routesOf regs) → found.params.Perm (bindings r.segs segs))) := by
  have hspec := match_spec regs method path
  rw [hfound, hsegs] at hspec
  obtain ⟨_ | h, params⟩ := found
  · exact .inl hspec
  · obtain ⟨r, hr, -, hperm⟩ := hspec
    exact .inr ⟨rfl, r, hr, hperm⟩

/-- The segment that is sent is bound as it stands. -/
theorem params_lookup (he : Codifica s e) (hp : p.Bien e) (hne : e ≠ []) :
    (p.encontrado e).handler.isSome = true ∧
      (p.encontrado e).params.lookup p.name = some (texto e) := by
  obtain ⟨⟨r₀, hr₀, hserves⟩, hbound⟩ := hp.enlaza hne
  have hsegs : ∀ seg ∈ p.segmentos e, seg ≠ "" ∧ '/' ∉ seg.toList := by
    intro seg hseg
    rw [Peticion.segmentos, List.mem_append, List.mem_cons] at hseg
    obtain hseg | rfl | hseg := hseg
    · exact hp.segs seg (List.mem_append_left _ hseg)
    · refine ⟨fun hempty => hne (texto_inj.1 (hempty.trans rfl)), fun hmem => ?_⟩
      rw [texto, String.toList_ofList] at hmem
      obtain ⟨c, hc, heq⟩ := List.mem_map.1 hmem
      obtain rfl : c = 0x2F := ofNat_inj (heq.trans rfl)
      exact codifica_not_mem he (by decide +kernel) hc
    · exact hp.segs seg (List.mem_append_right _ hseg)
  have hpath : splitPath (dropSlash (rutaDe (p.segmentos e)).toList) = p.segmentos e := by
    rw [dropSlash_rutaDe hsegs, splitPath_rutaDe hsegs]
  obtain ⟨-, hnone⟩ | ⟨hfound, r, hr, hperm⟩ := match_cases (Peticion.encontrado.eq_1 p e).symm hpath
  · exact absurd hserves (hnone r₀ hr₀)
  · obtain ⟨seg, hseg, hparam, hname⟩ := hbound r hr
    obtain ⟨before, after, hroutes, -⟩ := hr.last
    have hperm := hperm hp.agree
    have hvalue : (p.segmentos e)[p.pre.length]? = some (texto e) := by
      rw [Peticion.segmentos, List.getElem?_append_right le_rfl, Nat.sub_self]
      rfl
    have hnodup : (paramNames r.segs).Nodup := hp.agree.nodup r (by simp [hroutes])
    refine ⟨hfound, lookup_of_nodup ?_ (hname ▸ hperm.symm.subset (mem_bindings hseg hparam hvalue))⟩
    exact (hperm.map _).nodup_iff.2 (hnodup.sublist (names_bindings ..))

/-- No parameter is bound to nothing. -/
theorem params_ne (hp : p.Bien e) {name value : String}
    (h : (p.encontrado e).params.lookup name = some value) : value ≠ "" := by
  obtain ⟨hnil, -⟩ | ⟨-, r, -, hperm⟩ := match_cases (Peticion.encontrado.eq_1 p e).symm rfl
  · rw [hnil] at h
    cases h
  · obtain ⟨before, after, hparams, -⟩ := List.lookup_eq_some_iff.1 h
    have hmem : (name, value) ∈ (p.encontrado e).params := by simp [hparams]
    exact splitPath_ne (bindings_mem ((hperm hp.agree).subset hmem))

/-- **What a handler receives.**  A string without zero bytes is received wherever it is sent,
    exactly if it is not empty and none of its bytes is escaped.  For every text the decoders of
    the query and of the form are the same, and replace digits only exactly if there is no `%` with
    a blank or a sign behind it. -/
theorem received_iff (O : Primitives) (h0 : 0 ∉ s) (he : Codifica s e) (hp : p.Bien e)
    (t : Bytes) : (Recibe O p s e ↔ s = e ∧ s ≠ []) ∧
      (urlDecode t = formUrlDecode t ∧ urlDecode t = decodifica t ↔ Limpio t) := by
  have hform := lookup_consulta h0 he hp
  refine ⟨⟨fun h => ?_, ?_⟩, ?_⟩
  · have hpath := h.path.2.1
    rw [rawText_path, input_params] at hpath
    by_cases hne : e = []
    · subst hne
      obtain rfl := codifica_nil.1 he
      exact absurd rfl (params_ne hp hpath)
    · have heq := (params_lookup he hp hne).2.symm.trans hpath
      obtain rfl : e = s := texto_inj.1 (Option.some.inj heq)
      exact ⟨rfl, hne⟩
  · rintro ⟨rfl, hne⟩
    obtain ⟨hfound, hlookup⟩ := params_lookup he hp hne
    refine ⟨?_, ?_, hfound, ?_⟩
    · rw [llega_iff (.inr rfl) rfl, rawText_query, hform]
      rfl
    · rw [form_eq_query, formUrlDecode_eq, lookup_campos, hform]
      rfl
    · rw [llega_iff (.inl rfl) rfl, rawText_path, input_params, hlookup]
  · rw [formUrlDecode_eq, ← urlDecode_eq_iff]
    exact and_iff_right rfl

end Received

/-- A request for `/u/:id`, whose query has one parameter. -/
def usuario : Peticion ℕ where
  antes := []
  key := [0x71]
  despues := []
  regs := [⟨"GET", "/u/:id", 7⟩]
  method := "GET"
  pre := ["u"]
  post := []
  name := "id"

theorem usuario_routes : routesOf usuario.regs = [⟨["u", ":id"], "GET", 7⟩] := by decide

theorem usuario_bien (e : Bytes) : usuario.Bien e where
  key_eq := by decide
  key_amp := by decide
  antes := List.forall_mem_nil _
  despues := List.forall_mem_nil _
  last := List.forall_mem_nil _
  segs := by decide
  agree := by
    rw [usuario_routes]
    exact namesAgree_single (by decide)
  enlaza _ := by
    have hkeys : ["u", ":id"].map keyOf = [.static "u", .param] := by decide
    refine ⟨⟨_, usuario_routes ▸ List.mem_singleton_self _, ?_, .inl rfl⟩, fun r hr => ?_⟩
    · rw [Route.keys, hkeys]
      exact ⟨rfl, trivial⟩
    · obtain ⟨before, after, hroutes, -⟩ := hr.last
      have hmem : r ∈ routesOf usuario.regs := by simp [hroutes]
      rw [usuario_routes, List.mem_singleton] at hmem
      subst hmem
      exact ⟨":id", rfl, by decide, by decide⟩

/-- The primitives of a program without bodies. -/
def sinCuerpos : Primitives where
  parseJson _ := none
  runRule _ _ := .ok true
  stoll _ := none
  stod _ := none

theorem received_iff_letter : (Recibe sinCuerpos usuario [0x61] [0x61] ↔
    ([0x61] : Bytes) = [0x61] ∧ ([0x61] : Bytes) ≠ []) ∧
      (urlDecode [0x25, 0x34, 0x31] = formUrlDecode [0x25, 0x34, 0x31] ∧
        urlDecode [0x25, 0x34, 0x31] = decodifica [0x25, 0x34, 0x31] ↔ Limpio [0x25, 0x34, 0x31]) :=
  received_iff sinCuerpos (by decide) (.libre (by decide +kernel) .nil) (usuario_bien _) _

/-- A blank that is sent as `%20` is received as `%20` when it is sent in the path; and `%+1` is
    decoded. -/
theorem blank_not_received : Codifica [0x20] [0x25, 0x32, 0x30] ∧
    usuario.Bien [0x25, 0x32, 0x30] ∧
    (usuario.encontrado [0x25, 0x32, 0x30]).params.lookup "id" = some "%20" ∧
    ¬ Recibe sinCuerpos usuario [0x20] [0x25, 0x32, 0x30] ∧
    urlDecode [0x25, 0x2B, 0x31] = [1] ∧ decodifica [0x25, 0x2B, 0x31] = [0x25, 0x20, 0x31] := by
  have he : Codifica [0x20] [0x25, 0x32, 0x30] :=
    .escapado (by decide +kernel) (by decide +kernel) .nil
  have hlookup := (params_lookup he (usuario_bien _) (by decide)).2
  refine ⟨he, usuario_bien _, hlookup.trans (congrArg some (by decide)), fun h => ?_,
    by decide +kernel, by decide +kernel⟩
  have hpath := h.path.2.1
  rw [rawText_path, input_params, hlookup] at hpath
  exact absurd (texto_inj.1 (Option.some.inj hpath)) (by decide)

end Osodio.Odio
