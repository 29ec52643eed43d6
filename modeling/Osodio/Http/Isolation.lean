import Osodio.Http.Parser
import Mathlib.Algebra.GroupWithZero.Nat
import Mathlib.Data.List.Forall2
import Mathlib.Data.List.TakeWhile

/-!
# Requests do not contaminate each other

What the parser delivers for a sequence of requests, for every way in which
llhttp cuts them into pieces.  The last field of a trailer section stays in the
context when its message ends, and is committed to the next request.

## Main definitions

- `Request`, `Reports` — a request and the callbacks llhttp may report it by
- `Faithful` — a delivered request says what its own bytes say
- `Untrailed` — no trailer field is left behind for a later request

## Main results

- `run_request` — what one request leaves behind
- `faithful_iff_untrailed` — all requests are delivered faithfully if and only
  if no trailer field gets in the way
-/

namespace Osodio.Http

abbrev Field := Bytes × Bytes

/-- One HTTP request as its bytes say it. -/
structure Request where
  method : Bytes
  target : Bytes
  major : ℕ := 1
  minor : ℕ := 1
  head : List Field := []
  body : Bytes := []
  trailer : List Field := []
  deriving DecidableEq, Repr

/-- Well formed, and within the limits of the parser. -/
structure Request.Within (q : Request) : Prop where
  target : q.target.length ≤ kMaxUrlSize
  names : ∀ f ∈ q.head ++ q.trailer, f.1 ≠ [] ∧ f.1.length ≤ kMaxHeaderSize
  values : ∀ f ∈ q.head ++ q.trailer, f.2.length ≤ kMaxHeaderSize
  count : (q.head ++ q.trailer).length ≤ kMaxHeaderCount
  body : q.body.length ≤ kMaxBodySize

/-- llhttp reports a field by pieces of its name and of its value.  An empty
    value is still reported once. -/
def ReportsField (f : Field) (cbs : List Callback) : Prop :=
  ∃ ns vs : List Bytes, ns.flatten = f.1 ∧ vs.flatten = f.2 ∧ vs ≠ [] ∧
    cbs = ns.map .headerField ++ vs.map .headerValue

/-- llhttp reports a request by `cbs`. -/
def Reports (q : Request) (cbs : List Callback) : Prop :=
  ∃ (us bs : List Bytes) (hs ts : List (List Callback)),
    us.flatten = q.target ∧ List.Forall₂ ReportsField q.head hs ∧
    bs.flatten = q.body ∧ List.Forall₂ ReportsField q.trailer ts ∧
    cbs = us.map .url ++ hs.flatten ++ [.headersComplete q.major q.minor] ++ bs.map .body ++
      ts.flatten ++ [.messageComplete q.method]

/-- The values of the fields named `key`, without regard to case. -/
def valuesOf (fields : List Field) (key : Bytes) : List Bytes :=
  (fields.filter fun f => lower f.1 = key).map Prod.snd

/-- Repeated values are joined in order. -/
def joined (key : Bytes) : List Bytes → Option Bytes
  | [] => none
  | v :: vs => some (vs.foldl (fun acc w => acc ++ separator key ++ w) v)

/-- The delivered request is a function of the request's own bytes. -/
structure Faithful (q : Request) (r : ParsedRequest) : Prop where
  method : r.method = q.method
  path : r.path = q.target.takeWhile (· ≠ 63)
  query : r.query = (q.target.dropWhile (· ≠ 63)).tail
  version : r.version =
    if q.major = 1 ∧ q.minor = 0 then ascii "HTTP/1.0" else ascii "HTTP/1.1"
  headers : ∀ key, r.headers.lookup key = joined key (valuesOf q.head key)
  body : r.body = q.body

/-- Only the last request has a trailer section, and of one field at most. -/
def Untrailed : List Request → Prop
  | [] => True
  | [q] => q.trailer.length ≤ 1
  | q :: q' :: rest => q.trailer = [] ∧ Untrailed (q' :: rest)

/-! ## The header map -/

/-- Commit `fields` in order to the headers `m`. -/
def commitAll (m : List Field) (fields : List Field) : List Field :=
  fields.foldl (fun m f => joinHeader (lower f.1) f.2 m) m

theorem lookup_joinHeader (key value k : Bytes) (m : List Field) :
    (joinHeader key value m).lookup k =
      if k = key then some (match m.lookup key with
        | none => value
        | some v => v ++ separator key ++ value)
      else m.lookup k := by
  induction m with
  | nil =>
    by_cases h : k = key
    · simp [joinHeader, h]
    · simp [joinHeader, List.lookup_cons, h, beq_eq_false_iff_ne.2 h]
  | cons f m ih =>
    obtain ⟨k', v⟩ := f
    by_cases hk : k' = key
    · subst hk
      by_cases h : k = k'
      · simp [joinHeader, h]
      · simp [joinHeader, List.lookup_cons, h, beq_eq_false_iff_ne.2 h]
    · have hk' : (key == k') = false := beq_eq_false_iff_ne.2 (Ne.symm hk)
      simp only [joinHeader, hk, if_false, List.lookup_cons, hk', ih]
      by_cases h : k = k'
      · subst h
        simp [hk]
      · simp only [beq_eq_false_iff_ne.2 h]

theorem joined_concat (key : Bytes) (vs : List Bytes) (w : Bytes) :
    joined key (vs ++ [w]) = some (match joined key vs with
      | none => w
      | some v => v ++ separator key ++ w) := by
  cases vs with
  | nil => rfl
  | cons v vs => simp [joined]

theorem joined_eq_none {key : Bytes} {vs : List Bytes} (h : joined key vs = none) : vs = [] := by
  cases vs with
  | nil => rfl
  | cons v vs => simp [joined] at h

/-- The header map says of each key the joined values of its fields. -/
theorem lookup_commitAll (fields : List Field) (k : Bytes) :
    (commitAll [] fields).lookup k = joined k (valuesOf fields k) := by
  induction fields using List.reverseRecOn with
  | nil => rfl
  | append_singleton fields f ih =>
    have hcommit : commitAll [] (fields ++ [f]) =
        joinHeader (lower f.1) f.2 (commitAll [] fields) := by simp [commitAll]
    rw [hcommit, lookup_joinHeader]
    by_cases h : k = lower f.1
    · subst h
      have hv : valuesOf (fields ++ [f]) (lower f.1) = valuesOf fields (lower f.1) ++ [f.2] := by
        simp [valuesOf]
      rw [if_pos rfl, hv, joined_concat, ih]
    · have hv : valuesOf (fields ++ [f]) k = valuesOf fields k := by
        simp [valuesOf, Ne.symm h]
      rw [if_neg h, hv, ih]

/-- Joined values are longer than what they are joined from. -/
theorem joined_length {key : Bytes} {vs : List Bytes} {w : Bytes} (h : joined key vs = some w) :
    w.length + (separator key).length =
      (vs.map List.length).sum + vs.length * (separator key).length := by
  induction vs using List.reverseRecOn generalizing w with
  | nil => simp [joined] at h
  | append_singleton vs v ih =>
    rw [joined_concat] at h
    obtain rfl := Option.some.inj h
    cases hj : joined key vs with
    | none =>
      obtain rfl := joined_eq_none hj
      simp
    | some u =>
      have := ih hj
      simp only [List.length_append, List.map_append, List.sum_append, List.map_cons,
        List.map_nil, List.sum_cons, List.sum_nil, List.length_singleton, Nat.add_mul]
      omega

theorem separator_pos (key : Bytes) : 0 < (separator key).length := by
  unfold separator
  split <;> decide

/-- Foreign fields around one's own always show. -/
theorem eq_nil_of_joined_eq {before own after : List Field}
    (h : ∀ key, joined key (valuesOf (before ++ own ++ after) key) =
      joined key (valuesOf own key)) : before = [] ∧ after = [] := by
  by_contra hne
  obtain ⟨f, hf⟩ : ∃ f, f ∈ before ++ after := by
    refine List.exists_mem_of_ne_nil _ fun hnil => hne ?_
    simpa using hnil
  have hkey := h (lower f.1)
  have hsplit : valuesOf (before ++ own ++ after) (lower f.1) =
      valuesOf before (lower f.1) ++ valuesOf own (lower f.1) ++ valuesOf after (lower f.1) := by
    simp [valuesOf]
  have hmore : 0 < (valuesOf before (lower f.1)).length + (valuesOf after (lower f.1)).length := by
    have hmem : f.2 ∈ valuesOf before (lower f.1) ++ valuesOf after (lower f.1) := by
      have hb := List.mem_append.1 hf
      simp only [valuesOf, List.mem_append, List.mem_map, List.mem_filter]
      rcases hb with hb | hb
      · exact .inl ⟨f, ⟨hb, by simp⟩, rfl⟩
      · exact .inr ⟨f, ⟨hb, by simp⟩, rfl⟩
    simpa using List.length_pos_of_mem hmem
  rw [hsplit] at hkey
  generalize valuesOf before (lower f.1) = bs at hkey hmore
  generalize valuesOf own (lower f.1) = os at hkey
  generalize valuesOf after (lower f.1) = as at hkey hmore
  cases hb : joined (lower f.1) (bs ++ os ++ as) with
  | none =>
    have hnil := joined_eq_none hb
    simp only [List.append_eq_nil_iff] at hnil
    simp [hnil.1.1, hnil.2] at hmore
  | some w =>
    have h1 := joined_length hb
    have h2 := joined_length (hkey.symm.trans hb)
    have hs := separator_pos (lower f.1)
    simp only [List.length_append, List.map_append, List.sum_append, Nat.add_mul] at h1
    have : 0 < bs.length * (separator (lower f.1)).length +
        as.length * (separator (lower f.1)).length := by
      rw [← Nat.add_mul]
      exact Nat.mul_pos hmore hs
    omega

/-! ## The pieces of one request -/

section Pieces
variable {c : ParseContext} {d : List ParsedRequest}

theorem run_append (p : HttpParser) (xs ys : List Callback) :
    p.run (xs ++ ys) = (p.run xs).run ys := List.foldl_append

theorem run_cons (p : HttpParser) (x : Callback) (xs : List Callback) :
    p.run (x :: xs) = (p.onCallback x).run xs := rfl

theorem run_of_error {p : HttpParser} (h : p.ctx.error = true) (cbs : List Callback) :
    p.run cbs = p := by
  induction cbs with
  | nil => rfl
  | cons cb cbs ih =>
    have hcb : p.onCallback cb = p := by simp [HttpParser.onCallback, h]
    rw [run_cons, hcb, ih]

theorem run_url {us : List Bytes} (he : c.error = false)
    (hlen : (c.current.path ++ us.flatten).length ≤ kMaxUrlSize) :
    HttpParser.run ⟨c, d⟩ (us.map .url) =
      ⟨{ c with current := { c.current with path := c.current.path ++ us.flatten } }, d⟩ := by
  induction us generalizing c with
  | nil => simp [HttpParser.run]
  | cons u us ih =>
    simp only [List.flatten_cons, List.length_append] at hlen
    have hle : ¬ c.current.path.length + u.length > kMaxUrlSize := by omega
    rw [List.map_cons, run_cons, HttpParser.onCallback]
    simp only [he, cbOnUrl, if_neg hle, Bool.false_eq_true, if_false]
    rw [ih rfl (by simp only [List.length_append]; omega)]
    simp

theorem run_body {bs : List Bytes} (he : c.error = false)
    (hlen : (c.current.body ++ bs.flatten).length ≤ kMaxBodySize) :
    HttpParser.run ⟨c, d⟩ (bs.map .body) =
      ⟨{ c with current := { c.current with body := c.current.body ++ bs.flatten } }, d⟩ := by
  induction bs generalizing c with
  | nil => simp [HttpParser.run]
  | cons b bs ih =>
    simp only [List.flatten_cons, List.length_append] at hlen
    have hle : ¬ c.current.body.length + b.length > kMaxBodySize := by omega
    rw [List.map_cons, run_cons, HttpParser.onCallback]
    simp only [he, cbOnBody, if_neg hle, Bool.false_eq_true, if_false]
    rw [ih rfl (by simp only [List.length_append]; omega)]
    simp

/-- Further pieces of a name, when no value is pending. -/
theorem run_fieldPieces {ns : List Bytes} (he : c.error = false) (hp : c.valuePending = false)
    (hlen : (c.lastField ++ ns.flatten).length ≤ kMaxHeaderSize) :
    HttpParser.run ⟨c, d⟩ (ns.map .headerField) =
      ⟨{ c with lastField := c.lastField ++ ns.flatten }, d⟩ := by
  induction ns generalizing c with
  | nil => simp [HttpParser.run]
  | cons n ns ih =>
    simp only [List.flatten_cons, List.length_append] at hlen
    have hle : ¬ c.lastField.length + n.length > kMaxHeaderSize := by omega
    rw [List.map_cons, run_cons, HttpParser.onCallback]
    simp only [he, hp, cbOnHeaderField, commitHeader, if_neg hle, Bool.false_eq_true, if_false,
      false_and, Bool.not_false, if_true]
    rw [ih rfl rfl (by simp only [List.length_append]; omega)]
    simp

theorem run_valuePieces {vs : List Bytes} (he : c.error = false) (hvs : vs ≠ [])
    (hlen : (c.lastValue ++ vs.flatten).length ≤ kMaxHeaderSize) :
    HttpParser.run ⟨c, d⟩ (vs.map .headerValue) =
      ⟨{ c with lastValue := c.lastValue ++ vs.flatten, valuePending := true }, d⟩ := by
  induction vs generalizing c with
  | nil => exact absurd rfl hvs
  | cons v vs ih =>
    simp only [List.flatten_cons, List.length_append] at hlen
    have hle : ¬ c.lastValue.length + v.length > kMaxHeaderSize := by omega
    rw [List.map_cons, run_cons, HttpParser.onCallback]
    simp only [he, cbOnHeaderValue, if_neg hle, Bool.false_eq_true, if_false]
    rcases eq_or_ne vs [] with rfl | hne
    · simp [HttpParser.run]
    · rw [ih rfl hne (by simp only [List.length_append]; omega)]
      simp

end Pieces

/-! ## The field that waits to be committed -/

/-- The context while a head or a trailer is read: `pend` has been read in full
    and not been committed. -/
def pendingCtx (r : ParsedRequest) (pend : Option Field) (n : ℕ) : ParseContext where
  current := r
  lastField := (pend.map Prod.fst).getD []
  lastValue := (pend.map Prod.snd).getD []
  valuePending := pend.isSome
  headerCount := n

/-- `r` with more fields committed. -/
def ParsedRequest.withFields (r : ParsedRequest) (fields : List Field) : ParsedRequest :=
  { r with headers := commitAll r.headers fields }

theorem withFields_append (r : ParsedRequest) (fs gs : List Field) :
    (r.withFields fs).withFields gs = r.withFields (fs ++ gs) := by
  simp [ParsedRequest.withFields, commitAll]

@[simp] theorem withFields_nil (r : ParsedRequest) : r.withFields [] = r := rfl

theorem commitHeader_pendingCtx (r : ParsedRequest) (pend : Option Field) (n : ℕ) :
    commitHeader (pendingCtx r pend n) =
      pendingCtx (r.withFields pend.toList) none (n + pend.toList.length) := by
  cases pend <;> simp [commitHeader, pendingCtx, ParsedRequest.withFields, commitAll]

section Fields
variable {r : ParsedRequest} {d : List ParsedRequest}

/-- Reading a field commits the one that was pending. -/
theorem run_field {f : Field} {cbs : List Callback} {pend : Option Field} {n : ℕ}
    (h : ReportsField f cbs) (hname : f.1 ≠ []) (hlen1 : f.1.length ≤ kMaxHeaderSize)
    (hlen2 : f.2.length ≤ kMaxHeaderSize) (hn : n + pend.toList.length ≤ kMaxHeaderCount) :
    HttpParser.run ⟨pendingCtx r pend n, d⟩ cbs =
      ⟨pendingCtx (r.withFields pend.toList) (some f) (n + pend.toList.length), d⟩ := by
  obtain ⟨ns, vs, hns, hvs, hne, rfl⟩ := h
  cases ns with
  | nil => exact absurd hns.symm hname
  | cons x ns =>
    -- the first piece of the name commits; the others find nothing to commit
    have hcount : ¬ ((pendingCtx r pend n).valuePending ∧
        (pendingCtx r pend n).headerCount ≥ kMaxHeaderCount) := by
      cases pend with
      | none => simp [pendingCtx]
      | some g =>
        simp only [Option.toList_some, List.length_singleton] at hn
        simp only [pendingCtx, not_and]
        omega
    rw [← hns, List.flatten_cons, List.length_append] at hlen1
    have hx : ¬ (commitHeader (pendingCtx r pend n)).lastField.length + x.length >
        kMaxHeaderSize := by
      rw [commitHeader_pendingCtx]
      simp only [pendingCtx, Option.map_none, Option.getD_none, List.length_nil]
      omega
    have hfirst : HttpParser.onCallback ⟨pendingCtx r pend n, d⟩ (.headerField x) =
        ⟨{ pendingCtx (r.withFields pend.toList) none (n + pend.toList.length) with
            lastField := x }, d⟩ := by
      rw [HttpParser.onCallback, if_neg (by simp [pendingCtx])]
      simp only [cbOnHeaderField, if_neg hcount, if_neg hx]
      rw [commitHeader_pendingCtx]
      simp [pendingCtx]
    rw [List.map_cons, List.cons_append, run_cons, hfirst, run_append,
      run_fieldPieces rfl rfl (by simp only [List.length_append]; omega),
      run_valuePieces rfl hne (by simpa [pendingCtx, hvs] using hlen2)]
    rw [List.flatten_cons] at hns
    simp [pendingCtx, hns, hvs]

/-- Reading fields leaves the last of them pending. -/
theorem run_fields {fs : List Field} {hs : List (List Callback)} (h : List.Forall₂ ReportsField fs hs)
    (hnames : ∀ f ∈ fs, f.1 ≠ [] ∧ f.1.length ≤ kMaxHeaderSize)
    (hvalues : ∀ f ∈ fs, f.2.length ≤ kMaxHeaderSize) (pend : Option Field) (n : ℕ)
    (hn : n + (pend.toList ++ fs).dropLast.length ≤ kMaxHeaderCount) :
    HttpParser.run ⟨pendingCtx r pend n, d⟩ hs.flatten =
      ⟨pendingCtx (r.withFields (pend.toList ++ fs).dropLast) (pend.toList ++ fs).getLast?
        (n + (pend.toList ++ fs).dropLast.length), d⟩ := by
  induction h generalizing r pend n with
  | nil => cases pend <;> simp [HttpParser.run]
  | @cons f cbs fs hs hf _ ih =>
    have hdrop : (pend.toList ++ f :: fs).dropLast = pend.toList ++ (f :: fs).dropLast :=
      List.dropLast_append_of_ne_nil (by simp)
    have hlast : (pend.toList ++ f :: fs).getLast? = (f :: fs).getLast? := by
      rw [List.getLast?_append_of_ne_nil _ (by simp)]
    rw [hdrop, List.length_append] at hn ⊢
    have hf' := hnames f (by simp)
    rw [List.flatten_cons, run_append,
      run_field hf hf'.1 hf'.2 (hvalues f (by simp)) (by omega),
      ih (fun g hg => hnames g (by simp [hg])) (fun g hg => hvalues g (by simp [hg])) _ _
        (by simp only [Option.toList_some, List.singleton_append]; omega),
      withFields_append, hlast, Nat.add_assoc]
    simp

end Fields

/-! ## One request -/

def versionOf (q : Request) : Bytes :=
  if q.major = 1 ∧ q.minor = 0 then ascii "HTTP/1.0" else ascii "HTTP/1.1"

/-- What is delivered for `q` when `left` was left behind by the requests
    before it. -/
def handedOver (q : Request) (left : Option Field) : ParsedRequest :=
  { splitQuery
      { path := q.target
        version := versionOf q
        headers := commitAll [] (left.toList ++ q.head ++ q.trailer.dropLast)
        body := q.body } with
    method := q.method }

section Request
variable {q : Request} {cbs : List Callback} {left : Option Field} {d : List ParsedRequest}

/-- The context at the end of the head: its last field is still pending. -/
def headCtx (q : Request) (left : Option Field) : ParseContext :=
  pendingCtx (({ path := q.target } : ParsedRequest).withFields (left.toList ++ q.head).dropLast)
    (left.toList ++ q.head).getLast? (left.toList ++ q.head).dropLast.length

/-- The request as its head says it. -/
def headOf (q : Request) (left : Option Field) : ParsedRequest where
  path := q.target
  version := versionOf q
  headers := commitAll [] (left.toList ++ q.head)

theorem run_head {us : List Bytes} {hs : List (List Callback)} (hq : q.Within)
    (hus : us.flatten = q.target) (hhs : List.Forall₂ ReportsField q.head hs) :
    HttpParser.run ⟨pendingCtx {} left 0, d⟩ (us.map .url ++ hs.flatten) =
      ⟨headCtx q left, d⟩ := by
  have hcount := hq.count
  have hleft : left.toList.length ≤ 1 := by cases left <;> simp
  have hurl : HttpParser.run ⟨pendingCtx {} left 0, d⟩ (us.map .url) =
      ⟨pendingCtx { path := q.target } left 0, d⟩ := by
    rw [run_url rfl (by simpa [pendingCtx, hus] using hq.target)]
    simp [pendingCtx, hus]
  rw [run_append, hurl,
    run_fields hhs (fun f hf => hq.names f (List.mem_append_left _ hf))
      (fun f hf => hq.values f (List.mem_append_left _ hf)) left 0 ?_]
  · simp [headCtx]
  · simp only [List.length_append, List.length_dropLast] at hcount ⊢
    omega

private theorem dropLast_append_toList {α : Type*} (l : List α) :
    l.dropLast ++ l.getLast?.toList = l := by
  rcases eq_or_ne l [] with rfl | h
  · rfl
  · rw [List.getLast?_eq_some_getLast h, Option.toList_some, List.dropLast_append_getLast h]

/-- The end of the head commits the field that is pending. -/
theorem onCallback_headersComplete
    (hroom : (left.toList ++ q.head).length ≤ kMaxHeaderCount) :
    HttpParser.onCallback ⟨headCtx q left, d⟩ (.headersComplete q.major q.minor) =
      ⟨pendingCtx (headOf q left) none (left.toList ++ q.head).length, d⟩ := by
  have hlt : ¬ ((headCtx q left).valuePending ∧ (headCtx q left).headerCount ≥ kMaxHeaderCount) := by
    rintro ⟨hsome, hge⟩
    have hpos : 0 < (left.toList ++ q.head).length := by
      refine List.length_pos_of_ne_nil fun hnil => ?_
      simp [headCtx, pendingCtx, hnil] at hsome
    simp only [headCtx, pendingCtx, List.length_dropLast] at hge
    omega
  have hcommit : commitHeader (headCtx q left) =
      pendingCtx (({ path := q.target } : ParsedRequest).withFields (left.toList ++ q.head))
        none (left.toList ++ q.head).length := by
    rw [headCtx, commitHeader_pendingCtx, withFields_append, ← List.length_append,
      dropLast_append_toList]
  simp only [HttpParser.onCallback, cbOnHeadersComplete]
  rw [if_neg (by simp [headCtx, pendingCtx]), if_neg hlt, hcommit]
  simp [pendingCtx, headOf, versionOf, ParsedRequest.withFields]

/-- A field left behind uses up the header count of a request that has no room
    for it, and the connection is lost. -/
theorem run_request_full (hq : q.Within) (hr : Reports q cbs)
    (hfull : kMaxHeaderCount < (left.toList ++ q.head).length) :
    ∃ c : ParseContext, c.error = true ∧ HttpParser.run ⟨pendingCtx {} left 0, d⟩ cbs = ⟨c, d⟩ := by
  obtain ⟨us, bs, hs, ts, hus, hhs, -, -, rfl⟩ := hr
  refine ⟨{ headCtx q left with error := true }, rfl, ?_⟩
  simp only [List.append_assoc]
  rw [← List.append_assoc, run_append, run_head hq hus hhs, List.singleton_append, run_cons]
  -- the field that is pending at the end of the head finds the count used up
  have hstop : HttpParser.onCallback ⟨headCtx q left, d⟩ (.headersComplete q.major q.minor) =
      ⟨{ headCtx q left with error := true }, d⟩ := by
    have hlast : (headCtx q left).valuePending := by
      have hne : left.toList ++ q.head ≠ [] := by
        rintro hnil
        simp [hnil] at hfull
      simp [headCtx, pendingCtx, List.getLast?_eq_some_getLast hne]
    have hge : (headCtx q left).headerCount ≥ kMaxHeaderCount := by
      simp only [headCtx, pendingCtx, List.length_dropLast]
      omega
    simp only [HttpParser.onCallback, cbOnHeadersComplete, fail]
    rw [if_neg (by simp [headCtx, pendingCtx]), if_pos ⟨hlast, hge⟩]
  rw [hstop, run_of_error rfl]

/-- What one request delivers, and that the last field of its trailer section is
    left behind. -/
theorem run_request (hq : q.Within) (hr : Reports q cbs)
    (hroom : (left.toList ++ q.head).length ≤ kMaxHeaderCount) :
    HttpParser.run ⟨pendingCtx {} left 0, d⟩ cbs =
      ⟨pendingCtx {} q.trailer.getLast? 0, d ++ [handedOver q left]⟩ := by
  obtain ⟨us, bs, hs, ts, hus, hhs, hbs, hts, rfl⟩ := hr
  have hcount := hq.count
  have hleft : left.toList.length ≤ 1 := by cases left <;> simp
  have hbody : HttpParser.run
      ⟨pendingCtx (headOf q left) none (left.toList ++ q.head).length, d⟩ (bs.map .body) =
      ⟨pendingCtx { headOf q left with body := q.body } none
        (left.toList ++ q.head).length, d⟩ := by
    rw [run_body rfl (by simpa [pendingCtx, headOf, hbs] using hq.body)]
    simp [pendingCtx, headOf, hbs]
  have htrailer := run_fields (r := { headOf q left with body := q.body }) (d := d) hts
    (fun f hf => hq.names f (List.mem_append_right _ hf))
    (fun f hf => hq.values f (List.mem_append_right _ hf)) none (left.toList ++ q.head).length
    (by
      simp only [Option.toList_none, List.nil_append, List.length_append,
        List.length_dropLast] at hroom hcount ⊢
      omega)
  simp only [List.append_assoc]
  rw [← List.append_assoc, run_append, run_head hq hus hhs, List.singleton_append, run_cons,
    onCallback_headersComplete hroom, run_append, hbody, run_append, htrailer]
  simp [HttpParser.run, HttpParser.onCallback, cbOnMessageComplete, pendingCtx, handedOver, headOf,
    ParsedRequest.withFields, commitAll, splitQuery]

end Request

/-! ## Any number of requests -/

theorem take_idxOf (a : UInt8) (l : Bytes) : l.take (l.idxOf a) = l.takeWhile (· ≠ a) := by
  induction l with
  | nil => rfl
  | cons b l ih =>
    by_cases h : b = a
    · simp [h]
    · simp [h, ih]

theorem drop_idxOf (a : UInt8) (l : Bytes) :
    l.drop (l.idxOf a + 1) = (l.dropWhile (· ≠ a)).tail := by
  induction l with
  | nil => rfl
  | cons b l ih =>
    by_cases h : b = a
    · simp [h]
    · simp [h, ih]

theorem splitQuery_path (r : ParsedRequest) :
    (splitQuery r).path = r.path.takeWhile (· ≠ 63) := by
  unfold splitQuery
  split
  · exact take_idxOf 63 r.path
  · next h =>
    refine (List.takeWhile_eq_self_iff.2 fun b hb => ?_).symm
    simpa using fun hb' : b = 63 => h (hb' ▸ hb)

theorem splitQuery_query (r : ParsedRequest) (hr : r.query = []) :
    (splitQuery r).query = (r.path.dropWhile (· ≠ 63)).tail := by
  unfold splitQuery
  split
  · exact drop_idxOf 63 r.path
  · next h =>
    have hnil : r.path.dropWhile (· ≠ 63) = [] := by
      refine List.dropWhile_eq_nil_iff.2 fun b hb => ?_
      simpa using fun hb' : b = 63 => h (hb' ▸ hb)
    rw [hnil, hr, List.tail_nil]

theorem splitQuery_headers (r : ParsedRequest) : (splitQuery r).headers = r.headers := by
  unfold splitQuery
  split <;> rfl

/-- A delivered request is faithful when neither a field left behind nor a
    trailer field that was committed has come into it. -/
theorem faithful_handedOver (q : Request) (left : Option Field) :
    Faithful q (handedOver q left) ↔ left = none ∧ q.trailer.length ≤ 1 := by
  have hheaders : ∀ key, (handedOver q left).headers.lookup key =
      joined key (valuesOf (left.toList ++ q.head ++ q.trailer.dropLast) key) := by
    intro key
    simp only [handedOver, splitQuery_headers, lookup_commitAll]
  constructor
  · intro h
    obtain ⟨hl, ht⟩ := eq_nil_of_joined_eq fun key => (hheaders key).symm.trans (h.headers key)
    refine ⟨by simpa using hl, ?_⟩
    have hlen := congrArg List.length ht
    rw [List.length_dropLast, List.length_nil] at hlen
    omega
  · rintro ⟨rfl, ht⟩
    have hdrop : q.trailer.dropLast = [] :=
      List.eq_nil_of_length_eq_zero (by rw [List.length_dropLast]; omega)
    refine ⟨rfl, splitQuery_path _, splitQuery_query _ rfl, ?_, fun key => ?_, ?_⟩
    · simp only [handedOver, splitQuery, versionOf]
      split <;> rfl
    · rw [hheaders key, hdrop]
      simp
    · simp only [handedOver, splitQuery]
      split <;> rfl

/-- The requests that a parser delivers, from a field left behind on. -/
theorem faithful_iff_of_left {qs : List Request} {css : List (List Callback)}
    (hqs : ∀ q ∈ qs, q.Within) (hcs : List.Forall₂ Reports qs css) (left : Option Field)
    (d : List ParsedRequest) :
    ∃ rs, (HttpParser.run ⟨pendingCtx {} left 0, d⟩ css.flatten).delivered = d ++ rs ∧
      (List.Forall₂ Faithful qs rs ↔ (left = none ∨ qs = []) ∧ Untrailed qs) := by
  induction hcs generalizing left d with
  | nil => exact ⟨[], by simp [HttpParser.run], by simp [Untrailed]⟩
  | @cons q cbs qs css hq _ ih =>
    have hwithin := hqs q (by simp)
    rw [List.flatten_cons, run_append]
    by_cases hroom : (left.toList ++ q.head).length ≤ kMaxHeaderCount
    · obtain ⟨rs, hrs, hiff⟩ := ih (fun q' hq' => hqs q' (by simp [hq'])) q.trailer.getLast?
        (d ++ [handedOver q left])
      refine ⟨handedOver q left :: rs, ?_, ?_⟩
      · rw [run_request hwithin hq hroom, hrs]
        simp
      · rw [List.forall₂_cons, faithful_handedOver, hiff]
        cases qs with
        | nil => simp [Untrailed]
        | cons q' qs =>
          simp only [List.getLast?_eq_none_iff, reduceCtorEq, or_false, Untrailed]
          constructor
          · rintro ⟨⟨hl, -⟩, ht, hu⟩
            exact ⟨hl, ht, hu⟩
          · rintro ⟨hl, ht, hu⟩
            exact ⟨⟨hl, by simp [ht]⟩, ht, hu⟩
    · -- the connection is lost, which takes a field left behind
      have hfull : kMaxHeaderCount < (left.toList ++ q.head).length := by omega
      obtain ⟨c, hc, hrun⟩ := run_request_full (d := d) hwithin hq hfull
      refine ⟨[], ?_, ?_⟩
      · rw [hrun, run_of_error hc]
        simp
      · have hleft : left ≠ none := by
          rintro rfl
          have hcount := hwithin.count
          simp only [Option.toList_none, List.nil_append, List.length_append] at hroom hcount
          omega
        simp [hleft]

/-- For requests within the limits, in whatever pieces they are reported: each is
    delivered as a function of its own bytes, if and only if only the last of
    them has a trailer section, of one field at most. -/
theorem faithful_iff_untrailed {qs : List Request} {css : List (List Callback)}
    (hqs : ∀ q ∈ qs, q.Within) (hcs : List.Forall₂ Reports qs css) :
    List.Forall₂ Faithful qs (HttpParser.run {} css.flatten).delivered ↔ Untrailed qs := by
  obtain ⟨rs, hrs, hiff⟩ := faithful_iff_of_left hqs hcs none []
  have hstart : (⟨pendingCtx {} none 0, []⟩ : HttpParser) = {} := rfl
  rw [hstart, List.nil_append] at hrs
  rw [hrs, hiff]
  simp

/-- A `GET` of the root with one header. -/
def getHost : Request where
  method := ascii "GET"
  target := ascii "/"
  head := [(ascii "Host", ascii "a")]

/-- A chunked `POST` with a trailer section of one field. -/
def postTrailer : Request where
  method := ascii "POST"
  target := ascii "/"
  head := [(ascii "Transfer-Encoding", ascii "chunked")]
  body := ascii "hi"
  trailer := [(ascii "X-Role", ascii "admin")]

/-- The callbacks of a request in the largest pieces. -/
def whole (q : Request) : List Callback :=
  [.url q.target] ++ (q.head.map fun f => [.headerField f.1, .headerValue f.2]).flatten ++
    [.headersComplete q.major q.minor] ++ [.body q.body] ++
    (q.trailer.map fun f => [.headerField f.1, .headerValue f.2]).flatten ++
    [.messageComplete q.method]

theorem whole_reports (q : Request) : Reports q (whole q) := by
  have hfields : ∀ fs : List Field,
      List.Forall₂ ReportsField fs (fs.map fun f => [.headerField f.1, .headerValue f.2]) := by
    intro fs
    rw [List.forall₂_map_right_iff, List.forall₂_same]
    exact fun f _ => ⟨[f.1], [f.2], by simp, by simp, by simp, rfl⟩
  exact ⟨[q.target], [q.body], _, _, by simp, hfields _, by simp, hfields _, rfl⟩

theorem getHost_within : getHost.Within :=
  ⟨by decide, by decide, by decide, by decide, by decide⟩

theorem postTrailer_within : postTrailer.Within :=
  ⟨by decide, by decide, by decide, by decide, by decide⟩

theorem faithful_iff_untrailed_getHost :
    List.Forall₂ Faithful [getHost, postTrailer]
        (HttpParser.run {} [whole getHost, whole postTrailer].flatten).delivered ↔
      Untrailed [getHost, postTrailer] :=
  faithful_iff_untrailed
    (by
      rintro q hq
      simp only [List.mem_cons, List.not_mem_nil, or_false] at hq
      obtain rfl | rfl := hq
      · exact getHost_within
      · exact postTrailer_within)
    (.cons (whole_reports _) (.cons (whole_reports _) .nil))

/-- The trailer field of a request is found among the headers of the next. -/
theorem trailer_contaminates :
    Reports postTrailer (whole postTrailer) ∧ Reports getHost (whole getHost) ∧
      postTrailer.Within ∧ getHost.Within ∧
      (HttpParser.run {} [whole postTrailer, whole getHost].flatten).delivered.map
          (fun r => r.headers.lookup (ascii "x-role")) = [none, some (ascii "admin")] ∧
      ¬ List.Forall₂ Faithful [postTrailer, getHost]
        (HttpParser.run {} [whole postTrailer, whole getHost].flatten).delivered := by
  refine ⟨whole_reports _, whole_reports _, postTrailer_within, getHost_within, by decide, ?_⟩
  rintro h
  have hget := (List.forall₂_iff_get.1 h).2 1 (by decide) (by decide)
  have hkey := hget.headers (ascii "x-role")
  revert hkey
  decide

end Osodio.Http
