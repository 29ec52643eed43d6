import Osodio.Http.Parser
import Mathlib.Data.List.Sort

/-!
# Which mount serves a path

Directories of static files are mounted under URL prefixes.  They are sorted once, the longest
prefix first, and the first mount that takes the path of a request serves it.

## Main definitions

- `StaticMount.takes` — the two tests of `try_serve_static`
- `Prepared` — what `App::prepare` may leave
- `Longest` — the mount with the longest prefix that covers a path

## Main results

- `consulted_iff_longest` — the mount that is consulted is that one, if its prefix does not
  end in the slash that the path goes on from
- `root_mount_skipped` — a mount at the root does not serve what is below it
-/

namespace Osodio.Http

def slash : UInt8 := 0x2F

/-- `App::StaticMount`. -/
structure StaticMount where
  urlPrefix : Bytes
  root : Bytes
  spa : Bool := false
  deriving DecidableEq, Repr

/-- The textual test, and the test of the boundary. -/
def StaticMount.takes (m : StaticMount) (path : Bytes) : Bool :=
  m.urlPrefix.isPrefixOf path && path[m.urlPrefix.length]?.all (· == slash)

/-- The mount whose directory `try_serve_static` looks into. -/
def consulted (mounts : List StaticMount) (path : Bytes) : Option StaticMount :=
  mounts.find? (·.takes path)

/-- `App::prepare`: `std::sort` may leave mounts of the same length in any order. -/
structure Prepared (declared mounts : List StaticMount) : Prop where
  perm : mounts.Perm declared
  sorted : mounts.Pairwise fun a b => b.urlPrefix.length ≤ a.urlPrefix.length

/-- One of the orders. -/
def prepare (mounts : List StaticMount) : List StaticMount :=
  mounts.insertionSort fun a b => b.urlPrefix.length ≤ a.urlPrefix.length

theorem prepare_prepared (mounts : List StaticMount) : Prepared mounts (prepare mounts) where
  perm := List.perm_insertionSort _ _
  sorted := by
    have htotal : Std.Total fun a b : StaticMount => b.urlPrefix.length ≤ a.urlPrefix.length :=
      ⟨fun a b => Nat.le_total _ _⟩
    have htrans : IsTrans StaticMount fun a b => b.urlPrefix.length ≤ a.urlPrefix.length :=
      ⟨fun a b c hab hbc => Nat.le_trans hbc hab⟩
    exact List.pairwise_insertionSort _ mounts

/-! ## What a mount should serve -/

/-- The path is the prefix, or continues it where a segment begins. -/
def Covers (pre path : Bytes) : Prop :=
  ∃ rest, path = pre ++ rest ∧ (rest = [] ∨ rest.head? = some slash ∨ pre.getLast? = some slash)

/-- Of the prefixes that cover the path, that of `m` is the longest. -/
structure Longest (mounts : List StaticMount) (path : Bytes) (m : StaticMount) : Prop where
  mem : m ∈ mounts
  covers : Covers m.urlPrefix path
  longest : ∀ m' ∈ mounts, Covers m'.urlPrefix path → m'.urlPrefix.length ≤ m.urlPrefix.length

section Mounts

variable {declared mounts : List StaticMount} {path : Bytes} {m m' : StaticMount}

/-- The mount at the root covers every path. -/
theorem covers_root (rest : Bytes) : Covers [slash] (slash :: rest) := ⟨rest, rfl, .inr (.inr rfl)⟩

theorem takes_iff : m.takes path = true ↔
    ∃ rest, path = m.urlPrefix ++ rest ∧ (rest = [] ∨ rest.head? = some slash) := by
  rw [StaticMount.takes, Bool.and_eq_true, List.isPrefixOf_iff_prefix]
  constructor
  · rintro ⟨⟨rest, rfl⟩, hnext⟩
    refine ⟨rest, rfl, ?_⟩
    cases rest with
    | nil => exact .inl rfl
    | cons c rest => exact .inr (by simpa using hnext)
  · rintro ⟨rest, rfl, hrest⟩
    refine ⟨List.prefix_append _ _, ?_⟩
    cases rest with
    | nil => simp
    | cons c rest => simpa using hrest

/-- What a mount takes, it covers. -/
theorem covers_of_takes (h : m.takes path = true) : Covers m.urlPrefix path := by
  obtain ⟨rest, hpath, hrest⟩ := takes_iff.1 h
  exact ⟨rest, hpath, hrest.imp id .inl⟩

theorem Covers.isPrefix {pre : Bytes} (h : Covers pre path) : pre <+: path := by
  obtain ⟨rest, rfl, -⟩ := h
  exact List.prefix_append _ _

/-- Two prefixes of a path that are as long are the same. -/
theorem eq_of_length {pre pre' : Bytes} (h : pre <+: path) (h' : pre' <+: path)
    (hlen : pre.length = pre'.length) : pre = pre' :=
  (List.prefix_of_prefix_length_le h h' (Nat.le_of_eq hlen)).eq_of_length hlen

theorem eq_of_urlPrefix (hd : (declared.map (·.urlPrefix)).Nodup) (hm : m ∈ declared)
    (hm' : m' ∈ declared) (h : m.urlPrefix = m'.urlPrefix) : m = m' :=
  List.inj_on_of_nodup_map hd hm hm' h

/-- There is one mount with the longest prefix. -/
theorem Longest.unique (hd : (declared.map (·.urlPrefix)).Nodup) (h : Longest declared path m)
    (h' : Longest declared path m') : m = m' := by
  have hlen : m.urlPrefix.length = m'.urlPrefix.length :=
    Nat.le_antisymm (h'.longest m h.mem h.covers) (h.longest m' h'.mem h'.covers)
  exact eq_of_urlPrefix hd h.mem h'.mem (eq_of_length h.covers.isPrefix h'.covers.isPrefix hlen)

/-- The mount that is consulted is the longest of those that take the path. -/
theorem consulted_eq_some (hp : Prepared declared mounts)
    (hd : (declared.map (·.urlPrefix)).Nodup) : consulted mounts path = some m ↔
      m ∈ declared ∧ m.takes path = true ∧
        ∀ m' ∈ declared, m'.takes path = true → m'.urlPrefix.length ≤ m.urlPrefix.length := by
  constructor
  · intro h
    obtain ⟨htakes, before, after, rfl, hbefore⟩ := List.find?_eq_some_iff_append.1 h
    refine ⟨hp.perm.subset (by simp), htakes, fun m' hm' htakes' => ?_⟩
    obtain hm' | rfl | hm' : m' ∈ before ∨ m' = m ∨ m' ∈ after := by
      simpa using hp.perm.symm.subset hm'
    · exact absurd htakes' (by simpa using hbefore m' hm')
    · exact Nat.le_refl _
    · exact (List.pairwise_cons.1 (List.pairwise_append.1 hp.sorted).2.1).1 m' hm'
  · rintro ⟨hm, htakes, hlongest⟩
    cases hfind : consulted mounts path with
    | none =>
      exact absurd htakes (List.find?_eq_none.1 hfind m (hp.perm.symm.subset hm))
    | some m' =>
      have htakes' : m'.takes path = true := by simpa using List.find?_some hfind
      have hmem' : m' ∈ mounts := List.mem_of_find?_eq_some hfind
      obtain ⟨-, before, after, rfl, hbefore⟩ := List.find?_eq_some_iff_append.1 hfind
      have hle := hlongest m' (hp.perm.subset hmem') htakes'
      have hge : m.urlPrefix.length ≤ m'.urlPrefix.length := by
        obtain hm | rfl | hm : m ∈ before ∨ m = m' ∨ m ∈ after := by
          simpa using hp.perm.symm.subset hm
        · exact absurd htakes (by simpa using hbefore m hm)
        · exact Nat.le_refl _
        · exact (List.pairwise_cons.1 (List.pairwise_append.1 hp.sorted).2.1).1 m hm
      have hprefix : m'.urlPrefix = m.urlPrefix :=
        eq_of_length (covers_of_takes htakes').isPrefix (covers_of_takes htakes).isPrefix
          (Nat.le_antisymm hle hge)
      exact congrArg some (eq_of_urlPrefix hd (hp.perm.subset hmem') hm hprefix)

/-- Some mount has the longest prefix, if one covers the path at all. -/
theorem exists_longest (hm : m ∈ declared) (hc : Covers m.urlPrefix path) :
    ∃ m, Longest declared path m := by
  -- as long as there is a longer one, and none is longer than the path
  induction hn : path.length - m.urlPrefix.length using Nat.strong_induction_on generalizing m with
  | _ n ih =>
    by_cases h : ∀ m' ∈ declared, Covers m'.urlPrefix path →
      m'.urlPrefix.length ≤ m.urlPrefix.length
    · exact ⟨m, hm, hc, h⟩
    · push Not at h
      obtain ⟨m', hm', hc', hlt⟩ := h
      have hle := hc'.isPrefix.length_le
      exact ih _ (by omega) hm' hc' rfl

/-- **The mount that is consulted is the one with the longest prefix**, whatever the order
    in which they were declared, exactly if that prefix ends where a segment does. -/
theorem consulted_iff_longest (hp : Prepared declared mounts)
    (hd : (declared.map (·.urlPrefix)).Nodup) (path : Bytes) :
    ((∀ m, consulted mounts path = some m ↔ Longest declared path m) ∧
      ∀ declared' mounts', declared'.Perm declared → Prepared declared' mounts' →
        consulted mounts' path = consulted mounts path) ↔
      ∀ m, Longest declared path m →
        path = m.urlPrefix ∨ path[m.urlPrefix.length]? = some slash := by
  have hsharp : ∀ m, Longest declared path m →
      (m.takes path = true ↔ path = m.urlPrefix ∨ path[m.urlPrefix.length]? = some slash) := by
    intro m hm
    obtain ⟨rest, rfl, -⟩ := hm.covers
    rw [takes_iff]
    cases rest with
    | nil => simp
    | cons c rest => simp [slash]
  have horder : ∀ declared' mounts', declared'.Perm declared → Prepared declared' mounts' →
      consulted mounts' path = consulted mounts path := by
    intro declared' mounts' hperm hp'
    apply Option.ext
    intro m
    have hd' : (declared'.map (·.urlPrefix)).Nodup := (hperm.map _).nodup_iff.2 hd
    simp only [consulted_eq_some hp hd, consulted_eq_some hp' hd', hperm.mem_iff]
  constructor
  · rintro ⟨hiff, -⟩ m hm
    have hfind := (hiff m).2 hm
    exact (hsharp m hm).1 ((consulted_eq_some hp hd).1 hfind).2.1
  · intro h
    refine ⟨fun m => ⟨fun hfind => ?_, fun hm => ?_⟩, horder⟩
    · -- the longest prefix of all is one of those that are taken
      obtain ⟨hmem, htakes, hlongest⟩ := (consulted_eq_some hp hd).1 hfind
      obtain ⟨l, hl⟩ := exists_longest hmem (covers_of_takes htakes)
      have hle := hlongest l hl.mem ((hsharp l hl).2 (h l hl))
      exact ⟨hmem, covers_of_takes htakes, fun m' hm' hc' =>
        Nat.le_trans (hl.longest m' hm' hc') hle⟩
    · exact (consulted_eq_some hp hd).2 ⟨hm.mem, (hsharp m hm).2 (h m hm), fun m' hm' htakes' =>
        hm.longest m' hm' (covers_of_takes htakes')⟩

end Mounts

/-! ## A mount at the root -/

def staticAndDist : List StaticMount :=
  [⟨ascii "/static", ascii "./public", false⟩, ⟨ascii "/", ascii "./dist", true⟩]

theorem consulted_iff_longest_static :
    ((∀ m, consulted (prepare staticAndDist) (ascii "/static/a.js") = some m ↔
        Longest staticAndDist (ascii "/static/a.js") m) ∧
      ∀ declared' mounts', declared'.Perm staticAndDist → Prepared declared' mounts' →
        consulted mounts' (ascii "/static/a.js") =
          consulted (prepare staticAndDist) (ascii "/static/a.js")) := by
  refine (consulted_iff_longest (prepare_prepared _) (by decide) _).2 fun m hm => ?_
  have hstatic : Covers (ascii "/static") (ascii "/static/a.js") :=
    ⟨ascii "/a.js", rfl, .inr (.inl rfl)⟩
  have hlen := hm.longest _ (List.mem_cons_self ..) hstatic
  obtain rfl | rfl : m = ⟨ascii "/static", ascii "./public", false⟩ ∨
      m = ⟨ascii "/", ascii "./dist", true⟩ := by simpa [staticAndDist] using hm.mem
  · exact .inr rfl
  · exact absurd hlen (by decide)

/-- A mount at the root, and the path of a file in it. -/
theorem root_mount_skipped : consulted (prepare staticAndDist) (ascii "/app.js") = none ∧
    Longest staticAndDist (ascii "/app.js") ⟨ascii "/", ascii "./dist", true⟩ := by
  refine ⟨by decide, by decide, ⟨ascii "app.js", rfl, .inr (.inr rfl)⟩, fun m hm hc => ?_⟩
  obtain rfl | rfl : m = ⟨ascii "/static", ascii "./public", false⟩ ∨
      m = ⟨ascii "/", ascii "./dist", true⟩ := by simpa [staticAndDist] using hm
  · exact absurd hc.isPrefix (by decide)
  · exact Nat.le_refl _

end Osodio.Http
