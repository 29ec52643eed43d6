import Osodio.Http.Descriptors

/-!
# Who closes a descriptor

A connection that is open holds its socket, the timers that its fields tell of and the file
that is pending, and a closed one holds nothing.  Here is what each of the small functions of
`Http.Descriptors` needs to keep it so; how they follow each other is in `Http.Lifetimes`.

## Main definitions

- `Held.Holds`, `Owned` — the log is proper, and what was not closed is what the fields tell

## Main results

- `Owned.armHeader`, `Owned.openFile` — a field may be written when there was nothing in it
- `Owned.close` — `close` closes everything
- `Owned.destroy` — and so does the destructor
-/

namespace Osodio.Http

open Lib (Use Holding Proper)

/-! ## What is held -/

/-- The field that tells of a timer. -/
def Held.tfd (h : Held) : TimerKind → Option ℕ
  | .header => h.headerTfd
  | .request => h.timeoutTfd

/-- The descriptor is one of those that the fields tell of. -/
def Held.Holds (h : Held) : Fd → Prop
  | .socket => h.closed = false
  | .timer t => ∃ kind, h.tfd kind = some t
  | .file k => h.fileFd = some k

/-- What was opened and not closed is what the fields tell of. -/
structure Owned (h : Held) : Prop where
  proper : Proper h.log
  holds : ∀ fd, Holding h.log fd ↔ h.Holds fd
  timer_lt : ∀ t, .acquire (.timer t) ∈ h.log → t < h.nextTfd
  file_lt : ∀ k, .acquire (.file k) ∈ h.log → k < h.nextFile
  closed_none : h.closed = true → (∀ kind, h.tfd kind = none) ∧ h.fileFd = none
  timers : ∀ t kind, (t, kind) ∈ h.timers ↔ h.tfd kind = some t
  distinct : ∀ t kind kind', h.tfd kind = some t → h.tfd kind' = some t → kind = kind'

/-- A part of the connection that leaves its descriptors as they are. -/
structure Untouched (c c' : Conn) : Prop where
  closed : c'.closed = c.closed
  headerTfd : c'.headerTfd = c.headerTfd
  timeoutTfd : c'.timeoutTfd = c.timeoutTfd
  timers : c'.timers = c.timers
  nextTfd : c'.nextTfd = c.nextTfd

section Owned

variable {h h' : Held} {fd : Fd} {t k : ℕ} {kind : TimerKind}

/-- Nothing else of the connection matters. -/
theorem Owned.transfer (ho : Owned h) (hlog : h'.log = h.log) (htfd : h'.tfd = h.tfd)
    (htimers : h'.timers = h.timers) (hclosed : h'.closed = h.closed)
    (hnext : h'.nextTfd = h.nextTfd) (hfile : h'.fileFd = h.fileFd)
    (hnextFile : h'.nextFile = h.nextFile) : Owned h' where
  proper := by rw [hlog]; exact ho.proper
  holds fd := by
    rw [hlog, ho.holds]
    cases fd with
    | socket => simp only [Held.Holds, hclosed]
    | timer t => simp only [Held.Holds, htfd]
    | file k => simp only [Held.Holds, hfile]
  timer_lt := by rw [hlog, hnext]; exact ho.timer_lt
  file_lt := by rw [hlog, hnextFile]; exact ho.file_lt
  closed_none := by rw [hclosed, htfd, hfile]; exact ho.closed_none
  timers := by rw [htimers, htfd]; exact ho.timers
  distinct := by rw [htfd]; exact ho.distinct

theorem Owned.aside {f : Conn → Conn} (ho : Owned h) (hu : Untouched h.toConn (f h.toConn)) :
    Owned (h.aside f) := by
  refine ho.transfer rfl ?_ hu.timers hu.closed hu.nextTfd rfl rfl
  funext kind
  cases kind with
  | header => exact hu.headerTfd
  | request => exact hu.timeoutTfd

/-- What is held can be used. -/
theorem Owned.touch (ho : Owned h) (hfd : h.Holds fd) : Owned (h.note (.touch fd)) where
  proper := ho.proper.touch ((ho.holds fd).2 hfd)
  holds fd' := Lib.holding_touch.trans (ho.holds fd')
  timer_lt t ht := ho.timer_lt t (by simpa [Held.note] using ht)
  file_lt k hk := ho.file_lt k (by simpa [Held.note] using hk)
  closed_none := ho.closed_none
  timers := ho.timers
  distinct := ho.distinct

theorem Owned.touchSocket (ho : Owned h) (hc : h.closed = false) : Owned h.touchSocket :=
  @Owned.touch h .socket ho hc

theorem Owned.touchFile (ho : Owned h) : Owned h.touchFile := by
  unfold Held.touchFile
  split
  · rename_i k hk
    exact @Owned.touch h (.file k) ho hk
  · exact ho

/-- A timer is closed, and no field tells of it any longer. -/
theorem Owned.release_timer (ho : Owned h) (ht : h.Holds (.timer t))
    (hlog : h'.log = h.log ++ [.release (.timer t)])
    (htfd : ∀ kind t', h'.tfd kind = some t' ↔ h.tfd kind = some t' ∧ t' ≠ t)
    (htimers : h'.timers = h.timers.filter (fun x => x.1 ≠ t))
    (hclosed : h'.closed = h.closed) (hnext : h'.nextTfd = h.nextTfd)
    (hfile : h'.fileFd = h.fileFd) (hnextFile : h'.nextFile = h.nextFile) : Owned h' where
  proper := by
    rw [hlog]
    exact ho.proper.release ((ho.holds _).2 ht)
  holds fd := by
    rw [hlog, Lib.holding_release, ho.holds]
    cases fd with
    | socket => simp [Held.Holds, hclosed]
    | timer t' => simp only [Held.Holds, htfd, exists_and_right, ne_eq, Fd.timer.injEq]
    | file k => simp [Held.Holds, hfile]
  timer_lt t' ht' := by
    rw [hnext]
    exact ho.timer_lt t' (by simpa [hlog] using ht')
  file_lt k hk := by
    rw [hnextFile]
    exact ho.file_lt k (by simpa [hlog] using hk)
  closed_none hc := by
    obtain ⟨kind, hkind⟩ := ht
    rw [hclosed] at hc
    rw [(ho.closed_none hc).1 kind] at hkind
    cases hkind
  timers t' kind := by
    rw [htimers, htfd, List.mem_filter, ho.timers, decide_eq_true_iff]
  distinct t' kind kind' hk hk' :=
    ho.distinct t' kind kind' ((htfd _ _).1 hk).1 ((htfd _ _).1 hk').1

/-- `cancel_timer` on the descriptor of a field, which then is -1. -/
theorem Owned.cancel (ho : Owned h) (hlog : h'.log = (h.cancelTimer (h.tfd kind)).log)
    (htfd : ∀ kind', h'.tfd kind' = if kind' = kind then none else h.tfd kind')
    (htimers : h'.timers = h.timers.filter (fun x => some x.1 ≠ h.tfd kind))
    (hclosed : h'.closed = h.closed) (hnext : h'.nextTfd = h.nextTfd)
    (hfile : h'.fileFd = h.fileFd) (hnextFile : h'.nextFile = h.nextFile) : Owned h' := by
  cases ht : h.tfd kind with
  | none =>
    rw [ht] at hlog htimers
    refine ho.transfer hlog ?_ (by simpa using htimers) hclosed hnext hfile hnextFile
    funext kind'
    rw [htfd]
    split
    · rename_i hk
      rw [hk, ht]
    · rfl
  | some t =>
    rw [ht] at hlog htimers
    refine ho.release_timer ⟨kind, ht⟩ hlog (fun kind' t' => ?_) ?_ hclosed hnext hfile hnextFile
    · rw [htfd]
      split
      · rename_i hk
        subst hk
        rw [ht]
        simp [eq_comm]
      · rename_i hk
        refine ⟨fun ht' => ⟨ht', ?_⟩, And.left⟩
        rintro rfl
        exact hk (ho.distinct _ _ _ ht' ht)
    · rw [htimers]
      simp only [ne_eq, Option.some.injEq]

theorem Held.cancelTimer_eq (tfd : Option ℕ) (h : Held) :
    h.cancelTimer tfd = { h with log := (h.cancelTimer tfd).log } := by
  cases tfd with
  | none => rfl
  | some t => rfl

theorem Owned.cancelHeader (ho : Owned h) : Owned h.cancelHeader := by
  unfold Held.cancelHeader
  rw [Held.cancelTimer_eq]
  refine @Owned.cancel _ _ .header ho rfl (fun kind => ?_) rfl rfl rfl rfl rfl
  cases kind with
  | header => rfl
  | request => rfl

theorem Owned.cancelTimeout (ho : Owned h) : Owned h.cancelTimeout := by
  unfold Held.cancelTimeout
  rw [Held.cancelTimer_eq]
  refine @Owned.cancel _ _ .request ho rfl (fun kind => ?_) rfl rfl rfl rfl rfl
  cases kind with
  | header => rfl
  | request => rfl

/-- A new timer is in the field that told of none. -/
theorem Owned.arm (ho : Owned h) (hc : h.closed = false) (hnone : h.tfd kind = none)
    (hlog : h'.log = h.log ++ [.acquire (.timer h.nextTfd)])
    (htfd : ∀ kind', h'.tfd kind' = if kind' = kind then some h.nextTfd else h.tfd kind')
    (htimers : h'.timers = h.timers ++ [(h.nextTfd, kind)])
    (hclosed : h'.closed = h.closed) (hnext : h'.nextTfd = h.nextTfd + 1)
    (hfile : h'.fileFd = h.fileFd) (hnextFile : h'.nextFile = h.nextFile) : Owned h' := by
  have hnew : .acquire (.timer h.nextTfd) ∉ h.log := fun hm => Nat.lt_irrefl _ (ho.timer_lt _ hm)
  have hother : ∀ kind', h.tfd kind' ≠ some h.nextTfd := by
    intro kind' hk
    exact hnew ((ho.holds (.timer h.nextTfd)).2 ⟨kind', hk⟩).1
  have hiff : ∀ kind' t, h'.tfd kind' = some t ↔
      h.tfd kind' = some t ∨ kind' = kind ∧ t = h.nextTfd := by
    intro kind' t
    rw [htfd]
    split
    · rename_i hk
      subst hk
      simp [hnone, eq_comm]
    · rename_i hk
      simp [hk]
  refine ⟨?_, fun fd => ?_, fun t ht => ?_, fun k hk => ?_, fun hc' => ?_, fun t kind' => ?_,
    fun t kind₁ kind₂ h₁ h₂ => ?_⟩
  · rw [hlog]
    exact ho.proper.acquire hnew
  · rw [hlog, Lib.holding_acquire ho.proper hnew, ho.holds]
    cases fd with
    | socket => simp [Held.Holds, hclosed]
    | timer t => simp [Held.Holds, hiff, exists_or]
    | file k => simp [Held.Holds, hfile]
  · rw [hnext]
    rw [hlog, List.mem_append] at ht
    obtain ht | ht := ht
    · exact Nat.lt_succ_of_lt (ho.timer_lt t ht)
    · cases List.mem_singleton.1 ht
      exact Nat.lt_succ_self _
  · rw [hnextFile]
    exact ho.file_lt k (by simpa [hlog] using hk)
  · rw [hclosed, hc] at hc'
    cases hc'
  · rw [htimers, List.mem_append, ho.timers, hiff, List.mem_singleton, Prod.mk.injEq, and_comm]
  · rw [hiff] at h₁ h₂
    obtain h₁ | ⟨rfl, rfl⟩ := h₁
    · obtain h₂ | ⟨rfl, rfl⟩ := h₂
      · exact ho.distinct t kind₁ kind₂ h₁ h₂
      · exact absurd h₁ (hother _)
    · obtain h₂ | ⟨rfl, -⟩ := h₂
      · exact absurd h₂ (hother _)
      · rfl

theorem Owned.armHeader (ho : Owned h) (hc : h.closed = false) (hnone : h.headerTfd = none) :
    Owned h.armHeader := by
  refine @Owned.arm _ _ .header ho hc hnone rfl (fun kind => ?_) rfl rfl rfl rfl rfl
  cases kind with
  | header => rfl
  | request => rfl

theorem Owned.armTimeout (ho : Owned h) (hc : h.closed = false) (hnone : h.timeoutTfd = none) :
    Owned h.armTimeout := by
  refine @Owned.arm _ _ .request ho hc hnone rfl (fun kind => ?_) rfl rfl rfl rfl rfl
  cases kind with
  | header => rfl
  | request => rfl

theorem Owned.openFile {file : FileSend} (ho : Owned h) (hc : h.closed = false)
    (hnone : h.fileFd = none) : Owned (h.openFile file) := by
  have hnew : .acquire (.file h.nextFile) ∉ h.log := fun hm => Nat.lt_irrefl _ (ho.file_lt _ hm)
  refine ⟨ho.proper.acquire hnew, fun fd => ?_, fun t ht => ?_, fun k hk => ?_, fun hc' => ?_,
    ho.timers, ho.distinct⟩
  · refine (Lib.holding_acquire ho.proper hnew).trans ?_
    rw [ho.holds]
    cases fd with
    | socket => exact or_iff_left nofun
    | timer t => exact or_iff_left nofun
    | file k =>
      show h.fileFd = some k ∨ Fd.file k = .file h.nextFile ↔ some h.nextFile = some k
      rw [hnone, Fd.file.injEq, Option.some.injEq, @eq_comm _ k]
      exact or_iff_right nofun
  · exact ho.timer_lt t (by simpa [Held.openFile, Held.note, Held.aside] using ht)
  · show k < h.nextFile + 1
    obtain hk | hk := List.mem_append.1 hk
    · exact Nat.lt_succ_of_lt (ho.file_lt k hk)
    · cases List.mem_singleton.1 hk
      exact Nat.lt_succ_self _
  · exact nomatch hc.symm.trans hc'

theorem Held.cancelTimer_log (tfd : Option ℕ) (h : Held) :
    (h.cancelTimer tfd).log = h.log ++ (tfd.map Fd.timer).toList.map Use.release := by
  cases tfd with
  | none => exact (List.append_nil _).symm
  | some t => rfl

theorem nodup_toList {α : Type} (o : Option α) : o.toList.Nodup := by
  cases o with
  | none => exact List.nodup_nil
  | some a => exact List.nodup_singleton a

theorem Held.closeFile_eq (h : Held) : h.closeFile =
    { h with
      fileFd := none
      log := h.log ++ (h.fileFd.map Fd.file).toList.map Use.release } := by
  unfold Held.closeFile
  split
  · rename_i k hk
    rw [hk]
    rfl
  · rename_i hk
    rw [hk, Option.map_none, Option.toList_none, List.map_nil, List.append_nil, ← hk]

theorem Owned.closeFile (ho : Owned h) : Owned h.closeFile := by
  have hheld : ∀ fd ∈ (h.fileFd.map Fd.file).toList, Holding h.log fd := by
    intro fd hfd
    obtain ⟨k, hk, rfl⟩ := Option.map_eq_some_iff.1 (Option.mem_toList.1 hfd)
    exact (ho.holds (.file k)).2 hk
  rw [Held.closeFile_eq]
  refine ⟨ho.proper.release_all (nodup_toList _) hheld, fun fd => ?_, fun t ht => ?_, fun k hk => ?_,
    fun hc => ⟨(ho.closed_none hc).1, rfl⟩, ho.timers, ho.distinct⟩
  · refine Lib.holding_release_all.trans ?_
    rw [ho.holds]
    cases fd with
    | socket => simp [Held.Holds]
    | timer t => simp [Held.Holds, Held.tfd]
    | file k =>
      show h.fileFd = some k ∧ _ ↔ none = some k
      simp
  · exact ho.timer_lt t (by simpa using ht)
  · exact ho.file_lt k (by simpa using hk)

/-- The socket is closed, and then the file. -/
theorem Owned.shut (ho : Owned h) (hc : h.closed = false) (htfd : ∀ kind, h.tfd kind = none) :
    Owned ((h.note (.release .socket)).closeFile.aside fun c =>
      { c with closed := true, wsOnData := false, out := { c.out with file := none } }) := by
  have hproper : Proper (h.log ++ [.release .socket]) :=
    ho.proper.release ((ho.holds .socket).2 hc)
  have hheld : ∀ fd, Holding (h.log ++ [.release .socket]) fd ↔
      fd ∈ (h.fileFd.map Fd.file).toList := by
    intro fd
    rw [Lib.holding_release, ho.holds]
    cases fd with
    | socket => simp
    | timer t => simp [Held.Holds, htfd]
    | file k => simp [Held.Holds]
  rw [Held.closeFile_eq]
  refine ⟨hproper.release_all (nodup_toList _) fun fd => (hheld fd).2, fun fd => ?_, fun t ht => ?_, fun k hk => ?_,
    fun _ => ⟨htfd, rfl⟩, ho.timers, ho.distinct⟩
  · refine Lib.holding_release_all.trans ?_
    rw [show (h.note (.release .socket)).log = h.log ++ [.release .socket] from rfl, hheld]
    cases fd with
    | socket => simp [Held.Holds, Held.aside]
    | timer t =>
      have hnone : ∀ kind, h.tfd kind ≠ some t := fun kind => by rw [htfd]; nofun
      exact iff_of_false (fun hf => by simp at hf) fun ⟨kind, hk⟩ => hnone kind hk
    | file k => simp [Held.Holds, Held.aside, Held.note]
  · exact ho.timer_lt t (by simpa [Held.aside, Held.note] using ht)
  · exact ho.file_lt k (by simpa [Held.aside, Held.note] using hk)

theorem Owned.close (ho : Owned h) : Owned h.close := by
  unfold Held.close
  split
  · exact ho
  · rename_i hc
    have hopen : h.cancelHeader.cancelTimeout.closed = false := by
      rw [Held.toConn_cancelTimeout, Held.toConn_cancelHeader]
      exact Bool.eq_false_iff.2 hc
    refine Owned.shut (ho.cancelHeader.cancelTimeout.touchSocket hopen) hopen fun kind => ?_
    have hconn := h.cancelHeader.toConn_cancelTimeout
    rw [h.toConn_cancelHeader] at hconn
    cases kind with
    | header => exact congrArg (fun c : Conn => c.headerTfd) hconn
    | request => exact congrArg (fun c : Conn => c.timeoutTfd) hconn

/-- What an open connection holds, in the order of its destructor. -/
def Held.held (h : Held) : List Fd :=
  (h.headerTfd.map Fd.timer).toList ++ (h.timeoutTfd.map Fd.timer).toList ++
    (h.fileFd.map Fd.file).toList ++ [.socket]

theorem Held.mem_held (hc : h.closed = false) : fd ∈ h.held ↔ h.Holds fd := by
  unfold Held.held
  cases fd with
  | socket => simp [Held.Holds, hc]
  | timer t =>
    have hkinds : h.Holds (.timer t) ↔ h.headerTfd = some t ∨ h.timeoutTfd = some t := by
      constructor
      · rintro ⟨kind, hk⟩
        cases kind with
        | header => exact .inl hk
        | request => exact .inr hk
      · rintro (hk | hk)
        · exact ⟨.header, hk⟩
        · exact ⟨.request, hk⟩
    rw [hkinds]
    simp
  | file k => simp [Held.Holds]

theorem Owned.nodup_held (ho : Owned h) : h.held.Nodup := by
  have hdistinct : ∀ t, h.headerTfd = some t → h.timeoutTfd ≠ some t := by
    intro t hheader htimeout
    cases ho.distinct t .header .request hheader htimeout
  unfold Held.held
  simp only [List.nodup_append, nodup_toList, List.nodup_singleton, true_and, List.mem_append,
    Option.mem_toList, Option.map_eq_some_iff, List.mem_singleton]
  refine ⟨⟨?_, ?_⟩, ?_⟩
  · rintro _ ⟨t, ht, rfl⟩ _ ⟨t', ht', rfl⟩ hsame
    cases hsame
    exact hdistinct t ht ht'
  · rintro _ (⟨t, -, rfl⟩ | ⟨t, -, rfl⟩) _ ⟨k, -, rfl⟩ hsame
    · cases hsame
    · cases hsame
  · rintro _ ((⟨t, -, rfl⟩ | ⟨t, -, rfl⟩) | ⟨k, -, rfl⟩) _ rfl hsame
    · cases hsame
    · cases hsame
    · cases hsame

theorem Held.destroy_log (hc : h.closed = false) : h.destroy.log = h.log ++ h.held.map Use.release := by
  unfold Held.destroy
  rw [if_neg (by rw [hc]; nofun)]
  show (Held.closeFile _).log ++ [.release .socket] = _
  rw [Held.closeFile_eq]
  show ((h.cancelTimer h.headerTfd).cancelTimer h.timeoutTfd).log ++
    ((((h.cancelTimer h.headerTfd).cancelTimer h.timeoutTfd).fileFd.map _).toList.map _) ++ _ = _
  rw [Held.cancelTimer_log, Held.cancelTimer_log, Held.cancelTimer_eq, Held.cancelTimer_eq, Held.held]
  simp only [List.map_append, List.append_assoc, List.map_cons, List.map_nil]

/-- What the destructor leaves: it does not look at the fields again. -/
theorem Owned.destroy (ho : Owned h) : Proper h.destroy.log ∧ ∀ fd, ¬Holding h.destroy.log fd := by
  cases hc : h.closed with
  | true =>
    rw [Held.destroy, if_pos hc]
    refine ⟨ho.proper, fun fd hfd => ?_⟩
    have hheld := (ho.holds fd).1 hfd
    cases fd with
    | socket => exact nomatch hc.symm.trans hheld
    | timer t =>
      obtain ⟨kind, hk⟩ := hheld
      exact nomatch ((ho.closed_none hc).1 kind).symm.trans hk
    | file k => exact nomatch (ho.closed_none hc).2.symm.trans hheld
  | false =>
    rw [Held.destroy_log hc]
    refine ⟨ho.proper.release_all ho.nodup_held fun fd hfd => ?_, fun fd hfd => ?_⟩
    · exact (ho.holds fd).2 ((Held.mem_held hc).1 hfd)
    · obtain ⟨hfd, hn⟩ := Lib.holding_release_all.1 hfd
      exact hn ((Held.mem_held hc).2 ((ho.holds fd).1 hfd))

end Owned

end Osodio.Http
