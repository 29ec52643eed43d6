import Osodio.Core.EventLoop

/-!
# Callbacks belong to their registration

An event of a batch reaches the callback that stands under its number by the time
it is looked at.  That is the one it was generated for as long as nothing is
registered under a number that the rest of the batch still mentions.

## Main definitions

- `OwnEvents` — what the history says when callbacks only get their own events
- `NotReused` — no number with an event to come is registered

## Main results

- `step_inv` — a step under `NotReused` keeps the invariant
- `ownEvents_of_notReused` — the runs whose steps all do keep the promise
-/

namespace Osodio.Core

open Osodio.Lib

/-- Every call was for an event of its own registration.  A timer was called at most
    once, not before it expired, and not after it was cancelled. -/
structure OwnEvents (history : List Entry) : Prop where
  own : ∀ r source time, .invoked r source time ∈ history → source = r.id
  due : ∀ r source time d, .invoked r source time ∈ history → r.deadline = some d → d ≤ time
  once : ∀ post pre r source time, history = post ++ .invoked r source time :: pre →
    r.deadline.isSome → ∀ r' source' time', .invoked r' source' time' ∈ post → r'.id ≠ r.id
  cancelled : ∀ post pre id, history = post ++ .cancelled id :: pre →
    ∀ r source time, .invoked r source time ∈ post → r.id ≠ id

/-- No descriptor is registered under a number that the rest of the batch still has
    an event for. -/
def NotReused (w : EpollLoop) : Act → Prop
  | .add fd => w.Accepts fd → ∀ e ∈ w.events, e.fd ≠ fd
  | .scheduleTimer _ tfd => ∀ e ∈ w.events, e.fd ≠ tfd
  | _ => True

/-- The registration `id` is over: it was a timer that was called, or cancelled. -/
def Spent (id : ℕ) : Entry → Prop
  | .invoked r _ _ => r.deadline.isSome ∧ r.id = id
  | .cancelled id' => id' = id

/-- A callback stands under the number it was registered for, the kernel watches that
    number for it, and the events to come are its own. -/
structure Inv (w : EpollLoop) : Prop where
  fresh : ∀ fd r, w.callbacks fd = some r → r.id < w.nextId
  unique : ∀ fd fd' r r', w.callbacks fd = some r → w.callbacks fd' = some r' →
    r.id = r'.id → fd = fd'
  watched : ∀ fd r r', w.interest fd = some r → w.callbacks fd = some r' → r = r'
  events : ∀ e ∈ w.events, ∀ r, w.callbacks e.fd = some r →
    e.source = r.id ∧ ∀ d, r.deadline = some d → d ≤ w.now
  home : ∀ fd r tfd, w.callbacks fd = some r → w.handles r.id = some tfd → fd = tfd
  handles : ∀ id tfd, w.handles id = some tfd → id < w.nextId
  spent : ∀ e ∈ w.history, ∀ fd r, w.callbacks fd = some r → ¬ Spent r.id e
  past : ∀ e ∈ w.history, ∀ id, Spent id e → id < w.nextId
  history : OwnEvents w.history

/-! ## The history -/

theorem ownEvents_nil : OwnEvents [] := by
  constructor <;> simp

theorem OwnEvents.invoked {history : List Entry} (h : OwnEvents history) {r : Registration}
    {source time : ℕ} (hown : source = r.id) (hdue : ∀ d, r.deadline = some d → d ≤ time)
    (hspent : ∀ e ∈ history, ¬ Spent r.id e) :
    OwnEvents (.invoked r source time :: history) where
  own r' s' t' hm := by
    rcases List.mem_cons.1 hm with he | hm
    · cases he
      exact hown
    · exact h.own r' s' t' hm
  due r' s' t' d hm hd := by
    rcases List.mem_cons.1 hm with he | hm
    · cases he
      exact hdue d hd
    · exact h.due r' s' t' d hm hd
  once post pre r' s' t' hp ht r'' s'' t'' hm := by
    cases post with
    | nil => cases hm
    | cons e post =>
      obtain ⟨he', hp'⟩ := List.cons.inj hp
      subst he'
      rcases List.mem_cons.1 hm with he | hm
      · cases he
        intro hid
        refine hspent (.invoked r' s' t') ?_ ⟨ht, hid.symm⟩
        rw [hp']
        simp
      · exact h.once post pre r' s' t' hp' ht r'' s'' t'' hm
  cancelled post pre id hp r'' s'' t'' hm := by
    cases post with
    | nil => cases hm
    | cons e post =>
      obtain ⟨he', hp'⟩ := List.cons.inj hp
      subst he'
      rcases List.mem_cons.1 hm with he | hm
      · cases he
        intro hid
        refine hspent (.cancelled id) ?_ hid.symm
        rw [hp']
        simp
      · exact h.cancelled post pre id hp' r'' s'' t'' hm

theorem OwnEvents.cancel {history : List Entry} (h : OwnEvents history) (id : ℕ) :
    OwnEvents (.cancelled id :: history) where
  own r s t hm := by
    rcases List.mem_cons.1 hm with he | hm
    · cases he
    · exact h.own r s t hm
  due r s t d hm hd := by
    rcases List.mem_cons.1 hm with he | hm
    · cases he
    · exact h.due r s t d hm hd
  once post pre r s t hp ht r' s' t' hm := by
    cases post with
    | nil => cases hm
    | cons e post =>
      obtain ⟨he', hp'⟩ := List.cons.inj hp
      subst he'
      rcases List.mem_cons.1 hm with he | hm
      · cases he
      · exact h.once post pre r s t hp' ht r' s' t' hm
  cancelled post pre id' hp r s t hm := by
    cases post with
    | nil => cases hm
    | cons e post =>
      obtain ⟨he', hp'⟩ := List.cons.inj hp
      subst he'
      rcases List.mem_cons.1 hm with he | hm
      · cases he
      · exact h.cancelled post pre id' hp' r s t hm

/-! ## One step -/

section Steps

variable {w : EpollLoop}

theorem start_inv (wakeupFd : ℕ) (descriptors : List ℕ) :
    Inv (.start wakeupFd descriptors) := by
  constructor <;> simp [EpollLoop.start, ownEvents_nil]

/-- Taking callbacks away, and events of the kernel, keeps the invariant. -/
theorem Inv.less {w' : EpollLoop} (hw : Inv w)
    (hcb : ∀ fd r, w'.callbacks fd = some r → w.callbacks fd = some r)
    (hin : ∀ fd r, w'.interest fd = some r → w.interest fd = some r)
    (hev : ∀ e ∈ w'.events, e ∈ w.events) (hid : w'.nextId = w.nextId)
    (hnow : w'.now = w.now) (hh : w'.handles = w.handles)
    (hhist : w'.history = w.history) : Inv w' where
  fresh fd r h := hid ▸ hw.fresh fd r (hcb fd r h)
  unique fd fd' r r' h h' := hw.unique fd fd' r r' (hcb fd r h) (hcb fd' r' h')
  watched fd r r' h h' := hw.watched fd r r' (hin fd r h) (hcb fd r' h')
  events e he r h := hnow ▸ hw.events e (hev e he) r (hcb e.fd r h)
  home fd r tfd h h' := hw.home fd r tfd (hcb fd r h) (hh ▸ h')
  handles id tfd h := hid ▸ hw.handles id tfd (hh ▸ h)
  spent e he fd r h := hw.spent e (hhist ▸ he) fd r (hcb fd r h)
  past e he id h := hid ▸ hw.past e (hhist ▸ he) id h
  history := hhist ▸ hw.history

theorem update_none_eq_some {α : Type*} {f : ℕ → Option α} {a b : ℕ} {x : α}
    (h : Function.update f a none b = some x) : b ≠ a ∧ f b = some x := by
  rw [Function.update_apply] at h
  split at h
  · cases h
  · exact ⟨‹_›, h⟩

theorem update_some_eq_some {α : Type*} {f : ℕ → Option α} {a b : ℕ} {x y : α}
    (h : Function.update f a (some y) b = some x) :
    b = a ∧ x = y ∨ b ≠ a ∧ f b = some x := by
  rw [Function.update_apply] at h
  split at h
  · exact .inl ⟨‹_›, (Option.some.inj h).symm⟩
  · exact .inr ⟨‹_›, h⟩

theorem Inv.remove (hw : Inv w) (fd : ℕ) : Inv (w.remove fd) := by
  refine hw.less (fun fd' r h => ?_) (fun fd' r h => ?_) (fun _ he => he) rfl rfl rfl rfl
  · exact (update_none_eq_some h).2
  · exact (update_none_eq_some h).2

theorem Inv.close (hw : Inv w) (fd : ℕ) : Inv (w.close fd) := by
  refine hw.less (fun _ _ h => h) (fun fd' r h => ?_) (fun _ he => he) rfl rfl rfl rfl
  exact (update_none_eq_some h).2

theorem Inv.create (hw : Inv w) (fd : ℕ) : Inv (w.create fd) :=
  hw.less (fun _ _ h => h) (fun _ _ h => h) (fun _ he => he) rfl rfl rfl rfl

/-- The number of a registration may be taken without one being made. -/
theorem Inv.skip (hw : Inv w) : Inv { w with nextId := w.nextId + 1 } where
  __ := hw
  fresh fd r h := Nat.lt_succ_of_lt (hw.fresh fd r h)
  handles id tfd h := Nat.lt_succ_of_lt (hw.handles id tfd h)
  past e he id h := Nat.lt_succ_of_lt (hw.past e he id h)

/-- A callback registered under a number that no event to come mentions. -/
theorem Inv.register (hw : Inv w) {fd : ℕ} (deadline : Option ℕ)
    (hfd : ∀ e ∈ w.events, e.fd ≠ fd) :
    Inv { w with
      callbacks := Function.update w.callbacks fd (some ⟨w.nextId, deadline⟩)
      interest := Function.update w.interest fd (some ⟨w.nextId, deadline⟩)
      nextId := w.nextId + 1 } where
  fresh fd' r h := by
    rcases update_some_eq_some h with ⟨-, rfl⟩ | ⟨-, h⟩
    · exact Nat.lt_succ_self _
    · exact Nat.lt_succ_of_lt (hw.fresh fd' r h)
  unique fd₁ fd₂ r₁ r₂ h₁ h₂ hid := by
    rcases update_some_eq_some h₁ with ⟨rfl, rfl⟩ | ⟨-, hold₁⟩ <;>
      rcases update_some_eq_some h₂ with ⟨rfl, rfl⟩ | ⟨-, hold₂⟩
    · rfl
    · exact absurd (hw.fresh fd₂ r₂ hold₂) (by rw [← hid]; exact lt_irrefl _)
    · exact absurd (hw.fresh fd₁ r₁ hold₁) (by rw [hid]; exact lt_irrefl _)
    · exact hw.unique fd₁ fd₂ r₁ r₂ hold₁ hold₂ hid
  watched fd' r r' h h' := by
    rcases update_some_eq_some h with ⟨rfl, rfl⟩ | ⟨hne, h⟩ <;>
      rcases update_some_eq_some h' with ⟨he, rfl⟩ | ⟨hne', h'⟩
    · rfl
    · exact absurd rfl hne'
    · exact absurd he hne
    · exact hw.watched fd' r r' h h'
  events e he r h := by
    rcases update_some_eq_some h with ⟨hf, -⟩ | ⟨-, h⟩
    · exact absurd hf (hfd e he)
    · exact hw.events e he r h
  home fd' r tfd h hh := by
    rcases update_some_eq_some h with ⟨-, rfl⟩ | ⟨-, h⟩
    · exact absurd (hw.handles _ tfd hh) (lt_irrefl _)
    · exact hw.home fd' r tfd h hh
  handles id tfd h := Nat.lt_succ_of_lt (hw.handles id tfd h)
  spent e he fd' r h hs := by
    rcases update_some_eq_some h with ⟨-, rfl⟩ | ⟨-, h⟩
    · exact absurd (hw.past e he _ hs) (lt_irrefl _)
    · exact hw.spent e he fd' r h hs
  past e he id h := Nat.lt_succ_of_lt (hw.past e he id h)
  history := hw.history

theorem Inv.add (hw : Inv w) {fd : ℕ} (deadline : Option ℕ)
    (hfd : w.Accepts fd → ∀ e ∈ w.events, e.fd ≠ fd) : Inv (w.add fd deadline) := by
  unfold EpollLoop.add
  split
  · exact hw.register deadline (hfd ‹_›)
  · refine hw.skip.less (fun fd' r h => ?_) (fun _ _ h => h) (fun _ he => he) rfl rfl rfl rfl
    exact (update_none_eq_some h).2

/-- The descriptor of a timer is given out. -/
theorem Inv.handle (hw : Inv w) {id tfd : ℕ} (hid : id < w.nextId)
    (hhome : ∀ fd r, w.callbacks fd = some r → r.id = id → fd = tfd) :
    Inv { w with handles := Function.update w.handles id (some tfd) } where
  __ := hw
  home fd r tfd' h hh := by
    rcases update_some_eq_some hh with ⟨he, rfl⟩ | ⟨-, hh⟩
    · exact hhome fd r h he
    · exact hw.home fd r tfd' h hh
  handles id' tfd' h := by
    rcases update_some_eq_some h with ⟨rfl, -⟩ | ⟨-, h⟩
    · exact hid
    · exact hw.handles id' tfd' h

theorem add_nextId (w : EpollLoop) (fd : ℕ) (deadline : Option ℕ) :
    (w.add fd deadline).nextId = w.nextId + 1 := by
  unfold EpollLoop.add
  split <;> rfl

/-- What stands under a number after `add` stood there before, but for the new
    callback. -/
theorem add_callbacks {fd fd' : ℕ} {deadline : Option ℕ} {r : Registration}
    (h : (w.add fd deadline).callbacks fd' = some r) :
    fd' = fd ∨ w.callbacks fd' = some r := by
  unfold EpollLoop.add at h
  split at h
  · exact (update_some_eq_some h).imp And.left And.right
  · exact .inr (update_none_eq_some h).2

theorem Inv.scheduleTimer (hw : Inv w) {ms tfd : ℕ} (hfd : ∀ e ∈ w.events, e.fd ≠ tfd) :
    Inv (w.scheduleTimer ms tfd) := by
  refine ((hw.create tfd).add (some (w.expiry ms)) fun _ => hfd).handle ?_ ?_
  · rw [add_nextId]
    exact Nat.lt_succ_self _
  · intro fd r h hid
    rcases add_callbacks h with he | h
    · exact he
    · exact absurd (hw.fresh fd r h) (by rw [hid]; exact lt_irrefl _)

theorem Inv.cancelTimer (hw : Inv w) {id tfd : ℕ} (hh : w.handles id = some tfd) :
    Inv (w.cancelTimer id tfd) where
  __ := (hw.remove tfd).close tfd
  spent e he fd r h hs := by
    rcases List.mem_cons.1 he with rfl | he
    · -- the callback of the timer stood under its descriptor, and it was removed
      obtain ⟨hne, h⟩ := update_none_eq_some h
      have hs : id = r.id := hs
      exact hne (hw.home fd r tfd h (hs ▸ hh))
    · exact ((hw.remove tfd).close tfd).spent e he fd r h hs
  past e he id' h := by
    rcases List.mem_cons.1 he with rfl | he
    · have h : id = id' := h
      exact h ▸ hw.handles id tfd hh
    · exact hw.past e he id' h
  history := hw.history.cancel id

theorem Inv.invoke (hw : Inv w) {fd source : ℕ} {r : Registration}
    (hr : w.callbacks fd = some r) (hown : source = r.id)
    (hdue : ∀ d, r.deadline = some d → d ≤ w.now) : Inv (w.invoke fd source r) := by
  have hhist := hw.history.invoked hown hdue fun e he => hw.spent e he fd r hr
  have hpast : ∀ e ∈ Entry.invoked r source w.now :: w.history,
      ∀ id, Spent id e → id < w.nextId := by
    intro e he id h
    rcases List.mem_cons.1 he with rfl | he
    · exact h.2 ▸ hw.fresh fd r hr
    · exact hw.past e he id h
  unfold EpollLoop.invoke
  by_cases ht : r.deadline.isSome
  · simp only [if_pos ht]
    exact {
      __ := (hw.remove fd).close fd
      spent := by
        intro e he fd' r' h hs
        rcases List.mem_cons.1 he with rfl | he
        · obtain ⟨hne, h⟩ := update_none_eq_some h
          exact hne (hw.unique fd' fd r' r h hr hs.2.symm)
        · exact ((hw.remove fd).close fd).spent e he fd' r' h hs
      past := hpast
      history := hhist }
  · simp only [if_neg ht]
    exact {
      __ := hw
      spent := by
        intro e he fd' r' h hs
        rcases List.mem_cons.1 he with rfl | he
        · exact ht hs.1
        · exact hw.spent e he fd' r' h hs
      past := hpast
      history := hhist }

theorem Inv.dispatch (hw : Inv w) {w' : EpollLoop} (h : w.dispatch = some w') : Inv w' := by
  unfold EpollLoop.dispatch at h
  split at h
  · cases h
  · rename_i e rest hev
    have hrest : Inv { w with events := rest } := by
      refine hw.less (fun _ _ h => h) (fun _ _ h => h) (fun e' he' => ?_) rfl rfl rfl rfl
      rw [hev]
      exact List.mem_cons_of_mem e he'
    dsimp only at h
    split at h
    · cases h
      exact hrest
    · split at h
      · cases h
        exact hrest
      · rename_i r hr
        cases h
        obtain ⟨hown, hdue⟩ := hw.events e (by rw [hev]; simp) r hr
        exact hrest.invoke hr hown hdue

theorem Inv.wait (hw : Inv w) {batch : List Ready} (hb : w.MayGive batch) :
    Inv { w with events := batch } where
  __ := hw
  events e he r h := by
    obtain ⟨r', hr', hg⟩ := (Option.any_eq_true _ _).1 (hb.2 e he)
    obtain rfl := hw.watched e.fd r' r hr' h
    rw [Bool.and_eq_true, beq_iff_eq, Option.all_eq_true] at hg
    exact ⟨hg.1.symm, fun d hd => of_decide_eq_true (hg.2 d hd)⟩

theorem Inv.elapse (hw : Inv w) (ms : ℕ) : Inv { w with now := w.now + ms } where
  __ := hw
  events e he r h :=
    (hw.events e he r h).imp_right fun hd d hr => (hd d hr).trans (Nat.le_add_right _ _)

/-- **Step lemma**: a step that reuses no number of the batch keeps the invariant. -/
theorem step_inv {w' : EpollLoop} {a : Act} (hw : Inv w) (hC : NotReused w a)
    (h : w.step a = some w') : Inv w' := by
  cases a with
  | wait batch =>
    obtain ⟨hg, h⟩ := Option.ite_none_right_eq_some.1 h
    cases h
    exact hw.wait hg.2
  | dispatch => exact hw.dispatch h
  | add fd =>
    cases h
    exact hw.add none hC
  | remove fd =>
    cases h
    exact hw.remove fd
  | scheduleTimer ms tfd =>
    obtain ⟨-, h⟩ := Option.ite_none_right_eq_some.1 h
    cases h
    exact hw.scheduleTimer hC
  | cancelTimer id =>
    obtain ⟨tfd, hh, rfl⟩ := Option.map_eq_some_iff.1 h
    exact hw.cancelTimer hh
  | socket fd =>
    obtain ⟨-, h⟩ := Option.ite_none_right_eq_some.1 h
    cases h
    exact hw.create fd
  | close fd =>
    cases h
    exact hw.close fd
  | elapse ms =>
    cases h
    exact hw.elapse ms

end Steps

/-! ## Runs -/

/-- Callbacks get the events of their own registration, and timers are called once,
    in time and not after they were cancelled, in every run whose steps reuse no
    number of the batch. -/
theorem ownEvents_of_notReused (wakeupFd : ℕ) (descriptors : List ℕ) (es : List Act)
    (w : EpollLoop) (hC : (epollLoop wakeupFd descriptors).Meets NotReused es)
    (hr : (epollLoop wakeupFd descriptors).run es = some w) : OwnEvents w.history :=
  ((epollLoop wakeupFd descriptors).guarded_induction (start_inv wakeupFd descriptors)
    (fun _ _ _ hw => step_inv hw) hC hr).history

/-- A timer that expires at once and is called. -/
theorem ownEvents_of_notReused_timer : OwnEvents [.invoked ⟨1, some 0⟩ 1 0] :=
  ownEvents_of_notReused 4 [0, 1, 2, 3, 4] [.scheduleTimer 0 5, .wait [⟨5, 1⟩], .dispatch] _
    (.cons (fun _ he => nomatch he) rfl <| .cons trivial rfl <| .cons trivial rfl trivial) rfl

/-- Two timers expire together.  The callback of the first cancels the second and
    schedules two more, of ten seconds, and the last of them takes the number of the
    second: it is called in the same batch. -/
theorem reused_timer_called_early :
    ∃ w, (epollLoop 4 [0, 1, 2, 3, 4]).run
        [.scheduleTimer 0 5, .scheduleTimer 0 6, .wait [⟨5, 1⟩, ⟨6, 2⟩], .dispatch,
          .cancelTimer 2, .scheduleTimer 10000 5, .scheduleTimer 10000 6, .dispatch] = some w ∧
      ¬ OwnEvents w.history :=
  ⟨_, rfl, fun h => absurd (h.own ⟨4, some 10000⟩ 2 0 (by decide)) (by decide)⟩

end Osodio.Core
