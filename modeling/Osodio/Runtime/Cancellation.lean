import Mathlib.Data.List.Nodup
import Osodio.Runtime.Sleep

/-!
# Sleeps belong to their request

While every sleep finds the token of its own request, a sleep is resumed once, by
its timer or by the cancellation of its request.  A coroutine that sleeps again
after another request was dispatched registers with the other request.

## Main definitions

- `SleepsOwned` — what each request may rely on
- `OwnToken` — a coroutine that sleeps finds its own token

## Main results

- `step_inv` — a step under `OwnToken` keeps the invariant
- `sleepsOwned_of_ownToken` — the runs whose steps all do keep the promise
-/

namespace Osodio.Runtime

open Osodio.Lib

/-- Each suspended sleep is resumed once, by its timer or by the cancellation of
    its own request; one that has not been resumed waits for its timer, and none
    does of a request that was cancelled. -/
structure SleepsOwned (w : World) : Prop where
  once : (w.resumed.map Resumed.timer).Nodup
  own : ∀ e ∈ w.resumed, e.cause = .timer ∨ e.cause = .cancel e.coroutine
  armed : ∀ r id, w.status r = .sleeping id →
    (∃ token, ⟨id, r, token⟩ ∈ w.timers) ∧ id ∉ w.resumed.map Resumed.timer
  cancelled : ∀ r token, w.tokens r = some token → token.cancelled = true →
    ∀ id, w.status r ≠ .sleeping id

/-- A coroutine that goes to sleep finds the token of its own request: no other
    request has been dispatched since its own. -/
def OwnToken (w : World) : Event → Prop
  | .sleep ms => 0 < ms → w.currentToken = w.stack.head?
  | _ => True

/-- A sleep is registered with the token of its own request, and a token holds
    the wake function of the sleep that its request is in. -/
structure Inv (w : World) : Prop where
  fresh : ∀ t ∈ w.timers, t.id < w.nextTimer
  ids : (w.timers.map Timer.id).Nodup
  timers : ∀ t ∈ w.timers, t.token = some t.coroutine ∧ w.status t.coroutine = .sleeping t.id
  asleep : ∀ r id, w.status r = .sleeping id → ⟨id, r, some r⟩ ∈ w.timers ∧
    w.tokens r = some ⟨false, some ⟨r, id⟩⟩
  wake : ∀ r token fn, w.tokens r = some token → token.wakeFn = some fn →
    fn.coroutine = r ∧ w.status r = .sleeping fn.timer
  token : ∀ r, w.status r ≠ .fresh → w.status r ≠ .done → w.tokens r ≠ none
  running : ∀ r, r ∈ w.stack → w.status r = .running
  stack : w.stack.Nodup
  resumed : ∀ e ∈ w.resumed, e.timer < w.nextTimer ∧ ∀ t ∈ w.timers, t.id ≠ e.timer
  once : (w.resumed.map Resumed.timer).Nodup
  own : ∀ e ∈ w.resumed, e.cause = .timer ∨ e.cause = .cancel e.coroutine

theorem Inv.sleepsOwned {w : World} (hw : Inv w) : SleepsOwned w where
  once := hw.once
  own := hw.own
  armed r id h := by
    obtain ⟨hmem, -⟩ := hw.asleep r id h
    refine ⟨⟨_, hmem⟩, fun hres => ?_⟩
    obtain ⟨e, he, rfl⟩ := List.mem_map.1 hres
    exact (hw.resumed e he).2 _ hmem rfl
  cancelled r token ht hc id h := by
    obtain ⟨-, htok⟩ := hw.asleep r id h
    obtain rfl := Option.some.inj (htok.symm.trans ht)
    simp at hc

theorem init_inv : Inv eventLoop.init := by
  constructor <;> simp [eventLoop]

/-! ## One step -/

section Steps
variable {w : World}

/-- A timer belongs to a coroutine that sleeps. -/
theorem Inv.timer_ne (hw : Inv w) {r : ℕ} (hr : ∀ id, w.status r ≠ .sleeping id) {t : Timer}
    (ht : t ∈ w.timers) : t.coroutine ≠ r := by
  rintro rfl
  exact hr _ (hw.timers t ht).2

theorem Inv.timer_eq (hw : Inv w) {t t' : Timer} (ht : t ∈ w.timers) (ht' : t' ∈ w.timers)
    (h : t.id = t'.id) : t = t' :=
  List.inj_on_of_nodup_map hw.ids ht ht' h

theorem Inv.not_mem_stack (hw : Inv w) {r : ℕ} (hr : w.status r ≠ .running) : r ∉ w.stack :=
  fun h => hr (hw.running r h)

/-- Nothing but the status of a coroutine that does not sleep changes. -/
theorem Inv.of_status (hw : Inv w) {r : ℕ} {s : Status} {stack : List ℕ}
    (hr : ∀ id, w.status r ≠ .sleeping id) (hs : ∀ id, s ≠ .sleeping id)
    (htok : s ≠ .fresh → s ≠ .done → w.tokens r ≠ none)
    (hrun : ∀ k ∈ stack, Function.update w.status r s k = .running) (hnd : stack.Nodup) :
    Inv { w with status := Function.update w.status r s, stack := stack } where
  fresh := hw.fresh
  ids := hw.ids
  timers t ht := by
    refine ⟨(hw.timers t ht).1, ?_⟩
    simpa [Function.update_of_ne (hw.timer_ne hr ht)] using (hw.timers t ht).2
  asleep k id h := by
    by_cases hk : k = r
    · subst hk
      simp only [Function.update_self] at h
      exact absurd h (hs id)
    · simp only [Function.update_of_ne hk] at h
      exact hw.asleep k id h
  wake k token fn ht hf := by
    obtain ⟨hc, hsl⟩ := hw.wake k token fn ht hf
    have hk : k ≠ r := fun hk => hr _ (hk ▸ hsl)
    exact ⟨hc, by simpa [Function.update_of_ne hk] using hsl⟩
  token k h1 h2 := by
    by_cases hk : k = r
    · subst hk
      simp only [Function.update_self] at h1 h2
      exact htok h1 h2
    · simp only [Function.update_of_ne hk] at h1 h2
      exact hw.token k h1 h2
  running := hrun
  stack := hnd
  resumed := hw.resumed
  once := hw.once
  own := hw.own

theorem dispatch_inv (hw : Inv w) {r : ℕ} (hr : w.status r = .fresh) : Inv (w.dispatch r) where
  fresh := hw.fresh
  ids := hw.ids
  timers t ht := by
    have hne := hw.timer_ne (r := r) (by simp [hr]) ht
    refine ⟨(hw.timers t ht).1, ?_⟩
    simpa [World.dispatch, Function.update_of_ne hne] using (hw.timers t ht).2
  asleep k id h := by
    by_cases hk : k = r
    · subst hk
      simp [World.dispatch] at h
    · simp only [World.dispatch, Function.update_of_ne hk] at h ⊢
      exact hw.asleep k id h
  wake k token fn ht hf := by
    by_cases hk : k = r
    · subst hk
      simp only [World.dispatch, Function.update_self, Option.some.injEq] at ht
      subst ht
      simp at hf
    · simp only [World.dispatch, Function.update_of_ne hk] at ht ⊢
      exact hw.wake k token fn ht hf
  token k h1 h2 := by
    by_cases hk : k = r
    · simp [World.dispatch, hk]
    · simp only [World.dispatch, Function.update_of_ne hk] at h1 h2 ⊢
      exact hw.token k h1 h2
  running k hk := by
    by_cases hkr : k = r
    · simp [World.dispatch, hkr]
    · simp only [World.dispatch, Function.update_of_ne hkr]
      exact hw.running k ((List.mem_cons.1 hk).resolve_left hkr)
  stack := List.nodup_cons.2 ⟨hw.not_mem_stack (by simp [hr]), hw.stack⟩
  resumed := hw.resumed
  once := hw.once
  own := hw.own

/-- The state after the sleep `id` of `r` has been resumed. -/
def wokenUp (w : World) (r id : ℕ) (cancelled : Bool) (cause : Cause) : World :=
  { w with
    timers := w.timers.filter fun t => t.id ≠ id
    tokens := Function.update w.tokens r (some ⟨cancelled, none⟩)
    status := Function.update w.status r .running
    stack := r :: w.stack
    resumed := w.resumed ++ [⟨id, r, cause⟩] }

/-- Resuming a sleep once takes its timer and its wake function away. -/
theorem wokenUp_inv (hw : Inv w) {r id : ℕ} {cancelled : Bool} {cause : Cause}
    (hr : w.status r = .sleeping id) (hcause : cause = .timer ∨ cause = .cancel r) :
    Inv (wokenUp w r id cancelled cause) := by
  obtain ⟨hmem, htok⟩ := hw.asleep r id hr
  have hother : ∀ t ∈ w.timers, t.id ≠ id → t.coroutine ≠ r := by
    rintro t ht hne rfl
    have := (hw.timers t ht).2.symm.trans hr
    exact hne (Status.sleeping.inj this)
  refine ⟨fun t ht => hw.fresh t (List.mem_filter.1 ht).1,
    hw.ids.sublist (List.filter_sublist.map _), fun t ht => ?_, fun k l h => ?_,
    fun k token fn ht hf => ?_, fun k h1 h2 => ?_, fun k hk => ?_, ?_, fun e he => ?_, ?_,
    fun e he => ?_⟩
  · obtain ⟨ht, hne⟩ := List.mem_filter.1 ht
    refine ⟨(hw.timers t ht).1, ?_⟩
    have hne := hother t ht (by simpa using hne)
    simpa [wokenUp, Function.update_of_ne hne] using (hw.timers t ht).2
  · by_cases hk : k = r
    · subst hk
      simp [wokenUp] at h
    · simp only [wokenUp, Function.update_of_ne hk] at h ⊢
      obtain ⟨hm, ht⟩ := hw.asleep k l h
      refine ⟨List.mem_filter.2 ⟨hm, ?_⟩, ht⟩
      -- two sleeps never share a timer
      have hne : l ≠ id := by
        rintro rfl
        exact hk (congrArg Timer.coroutine (hw.timer_eq hm hmem rfl))
      simpa using hne
  · by_cases hk : k = r
    · subst hk
      simp only [wokenUp, Function.update_self, Option.some.injEq] at ht
      subst ht
      simp at hf
    · simp only [wokenUp, Function.update_of_ne hk] at ht ⊢
      exact hw.wake k token fn ht hf
  · by_cases hk : k = r
    · simp [wokenUp, hk]
    · simp only [wokenUp, Function.update_of_ne hk] at h1 h2 ⊢
      exact hw.token k h1 h2
  · by_cases hkr : k = r
    · simp [wokenUp, hkr]
    · simp only [wokenUp, Function.update_of_ne hkr]
      exact hw.running k ((List.mem_cons.1 hk).resolve_left hkr)
  · exact List.nodup_cons.2 ⟨hw.not_mem_stack (by simp [hr]), hw.stack⟩
  · rcases List.mem_append.1 he with he | he
    · obtain ⟨h1, h2⟩ := hw.resumed e he
      exact ⟨h1, fun t ht => h2 t (List.mem_filter.1 ht).1⟩
    · obtain rfl := List.mem_singleton.1 he
      exact ⟨hw.fresh _ hmem, fun t ht => by simpa using (List.mem_filter.1 ht).2⟩
  · rw [wokenUp, List.map_append, List.nodup_append]
    refine ⟨hw.once, by simp, ?_⟩
    rintro a ha b hb
    obtain ⟨e, he, rfl⟩ := List.mem_map.1 ha
    obtain rfl : b = id := by simpa using hb
    exact ((hw.resumed e he).2 _ hmem).symm
  · rcases List.mem_append.1 he with he | he
    · exact hw.own e he
    · obtain rfl := List.mem_singleton.1 he
      exact hcause

/-- A timer that expires resumes its sleep. -/
theorem expire_inv (hw : Inv w) {t : Timer} (ht : t ∈ w.timers) : Inv (w.expire t) := by
  obtain ⟨htok, hst⟩ := hw.timers t ht
  obtain ⟨-, htoken⟩ := hw.asleep _ _ hst
  have heq : w.expire t = wokenUp w t.coroutine t.id false .timer := by
    simp [World.expire, World.cancelTimer, World.lock, World.resume, htok, htoken, hst, wokenUp]
  rw [heq]
  exact wokenUp_inv hw hst (.inl rfl)

/-- A token whose request does not sleep may change as long as it wakes nobody. -/
theorem Inv.of_token (hw : Inv w) {r : ℕ} {token : CancellationToken}
    (hr : ∀ id, w.status r ≠ .sleeping id) (htok : token.wakeFn = none) :
    Inv { w with tokens := Function.update w.tokens r (some token) } where
  fresh := hw.fresh
  ids := hw.ids
  timers := hw.timers
  asleep k id h := by
    have hk : k ≠ r := fun hk => hr id (hk ▸ h)
    simpa only [Function.update_of_ne hk] using hw.asleep k id h
  wake k tok fn ht hf := by
    by_cases hk : k = r
    · subst hk
      simp only [Function.update_self, Option.some.injEq] at ht
      subst ht
      rw [htok] at hf
      exact absurd hf (by simp)
    · simp only [Function.update_of_ne hk] at ht
      exact hw.wake k tok fn ht hf
  token k h1 h2 := by
    by_cases hk : k = r
    · simp [hk]
    · simpa only [Function.update_of_ne hk] using hw.token k h1 h2
  running := hw.running
  stack := hw.stack
  resumed := hw.resumed
  once := hw.once
  own := hw.own

/-- Cancelling a request resumes the sleep that it is in. -/
theorem cancel_inv (hw : Inv w) {r : ℕ} {token : CancellationToken} (ht : w.tokens r = some token) :
    Inv (w.cancel r token) := by
  unfold World.cancel
  split
  · exact hw
  · next hc =>
    cases hf : token.wakeFn with
    | none =>
      refine hw.of_token (fun id hs => ?_) rfl
      obtain rfl := Option.some.inj ((hw.asleep r id hs).2.symm.trans ht)
      simp at hf
    | some fn =>
      obtain ⟨hco, hst⟩ := hw.wake r token fn ht hf
      have heq : (({ w with tokens := Function.update w.tokens r (some ⟨true, none⟩) } :
          World).cancelTimer fn.timer).resume fn (.cancel r) =
          wokenUp w r fn.timer true (.cancel r) := by
        simp [World.cancelTimer, World.resume, hco, hst, wokenUp]
      simp only [heq]
      exact wokenUp_inv hw hst (.inr rfl)

/-- The state after the running coroutine `r` has gone to sleep. -/
def asleep (w : World) (r : ℕ) (below : List ℕ) : World :=
  { w with
    timers := w.timers ++ [⟨w.nextTimer, r, some r⟩]
    nextTimer := w.nextTimer + 1
    tokens := Function.update w.tokens r (some ⟨false, some ⟨r, w.nextTimer⟩⟩)
    status := Function.update w.status r (.sleeping w.nextTimer)
    stack := below }

theorem asleep_inv (hw : Inv w) {r : ℕ} {below : List ℕ} (hstack : w.stack = r :: below) :
    Inv (asleep w r below) := by
  have hrun : w.status r = .running := hw.running r (by simp [hstack])
  have hnd : r ∉ below ∧ below.Nodup := List.nodup_cons.1 (hstack ▸ hw.stack)
  have hne : ∀ t ∈ w.timers, t.coroutine ≠ r := fun t ht => hw.timer_ne (by simp [hrun]) ht
  refine ⟨fun t ht => ?_, ?_, fun t ht => ?_, fun k l h => ?_, fun k token fn ht hf => ?_,
    fun k h1 h2 => ?_, fun k hk => ?_, hnd.2, fun e he => ?_, hw.once, hw.own⟩
  · rcases List.mem_append.1 ht with ht | ht
    · exact (hw.fresh t ht).trans (Nat.lt_succ_self _)
    · obtain rfl := List.mem_singleton.1 ht
      exact Nat.lt_succ_self _
  · rw [asleep, List.map_append, List.nodup_append]
    refine ⟨hw.ids, by simp, ?_⟩
    rintro a ha b hb
    obtain ⟨t, ht, rfl⟩ := List.mem_map.1 ha
    obtain rfl : b = w.nextTimer := by simpa using hb
    exact (hw.fresh t ht).ne
  · rcases List.mem_append.1 ht with ht | ht
    · refine ⟨(hw.timers t ht).1, ?_⟩
      simpa [asleep, Function.update_of_ne (hne t ht)] using (hw.timers t ht).2
    · obtain rfl := List.mem_singleton.1 ht
      simp [asleep]
  · by_cases hk : k = r
    · subst hk
      simp only [asleep, Function.update_self, Status.sleeping.injEq] at h
      subst h
      simp [asleep]
    · simp only [asleep, Function.update_of_ne hk] at h ⊢
      exact ⟨List.mem_append_left _ (hw.asleep k l h).1, (hw.asleep k l h).2⟩
  · by_cases hk : k = r
    · subst hk
      simp only [asleep, Function.update_self, Option.some.injEq] at ht
      subst ht
      obtain rfl := Option.some.inj hf
      simp [asleep]
    · simp only [asleep, Function.update_of_ne hk] at ht ⊢
      exact hw.wake k token fn ht hf
  · by_cases hk : k = r
    · simp [asleep, hk]
    · simp only [asleep, Function.update_of_ne hk] at h1 h2 ⊢
      exact hw.token k h1 h2
  · have hkr : k ≠ r := fun hkr => hnd.1 (hkr ▸ hk)
    simp only [asleep, Function.update_of_ne hkr]
    exact hw.running k (by rw [hstack]; exact List.mem_cons_of_mem _ hk)
  · obtain ⟨h1, h2⟩ := hw.resumed e he
    refine ⟨h1.trans (Nat.lt_succ_self _), fun t ht => ?_⟩
    rcases List.mem_append.1 ht with ht | ht
    · exact h2 t ht
    · obtain rfl := List.mem_singleton.1 ht
      exact h1.ne'

/-- Going to sleep under one's own token, cancelled or not. -/
theorem suspend_inv (hw : Inv w) {r : ℕ} {below : List ℕ} (hstack : w.stack = r :: below)
    (hown : w.currentToken = some r) : Inv (w.suspend r below) := by
  have hrun : w.status r = .running := hw.running r (by simp [hstack])
  obtain ⟨token, htok⟩ := Option.ne_none_iff_exists'.1
    (hw.token r (by simp [hrun]) (by simp [hrun]))
  cases hc : token.cancelled with
  | false =>
    have heq : w.suspend r below = asleep w r below := by
      obtain ⟨cancelled, wakeFn⟩ := token
      obtain rfl : cancelled = false := hc
      simp [World.suspend, World.lock, hown, htok, asleep]
    rw [heq]
    exact asleep_inv hw hstack
  | true =>
    -- the sleep is over at once: the timer just armed is cancelled again
    have htimers : ∀ t ∈ w.timers, ¬ t.id = w.nextTimer := fun t ht => (hw.fresh t ht).ne
    have heq : w.suspend r below =
        { w with
          nextTimer := w.nextTimer + 1
          resumed := w.resumed ++ [⟨w.nextTimer, r, .cancel r⟩] } := by
      have hst : Function.update w.status r .running = w.status := by
        rw [← hrun, Function.update_eq_self]
      simpa [World.suspend, World.lock, hown, htok, hc, World.cancelTimer, World.resume, hst,
        hstack] using htimers
    rw [heq]
    refine ⟨fun t ht => (hw.fresh t ht).trans (Nat.lt_succ_self _), hw.ids, hw.timers, hw.asleep,
      hw.wake, hw.token, hw.running, hw.stack, fun e he => ?_, ?_, fun e he => ?_⟩
    · rcases List.mem_append.1 he with he | he
      · exact ⟨(hw.resumed e he).1.trans (Nat.lt_succ_self _), (hw.resumed e he).2⟩
      · obtain rfl := List.mem_singleton.1 he
        exact ⟨Nat.lt_succ_self _, fun t ht => (hw.fresh t ht).ne⟩
    · rw [List.map_append, List.nodup_append]
      refine ⟨hw.once, by simp, ?_⟩
      rintro a ha b hb
      obtain ⟨e, he, rfl⟩ := List.mem_map.1 ha
      obtain rfl : b = w.nextTimer := by simpa using hb
      exact (hw.resumed e he).1.ne
    · rcases List.mem_append.1 he with he | he
      · exact hw.own e he
      · obtain rfl := List.mem_singleton.1 he
        exact .inr rfl

/-- A step in which a coroutine that goes to sleep finds its own token keeps the
    invariant. -/
theorem step_inv {e : Event} {w' : World} (hw : Inv w) (hown : OwnToken w e)
    (h : w.step e = some w') : Inv w' := by
  cases e with
  | dispatch r =>
    simp only [World.step, Option.ite_none_right_eq_some, Option.some.injEq] at h
    obtain ⟨hr, rfl⟩ := h
    exact dispatch_inv hw hr
  | sleep ms =>
    simp only [World.step] at h
    split at h
    · next r below hstack =>
      split at h
      · cases h
        exact hw
      · next hms =>
        cases h
        exact suspend_inv hw hstack (by rw [hown (by omega), hstack]; rfl)
    · simp at h
  | await =>
    simp only [World.step] at h
    split at h
    · next r below hstack =>
      cases h
      have hrun := hw.running r (by simp [hstack])
      have hnd := List.nodup_cons.1 (hstack ▸ hw.stack)
      refine hw.of_status (by simp [hrun]) (by simp)
        (fun _ _ => hw.token r (by simp [hrun]) (by simp [hrun])) (fun k hk => ?_) hnd.2
      have hkr : k ≠ r := fun hkr => hnd.1 (hkr ▸ hk)
      rw [Function.update_of_ne hkr]
      exact hw.running k (by simp [hstack, hk])
    · simp at h
  | finish =>
    simp only [World.step] at h
    split at h
    · next r below hstack =>
      cases h
      have hrun := hw.running r (by simp [hstack])
      have hnd := List.nodup_cons.1 (hstack ▸ hw.stack)
      refine hw.of_status (by simp [hrun]) (by simp) (fun _ hd => absurd rfl hd) (fun k hk => ?_)
        hnd.2
      have hkr : k ≠ r := fun hkr => hnd.1 (hkr ▸ hk)
      rw [Function.update_of_ne hkr]
      exact hw.running k (by simp [hstack, hk])
    · simp at h
  | expire id =>
    simp only [World.step, Option.ite_none_right_eq_some, Option.map_eq_some_iff] at h
    obtain ⟨-, t, ht, rfl⟩ := h
    exact expire_inv hw (List.mem_of_find?_eq_some ht)
  | answer r =>
    simp only [World.step, Option.ite_none_right_eq_some, Option.some.injEq] at h
    obtain ⟨⟨-, hr⟩, rfl⟩ := h
    exact hw.of_status (by simp [hr]) (by simp)
      (fun _ _ => hw.token r (by simp [hr]) (by simp [hr])) (by simp) (by simp)
  | cancel r =>
    simp only [World.step, Option.map_eq_some_iff] at h
    obtain ⟨token, ht, rfl⟩ := h
    exact cancel_inv hw ht
  | release r =>
    simp only [World.step, Option.ite_none_right_eq_some, Option.some.injEq] at h
    obtain ⟨hr, rfl⟩ := h
    refine ⟨hw.fresh, hw.ids, hw.timers, fun k id hs => ?_, fun k tok fn ht hf => ?_,
      fun k h1 h2 => ?_, hw.running, hw.stack, hw.resumed, hw.once, hw.own⟩
    · have hk : k ≠ r := by rintro rfl; simp [hr] at hs
      simpa only [Function.update_of_ne hk] using hw.asleep k id hs
    · have hk : k ≠ r := by rintro rfl; simp at ht
      simp only [Function.update_of_ne hk] at ht
      exact hw.wake k tok fn ht hf
    · have hk : k ≠ r := fun hk => h2 (hk ▸ hr)
      simpa only [Function.update_of_ne hk] using hw.token k h1 h2

end Steps

/-- For any number of requests and every order of dispatches, expirations and
    cancellations in which a coroutine that sleeps finds its own token: sleeps
    are resumed once, by their timer or by the cancellation of their request. -/
theorem sleepsOwned_of_ownToken (events : List Event) (w : World)
    (hown : eventLoop.Meets OwnToken events) (hrun : eventLoop.run events = some w) :
    SleepsOwned w :=
  (eventLoop.guarded_induction init_inv (fun _ _ _ hw ho hstep => step_inv hw ho hstep) hown
    hrun).sleepsOwned

/-- Two requests asleep, one woken by its timer and the other cancelled. -/
theorem sleepsOwned_of_ownToken_two :
    ∃ w, eventLoop.run [.dispatch 0, .sleep 10, .dispatch 1, .sleep 20, .expire 0, .finish,
      .cancel 1, .finish] = some w ∧ SleepsOwned w := by
  refine ⟨_, rfl, sleepsOwned_of_ownToken [.dispatch 0, .sleep 10, .dispatch 1, .sleep 20,
    .expire 0, .finish, .cancel 1, .finish] _ ?_ rfl⟩
  exact .cons trivial rfl <| .cons (fun _ => rfl) rfl <| .cons trivial rfl <|
    .cons (fun _ => rfl) rfl <| .cons trivial rfl <| .cons trivial rfl <|
    .cons trivial rfl <| .cons trivial rfl trivial

/-- Request 0 sleeps again after request 1 was dispatched.  Cancelling request 0
    then resumes nobody, and cancelling request 1 resumes request 0. -/
theorem sleep_under_foreign_token :
    ∃ w w', eventLoop.run [.dispatch 0, .sleep 10, .dispatch 1, .sleep 1000, .expire 0,
        .sleep 1000, .cancel 0] = some w ∧ w.status 0 = .sleeping 2 ∧ ¬ SleepsOwned w ∧
      w.step (.cancel 1) = some w' ∧ w'.status 1 = .sleeping 1 ∧
      w'.resumed = [⟨0, 0, .timer⟩, ⟨2, 0, .cancel 1⟩] ∧ ¬ SleepsOwned w' := by
  refine ⟨_, _, rfl, rfl, fun h => ?_, rfl, rfl, rfl, fun h => ?_⟩
  · exact h.cancelled 0 ⟨true, none⟩ rfl rfl 2 rfl
  · exact absurd (h.own ⟨2, 0, .cancel 1⟩ (by decide)) (by decide)

end Osodio.Runtime
