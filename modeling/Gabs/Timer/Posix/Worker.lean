import Gabs.Timer.Posix.Ownership

/-!
# The POSIX timer: the worker's loop

- `InBatch`: while the worker is at work on a pollfd its index is inside the array (`inBatch_of_reach`);
- `Inside`: a call of the worker thread is made from a callback, which the worker does not leave before the call
  returns (`inside_of_reach`, `Inside.idle`).
-/

namespace Gabs.Timer.Posix

open Gabs.Lib

variable {n m : Nat} {s s' : Sys n m}

/-! ## The batch -/

/-- While it is at work on a pollfd the worker is inside the array. -/
def InBatch (s : Sys n m) : Prop := ∀ j p, s.worker = .service j p → p ≠ .head → j < s.pfds.length

theorem findFrom_index {j k j' : Nat} {p : Service n} (h : findFrom n j k = .service j' p) (hp : p ≠ .head) :
    j' = j := by
  unfold findFrom at h
  split at h
  · cases h; rfl
  · cases h; exact absurd rfl hp

theorem lt_of_getElem? {α : Type} {l : List α} {j : Nat} {x : α} (h : l[j]? = some x) : j < l.length :=
  (List.getElem?_eq_some_iff.mp h).1

theorem InBatch.step {a : Act n m} (hi : InBatch s) (h : Move s a s') : InBatch s' := by
  cases a with
  | work r =>
    cases h with
    | work hm =>
      cases hm with
      | exit | used | zombie | alive | active | inactive | pollErr | batchEnd => nofun
      | unused | noCas =>
        intro j p e
        rw [Sys.work_worker, prepareFrom] at e
        split at e <;> cases e
      | quiet => intro j p e hp; cases e; exact absurd rfl hp
      | ready _ hj | valid _ hj | found _ hj | noCb _ hj | enter _ hj | fire _ hj | skip _ hj | ret _ hj =>
        intro j p e _
        cases e
        exact lt_of_getElem? hj
      | invalid _ hj | other _ hj =>
        intro j p e hp
        rw [findFrom_index e hp]
        exact lt_of_getElem? hj
    | pass | deinitLock | clearSched =>
      intro j p e
      rw [Sys.work_worker, prepareFrom] at e
      split at e <;> cases e
    | close | reset | cas | push | pollEvent | eventRead => nofun
    | pollTimers => intro j p e hp; cases e; exact absurd rfl hp
    | @read _ j pfd _ hj =>
      intro j' p e hp
      rw [Sys.work_worker] at e
      split at e
      · rw [findFrom_index e hp]
        exact lt_of_getElem? hj
      · cases e; exact absurd rfl hp
    | lock _ hj | unlock _ hj => intro j p e _; cases e; exact lt_of_getElem? hj
    | clearActive => intro j p e hp; cases e; exact absurd rfl hp
  | call | step | expire | tick =>
    obtain ⟨h1, h2⟩ := h.frame_worker nofun
    unfold InBatch
    rw [h1, h2]
    exact hi

theorem inBatch_of_reach {P : Sys n m → Act n m → Prop} (hr : (system n m).Reach P s) : InBatch s := by
  refine hr.invariant ?_ fun _ _ _ _ hi _ h => hi.step (step_move h)
  rintro s ⟨fd, -, rfl⟩
  nofun

/-! ## Calls from callbacks -/

/-- The worker thread is in a call only while it runs a callback. -/
def Inside (s : Sys n m) : Prop := s.calls .worker ≠ .idle → s.worker.inCallback = true

/-- While the worker thread is in a call the worker does not move. -/
theorem Inside.idle (hi : Inside s) (hb : InBatch s) {r : Reply} (h : Move s (.work r) s') :
    s.calls .worker = .idle := by
  by_contra hc
  have hw := hi hc
  cases h with
  | work hm =>
    cases hm with
    | ret _ _ h => exact hc h
    | @batchEnd j p h hj =>
      have := hb j p h (by rintro rfl; simp [h, Worker.inCallback] at hw)
      rw [List.getElem?_eq_none_iff] at hj
      omega
    | _ h => simp [h, Worker.inCallback] at hw
  | _ h => simp [h, Worker.inCallback] at hw

theorem Inside.step {a : Act n m} (hi : Inside s) (hb : InBatch s) (h : Move s a s') : Inside s' := by
  intro hc
  cases a with
  | work r =>
    rw [h.frame_calls] at hc
    exact absurd (hi.idle hb h) hc
  | step th r =>
    rw [(h.frame_worker nofun).1]
    refine hi fun e => ?_
    rcases eq_or_ne .worker th with rfl | hn
    · exact h.frame_others.1 e
    · exact hc ((h.frame_others.2 _ hn).trans e)
  | expire | tick => cases h; exact hi hc
  | call th op =>
    cases h with
    | enter _ hw he =>
      subst he
      rw [enter_worker]
      rw [enter_calls, Function.update_apply] at hc
      split at hc
      · rename_i e; exact hw e.symm
      · exact hi hc

theorem inside_of_reach {P : Sys n m → Act n m → Prop} (hr : (system n m).Reach P s) : Inside s := by
  refine hr.invariant ?_ fun _ _ _ hr hi _ h => hi.step (inBatch_of_reach hr) (step_move h)
  rintro s ⟨fd, -, rfl⟩ h
  exact absurd rfl h

end Gabs.Timer.Posix
