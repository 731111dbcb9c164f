import Gabs.Timer.Posix.Pledge
import Gabs.Timer.Posix.Scripts

/-!
# The POSIX timer: a start that cannot arm the timer

When its `timerfd_settime` fails, `timer_restart` still sets `BIT_SCHED`.

- `Idle`: `gabs_timer_active` answers false, and `gabs_timer_start` is not refused;
- `Sys.effect`: the steps that begin and end what the two bits stand for (`Move.armed`);
- `undone`: a history: whether other threads have ended it since the `mask_set` of a call;
- `failed_arming`: a call that fails leaves the timer idle only if they have.
-/

namespace Gabs.Timer.Posix

open Gabs.Lib

variable {n m : Nat} {s s' : Sys n m} {t : Fin n}

/-! ## Idle timers -/

/-- **Timer `t` is idle**: in any thread, `gabs_timer_active` answers false, and `gabs_timer_start` goes on. -/
structure Idle (s : Sys n m) (t : Fin n) : Prop where
  active : ∀ th r, ∃ s', callStep (s.goto th (.active t)) th r = some s' ∧ s'.ret th = some (.active false)
  start : ∀ th us r, ∃ s', callStep (s.goto th (.start t us)) th r = some s' ∧ s'.calls th = .restart t us .clear

/-- Both calls look at the same bits. -/
theorem idle_iff : Idle s t ↔ s.armed t = false := by
  constructor
  · intro hi
    obtain ⟨s', hs, hret⟩ := hi.active .worker .ok
    have hcall : (s.goto .worker (.active t)).calls .worker = .active t := by rw [Sys.goto_calls, Function.update_self]
    simp only [callStep, hcall, Option.some.injEq] at hs
    subst hs
    simpa [Sys.armed] using hret
  · intro ha
    have hbits : maskGet (s.state t) (bitActive ||| bitSched) = 0 := by simpa [Sys.armed] using ha
    constructor
    · intro th r
      have hcall : (s.goto th (.active t)).calls th = .active t := Function.update_self ..
      refine ⟨_, by rw [callStep, hcall], ?_⟩
      rw [Sys.done_ret, Function.update_self, Sys.goto_state, hbits]
      rfl
    · intro th us r
      have hcall : (s.goto th (.start t us)).calls th = .start t us := Function.update_self ..
      have hpass : ¬maskGet ((s.goto th (.start t us)).state t) (bitActive ||| bitSched) ≠ 0 := not_not.mpr hbits
      refine ⟨(s.goto th (.start t us)).goto th (.restart t us .clear), ?_, Function.update_self ..⟩
      simp only [callStep, hcall, if_neg hpass]

theorem armed_iff_bits : s.armed t = ((s.state t).has .sched || (s.state t).has .active) := armed_eq s t

/-! ## Beginnings and ends -/

/-- What a step makes of the timer: it becomes armed, or idle, or stays as it is. It becomes armed at the `mask_set` of
a `timer_restart`; it becomes idle at a `mask_clear` of a call, where the worker clears the last bit, and where the slot
is reset. -/
def Sys.effect (s : Sys n m) (t : Fin n) : Act n m → Option Bool
  | .work _ => match s.worker with
    | .prepare i .reset => if i = t then some false else none
    | .prepare i .clearSched => if i = t ∧ (s.state t).has .active = false then some false else none
    | .service _ (.alarm i .clear) => if i = t ∧ (s.state t).has .sched = false then some false else none
    | _ => none
  | .step th _ => match s.calls th with
    | .restart i _ .clear | .stop i _ .clear | .install _ _ (.errReset i) | .deinit (.reset i) =>
      if i = t then some false else none
    | .restart i _ (.setSched _) => if i = t then some true else none
    | _ => none
  | _ => none

/-- A step on the word of one slot. -/
theorem armed_of_slot {a : Act n m} {i : Fin n} {w : Word} (hs : s'.state = Function.update s.state i w)
    (hother : i ≠ t → s.effect t a = none)
    (hslot : i = t → (w.has .sched || w.has .active) = (s.effect t a).getD (s.armed t)) :
    s'.armed t = (s.effect t a).getD (s.armed t) := by
  rw [armed_iff_bits (s := s'), hs]
  by_cases hit : i = t
  · rw [← hslot hit, hit, Function.update_self]
  · rw [hother hit, Function.update_of_ne (Ne.symm hit), Option.getD_none, armed_iff_bits]

theorem armed_of_state (hs : s'.state = s.state) : s'.armed t = s.armed t := by
  rw [armed_iff_bits, armed_iff_bits, hs]

/-- **What a step makes of the timer.** -/
theorem Move.armed {a : Act n m} (h : Move s a s') (hb : InBatch s) :
    s'.armed t = (s.effect t a).getD (s.armed t) := by
  -- Most steps are at no such position, and leave the word alone.
  have hnone : s'.armed t = s.armed t → s.effect t a = none → s'.armed t = (s.effect t a).getD (s.armed t) :=
    fun h1 h2 => by rw [h1, h2, Option.getD_none]
  cases h with
  | tick | expire => exact hnone rfl rfl
  | enter _ _ he =>
    subst he
    exact hnone (armed_of_state (enter_state ..)) rfl
  | work hm =>
    refine hnone rfl ?_
    cases hm with
    | @batchEnd j p hw hj =>
      cases p with
      | head => rw [Sys.effect, hw]
      | _ => exact absurd hj (by simpa using hb j _ hw (by simp))
    | _ hw => rw [Sys.effect, hw]
  | goto hm =>
    refine hnone rfl ?_
    cases hm with
    | _ hc => simp only [Sys.effect, hc]
  | done hm =>
    refine hnone rfl ?_
    cases hm with
    | _ hc => simp only [Sys.effect, hc]
  | pass hw | close hw | deinitLock hw | push hw | pollEvent hw | pollTimers hw | eventRead hw | read hw | lock hw
  | unlock hw => exact hnone rfl (by rw [Sys.effect, hw])
  | taken hc | fill hc | create hc | createErr hc | initLock hc | errClose hc | started hc | stopped hc | unStopped hc
  | unLock hc | unUnlock hc | deinitExit hc | deinitTrigger hc | deinitEvent hc | deinitSkip hc | deinitClose hc
  | deinitMutex hc => exact hnone rfl (by rw [Sys.effect, hc])
  | settime hc =>
    refine hnone rfl ?_
    generalize hcall : s.calls _ = c at hc
    cases hc <;> rw [Sys.effect, hcall]
  | claim hc | publish hc | zombie hc =>
    refine armed_of_slot rfl (fun _ => by rw [Sys.effect, hc]) fun hit => ?_
    rw [Sys.effect, hc, armed_iff_bits, hit]
    simp [bitAlloc, bitUsed, bitZombie]
  | reset hw | errReset hw | deinitReset hw =>
    refine armed_of_slot rfl (fun hne => ?_) fun hit => ?_
    · simp only [Sys.effect, hw, if_neg hne]
    · simp only [Sys.effect, hw, if_pos hit, Option.getD_some]
      rfl
  | clear hc =>
    generalize hcall : s.calls _ = c at hc
    refine armed_of_slot rfl (fun hne => ?_) fun hit => ?_
    · cases hc <;> simp only [Sys.effect, hcall, if_neg hne]
    · cases hc <;> simp [Sys.effect, hcall, hit, bitActive, bitSched]
  | setSched hc =>
    refine armed_of_slot rfl (fun hne => ?_) fun hit => ?_
    · simp only [Sys.effect, hc, if_neg hne]
    · simp [Sys.effect, hc, hit, bitSched]
  | cas hw hm =>
    obtain ⟨hsched, hbits⟩ := has_of_maskCas hm
    refine armed_of_slot rfl (fun _ => by rw [Sys.effect, hw]) fun hit => ?_
    rw [Sys.effect, hw, armed_iff_bits, ← hit, hsched, hbits .active (by simp)]
    simp
  | clearSched hw =>
    refine armed_of_slot rfl (fun hne => ?_) fun hit => ?_
    · simp only [Sys.effect, hw, hne, false_and, if_false]
    · rw [armed_iff_bits, hit]
      cases ha : (s.state t).has .active <;> simp [Sys.effect, hw, hit, ha, bitSched]
  | clearActive hw =>
    refine armed_of_slot rfl (fun hne => ?_) fun hit => ?_
    · simp only [Sys.effect, hw, hne, false_and, if_false]
    · rw [armed_iff_bits, hit]
      cases ha : (s.state t).has .sched <;> simp [Sys.effect, hw, hit, ha, bitActive]

/-! ## What is undone -/

/-- For each thread in a call that has set `BIT_SCHED` and is about to return: whether other threads have ended what the
`mask_set` has begun, and none has begun anew. -/
def undone (s : Sys n m) (a : Act n m) (_ : Sys n m) (g : Thread m → Bool) (th : Thread m) : Bool :=
  match (s.calls th).promises with
  | some t => match s.effect t a with
    | some b => !b
    | none => g th
  | none => false

/-- The system with this history. -/
def undoings (n m : Nat) : Lts (Sys n m × (Thread m → Bool)) (Act n m) := (system n m).record (fun _ => false) undone

/-- **The invariant**: as long as nothing is undone the timer is armed. -/
def Counted (s : Sys n m) (g : Thread m → Bool) : Prop := ∀ th t, (s.calls th).promises = some t → g th = !s.armed t

variable {g : Thread m → Bool}

theorem Counted.step {a : Act n m} (hi : Counted s g) (hb : InBatch s) (h : Move s a s') :
    Counted s' (undone s a s' g) := by
  intro th t hc
  rcases h.promises_of hc with hold | ⟨hold, hsched⟩
  · rw [h.armed hb]
    cases he : s.effect t a with
    | some b => simp only [undone, hold, he, Option.getD_some]
    | none =>
      simp only [undone, hold, he, Option.getD_none]
      exact hi th t hold
  · simp only [undone, hold, armed_iff_bits, hsched, Bool.true_or, Bool.not_true]

theorem counted_of_reach {x : Sys n m × (Thread m → Bool)} (hr : (undoings n m).Reach (fun _ _ => True) x) :
    Counted x.1 x.2 := by
  refine hr.record_invariant (I := fun s g => Counted s g) ?_ fun s a s' g hr hi _ h =>
    hi.step (inBatch_of_reach (hr.fst (P := fun _ _ => True))) (step_move h)
  rintro s ⟨fd, -, rfl⟩ th t hc
  cases hc

/-! ## The failure -/

/-- **When a start or restart that cannot arm its timer leaves it idle.** Its `timerfd_settime` has failed with `e`, and
its last step is made, in any run. It returns `-e` and leaves the timer idle exactly if that step does not overwrite
`errno`, and other threads have undone its `mask_set`. -/
theorem failed_arming {x : Sys n m × (Thread m → Bool)} (hr : (undoings n m).Reach (fun _ _ => True) x) {th : Thread m}
    {us e : Nat} {r : Reply} (hc : x.1.calls th = .restart t us (.trigger (some e)))
    (hs : step x.1 (.step th r) = some s') :
    (s'.ret th = some (.status (-(e : Int))) ∧ Idle s' t) ↔ (∀ e', r = .err e' → e' = e) ∧ x.2 th = true := by
  have hcount := counted_of_reach hr th t (by rw [hc]; rfl)
  obtain rfl : s' = x.1.triggerReset.done th (.status (restartStatus (some e) r)) := by
    simp only [step, callStep, hc, timerRestartStep, Option.some.injEq] at hs
    exact hs.symm
  have hidle : Idle (x.1.triggerReset.done th (.status (restartStatus (some e) r))) t ↔ x.2 th = true := by
    have hsame : (x.1.triggerReset.done th (.status (restartStatus (some e) r))).armed t = x.1.armed t :=
      armed_of_state rfl
    rw [idle_iff, hsame, hcount]
    cases x.1.armed t <;> simp
  have hret : (x.1.triggerReset.done th (.status (restartStatus (some e) r))).ret th = some (.status (-(e : Int))) ↔
      ∀ e', r = .err e' → e' = e := by
    rw [Sys.done_ret, Function.update_self]
    cases r with
    | err e' => simp [restartStatus]
    | ok | fd => simp [restartStatus]
  exact and_congr hret hidle

/-- A timer that has expired is restarted, and the call fails; before it returns, the worker takes the old expiration
for the new one and fires. -/
def firedMeanwhile : List (Act 1 1) :=
  let c : Thread 1 := .client 0
  [Act.call c (.install (some 7) 0), .step c .ok, .step c .ok, .step c (.fd 4), .step c .ok, .step c .ok,
    .call c (.start 0 0), .step c .ok, .step c .ok, .step c .ok, .step c .ok, .step c .ok, .tick 1, .expire 4,
    .call c (.restart 0 5), .step c .ok, .step c (.err 22), .step c .ok] ++ List.replicate 27 (Act.work .ok)

theorem failed_arming_run : ∃ (x : Sys 1 1 × (Thread 1 → Bool)) (s' : Sys 1 1),
    (undoings 1 1).Reach (fun _ _ => True) x ∧ x.1.calls (.client 0) = .restart 0 5 (.trigger (some 22)) ∧
    step x.1 (.step (.client 0) .ok) = some s' ∧ s'.ret (.client 0) = some (.status (-22)) ∧ Idle s' 0 := by
  obtain ⟨x, hr, hc, hg⟩ := Lts.Reach.run (M := undoings 1 1) (P := fun _ _ => True)
    (Q := fun x => x.1.calls (.client 0) = .restart 0 5 (.trigger (some 22)) ∧ x.2 (.client 0) = true)
    (s := (ctxInit 1 1 3, fun _ => false)) ⟨⟨3, by decide, rfl⟩, rfl⟩ firedMeanwhile (by decide)
  obtain ⟨s', hs⟩ : ∃ s', step x.1 (.step (.client 0) .ok) = some s' := ⟨_, by simp only [step, callStep, hc]; rfl⟩
  exact ⟨x, s', hr, hc, hs, (failed_arming hr hc hs).mpr ⟨by simp, hg⟩⟩

/-- A start that fails, and nothing else happens. -/
def failedStart : List (Act 1 1) :=
  let c : Thread 1 := .client 0
  [Act.call c (.install (some 7) 0), .step c .ok, .step c .ok, .step c (.fd 4), .step c .ok, .step c .ok,
    .call c (.start 0 5), .step c .ok, .step c .ok, .step c (.err 22), .step c .ok]

/-- **A start that fails leaves its timer active**: it returns the error, or another one if `errno` has been
overwritten, and the next start returns `-EBUSY`. -/
theorem failed_start_active : ∃ s s' s'' : Sys 1 1, (system 1 1).Reach (fun _ _ => True) s ∧
    s.calls (.client 0) = .restart 0 5 (.trigger (some 22)) ∧
    step s (.step (.client 0) .ok) = some s' ∧ s'.ret (.client 0) = some (.status (-22)) ∧ ¬Idle s' 0 ∧
    (callStep (s'.goto (.client 0) (.start 0 5)) (.client 0) .ok).map (fun s => s.ret (.client 0)) =
      some (some (.status (-eBusy))) ∧
    step s (.step (.client 0) (.err 11)) = some s'' ∧ s''.ret (.client 0) = some (.status (-11)) := by
  obtain ⟨s, hr, hc, hs⟩ := Lts.Reach.run (M := system 1 1) (P := fun _ _ => True)
    (Q := fun s => s.calls (.client 0) = .restart 0 5 (.trigger (some 22)) ∧ s.state 0 = 25) (s := ctxInit 1 1 3)
    ⟨3, by decide, rfl⟩ failedStart (by decide)
  have hstep : ∀ r, step s (.step (.client 0) r) =
      some (s.triggerReset.done (.client 0) (.status (restartStatus (some 22) r))) := fun r => by
    simp only [step, callStep, hc, timerRestartStep]
  have hret : ∀ r, (s.triggerReset.done (.client 0) (.status (restartStatus (some 22) r))).ret (.client 0) =
      some (.status (restartStatus (some 22) r)) := fun r => by rw [Sys.done_ret, Function.update_self]
  have hst : (s.triggerReset.done (.client 0) (.status (restartStatus (some 22) .ok))).state 0 = 25 := hs
  refine ⟨s, _, _, hr, hc, hstep .ok, hret .ok, ?_, ?_, hstep (.err 11), hret (.err 11)⟩
  · rw [idle_iff, Sys.armed, hst]
    decide
  · have hcall (s₁ : Sys 1 1) : (s₁.goto (.client 0) (.start 0 5)).calls (.client 0) = .start 0 5 := by
      rw [Sys.goto_calls, Function.update_self]
    have hbusy (s₁ : Sys 1 1) (h₁ : s₁.state 0 = 25) :
        maskGet ((s₁.goto (.client 0) (.start 0 5)).state 0) (bitActive ||| bitSched) ≠ 0 := by
      rw [Sys.goto_state, h₁]
      decide
    rw [callStep, hcall]
    dsimp only
    rw [if_pos (hbusy _ hst), Option.map_some, Sys.done_ret, Function.update_self]

end Gabs.Timer.Posix
