import Gabs.Timer.Posix.Handles
import Gabs.Timer.Posix.Worker

/-!
# The POSIX timer: quiescence after uninstall

- `Sys.Quiet`: neither `BIT_SCHED` nor `BIT_ACTIVE` is set; only `timer_restart` ends it (`Move.quiet`);
- `Locking`: who holds the lock of a timer, and what an uninstall keeps away by it;
- `Gone`: a history of the timers whose uninstall has returned;
- `uninstall_quiesces`: no callback of such a timer is started, and none is running but the one that made the uninstall.
-/

namespace Gabs.Timer.Posix

open Gabs.Lib

variable {n m : Nat}

/-! ## Quiet timers -/

/-- The timer is neither scheduled nor active. -/
def Sys.Quiet (s : Sys n m) (t : Fin n) : Prop := (s.state t).has .sched = false ∧ (s.state t).has .active = false

/-- The action is the `mask_set(BIT_SCHED)` of `timer_restart`. -/
def Act.schedules (s : Sys n m) (t : Fin n) : Act n m → Prop
  | .step th _ => ∃ us err, s.calls th = .restart t us (.setSched err)
  | _ => False

variable {s s' : Sys n m}

theorem quiet_of_update {t k : Fin n} {w : Word} (hq : s.Quiet t) (hs : s'.state = Function.update s.state k w)
    (h1 : k = t → w.has .sched = false) (h2 : k = t → w.has .active = false) : s'.Quiet t := by
  unfold Sys.Quiet
  rw [hs, Function.update_apply]
  split
  · rename_i e; exact ⟨h1 e.symm, h2 e.symm⟩
  · exact hq

/-- A quiet timer stays quiet until it is restarted. -/
theorem Move.quiet {a : Act n m} (h : Move s a s') {t : Fin n} (hq : s.Quiet t) (hn : ¬a.schedules s t) :
    s'.Quiet t := by
  obtain ⟨h1, h2⟩ := hq
  cases h with
  | enter _ _ he => subst he; exact ⟨by simpa using h1, by simpa using h2⟩
  | claim | publish | zombie | errReset | deinitReset | reset | clearSched | clearActive =>
    exact quiet_of_update ⟨h1, h2⟩ rfl (by rintro rfl; simp [bitAlloc, bitUsed, bitZombie, h1])
      (by rintro rfl; simp [bitAlloc, bitUsed, bitZombie, bitSched, h2])
  | @clear _ _ k =>
    exact quiet_of_update (k := k) ⟨h1, h2⟩ rfl (by rintro rfl; simp [bitActive, bitSched])
      (by rintro rfl; simp [bitActive, bitSched])
  | @setSched _ _ k us err hc =>
    have hk : k ≠ t := fun e => hn ⟨us, err, e ▸ hc⟩
    exact quiet_of_update ⟨h1, h2⟩ rfl (fun e => absurd e hk) (fun e => absurd e hk)
  | @cas _ k w _ hm =>
    have hk : k ≠ t := fun e => by
      have := (has_of_maskCas hm).1
      rw [e, h1] at this
      cases this
    exact quiet_of_update ⟨h1, h2⟩ rfl (fun e => absurd e hk) (fun e => absurd e hk)
  | _ => exact ⟨h1, h2⟩

/-- A zero word is quiet. -/
theorem quiet_of_zero {t : Fin n} (h : s.state t = 0) : s.Quiet t := by
  unfold Sys.Quiet
  rw [h]
  exact ⟨has_zero _, has_zero _⟩

/-! ## Calls that quiet their timer -/

/-- The call has cleared both bits of the timer and has not set `BIT_SCHED`. -/
def Call.quiets : Call n → Option (Fin n)
  | .restart t _ .settime | .restart t _ (.setSched _) | .stop t _ .settime | .stop t _ (.trigger _)
  | .uninstall t .unlock | .uninstall t .zombie => some t
  | _ => none

theorem timer_of_quiets {c : Call n} {t : Fin n} (h : c.quiets = some t) : c.timer = some t := by
  unfold Call.quiets at h
  split at h <;> first | exact h | cases h

theorem first_quiets (op : Op n) : op.first.quiets = none := by
  cases op with
  | install cb arg => simp only [Op.first, allocCall]; split <;> rfl
  | _ => rfl

/-- A call begins to quiet its timer with the `mask_clear`. -/
theorem Move.quiets {th : Thread m} {r : Reply} (h : Move s (.step th r) s') {t : Fin n}
    (hc : (s'.calls th).quiets = some t) : (s.calls th).quiets = some t ∨ s'.Quiet t := by
  cases h with
  | goto hm =>
    rw [Sys.goto_calls, Function.update_self] at hc
    cases hm with
    | settimeErr h | stopErr h | unlockOwn h => exact .inl (by rw [h]; exact hc)
    | _ => cases hc
  | clear h =>
    rw [Sys.goto_calls, Function.update_self] at hc
    generalize s.calls th = c at h ⊢
    cases h <;> cases hc <;> exact .inr ⟨by simp [bitActive, bitSched], by simp [bitActive, bitSched]⟩
  | settime h =>
    rw [Sys.goto_calls, Function.update_self] at hc
    generalize s.calls th = c at h ⊢
    cases h <;> exact .inl hc
  | unStopped h | unUnlock h =>
    rw [Sys.goto_calls, Function.update_self] at hc
    exact .inl (by rw [h]; exact hc)
  | taken | deinitEvent | deinitSkip | deinitMutex =>
    simp only [allocFrom_calls, deinitFrom_calls, Function.update_self, allocCall, deinitCall] at hc
    split at hc <;> cases hc
  | done | errReset | publish | started | stopped | zombie =>
    rw [Sys.done_calls, Function.update_self] at hc
    cases hc
  | claim | fill | create | createErr | initLock | errClose | setSched | unLock | deinitExit | deinitTrigger
  | deinitClose | deinitReset =>
    rw [Sys.goto_calls, Function.update_self] at hc
    cases hc

/-! ## Uninstalls stop their timer -/

/-- The uninstall of the timer has cleared both bits and has not returned. -/
def Call.stopped : Call n → Option (Fin n)
  | .uninstall t .unlock | .uninstall t .zombie | .stop t true .settime | .stop t true (.trigger _) => some t
  | _ => none

theorem stopped_iff {c : Call n} {t : Fin n} : c.stopped = some t ↔ c.quiets = some t ∧ c.removes = some t := by
  cases c with
  | uninstall k p => cases p <;> simp [Call.stopped, Call.quiets, Call.removes]
  | stop k un p => cases p <;> cases un <;> simp [Call.stopped, Call.quiets, Call.removes]
  | _ => simp [Call.stopped, Call.removes]

theorem removes_of_stopped {c : Call n} {t : Fin n} (h : c.stopped = some t) : c.removes = some t :=
  (stopped_iff.mp h).2

/-- An uninstall begins to stop its timer with the `mask_clear`. -/
theorem Move.stops {th : Thread m} {r : Reply} (h : Move s (.step th r) s') {t : Fin n}
    (hc : (s'.calls th).stopped = some t) : (s.calls th).stopped = some t ∨ s'.Quiet t := by
  obtain ⟨hq, hr⟩ := stopped_iff.mp hc
  refine (h.quiets hq).imp_left fun hq => stopped_iff.mpr ⟨hq, ?_⟩
  rcases h.follows nofun th with ⟨-, h1⟩ | ⟨-, h1⟩
  · rw [hr] at h1; cases h1
  · rw [← h1, hr]

/-- **Timers that are being removed or are removed are quiet.** -/
structure Stopped (s : Sys n m) : Prop where
  stopped : ∀ th t, (s.calls th).stopped = some t → s.Quiet t
  buried : ∀ t, (s.state t).has .zombie = true → s.Quiet t

theorem Stopped.step {a : Act n m} (hi : Stopped s) (hh : Handles s) (h : Move s a s') : Stopped s' := by
  have hkeep : ∀ th t, (s.calls th).stopped = some t → s'.Quiet t := by
    intro th t hc
    refine h.quiet (hi.stopped th t hc) fun hs => ?_
    cases a with
    | step th' r =>
      obtain ⟨us, err, e⟩ := hs
      have := hh.alone th th' t (removes_of_stopped hc) (by rw [e]; rfl)
      subst this
      rw [e] at hc
      cases hc
    | _ => exact hs
  constructor
  · intro th t hc
    cases a with
    | work r => exact hkeep th t (h.frame_calls ▸ hc)
    | tick | expire => cases h; exact hkeep th t hc
    | step th' r =>
      rcases eq_or_ne th th' with rfl | hn
      · exact (h.stops hc).elim (hkeep th t) id
      · exact hkeep th t (h.frame_others.2 th hn ▸ hc)
    | call th' op =>
      refine hkeep th t ?_
      cases h with
      | enter _ _ he =>
        subst he
        rw [enter_calls, Function.update_apply] at hc
        split at hc
        · have := (stopped_iff.mp hc).1
          rw [first_quiets] at this
          cases this
        · exact hc
  · intro t hz
    by_cases hb : a.buries s t
    · cases a with
      | step th r => exact hkeep th t (by rw [show s.calls th = .uninstall t .zombie from hb]; rfl)
      | _ => exact hb.elim
    · have hz0 := h.zombie_of hb hz
      refine h.quiet (hi.buried t hz0) fun hs => ?_
      cases a with
      | step th r =>
        obtain ⟨us, err, e⟩ := hs
        have := (hh.live th t (by rw [e]; rfl)).2
        rw [hz0] at this
        cases this
      | _ => exact hs

theorem stopped_of_reach (hr : (system n m).Reach Exclusive s) : Stopped s := by
  refine hr.invariant ?_ fun s a s' hr hi _ h => hi.step (handles_of_reach hr) (step_move h)
  rintro s ⟨fd, -, rfl⟩
  exact ⟨nofun, fun t _ => quiet_of_zero rfl⟩

/-! ## The lock -/

/-- The timer whose lock an uninstall has taken, unless it is made from the timer's own callback. -/
def Call.locks : Call n → Option (Fin n)
  | .uninstall t .unlock | .stop t true _ => some t
  | _ => none

/-- The timer whose lock the worker has taken. -/
def Worker.locked : Worker n → Option (Fin n)
  | .service _ (.alarm i .test) | .service _ (.alarm i .callback) | .service _ (.alarm i .unlock) => some i
  | _ => none

/-- The lock of every timer is initialized while the timer is in use. -/
def LocksWork (s : Sys n m) : Prop := ∀ i, (s.state i).has .used = true → (s.lock i).init = true

instance (s : Sys n m) : Decidable (LocksWork s) := inferInstanceAs (Decidable (∀ _, _ → _))

theorem removes_of_locks {c : Call n} {t : Fin n} (h : c.locks = some t) : c.removes = some t := by
  unfold Call.locks at h
  split at h <;> first | exact h | cases h

theorem holds_of_locked {w : Worker n} {i : Fin n} (h : w.locked = some i) : w.holds i = true := by
  unfold Worker.locked at h
  split at h <;> cases h <;> simp

theorem firing_of_locked {w : Worker n} {i : Fin n} (h : w.locked = some i) : w.firing = some i := by
  unfold Worker.locked at h
  split at h <;> cases h <;> rfl

/-- Taking a lock: it was free, and is the thread's now, unless it is not initialized. -/
theorem lock_taken {l l' : Mutex m} {th : Thread m} (h : l.lock th = some l') :
    l.init = true ∧ l.owner = none ∧ l'.owner = some th ∨ l.init = false ∧ l' = l := by
  unfold Mutex.lock at h
  split at h
  · rename_i hi
    split at h
    · rename_i ho; cases h; exact .inl ⟨hi, ho, rfl⟩
    · cases h
  · rename_i hi; cases h; exact .inr ⟨by simpa using hi, rfl⟩

/-- What a step of the worker does to the lock of a timer. -/
theorem Move.work_lock {r : Reply} (h : Move s (.work r) s') (t : Fin n) :
    (s'.lock t = s.lock t ∧ (s'.worker.locked = some t → s.worker.locked = some t)) ∨
    (s.lock t).lock .worker = some (s'.lock t) ∨
    (s.worker.locked = some t ∧ s'.worker.locked = none ∧ (s'.lock t).init = (s.lock t).init) ∨
    (s'.lock t).init = false := by
  have hp : ∀ k, (prepareFrom n k).locked = none := fun k => by unfold prepareFrom; split <;> rfl
  have hf : ∀ j k, (findFrom n j k).locked = none := fun j k => by unfold findFrom; split <;> rfl
  cases h with
  | work hm =>
    refine .inl ⟨rfl, ?_⟩
    rw [Sys.work_worker]
    cases hm with
    | unused | noCas => rw [hp]; nofun
    | invalid | other => rw [hf]; nofun
    | fire h | skip h | ret h => rw [h]; exact id
    | _ => nofun
  | pass | clearSched => exact .inl ⟨rfl, by rw [Sys.work_worker, hp]; nofun⟩
  | @deinitLock _ k =>
    rcases eq_or_ne t k with rfl | hn
    · exact .inr (.inr (.inr (by simp)))
    · exact .inl ⟨Function.update_of_ne hn .., by rw [Sys.work_worker, hp]; nofun⟩
  | read =>
    refine .inl ⟨rfl, ?_⟩
    rw [Sys.work_worker]
    split
    · rw [hf]; nofun
    · nofun
  | @lock _ j k pfd l _ _ hl =>
    rcases eq_or_ne t k with rfl | hn
    · exact .inr (.inl (by simpa using hl))
    · exact .inl ⟨Function.update_of_ne hn .., fun e => by cases e; exact absurd rfl hn⟩
  | @unlock _ j k pfd h =>
    rcases eq_or_ne t k with rfl | hn
    · exact .inr (.inr (.inl ⟨by rw [h]; rfl, rfl, by simp [Mutex.unlock]⟩))
    · exact .inl ⟨Function.update_of_ne hn .., nofun⟩
  | close | reset | cas | push | pollEvent | pollTimers | eventRead | clearActive => exact .inl ⟨rfl, nofun⟩

/-- What a step of a call does to the lock of a timer. -/
theorem Move.call_lock {th : Thread m} {r : Reply} (h : Move s (.step th r) s') (t : Fin n) :
    s'.lock t = s.lock t ∨
    ((s.calls th).removes = some t ∧ s.inCallbackOf th t = false ∧ (s.lock t).lock th = some (s'.lock t)) ∨
    (s.calls th = .uninstall t .unlock ∧ s.inCallbackOf th t = false) ∨
    (s.calls th).claims = some t ∨ (s.calls th).afterJoin = true := by
  cases h with
  | @unLock _ _ k l hc ho hl =>
    rcases eq_or_ne t k with rfl | hn
    · exact .inr (.inl ⟨by rw [hc]; rfl, ho, by simpa using hl⟩)
    · exact .inl (Function.update_of_ne hn ..)
  | @unUnlock _ _ k hc ho =>
    rcases eq_or_ne t k with rfl | hn
    · exact .inr (.inr (.inl ⟨hc, ho⟩))
    · exact .inl (Function.update_of_ne hn ..)
  | @initLock _ cb arg k hc =>
    rcases eq_or_ne t k with rfl | hn
    · exact .inr (.inr (.inr (.inl (by rw [hc]; rfl))))
    · exact .inl (Function.update_of_ne hn ..)
  | deinitMutex hc => exact .inr (.inr (.inr (.inr (by rw [hc]; rfl))))
  | _ => exact .inl rfl

/-- An uninstall has its timer's lock from `timer_lock` on. -/
theorem Move.locking {th : Thread m} {r : Reply} (h : Move s (.step th r) s') {t : Fin n}
    (hc : (s'.calls th).locks = some t) :
    s.inCallbackOf th t = true ∨ ((s.calls th).locks = some t ∧ s'.lock t = s.lock t) ∨
      ((s.calls th).removes = some t ∧ (s.lock t).lock th = some (s'.lock t)) := by
  cases h with
  | goto hm =>
    rw [Sys.goto_calls, Function.update_self] at hc
    cases hm with
    | @stopErr t' un e h => cases un <;> cases hc; exact .inr (.inl ⟨by rw [h]; rfl, rfl⟩)
    | lockOwn h ho => cases hc; exact .inl ho
    | _ => cases hc
  | clear h | settime h =>
    rw [Sys.goto_calls, Function.update_self] at hc
    generalize s.calls th = c at h ⊢
    cases h with
    | restart us => cases hc
    | stop un => cases un <;> cases hc; exact .inr (.inl ⟨rfl, rfl⟩)
  | unStopped h =>
    rw [Sys.goto_calls, Function.update_self] at hc
    cases hc
    exact .inr (.inl ⟨by rw [h]; rfl, rfl⟩)
  | unLock h _ hl =>
    rw [Sys.goto_calls, Function.update_self] at hc
    cases hc
    exact .inr (.inr ⟨by rw [h]; rfl, by simpa using hl⟩)
  | taken | deinitEvent | deinitSkip | deinitMutex =>
    simp only [allocFrom_calls, deinitFrom_calls, Function.update_self, allocCall, deinitCall] at hc
    split at hc <;> cases hc
  | done | errReset | publish | started | stopped | zombie =>
    rw [Sys.done_calls, Function.update_self] at hc
    cases hc
  | claim | fill | create | createErr | initLock | errClose | setSched | unUnlock | deinitExit | deinitTrigger
  | deinitClose | deinitReset =>
    rw [Sys.goto_calls, Function.update_self] at hc
    cases hc

/-- **The holders of the locks**: an uninstall that is not made from the timer's own callback, and the worker around
the callback. -/
structure Locking (s : Sys n m) : Prop where
  holder : ∀ th t, (s.calls th).locks = some t → s.inCallbackOf th t = false → (s.lock t).init = true →
    (s.lock t).owner = some th
  inner : ∀ i, s.worker.locked = some i → (s.lock i).init = true → (s.lock i).owner = some .worker

/-- An uninstall that takes or gives back a lock meets no callback of its timer. -/
theorem Locking.apart (hi : Locking s) {th : Thread m} {t : Fin n} (hc : (s.calls th).locks = some t)
    (ho : s.inCallbackOf th t = false) (hl : (s.lock t).init = true) : s.worker.locked ≠ some t := by
  intro hw
  have h1 := hi.holder th t hc ho hl
  rw [hi.inner t hw hl, Option.some.injEq] at h1
  subst h1
  rw [Sys.inCallbackOf, firing_of_locked hw] at ho
  simp at ho

/-- One step of the worker. -/
theorem Locking.work {r : Reply} (hi : Locking s) (hin : Inside s) (hb : InBatch s) (h : Move s (.work r) s') :
    Locking s' := by
  have hc := h.frame_calls
  have hidle := hin.idle hb h
  constructor
  · intro th t hl _ hl'
    rw [hc] at hl
    have hth : th ≠ .worker := by
      rintro rfl
      rw [hidle] at hl
      cases hl
    have ho : s.inCallbackOf th t = false := by simp [Sys.inCallbackOf, hth]
    rcases h.work_lock t with ⟨e, -⟩ | e | ⟨hw, -, he⟩ | e
    · rw [e] at hl' ⊢
      exact hi.holder th t hl ho hl'
    · rcases lock_taken e with ⟨h1, h2, -⟩ | ⟨h1, h2⟩
      · rw [hi.holder th t hl ho h1] at h2; cases h2
      · rw [h2, h1] at hl'; cases hl'
    · exact absurd hw (hi.apart hl ho (he ▸ hl'))
    · rw [e] at hl'; cases hl'
  · intro i hw hl'
    rcases h.work_lock i with ⟨e, hk⟩ | e | ⟨-, he, -⟩ | e
    · rw [e] at hl' ⊢
      exact hi.inner i (hk hw) hl'
    · rcases lock_taken e with ⟨-, -, h3⟩ | ⟨h1, h2⟩
      · exact h3
      · rw [h2, h1] at hl'; cases hl'
    · rw [he] at hw; cases hw
    · rw [e] at hl'; cases hl'

/-- One step of a call. -/
theorem Locking.call {th : Thread m} {r : Reply} (hi : Locking s) (ho : Own s) (hp : LocksWork s)
    (h : Move s (.step th r) s') : Locking s' := by
  have hw := (h.frame_worker nofun).1
  have hcb : ∀ th' t, s'.inCallbackOf th' t = s.inCallbackOf th' t := fun th' t => by
    rw [Sys.inCallbackOf, Sys.inCallbackOf, hw]
  constructor
  · intro th' t hl hno hl'
    rw [hcb] at hno
    rcases eq_or_ne th' th with rfl | hn
    · rcases h.locking hl with h1 | ⟨h1, h2⟩ | ⟨h1, h2⟩
      · rw [hno] at h1; cases h1
      · rw [h2] at hl' ⊢
        exact hi.holder _ t h1 hno hl'
      · rcases lock_taken h2 with ⟨-, -, h3⟩ | ⟨h3, h4⟩
        · exact h3
        · rw [h4, h3] at hl'; cases hl'
    · rw [h.frame_others.2 th' hn] at hl
      have hrm := removes_of_locks hl
      rcases h.call_lock t with e | ⟨e, -⟩ | ⟨e, -⟩ | e | e
      · rw [e] at hl' ⊢
        exact hi.holder th' t hl hno hl'
      · exact absurd (ho.remove_unique th' th t hrm e) hn
      · exact absurd (ho.remove_unique th' th t hrm (by rw [e]; rfl)) hn
      · have := (ho.claimed th t e).2
        rw [(ho.removed th' t hrm).1] at this
        cases this
      · rw [(ho.alone th e).2 th' hn] at hl; cases hl
  · intro i hlk hl'
    rw [hw] at hlk
    have hu := ho.held i (holds_of_locked hlk)
    have hinit := hp i hu
    rcases h.call_lock i with e | ⟨-, e, h2⟩ | ⟨e, hno⟩ | e | e
    · rw [e]
      exact hi.inner i hlk hinit
    · rcases lock_taken h2 with ⟨-, h3, -⟩ | ⟨h3, -⟩
      · rw [hi.inner i hlk hinit] at h3; cases h3
      · rw [hinit] at h3; cases h3
    · exact absurd hlk (hi.apart (by rw [e]; rfl) hno hinit)
    · rw [(ho.claimed th i e).2] at hu; cases hu
    · have := ho.joined th e
      rw [this] at hlk
      cases hlk

/-- One step of the system. -/
theorem Locking.step {a : Act n m} (hi : Locking s) (ho : Own s) (hin : Inside s) (hb : InBatch s) (hp : LocksWork s)
    (h : Move s a s') : Locking s' := by
  cases a with
  | work r => exact hi.work hin hb h
  | step th r => exact hi.call ho hp h
  | expire | tick => cases h; exact ⟨hi.holder, hi.inner⟩
  | call th op =>
    cases h with
    | enter _ _ he =>
      subst he
      refine ⟨fun th' t hl ho hi' => ?_, by simpa using hi.inner⟩
      rw [enter_lock] at hi' ⊢
      rw [Sys.inCallbackOf, enter_worker] at ho
      rw [enter_calls, Function.update_apply] at hl
      split at hl
      · have hst : op.first.locks = none := by
          cases op with
          | install cb arg => simp only [Op.first, allocCall]; split <;> rfl
          | _ => rfl
        rw [hst] at hl
        cases hl
      · exact hi.holder th' t hl ho hi'

/-- The discipline, and locks that work. -/
def Locked (s : Sys n m) (a : Act n m) : Prop := Exclusive s a ∧ LocksWork s

instance (s : Sys n m) (a : Act n m) : Decidable (Locked s a) := inferInstanceAs (Decidable (_ ∧ _))

theorem locking_of_reach (hr : (system n m).Reach Locked s) : Locking s := by
  refine hr.invariant ?_ fun s a s' hr hi hp h =>
    hi.step (own_of_reach (hr.mono fun _ _ h => h.1.1)) (inside_of_reach hr) (inBatch_of_reach hr) hp.2 (step_move h)
  rintro s ⟨fd, -, rfl⟩
  exact ⟨nofun, nofun⟩

/-! ## Silence -/

/-- A callback is entered when `BIT_ACTIVE` has been seen under the lock. -/
theorem Move.starts {r : Reply} (h : Move s (.work r) s') {j : Nat} {i : Fin n}
    (hw : s'.worker = .service j (.alarm i .callback)) :
    s.worker = .service j (.alarm i .test) ∧ (s.state i).has .active = true := by
  have hp : ∀ k, prepareFrom n k ≠ .service j (.alarm i .callback) := fun k => by
    unfold prepareFrom; split <;> nofun
  have hf : ∀ j' k, findFrom n j' k ≠ .service j (.alarm i .callback) := fun j' k => by
    unfold findFrom; split <;> nofun
  cases h with
  | work hm =>
    rw [Sys.work_worker] at hw
    cases hm with
    | fire h _ ha => cases hw; exact ⟨h, ha⟩
    | unused | noCas => exact absurd hw (hp _)
    | invalid | other => exact absurd hw (hf _ _)
    | _ => cases hw
  | pass | deinitLock | clearSched => exact absurd hw (hp _)
  | read =>
    rw [Sys.work_worker] at hw
    split at hw
    · exact absurd hw (hf _ _)
    · cases hw
  | _ => cases hw

/-- An uninstall gives back the lock before it sets `BIT_ZOMBIE`. -/
theorem Move.unlocks {th : Thread m} {r : Reply} (h : Move s (.step th r) s') {t : Fin n}
    (hc : s'.calls th = .uninstall t .zombie) : s.calls th = .uninstall t .unlock := by
  cases h with
  | goto hm =>
    rw [Sys.goto_calls, Function.update_self] at hc
    subst hc
    cases hm with
    | unlockOwn h => exact h
  | unUnlock h =>
    rw [Sys.goto_calls, Function.update_self] at hc
    cases hc
    exact h
  | clear h | settime h =>
    rw [Sys.goto_calls, Function.update_self] at hc
    subst hc
    generalize s.calls th = c at h
    cases h
  | taken | deinitEvent | deinitSkip | deinitMutex =>
    simp only [allocFrom_calls, deinitFrom_calls, Function.update_self, allocCall, deinitCall] at hc
    split at hc <;> cases hc
  | done | errReset | publish | started | stopped | zombie =>
    rw [Sys.done_calls, Function.update_self] at hc
    cases hc
  | claim | fill | create | createErr | initLock | errClose | setSched | unStopped | unLock | deinitExit | deinitTrigger
  | deinitClose | deinitReset =>
    rw [Sys.goto_calls, Function.update_self] at hc
    cases hc

/-- An uninstall that has given back the lock of its timer has no callback of the timer beside it. -/
def Silent (s : Sys n m) : Prop :=
  ∀ th t, s.calls th = .uninstall t .zombie → s.inCallbackOf th t = false →
    ∀ j, s.worker ≠ .service j (.alarm t .callback)

theorem Silent.step {a : Act n m} (hi : Silent s) (hst : Stopped s) (hlk : Locking s) (ho : Own s)
    (hp : LocksWork s) (h : Move s a s') : Silent s' := by
  intro th t hc hno j hw
  cases a with
  | work r =>
    rw [h.frame_calls] at hc
    have ha := (h.starts hw).2
    rw [(hst.stopped th t (by rw [hc]; rfl)).2] at ha
    cases ha
  | expire | tick => cases h; exact hi th t hc hno j hw
  | call th' op =>
    cases h with
    | enter _ _ he =>
      subst he
      rw [Sys.inCallbackOf, enter_worker] at hno
      rw [enter_worker] at hw
      rw [enter_calls, Function.update_apply] at hc
      split at hc
      · cases op with
        | install cb arg => simp only [Op.first, allocCall] at hc; split at hc <;> cases hc
        | _ => cases hc
      · exact hi th t hc hno j hw
  | step th' r =>
    rw [Sys.inCallbackOf, (h.frame_worker (by simp)).1] at hno
    rw [(h.frame_worker (by simp)).1] at hw
    rcases eq_or_ne th th' with rfl | hn
    · have hc := h.unlocks hc
      have hu := (ho.removed th t (by rw [hc]; rfl)).1
      exact hlk.apart (by rw [hc]; rfl) hno (hp t hu) (by rw [hw]; rfl)
    · exact hi th t (h.frame_others.2 th hn ▸ hc) hno j hw

theorem silent_of_reach (hr : (system n m).Reach Locked s) : Silent s := by
  refine hr.invariant ?_ fun s a s' hr hi hp h => hi.step (stopped_of_reach (hr.mono fun _ _ h => h.1))
    (locking_of_reach hr) (own_of_reach (hr.mono fun _ _ h => h.1.1)) hp.2 (step_move h)
  rintro s ⟨fd, -, rfl⟩
  nofun

/-! ## Which timer -/

/-- Timers are numbered by their installs, `inst` is the one of a slot. `gone` are the timers whose uninstall has
returned, `own` those of them whose uninstall was made from their own callback. -/
structure Gone (n : Nat) where
  next : Nat
  inst : Fin n → Nat
  gone : List Nat
  own : List Nat

def Gone.empty : Gone n := ⟨0, fun _ => 0, [], []⟩

/-- The history after a step of a call. -/
def Gone.call (s : Sys n m) (g : Gone n) (th : Thread m) : Call n → Gone n
  | .install _ _ (.alloc i) =>
    if (s.state i).has .alloc then g else { g with next := g.next + 1, inst := Function.update g.inst i g.next }
  | .uninstall t .zombie =>
    { g with
      gone := g.inst t :: g.gone
      own := if s.inCallbackOf th t then g.inst t :: g.own else g.own }
  | _ => g

/-- The history after one more step. -/
def Gone.record (s : Sys n m) (a : Act n m) (_ : Sys n m) (g : Gone n) : Gone n :=
  match a with
  | .step th _ => g.call s th (s.calls th)
  | _ => g

/-- The system with the timers that are gone. -/
def uninstalls (n m : Nat) : Lts (Sys n m × Gone n) (Act n m) := (system n m).record .empty Gone.record

/-- **The history agrees with the state.** -/
structure Gone.Ok (s : Sys n m) (g : Gone n) : Prop where
  lt_next : ∀ i, (s.state i).has .alloc = true → g.inst i < g.next
  inst_inj : ∀ i j, (s.state i).has .alloc = true → (s.state j).has .alloc = true → g.inst i = g.inst j → i = j
  gone_lt : ∀ k ∈ g.gone, k < g.next
  gone_iff : ∀ i, (s.state i).has .alloc = true → (g.inst i ∈ g.gone ↔ (s.state i).has .zombie = true)
  running : ∀ j i, s.worker = .service j (.alarm i .callback) → g.inst i ∈ g.gone → g.inst i ∈ g.own

/-- The action is the `mask_set_strict(BIT_ALLOC)` that succeeds. -/
def Act.claims (s : Sys n m) (i : Fin n) : Act n m → Prop
  | .step th _ => (∃ cb arg, s.calls th = .install cb arg (.alloc i)) ∧ (s.state i).has .alloc = false
  | _ => False

theorem alloc_of_update {i k : Fin n} {w : Word} (hs : s'.state = Function.update s.state k w)
    (ha : (s'.state i).has .alloc = true) (h1 : k = i → w.has .alloc = true → (s.state k).has .alloc = true)
    (h2 : k = i → w.has .alloc = true → w.has .zombie = (s.state k).has .zombie) :
    (s.state i).has .alloc = true ∧ (s'.state i).has .zombie = (s.state i).has .zombie := by
  rw [hs, Function.update_apply] at ha ⊢
  split at ha
  · rename_i e
    subst e
    rw [if_pos rfl]
    exact ⟨h1 rfl ha, h2 rfl ha⟩
  · rename_i e
    rw [if_neg e]
    exact ⟨ha, rfl⟩

/-- A slot that is taken was taken before, and as much a zombie, unless this step claims or buries it. -/
theorem Move.alloc {a : Act n m} (h : Move s a s') {i : Fin n} (hn : ¬a.claims s i) (hb : ¬a.buries s i)
    (ha : (s'.state i).has .alloc = true) :
    (s.state i).has .alloc = true ∧ (s'.state i).has .zombie = (s.state i).has .zombie := by
  cases h with
  | enter _ _ he => subst he; exact ⟨by simpa using ha, by simp⟩
  | @claim _ _ cb arg k hc hk =>
    have hki : k ≠ i := fun e => hn ⟨⟨cb, arg, e ▸ hc⟩, e ▸ hk⟩
    exact alloc_of_update rfl ha (fun e => absurd e hki) (fun e => absurd e hki)
  | @zombie _ _ k hc =>
    have hki : k ≠ i := fun e => hb (e ▸ hc)
    exact alloc_of_update rfl ha (fun e => absurd e hki) (fun e => absurd e hki)
  | errReset | deinitReset | reset => exact alloc_of_update rfl ha (by simp) (by simp)
  | publish => exact alloc_of_update rfl ha (by simp [bitUsed]) (by simp [bitUsed])
  | @clear _ _ t =>
    exact alloc_of_update (k := t) rfl ha (by simp [bitActive, bitSched]) (by simp [bitActive, bitSched])
  | setSched | clearSched => exact alloc_of_update rfl ha (by simp [bitSched]) (by simp [bitSched])
  | clearActive => exact alloc_of_update rfl ha (by simp [bitActive]) (by simp [bitActive])
  | cas _ hm => exact alloc_of_update rfl ha (by simp [(has_of_maskCas hm).2]) (by simp [(has_of_maskCas hm).2])
  | _ => exact ⟨ha, rfl⟩

variable {g : Gone n}

/-- A step that claims and buries nothing. -/
theorem Gone.Ok.keep (hi : g.Ok s) {a : Act n m} (h : Move s a s') (hn : ∀ i, ¬a.claims s i) (hb : ∀ i, ¬a.buries s i)
    (hr : ∀ j i, s'.worker = .service j (.alarm i .callback) → s.worker ≠ s'.worker →
      (s.state i).has .alloc = true ∧ (s.state i).has .zombie = false) : g.Ok s' := by
  have ha := fun i => h.alloc (hn i) (hb i)
  refine ⟨fun i h => hi.lt_next i (ha i h).1, fun i j h1 h2 => hi.inst_inj i j (ha i h1).1 (ha j h2).1, hi.gone_lt,
    fun i h => ?_, fun j i hw hg => ?_⟩
  · rw [(ha i h).2]
    exact hi.gone_iff i (ha i h).1
  · by_cases hs : s.worker = s'.worker
    · exact hi.running j i (hs.trans hw) hg
    · obtain ⟨h1, h2⟩ := hr j i hw hs
      rw [hi.gone_iff i h1, h2] at hg
      cases hg

/-- A slot is claimed. -/
theorem Gone.Ok.claim (hi : g.Ok s) {a : Act n m} (h : Move s a s') {k : Fin n} (hk : (s.state k).has .alloc = false)
    (hzk : (s'.state k).has .zombie = false) (hn : ∀ i, i ≠ k → ¬a.claims s i) (hb : ∀ i, ¬a.buries s i)
    (hw : s'.worker = s.worker) (hwk : s.worker.holds k = false) :
    Gone.Ok s' { g with next := g.next + 1, inst := Function.update g.inst k g.next } := by
  have ha := fun i hi => h.alloc (hn i hi) (hb i)
  have hfresh : g.next ∉ g.gone := fun e => lt_irrefl _ (hi.gone_lt _ e)
  refine ⟨fun i h => ?_, fun i j h1 h2 e => ?_, fun k h => Nat.lt_succ_of_lt (hi.gone_lt k h), fun i h => ?_,
    fun j i hw' hg => ?_⟩
  · show Function.update g.inst k g.next i < g.next + 1
    rw [Function.update_apply]
    split
    · exact Nat.lt_succ_self _
    · rename_i e; exact Nat.lt_succ_of_lt (hi.lt_next i (ha i e h).1)
  · by_cases ei : i = k <;> by_cases ej : j = k
    · rw [ei, ej]
    · have := hi.lt_next j (ha j ej h2).1
      simp only [ei, Function.update_self, Function.update_of_ne ej] at e
      omega
    · have := hi.lt_next i (ha i ei h1).1
      simp only [ej, Function.update_self, Function.update_of_ne ei] at e
      omega
    · simp only [Function.update_of_ne ei, Function.update_of_ne ej] at e
      exact hi.inst_inj i j (ha i ei h1).1 (ha j ej h2).1 e
  · show Function.update g.inst k g.next i ∈ g.gone ↔ _
    rcases eq_or_ne i k with rfl | hn
    · simp [hfresh, hzk]
    · rw [Function.update_of_ne hn, (ha i hn h).2]
      exact hi.gone_iff i (ha i hn h).1
  · have hik : i ≠ k := by
      rintro rfl
      rw [← hw, hw'] at hwk
      simp at hwk
    simp only [Function.update_of_ne hik] at hg ⊢
    exact hi.running j i (hw ▸ hw') hg

theorem Move.buried {th : Thread m} {r : Reply} (h : Move s (.step th r) s') {t : Fin n}
    (hc : s.calls th = .uninstall t .zombie) : (s'.state t).has .zombie = true := by
  cases h with
  | zombie h => rw [hc] at h; cases h; simp [bitZombie]
  | goto hm => cases hm <;> simp_all
  | done hm => cases hm <;> simp_all
  | clear h | settime h => rw [hc] at h; cases h
  | _ h => rw [hc] at h; cases h

/-- An uninstall returns. -/
theorem Gone.Ok.bury (hi : g.Ok s) {th : Thread m} {r : Reply} {t : Fin n} (h : Move s (.step th r) s')
    (hc : s.calls th = .uninstall t .zombie) (ha : (s.state t).has .alloc = true)
    (hz : (s'.state t).has .zombie = true)
    (hsil : s.inCallbackOf th t = false → ∀ j, s.worker ≠ .service j (.alarm t .callback)) (ho : Own s) :
    Gone.Ok s' (g.call s th (.uninstall t .zombie)) := by
  have hcl : ∀ i, ¬Act.claims s i (.step th r) := fun i ⟨⟨_, _, e⟩, _⟩ => by rw [hc] at e; cases e
  have hbu : ∀ i, i ≠ t → ¬Act.buries s i (.step th r) := fun i hn e => by
    rw [Act.buries, hc] at e
    cases e
    exact hn rfl
  have hal : ∀ i, (s'.state i).has .alloc = true → (s.state i).has .alloc = true := fun i h' => by
    rcases eq_or_ne i t with rfl | hn
    · exact ha
    · exact (h.alloc (hcl i) (hbu i hn) h').1
  have hinst : ∀ i, i ≠ t → (s.state i).has .alloc = true → g.inst i ≠ g.inst t := fun i hn h' e =>
    hn (hi.inst_inj i t h' ha e)
  refine ⟨fun i h => hi.lt_next i (hal i h), fun i j h1 h2 => hi.inst_inj i j (hal i h1) (hal j h2), fun k hk => ?_,
    fun i h' => ?_, fun j i hw hg => ?_⟩
  · rcases List.mem_cons.mp hk with rfl | hk
    · exact hi.lt_next t ha
    · exact hi.gone_lt k hk
  · show g.inst i ∈ g.inst t :: g.gone ↔ _
    rcases eq_or_ne i t with rfl | hn
    · simp [hz]
    · rw [(h.alloc (hcl i) (hbu i hn) h').2, List.mem_cons, or_iff_right (hinst i hn (hal i h'))]
      exact hi.gone_iff i (hal i h')
  · rw [(h.frame_worker nofun).1] at hw
    have hai := ho.allocated i (ho.held i (by rw [hw]; simp))
    have hmem : g.inst i ∈ g.own ∨ i = t ∧ s.inCallbackOf th t = true := by
      rcases eq_or_ne i t with rfl | hn
      · cases hcb : s.inCallbackOf th i
        · exact absurd hw (hsil hcb j)
        · exact .inr ⟨rfl, rfl⟩
      · rcases List.mem_cons.mp hg with e | hg
        · exact absurd e (hinst i hn hai)
        · exact .inl (hi.running j i hw hg)
    show g.inst i ∈ if s.inCallbackOf th t then g.inst t :: g.own else g.own
    rcases hmem with hmem | ⟨rfl, hcb⟩
    · split
      · exact List.mem_cons_of_mem _ hmem
      · exact hmem
    · rw [if_pos hcb]
      exact List.mem_cons_self

/-- One step of the system. -/
theorem Gone.Ok.step {a : Act n m} (hi : g.Ok s) (ho : Own s) (hst : Stopped s) (hsil : Silent s) (h : Move s a s') :
    (Gone.record s a s' g).Ok s' := by
  cases a with
  | work r =>
    refine hi.keep h (fun _ => id) (fun _ => id) fun j i hw _ => ?_
    obtain ⟨h1, h2⟩ := h.starts hw
    refine ⟨ho.allocated i (ho.held i (by rw [h1]; simp)), ?_⟩
    cases hz : (s.state i).has .zombie
    · rfl
    · rw [(hst.buried i hz).2] at h2; cases h2
  | call | expire | tick =>
    refine hi.keep h (fun _ => id) (fun _ => id) fun j i _ hne => absurd ?_ hne
    exact (h.frame_worker (by simp)).1.symm
  | step th r =>
    have hw := (h.frame_worker (by simp)).1
    by_cases hcl : ∃ k, Act.claims s k (.step th r)
    · obtain ⟨k, ⟨cb, arg, hc⟩, hk⟩ := hcl
      obtain ⟨-, -, huk, hwk⟩ := ho.free hk
      have hbu : ∀ i, ¬Act.buries s i (.step th r) := fun i e => by rw [Act.buries, hc] at e; cases e
      have hr : Gone.record s (.step th r) s' g =
          { g with next := g.next + 1, inst := Function.update g.inst k g.next } := by
        simp [Gone.record, Gone.call, hc, hk]
      rw [hr]
      refine hi.claim h hk (Bool.eq_false_iff.mpr fun hz => ?_) (fun i hn hi' => hn ?_) hbu hw hwk
      · have := ho.used k (h.zombie_of (hbu k) hz)
        rw [huk] at this
        cases this
      · obtain ⟨⟨_, _, e⟩, _⟩ := hi'
        rw [hc] at e; cases e; rfl
    · by_cases hbu : ∃ t, Act.buries s t (.step th r)
      · obtain ⟨t, hc⟩ := hbu
        have hc : s.calls th = .uninstall t .zombie := hc
        have hr : Gone.record s (.step th r) s' g = g.call s th (.uninstall t .zombie) := by rw [Gone.record, hc]
        rw [hr]
        exact hi.bury h hc (ho.allocated t (ho.removed th t (by rw [hc]; rfl)).1) (h.buried hc) (hsil th t hc) ho
      · have hr : Gone.record s (.step th r) s' g = g := by
          change g.call s th (s.calls th) = g
          unfold Gone.call
          split
          · rename_i cb arg i hc
            split
            · rfl
            · rename_i ha; exact absurd ⟨i, ⟨cb, arg, hc⟩, by simpa using ha⟩ hcl
          · rename_i t hc; exact absurd ⟨t, hc⟩ hbu
          · rfl
        rw [hr]
        exact hi.keep h (fun i e => hcl ⟨i, e⟩) (fun i e => hbu ⟨i, e⟩) fun j i _ hne => absurd hw.symm hne

theorem goneOk_of_reach {x : Sys n m × Gone n} (hr : (uninstalls n m).Reach (fun x a => Locked x.1 a) x) :
    x.2.Ok x.1 := by
  refine hr.record_invariant (I := fun s g => Gone.Ok s g) ?_ fun s a s' g hr hi hp h => ?_
  · rintro s ⟨fd, -, rfl⟩
    exact ⟨by simp [ctxInit], by simp [ctxInit], nofun, by simp [ctxInit], nofun⟩
  · have hs := hr.fst (P := Locked)
    exact hi.step (own_of_reach (hs.mono fun _ _ h => h.1.1)) (stopped_of_reach (hs.mono fun _ _ h => h.1))
      (silent_of_reach hs) (step_move h)

/-! ## Quiescence -/

/-- **An uninstalled timer is quiescent**, in every run with exclusive uninstalls and locks that work: no step enters
the callback of a timer whose uninstall has returned, and while such a callback runs the uninstall was made from it. -/
theorem uninstall_quiesces {x : Sys n m × Gone n} (hr : (uninstalls n m).Reach (fun x a => Locked x.1 a) x) :
    (∀ a s' j i, step x.1 a = some s' → s'.worker = .service j (.alarm i .callback) → x.1.worker ≠ s'.worker →
      x.2.inst i ∉ x.2.gone) ∧
    ∀ j i, x.1.worker = .service j (.alarm i .callback) → x.2.inst i ∈ x.2.gone → x.2.inst i ∈ x.2.own := by
  have hok := goneOk_of_reach hr
  have hs := hr.fst (P := Locked)
  refine ⟨fun a s' j i hst hw hne hg => ?_, hok.running⟩
  have hm := step_move hst
  cases a with
  | work r =>
    obtain ⟨h1, h2⟩ := hm.starts hw
    have ho := own_of_reach (hs.mono fun _ _ h => h.1.1)
    have hz := (hok.gone_iff i (ho.allocated i (ho.held i (by rw [h1]; simp)))).mp hg
    rw [((stopped_of_reach (hs.mono fun _ _ h => h.1)).buried i hz).2] at h2
    cases h2
  | call | step | expire | tick => exact hne (hm.frame_worker nofun).1.symm

/-- A timer that fires and is uninstalled from its own callback. -/
def ownUninstall : List (Act 1 1) :=
  let c : Thread 1 := .client 0
  [Act.call c (.install (some 7) 0), .step c .ok, .step c .ok, .step c (.fd 4), .step c .ok, .step c .ok,
    .call c (.restart 0 0), .step c .ok, .step c .ok, .step c .ok, .step c .ok] ++ List.replicate 7 (Act.work .ok) ++
  [Act.tick 1, .expire 4] ++ List.replicate 17 (Act.work .ok) ++
  Act.call .worker (.uninstall 0) :: List.replicate 6 (Act.step .worker .ok)

theorem uninstall_quiesces_run : ∃ x : Sys 1 1 × Gone 1, x.1.worker = .service 1 (.alarm 0 .callback) ∧
    x.2.inst 0 ∈ x.2.gone ∧ x.2.inst 0 ∈ x.2.own := by
  obtain ⟨x, hr, hw, hg⟩ := Lts.Reach.run (M := uninstalls 1 1) (P := fun x a => Locked x.1 a)
    (Q := fun x => x.1.worker = .service 1 (.alarm 0 .callback) ∧ x.2.inst 0 ∈ x.2.gone) (s := (ctxInit 1 1 3, .empty))
    ⟨⟨3, by decide, rfl⟩, rfl⟩ ownUninstall (by decide)
  exact ⟨x, hw, hg, (uninstall_quiesces hr).2 1 0 hw hg⟩

end Gabs.Timer.Posix
