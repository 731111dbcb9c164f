import Gabs.Timer.Posix.Model

/-!
# The POSIX timer: what one step can do

`Move s a s'` lists every way in which an action changes the system, with what the step found in the state
(`step_move`). The steps that only move one program counter are grouped: `WorkMove` for the worker, `CallMove` for a
call. Everything that is proved of all runs is proved by cases on these.
-/

namespace Gabs.Timer.Posix

open Gabs.Lib

variable {n m : Nat}

/-- Steps of the worker that change nothing but its position. -/
inductive WorkMove (s : Sys n m) : Worker n → Prop
  | exit : s.worker = .top → s.workState = .exit → WorkMove s .exited
  | unused {i : Fin n} : s.worker = .prepare i .testUsed → (s.state i).has .used = false →
      WorkMove s (prepareFrom n (i + 1))
  | used {i : Fin n} : s.worker = .prepare i .testUsed → (s.state i).has .used = true →
      WorkMove s (.prepare i .testZombie)
  | zombie {i : Fin n} : s.worker = .prepare i .testZombie → (s.state i).has .zombie = true →
      WorkMove s (.prepare i .close)
  | alive {i : Fin n} : s.worker = .prepare i .testZombie → (s.state i).has .zombie = false →
      WorkMove s (.prepare i .testActive)
  | active {i : Fin n} : s.worker = .prepare i .testActive → (s.state i).has .active = true →
      WorkMove s (.prepare i .push)
  | inactive {i : Fin n} : s.worker = .prepare i .testActive → (s.state i).has .active = false →
      WorkMove s (.prepare i .cas)
  | noCas {i : Fin n} : s.worker = .prepare i .cas → (s.state i).has .sched = false →
      WorkMove s (prepareFrom n (i + 1))
  | pollErr : s.worker = .poll → WorkMove s .top
  | batchEnd {j : Nat} {p : Service n} : s.worker = .service j p → s.pfds[j]? = none → WorkMove s .top
  | quiet {j : Nat} {pfd : Pollfd} : s.worker = .service j .head → s.pfds[j]? = some pfd → pfd.revents = .none →
      WorkMove s (.service (j + 1) .head)
  | ready {j : Nat} {pfd : Pollfd} : s.worker = .service j .head → s.pfds[j]? = some pfd → pfd.revents ≠ .none →
      WorkMove s (.service j .read)
  | valid {j : Nat} {i : Fin n} {pfd : Pollfd} : s.worker = .service j (.valid i) → s.pfds[j]? = some pfd →
      (s.state i).has .used = true → (s.state i).has .zombie = false → WorkMove s (.service j (.compare i))
  | invalid {j : Nat} {i : Fin n} {pfd : Pollfd} : s.worker = .service j (.valid i) → s.pfds[j]? = some pfd →
      ¬((s.state i).has .used = true ∧ (s.state i).has .zombie = false) → WorkMove s (findFrom n j (i + 1))
  | found {j : Nat} {i : Fin n} {pfd : Pollfd} : s.worker = .service j (.compare i) → s.pfds[j]? = some pfd →
      s.fd i = pfd.fd → WorkMove s (.service j (.alarm i .enter))
  | other {j : Nat} {i : Fin n} {pfd : Pollfd} : s.worker = .service j (.compare i) → s.pfds[j]? = some pfd →
      s.fd i ≠ pfd.fd → WorkMove s (findFrom n j (i + 1))
  | noCb {j : Nat} {i : Fin n} {pfd : Pollfd} : s.worker = .service j (.alarm i .enter) → s.pfds[j]? = some pfd →
      s.cb i = none → WorkMove s (.service j (.alarm i .clear))
  | enter {j : Nat} {i : Fin n} {pfd : Pollfd} : s.worker = .service j (.alarm i .enter) → s.pfds[j]? = some pfd →
      s.cb i ≠ none → WorkMove s (.service j (.alarm i .lock))
  | fire {j : Nat} {i : Fin n} {pfd : Pollfd} : s.worker = .service j (.alarm i .test) → s.pfds[j]? = some pfd →
      (s.state i).has .active = true → WorkMove s (.service j (.alarm i .callback))
  | skip {j : Nat} {i : Fin n} {pfd : Pollfd} : s.worker = .service j (.alarm i .test) → s.pfds[j]? = some pfd →
      (s.state i).has .active = false → WorkMove s (.service j (.alarm i .unlock))
  | ret {j : Nat} {i : Fin n} {pfd : Pollfd} : s.worker = .service j (.alarm i .callback) → s.pfds[j]? = some pfd →
      s.calls .worker = .idle → WorkMove s (.service j (.alarm i .unlock))

/-- Steps of a call that change nothing but its position. -/
inductive CallMove (s : Sys n m) (th : Thread m) (r : Reply) : Call n → Prop
  | initErr {cb : Option Nat} {arg : Nat} {i : Fin n} : s.calls th = .install cb arg (.initLock i) → r ≠ .ok →
      CallMove s th r (.install cb arg (.errClose i))
  | start {t : Fin n} {us : Nat} : s.calls th = .start t us → (s.state t).has .active = false →
      (s.state t).has .sched = false → CallMove s th r (.restart t us .clear)
  | settimeErr {t : Fin n} {us e : Nat} : s.calls th = .restart t us .settime → r = .err e →
      CallMove s th r (.restart t us (.setSched (some e)))
  | stopErr {t : Fin n} {un : Bool} {e : Nat} : s.calls th = .stop t un .settime → r = .err e →
      CallMove s th r (.stop t un (.trigger (-(e : Int))))
  | lockOwn {t : Fin n} : s.calls th = .uninstall t .lock → s.inCallbackOf th t = true →
      CallMove s th r (.stop t true .clear)
  | unlockOwn {t : Fin n} : s.calls th = .uninstall t .unlock → s.inCallbackOf th t = true →
      CallMove s th r (.uninstall t .zombie)
  | join : s.calls th = .deinit .join → s.worker = .exited → CallMove s th r (.deinit .closeEvent)
  | used {i : Fin n} : s.calls th = .deinit (.test i) → (s.state i).has .used = true →
      CallMove s th r (.deinit (.close i))

/-- Steps with which a call returns and which change nothing else. -/
inductive DoneMove (s : Sys n m) (th : Thread m) : Ret n → Prop
  | busy {t : Fin n} {us : Nat} : s.calls th = .start t us →
      ((s.state t).has .active = true ∨ (s.state t).has .sched = true) → DoneMove s th (.status (-eBusy))
  | active {t : Fin n} : s.calls th = .active t →
      DoneMove s th (.active ((s.state t).has .active || (s.state t).has .sched))

/-- The `mask_clear` of both bits: the call before and after it. -/
inductive Clears (t : Fin n) : Call n → Call n → Prop
  | restart (us : Nat) : Clears t (.restart t us .clear) (.restart t us .settime)
  | stop (un : Bool) : Clears t (.stop t un .clear) (.stop t un .settime)

/-- A `timerfd_settime` that succeeds: its setting, and the call before and after it. -/
inductive Settime (t : Fin n) : Itimerspec → Call n → Call n → Prop
  | restart (us : Nat) : Settime t (toItimerspec us) (.restart t us .settime) (.restart t us (.setSched none))
  | stop (un : Bool) : Settime t ⟨0, 0⟩ (.stop t un .settime) (.stop t un (.trigger 0))

/-- **The steps of the system.** -/
inductive Move (s : Sys n m) : Act n m → Sys n m → Prop
  | tick (ns : Nat) : Move s (.tick ns) (s.setClock (s.clock + ns))
  | expire {fd : Int} {d : Nat} {e : Bool} : s.fds fd = some ⟨some d, e⟩ → d ≤ s.clock →
      Move s (.expire fd) (s.setTfd fd (some ⟨none, true⟩))
  | enter {th : Thread m} {op : Op n} {s' : Sys n m} : s.calls th = .idle →
      (th = .worker → s.worker.inCallback = true) → s' = enter s th op → Move s (.call th op) s'
  | work {r : Reply} {w : Worker n} : WorkMove s w → Move s (.work r) (s.work w)
  | pass {r : Reply} : s.worker = .top → s.workState = .normal →
      Move s (.work r) ((s.setPfds [⟨s.eventfd, .none⟩]).work (prepareFrom n 0))
  | close {r : Reply} {i : Fin n} : s.worker = .prepare i .close →
      Move s (.work r) ((cleanupClose s i).work (.prepare i .reset))
  | reset {r : Reply} {i : Fin n} : s.worker = .prepare i .reset →
      Move s (.work r) ((cleanupReset s i).work (.prepare i .deinitLock))
  | deinitLock {r : Reply} {i : Fin n} : s.worker = .prepare i .deinitLock →
      Move s (.work r) ((cleanupLock s i).work (prepareFrom n (i + 1)))
  | cas {r : Reply} {i : Fin n} {w : Word} : s.worker = .prepare i .cas →
      maskCas r.isErr (s.state i) bitSched bitActive = some w →
      Move s (.work r) ((s.setState i w).work (.prepare i .push))
  | push {r : Reply} {i : Fin n} : s.worker = .prepare i .push →
      Move s (.work r) ((s.setPfds (s.pfds ++ [⟨s.fd i, .none⟩])).work (.prepare i .clearSched))
  | clearSched {r : Reply} {i : Fin n} : s.worker = .prepare i .clearSched →
      Move s (.work r) ((s.setState i (maskClear (s.state i) bitSched)).work (prepareFrom n (i + 1)))
  | pollEvent {r : Reply} {pfds : List Pollfd} : s.worker = .poll →
      pfds = s.pfds.map (fun p => { p with revents := s.ready p.fd }) →
      (pfds.head?.map Pollfd.revents).getD .none ≠ .none → Move s (.work r) ((s.setPfds pfds).work .eventRead)
  | pollTimers {r : Reply} {pfds : List Pollfd} : s.worker = .poll →
      pfds = s.pfds.map (fun p => { p with revents := s.ready p.fd }) →
      (pfds.head?.map Pollfd.revents).getD .none = .none →
      Move s (.work r) ((s.setPfds pfds).work (.service 0 .head))
  | eventRead {r : Reply} : s.worker = .eventRead → s.eventCount ≠ 0 →
      Move s (.work r) ((s.setCount (s.eventCount - 1)).work .top)
  | read {r : Reply} {j : Nat} {pfd : Pollfd} : s.worker = .service j .read → s.pfds[j]? = some pfd →
      Move s (.work r) ((readFd s pfd.fd).work
        (if pfd.revents = .pollin then findFrom n j 0 else .service (j + 1) .head))
  | lock {r : Reply} {j : Nat} {i : Fin n} {pfd : Pollfd} {l : Mutex m} : s.worker = .service j (.alarm i .lock) →
      s.pfds[j]? = some pfd → (s.lock i).lock .worker = some l →
      Move s (.work r) ((s.setLock i l).work (.service j (.alarm i .test)))
  | unlock {r : Reply} {j : Nat} {i : Fin n} {pfd : Pollfd} : s.worker = .service j (.alarm i .unlock) →
      s.pfds[j]? = some pfd →
      Move s (.work r) ((s.setLock i (s.lock i).unlock).work (.service j (.alarm i .clear)))
  | clearActive {r : Reply} {j : Nat} {i : Fin n} {pfd : Pollfd} : s.worker = .service j (.alarm i .clear) →
      s.pfds[j]? = some pfd →
      Move s (.work r) ((s.setState i (maskClear (s.state i) bitActive)).work (.service (j + 1) .head))
  | goto {th : Thread m} {r : Reply} {c : Call n} : CallMove s th r c → Move s (.step th r) (s.goto th c)
  | done {th : Thread m} {r : Reply} {v : Ret n} : DoneMove s th v → Move s (.step th r) (s.done th v)
  | taken {th : Thread m} {r : Reply} {cb : Option Nat} {arg : Nat} {i : Fin n} :
      s.calls th = .install cb arg (.alloc i) → (s.state i).has .alloc = true →
      Move s (.step th r) (allocFrom s th cb arg (i + 1))
  | claim {th : Thread m} {r : Reply} {cb : Option Nat} {arg : Nat} {i : Fin n} :
      s.calls th = .install cb arg (.alloc i) → (s.state i).has .alloc = false →
      Move s (.step th r) ((s.setState i (maskSet (s.state i) bitAlloc)).goto th (.install cb arg (.fill i)))
  | fill {th : Thread m} {r : Reply} {cb : Option Nat} {arg : Nat} {i : Fin n} :
      s.calls th = .install cb arg (.fill i) →
      Move s (.step th r) ((s.setCb i cb arg).goto th (.install cb arg (.create i)))
  | create {th : Thread m} {cb : Option Nat} {arg : Nat} {i : Fin n} {d : Int} :
      s.calls th = .install cb arg (.create i) → s.fresh d = true →
      Move s (.step th (.fd d))
        (((s.setFd i d).setTfd d (some ⟨none, false⟩)).goto th (.install cb arg (.initLock i)))
  | createErr {th : Thread m} {e : Nat} {cb : Option Nat} {arg : Nat} {i : Fin n} :
      s.calls th = .install cb arg (.create i) →
      Move s (.step th (.err e)) ((s.setFd i (-1)).goto th (.install cb arg (.errReset i)))
  | initLock {th : Thread m} {cb : Option Nat} {arg : Nat} {i : Fin n} : s.calls th = .install cb arg (.initLock i) →
      Move s (.step th .ok) ((s.setLock i ⟨true, none⟩).goto th (.install cb arg (.publish i)))
  | errClose {th : Thread m} {r : Reply} {cb : Option Nat} {arg : Nat} {i : Fin n} :
      s.calls th = .install cb arg (.errClose i) →
      Move s (.step th r) ((s.setTfd (s.fd i) none).goto th (.install cb arg (.errReset i)))
  | errReset {th : Thread m} {r : Reply} {cb : Option Nat} {arg : Nat} {i : Fin n} :
      s.calls th = .install cb arg (.errReset i) → Move s (.step th r) ((s.setState i 0).done th (.timer none))
  | publish {th : Thread m} {r : Reply} {cb : Option Nat} {arg : Nat} {i : Fin n} :
      s.calls th = .install cb arg (.publish i) →
      Move s (.step th r) ((s.setState i (maskSet (s.state i) bitUsed)).done th (.timer (some i)))
  | clear {th : Thread m} {r : Reply} {t : Fin n} {c : Call n} : Clears t (s.calls th) c →
      Move s (.step th r) ((s.setState t (maskClear (s.state t) (bitActive ||| bitSched))).goto th c)
  | settime {th : Thread m} {t : Fin n} {spec : Itimerspec} {c : Call n} {tf : Timerfd} :
      Settime t spec (s.calls th) c → s.fds (s.fd t) = some tf →
      Move s (.step th .ok)
        ((s.setTfd (s.fd t) (some ⟨if spec.ns = 0 then none else some (s.clock + spec.ns), false⟩)).goto th c)
  | setSched {th : Thread m} {r : Reply} {t : Fin n} {us : Nat} {err : Option Nat} :
      s.calls th = .restart t us (.setSched err) →
      Move s (.step th r) ((s.setState t (maskSet (s.state t) bitSched)).goto th (.restart t us (.trigger err)))
  | started {th : Thread m} {r : Reply} {t : Fin n} {us : Nat} {err : Option Nat} :
      s.calls th = .restart t us (.trigger err) →
      Move s (.step th r) (s.triggerReset.done th (.status (restartStatus err r)))
  | stopped {th : Thread m} {r : Reply} {t : Fin n} {v : Int} : s.calls th = .stop t false (.trigger v) →
      Move s (.step th r) (s.triggerReset.done th (.status v))
  | unStopped {th : Thread m} {r : Reply} {t : Fin n} {v : Int} : s.calls th = .stop t true (.trigger v) →
      Move s (.step th r) (s.triggerReset.goto th (.uninstall t .unlock))
  | unLock {th : Thread m} {r : Reply} {t : Fin n} {l : Mutex m} : s.calls th = .uninstall t .lock →
      s.inCallbackOf th t = false → (s.lock t).lock th = some l →
      Move s (.step th r) ((s.setLock t l).goto th (.stop t true .clear))
  | unUnlock {th : Thread m} {r : Reply} {t : Fin n} : s.calls th = .uninstall t .unlock →
      s.inCallbackOf th t = false →
      Move s (.step th r) ((s.setLock t (s.lock t).unlock).goto th (.uninstall t .zombie))
  | zombie {th : Thread m} {r : Reply} {t : Fin n} : s.calls th = .uninstall t .zombie →
      Move s (.step th r) ((s.setState t (maskSet (s.state t) bitZombie)).done th (.status 0))
  | deinitExit {th : Thread m} {r : Reply} : s.calls th = .deinit .exit →
      Move s (.step th r) ((s.setWorkState .exit).goto th (.deinit .trigger))
  | deinitTrigger {th : Thread m} {r : Reply} : s.calls th = .deinit .trigger →
      Move s (.step th r) (s.triggerReset.goto th (.deinit .join))
  | deinitEvent {th : Thread m} {r : Reply} : s.calls th = .deinit .closeEvent →
      Move s (.step th r) (deinitFrom s.closeEvent th 0)
  | deinitSkip {th : Thread m} {r : Reply} {i : Fin n} : s.calls th = .deinit (.test i) →
      (s.state i).has .used = false → Move s (.step th r) (deinitFrom s th (i + 1))
  | deinitClose {th : Thread m} {r : Reply} {i : Fin n} : s.calls th = .deinit (.close i) →
      Move s (.step th r) ((cleanupClose s i).goto th (.deinit (.reset i)))
  | deinitReset {th : Thread m} {r : Reply} {i : Fin n} : s.calls th = .deinit (.reset i) →
      Move s (.step th r) ((cleanupReset s i).goto th (.deinit (.deinitLock i)))
  | deinitMutex {th : Thread m} {r : Reply} {i : Fin n} : s.calls th = .deinit (.deinitLock i) →
      Move s (.step th r) (deinitFrom (cleanupLock s i) th (i + 1))

/-! ## Entering a function -/

section Enter

variable (s : Sys n m) (th : Thread m) (op : Op n)

@[simp] theorem enter_calls : (enter s th op).calls = Function.update s.calls th op.first := by cases op <;> rfl

@[simp] theorem enter_cb : (enter s th op).cb = s.cb := by cases op <;> rfl

@[simp] theorem enter_fd : (enter s th op).fd = s.fd := by cases op <;> rfl

@[simp] theorem enter_state : (enter s th op).state = s.state := by cases op <;> rfl

@[simp] theorem enter_lock : (enter s th op).lock = s.lock := by cases op <;> rfl

@[simp] theorem enter_workState : (enter s th op).workState = s.workState := by cases op <;> rfl

@[simp] theorem enter_eventfd : (enter s th op).eventfd = s.eventfd := by cases op <;> rfl

@[simp] theorem enter_eventOpen : (enter s th op).eventOpen = s.eventOpen := by cases op <;> rfl

@[simp] theorem enter_eventCount : (enter s th op).eventCount = s.eventCount := by cases op <;> rfl

@[simp] theorem enter_fds : (enter s th op).fds = s.fds := by cases op <;> rfl

@[simp] theorem enter_clock : (enter s th op).clock = s.clock := by cases op <;> rfl

@[simp] theorem enter_worker : (enter s th op).worker = s.worker := by cases op <;> rfl

@[simp] theorem enter_pfds : (enter s th op).pfds = s.pfds := by cases op <;> rfl

end Enter

/-! ## The step function -/

theorem timerValid_iff (w : Word) : timerValid w = true ↔ w.has .used = true ∧ w.has .zombie = false := by
  have h : maskGet w (bitUsed ||| bitZombie) = (w &&& Bit.used.mask) ||| (w &&& Bit.zombie.mask) := by
    rw [maskGet, bitUsed, bitZombie, BitVec.and_or_distrib_left]
  rw [timerValid, h, and_mask, and_mask]
  cases w.has .used <;> cases w.has .zombie <;> decide

theorem maskCas_none {spurious : Bool} {w : Word} {b c : Bit} (h : maskCas spurious w b.mask c.mask = none) :
    w.has b = false := by
  by_cases hw : w = b.mask
  · subst hw
    rw [maskCas, and_mask] at h
    cases spurious <;> simp at h
  · rw [maskCas_mask spurious hw] at h
    cases hb : w.has b <;> simp_all

theorem preparePfdsStep_move {s : Sys n m} {i : Fin n} {p : Prepare} {r : Reply} (hw : s.worker = .prepare i p) :
    Move s (.work r) (preparePfdsStep s i p r) := by
  cases p with
  | testUsed =>
    simp only [preparePfdsStep, bitUsed, maskTest_mask]
    cases h : (s.state i).has .used
    · exact .work (.unused hw h)
    · exact .work (.used hw h)
  | testZombie =>
    simp only [preparePfdsStep, bitZombie, maskTest_mask]
    cases h : (s.state i).has .zombie
    · exact .work (.alive hw h)
    · exact .work (.zombie hw h)
  | close => exact .close hw
  | reset => exact .reset hw
  | deinitLock => exact .deinitLock hw
  | testActive =>
    simp only [preparePfdsStep, bitActive, maskTest_mask]
    cases h : (s.state i).has .active
    · exact .work (.inactive hw h)
    · exact .work (.active hw h)
  | cas =>
    simp only [preparePfdsStep]
    split
    · rename_i h; exact .cas hw h
    · rename_i h; exact .work (.noCas hw (maskCas_none h))
  | push => exact .push hw
  | clearSched => exact .clearSched hw

theorem pollStep_move {s s' : Sys n m} {r : Reply} (hw : s.worker = .poll) (h : pollStep s r = some s') :
    Move s (.work r) s' := by
  simp only [pollStep] at h
  split at h
  · cases h; exact .work (.pollErr hw)
  · split at h
    · cases h
    · cases h
      split
      · rename_i hp; exact .pollTimers hw rfl hp
      · rename_i hp; exact .pollEvent hw rfl hp

theorem timerAlarmStep_move {s s' : Sys n m} {j : Nat} {i : Fin n} {p : Alarm} {r : Reply} {pfd : Pollfd}
    (hw : s.worker = .service j (.alarm i p)) (hj : s.pfds[j]? = some pfd)
    (h : timerAlarmStep s j i p = some s') : Move s (.work r) s' := by
  cases p with
  | enter =>
    cases h
    dsimp only
    split
    · rename_i hc; exact .work (.noCb hw hj hc)
    · rename_i hc; exact .work (.enter hw hj hc)
  | lock =>
    obtain ⟨l, hl, rfl⟩ := Option.map_eq_some_iff.mp h
    exact .lock hw hj hl
  | test =>
    simp only [timerAlarmStep, bitActive, maskTest_mask, Option.some.injEq] at h
    subst h
    cases ha : (s.state i).has .active
    · exact .work (.skip hw hj ha)
    · exact .work (.fire hw hj ha)
  | callback =>
    simp only [timerAlarmStep] at h
    split at h
    · rename_i hc; cases h; exact .work (.ret hw hj hc)
    · cases h
  | unlock => cases h; exact .unlock hw hj
  | clear => cases h; exact .clearActive hw hj

theorem servicePfdsStep_move {s s' : Sys n m} {j : Nat} {p : Service n} {r : Reply}
    (hw : s.worker = .service j p) (h : servicePfdsStep s j p = some s') : Move s (.work r) s' := by
  unfold servicePfdsStep at h
  split at h
  · rename_i hj; cases h; exact .work (.batchEnd hw hj)
  · rename_i pfd hj
    cases p with
    | head =>
      cases h
      by_cases hr : pfd.revents = .none
      · rw [if_pos hr, if_pos hr]; exact .work (.quiet hw hj hr)
      · rw [if_neg hr, if_neg hr]; exact .work (.ready hw hj hr)
    | read => cases h; exact .read hw hj
    | valid i =>
      cases h
      split
      · rename_i hv
        have := (timerValid_iff _).mp hv
        exact .work (.valid hw hj this.1 this.2)
      · rename_i hv; exact .work (.invalid hw hj (fun h => hv ((timerValid_iff _).mpr h)))
    | compare i =>
      cases h
      split
      · rename_i hf; exact .work (.found hw hj hf)
      · rename_i hf; exact .work (.other hw hj hf)
    | alarm i p => exact timerAlarmStep_move hw hj h

theorem workerStep_move {s s' : Sys n m} {r : Reply} (h : workerStep s r = some s') : Move s (.work r) s' := by
  unfold workerStep at h
  split at h
  · rename_i hw
    split at h
    · rename_i he; cases h; exact .work (.exit hw he)
    · rename_i he
      cases h
      refine .pass hw ?_
      cases hs : s.workState
      · rfl
      · exact absurd hs he
  · rename_i hw; cases h; exact preparePfdsStep_move hw
  · rename_i hw; exact pollStep_move hw h
  · rename_i hw
    split at h
    · cases h
    · rename_i hc; cases h; exact .eventRead hw hc
  · rename_i hw; exact servicePfdsStep_move hw h
  · cases h

theorem timerAddStep_move {s s' : Sys n m} {th : Thread m} {cb : Option Nat} {arg : Nat} {p : Add n} {r : Reply}
    (hc : s.calls th = .install cb arg p) (h : timerAddStep s th cb arg p r = some s') : Move s (.step th r) s' := by
  unfold timerAddStep at h
  split at h
  · rename_i i
    rw [bitAlloc, maskSetStrict_mask] at h
    cases ha : (s.state i).has .alloc
    · simp only [ha] at h; cases h; exact .claim hc ha
    · simp only [ha] at h; cases h; exact .taken hc ha
  · cases h; exact .fill hc
  · split at h
    · rename_i hf; cases h; exact .create hc hf
    · cases h
  · cases h; exact .createErr hc
  · cases h
  · cases h; exact .initLock hc
  · rename_i hr; cases h; exact .goto (.initErr hc hr)
  · cases h; exact .errClose hc
  · cases h; exact .errReset hc
  · cases h; exact .publish hc

theorem timerfdSettime_eq {s : Sys n m} {fd : Int} {spec : Itimerspec} {r : Reply} {x : Sys n m × Option Nat}
    (h : timerfdSettime s fd spec r = some x) :
    (r = .ok ∧ ∃ tf, s.fds fd = some tf ∧
      x = (s.setTfd fd (some ⟨if spec.ns = 0 then none else some (s.clock + spec.ns), false⟩), none)) ∨
    ∃ e, r = .err e ∧ x = (s, some e) := by
  unfold timerfdSettime at h
  split at h
  · rename_i tf hf; cases h; exact .inl ⟨rfl, tf, hf, rfl⟩
  · rename_i e; cases h; exact .inr ⟨e, rfl, rfl⟩
  · cases h

theorem timerRestartStep_move {s s' : Sys n m} {th : Thread m} {t : Fin n} {us : Nat} {p : Restart} {r : Reply}
    (hc : s.calls th = .restart t us p) (h : timerRestartStep s th t us p r = some s') : Move s (.step th r) s' := by
  cases p with
  | clear => cases h; exact .clear (hc ▸ .restart us)
  | settime =>
    obtain ⟨x, hx, rfl⟩ := Option.map_eq_some_iff.mp h
    obtain ⟨rfl, tf, hf, rfl⟩ | ⟨e, rfl, rfl⟩ := timerfdSettime_eq hx
    · exact .settime (hc ▸ .restart us) hf
    · exact .goto (.settimeErr hc rfl)
  | setSched err => cases h; exact .setSched hc
  | trigger err => cases h; exact .started hc

theorem timerStopStep_move {s s' : Sys n m} {th : Thread m} {t : Fin n} {un : Bool} {p : Stop} {r : Reply}
    (hc : s.calls th = .stop t un p) (h : timerStopStep s th t un p r = some s') : Move s (.step th r) s' := by
  cases p with
  | clear => cases h; exact .clear (hc ▸ .stop un)
  | settime =>
    obtain ⟨x, hx, rfl⟩ := Option.map_eq_some_iff.mp h
    obtain ⟨rfl, tf, hf, rfl⟩ | ⟨e, rfl, rfl⟩ := timerfdSettime_eq hx
    · exact .settime (hc ▸ .stop un) hf
    · exact .goto (.stopErr hc rfl)
  | trigger status =>
    cases h
    cases un
    · exact .stopped hc
    · exact .unStopped hc

theorem timerUninstallStep_move {s s' : Sys n m} {th : Thread m} {t : Fin n} {p : Uninstall} {r : Reply}
    (hc : s.calls th = .uninstall t p) (h : timerUninstallStep s th t p = some s') : Move s (.step th r) s' := by
  cases p with
  | lock =>
    simp only [timerUninstallStep] at h
    cases ho : s.inCallbackOf th t
    · simp only [ho] at h
      obtain ⟨l, hl, rfl⟩ := Option.map_eq_some_iff.mp h
      exact .unLock hc ho hl
    · simp only [ho] at h; cases h; exact .goto (.lockOwn hc ho)
  | unlock =>
    simp only [timerUninstallStep] at h
    cases ho : s.inCallbackOf th t
    · simp only [ho] at h; cases h; exact .unUnlock hc ho
    · simp only [ho] at h; cases h; exact .goto (.unlockOwn hc ho)
  | zombie => cases h; exact .zombie hc

theorem ctxDeinitStep_move {s s' : Sys n m} {th : Thread m} {p : Deinit n} {r : Reply}
    (hc : s.calls th = .deinit p) (h : ctxDeinitStep s th p = some s') : Move s (.step th r) s' := by
  cases p with
  | exit => cases h; exact .deinitExit hc
  | trigger => cases h; exact .deinitTrigger hc
  | join =>
    simp only [ctxDeinitStep] at h
    split at h
    · rename_i hw; cases h; exact .goto (.join hc hw)
    · cases h
  | closeEvent => cases h; exact .deinitEvent hc
  | test i =>
    simp only [ctxDeinitStep, bitUsed, maskTest_mask] at h
    cases hu : (s.state i).has .used
    · simp only [hu] at h; cases h; exact .deinitSkip hc hu
    · simp only [hu] at h; cases h; exact .goto (.used hc hu)
  | close i =>
    cases h; exact .deinitClose hc
  | reset i => cases h; exact .deinitReset hc
  | deinitLock i => cases h; exact .deinitMutex hc

theorem callStep_move {s s' : Sys n m} {th : Thread m} {r : Reply} (h : callStep s th r = some s') :
    Move s (.step th r) s' := by
  unfold callStep at h
  split at h
  · cases h
  · rename_i hc; exact timerAddStep_move hc h
  · rename_i hc; exact timerUninstallStep_move hc h
  · rename_i t us hc
    simp only [bitActive, bitSched, ne_eq, maskGet_or_eq_zero] at h
    split at h
    · rename_i hb
      cases h
      refine .done (.busy hc ?_)
      cases ha : (s.state t).has .active <;> simp_all
    · rename_i hb
      cases h
      have hb := not_not.mp hb
      exact .goto (.start hc hb.1 hb.2)
  · rename_i hc; exact timerRestartStep_move hc h
  · rename_i hc; exact timerStopStep_move hc h
  · rename_i t hc
    cases h
    have hv : (maskGet (s.state t) (bitActive ||| bitSched) != 0) =
        ((s.state t).has .active || (s.state t).has .sched) := by
      rw [Bool.eq_iff_iff, bne_iff_ne, bitActive, bitSched, ne_eq, maskGet_or_eq_zero]
      cases (s.state t).has .active <;> simp
    rw [hv]
    exact .done (.active hc)
  · rename_i hc; exact ctxDeinitStep_move hc h

/-- **Every step of the system is a move.** -/
theorem step_move {s s' : Sys n m} {a : Act n m} (h : step s a = some s') : Move s a s' := by
  cases a with
  | work r => exact workerStep_move h
  | call th op =>
    simp only [step] at h
    split at h
    · rename_i hc; cases h; exact .enter hc.1 hc.2 rfl
    · cases h
  | step th r => exact callStep_move h
  | expire fd =>
    simp only [step, expireStep] at h
    split at h
    · rename_i d e hf
      split at h
      · rename_i hd; cases h; exact .expire hf hd
      · cases h
    · cases h
  | tick ns => cases h; exact .tick ns

/-- A delay never disarms. -/
theorem toItimerspec_ns (us : Nat) : (toItimerspec us).ns ≠ 0 := by
  simp only [toItimerspec, Itimerspec.ns]
  split <;> simp only <;> omega

/-! ## Frames -/

/-- A flag that no step on the word of one slot sets. -/
theorem has_of_update {s s' : Sys n m} {b : Bit} {w : Word} {j : Fin n} (hs : s'.state = Function.update s.state j w)
    (hw : w.has b = true → (s.state j).has b = true) (i : Fin n) (h : (s'.state i).has b = true) :
    (s.state i).has b = true := by
  rw [hs, Function.update_apply] at h
  split at h
  · rename_i e; exact e ▸ hw h
  · exact h

/-- Only the worker moves the worker, and only it touches `pfds`. -/
theorem Move.frame_worker {s s' : Sys n m} {a : Act n m} (h : Move s a s') (ha : ∀ r, a ≠ .work r) :
    s'.worker = s.worker ∧ s'.pfds = s.pfds := by
  cases h with
  | enter hc hw he => subst he; exact ⟨enter_worker .., enter_pfds ..⟩
  | _ => first | exact ⟨rfl, rfl⟩ | exact absurd rfl (ha _)

/-- The eventfd stays the same. -/
theorem Move.frame_eventfd {s s' : Sys n m} {a : Act n m} (h : Move s a s') : s'.eventfd = s.eventfd := by
  cases h with
  | enter _ _ he => subst he; exact enter_eventfd ..
  | _ => rfl

/-- The worker moves no call. -/
theorem Move.frame_calls {s s' : Sys n m} {r : Reply} (h : Move s (.work r) s') : s'.calls = s.calls := by
  cases h <;> rfl

end Gabs.Timer.Posix
