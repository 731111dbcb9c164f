import Gabs.Timer.Posix.Quiesce
import Gabs.Timer.Posix.Signal

/-!
# The POSIX timer: no deadlock

- `Held`: whoever owns a lock is in the part of the program that gives it back;
- `Sys.Steps`, `Sys.Works`: a call, or the worker, can make a step;
- `no_deadlock`: a call waits for nobody but the worker, the worker waits for nobody but an uninstall, and whoever
  another one waits for can make a step.
-/

namespace Gabs.Timer.Posix

open Gabs.Lib

variable {n m : Nat} {s s' : Sys n m}

/-! ## The owners of the locks -/

/-- **The owner of a lock** is the worker around the callback of the timer, or an uninstall of it. -/
def Held (s : Sys n m) : Prop := ∀ t th, (s.lock t).owner = some th →
  th = .worker ∧ s.worker.locked = some t ∨ (s.calls th).locks = some t ∧ s.inCallbackOf th t = false

/-- What a step of the worker does to the lock of a timer, and to its own hold on it. -/
theorem Move.work_owner {r : Reply} (h : Move s (.work r) s') (hb : InBatch s) (t : Fin n) :
    (s'.lock t).owner = none ∨ s'.worker.locked = some t ∧ (s'.lock t = s.lock t ∨ (s'.lock t).owner = some .worker) ∨
      s'.lock t = s.lock t ∧ s.worker.locked ≠ some t := by
  have hother : s'.lock = s.lock → (s.worker.locked = some t → s'.worker.locked = some t) →
      (s'.lock t).owner = none ∨ s'.worker.locked = some t ∧ (s'.lock t = s.lock t ∨ (s'.lock t).owner = some .worker) ∨
        s'.lock t = s.lock t ∧ s.worker.locked ≠ some t := fun hl hk => by
    by_cases hw : s.worker.locked = some t
    · exact .inr (.inl ⟨hk hw, .inl (by rw [hl])⟩)
    · exact .inr (.inr ⟨by rw [hl], hw⟩)
  cases h with
  | work hm =>
    apply hother rfl
    intro hw
    cases hm with
    | fire h | skip h | ret h =>
      rw [h] at hw
      exact hw
    | @batchEnd j p h hj =>
      have hlt := hb j p h (by rintro rfl; rw [h] at hw; cases hw)
      rw [List.getElem?_eq_none_iff] at hj
      omega
    | exit h | unused h | used h | zombie h | alive h | active h | inactive h | noCas h | pollErr h | quiet h | ready h
    | valid h | invalid h | found h | other h | noCb h | enter h =>
      rw [h] at hw
      cases hw
  | pass h | close h | reset h | cas h | push h | clearSched h | pollEvent h | pollTimers h | eventRead h | read h
  | clearActive h =>
    apply hother rfl
    intro hw
    rw [h] at hw
    cases hw
  | @deinitLock _ k h =>
    rcases eq_or_ne t k with rfl | hn
    · exact .inl (by simp)
    · refine .inr (.inr ⟨Function.update_of_ne hn .., ?_⟩)
      rw [h]
      rintro ⟨⟩
  | @lock _ j k pfd l h _ hl =>
    rcases eq_or_ne t k with rfl | hn
    · refine .inr (.inl ⟨rfl, ?_⟩)
      rw [Sys.work_lock, Sys.setLock_lock, Function.update_self]
      rcases lock_taken hl with ⟨-, -, ho⟩ | ⟨-, heq⟩
      · exact .inr ho
      · exact .inl heq
    · refine .inr (.inr ⟨Function.update_of_ne hn .., ?_⟩)
      rw [h]
      rintro ⟨⟩
  | @unlock _ j k pfd h =>
    rcases eq_or_ne t k with rfl | hn
    · exact .inl (by simp [Mutex.unlock])
    · refine .inr (.inr ⟨Function.update_of_ne hn .., ?_⟩)
      rw [h]
      intro e
      exact hn (Option.some.inj e).symm

/-- What a step of a call does to the lock of a timer, and to its own hold on it. -/
theorem Move.call_owner {th : Thread m} {r : Reply} (h : Move s (.step th r) s') (t : Fin n) :
    (s'.lock t).owner = none ∨ s'.lock t = s.lock t ∧
        ((s.calls th).locks = some t → s.inCallbackOf th t = false → (s'.calls th).locks = some t) ∨
      (s'.lock t = s.lock t ∨ (s'.lock t).owner = some th) ∧ (s'.calls th).locks = some t ∧
        s.inCallbackOf th t = false := by
  have hsame : s'.lock = s.lock → (s.calls th).locks ≠ some t →
      s'.lock t = s.lock t ∧
        ((s.calls th).locks = some t → s.inCallbackOf th t = false → (s'.calls th).locks = some t) := fun hl hn =>
    ⟨by rw [hl], fun e => absurd e hn⟩
  cases h with
  | goto hm =>
    refine .inr (.inl ⟨rfl, fun hc ho => ?_⟩)
    rw [Sys.goto_calls, Function.update_self]
    cases hm with
    | @stopErr _ un _ h =>
      rw [h] at hc
      cases un
      · cases hc
      · exact hc
    | unlockOwn h hown =>
      rw [h] at hc
      cases hc
      rw [ho] at hown
      cases hown
    | initErr h | start h | settimeErr h | lockOwn h | join h | used h =>
      rw [h] at hc
      cases hc
  | done hm =>
    refine .inr (.inl (hsame rfl ?_))
    cases hm with
    | busy h | active h =>
      rw [h]
      rintro ⟨⟩
  | clear h | settime h =>
    refine .inr (.inl ⟨rfl, fun hc _ => ?_⟩)
    rw [Sys.goto_calls, Function.update_self]
    generalize s.calls th = c at h hc
    cases h with
    | restart => cases hc
    | stop un =>
      cases un
      · cases hc
      · exact hc
  | unStopped h =>
    refine .inr (.inl ⟨rfl, fun hc _ => ?_⟩)
    rw [Sys.goto_calls, Function.update_self]
    rw [h] at hc
    exact hc
  | taken h | claim h | fill h | create h | createErr h | errClose h | errReset h | publish h | setSched h | started h
  | stopped h | zombie h | deinitExit h | deinitTrigger h | deinitEvent h | deinitSkip h | deinitClose h
  | deinitReset h =>
    refine .inr (.inl (hsame rfl ?_))
    rw [h]
    rintro ⟨⟩
  | @initLock _ cb arg k h | @deinitMutex _ _ k h =>
    rcases eq_or_ne t k with rfl | hn
    · exact .inl (by simp)
    · refine .inr (.inl ⟨Function.update_of_ne hn .., fun hc => ?_⟩)
      rw [h] at hc
      cases hc
  | @unLock _ _ k l h ho hl =>
    rcases eq_or_ne t k with rfl | hn
    · refine .inr (.inr ⟨?_, ?_, ho⟩)
      · rw [Sys.goto_lock, Sys.setLock_lock, Function.update_self]
        rcases lock_taken hl with ⟨-, -, h'⟩ | ⟨-, heq⟩
        · exact .inr h'
        · exact .inl heq
      · rw [Sys.goto_calls, Function.update_self]
        rfl
    · refine .inr (.inl ⟨Function.update_of_ne hn .., fun hc => ?_⟩)
      rw [h] at hc
      cases hc
  | @unUnlock _ _ k h =>
    rcases eq_or_ne t k with rfl | hn
    · exact .inl (by simp [Mutex.unlock])
    · refine .inr (.inl ⟨Function.update_of_ne hn .., fun hc => ?_⟩)
      rw [h] at hc
      exact absurd (Option.some.inj hc).symm hn

/-- **One step.** -/
theorem Held.step {a : Act n m} (hi : Held s) (hin : Inside s) (hb : InBatch s) (h : Move s a s') : Held s' := by
  intro t th ho
  cases a with
  | work r =>
    have hidle := hin.idle hb h
    have hcall : ∀ th', (s.calls th').locks = some t ∧ s.inCallbackOf th' t = false →
        (s'.calls th').locks = some t ∧ s'.inCallbackOf th' t = false := fun th' hc => by
      have hne : th' ≠ .worker := by
        rintro rfl
        rw [hidle] at hc
        cases hc.1
      rw [h.frame_calls]
      exact ⟨hc.1, by simp [Sys.inCallbackOf, hne]⟩
    rcases h.work_owner hb t with hn | ⟨hw, heq | how⟩ | ⟨heq, hw⟩
    · rw [hn] at ho
      cases ho
    · rw [heq] at ho
      rcases hi t th ho with ⟨hth, -⟩ | hc
      · exact .inl ⟨hth, hw⟩
      · exact .inr (hcall th hc)
    · rw [how] at ho
      exact .inl ⟨(Option.some.inj ho).symm, hw⟩
    · rw [heq] at ho
      rcases hi t th ho with ⟨-, hw'⟩ | hc
      · exact absurd hw' hw
      · exact .inr (hcall th hc)
  | step th' r =>
    have hworker := (h.frame_worker (by simp)).1
    have hcb : ∀ th'', s'.inCallbackOf th'' t = s.inCallbackOf th'' t := fun th'' => by
      rw [Sys.inCallbackOf, Sys.inCallbackOf, hworker]
    rcases h.call_owner t with hn | ⟨heq, hkeep⟩ | ⟨heq, hlock, hno⟩
    · rw [hn] at ho
      cases ho
    · rw [heq] at ho
      rcases hi t th ho with ⟨hth, hw⟩ | ⟨hc, hno⟩
      · exact .inl ⟨hth, by rw [hworker, hw]⟩
      · right
        rw [hcb]
        rcases eq_or_ne th th' with rfl | hne
        · exact ⟨hkeep hc hno, hno⟩
        · rw [h.frame_others.2 th hne]
          exact ⟨hc, hno⟩
    · rcases eq_or_ne th th' with rfl | hne
      · right
        rw [hcb]
        exact ⟨hlock, hno⟩
      · rcases heq with heq | how
        · rw [heq] at ho
          rcases hi t th ho with ⟨hth, hw⟩ | ⟨hc, hno'⟩
          · exact .inl ⟨hth, by rw [hworker, hw]⟩
          · right
            rw [hcb, h.frame_others.2 th hne]
            exact ⟨hc, hno'⟩
        · rw [how] at ho
          exact absurd (Option.some.inj ho).symm hne
  | expire | tick =>
    cases h
    exact hi t th ho
  | call th' op =>
    cases h with
    | enter hidle _ he =>
      subst he
      rw [enter_lock] at ho
      rw [enter_worker, enter_calls, Sys.inCallbackOf, enter_worker, Function.update_apply]
      rcases hi t th ho with hw | hc
      · exact .inl hw
      · right
        have hne : th ≠ th' := by
          rintro rfl
          rw [hidle] at hc
          cases hc.1
        rw [if_neg hne]
        exact hc

theorem held_of_reach {P : Sys n m → Act n m → Prop} (hr : (system n m).Reach P s) : Held s := by
  refine hr.invariant ?_ fun s a s' hr hi _ h => hi.step (inside_of_reach hr) (inBatch_of_reach hr) (step_move h)
  rintro s ⟨fd, -, rfl⟩ t th ho
  cases ho

/-! ## The wake-up -/

/-- The worker fills `pfds`, or polls. -/
def Worker.fills : Worker n → Bool
  | .prepare _ _ | .poll => true
  | _ => false

/-- **Nobody sleeps through a `deinit`.** -/
structure Awake (s : Sys n m) : Prop where
  event : s.worker.fills = true → s.pfds.head?.map Pollfd.fd = some s.eventfd
  count : s.worker = .eventRead → s.eventCount ≠ 0
  told : ∀ th, (s.calls th).isDeinit = true → s.calls th ≠ .deinit .exit → s.workState = .exit
  woken : ∀ th, s.calls th = .deinit .join → s.worker = .exited ∨ s.worker = .top ∨ s.eventCount ≠ 0
  foreign : (s.calls .worker).isDeinit = false

theorem findFrom_fills (j k : Nat) : (findFrom n j k).fills = false := by
  unfold findFrom
  split <;> rfl

theorem findFrom_ne_eventRead (j k : Nat) : findFrom n j k ≠ .eventRead := by
  unfold findFrom
  split <;> rintro ⟨⟩

theorem prepareFrom_ne_eventRead (k : Nat) : prepareFrom n k ≠ .eventRead := by
  unfold prepareFrom
  split <;> rintro ⟨⟩

/-- The eventfd comes first in `pfds`. -/
theorem Awake.head {r : Reply} (hi : Awake s) (h : Move s (.work r) s') (hw : s'.worker.fills = true) :
    s'.pfds.head?.map Pollfd.fd = some s'.eventfd := by
  have hkeep : s'.pfds = s.pfds → s'.eventfd = s.eventfd → s.worker.fills = true →
      s'.pfds.head?.map Pollfd.fd = some s'.eventfd := fun hp he hf => by
    rw [hp, he]
    exact hi.event hf
  cases h with
  | work hm =>
    apply hkeep rfl rfl
    rw [Sys.work_worker] at hw
    cases hm with
    | unused h | used h | zombie h | alive h | active h | inactive h | noCas h =>
      rw [h]
      rfl
    | invalid | other =>
      rw [findFrom_fills] at hw
      cases hw
    | exit | pollErr | batchEnd | quiet | ready | valid | found | noCb | enter | fire | skip | ret => cases hw
  | pass => rfl
  | close h | reset h | deinitLock h | cas h | clearSched h =>
    apply hkeep rfl rfl
    rw [h]
    rfl
  | push h =>
    have he := hi.event (by rw [h]; rfl)
    rw [Sys.work_pfds, Sys.setPfds_pfds, Sys.work_eventfd, Sys.setPfds_eventfd]
    cases hp : s.pfds with
    | nil =>
      rw [hp] at he
      cases he
    | cons p ps =>
      rw [hp] at he
      exact he
  | read =>
    rw [Sys.work_worker] at hw
    split at hw
    · rw [findFrom_fills] at hw
      cases hw
    · cases hw
  | pollEvent | pollTimers | eventRead | lock | unlock | clearActive => cases hw

/-- What `poll` answers for the eventfd, which comes first. -/
theorem Awake.ready (hi : Awake s) (ho : s.eventOpen = true) (hw : s.worker.fills = true) : ∃ p ps, s.pfds = p :: ps ∧
    s.ready p.fd = if s.eventCount = 0 then .none else .pollin := by
  have he := hi.event hw
  cases hp : s.pfds with
  | nil =>
    rw [hp] at he
    cases he
  | cons p ps =>
    rw [hp] at he
    have hfd : p.fd = s.eventfd := Option.some.inj he
    exact ⟨p, ps, rfl, by rw [Sys.ready, if_pos ⟨ho, hfd⟩]⟩

/-- `read` of the eventfd finds a count. -/
theorem Awake.counts {r : Reply} (hi : Awake s) (hs : Signalled s) (h : Move s (.work r) s')
    (hw : s'.worker = .eventRead) : s'.eventCount ≠ 0 := by
  cases h with
  | work hm =>
    rw [Sys.work_worker] at hw
    subst hw
    generalize hw : Worker.eventRead = w at hm
    cases hm with
    | unused | noCas => exact absurd hw.symm (prepareFrom_ne_eventRead _)
    | invalid | other => exact absurd hw.symm (findFrom_ne_eventRead _ _)
    | _ => cases hw
  | pollEvent h hp hr =>
    subst hp
    obtain ⟨p, ps, hp, hready⟩ := hi.ready (hs (by rw [h]; rintro ⟨⟩)) (by rw [h]; rfl)
    rw [Sys.work_eventCount, Sys.setPfds_eventCount]
    intro hc
    apply hr
    rw [hp]
    simp [hready, hc]
  | pass | deinitLock | clearSched => exact absurd hw (prepareFrom_ne_eventRead _)
  | read =>
    rw [Sys.work_worker] at hw
    split at hw
    · exact absurd hw (findFrom_ne_eventRead _ _)
    · cases hw
  | close | reset | cas | push | pollTimers | eventRead | lock | unlock | clearActive => cases hw

/-- What a step of the worker does to the count it is woken by. -/
theorem Move.wakes {r : Reply} (h : Move s (.work r) s') : s'.workState = s.workState ∧
    (s'.eventCount = s.eventCount ∨ s'.worker = .top) ∧
    (s.worker = .top → s.workState = .exit → s'.worker = .exited) := by
  cases h with
  | work hm =>
    refine ⟨rfl, .inl rfl, fun hw _ => ?_⟩
    cases hm with
    | exit => rfl
    | _ h =>
      rw [h] at hw
      cases hw
  | pass _ h =>
    refine ⟨rfl, .inl rfl, fun _ he => ?_⟩
    rw [h] at he
    cases he
  | eventRead h =>
    refine ⟨rfl, .inr rfl, fun hw => ?_⟩
    rw [h] at hw
    cases hw
  | close h | reset h | deinitLock h | cas h | push h | clearSched h | pollEvent h | pollTimers h | read h | lock h
  | unlock h | clearActive h =>
    refine ⟨rfl, .inl rfl, fun hw => ?_⟩
    rw [h] at hw
    cases hw

/-- A step of a call takes no trigger back, nor the order to exit. -/
theorem Move.triggers {th : Thread m} {r : Reply} (h : Move s (.step th r) s') :
    s.eventCount ≤ s'.eventCount ∧ (s.workState = .exit → s'.workState = .exit) := by
  cases h with
  | started | stopped | unStopped | deinitTrigger => exact ⟨Nat.le_succ _, id⟩
  | deinitExit => exact ⟨Nat.le_refl _, fun _ => rfl⟩
  | _ => exact ⟨Nat.le_refl _, id⟩

/-- A step of `deinit`. -/
theorem Move.of_deinit {th : Thread m} {r : Reply} {p : Deinit n} (h : Move s (.step th r) s')
    (hc : s.calls th = .deinit p) : ctxDeinitStep s th p = some s' := by
  cases h with
  | goto hm =>
    cases hm with
    | join h hw =>
      rw [h] at hc
      cases hc
      exact if_pos hw
    | used h hu =>
      rw [h] at hc
      cases hc
      simp [ctxDeinitStep, bitUsed, maskTest_mask, hu]
    | initErr h | start h | settimeErr h | stopErr h | lockOwn h | unlockOwn h =>
      rw [h] at hc
      cases hc
  | done hm =>
    cases hm with
    | busy h | active h =>
      rw [h] at hc
      cases hc
  | clear h | settime h =>
    rw [hc] at h
    cases h
  | deinitSkip h hu =>
    rw [h] at hc
    cases hc
    simp [ctxDeinitStep, bitUsed, maskTest_mask, hu]
  | deinitExit h | deinitTrigger h | deinitEvent h | deinitClose h | deinitReset h | deinitMutex h =>
    rw [h] at hc
    cases hc
    rfl
  | taken h | claim h | fill h | create h | createErr h | initLock h | errClose h | errReset h | publish h | setSched h
  | started h | stopped h | unStopped h | unLock h | unUnlock h | zombie h =>
    rw [h] at hc
    cases hc

/-- `deinit` joins after its trigger. -/
theorem Move.joins {th : Thread m} {r : Reply} (h : Move s (.step th r) s') (hc : s'.calls th = .deinit .join) :
    s'.eventCount ≠ 0 := by
  have hd := h.isDeinit (by rw [hc]; rfl)
  cases hp : s.calls th with
  | deinit p =>
    have hs := h.of_deinit hp
    cases p with
    | trigger =>
      cases hs
      exact Nat.succ_ne_zero _
    | join =>
      simp only [ctxDeinitStep] at hs
      split at hs
      · cases hs
        simp at hc
      · cases hs
    | test i =>
      simp only [ctxDeinitStep] at hs
      split at hs <;> cases hs
      · simp at hc
      · simp only [deinitFrom_calls, Function.update_self, deinitCall] at hc
        split at hc <;> cases hc
    | closeEvent | deinitLock i =>
      cases hs
      simp only [deinitFrom_calls, Function.update_self, deinitCall] at hc
      split at hc <;> cases hc
    | exit | close i | reset i =>
      cases hs
      simp at hc
  | idle | install | uninstall | start | restart | stop | active =>
    rw [hp] at hd
    cases hd

/-- **One step.** -/
theorem Awake.step {a : Act n m} (hi : Awake s) (hs : Signalled s) (hp : Linear s a) (h : Move s a s') : Awake s' := by
  cases a with
  | work r =>
    have hc := h.frame_calls
    obtain ⟨hws, hcount, htop⟩ := h.wakes
    constructor
    · exact hi.head h
    · exact hi.counts hs h
    · intro th hd he
      rw [hc] at hd he
      rw [hws]
      exact hi.told th hd he
    · intro th hj
      rw [hc] at hj
      rcases hi.woken th hj with hw | hw | hw
      · exact absurd hw h.ne_exited
      · exact .inl (htop hw (hi.told th (by rw [hj]; rfl) (by rw [hj]; rintro ⟨⟩)))
      · rcases hcount with he | ht
        · rw [he]
          exact .inr (.inr hw)
        · exact .inr (.inl ht)
    · rw [hc]
      exact hi.foreign
  | step th r =>
    obtain ⟨hw, hpf⟩ := h.frame_worker (by simp)
    obtain ⟨hle, hexit⟩ := h.triggers
    have hev := h.frame_eventfd
    have hothers := h.frame_others.2
    constructor
    · rw [hw, hpf, hev]
      exact hi.event
    · intro he
      rw [hw] at he
      have := hi.count he
      omega
    · intro th' hd he
      rcases eq_or_ne th' th with rfl | hn
      · have hd0 := h.isDeinit hd
        by_cases he0 : s.calls th' = .deinit .exit
        · have := h.of_deinit he0
          cases this
          rfl
        · exact hexit (hi.told th' hd0 he0)
      · rw [hothers th' hn] at hd he
        exact hexit (hi.told th' hd he)
    · intro th' hj
      rcases eq_or_ne th' th with rfl | hn
      · exact .inr (.inr (h.joins hj))
      · rw [hothers th' hn] at hj
        rw [hw]
        rcases hi.woken th' hj with h1 | h1 | h1
        · exact .inl h1
        · exact .inr (.inl h1)
        · exact .inr (.inr (by omega))
    · rw [Bool.eq_false_iff]
      intro hd
      rcases eq_or_ne .worker th with rfl | hn
      · have := h.isDeinit hd
        rw [hi.foreign] at this
        cases this
      · rw [hothers _ hn, hi.foreign] at hd
        cases hd
  | call th op =>
    cases h with
    | enter hidle _ he =>
      subst he
      have hfirst : op.first.isDeinit = true → op.first = .deinit .exit ∧ th ≠ .worker := fun hd => by
        cases first_isDeinit hd
        exact ⟨rfl, hp.2.1⟩
      constructor
      · rw [enter_worker, enter_pfds, enter_eventfd]
        exact hi.event
      · rw [enter_worker, enter_eventCount]
        exact hi.count
      · intro th' hd hne
        rw [enter_workState]
        rw [enter_calls, Function.update_apply] at hd hne
        split at hd
        · rename_i e
          rw [if_pos e] at hne
          exact absurd (hfirst hd).1 hne
        · rename_i e
          rw [if_neg e] at hne
          exact hi.told th' hd hne
      · intro th' hj
        rw [enter_worker, enter_eventCount]
        rw [enter_calls, Function.update_apply] at hj
        split at hj
        · have := (hfirst (by rw [hj]; rfl)).1
          rw [hj] at this
          cases this
        · exact hi.woken th' hj
      · rw [enter_calls, Function.update_apply]
        split
        · rename_i e
          rw [Bool.eq_false_iff]
          exact fun hd => (hfirst hd).2 e.symm
        · exact hi.foreign
  | expire | tick =>
    cases h
    exact ⟨hi.event, hi.count, hi.told, hi.woken, hi.foreign⟩

theorem awake_of_reach (hr : (system n m).Reach Linear s) : Awake s := by
  refine hr.invariant ?_ fun s a s' hr hi hp h => hi.step (signalled_of_reach hr) hp (step_move h)
  rintro s ⟨fd, -, rfl⟩
  constructor
  · intro h
    cases h
  · rintro ⟨⟩
  · intro th h
    cases h
  · rintro th ⟨⟩
  · rfl

/-! ## Who waits for whom -/

/-- The call of thread `th` can make a step. -/
def Sys.Steps (s : Sys n m) (th : Thread m) : Prop := ∃ r s', callStep s th r = some s'

/-- The worker can make a step, without a failure. -/
def Sys.Works (s : Sys n m) : Prop := ∃ s', workerStep s .ok = some s'

/-- What the worker waits for. -/
inductive Sys.Waits (s : Sys n m) : Prop
  | event : s.worker = .poll → (∀ p ∈ s.pfds, s.ready p.fd = .none) → Waits s
  | lock {j : Nat} {i : Fin n} {th : Thread m} : s.worker = .service j (.alarm i .lock) → (s.lock i).owner = some th →
      Waits s
  | callback {j : Nat} {i : Fin n} : s.worker = .service j (.alarm i .callback) → s.calls .worker ≠ .idle → Waits s

/-- What a call waits for. -/
inductive Sys.Blocks (s : Sys n m) (th : Thread m) : Prop
  | lock {t : Fin n} {th' : Thread m} : s.calls th = .uninstall t .lock → s.inCallbackOf th t = false →
      (s.lock t).owner = some th' → Blocks s th
  | join : s.calls th = .deinit .join → s.worker ≠ .exited → Blocks s th

/-- A lock that cannot be taken is somebody's. -/
theorem lock_none {l : Mutex m} {th : Thread m} (h : l.lock th = none) : ∃ th', l.owner = some th' := by
  unfold Mutex.lock at h
  split at h
  · split at h
    · cases h
    · rename_i ho
      exact Option.ne_none_iff_exists'.mp ho
  · cases h

/-- **The worker waits nowhere else.** -/
theorem works_or_waits (hi : Awake s) (hw : s.worker ≠ .exited) : s.Works ∨ s.Waits := by
  by_contra hn
  obtain ⟨hnot, hwait⟩ := not_or.mp hn
  have hnone : workerStep s .ok = none := Option.eq_none_iff_forall_ne_some.mpr fun s' h => hnot ⟨s', h⟩
  unfold workerStep at hnone
  split at hnone
  · split at hnone <;> cases hnone
  · cases hnone
  · rename_i h
    simp only [pollStep, Reply.isErr] at hnone
    split at hnone
    · rename_i h'
      cases h'
    · split at hnone
      · rename_i hall
        refine hwait (.event h fun p hp => ?_)
        rw [List.all_map, List.all_eq_true] at hall
        exact of_decide_eq_true (hall p hp)
      · cases hnone
  · rename_i h
    exact absurd (hi.count h) (by simpa using hnone)
  · rename_i j p h
    unfold servicePfdsStep at hnone
    split at hnone
    · cases hnone
    · cases p with
      | alarm i p =>
        cases p with
        | lock =>
          obtain ⟨th, ho⟩ := lock_none (Option.map_eq_none_iff.mp hnone)
          exact hwait (.lock h ho)
        | callback =>
          simp only [timerAlarmStep] at hnone
          split at hnone
          · cases hnone
          · rename_i hc
            exact hwait (.callback h hc)
        | enter | test | unlock | clear => cases hnone
      | head | read | valid i | compare i => cases hnone
  · rename_i h
    exact hw h

/-- **A call waits nowhere else.** -/
theorem steps_or_blocks {th : Thread m} (hc : s.calls th ≠ .idle) : s.Steps th ∨ s.Blocks th := by
  by_contra hn
  obtain ⟨hnot, hblock⟩ := not_or.mp hn
  have hnone : ∀ r, callStep s th r = none := fun r =>
    Option.eq_none_iff_forall_ne_some.mpr fun s' h => hnot ⟨r, s', h⟩
  -- A reply with which every step but the waiting ones is made.
  have h := hnone (.err 0)
  unfold callStep at h
  split at h
  · rename_i h'
    exact hc h'
  · rename_i cb arg p h'
    cases p with
    | alloc i =>
      simp only [timerAddStep] at h
      split at h <;> cases h
    | fill i | create i | initLock i | errClose i | errReset i | publish i => cases h
  · rename_i t p h'
    cases p with
    | lock =>
      simp only [timerUninstallStep] at h
      split at h
      · cases h
      · rename_i hown
        obtain ⟨th', ho⟩ := lock_none (Option.map_eq_none_iff.mp h)
        exact hblock (.lock h' (Bool.eq_false_iff.mpr hown) ho)
    | unlock | zombie => cases h
  · split at h <;> cases h
  · rename_i t us p h'
    cases p <;> simp [timerRestartStep, timerfdSettime] at h
  · rename_i t un p h'
    cases p <;> simp [timerStopStep, timerfdSettime] at h
  · cases h
  · rename_i p h'
    cases p with
    | join =>
      simp only [ctxDeinitStep] at h
      split at h
      · cases h
      · rename_i hw
        exact hblock (.join h' hw)
    | test i =>
      simp only [ctxDeinitStep] at h
      split at h <;> cases h
    | exit | trigger | closeEvent | close i | reset i | deinitLock i => cases h

/-- An uninstall that waits for a lock of the worker's callback. -/
theorem Held.inner (hl : Held s) (ho : Own s) {th th' : Thread m} {t : Fin n} (hc : s.calls th = .uninstall t .lock)
    (h : (s.lock t).owner = some th') : s.worker.locked = some t := by
  rcases hl t th' h with ⟨-, hw⟩ | ⟨hlock, -⟩
  · exact hw
  · have heq := ho.remove_unique th' th t (removes_of_locks hlock) (by rw [hc]; rfl)
    rw [heq, hc] at hlock
    cases hlock

/-- A call made from a callback can always make a step. -/
theorem steps_worker (hl : Held s) (ho : Own s) (ha : Awake s) (hc : s.calls .worker ≠ .idle) : s.Steps .worker := by
  rcases steps_or_blocks hc with h | hb
  · exact h
  · cases hb with
    | lock h hown hlock =>
      have hw := firing_of_locked (hl.inner ho h hlock)
      simp [Sys.inCallbackOf, hw] at hown
    | join h =>
      have := ha.foreign
      rw [h] at this
      cases this

/-- While it holds a lock the worker, or the call from the callback, can make a step. -/
theorem works_of_locked (hl : Held s) (ho : Own s) (ha : Awake s) {t : Fin n} (hw : s.worker.locked = some t) :
    s.Works ∨ s.Steps .worker := by
  rcases works_or_waits ha (by intro e; rw [e] at hw; cases hw) with h | hwait
  · exact .inl h
  · right
    cases hwait with
    | event h =>
      rw [h] at hw
      cases hw
    | lock h =>
      rw [h] at hw
      cases hw
    | callback _ hc => exact steps_worker hl ho ha hc

/-- Once `deinit` waits, nothing holds the worker up. -/
theorem works_of_join (hl : Held s) (ho : Own s) (ha : Awake s) (hs : Signalled s) {th : Thread m}
    (hj : s.calls th = .deinit .join) (hw : s.worker ≠ .exited) : s.Works := by
  have hidle : ∀ th', th' ≠ th → s.calls th' = .idle := fun th' => ho.deinit th th' (by rw [hj]; rfl)
  have hth : th ≠ .worker := by
    rintro rfl
    have := ha.foreign
    rw [hj] at this
    cases this
  rcases works_or_waits ha hw with h | hwait
  · exact h
  · exfalso
    cases hwait with
    | event h hnone =>
      have hcount : s.eventCount ≠ 0 := by
        rcases ha.woken th hj with h' | h' | h'
        · exact absurd h' hw
        · rw [h] at h'
          cases h'
        · exact h'
      obtain ⟨p, ps, hp, hready⟩ := ha.ready (hs hw) (by rw [h]; rfl)
      have hquiet := hnone p (by rw [hp]; exact List.mem_cons_self)
      rw [hready, if_neg hcount] at hquiet
      cases hquiet
    | @lock _ i th' h hlock =>
      rcases hl i th' hlock with ⟨-, h'⟩ | ⟨h', -⟩
      · rw [h] at h'
        cases h'
      · rcases eq_or_ne th' th with rfl | hn
        · rw [hj] at h'
          cases h'
        · rw [hidle th' hn] at h'
          cases h'
    | callback _ hc => exact hc (hidle _ hth.symm)

/-- **There is no deadlock.** A call that cannot make a step waits for the worker, and the worker, or the call its
callback makes, can; a worker that has not exited and cannot make a step waits for the call of its callback, for an
uninstall by a client that holds a lock, and these can make a step, or it polls and nothing is ready. -/
theorem no_deadlock (hr : (system n m).Reach Linear s) :
    (∀ th, s.calls th ≠ .idle → s.Steps th ∨ s.Works ∨ s.Steps .worker) ∧
    (s.worker ≠ .exited → s.Works ∨ s.Steps .worker ∨
      (∃ k t, (s.calls (.client k)).locks = some t ∧ s.Steps (.client k)) ∨
      s.worker = .poll ∧ ∀ p ∈ s.pfds, s.ready p.fd = .none) := by
  have hl := held_of_reach hr
  have ho := own_of_reach hr
  have ha := awake_of_reach hr
  have hs := signalled_of_reach hr
  constructor
  · intro th hc
    rcases steps_or_blocks hc with h | hb
    · exact .inl h
    · right
      cases hb with
      | lock h _ hlock => exact works_of_locked hl ho ha (hl.inner ho h hlock)
      | join h hw => exact .inl (works_of_join hl ho ha hs h hw)
  · intro hw
    rcases works_or_waits ha hw with h | hwait
    · exact .inl h
    · right
      cases hwait with
      | event h hnone => exact .inr (.inr ⟨h, hnone⟩)
      | callback _ hc => exact .inl (steps_worker hl ho ha hc)
      | @lock _ i th h hlock =>
        right
        left
        rcases hl i th hlock with ⟨-, h'⟩ | ⟨h', -⟩
        · rw [h] at h'
          cases h'
        · have hc : s.calls th ≠ .idle := by
            intro e
            rw [e] at h'
            cases h'
          cases th with
          | worker =>
            have := inside_of_reach hr hc
            rw [h] at this
            cases this
          | client k =>
            refine ⟨k, i, h', (steps_or_blocks hc).resolve_right fun hb => ?_⟩
            cases hb with
            | lock e =>
              rw [e] at h'
              cases h'
            | join e =>
              rw [e] at h'
              cases h'

/-- A client uninstalls a timer during its callback. -/
def uninstallMeets : List (Act 1 1) :=
  let c : Thread 1 := .client 0
  [Act.call c (.install (some 7) 0), .step c .ok, .step c .ok, .step c (.fd 4), .step c .ok, .step c .ok,
    .call c (.restart 0 0), .step c .ok, .step c .ok, .step c .ok, .step c .ok] ++ List.replicate 7 (Act.work .ok) ++
  [Act.tick 1, .expire 4] ++ List.replicate 17 (Act.work .ok) ++ [Act.call c (.uninstall 0)]

theorem no_deadlock_run : ∃ s : Sys 1 1, (callStep s (.client 0) .ok).isNone = true ∧
    (s.Steps (.client 0) ∨ s.Works ∨ s.Steps .worker) := by
  obtain ⟨s, hr, hnone, hc⟩ := Lts.Reach.run (M := system 1 1) (P := Linear)
    (Q := fun s => (callStep s (.client 0) .ok).isNone = true ∧ s.calls (.client 0) ≠ .idle) (s := ctxInit 1 1 3)
    ⟨3, by decide, rfl⟩ uninstallMeets (by decide)
  exact ⟨s, hnone, (no_deadlock hr).1 _ hc⟩

end Gabs.Timer.Posix
