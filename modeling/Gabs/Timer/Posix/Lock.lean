import Gabs.Timer.Posix.Ownership

/-!
# The POSIX timer: the lock of a fresh timer

- `LockLog`: a history of the installs and of the last `gabs_mutex_init` or `gabs_mutex_deinit` on each lock;
- `Unhurried`: the worker's `gabs_mutex_deinit` of a slot comes before the slot is installed again;
- `lock_survives`: then the lock of an installed timer is the one its install made; `lock_lost`: the slot can be
  installed as soon as its word is reset, which the worker does before it deinitializes the lock.
-/

namespace Gabs.Timer.Posix

open Gabs.Lib

variable {n m : Nat}

/-- Installs are numbered in the order in which they claim a slot. `inst` is the last install of a slot, `init` the
install that made the last `gabs_mutex_init` on its lock, or nothing if a `gabs_mutex_deinit` was the last. -/
structure LockLog (n : Nat) where
  next : Nat
  inst : Fin n → Nat
  init : Fin n → Option Nat

def LockLog.empty : LockLog n := ⟨0, fun _ => 0, fun _ => none⟩

/-- An install has claimed slot `i`. -/
def LockLog.claim (l : LockLog n) (i : Fin n) : LockLog n :=
  { l with next := l.next + 1, inst := Function.update l.inst i l.next }

/-- The install of slot `i` has initialized the lock. -/
def LockLog.initLock (l : LockLog n) (i : Fin n) : LockLog n :=
  { l with init := Function.update l.init i (some (l.inst i)) }

/-- The lock of slot `i` has been deinitialized. -/
def LockLog.deinitLock (l : LockLog n) (i : Fin n) : LockLog n := { l with init := Function.update l.init i none }

/-- The history after a step of the worker. -/
def LockLog.work (s : Sys n m) (l : LockLog n) : LockLog n :=
  match s.worker with
  | .prepare i .deinitLock => l.deinitLock i
  | _ => l

/-- The history after a step of a call. -/
def LockLog.call (s : Sys n m) (l : LockLog n) (r : Reply) : Call n → LockLog n
  | .install _ _ (.alloc i) => if (s.state i).has .alloc then l else l.claim i
  | .install _ _ (.initLock i) => if r = .ok then l.initLock i else l
  | .deinit (.deinitLock i) => l.deinitLock i
  | _ => l

/-- The history after one more step. -/
def LockLog.record (s : Sys n m) (a : Act n m) (_ : Sys n m) (l : LockLog n) : LockLog n :=
  match a with
  | .work _ => l.work s
  | .step th r => l.call s r (s.calls th)
  | _ => l

/-- The system with its lock history. -/
def locks (n m : Nat) : Lts (Sys n m × LockLog n) (Act n m) := (system n m).record .empty LockLog.record

/-- The slot whose install is about to set `BIT_USED`. -/
def Call.publishes : Call n → Option (Fin n)
  | .install _ _ (.publish i) => some i
  | _ => none

/-- The worker is in time: it deinitializes the lock of a slot before a new install of the slot initializes it, or
after the uninstall of that timer. -/
def Unhurried (s : Sys n m) : Act n m → Prop
  | .work _ => ∀ i, s.worker = .prepare i .deinitLock →
      ((s.state i).has .used = true → (s.state i).has .zombie = true) ∧ ∀ th, (s.calls th).publishes ≠ some i
  | _ => True

/-! ## The invariant -/

/-- **The lock history agrees with the state**, and installed timers have the lock of their install. -/
structure LockLog.Ok (s : Sys n m) (l : LockLog n) : Prop where
  agree : ∀ i, (s.lock i).init = (l.init i).isSome
  published : ∀ th i, (s.calls th).publishes = some i → l.init i = some (l.inst i)
  installed : ∀ i, (s.state i).has .used = true → (s.state i).has .zombie = false → l.init i = some (l.inst i)

variable {s s' : Sys n m} {l l' : LockLog n}

/-- A step on the locks, seen from one slot that an install has just initialized or that holds a timer. -/
theorem LockLog.Ok.of_slots (hi : l.Ok s) {a : Act n m} (h : Move s a s')
    (ha : ∀ i, (s'.lock i).init = (l'.init i).isSome)
    (hp : ∀ th i, (s'.calls th).publishes = some i → (s.calls th).publishes = some i ∨ l'.init i = some (l'.inst i))
    (hl : ∀ i, l.init i = some (l.inst i) → (s.state i).has .used = true ∧ (s.state i).has .zombie = false ∨
      (∃ th, (s.calls th).publishes = some i) → l'.init i = some (l'.inst i)) : l'.Ok s' := by
  refine ⟨ha, fun th i hc => ?_, fun i hu hz => ?_⟩
  · rcases hp th i hc with h1 | h1
    · exact hl i (hi.published th i h1) (.inr ⟨th, h1⟩)
    · exact h1
  · rcases h.installed hu hz with ⟨h1, h2⟩ | ⟨th, r, cb, arg, -, h1⟩
    · exact hl i (hi.installed i h1 h2) (.inl ⟨h1, h2⟩)
    · have h1 : (s.calls th).publishes = some i := by rw [h1]; rfl
      exact hl i (hi.published th i h1) (.inr ⟨th, h1⟩)

/-- A step that initializes and deinitializes no lock. -/
theorem LockLog.Ok.keep (hi : l.Ok s) {a : Act n m} (h : Move s a s')
    (ha : ∀ i, (s'.lock i).init = (s.lock i).init)
    (hp : ∀ th i, (s'.calls th).publishes = some i → (s.calls th).publishes = some i) : l.Ok s' :=
  hi.of_slots h (fun i => (ha i).trans (hi.agree i)) (fun th i hc => .inl (hp th i hc)) fun _ h _ => h

/-- An install publishes after it has initialized the lock. -/
theorem Move.publishing {th th' : Thread m} {r : Reply} (h : Move s (.step th r) s') {i : Fin n}
    (hc : (s'.calls th').publishes = some i) : (s.calls th').publishes = some i ∨
      r = .ok ∧ ∃ cb arg, s.calls th = .install cb arg (.initLock i) := by
  rcases eq_or_ne th' th with rfl | hn
  · cases h with
    | initLock h =>
      rw [Sys.goto_calls, Function.update_self] at hc
      cases hc
      exact .inr ⟨rfl, _, _, h⟩
    | goto hm =>
      rw [Sys.goto_calls, Function.update_self] at hc
      cases hm <;> cases hc
    | clear h | settime h =>
      rw [Sys.goto_calls, Function.update_self] at hc
      generalize s.calls th' = c at h
      cases h <;> cases hc
    | taken | deinitEvent | deinitSkip | deinitMutex =>
      simp only [allocFrom_calls, deinitFrom_calls, Function.update_self, allocCall, deinitCall] at hc
      split at hc <;> cases hc
    | done | errReset | publish | started | stopped | zombie =>
      rw [Sys.done_calls, Function.update_self] at hc
      cases hc
    | claim | fill | create | createErr | errClose | setSched | unStopped | unLock | unUnlock | deinitExit
    | deinitTrigger | deinitClose | deinitReset =>
      rw [Sys.goto_calls, Function.update_self] at hc
      cases hc
  · exact .inl (by rw [← h.frame_others.2 th' hn]; exact hc)

theorem claims_of_publishes {c : Call n} {i : Fin n} (h : c.publishes = some i) : c.claims = some i := by
  unfold Call.publishes at h
  split at h <;> first | exact h | cases h

theorem init_of_lock {lk lk' : Mutex m} {th : Thread m} (h : lk.lock th = some lk') : lk'.init = lk.init := by
  unfold Mutex.lock at h
  split at h
  · split at h <;> cases h
    rfl
  · cases h
    rfl

theorem init_of_update {i : Fin n} {lk : Mutex m} (hs : s'.lock = Function.update s.lock i lk)
    (hl : lk.init = (s.lock i).init) (k : Fin n) : (s'.lock k).init = (s.lock k).init := by
  rw [hs, Function.update_apply]
  split
  · rename_i e; rw [e]; exact hl
  · rfl

/-- Deinitializing a lock that no installed timer and no install counts on. -/
theorem LockLog.Ok.deinitLock (hi : l.Ok s) {a : Act n m} (h : Move s a s') {i : Fin n}
    (hs : s'.lock = Function.update s.lock i ⟨false, none⟩)
    (h1 : (s.state i).has .used = true → (s.state i).has .zombie = true)
    (h2 : ∀ th, (s.calls th).publishes ≠ some i)
    (hp : ∀ th k, (s'.calls th).publishes = some k → (s.calls th).publishes = some k) : (l.deinitLock i).Ok s' := by
  refine hi.of_slots h (fun k => ?_) (fun th k hc => .inl (hp th k hc)) fun k hl hk => ?_
  · rw [hs]
    show _ = (Function.update l.init i none k).isSome
    rcases eq_or_ne k i with rfl | hn
    · simp
    · rw [Function.update_of_ne hn, Function.update_of_ne hn]
      exact hi.agree k
  · have hn : k ≠ i := by
      rintro rfl
      rcases hk with ⟨hu, hz⟩ | ⟨th, hc⟩
      · rw [h1 hu] at hz
        cases hz
      · exact h2 th hc
    exact (Function.update_of_ne hn ..).trans hl

/-- One step of the worker. -/
theorem LockLog.Ok.work {r : Reply} (hi : l.Ok s) (hp : Unhurried s (.work r)) (h : Move s (.work r) s') :
    (l.work s).Ok s' := by
  have hpub : ∀ th i, (s'.calls th).publishes = some i → (s.calls th).publishes = some i := by
    rw [h.frame_calls]
    exact fun _ _ h => h
  have hkeep : (∀ i, s.worker ≠ .prepare i .deinitLock) → (∀ i, (s'.lock i).init = (s.lock i).init) →
      (l.work s).Ok s' := by
    intro hn hl
    have hr : l.work s = l := by
      unfold LockLog.work
      split
      · exact absurd ‹_› (hn _)
      · rfl
    rw [hr]
    exact hi.keep h hl hpub
  have h0 := h
  cases h with
  | @deinitLock _ i hw =>
    have hr : l.work s = l.deinitLock i := by simp only [LockLog.work, hw]
    rw [hr]
    exact hi.deinitLock h0 rfl (hp i hw).1 (hp i hw).2 hpub
  | work hm => exact hkeep (fun i e => by cases hm <;> simp_all) fun _ => rfl
  | lock hw hj hl =>
    exact hkeep (by simp [hw]) (init_of_update rfl (init_of_lock hl))
  | unlock hw => exact hkeep (by simp [hw]) (init_of_update rfl rfl)
  | pass hw | close hw | reset hw | cas hw | push hw | clearSched hw | pollEvent hw | pollTimers hw | eventRead hw
  | read hw | clearActive hw => exact hkeep (by simp [hw]) fun _ => rfl

/-- One step of a call. -/
theorem LockLog.Ok.call {th : Thread m} {r : Reply} (hi : l.Ok s) (ho : Own s) (hcl : Closing s)
    (h : Move s (.step th r) s') : (l.call s r (s.calls th)).Ok s' := by
  have hkeep : l.call s r (s.calls th) = l → (∀ cb arg i, s.calls th = .install cb arg (.initLock i) → r ≠ .ok) →
      (∀ i, (s'.lock i).init = (s.lock i).init) → (l.call s r (s.calls th)).Ok s' := by
    intro hr hn hl
    rw [hr]
    refine hi.keep h hl fun th' i hc => ?_
    rcases h.publishing hc with h1 | ⟨h1, cb, arg, h2⟩
    · exact h1
    · exact absurd h1 (hn cb arg i h2)
  have h0 := h
  cases h with
  | goto hm => cases hm <;> exact hkeep (by simp [LockLog.call, *]) (by simp_all) fun _ => rfl
  | done hm => cases hm <;> exact hkeep (by simp [LockLog.call, *]) (by simp_all) fun _ => rfl
  | clear hm =>
    generalize s.calls th = c at hm hkeep ⊢
    cases hm <;> exact hkeep rfl nofun fun _ => rfl
  | settime hm =>
    generalize s.calls th = c at hm hkeep ⊢
    cases hm <;> exact hkeep rfl nofun fun _ => rfl
  | taken hc ha => exact hkeep (by simp [LockLog.call, hc, ha]) (by simp [hc]) fun _ => rfl
  | fill hc | create hc | createErr hc | errClose hc | errReset hc | publish hc | setSched hc | started hc | stopped hc
  | unStopped hc | zombie hc | deinitExit hc | deinitTrigger hc | deinitEvent hc | deinitSkip hc | deinitClose hc
  | deinitReset hc => exact hkeep (by rw [hc]; rfl) (by simp [hc]) fun _ => rfl
  | unLock hc _ hl => exact hkeep (by rw [hc]; rfl) (by simp [hc]) (init_of_update rfl (init_of_lock hl))
  | unUnlock hc => exact hkeep (by rw [hc]; rfl) (by simp [hc]) (init_of_update rfl rfl)
  | @claim _ _ cb arg i hc ha =>
    have hr : l.call s r (s.calls th) = l.claim i := by simp [LockLog.call, hc, ha]
    rw [hr]
    refine hi.of_slots h0 hi.agree (fun th' k e => ?_) fun k hl hk => ?_
    · rcases h0.publishing e with h1 | ⟨-, _, _, h1⟩
      · exact .inl h1
      · rw [hc] at h1; cases h1
    · have hn : k ≠ i := by
        rintro rfl
        obtain ⟨h1, -, h2, -⟩ := ho.free ha
        rcases hk with ⟨hu, -⟩ | ⟨th', e⟩
        · rw [h2] at hu; cases hu
        · exact h1 th' (claims_of_publishes e)
      show l.init k = some (Function.update l.inst i l.next k)
      rw [Function.update_of_ne hn]
      exact hl
  | @initLock _ cb arg i hc =>
    have hr : l.call s .ok (s.calls th) = l.initLock i := by simp [LockLog.call, hc]
    have hself : (l.initLock i).init i = some ((l.initLock i).inst i) := Function.update_self ..
    rw [hr]
    refine hi.of_slots h0 (fun k => ?_) (fun th' k e => ?_) fun k hl _ => ?_
    · show (Function.update s.lock i ⟨true, none⟩ k).init = (Function.update l.init i (some (l.inst i)) k).isSome
      rcases eq_or_ne k i with rfl | hn
      · simp
      · rw [Function.update_of_ne hn, Function.update_of_ne hn]
        exact hi.agree k
    · rcases h0.publishing e with h1 | ⟨-, _, _, h1⟩
      · exact .inl h1
      · rw [hc] at h1; cases h1; exact .inr hself
    · rcases eq_or_ne k i with rfl | hn
      · exact hself
      · exact (Function.update_of_ne hn ..).trans hl
  | @deinitMutex _ _ i hc =>
    have hr : l.call s r (s.calls th) = l.deinitLock i := by rw [hc]; rfl
    have hu := hcl th i false (by rw [hc]; rfl)
    have hid := (ho.alone th (by rw [hc]; rfl)).2
    rw [hr]
    refine hi.deinitLock h0 rfl (by simp [hu]) (fun th' e => ?_) fun th' k e => ?_
    · rcases eq_or_ne th' th with rfl | hn
      · rw [hc] at e; cases e
      · rw [hid th' hn] at e; cases e
    · rcases h0.publishing e with h1 | ⟨-, _, _, h1⟩
      · exact h1
      · rw [hc] at h1; cases h1

/-- One step of the system. -/
theorem LockLog.Ok.step {a : Act n m} (hi : l.Ok s) (ho : Own s) (hcl : Closing s) (hp : Unhurried s a)
    (h : Move s a s') : (LockLog.record s a s' l).Ok s' := by
  cases a with
  | work r => exact hi.work hp h
  | step th r => exact hi.call ho hcl h
  | tick | expire => exact hi.keep h (by cases h; exact fun _ => rfl) (by cases h; exact fun _ _ h => h)
  | call th op =>
    refine hi.keep h (by cases h with | enter _ _ he => subst he; simp) fun th' i hc => ?_
    cases h with
    | enter _ _ he =>
      subst he
      rw [enter_calls, Function.update_apply] at hc
      split at hc
      · have := claims_of_publishes hc
        rw [first_claims] at this
        cases this
      · exact hc

/-- **Fresh locks in every run** in which the worker is in time. -/
theorem lockOk_of_reach {x : Sys n m × LockLog n}
    (hr : (locks n m).Reach (fun x a => Linear x.1 a ∧ Unhurried x.1 a) x) : x.2.Ok x.1 := by
  refine hr.record_invariant (I := fun s l => LockLog.Ok s l) ?_ fun s a s' l hr hi hp h => ?_
  · rintro s ⟨fd, -, rfl⟩
    exact ⟨fun _ => rfl, nofun, by simp [ctxInit]⟩
  · have hs := (hr.mono fun _ _ h => h.1).fst (P := Linear)
    exact hi.step (own_of_reach hs) (closing_of_reach hs) hp.2 (step_move h)

/-- **A fresh timer's lock survives**: from the `mask_set(BIT_USED)` of the install to the `mask_set(BIT_ZOMBIE)` of
the timer's uninstall, the last step on its lock was the `gabs_mutex_init` of that install. -/
theorem lock_survives {x : Sys n m × LockLog n}
    (hr : (locks n m).Reach (fun x a => Linear x.1 a ∧ Unhurried x.1 a) x) {i : Fin n}
    (hu : (x.1.state i).has .used = true) (hz : (x.1.state i).has .zombie = false) :
    x.2.init i = some (x.2.inst i) ∧ (x.1.lock i).init = true := by
  have hok := lockOk_of_reach hr
  have h := hok.installed i hu hz
  exact ⟨h, by rw [hok.agree, h]; rfl⟩

/-- The steps of a worker that cleans slot 0 up to its lock, and of an install that succeeds. -/
def cleanUp : List (Act 1 1) := [.work .ok, .work .ok, .work .ok, .work .ok, .work .ok]

def freshInstall (d : Int) : List (Act 1 1) :=
  let c : Thread 1 := .client 0
  [.call c (.install none 0), .step c .ok, .step c .ok, .step c (.fd d), .step c .ok, .step c .ok]

def plainUninstall : List (Act 1 1) :=
  let c : Thread 1 := .client 0
  [.call c (.uninstall 0), .step c .ok, .step c .ok, .step c .ok, .step c .ok, .step c .ok, .step c .ok]

instance (s : Sys n m) (a : Act n m) : Decidable (Unhurried s a) :=
  match a with
  | .work _ => inferInstanceAs (Decidable (∀ _, _ → _))
  | .call .. | .step .. | .expire _ | .tick _ => instDecidableTrue

theorem lock_survives_run : ∃ x : Sys 1 1 × LockLog 1, x.1.Live 0 ∧ x.2.inst 0 = 1 ∧ x.2.init 0 = some (x.2.inst 0) ∧
    (x.1.lock 0).init = true := by
  obtain ⟨x, hr, hl, hi⟩ := Lts.Reach.run (M := locks 1 1) (P := fun x a => Linear x.1 a ∧ Unhurried x.1 a)
    (Q := fun x => x.1.Live 0 ∧ x.2.inst 0 = 1) (s := (ctxInit 1 1 3, .empty)) ⟨⟨3, by decide, rfl⟩, rfl⟩
    (freshInstall 4 ++ plainUninstall ++ cleanUp ++ [.work .ok] ++ freshInstall 5) (by decide)
  obtain ⟨h1, h2⟩ := lock_survives hr hl.1 hl.2.1
  exact ⟨x, hl, hi, h1, h2⟩

/-- **A fresh lock is lost**: the slot is installed again between the reset of its word and the `gabs_mutex_deinit`. -/
theorem lock_lost : ∃ x : Sys 1 1 × LockLog 1, (locks 1 1).Reach (fun x a => Serial x.1 a) x ∧ x.1.Live 0 ∧
    x.2.init 0 = none ∧ (x.1.lock 0).init = false :=
  Lts.Reach.run (s := (ctxInit 1 1 3, .empty)) ⟨⟨3, by decide, rfl⟩, rfl⟩
    (freshInstall 4 ++ plainUninstall ++ cleanUp ++ freshInstall 5 ++ [.work .ok]) (by decide)

end Gabs.Timer.Posix
