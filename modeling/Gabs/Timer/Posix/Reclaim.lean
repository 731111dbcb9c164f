import Gabs.Timer.Posix.Ownership

/-!
# The POSIX timer: uninstalled slots are reclaimed

- `Worker.revisits`: the worker will look at a slot again before it blocks in `poll`;
- `Reclaiming`: every slot with `BIT_ZOMBIE` is revisited, or the eventfd wakes the worker;
- `zombies_reclaimed`: where every `mask_set(BIT_ZOMBIE)` is seen by the worker, nothing is left of an uninstalled timer
  once the worker blocks; `zombie_left`: the bit is set after the trigger, so the worker may block before it sees it.
-/

namespace Gabs.Timer.Posix

open Gabs.Lib

variable {n m : Nat}

/-- The worker tests `BIT_ZOMBIE` of slot `i`, or cleans it, before it polls. -/
def Worker.revisits (i : Fin n) : Worker n → Bool
  | .prepare k p => decide (k < i) ||
      decide (k = i) && decide (p = .testUsed ∨ p = .testZombie ∨ p = .close ∨ p = .reset)
  | .poll => false
  | _ => true

/-- The worker will see `BIT_ZOMBIE` where it is set: it is on its way to the slot or the eventfd is readable. -/
def Announced (s : Sys n m) : Act n m → Prop
  | .step th _ => ∀ t, s.calls th = .uninstall t .zombie → 0 < s.eventCount ∨ s.worker.revisits t = true
  | _ => True

instance (s : Sys n m) (a : Act n m) : Decidable (Announced s a) :=
  match a with
  | .step .. => inferInstanceAs (Decidable (∀ _, _ → _))
  | .work _ | .call .. | .expire _ | .tick _ => instDecidableTrue

/-- **No zombie is forgotten.** -/
def Reclaiming (s : Sys n m) : Prop :=
  ∀ i, (s.state i).has .zombie = true → 0 < s.eventCount ∨ s.worker.revisits i = true

theorem revisits_prepareFrom {i : Fin n} {k : Nat} (h : k ≤ i) : (prepareFrom n k).revisits i = true := by
  unfold prepareFrom
  rw [dif_pos (by omega)]
  rcases Nat.lt_or_eq_of_le h with h | h
  · simp [Worker.revisits, Fin.lt_def, h]
  · simp only [Worker.revisits, Bool.or_eq_true, decide_eq_true_eq, Bool.and_eq_true]
    exact .inr ⟨Fin.ext h, .inl trivial⟩

theorem revisits_findFrom (i : Fin n) (j k : Nat) : (findFrom n j k).revisits i = true := by
  unfold findFrom; split <;> rfl

/-- From slot `k` the worker goes on to the next slot. -/
theorem revisits_next {i k : Fin n} {p : Prepare} (h : (Worker.prepare k p).revisits i = true) (hk : k ≠ i) :
    (prepareFrom n (k + 1)).revisits i = true := by
  apply revisits_prepareFrom
  simp only [Worker.revisits, hk, decide_false, Bool.false_and, Bool.or_false, decide_eq_true_eq] at h
  exact h

variable {s s' : Sys n m}

/-- The worker does not miss a zombie on its way. -/
theorem WorkMove.revisits {w : Worker n} (h : WorkMove s w) {i : Fin n} (hz : (s.state i).has .zombie = true)
    (hu : (s.state i).has .used = true) (hi : s.worker.revisits i = true) : w.revisits i = true := by
  cases h with
  | exit | pollErr | batchEnd | quiet | ready | valid | found | noCb | enter | fire | skip | ret => rfl
  | invalid | other => exact revisits_findFrom ..
  | @unused k hw h =>
    rw [hw] at hi
    exact revisits_next hi (fun e => by subst e; simp [hu] at h)
  | @alive k hw h =>
    rw [hw] at hi
    have hk : k ≠ i := fun e => by subst e; simp [hz] at h
    simpa [Worker.revisits, hk] using hi
  | used hw | zombie hw =>
    rw [hw] at hi
    simp_all [Worker.revisits]
  | active hw | inactive hw =>
    rw [hw] at hi
    simp_all [Worker.revisits]
  | noCas hw =>
    rw [hw] at hi
    have hlt := hi
    simp only [Worker.revisits] at hlt
    exact revisits_next hi (by rintro rfl; simp at hlt)

/-- A step that sets no `BIT_ZOMBIE`, takes nothing from the eventfd and leaves the worker where it is. -/
theorem Reclaiming.frame (hi : Reclaiming s)
    (h1 : ∀ i, (s'.state i).has .zombie = true → (s.state i).has .zombie = true)
    (h2 : s.eventCount ≤ s'.eventCount) (h3 : s'.worker = s.worker) : Reclaiming s' := by
  intro i hz
  rw [h3]
  exact (hi i (h1 i hz)).imp_left fun h => lt_of_lt_of_le h h2

/-- A step of the worker that sets no `BIT_ZOMBIE`, and the slots it leaves behind. -/
theorem Reclaiming.moved (hi : Reclaiming s)
    (h1 : ∀ i, (s'.state i).has .zombie = true → (s.state i).has .zombie = true) (h2 : s'.eventCount = s.eventCount)
    (h3 : ∀ i, (s'.state i).has .zombie = true → s.worker.revisits i = true → s'.worker.revisits i = true) :
    Reclaiming s' := by
  intro i hz
  rw [h2]
  exact (hi i (h1 i hz)).imp_right (h3 i hz)

/-- One step of the system. -/
theorem Reclaiming.step {a : Act n m} (hi : Reclaiming s) (ho : Own s) (hp : Announced s a) (h : Move s a s') :
    Reclaiming s' := by
  cases h with
  | tick | expire | goto | done | taken | fill | create | createErr | initLock | errClose | settime | unLock | unUnlock
  | deinitExit | deinitEvent | deinitSkip | deinitClose | deinitMutex =>
    exact hi.frame (fun _ h => h) (le_refl _) rfl
  | enter hc hw he => subst he; exact hi.frame (by simp) (by simp) (by simp)
  | started | stopped | unStopped | deinitTrigger => exact hi.frame (fun _ h => h) (Nat.le_succ _) rfl
  | claim => exact hi.frame (has_of_update rfl (by simp [bitAlloc])) (le_refl _) rfl
  | errReset | deinitReset => exact hi.frame (has_of_update rfl (by simp)) (le_refl _) rfl
  | publish => exact hi.frame (has_of_update rfl (by simp [bitUsed])) (le_refl _) rfl
  | clear => exact hi.frame (has_of_update rfl (by simp [bitActive, bitSched])) (le_refl _) rfl
  | setSched => exact hi.frame (has_of_update rfl (by simp [bitSched])) (le_refl _) rfl
  | @zombie th r t hc =>
    intro i hz
    by_cases h : i = t
    · subst h; exact hp _ hc
    · refine hi i ?_
      simpa [Function.update_of_ne h] using hz
  | work h => exact hi.moved (fun _ h => h) rfl fun i hz hr => h.revisits hz (ho.used i hz) hr
  | pass hw => exact hi.moved (fun _ h => h) rfl fun i _ _ => revisits_prepareFrom (Nat.zero_le _)
  | pollEvent | pollTimers | eventRead | lock | unlock => exact fun _ _ => .inr rfl
  | clearActive => exact fun _ _ => .inr rfl
  | read =>
    refine fun i _ => .inr ?_
    rw [Sys.work_worker]
    split
    · exact revisits_findFrom ..
    · rfl
  | close hw => exact hi.moved (fun _ h => h) rfl fun i _ hr => by simpa [hw, Worker.revisits] using hr
  | @reset r k hw =>
    refine hi.moved (has_of_update rfl (by simp)) rfl fun i hz hr => ?_
    have hk : k ≠ i := by rintro rfl; simp at hz
    simpa [hw, Worker.revisits, hk] using hr
  | @deinitLock r k hw =>
    refine hi.moved (fun _ h => h) rfl fun i _ hr => ?_
    rw [hw] at hr
    exact revisits_next hr (by rintro rfl; simp [Worker.revisits] at hr)
  | cas hw hc =>
    exact hi.moved (has_of_update rfl (by simp [(has_of_maskCas hc).2])) rfl fun i _ hr => by
      simpa [hw, Worker.revisits] using hr
  | push hw => exact hi.moved (fun _ h => h) rfl fun i _ hr => by simpa [hw, Worker.revisits] using hr
  | @clearSched r k hw =>
    refine hi.moved (has_of_update rfl (by simp [bitSched])) rfl fun i _ hr => ?_
    rw [hw] at hr
    exact revisits_next hr (by rintro rfl; simp [Worker.revisits] at hr)

/-- **Zombies are not forgotten in any run that announces them.** -/
theorem reclaiming_of_reach (hr : (system n m).Reach (fun s a => Linear s a ∧ Announced s a) s) : Reclaiming s := by
  refine hr.invariant ?_ fun s a s' hr hi hp h => ?_
  · rintro s ⟨fd, -, rfl⟩ i hz
    simp [ctxInit] at hz
  · exact hi.step (own_of_reach (hr.mono fun _ _ h => h.1)) hp.2 (step_move h)

/-- **Uninstalled slots are reclaimed**: where every `mask_set(BIT_ZOMBIE)` is seen by the worker, once the worker
blocks in `poll` and no call is in progress every slot is free or holds an installed timer. -/
theorem zombies_reclaimed (hr : (system n m).Reach (fun s a => Linear s a ∧ Announced s a) s)
    (hw : s.worker = .poll) (hc : s.eventCount = 0) (hq : ∀ th, s.calls th = .idle) (i : Fin n) :
    (s.state i).has .zombie = false ∧ ((s.state i).has .alloc = true → s.Live i) := by
  have hz : (s.state i).has .zombie = false := by
    cases h : (s.state i).has .zombie
    · rfl
    · rcases reclaiming_of_reach hr i h with h | h
      · omega
      · simp [hw, Worker.revisits] at h
  refine ⟨hz, fun ha => ⟨?_, hz, fun th => by simp [hq th, Call.removes]⟩⟩
  cases hu : (s.state i).has .used
  · obtain ⟨th, hth⟩ := (own_of_reach (hr.mono fun _ _ h => h.1)).owner i ha hu
    simp [hq th, Call.claims] at hth
  · rfl

/-- A timer is installed and uninstalled, and the worker makes two passes. -/
def reclaimRun : List (Act 1 1) :=
  let c : Thread 1 := .client 0
  [.call c (.install none 0), .step c .ok, .step c .ok, .step c (.fd 4), .step c .ok, .step c .ok,
    .call c (.uninstall 0), .step c .ok, .step c .ok, .step c .ok, .step c .ok, .step c .ok, .step c .ok,
    .work .ok, .work .ok, .work .ok, .work .ok, .work .ok, .work .ok, .work .ok, .work .ok, .work .ok, .work .ok]

theorem zombies_reclaimed_run : ∃ s : Sys 1 1, s.worker = .poll ∧ s.eventCount = 0 ∧
    (s.state 0).has .zombie = false ∧ ((s.state 0).has .alloc = true → s.Live 0) := by
  obtain ⟨s, hr, hw, hc, hq⟩ := Lts.Reach.run (M := system 1 1) (P := fun s a => Linear s a ∧ Announced s a)
    (Q := fun s => s.worker = .poll ∧ s.eventCount = 0 ∧ ∀ th, s.calls th = .idle) ⟨3, by decide, rfl⟩ reclaimRun
    (by decide)
  exact ⟨s, hw, hc, zombies_reclaimed hr hw hc hq 0⟩

/-- A timer is installed and uninstalled; between the trigger and the `mask_set(BIT_ZOMBIE)` the worker makes a pass. -/
def lateZombie : List (Act 1 1) :=
  let c : Thread 1 := .client 0
  [.call c (.install none 0), .step c .ok, .step c .ok, .step c (.fd 4), .step c .ok, .step c .ok,
    .call c (.uninstall 0), .step c .ok, .step c .ok, .step c .ok, .step c .ok, .step c .ok,
    .work .ok, .work .ok, .work .ok, .work .ok, .work .ok, .work .ok, .work .ok, .work .ok, .work .ok, .work .ok,
    .work .ok, .work .ok, .step c .ok]

/-- **A zombie is left**: the worker blocks, no call is in progress, and the slot is still taken. -/
theorem zombie_left : ∃ s : Sys 1 1, (system 1 1).Reach Serial s ∧ s.worker = .poll ∧ s.eventCount = 0 ∧
    (∀ th, s.calls th = .idle) ∧ (s.state 0).has .zombie = true :=
  Lts.Reach.run ⟨3, by decide, rfl⟩ lateZombie (by decide)

end Gabs.Timer.Posix
