import Gabs.Timer.Posix.Pledge
import Gabs.Timer.Posix.Progress

/-!
# The POSIX timer: what the worker polls for

- `Noticed`: a timer that was scheduled behind the back of the pass has triggered the eventfd, or is about to;
- `Pushed`: every active timer that the pass is through with has its timerfd in `pfds`.
-/

namespace Gabs.Timer.Posix

open Gabs.Lib

variable {n m : Nat} {s s' : Sys n m}

/-- The pass of the worker is through with slot `t`. -/
def Worker.past (t : Fin n) : Worker n → Bool
  | .prepare k p => decide (t < k) || decide (t = k) && decide (p = .deinitLock)
  | .poll | .service _ _ => true
  | _ => false

/-- **A timer that is scheduled after the pass has been at its slot wakes the worker up.** -/
def Noticed (s : Sys n m) : Prop := ∀ t, s.worker.past t = true → (s.state t).has .sched = true →
  s.eventCount ≠ 0 ∨ ∃ th, (s.calls th).promises = some t

/-- **The timerfd of an active timer is polled.** -/
def Pushed (s : Sys n m) : Prop := ∀ t, s.worker.past t = true ∨ s.worker = .prepare t .clearSched →
  (s.state t).has .active = true → ∃ pfd ∈ s.pfds, pfd.fd = s.fd t

theorem past_prepareFrom {t : Fin n} {k : Nat} (h : (prepareFrom n k).past t = true) : t < k := by
  unfold prepareFrom at h
  split at h
  · simpa [Worker.past, Fin.lt_def] using h
  · omega

/-- From slot `i` the pass gets past the slots before it, and past `i` itself. -/
theorem past_next {t i : Fin n} {p : Prepare} (h : (prepareFrom n (i + 1)).past t = true) :
    (Worker.prepare i p).past t = true ∨ t = i := by
  have hlt := past_prepareFrom h
  rcases Nat.lt_or_eq_of_le (Nat.le_of_lt_succ hlt) with h' | h'
  · left
    simp [Worker.past, Fin.lt_def, h']
  · exact .inr (Fin.ext h')

/-- What a step of the worker means for a slot that the pass is then through with. -/
inductive Passes (s s' : Sys n m) (t : Fin n) : Prop
  | already : s.worker.past t = true → s'.eventCount = s.eventCount →
      (∀ pfd ∈ s.pfds, ∃ pfd' ∈ s'.pfds, pfd'.fd = pfd.fd) → Passes s s' t
  | quiet : s'.Quiet t → Passes s s' t
  | unused : (s.state t).has .used = false → s'.state = s.state → Passes s s' t
  | taken : s.worker = .prepare t .clearSched → (s'.state t).has .sched = false → s'.pfds = s.pfds → Passes s s' t

/-- **How the pass gets through with a slot.** -/
theorem Move.passes {r : Reply} (h : Move s (.work r) s') (hu : Untaken s) {t : Fin n}
    (hp : s'.worker.past t = true) : Passes s s' t := by
  have hsame : ∀ {i : Fin n} {p : Prepare} {q : Prepare}, s.worker = .prepare i p → s'.worker = .prepare i q →
      q ≠ .deinitLock → s.worker.past t = true := fun {i p q} hw hw' hq => by
    rw [hw'] at hp
    rw [hw]
    simp only [Worker.past, hq, decide_false, Bool.and_false, Bool.or_false, decide_eq_true_eq] at hp
    simp [Worker.past, hp]
  have hservice : ∀ {j : Nat} {p : Service n}, s.worker = .service j p → s.worker.past t = true := fun hw => by
    rw [hw]
    rfl
  have hrefl : ∀ pfd ∈ s.pfds, ∃ pfd' ∈ s.pfds, pfd'.fd = pfd.fd := fun pfd hm => ⟨pfd, hm, rfl⟩
  cases h with
  | work hm =>
    cases hm with
    | exit | pollErr | batchEnd => cases hp
    | @unused i hw h0 =>
      rcases past_next (p := .testUsed) hp with h' | rfl
      · exact .already (by rw [hw]; exact h') rfl hrefl
      · exact .unused h0 rfl
    | @noCas i hw h0 =>
      rcases past_next (p := .cas) hp with h' | rfl
      · exact .already (by rw [hw]; exact h') rfl hrefl
      · exact .quiet ⟨h0, hu _ hw⟩
    | used hw | zombie hw | alive hw | active hw | inactive hw =>
      exact .already (hsame hw rfl (by rintro ⟨⟩)) rfl hrefl
    | quiet hw | ready hw | valid hw | invalid hw | found hw | other hw | noCb hw | enter hw | fire hw
    | skip hw | ret hw =>
      exact .already (hservice hw) rfl hrefl
  | pass =>
    have := past_prepareFrom hp
    omega
  | close hw => exact .already (hsame hw rfl (by rintro ⟨⟩)) rfl hrefl
  | @reset _ i hw =>
    rcases eq_or_ne t i with rfl | hn
    · exact .quiet (quiet_of_zero (Function.update_self ..))
    · refine .already ?_ rfl hrefl
      rw [hw]
      simp only [Sys.work_worker, Worker.past, hn, decide_false, Bool.false_and, Bool.or_false] at hp
      simp [Worker.past, hn, of_decide_eq_true hp]
  | deinitLock hw =>
    refine .already ?_ rfl hrefl
    rw [hw]
    rcases past_next (p := .deinitLock) hp with h' | rfl
    · exact h'
    · simp [Worker.past]
  | cas hw => exact .already (hsame hw rfl (by rintro ⟨⟩)) rfl hrefl
  | push hw =>
    exact .already (hsame hw rfl (by rintro ⟨⟩)) rfl fun pfd hm => ⟨pfd, List.mem_append_left _ hm, rfl⟩
  | clearSched hw =>
    rcases past_next (p := .clearSched) hp with h' | rfl
    · exact .already (by rw [hw]; exact h') rfl hrefl
    · exact .taken hw (by simp [bitSched]) rfl
  | pollEvent => cases hp
  | pollTimers hw he =>
    subst he
    exact .already (by rw [hw]; rfl) rfl fun pfd hm => ⟨_, List.mem_map_of_mem hm, rfl⟩
  | eventRead => cases hp
  | read hw | lock hw | unlock hw | clearActive hw => exact .already (hservice hw) rfl hrefl

/-- A restart that has scheduled its timer triggers. -/
theorem Move.promised {th : Thread m} {r : Reply} (h : Move s (.step th r) s') {th' : Thread m} {t : Fin n}
    (hc : (s.calls th').promises = some t) : (s'.calls th').promises = some t ∨ s'.eventCount ≠ 0 := by
  rcases eq_or_ne th' th with rfl | hn
  · right
    cases hp : s.calls th' with
    | restart k us p =>
      rw [hp] at hc
      cases p with
      | trigger err =>
        cases h with
        | goto hm => cases hm <;> simp_all
        | done hm => cases hm <;> simp_all
        | clear hk | settime hk =>
          rw [hp] at hk
          cases hk
        | started => exact Nat.succ_ne_zero _
        | _ h => simp [hp] at h
      | clear | settime | setSched => cases hc
    | idle | install | uninstall | start | stop | active | deinit =>
      rw [hp] at hc
      cases hc
  · left
    rw [h.frame_others.2 th' hn]
    exact hc

/-- **One step.** -/
theorem Noticed.step {a : Act n m} (hi : Noticed s) (hf : Facts s) (hu : Untaken s) (h : Move s a s') :
    Noticed s' := by
  intro t hp hs
  cases a with
  | work r =>
    have hs0 : (s.state t).has .sched = true := by
      rcases h.sched_of hs with h0 | ⟨th, r', us, err, e, -⟩
      · exact h0
      · cases e
    cases h.passes hu hp with
    | already hp0 hc =>
      rw [h.frame_calls, hc]
      exact hi t hp0 hs0
    | quiet hq =>
      rw [hq.1] at hs
      cases hs
    | unused h0 =>
      have hlive := hf.blank.live hf.own hf.handles hf.stopped (fun hq => by rw [hq.1] at hs0; cases hs0)
      rw [h0] at hlive
      cases hlive.1
    | taken _ h1 =>
      rw [h1] at hs
      cases hs
  | step th r =>
    rw [(h.frame_worker (by simp)).1] at hp
    rcases h.sched_of hs with h0 | ⟨th', r', us, err, e, -, hc⟩
    · rcases hi t hp h0 with hcount | ⟨th', hc⟩
      · left
        have := h.triggers.1
        omega
      · exact (h.promised hc).symm.imp_right fun hc => ⟨th', hc⟩
    · exact .inr ⟨th', by rw [hc]; rfl⟩
  | call th op =>
    cases h with
    | enter hidle _ he =>
      subst he
      rw [enter_worker] at hp
      rw [enter_state] at hs
      rw [enter_eventCount, enter_calls]
      refine (hi t hp hs).imp_right fun hc => ?_
      obtain ⟨th', hc⟩ := hc
      refine ⟨th', ?_⟩
      rw [Function.update_of_ne]
      · exact hc
      · rintro rfl
        rw [hidle] at hc
        cases hc
  | expire | tick =>
    cases h
    exact hi t hp hs

theorem noticed_of_reach (hr : (system n m).Reach Serial s) : Noticed s := by
  refine hr.invariant ?_ fun s a s' hr hi _ h => hi.step (facts_of_reach hr) (untaken_of_reach hr) (step_move h)
  rintro s ⟨fd, -, rfl⟩ t h
  cases h

/-- **One step.** -/
theorem Pushed.step {a : Act n m} (hi : Pushed s) (hf : Facts s) (hu : Untaken s) (h : Move s a s') : Pushed s' := by
  intro t hp ha
  have hkeep : (s.state t).has .active = true → s'.fd t = s.fd t := fun h0 =>
    h.same_fd fun th hc => by
      have := (hf.blank th t hc).2
      rw [h0] at this
      cases this
  cases a with
  | work r =>
    rcases h.active_of ha with h0 | ⟨r', e, -, hw, -⟩
    · rw [hkeep h0]
      rcases hp with hp | hp
      · cases h.passes hu hp with
        | already hp0 _ hpfds =>
          obtain ⟨pfd, hm, hfd⟩ := hi t (.inl hp0) h0
          obtain ⟨pfd', hm', hfd'⟩ := hpfds pfd hm
          exact ⟨pfd', hm', hfd'.trans hfd⟩
        | quiet hq =>
          rw [hq.2] at ha
          cases ha
        | unused hu0 =>
          have hlive := hf.blank.live hf.own hf.handles hf.stopped (fun hq => by rw [hq.2] at h0; cases h0)
          rw [hu0] at hlive
          cases hlive.1
        | taken hw _ hpf =>
          rw [hpf]
          exact hi t (.inr hw) h0
      · cases h with
        | work hm =>
          rw [Sys.work_worker] at hp
          subst hp
          generalize hw : Worker.prepare t Prepare.clearSched = w at hm
          cases hm with
          | unused | noCas =>
            unfold prepareFrom at hw
            split at hw <;> cases hw
          | invalid | other =>
            unfold findFrom at hw
            split at hw <;> cases hw
          | _ => cases hw
        | push hw =>
          cases hp
          exact ⟨_, List.mem_append_right _ List.mem_cons_self, rfl⟩
        | pass | deinitLock | clearSched =>
          rw [Sys.work_worker, prepareFrom] at hp
          split at hp <;> cases hp
        | read =>
          rw [Sys.work_worker, findFrom] at hp
          split at hp
          · split at hp <;> cases hp
          · cases hp
        | close | reset | cas | pollEvent | pollTimers | eventRead | lock | unlock | clearActive => cases hp
    · rw [hw] at hp
      rcases hp with hp | hp
      · simp [Worker.past] at hp
      · cases hp
  | call | step | expire | tick =>
    obtain ⟨hw, hpf⟩ := h.frame_worker (by simp)
    rw [hw] at hp
    rcases h.active_of ha with h0 | ⟨r', e, -⟩
    · rw [hkeep h0, hpf]
      exact hi t hp h0
    · cases e

theorem pushed_of_reach (hr : (system n m).Reach Serial s) : Pushed s := by
  refine hr.invariant ?_ fun s a s' hr hi _ h => hi.step (facts_of_reach hr) (untaken_of_reach hr) (step_move h)
  rintro s ⟨fd, -, rfl⟩ t h
  rcases h with h | h <;> cases h

end Gabs.Timer.Posix
