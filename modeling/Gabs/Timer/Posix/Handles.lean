import Gabs.Timer.Posix.Ownership

/-!
# The POSIX timer: what the disciplines give

- `Handles`: under `Exclusive` a call is made on an installed timer, the uninstall of a timer is the only call on it,
  and a slot without `BIT_ALLOC` has no other bit (`handles_of_reach`);
- `SerialCalls`: under `Serial` a timer has at most one call (`serial_of_reach`).
-/

namespace Gabs.Timer.Posix

open Gabs.Lib

variable {n m : Nat}

/-- A call goes on with the timer it is made on, or leaves it. -/
def Call.Follows (c' c : Call n) : Prop :=
  c'.timer = none ∧ c'.removes = none ∨ c'.timer = c.timer ∧ c'.removes = c.removes

theorem Call.Follows.rfl {c : Call n} : c.Follows c := .inr ⟨Eq.refl _, Eq.refl _⟩

variable {s s' : Sys n m}

theorem follows_update {th : Thread m} {c : Call n} (h : c.Follows (s.calls th))
    (hs : s'.calls = Function.update s.calls th c) (th' : Thread m) : (s'.calls th').Follows (s.calls th') := by
  rw [hs, Function.update_apply]
  split
  · rename_i e; exact e ▸ h
  · exact .rfl

/-- Only an entry brings a call to a timer. -/
theorem Move.follows {a : Act n m} (h : Move s a s') (ha : ∀ th op, a ≠ .call th op) (th' : Thread m) :
    (s'.calls th').Follows (s.calls th') := by
  cases h with
  | tick | expire | work | pass | close | reset | deinitLock | cas | push | clearSched | pollEvent | pollTimers
  | eventRead | read | lock | unlock | clearActive => exact .rfl
  | enter hc => exact absurd rfl (ha _ _)
  | goto h =>
    have hk := h.keeps
    exact follows_update (.inr ⟨hk.2.2.2, hk.2.1⟩) rfl th'
  | done | errReset | publish | started | stopped | zombie =>
    exact follows_update (c := .idle) (.inl ⟨rfl, rfl⟩) rfl th'
  | taken => exact follows_update (.inl ⟨allocCall_timer .., allocCall_removes ..⟩) rfl th'
  | claim | fill | create | createErr | initLock | errClose | deinitExit | deinitTrigger | deinitClose | deinitReset =>
    exact follows_update (.inl ⟨rfl, rfl⟩) rfl th'
  | deinitEvent | deinitSkip | deinitMutex =>
    exact follows_update (.inl ⟨deinitCall_timer _, deinitCall_removes _⟩) rfl th'
  | setSched hc | unStopped hc | unLock hc | unUnlock hc =>
    exact follows_update (.inr (by rw [hc]; exact ⟨rfl, rfl⟩)) rfl th'
  | @clear th r t c hc =>
    generalize e : s.calls th = c' at hc
    cases hc <;> exact follows_update (.inr (by rw [e]; exact ⟨rfl, rfl⟩)) rfl th'
  | @settime th t spec c tf hc =>
    generalize e : s.calls th = c' at hc
    cases hc <;> exact follows_update (.inr (by rw [e]; exact ⟨rfl, rfl⟩)) rfl th'

/-! ## Exclusive uninstalls -/

/-- **Calls on timers.** -/
structure Handles (s : Sys n m) : Prop where
  live : ∀ th t, (s.calls th).timer = some t → (s.state t).has .used = true ∧ (s.state t).has .zombie = false
  alone : ∀ th th' t, (s.calls th).removes = some t → (s.calls th').timer = some t → th = th'
  zero : ∀ i, (s.state i).has .alloc = false → s.state i = 0

/-- A step in which no call comes to a timer, and the words of the timers with calls stay live. -/
theorem Handles.of_follows (hi : Handles s) (hf : ∀ th, (s'.calls th).Follows (s.calls th))
    (hl : ∀ th t, (s'.calls th).timer = some t → (s.state t).has .used = true → (s.state t).has .zombie = false →
      (s'.state t).has .used = true ∧ (s'.state t).has .zombie = false)
    (hz : ∀ i, (s'.state i).has .alloc = false → s'.state i = 0) : Handles s' := by
  have ht : ∀ th t, (s'.calls th).timer = some t → (s.calls th).timer = some t := by
    intro th t h
    rcases hf th with ⟨h1, -⟩ | ⟨h1, -⟩
    · rw [h1] at h; cases h
    · rw [← h1, h]
  have hr : ∀ th t, (s'.calls th).removes = some t → (s.calls th).removes = some t := by
    intro th t h
    rcases hf th with ⟨-, h1⟩ | ⟨-, h1⟩
    · rw [h1] at h; cases h
    · rw [← h1, h]
  refine ⟨fun th t h => ?_, fun th th' t h h' => hi.alone th th' t (hr th t h) (ht th' t h'), hz⟩
  obtain ⟨h1, h2⟩ := hi.live th t (ht th t h)
  exact hl th t h h1 h2

/-- The word of one slot changes. -/
theorem Handles.of_update (hi : Handles s) {i : Fin n} {w : Word} (hf : ∀ th, (s'.calls th).Follows (s.calls th))
    (hs : s'.state = Function.update s.state i w)
    (hl : (∃ th, (s'.calls th).timer = some i) → (s.state i).has .used = true → (s.state i).has .zombie = false →
      w.has .used = true ∧ w.has .zombie = false)
    (hz : w.has .alloc = false → w = 0) : Handles s' := by
  refine hi.of_follows hf (fun th t h hu hzb => ?_) (fun k hk => ?_)
  · rw [hs, Function.update_apply]
    split
    · rename_i e; subst e; exact hl ⟨th, h⟩ hu hzb
    · exact ⟨hu, hzb⟩
  · rw [hs, Function.update_apply] at hk ⊢
    split
    · rename_i e; rw [if_pos e] at hk; exact hz hk
    · rename_i e; rw [if_neg e] at hk; exact hi.zero k hk

/-- Clearing bits of a word. -/
theorem Handles.of_clear (hi : Handles s) {i : Fin n} {mask : Word}
    (hf : ∀ th, (s'.calls th).Follows (s.calls th))
    (hs : s'.state = Function.update s.state i (maskClear (s.state i) mask)) (h1 : mask.has .used = false)
    (h2 : mask.has .alloc = false) : Handles s' := by
  refine hi.of_update hf hs (fun _ hu hz => by simp [hu, hz, h1]) fun h => ?_
  simp only [has_maskClear, h2, Bool.not_false, Bool.and_true] at h
  rw [hi.zero i h]
  exact maskClear_zero mask

/-- A thread that is in no call enters a function. -/
theorem Handles.enter (hi : Handles s) {th : Thread m} {op : Op n}
    (hp : Exclusive s (.call th op)) : Handles (enter s th op) := by
  have hl : ∀ t, op.first.timer = some t → s.Live t := by
    intro t ht
    cases op with
    | uninstall t' => cases ht; exact hp.1.2
    | start | restart | stop | active => cases ht; exact hp.2 _ rfl
    | install cb arg => rw [Op.first, allocCall_timer] at ht; cases ht
    | deinit => cases ht
  have hr : ∀ t, op.first.removes = some t → s.Free t := by
    intro t ht
    have := first_removes ht
    subst this
    exact hp.2
  refine ⟨fun th' t h => ?_, fun th' th'' t h h' => ?_, fun i h => ?_⟩
  · rw [enter_calls, Function.update_apply] at h
    rw [enter_state]
    split at h
    · exact ⟨(hl t h).1, (hl t h).2.1⟩
    · exact hi.live th' t h
  · rw [enter_calls, Function.update_apply] at h h'
    split at h <;> split at h'
    · simp [*]
    · exact absurd h' (hr t h th'')
    · exact absurd h ((hl t h').2.2 th')
    · exact hi.alone th' th'' t h h'
  · rw [enter_state] at h ⊢
    exact hi.zero i h

/-- One step of the system. -/
theorem Handles.step {a : Act n m} (hi : Handles s) (ho : Own s) (hp : Exclusive s a) (h : Move s a s') :
    Handles s' := by
  have hf := fun ha => h.follows ha
  cases h with
  | enter hc hw he => subst he; exact hi.enter hp
  | tick | expire | goto | done | taken | fill | create | createErr | initLock | errClose | settime | unLock | unUnlock
  | deinitExit | deinitEvent | deinitSkip | deinitClose | deinitMutex | started | stopped | unStopped | deinitTrigger
  | work | pass | close | deinitLock | push | pollEvent | pollTimers | eventRead | read | lock | unlock =>
    exact hi.of_follows (hf (by simp)) (fun _ _ _ hu hz => ⟨hu, hz⟩) hi.zero
  | @clear th r t =>
    exact hi.of_clear (i := t) (hf (by simp)) rfl (by simp [bitActive, bitSched]) (by simp [bitActive, bitSched])
  | clearSched => exact hi.of_clear (hf (by simp)) rfl (by simp [bitSched]) (by simp [bitSched])
  | clearActive => exact hi.of_clear (hf (by simp)) rfl (by simp [bitActive]) (by simp [bitActive])
  | claim =>
    exact hi.of_update (hf (by simp)) rfl (fun _ hu hz => by simp [bitAlloc, hu, hz]) (by simp [bitAlloc])
  | @errReset th r cb arg i hc =>
    have hm := (ho.claimed th i (by rw [hc]; rfl)).2
    exact hi.of_update (hf (by simp)) rfl (fun _ hu => by simp [hm] at hu) (fun _ => rfl)
  | @publish th r cb arg i hc =>
    have hm := ho.claimed th i (by rw [hc]; rfl)
    exact hi.of_update (hf (by simp)) rfl (fun _ hu => by simp [hm.2] at hu) (by simp [bitUsed, hm.1])
  | @setSched th r t us err hc =>
    have hl := ho.allocated t (hi.live th t (by rw [hc]; rfl)).1
    exact hi.of_update (hf (by simp)) rfl (fun _ hu hz => by simp [bitSched, hu, hz]) (by simp [bitSched, hl])
  | @zombie th r t hc =>
    have hm : (s.calls th).removes = some t := by rw [hc]; rfl
    refine hi.of_update (hf (by simp)) rfl (fun hr => ?_) ?_
    · obtain ⟨th', ht⟩ := hr
      simp only [Sys.done_calls, Function.update_apply] at ht
      split at ht
      · cases ht
      · rename_i e; exact absurd (hi.alone th th' t hm ht).symm e
    · simp [bitZombie, ho.allocated t (ho.removed th t hm).1]
  | @reset r i hw =>
    have hk := ho.cleaned i (by simp [hw])
    exact hi.of_update (hf (by simp)) rfl (fun _ _ hz => by simp [hk] at hz) (fun _ => rfl)
  | @deinitReset th r i hc =>
    have hd := (ho.alone th (by rw [hc]; rfl)).2
    refine hi.of_update (hf (by simp)) rfl (fun hr => ?_) (fun _ => rfl)
    obtain ⟨th', ht⟩ := hr
    simp only [Sys.goto_calls, Function.update_apply] at ht
    split at ht
    · cases ht
    · rename_i e; rw [cleanupReset_calls, hd th' e] at ht; cases ht
  | @cas r i w hw hc =>
    have hm := (has_of_maskCas hc).2
    have hl := ho.allocated i (ho.held i (by simp [hw]))
    exact hi.of_update (hf (by simp)) rfl (fun _ hu hz => by simp [hm, hu, hz]) (by simp [hm, hl])

/-- **Calls are made on installed timers**, in every run that keeps uninstalls exclusive. -/
theorem handles_of_reach (hr : (system n m).Reach Exclusive s) : Handles s := by
  refine hr.invariant ?_ fun s a s' hr hi hp h => ?_
  · rintro s ⟨fd, -, rfl⟩
    exact ⟨by simp [ctxInit, Call.timer], by simp [ctxInit, Call.timer], fun _ _ => rfl⟩
  · exact hi.step (own_of_reach (hr.mono fun _ _ h => h.1)) hp (step_move h)

/-! ## Serial calls -/

/-- A timer has at most one call. -/
def SerialCalls (s : Sys n m) : Prop :=
  ∀ th th' t, (s.calls th).timer = some t → (s.calls th').timer = some t → th = th'

theorem first_timer (op : Op n) : op.first.timer = op.timer := by
  cases op with
  | install cb arg => exact allocCall_timer cb arg 0
  | _ => rfl

theorem SerialCalls.step {a : Act n m} (hi : SerialCalls s) (hp : Serial s a) (h : Move s a s') : SerialCalls s' := by
  cases a with
  | call th op =>
    cases h with
    | enter hc hw he =>
      subst he
      intro th1 th2 t h1 h2
      rw [enter_calls, Function.update_apply] at h1 h2
      split at h1 <;> split at h2
      · simp [*]
      · exact absurd h2 (hp.2 t (first_timer op ▸ h1) th2)
      · exact absurd h1 (hp.2 t (first_timer op ▸ h2) th1)
      · exact hi th1 th2 t h1 h2
  | work | step | expire | tick =>
    have ht : ∀ th t, (s'.calls th).timer = some t → (s.calls th).timer = some t := by
      intro th t ht
      rcases h.follows (by simp) th with ⟨h1, -⟩ | ⟨h1, -⟩
      · rw [h1] at ht; cases ht
      · rw [← h1, ht]
    exact fun th th' t h1 h2 => hi th th' t (ht th t h1) (ht th' t h2)

theorem serial_of_reach (hr : (system n m).Reach Serial s) : SerialCalls s := by
  refine hr.invariant ?_ fun s a s' _ hi hp h => hi.step hp (step_move h)
  rintro s ⟨fd, -, rfl⟩ th th' t h
  cases h

end Gabs.Timer.Posix
