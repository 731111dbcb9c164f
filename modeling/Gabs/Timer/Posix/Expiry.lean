import Gabs.Timer.Posix.Signal

/-!
# The POSIX timer: no swallowed expiration

- `Sys.Pending`: the timerfd is armed, or an expiration of it is unread;
- `Timely`: the worker reads no expiration of an arming it has not taken over;
- `Sys.Serving`: the worker has read the timerfd and will clear `BIT_ACTIVE`;
- `expiration_pending`: then every timer with one of the bits is pending when the worker polls;
  `expiration_swallowed`: the readiness the worker acts on may be older than the arming whose expiration it reads.
-/

namespace Gabs.Timer.Posix

open Gabs.Lib

variable {n m : Nat}

/-! ## Conditions -/

/-- The timerfd of `t` is armed or readable. -/
def Sys.Pending (s : Sys n m) (t : Fin n) : Prop :=
  (s.fds (s.fd t)).any (fun tf => tf.deadline.isSome || tf.expired) = true

instance (s : Sys n m) (t : Fin n) : Decidable (s.Pending t) := inferInstanceAs (Decidable (_ = _))

/-- An expiration is unread that belongs to an arming the worker has not taken over: `BIT_ACTIVE` is clear, and
`BIT_SCHED` is set or about to be set. -/
def Sys.Ahead (s : Sys n m) (t : Fin n) : Prop :=
  (s.state t).has .active = false ∧ ((s.state t).has .sched = true ∨ ∃ th, (s.calls th).arms = some t) ∧
    (s.fds (s.fd t)).any Timerfd.expired = true

instance (s : Sys n m) (t : Fin n) : Decidable (s.Ahead t) :=
  have : Decidable (∃ th, (s.calls th).arms = some t) :=
    decidable_of_iff (¬∀ th, (s.calls th).arms ≠ some t) (by simp)
  inferInstanceAs (Decidable (_ ∧ _ ∧ _))

/-- **The worker is timely**: no `read` of `service_pfds` takes an expiration of an arming the worker has not taken
over. -/
def Timely (s : Sys n m) : Act n m → Prop
  | .work _ => match s.worker with
    | .service j .read => ∀ t, s.pfds[j]?.map Pollfd.fd = some (s.fd t) → ¬s.Ahead t
    | _ => True
  | _ => True

instance (s : Sys n m) (a : Act n m) : Decidable (Timely s a) :=
  match a with
  | .work _ => by dsimp only [Timely]; split <;> infer_instance
  | .call .. | .step .. | .expire _ | .tick _ => instDecidableTrue

/-- Calls are serial, `timerfd_settime` succeeds, and the worker is timely. -/
def Steady (s : Sys n m) (a : Act n m) : Prop := Serial s a ∧ SettimeOk s a ∧ Timely s a

instance (s : Sys n m) (a : Act n m) : Decidable (Steady s a) := inferInstanceAs (Decidable (_ ∧ _ ∧ _))

variable {s s' : Sys n m}

/-! ## Serving a timer -/

/-- The loop of `timer_from_fd` has not passed slot `t`, or it has found it. -/
def Service.reaches (t : Fin n) : Service n → Prop
  | .valid i | .compare i => i ≤ t
  | .alarm i _ => i = t
  | _ => False

/-- The worker has read the timerfd of `t` and not cleared `BIT_ACTIVE`. -/
def Sys.Serving (s : Sys n m) (t : Fin n) : Prop :=
  ∃ j p pfd, s.worker = .service j p ∧ s.pfds[j]? = some pfd ∧ pfd.fd = s.fd t ∧ p.reaches t

theorem findFrom_reaches {j k : Nat} {t : Fin n} (h : k ≤ t) :
    ∃ p : Service n, findFrom n j k = .service j p ∧ p.reaches t :=
  ⟨.valid ⟨k, by omega⟩, by rw [findFrom, dif_pos], h⟩

/-- The worker goes on with an active timer until it clears `BIT_ACTIVE`. -/
theorem Sys.Serving.work {r : Reply} {t : Fin n} (hs : s.Serving t) (h : Move s (.work r) s') (ho : Own s)
    (hd : Descriptors s) (ht : s.Owns t) (hl : (s.state t).has .used = true ∧ (s.state t).has .zombie = false)
    (ha : (s'.state t).has .active = true) : s'.Serving t := by
  obtain ⟨j, p, pfd, hw, hj, hf, hp⟩ := hs
  cases h with
  | work hm =>
    cases hm with
    | @batchEnd j' _ hw' hj' =>
      cases hw.symm.trans hw'
      rw [hj] at hj'
      cases hj'
    | valid hw' => cases hw.symm.trans hw'; exact ⟨_, _, pfd, rfl, hj, hf, hp⟩
    | @invalid j i _ hw' _ hv =>
      cases hw.symm.trans hw'
      have hne : i ≠ t := fun e => hv (e ▸ hl)
      obtain ⟨p, h1, h2⟩ := findFrom_reaches (j := j) (Nat.succ_le_of_lt (Fin.lt_def.mp (lt_of_le_of_ne hp hne)))
      exact ⟨j, p, pfd, h1, hj, hf, h2⟩
    | @found j i pfd' hw' hj' he =>
      cases hw.symm.trans hw'
      cases hj.symm.trans hj'
      have hi := ho.owns_of_used (ho.held i (by simp [hw])) (by rw [hw]; nofun) (by rw [hw]; rfl)
      exact ⟨_, _, pfd, rfl, hj, hf, hd.distinct i t (.inl hi) (.inl ht) (he.trans hf)⟩
    | @other j i pfd' hw' hj' he =>
      cases hw.symm.trans hw'
      cases hj.symm.trans hj'
      have hne : i ≠ t := fun e => he (e ▸ hf.symm)
      obtain ⟨p, h1, h2⟩ := findFrom_reaches (j := j) (Nat.succ_le_of_lt (Fin.lt_def.mp (lt_of_le_of_ne hp hne)))
      exact ⟨j, p, pfd, h1, hj, hf, h2⟩
    | noCb hw' | enter hw' | fire hw' | skip hw' | ret hw' =>
      cases hw.symm.trans hw'
      exact ⟨_, _, pfd, rfl, hj, hf, hp⟩
    | quiet hw' | ready hw' => cases hw.symm.trans hw'; exact hp.elim
    | _ hw' => cases hw.symm.trans hw'
  | read hw' => cases hw.symm.trans hw'; exact hp.elim
  | lock hw' | unlock hw' => cases hw.symm.trans hw'; exact ⟨_, _, pfd, rfl, hj, hf, hp⟩
  | clearActive hw' =>
    cases hw.symm.trans hw'
    cases hp
    simp [bitActive] at ha
  | _ hw' => cases hw.symm.trans hw'

/-! ## The invariant -/

/-- **No arming is without its expiration.** -/
structure Expiry (s : Sys n m) : Prop where
  sched : ∀ t, s.Owns t → (s.state t).has .sched = true → s.Pending t
  armed : ∀ th t, (s.calls th).arms = some t → s.Pending t
  active : ∀ t, s.Owns t → (s.state t).has .active = true → s.Pending t ∨ s.Serving t

/-- A pending timer stays pending, but for the `read` of an expiration that is not ahead, and a setting. -/
theorem Sys.Pending.keep {a : Act n m} {t : Fin n} (hi : s.Pending t) (hf : Facts s) (h : Move s a s')
    (ht : s.Owns t) (hfd : s'.fd t = s.fd t) (hc : s'.Holds t)
    (hset : ∀ th spec c, Settime t spec (s.calls th) c → False)
    (hread : ∀ r j pfd, a = .work r → s.worker = .service j .read → s.pfds[j]? = some pfd → pfd.fd = s.fd t →
      (s.fds (s.fd t)).any Timerfd.expired = true → False) : s'.Pending t := by
  unfold Sys.Pending at hi ⊢
  rw [hfd]
  cases h.setting hf.own hf.closing hf.descriptors hf.handles (.inl ht) with
  | same e => rw [e]; exact hi
  | settime hk => exact (hset _ _ _ hk).elim
  | expire _ _ e => rw [e]; rfl
  | close hk => exact absurd hc hk
  | read hw hj e e' =>
    rw [e']
    cases htf : s.fds (s.fd t) with
    | none => rw [htf] at hi; cases hi
    | some tf =>
      rw [htf] at hi
      have := hread _ _ _ rfl hw hj e
      rw [htf] at this
      simp_all

/-- The worker reads nothing that is ahead. -/
theorem Timely.read {a : Act n m} (hp : Timely s a) {r : Reply} {t : Fin n} {j : Nat} {pfd : Pollfd} (ha : a = .work r)
    (hw : s.worker = .service j .read) (hj : s.pfds[j]? = some pfd) (he : pfd.fd = s.fd t) : ¬s.Ahead t := by
  subst ha
  simp only [Timely, hw] at hp
  exact hp t (by rw [hj, ← he]; rfl)

theorem Expiry.sched_step {a : Act n m} (hi : Expiry s) (hf : Facts s) (hp : Timely s a) (h : Move s a s')
    {t : Fin n} (ht : s'.Owns t) (hs : (s'.state t).has .sched = true) : s'.Pending t := by
  rcases h.sched_of hs with hs0 | ⟨th, r, us, err, rfl, hc, -⟩
  · have hq : ¬s.Quiet t := fun hq => by rw [hq.1] at hs0; cases hs0
    obtain ⟨ho, hfd⟩ := h.owned hf.blank hq ht
    refine (hi.sched t ho hs0).keep hf h ho hfd (.inl ht) (hf.unset hq) ?_
    intro r j pfd ha hw hj he hex
    refine hp.read ha hw hj he ⟨?_, .inl hs0, hex⟩
    by_contra hact
    rcases hf.handover t hs0 (Bool.not_eq_false _ |>.mp hact) with e | e <;> rw [hw] at e <;> cases e
  · have htm : (s.calls th).timer = some t := by rw [hc]; rfl
    have ho := hf.handles.owns hf.own htm
    refine (hi.armed th t (by rw [hc]; rfl)).keep hf h ho (hf.handles.same_fd hf.own h htm ht)
      (.inl ht) (fun th' spec c hk => ?_) (fun _ _ _ e => nomatch e)
    have hk' : (s.calls th').timer = some t := by
      generalize s.calls th' = c' at hk
      cases hk <;> rfl
    have := hf.serial th th' t htm hk'
    subst this
    rw [hc] at hk
    cases hk

theorem Expiry.armed_step {a : Act n m} (hi : Expiry s) (hf : Facts s) (hf' : Facts s') (hp : Timely s a)
    (hset : SettimeOk s a) (h : Move s a s') {th : Thread m} {t : Fin n} (hc : (s'.calls th).arms = some t) :
    s'.Pending t := by
  have ht : s'.Owns t := hf'.handles.owns hf'.own (timer_of_arms hc).1
  rcases h.arms_of hc with hc0 | ⟨us, r, rfl, hc0⟩
  · obtain ⟨htm, hq⟩ := timer_of_arms hc0
    have ho := hf.handles.owns hf.own htm
    refine (hi.armed th t hc0).keep hf h ho (hf.handles.same_fd hf.own h htm ht) (.inl ht)
      (fun th' spec c hk => ?_) ?_
    · have hk' : (s.calls th').timer = some t := by
        generalize s.calls th' = c' at hk
        cases hk <;> rfl
      have := hf.serial th th' t htm hk'
      subst this
      generalize s.calls th = c' at hc0 hk
      cases hk <;> cases hc0
    · intro r j pfd ha hw hj he hex
      exact hp.read ha hw hj he ⟨(hf.cleared th t hq).2, .inr ⟨th, hc0⟩, hex⟩
  · cases h with
    | goto hm =>
      cases hm with
      | settimeErr _ hr => simp only [hr, SettimeOk, hc0] at hset
      | _ => simp_all
    | done hm => cases hm <;> simp_all
    | clear hk => rw [hc0] at hk; cases hk
    | settime hk =>
      rw [hc0] at hk
      cases hk
      simp [Sys.Pending, toItimerspec_ns]
    | _ => simp_all

theorem Expiry.active_step {a : Act n m} (hi : Expiry s) (hf : Facts s) (hp : Timely s a) (hb : Batch s)
    (hsv : Served s) (h : Move s a s') {t : Fin n} (ht : s'.Owns t) (ha : (s'.state t).has .active = true) :
    s'.Pending t ∨ s'.Serving t := by
  have hq : ¬s.Quiet t := fun hq => by
    rcases h.active_of ha with e | ⟨_, _, _, _, e⟩
    · rw [hq.2] at e; cases e
    · rw [hq.1] at e; cases e
  obtain ⟨ho, hfd⟩ := h.owned hf.blank hq ht
  have hpend : s.Pending t → (s.worker = .prepare t .cas ∨ (s.state t).has .active = true) →
      s'.Pending t ∨ s'.Serving t := by
    intro hpd hor
    by_cases hrd : ∃ r j pfd, a = .work r ∧ s.worker = .service j .read ∧ s.pfds[j]? = some pfd ∧ pfd.fd = s.fd t
    · obtain ⟨r, j, pfd, rfl, hw, hj, he⟩ := hrd
      cases h with
      | @read _ j' pfd' hw' hj' =>
        cases hw.symm.trans hw'
        cases hj.symm.trans hj'
        obtain ⟨q, h1, h2, -, -⟩ := hsv j .read hw nofun
        cases hj.symm.trans h1
        have hpi : pfd.revents = .pollin := by
          have := hb j .read hw pfd (List.mem_of_getElem? hj)
          cases e : pfd.revents <;> simp_all
        obtain ⟨p, h3, h4⟩ := findFrom_reaches (j := j) (Nat.zero_le t)
        exact .inr ⟨j, p, pfd, by simp [hpi, h3], hj, he, h4⟩
      | work hm => cases hm <;> simp_all
      | _ => simp_all
    · exact .inl (hpd.keep hf h ho hfd (.inl ht) (hf.unset hq) fun r j pfd e1 e2 e3 e4 _ =>
        hrd ⟨r, j, pfd, e1, e2, e3, e4⟩)
  rcases h.active_of ha with ha0 | ⟨r, rfl, hw, -, hs⟩
  · rcases hi.active t ho ha0 with hpd | hsv
    · exact hpend hpd (.inr ha0)
    · cases a with
      | work r =>
        exact .inr (hsv.work h hf.own hf.descriptors ho (hf.blank.live hf.own hf.handles hf.stopped hq) ha)
      | call | step | expire | tick =>
        obtain ⟨j, p, pfd, h1, h2, h3, h4⟩ := hsv
        obtain ⟨h5, h6⟩ := h.frame_worker nofun
        exact .inr ⟨j, p, pfd, h5.trans h1, by rw [h6]; exact h2, h3.trans hfd.symm, h4⟩
  · exact hpend (hi.sched t ho hs) (.inl hw)

theorem expiry_of_reach (hr : (system n m).Reach Steady s) : Expiry s := by
  refine hr.invariant ?_ fun s a s' hr hi hp h => ?_
  · rintro s ⟨fd, -, rfl⟩
    exact ⟨by simp [ctxInit], nofun, by simp [ctxInit]⟩
  · have hs := hr.mono fun _ _ h => h.1
    have hl := hs.mono fun _ _ h => h.1.1
    have hf := facts_of_reach hs
    have hf' := facts_of_reach (hs.step hp.1 h)
    have hm := step_move h
    exact ⟨fun t => hi.sched_step hf hp.2.2 hm, fun th t => hi.armed_step hf hf' hp.2.2 hp.2.1 hm,
      fun t => hi.active_step hf hp.2.2 (batch_of_reach hl) (served_of_reach hl) hm⟩

/-! ## No swallowed expiration -/

/-- **No expiration is swallowed** in runs with serial calls and a timely worker: when the worker polls, every installed
timer that is scheduled or active has a timerfd that is armed or readable. -/
theorem expiration_pending (hr : (system n m).Reach Steady s) (hw : s.worker = .poll) {t : Fin n}
    (hu : (s.state t).has .used = true) (hb : (s.state t).has .active = true ∨ (s.state t).has .sched = true) :
    s.Pending t := by
  have ho := (own_of_reach (hr.mono fun _ _ h => h.1.1.1)).owns_of_used hu (by rw [hw]; nofun) (by rw [hw]; rfl)
  have hi := expiry_of_reach hr
  rcases hb with ha | hs
  · rcases hi.active t ho ha with h | ⟨j, p, pfd, h, -⟩
    · exact h
    · rw [hw] at h; cases h
  · exact hi.sched t ho hs

/-- A timer that is installed and restarted, and the worker's first pass. -/
def firstPass : List (Act 1 1) :=
  let c : Thread 1 := .client 0
  [Act.call c (.install (some 7) 0), .step c .ok, .step c .ok, .step c (.fd 4), .step c .ok, .step c .ok,
    .call c (.restart 0 0), .step c .ok, .step c .ok, .step c .ok, .step c .ok] ++ List.replicate 7 (Act.work .ok)

theorem expiration_pending_run : ∃ s : Sys 1 1, s.worker = .poll ∧ (s.state 0).has .active = true ∧ s.Pending 0 := by
  obtain ⟨s, hr, hw, hu, ha⟩ := Lts.Reach.run (M := system 1 1) (P := Steady) (s := ctxInit 1 1 3)
    (Q := fun s => s.worker = .poll ∧ (s.state 0).has .used = true ∧ (s.state 0).has .active = true)
    ⟨3, by decide, rfl⟩ firstPass (by decide)
  exact ⟨s, hw, ha, expiration_pending hr hw hu (.inl ha)⟩

/-- **An expiration is swallowed**: the worker's poll has reported the timer when it is restarted and expires again,
and the read meant for the old arming takes the expiration of the new one before `BIT_SCHED` is set. -/
theorem expiration_swallowed : ∃ s : Sys 1 1, (system 1 1).Reach (fun s a => Serial s a ∧ SettimeOk s a) s ∧
    s.worker = .poll ∧ s.eventCount = 0 ∧ (∀ th, s.calls th = .idle) ∧ s.Live 0 ∧ (s.state 0).has .active = true ∧
    ¬s.Pending 0 :=
  let c : Thread 1 := .client 0
  Lts.Reach.run (s := ctxInit 1 1 3) ⟨3, by decide, rfl⟩
    (firstPass ++ [Act.tick 1, .expire 4] ++ List.replicate 11 (Act.work .ok) ++
      [Act.call c (.restart 0 0), .step c .ok, .step c .ok, .tick 1, .expire 4] ++ List.replicate 12 (Act.work .ok) ++
      [Act.step c .ok, .step c .ok] ++ List.replicate 12 (Act.work .ok)) (by decide)

end Gabs.Timer.Posix
