import Gabs.Timer.Posix.Descriptors
import Gabs.Timer.Posix.Quiesce

/-!
# The POSIX timer: the bits and the timerfd of a timer

- `Signal`: what one step does to `BIT_SCHED` and `BIT_ACTIVE` of a timer (`Move.signal`);
- `Setting`: what one step does to the timerfd of a timer (`Move.setting`);
- `Cleared`: a call that has cleared the bits of its timer and has not set `BIT_SCHED` finds them clear;
- `Blank`: so are those of a timer whose install has not returned;
- `Handover`: both bits are set only between the `mask_cas` and the `mask_clear(BIT_SCHED)` of the worker;
- `Served`: what the worker knows of the pollfd it serves.
-/

namespace Gabs.Timer.Posix

open Gabs.Lib

variable {n m : Nat} {s s' : Sys n m}

/-! ## The bits -/

/-- What a step does to the two bits of timer `t`. -/
inductive Signal (s : Sys n m) (t : Fin n) (s' : Sys n m) : Act n m → Prop
  | same {a : Act n m} : (s'.state t).has .sched = (s.state t).has .sched →
      (s'.state t).has .active = (s.state t).has .active → Signal s t s' a
  | clear {th : Thread m} {r : Reply} {c : Call n} : Clears t (s.calls th) c → s'.calls th = c → s'.Quiet t →
      Signal s t s' (.step th r)
  | setSched {th : Thread m} {r : Reply} {us : Nat} {err : Option Nat} : s.calls th = .restart t us (.setSched err) →
      s'.calls th = .restart t us (.trigger err) → (s'.state t).has .sched = true →
      (s'.state t).has .active = (s.state t).has .active → Signal s t s' (.step th r)
  | cas {r : Reply} {w : Word} : s.worker = .prepare t .cas → s'.worker = .prepare t .push →
      maskCas r.isErr (s.state t) bitSched bitActive = some w → (s.state t).has .sched = true →
      (s'.state t).has .active = true → Signal s t s' (.work r)
  | clearSched {r : Reply} : s.worker = .prepare t .clearSched → (s'.state t).has .sched = false →
      (s'.state t).has .active = (s.state t).has .active → Signal s t s' (.work r)
  | clearActive {r : Reply} {j : Nat} : s.worker = .service j (.alarm t .clear) → (s'.state t).has .active = false →
      (s'.state t).has .sched = (s.state t).has .sched → Signal s t s' (.work r)
  | zero {a : Act n m} : s'.state t = 0 →
      (s.worker.cleans t = true ∨ (∃ th, (s.calls th).claims = some t) ∨ ∃ th, s.calls th = .deinit (.reset t)) →
      Signal s t s' a

/-- A step on another slot, or one that keeps both bits. -/
theorem Signal.of_update {a : Act n m} {t k : Fin n} {w : Word} (hs : s'.state = Function.update s.state k w)
    (hk : k = t → Signal s t s' a) : Signal s t s' a := by
  by_cases e : k = t
  · exact hk e
  · have h : s'.state t = s.state t := by rw [hs, Function.update_of_ne (Ne.symm e)]
    exact .same (by rw [h]) (by rw [h])

/-- **The steps on the bits.** -/
theorem Move.signal {a : Act n m} (h : Move s a s') (t : Fin n) : Signal s t s' a := by
  cases h with
  | enter _ _ he => subst he; exact .same (by rw [enter_state]) (by rw [enter_state])
  | @claim _ _ _ _ k | @publish _ _ _ _ k | @zombie _ _ k =>
    exact .of_update (k := k) rfl fun e => .same (by simp [e, bitAlloc, bitUsed, bitZombie])
      (by simp [e, bitAlloc, bitUsed, bitZombie])
  | @clear th _ k c hc =>
    exact .of_update (k := k) rfl fun e => .clear (e ▸ hc) (by simp) (by simp [Sys.Quiet, e, bitActive, bitSched])
  | @setSched _ _ k _ _ hc =>
    exact .of_update (k := k) rfl fun e => .setSched (e ▸ hc) (by simp [e]) (by simp [e, bitSched])
      (by simp [e, bitSched])
  | @cas r k w hw hm =>
    refine .of_update (k := k) rfl fun e => ?_
    subst e
    have hb := has_of_maskCas hm
    exact .cas hw rfl hm hb.1 (by simp [hb.2 .active])
  | @clearSched _ k hw =>
    exact .of_update (k := k) rfl fun e => .clearSched (e ▸ hw) (by simp [e, bitSched]) (by simp [e, bitSched])
  | @clearActive _ j k _ hw =>
    exact .of_update (k := k) rfl fun e => .clearActive (e ▸ hw) (by simp [e, bitActive]) (by simp [e, bitActive])
  | @errReset th _ _ _ k hc =>
    exact .of_update (k := k) rfl fun e => .zero (by simp [e]) (.inr (.inl ⟨th, by rw [hc, ← e]; rfl⟩))
  | @deinitReset th _ k hc =>
    exact .of_update (k := k) rfl fun e => .zero (by simp [e]) (.inr (.inr ⟨th, e ▸ hc⟩))
  | @reset _ k hw => exact .of_update (k := k) rfl fun e => .zero (by simp [e]) (.inl (by simp [hw, e]))
  | _ => exact .same rfl rfl

/-- `BIT_ACTIVE` is set by the `mask_cas` alone. -/
theorem Move.active_of {a : Act n m} (h : Move s a s') {t : Fin n} (ha : (s'.state t).has .active = true) :
    (s.state t).has .active = true ∨
      ∃ r, a = .work r ∧ s.worker = .prepare t .cas ∧ s'.worker = .prepare t .push ∧ (s.state t).has .sched = true := by
  cases h.signal t with
  | same _ h2 | setSched _ _ _ h2 | clearSched _ _ h2 => exact .inl (h2 ▸ ha)
  | clear _ _ h1 => rw [h1.2] at ha; cases ha
  | clearActive _ h1 => rw [h1] at ha; cases ha
  | zero h1 => rw [h1] at ha; cases ha
  | cas h1 h2 _ h3 => exact .inr ⟨_, rfl, h1, h2, h3⟩

/-- `BIT_SCHED` is set by `timer_restart` alone. -/
theorem Move.sched_of {a : Act n m} (h : Move s a s') {t : Fin n} (ha : (s'.state t).has .sched = true) :
    (s.state t).has .sched = true ∨ ∃ th r us err, a = .step th r ∧ s.calls th = .restart t us (.setSched err) ∧
      s'.calls th = .restart t us (.trigger err) := by
  cases h.signal t with
  | same h1 | clearActive _ _ h1 => exact .inl (h1 ▸ ha)
  | clear _ _ h1 => rw [h1.1] at ha; cases ha
  | clearSched _ h1 => rw [h1] at ha; cases ha
  | zero h1 => rw [h1] at ha; cases ha
  | cas _ _ _ h3 => exact .inl h3
  | setSched h1 h2 => exact .inr ⟨_, _, _, _, rfl, h1, h2⟩

/-- The `mask_set(BIT_SCHED)` is one step. -/
theorem Move.scheduled {th : Thread m} {r : Reply} (h : Move s (.step th r) s') {t : Fin n} {us : Nat}
    {err : Option Nat} (e : s.calls th = .restart t us (.setSched err)) :
    s'.calls th = .restart t us (.trigger err) := by
  cases h with
  | goto hm => cases hm <;> simp_all
  | done hm => cases hm <;> simp_all
  | clear hc | settime hc => rw [e] at hc; cases hc
  | setSched hc => cases e.symm.trans hc; simp
  | _ => simp_all

/-! ## Quiet timers, under serial calls -/

/-- **Calls that cleared the bits of their timer find them clear.** -/
def Cleared (s : Sys n m) : Prop := ∀ th t, (s.calls th).quiets = some t → s.Quiet t

theorem Cleared.step {a : Act n m} (hi : Cleared s) (hsc : SerialCalls s) (h : Move s a s') : Cleared s' := by
  intro th t hc
  have hkeep : (s.calls th).quiets = some t → s'.Quiet t := by
    intro hq
    refine h.quiet (hi th t hq) fun hs => ?_
    cases a with
    | step th' r =>
      obtain ⟨us, err, e⟩ := hs
      have := hsc th th' t (timer_of_quiets hq) (by rw [e]; rfl)
      subst this
      rw [h.scheduled e] at hc
      cases hc
    | _ => exact hs
  cases a with
  | work r => exact hkeep (h.frame_calls ▸ hc)
  | tick | expire => cases h; exact hkeep hc
  | step th' r =>
    rcases eq_or_ne th th' with rfl | hn
    · exact (h.quiets hc).elim hkeep id
    · exact hkeep (h.frame_others.2 th hn ▸ hc)
  | call th' op =>
    refine hkeep ?_
    cases h with
    | enter _ _ he =>
      subst he
      rw [enter_calls, Function.update_apply] at hc
      split at hc
      · rw [first_quiets] at hc; cases hc
      · exact hc

theorem cleared_of_reach (hr : (system n m).Reach Serial s) : Cleared s := by
  refine hr.invariant ?_ fun s a s' hr hi _ h => hi.step (serial_of_reach hr) (step_move h)
  rintro s ⟨fd, -, rfl⟩
  nofun

/-! ## Timers that are being installed -/

/-- **A slot that an install holds is quiet.** -/
def Blank (s : Sys n m) : Prop := ∀ th i, (s.calls th).claims = some i → s.Quiet i

theorem Act.claims.free {a : Act n m} {i : Fin n} (h : a.claims s i) : (s.state i).has .alloc = false := by
  cases a with
  | step => exact h.2
  | _ => exact h.elim

/-- An install comes to a slot with the `mask_set_strict(BIT_ALLOC)`. -/
theorem Move.claims_of {a : Act n m} (h : Move s a s') {th : Thread m} {i : Fin n}
    (hc : (s'.calls th).claims = some i) :
    (s.calls th).claims = some i ∨ a.claims s i := by
  have hup : ∀ {th' : Thread m} {c : Call n}, s'.calls = Function.update s.calls th' c →
      (c.claims = some i → (s.calls th').claims = some i ∨ a.claims s i) →
      (s.calls th).claims = some i ∨ a.claims s i := by
    intro th' c hs hk
    rw [hs, Function.update_apply] at hc
    split at hc
    · rename_i e; exact e ▸ hk hc
    · exact .inl hc
  cases h with
  | tick | expire | work | pass | close | reset | deinitLock | cas | push | clearSched | pollEvent | pollTimers
  | eventRead | read | lock | unlock | clearActive => exact .inl hc
  | enter _ _ he => subst he; exact hup (enter_calls ..) fun e => by rw [first_claims] at e; cases e
  | goto hm => exact hup rfl fun e => .inl (hm.keeps.1 ▸ e)
  | @claim _ _ cb arg k hk ha =>
    exact hup rfl fun e => by cases e; exact .inr ⟨⟨cb, arg, hk⟩, ha⟩
  | taken => exact hup rfl fun e => by rw [allocCall_claims] at e; cases e
  | deinitEvent | deinitSkip | deinitMutex => exact hup rfl fun e => by rw [deinitCall_claims] at e; cases e
  | fill hk | create hk | createErr hk | initLock hk | errClose hk => exact hup rfl fun e => .inl (by rw [hk]; exact e)
  | clear hk | settime hk =>
    refine hup rfl fun e => ?_
    generalize s.calls _ = c' at hk ⊢
    cases hk <;> cases e
  | done | errReset | publish | setSched | started | stopped | unStopped | unLock | unUnlock | zombie | deinitExit
  | deinitTrigger | deinitClose | deinitReset => exact hup rfl nofun

theorem Blank.step {a : Act n m} (hi : Blank s) (ho : Own s) (hh : Handles s) (h : Move s a s') : Blank s' := by
  intro th i hc
  have hq : s.Quiet i := by
    rcases h.claims_of hc with hc | ha
    · exact hi th i hc
    · exact quiet_of_zero (hh.zero i ha.free)
  refine h.quiet hq fun hs => ?_
  cases a with
  | step th' r =>
    obtain ⟨us, err, e⟩ := hs
    have hu := (hh.live th' i (by rw [e]; rfl)).1
    rcases h.claims_of hc with hc | ha
    · rw [(ho.claimed th i hc).2] at hu; cases hu
    · rw [(ho.free ha.free).2.2.1] at hu; cases hu
  | _ => exact hs

theorem blank_of_reach (hr : (system n m).Reach Exclusive s) : Blank s := by
  refine hr.invariant ?_ fun s a s' hr hi _ h =>
    hi.step (own_of_reach (hr.mono fun _ _ h => h.1)) (handles_of_reach hr) (step_move h)
  rintro s ⟨fd, -, rfl⟩
  nofun

/-- A timer with one of the bits is installed. -/
theorem Blank.live (hi : Blank s) (ho : Own s) (hh : Handles s) (hst : Stopped s) {t : Fin n} (h : ¬s.Quiet t) :
    (s.state t).has .used = true ∧ (s.state t).has .zombie = false := by
  have ha : (s.state t).has .alloc = true := by
    by_contra ha
    exact h (quiet_of_zero (hh.zero t (Bool.eq_false_iff.mpr ha)))
  constructor
  · by_contra hu
    obtain ⟨th, hc⟩ := ho.owner t ha (Bool.eq_false_iff.mpr hu)
    exact h (hi th t hc)
  · by_contra hz
    exact h (hst.buried t (Bool.not_eq_false _ |>.mp hz))

/-- A slot that no install holds keeps its descriptor. -/
theorem Move.same_fd {a : Act n m} (h : Move s a s') {i : Fin n} (hn : ∀ th, (s.calls th).claims ≠ some i) :
    s'.fd i = s.fd i := by
  cases h with
  | enter _ _ he => subst he; rw [enter_fd]
  | @create th _ _ k _ hc | @createErr th _ _ _ k hc =>
    have hk : k ≠ i := fun e => hn th (by rw [hc, e]; rfl)
    exact Function.update_of_ne (Ne.symm hk) ..
  | _ => rfl

/-- A timer that has one of the bits and its timerfd had the timerfd before. -/
theorem Move.owned {a : Act n m} (h : Move s a s') (hb : Blank s) {t : Fin n} (hq : ¬s.Quiet t) (ht : s'.Owns t) :
    s.Owns t ∧ s'.fd t = s.fd t := by
  have hn : ¬a.creates s t := fun hc => by
    cases a with
    | step th r =>
      obtain ⟨cb, arg, e⟩ := hc
      exact hq (hb th t (by rw [e]; rfl))
    | _ => exact hc
  obtain ⟨h1 | ⟨th, hc⟩, h2⟩ := h.holds hn (.inl ht)
  · exact ⟨h1, h2⟩
  · exact absurd (hb th t (claims_of_opened hc)) hq

/-- A timer a call is made on keeps its descriptor. -/
theorem Handles.same_fd (hh : Handles s) (ho : Own s) {a : Act n m} (h : Move s a s') {th : Thread m} {t : Fin n}
    (hc : (s.calls th).timer = some t) (ht : s'.Owns t) : s'.fd t = s.fd t := by
  refine (h.holds (fun hcr => ?_) (.inl ht)).2
  cases a with
  | step th' r =>
    obtain ⟨cb, arg, e⟩ := hcr
    have hu := (hh.live th t hc).1
    rw [(ho.claimed th' t (by rw [e]; rfl)).2] at hu
    cases hu
  | _ => exact hcr

/-- After its `close` a timer has no timerfd. -/
theorem Move.disowns {a : Act n m} (h : Move s a s') {t : Fin n} (hc : a.closes s t) : ¬s'.Owns t := by
  rintro ⟨-, h1, h2⟩
  cases a with
  | work r =>
    have hw : s.worker = .prepare t .close := hc
    cases h with
    | work hm => cases hm <;> simp_all
    | close hw' => cases hw.symm.trans hw'; exact h1 rfl
    | _ => simp_all
  | step th r =>
    have hw : s.calls th = .deinit (.close t) := hc
    refine h2 th ?_
    cases h with
    | goto hm => cases hm <;> simp_all
    | done hm => cases hm <;> simp_all
    | clear hk | settime hk => rw [hw] at hk; cases hk
    | deinitClose hw' => cases hw.symm.trans hw'; simp [Call.closed]
    | _ => simp_all
  | _ => exact hc

/-- And no install has created one. -/
theorem Move.loses {a : Act n m} (h : Move s a s') (ho : Own s) {t : Fin n} (ht : s.Owns t) (hc : a.closes s t) :
    ¬s'.Holds t := by
  rintro (h1 | ⟨th, h1⟩)
  · exact h.disowns hc h1
  · rcases h.claims_of (claims_of_opened h1) with h2 | h2
    · have := ht.1
      rw [(ho.claimed th t h2).2] at this
      cases this
    · have := ht.1
      rw [(ho.free h2.free).2.2.1] at this
      cases this

/-! ## The hand-over -/

/-- **Both bits are set only while the worker hands one over to the other.** -/
def Handover (s : Sys n m) : Prop := ∀ t, (s.state t).has .sched = true → (s.state t).has .active = true →
  s.worker = .prepare t .push ∨ s.worker = .prepare t .clearSched

/-- From the push the worker goes on to the `mask_clear(BIT_SCHED)`. -/
theorem Move.pushed {r : Reply} (h : Move s (.work r) s') {t : Fin n} (hw : s.worker = .prepare t .push) :
    s'.worker = .prepare t .clearSched := by
  cases h with
  | work hm => cases hm <;> simp_all
  | push hw' => cases hw.symm.trans hw'; rfl
  | _ => simp_all

/-- Then `BIT_SCHED` is clear. -/
theorem Move.handed {r : Reply} (h : Move s (.work r) s') {t : Fin n} (hw : s.worker = .prepare t .clearSched) :
    (s'.state t).has .sched = false := by
  cases h with
  | work hm => cases hm <;> simp_all
  | clearSched hw' => cases hw.symm.trans hw'; simp [bitSched]
  | _ => simp_all

theorem Handover.step {a : Act n m} (hi : Handover s) (hcl : Cleared s) (h : Move s a s') : Handover s' := by
  intro t hs ha
  rcases h.active_of ha with ha0 | ⟨-, -, -, hw, -⟩
  · rcases h.sched_of hs with hs0 | ⟨th, r, us, err, rfl, hc, -⟩
    · cases a with
      | work r =>
        rcases hi t hs0 ha0 with hw | hw
        · exact .inr (h.pushed hw)
        · rw [h.handed hw] at hs; cases hs
      | call | step | expire | tick => rw [(h.frame_worker nofun).1]; exact hi t hs0 ha0
    · rw [(hcl th t (by rw [hc]; rfl)).2] at ha0; cases ha0
  · exact .inl hw

theorem handover_of_reach (hr : (system n m).Reach Serial s) : Handover s := by
  refine hr.invariant ?_ fun s a s' hr hi _ h => hi.step (cleared_of_reach hr) (step_move h)
  rintro s ⟨fd, -, rfl⟩ t h
  simp [ctxInit] at h

/-! ## The timerfd -/

/-- What a step does to the timerfd of timer `t`. -/
inductive Setting (s : Sys n m) (t : Fin n) (s' : Sys n m) : Act n m → Prop
  | same {a : Act n m} : s'.fds (s.fd t) = s.fds (s.fd t) → Setting s t s' a
  | settime {th : Thread m} {spec : Itimerspec} {c : Call n} : Settime t spec (s.calls th) c → s'.calls th = c →
      s'.fds (s.fd t) = some ⟨if spec.ns = 0 then none else some (s.clock + spec.ns), false⟩ →
      Setting s t s' (.step th .ok)
  | expire {d : Nat} {e : Bool} : s.fds (s.fd t) = some ⟨some d, e⟩ → d ≤ s.clock →
      s'.fds (s.fd t) = some ⟨none, true⟩ → Setting s t s' (.expire (s.fd t))
  | read {r : Reply} {j : Nat} {pfd : Pollfd} : s.worker = .service j .read → s.pfds[j]? = some pfd →
      pfd.fd = s.fd t → s'.fds (s.fd t) = (s.fds (s.fd t)).map (fun tf => { tf with expired := false }) →
      Setting s t s' (.work r)
  | close {a : Act n m} : ¬s'.Holds t → Setting s t s' a

/-- A timer a call is made on has its timerfd. -/
theorem Handles.owns (hh : Handles s) (ho : Own s) {th : Thread m} {t : Fin n} (h : (s.calls th).timer = some t) :
    s.Owns t := by
  obtain ⟨hu, hz⟩ := hh.live th t h
  refine ⟨hu, fun e => ?_, fun th' e => ?_⟩
  · have hw : s.worker = .prepare t .reset := by
      unfold Worker.closed at e
      split at e <;> cases e
      assumption
    rw [ho.cleaned t (by simp [hw])] at hz
    cases hz
  · have haj := afterJoin_of_closed e
    by_cases eq : th = th'
    · subst eq
      generalize s.calls th = c at h haj
      cases c <;> cases h <;> cases haj
    · rw [(ho.alone th' haj).2 th eq] at h
      cases h

/-- A step on another descriptor, or one of the steps on the timerfd. -/
theorem Setting.of_update {a : Act n m} {t : Fin n} {fd : Int} {x : Option Timerfd}
    (hs : s'.fds = Function.update s.fds fd x) (hk : fd = s.fd t → Setting s t s' a) : Setting s t s' a := by
  by_cases e : fd = s.fd t
  · exact hk e
  · exact .same (by rw [hs, Function.update_of_ne (Ne.symm e)])

/-- The close of slot `k`. -/
theorem Setting.of_close {a : Act n m} {t k : Fin n} (hd : Descriptors s) (ht : s.Holds t) (hk : s.Owns k)
    (hs : s'.fds = (cleanupClose s k).fds) (hc : k = t → ¬s'.Holds t) : Setting s t s' a := by
  have h0 := (hd.opened k (.inl hk)).1
  simp only [cleanupClose, h0, if_true] at hs
  exact .of_update hs fun e => .close (hc (hd.distinct k t (.inl hk) ht e))

/-- **The steps on the timerfd.** -/
theorem Move.setting {a : Act n m} (h : Move s a s') (ho : Own s) (hcl : Closing s) (hd : Descriptors s)
    (hh : Handles s) {t : Fin n} (ht : s.Holds t) : Setting s t s' a := by
  cases h with
  | enter _ _ he => subst he; exact .same (by rw [enter_fds])
  | expire hf hle => exact .of_update rfl fun e => e ▸ .expire (e ▸ hf) hle (by simp)
  | @close r k hw =>
    have hk := ho.owns_of_close hw
    exact .of_close hd ht hk rfl fun e => e ▸ (Move.close (r := r) hw).loses ho hk hw
  | @deinitClose th r k hc =>
    have hk := ho.owns_of_deinit hcl hc
    exact .of_close hd ht hk rfl fun e => e ▸ (Move.deinitClose (r := r) hc).loses ho hk hc
  | read hw hj => exact .of_update rfl fun e => .read hw hj e (by simp [e])
  | @create th cb arg k d hc hf =>
    refine .of_update rfl fun e => absurd (hd.opened t ht).2 ?_
    simp only [Sys.fresh, Bool.and_eq_true, Option.isNone_iff_eq_none] at hf
    exact fun hn => hn (e ▸ hf.1.2)
  | @errClose th r cb arg k hc =>
    refine .of_update rfl fun e => .close fun hh' => ?_
    have := hd.distinct k t (.inr ⟨th, by rw [hc]; rfl⟩) ht e
    subst this
    exact not_holds hh' ho rfl (by rw [hc]; rfl) (by rintro ⟨⟩) rfl
  | @settime th k spec c tf hc hf =>
    refine .of_update rfl fun e => ?_
    have hk : (s.calls th).timer = some k := by
      generalize s.calls th = c' at hc
      cases hc <;> rfl
    have := hd.distinct k t (.inl (hh.owns ho hk)) ht e
    subst this
    exact .settime hc (by simp) (by simp)
  | _ => exact .same rfl

/-! ## The batch -/

/-- The eventfd is open until the worker has been joined. -/
def Signalled (s : Sys n m) : Prop := s.worker ≠ .exited → s.eventOpen = true

theorem Signalled.step {a : Act n m} (hi : Signalled s) (ho : Own s) (h : Move s a s') : Signalled s' := by
  intro hw
  cases a with
  | work r =>
    have he : s'.eventOpen = s.eventOpen := by cases h <;> rfl
    rw [he]
    exact hi h.ne_exited
  | call th op => cases h with | enter _ _ he => subst he; rw [enter_eventOpen]; exact hi (enter_worker .. ▸ hw)
  | step th r =>
    rw [(h.frame_worker nofun).1] at hw
    cases h with
    | deinitEvent hc => exact absurd (ho.joined _ (by rw [hc]; rfl)) hw
    | _ => exact hi hw
  | expire | tick => cases h; exact hi hw

theorem signalled_of_reach (hr : (system n m).Reach Linear s) : Signalled s := by
  refine hr.invariant ?_ fun s a s' hr hi _ h => hi.step (own_of_reach hr) (step_move h)
  rintro s ⟨fd, -, rfl⟩
  exact fun _ => rfl

/-- **Every descriptor of the batch was open at the return of the poll.** -/
def Batch (s : Sys n m) : Prop := ∀ j p, s.worker = .service j p → ∀ pfd ∈ s.pfds, pfd.revents ≠ .nval

theorem ready_ne_nval (hd : Descriptors s) (hp : Polled s) (ho : Own s) (hs : Signalled s) (hw : s.worker = .poll)
    {pfd : Pollfd} (hm : pfd ∈ s.pfds) : s.ready pfd.fd ≠ .nval := by
  have he := hs (by rw [hw]; nofun)
  unfold Sys.ready
  split
  · split <;> nofun
  · rename_i hn
    rcases hp (by rw [hw]; rfl) pfd hm with e | ⟨i, -, hu, e⟩
    · exact absurd ⟨he, e⟩ hn
    · have hown : s.Owns i := by
        refine ⟨hu, by rw [hw]; nofun, fun th hc => ?_⟩
        have := ho.joined th (afterJoin_of_closed hc)
        rw [hw] at this
        cases this
      have := (hd.opened i (.inl hown)).2
      rw [e]
      cases hf : s.fds (s.fd i) with
      | none => exact absurd hf this
      | some t => simp only; split <;> nofun

theorem Batch.step {a : Act n m} (hi : Batch s) (hd : Descriptors s) (hp : Polled s) (ho : Own s) (hs : Signalled s)
    (h : Move s a s') : Batch s' := by
  cases a with
  | work r =>
    cases h with
    | work hm =>
      cases hm with
      | exit | used | zombie | alive | active | inactive | pollErr | batchEnd => rintro j p ⟨⟩
      | unused | noCas =>
        intro j p e
        rw [Sys.work_worker, prepareFrom] at e
        split at e <;> cases e
      | quiet h | ready h | valid h | found h | noCb h | enter h | fire h | skip h | ret h | invalid h | other h =>
        exact fun _ _ _ => hi _ _ h
    | pass | deinitLock | clearSched =>
      intro j p e
      rw [Sys.work_worker, prepareFrom] at e
      split at e <;> cases e
    | close | reset | cas | push | pollEvent | eventRead => rintro j p ⟨⟩
    | pollTimers hw he =>
      subst he
      intro j p _ pfd hm
      obtain ⟨q, hq, rfl⟩ := List.mem_map.mp hm
      exact ready_ne_nval hd hp ho hs hw hq
    | read h | lock h | unlock h | clearActive h => exact fun _ _ _ => hi _ _ h
  | call | step | expire | tick =>
    obtain ⟨h1, h2⟩ := h.frame_worker (by simp)
    unfold Batch
    rw [h1, h2]
    exact hi

theorem batch_of_reach (hr : (system n m).Reach Linear s) : Batch s := by
  refine hr.invariant ?_ fun s a s' hr hi _ h =>
    hi.step (descriptors_of_reach hr) (polled_of_reach hr) (own_of_reach hr) (signalled_of_reach hr) (step_move h)
  rintro s ⟨fd, -, rfl⟩
  nofun

/-- **The pollfd that is served**: it is ready, and it is the one of the timer whose alarm runs. -/
def Served (s : Sys n m) : Prop := ∀ j p, s.worker = .service j p → p ≠ .head → ∃ pfd, s.pfds[j]? = some pfd ∧
  pfd.revents ≠ .none ∧ (p ≠ .read → pfd.revents = .pollin) ∧ ∀ i q, p = .alarm i q → pfd.fd = s.fd i

theorem Served.step {a : Act n m} (hi : Served s) (ho : Own s) (h : Move s a s') : Served s' := by
  cases a with
  | work r =>
    cases h with
    | work hm =>
      cases hm with
      | exit | used | zombie | alive | active | inactive | pollErr | batchEnd => rintro j p ⟨⟩
      | unused | noCas =>
        intro j p e
        rw [Sys.work_worker, prepareFrom] at e
        split at e <;> cases e
      | quiet => intro j p e hp; cases e; exact absurd rfl hp
      | @ready j pfd _ hj hr =>
        intro j p e _
        cases e
        exact ⟨pfd, hj, hr, fun h => absurd rfl h, by simp⟩
      | valid hw =>
        intro j p e _
        cases e
        obtain ⟨pfd, h1, h2, h3, -⟩ := hi _ _ hw (by simp)
        exact ⟨pfd, h1, h2, fun _ => h3 (by simp), by simp⟩
      | noCb hw | enter hw | fire hw | skip hw | ret hw =>
        intro j p e _
        cases e
        obtain ⟨pfd, h1, h2, h3, h4⟩ := hi _ _ hw (by simp)
        exact ⟨pfd, h1, h2, fun _ => h3 (by simp), fun i q e => by cases e; exact h4 _ _ rfl⟩
      | @found j i pfd hw hj hf =>
        intro j p e _
        cases e
        obtain ⟨pfd', h1, h2, h3, -⟩ := hi _ _ hw (by simp)
        cases hj.symm.trans h1
        exact ⟨pfd, h1, h2, fun _ => h3 (by simp), fun i q e => by cases e; exact hf.symm⟩
      | invalid hw | other hw =>
        intro j p e hp
        obtain ⟨pfd, h1, h2, h3, -⟩ := hi _ _ hw (by simp)
        rw [findFrom_index e hp]
        refine ⟨pfd, h1, h2, fun _ => h3 (by simp), fun i q e' => ?_⟩
        subst e'
        rw [Sys.work_worker, findFrom] at e
        split at e <;> cases e
    | pass | deinitLock | clearSched =>
      intro j p e
      rw [Sys.work_worker, prepareFrom] at e
      split at e <;> cases e
    | close | reset | cas | push | pollEvent | eventRead => rintro j p ⟨⟩
    | pollTimers => intro j p e hp; cases e; exact absurd rfl hp
    | @read _ j pfd hw hj =>
      intro j' p e hp
      obtain ⟨pfd', h1, h2, -, -⟩ := hi _ _ hw (by simp)
      cases hj.symm.trans h1
      rw [Sys.work_worker] at e
      split at e
      · rename_i hr
        rw [findFrom_index e hp]
        refine ⟨pfd, h1, h2, fun _ => hr, fun i q e' => ?_⟩
        subst e'
        rw [findFrom] at e
        split at e <;> cases e
      · cases e; exact absurd rfl hp
    | lock hw | unlock hw =>
      intro j p e _
      cases e
      obtain ⟨pfd, h1, h2, h3, h4⟩ := hi _ _ hw (by simp)
      exact ⟨pfd, h1, h2, fun _ => h3 (by simp), fun i q e => by cases e; exact h4 _ _ rfl⟩
    | clearActive => intro j p e hp; cases e; exact absurd rfl hp
  | call | step | expire | tick =>
    obtain ⟨h1, h2⟩ := h.frame_worker (by simp)
    intro j p e hp
    rw [h1] at e
    obtain ⟨pfd, h3, h4, h5, h6⟩ := hi j p e hp
    refine ⟨pfd, h2 ▸ h3, h4, h5, fun i q e' => ?_⟩
    rw [h6 i q e', h.same_fd fun th hc => ?_]
    have := (ho.mine hc).2.2.2
    rw [e, e'] at this
    simp at this

theorem served_of_reach (hr : (system n m).Reach Linear s) : Served s := by
  refine hr.invariant ?_ fun s a s' hr hi _ h => hi.step (own_of_reach hr) (step_move h)
  rintro s ⟨fd, -, rfl⟩
  nofun

/-! ## Settings -/

/-- Every `timerfd_settime` succeeds. -/
def SettimeOk (s : Sys n m) : Act n m → Prop
  | .step th (.err _) => match s.calls th with
    | .restart _ _ .settime | .stop _ _ .settime => False
    | _ => True
  | _ => True

instance (s : Sys n m) (a : Act n m) : Decidable (SettimeOk s a) :=
  match a with
  | .step _ (.err _) => by dsimp only [SettimeOk]; split <;> infer_instance
  | .step _ .ok | .step _ (.fd _) | .work _ | .call .. | .expire _ | .tick _ => instDecidableTrue

/-- The timer whose timerfd the call has armed and whose `BIT_SCHED` it has not set. -/
def Call.arms : Call n → Option (Fin n)
  | .restart t _ (.setSched _) => some t
  | _ => none

theorem timer_of_arms {c : Call n} {t : Fin n} (h : c.arms = some t) : c.timer = some t ∧ c.quiets = some t := by
  unfold Call.arms at h
  split at h <;> cases h
  exact ⟨rfl, rfl⟩

/-- A call comes to `arms` with its `timerfd_settime`. -/
theorem Move.arms_of {a : Act n m} (h : Move s a s') {th : Thread m} {t : Fin n} (hc : (s'.calls th).arms = some t) :
    (s.calls th).arms = some t ∨ ∃ us r, a = .step th r ∧ s.calls th = .restart t us .settime := by
  cases a with
  | work r => exact .inl (h.frame_calls ▸ hc)
  | tick | expire => cases h; exact .inl hc
  | call th' op =>
    cases h with
    | enter _ _ he =>
      subst he
      rw [enter_calls, Function.update_apply] at hc
      split at hc
      · have := (timer_of_arms hc).2
        rw [first_quiets] at this
        cases this
      · exact .inl hc
  | step th' r =>
    rcases eq_or_ne th th' with rfl | hn
    · cases hcall : s'.calls th with
      | restart k us p =>
        cases p with
        | setSched err =>
          rw [hcall] at hc
          cases hc
          cases h with
          | goto hm => cases hm <;> simp_all
          | clear hk =>
            rw [Sys.goto_calls, Function.update_self] at hcall
            subst hcall
            generalize s.calls th = c' at hk
            cases hk
          | settime hk =>
            rw [Sys.goto_calls, Function.update_self] at hcall
            subst hcall
            generalize e : s.calls th = c' at hk
            cases hk
            exact .inr ⟨us, .ok, rfl, rfl⟩
          | taken | deinitEvent | deinitSkip | deinitMutex =>
            simp only [allocFrom_calls, deinitFrom_calls, Function.update_self, allocCall, deinitCall] at hcall
            split at hcall <;> cases hcall
          | _ => simp at hcall
        | _ => rw [hcall] at hc; cases hc
      | _ => rw [hcall] at hc; cases hc
    · exact .inl (h.frame_others.2 th hn ▸ hc)

/-! ## All of them -/

/-- **What holds in every run with serial calls.** -/
structure Facts (s : Sys n m) : Prop where
  own : Own s
  closing : Closing s
  descriptors : Descriptors s
  handles : Handles s
  serial : SerialCalls s
  stopped : Stopped s
  blank : Blank s
  cleared : Cleared s
  handover : Handover s

theorem facts_of_reach (hr : (system n m).Reach Serial s) : Facts s where
  own := own_of_reach (hr.mono fun _ _ h => h.1.1)
  closing := closing_of_reach (hr.mono fun _ _ h => h.1.1)
  descriptors := descriptors_of_reach (hr.mono fun _ _ h => h.1.1)
  handles := handles_of_reach (hr.mono fun _ _ h => h.1)
  serial := serial_of_reach hr
  stopped := stopped_of_reach (hr.mono fun _ _ h => h.1)
  blank := blank_of_reach (hr.mono fun _ _ h => h.1)
  cleared := cleared_of_reach hr
  handover := handover_of_reach hr

/-- A timer with one of the bits is set by no call. -/
theorem Facts.unset (hf : Facts s) {t : Fin n} (hq : ¬s.Quiet t) (th : Thread m) (spec : Itimerspec) (c : Call n)
    (h : Settime t spec (s.calls th) c) : False := by
  refine hq (hf.cleared th t ?_)
  generalize s.calls th = c' at h
  cases h <;> rfl

end Gabs.Timer.Posix
