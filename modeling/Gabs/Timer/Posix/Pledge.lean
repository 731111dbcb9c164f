import Gabs.Timer.Posix.Arms

/-!
# The POSIX timer: no lost restart

- `Pledges`: for each timer the arming that its last start or restart has returned 0 for, until a later call begins;
- `Attentive`: the worker clears `BIT_SCHED` only of timers that are active;
- `restart_kept`: then a pledged timer that has not fired has one of the bits, `gabs_timer_active` answers true and a
  pass of the worker does not leave it out; `restart_lost`: a restart that lands between the `mask_cas` and the
  `mask_clear(BIT_SCHED)` of the worker is lost.
-/

namespace Gabs.Timer.Posix

open Gabs.Lib

variable {n m : Nat}

/-! ## Pledges -/

/-- The arming that the last start or restart of a timer has returned 0 for. -/
abbrev Pledges (n : Nat) : Type := Fin n → Option Nat

/-- A call begins. -/
def Pledges.begin (p : Pledges n) : Op n → Pledges n
  | .start t _ | .restart t _ | .stop t | .uninstall t => Function.update p t none
  | .deinit => fun _ => none
  | _ => p

/-- A call makes a step. -/
def Pledges.call (g : Arms n) (p : Pledges n) (r : Reply) : Call n → Pledges n
  | .restart t _ (.trigger err) => if restartStatus err r = 0 then Function.update p t (g.latest t) else p
  | _ => p

/-- The pledges after one more step. -/
def Pledges.record (x : Sys n m × Arms n) (a : Act n m) (_ : Sys n m × Arms n) (p : Pledges n) : Pledges n :=
  match a with
  | .call _ op => p.begin op
  | .step th r => p.call x.2 r (x.1.calls th)
  | _ => p

/-- The system with its armings and pledges. -/
def pledges (n m : Nat) : Lts ((Sys n m × Arms n) × Pledges n) (Act n m) :=
  (arms n m).record (fun _ => none) Pledges.record

/-- **The worker is attentive**: the `mask_clear(BIT_SCHED)` of `prepare_pfds` is not made on a timer that has
`BIT_SCHED` without `BIT_ACTIVE`, and that of `BIT_ACTIVE` not on an active timer without a callback. -/
def Attentive (s : Sys n m) : Act n m → Prop
  | .work _ => match s.worker with
    | .prepare i .clearSched => ¬((s.state i).has .sched = true ∧ (s.state i).has .active = false)
    | .service _ (.alarm i .clear) => ¬(s.cb i = none ∧ (s.state i).has .active = true)
    | _ => True
  | _ => True

instance (s : Sys n m) (a : Act n m) : Decidable (Attentive s a) :=
  match a with
  | .work _ => by
    dsimp only [Attentive]
    exact match s.worker with
      | .prepare _ p => by cases p <;> infer_instance
      | .service _ (.alarm _ p) => by cases p <;> infer_instance
      | .service _ .head | .service _ .read | .service _ (.valid _) | .service _ (.compare _) => instDecidableTrue
      | .top | .poll | .eventRead | .exited => instDecidableTrue
  | .call .. | .step .. | .expire _ | .tick _ => instDecidableTrue

/-- Calls are serial, and the worker is attentive. -/
def Heedful (s : Sys n m) (a : Act n m) : Prop := Serial s a ∧ Attentive s a

instance (s : Sys n m) (a : Act n m) : Decidable (Heedful s a) := inferInstanceAs (Decidable (_ ∧ _))

/-- The timer a restart has scheduled; all that is left of the call is the trigger. -/
def Call.promises : Call n → Option (Fin n)
  | .restart t _ (.trigger _) => some t
  | _ => none

/-- The latest arming of timer `t` is pledged, or about to be. -/
def Owed (s : Sys n m) (p : Pledges n) (t : Fin n) : Prop := p t ≠ none ∨ ∃ th, (s.calls th).promises = some t

/-- A pledged timer is installed, and the only calls on it are those of `gabs_timer_active`. -/
structure Pledged (s : Sys n m) (g : Arms n) (p : Pledges n) (t : Fin n) : Prop where
  latest : p t = g.latest t
  owns : s.Owns t
  alive : (s.state t).has .zombie = false
  calls : ∀ th, (s.calls th).timer = some t → s.calls th = .active t
  noDeinit : ∀ th, (s.calls th).isDeinit = false

/-- **Pledges are kept.** -/
structure Kept (s : Sys n m) (g : Arms n) (p : Pledges n) : Prop where
  pledged : ∀ t, p t ≠ none → Pledged s g p t
  bits : ∀ t, Owed s p t → g.latest t ∉ g.fired → (s.state t).has .sched = true ∨ (s.state t).has .active = true
  tested : ∀ t, s.worker.tested t = true → (s.state t).has .active = true → g.latest t ∈ g.fired ∨ s.cb t = none

variable {s s' : Sys n m} {g : Arms n} {p : Pledges n}

/-! ## What a step leaves -/

theorem timer_of_promises {c : Call n} {t : Fin n} (h : c.promises = some t) : c.timer = some t := by
  unfold Call.promises at h
  split at h <;> cases h
  rfl

/-- What is left of a restart that has set `BIT_SCHED` is one step. -/
theorem Move.triggered {th : Thread m} {r : Reply} (h : Move s (.step th r) s') {t : Fin n} {us : Nat}
    {err : Option Nat} (hc : s.calls th = .restart t us (.trigger err)) : s'.calls th = .idle := by
  cases h with
  | goto hm => cases hm <;> simp_all
  | done hm => cases hm <;> simp_all
  | clear hk | settime hk => rw [hc] at hk; cases hk
  | started => simp
  | _ hc' => simp [hc] at hc'

/-- `gabs_timer_active` is one step. -/
theorem Move.asked {th : Thread m} {r : Reply} (h : Move s (.step th r) s') {t : Fin n}
    (hc : s.calls th = .active t) :
    s'.calls th = .idle ∧ s'.ret th = some (.active ((s.state t).has .active || (s.state t).has .sched)) := by
  cases h with
  | goto hm => cases hm <;> simp_all
  | done hm =>
    cases hm with
    | busy hc' => cases hc.symm.trans hc'
    | active hc' => cases hc.symm.trans hc'; simp
  | clear hk | settime hk => rw [hc] at hk; cases hk
  | _ hc' => simp [hc] at hc'

/-- A timer that is in use stays so until its `close`, and no zombie until its uninstall sets `BIT_ZOMBIE`. -/
theorem Move.alive {a : Act n m} (h : Move s a s') (hf : Facts s) {t : Fin n} (ho : s.Owns t)
    (hz : (s.state t).has .zombie = false) (hn : ∀ th r, a = .step th r → (s.calls th).timer = some t →
      ∀ q, s.calls th ≠ .uninstall t q) (hd : ∀ th, (s.calls th).isDeinit = false) :
    s'.Owns t ∧ (s'.state t).has .zombie = false := by
  refine ⟨(h.owns hf.own ho fun hc => ?_).1, Bool.eq_false_iff.mpr fun hz' => ?_⟩
  · cases a with
    | work r =>
      rw [hf.own.cleaned t (by rw [show s.worker = .prepare t .close from hc]; simp)] at hz
      cases hz
    | step th r =>
      have := hd th
      rw [show s.calls th = .deinit (.close t) from hc] at this
      cases this
    | _ => exact hc
  · rw [h.zombie_of (fun hb => ?_) hz'] at hz
    · cases hz
    · cases a with
      | step th r =>
        have hb : s.calls th = .uninstall t .zombie := hb
        exact hn th r rfl (by rw [hb]; rfl) _ hb
      | _ => exact hb

/-! ## The steps -/

/-- What the latest arming of a live timer is does not change but by a call on it. -/
theorem Facts.latest (hf : Facts s) {a : Act n m} {t : Fin n} (hu : (s.state t).has .used = true)
    (hn : ∀ th r us, a = .step th r → s.calls th ≠ .restart t us .settime) :
    (Arms.record s a s' g).latest t = g.latest t := by
  refine Arms.record_latest (fun hc => ?_) hn
  rw [(hf.own.free hc.free).2.2.1] at hu
  cases hu

/-- A pledge is not touched by a step of a call on another timer, and is made by the trigger. -/
theorem Pledges.call_of {th : Thread m} {r : Reply} {t : Fin n} (h : p.call g r (s.calls th) t ≠ none) :
    (∃ us err, s.calls th = .restart t us (.trigger err) ∧ p.call g r (s.calls th) t = g.latest t) ∨
      p t ≠ none ∧ p.call g r (s.calls th) t = p t := by
  generalize hc : s.calls th = c at h ⊢
  cases c with
  | restart k us q =>
    cases q with
    | trigger err =>
      by_cases hst : restartStatus err r = 0
      · simp only [Pledges.call, hst, if_true, Function.update_apply] at h ⊢
        split
        · rename_i e; exact .inl ⟨us, err, by rw [e], by rw [e]⟩
        · rename_i e; exact .inr ⟨by simpa [e] using h, rfl⟩
      · simp only [Pledges.call, hst, if_false] at h ⊢
        exact .inr ⟨h, trivial⟩
    | _ => exact .inr ⟨h, rfl⟩
  | _ => exact .inr ⟨h, rfl⟩

theorem Pledged.call {th : Thread m} {r : Reply} {t : Fin n} (hi : Kept s g p) (hf : Facts s)
    (h : Move s (.step th r) s') (hp : p.call g r (s.calls th) t ≠ none) :
    Pledged s' (Arms.record s (.step th r) s' g) (p.call g r (s.calls th)) t := by
  have hnd' : (∀ th', (s.calls th').isDeinit = false) → ∀ th', (s'.calls th').isDeinit = false := by
    intro hnd th'
    by_cases e : th' = th
    · subst e
      refine Bool.eq_false_iff.mpr fun e => ?_
      have := h.isDeinit e
      rw [hnd th'] at this
      cases this
    · rw [h.frame_others.2 th' e]; exact hnd th'
  rcases Pledges.call_of hp with ⟨us, err, hc, he⟩ | ⟨hp0, he⟩
  · have htm : (s.calls th).timer = some t := by rw [hc]; rfl
    have hnd : ∀ th', (s.calls th').isDeinit = false := fun th' => Bool.eq_false_iff.mpr fun e => by
      by_cases eq : th = th'
      · subst eq; rw [hc] at e; cases e
      · rw [hf.own.deinit th' th e eq] at hc; cases hc
    obtain ⟨h1, h2⟩ := h.alive hf (hf.handles.owns hf.own htm) (hf.handles.live th t htm).2
      (fun th' r' e _ q => by cases e; rw [hc]; nofun) hnd
    refine ⟨he.trans (hf.latest (hf.handles.live th t htm).1 fun th' r us e => by cases e; rw [hc]; nofun).symm, h1, h2,
      fun th' e => ?_, hnd' hnd⟩
    by_cases eq : th' = th
    · subst eq; rw [h.triggered hc] at e; cases e
    · rw [h.frame_others.2 th' eq] at e
      exact absurd (hf.serial th' th t e htm) eq
  · obtain ⟨hl, ho, hz, hca, hnd⟩ := hi.pledged t hp0
    have hn : ∀ q, (s.calls th).timer = some t → s.calls th = .active t → s.calls th ≠ .uninstall t q :=
      fun _ _ e e' => by cases e.symm.trans e'
    obtain ⟨h1, h2⟩ := h.alive hf ho hz (fun th' r' e ht q => by cases e; exact hn q ht (hca th ht)) hnd
    refine ⟨he.trans (hl.trans (hf.latest ho.1 fun th' r us e e' => ?_).symm), h1, h2, fun th' e => ?_, hnd' hnd⟩
    · cases e
      cases (hca th (by rw [e']; rfl)).symm.trans e'
    · by_cases eq : th' = th
      · subst eq
        have ht : (s.calls th').timer = some t := by
          rcases h.follows nofun th' with ⟨h1, -⟩ | ⟨h1, -⟩
          · rw [h1] at e; cases e
          · rw [← h1, e]
        rw [(h.asked (hca th' ht)).1] at e
        cases e
      · rw [h.frame_others.2 th' eq] at e ⊢
        exact hca th' e

/-- A pledge survives only the entry of `gabs_timer_active`, or of a call on another timer. -/
theorem Pledges.begin_of {op : Op n} {t : Fin n} (h : p.begin op t ≠ none) :
    p t ≠ none ∧ p.begin op t = p t ∧ op ≠ .deinit ∧ (op.timer = some t → op = .active t) := by
  cases op with
  | start k us | restart k us | stop k | uninstall k =>
    simp only [Pledges.begin, Function.update_apply] at h ⊢
    split at h
    · exact absurd rfl h
    · rename_i e
      exact ⟨h, by simp [e], nofun, fun e' => by cases e'; exact absurd rfl e⟩
  | deinit => exact absurd rfl h
  | install cb arg => exact ⟨h, rfl, nofun, nofun⟩
  | active k => exact ⟨h, rfl, nofun, fun e => by cases e; rfl⟩

theorem Pledged.enter {th : Thread m} {op : Op n} {t : Fin n} (hi : Kept s g p) (hf : Facts s)
    (h : Move s (.call th op) s') (hp : p.begin op t ≠ none) :
    Pledged s' (Arms.record s (.call th op) s' g) (p.begin op) t := by
  obtain ⟨hp0, he, hnd, hop⟩ := Pledges.begin_of hp
  obtain ⟨hl, ho, hz, hca, hd⟩ := hi.pledged t hp0
  obtain ⟨h1, h2⟩ := h.alive hf ho hz nofun hd
  cases h with
  | enter _ _ hs =>
    subst hs
    refine ⟨he.trans hl, h1, h2, fun th' e => ?_, fun th' => Bool.eq_false_iff.mpr fun e => ?_⟩
    · rw [enter_calls, Function.update_apply] at e ⊢
      split at e
      · rename_i eq
        rw [first_timer] at e
        rw [if_pos eq, hop e]
        rfl
      · rename_i eq
        rw [if_neg eq]
        exact hca th' e
    · rw [enter_calls, Function.update_apply] at e
      split at e
      · exact hnd (first_isDeinit e)
      · rw [hd th'] at e; cases e

theorem Pledged.work {a : Act n m} {t : Fin n} (hi : Kept s g p) (hf : Facts s) (h : Move s a s')
    (ha : ∀ th r, a ≠ .step th r) (hc : s'.calls = s.calls) (hp : p t ≠ none) :
    Pledged s' (Arms.record s a s' g) p t := by
  obtain ⟨hl, ho, hz, hca, hd⟩ := hi.pledged t hp
  obtain ⟨h1, h2⟩ := h.alive hf ho hz (fun th r e => absurd e (ha th r)) hd
  exact ⟨hl.trans (hf.latest ho.1 fun th r us e => absurd e (ha th r)).symm, h1, h2, hc ▸ hca, hc ▸ hd⟩

/-- A timer that is owed is installed, and no call but its own restart and `gabs_timer_active` is made on it. -/
theorem Owed.calls {t : Fin n} (h : Owed s p t) (hi : Kept s g p) (hf : Facts s) :
    ((s.state t).has .used = true ∧ (s.state t).has .zombie = false) ∧ (∀ th, (s.calls th).isDeinit = false) ∧
      ∀ th, (s.calls th).timer = some t → s.calls th = .active t ∨ (s.calls th).promises = some t := by
  rcases h with hp | ⟨th, hc⟩
  · obtain ⟨-, ho, hz, hca, hd⟩ := hi.pledged t hp
    exact ⟨⟨ho.1, hz⟩, hd, fun th e => .inl (hca th e)⟩
  · have htm := timer_of_promises hc
    refine ⟨hf.handles.live th t htm, fun th' => Bool.eq_false_iff.mpr fun e => ?_, fun th' e => ?_⟩
    · by_cases eq : th = th'
      · subst eq
        generalize s.calls th = c at htm e
        cases c <;> cases htm <;> cases e
      · rw [hf.own.deinit th' th e eq] at htm; cases htm
    · rw [hf.serial th' th t e htm]
      exact .inr hc

/-- A call comes to its trigger with the `mask_set(BIT_SCHED)`. -/
theorem Move.promises_of {a : Act n m} (h : Move s a s') {th : Thread m} {t : Fin n}
    (hc : (s'.calls th).promises = some t) :
    (s.calls th).promises = some t ∨ (s.calls th).promises = none ∧ (s'.state t).has .sched = true := by
  cases a with
  | work r => exact .inl (h.frame_calls ▸ hc)
  | tick | expire => cases h; exact .inl hc
  | call th' op =>
    cases h with
    | enter _ _ he =>
      subst he
      rw [enter_calls, Function.update_apply] at hc
      split at hc
      · cases op with
        | install cb arg => simp only [Op.first, allocCall] at hc; split at hc <;> cases hc
        | _ => cases hc
      · exact .inl hc
  | step th' r =>
    rcases eq_or_ne th th' with rfl | hn
    · cases h with
      | goto hm => rw [Sys.goto_calls, Function.update_self] at hc; cases hm <;> cases hc
      | clear hk | settime hk =>
        rw [Sys.goto_calls, Function.update_self] at hc
        generalize s.calls th = c' at hk
        cases hk <;> cases hc
      | taken | deinitEvent | deinitSkip | deinitMutex =>
        simp only [allocFrom_calls, deinitFrom_calls, Function.update_self, allocCall, deinitCall] at hc
        split at hc <;> cases hc
      | setSched hs =>
        rw [Sys.goto_calls, Function.update_self] at hc
        cases hc
        exact .inr ⟨by rw [hs]; rfl, by simp [bitSched]⟩
      | done | errReset | publish | started | stopped | zombie =>
        rw [Sys.done_calls, Function.update_self] at hc
        cases hc
      | claim | fill | create | createErr | initLock | errClose | unStopped | unUnlock | unLock | deinitExit
      | deinitTrigger | deinitClose | deinitReset =>
        rw [Sys.goto_calls, Function.update_self] at hc
        cases hc
    · exact .inl (h.frame_others.2 th hn ▸ hc)

/-- The bits of a timer that is owed. -/
theorem Kept.bits_step {a : Act n m} {t : Fin n} (hi : Kept s g p) (hf : Facts s) (hat : Attentive s a)
    (h : Move s a s') (ho : Owed s p t) (hn : (Arms.record s a s' g).latest t ∉ (Arms.record s a s' g).fired) :
    (s'.state t).has .sched = true ∨ (s'.state t).has .active = true := by
  obtain ⟨hl, hd, hca⟩ := ho.calls hi hf
  have hlat : (Arms.record s a s' g).latest t = g.latest t := hf.latest hl.1 fun th r us _ e' => by
    rcases hca th (by rw [e']; rfl) with e | e <;> rw [e'] at e <;> cases e
  have hn0 : g.latest t ∉ g.fired := fun e => hn (hlat ▸ Arms.record_fired e)
  have hb := hi.bits t ho hn0
  cases h.signal t with
  | same h1 h2 => rw [h1, h2]; exact hb
  | @clear th r c hk =>
    have htm : (s.calls th).timer = some t := by
      generalize s.calls th = c' at hk
      cases hk <;> rfl
    rcases hca th htm with e | e
    · rw [e] at hk; cases hk
    · generalize s.calls th = c' at hk e
      cases hk <;> cases e
  | setSched _ _ h1 => exact .inl h1
  | cas _ _ _ _ h1 => exact .inr h1
  | clearSched hw _ h1 =>
    simp only [Attentive, hw, not_and, Bool.not_eq_false] at hat
    rw [h1]
    exact .inr (hb.elim hat id)
  | clearActive hw _ h1 =>
    rw [h1]
    rcases hb with hb | hb
    · exact .inl hb
    · simp only [Attentive, hw] at hat
      rcases hi.tested t (by rw [hw]; simp [Worker.tested]) hb with e | e
      · exact absurd e hn0
      · exact absurd ⟨e, hb⟩ hat
  | zero _ hz =>
    rcases hz with hz | ⟨th, hc⟩ | ⟨th, hc⟩
    · rw [hf.own.cleaned t hz] at hl; cases hl.2
    · rw [(hf.own.claimed th t hc).2] at hl; cases hl.1
    · have := hd th
      rw [hc] at this
      cases this

theorem Move.same_cb {a : Act n m} (h : Move s a s') {i : Fin n} (hn : ∀ th, (s.calls th).claims ≠ some i) :
    s'.cb i = s.cb i := by
  cases h with
  | enter _ _ he => subst he; rw [enter_cb]
  | @fill th _ _ _ k hc =>
    have hk : k ≠ i := fun e => hn th (by rw [hc, e]; rfl)
    exact Function.update_of_ne (Ne.symm hk) ..
  | _ => rfl

/-- How the worker comes past the test of `BIT_ACTIVE`. -/
theorem Move.tested_of {r : Reply} (h : Move s (.work r) s') {t : Fin n} (hw : s'.worker.tested t = true) :
    s.worker.tested t = true ∨
      (∃ j, s.worker = .service j (.alarm t .test) ∧ s'.worker = .service j (.alarm t .callback)) ∨
      (s'.state t).has .active = false ∨ s'.cb t = none := by
  cases h with
  | work hm =>
    cases hm with
    | noCb _ _ hcb => cases of_decide_eq_true hw; exact .inr (.inr (.inr hcb))
    | fire hw0 => cases of_decide_eq_true hw; exact .inr (.inl ⟨_, hw0, rfl⟩)
    | skip _ _ ha => cases of_decide_eq_true hw; exact .inr (.inr (.inl ha))
    | ret hw0 => rw [hw0]; exact .inl hw
    | unused | noCas => rw [Sys.work_worker, prepareFrom] at hw; split at hw <;> cases hw
    | invalid | other => rw [Sys.work_worker, findFrom] at hw; split at hw <;> cases hw
    | _ => cases hw
  | unlock hw0 => rw [hw0]; exact .inl hw
  | pass | deinitLock | clearSched => rw [Sys.work_worker, prepareFrom] at hw; split at hw <;> cases hw
  | read =>
    rw [Sys.work_worker, findFrom] at hw
    split at hw
    · split at hw <;> cases hw
    · cases hw
  | _ => cases hw

theorem Kept.tested_step {a : Act n m} {t : Fin n} (hi : Kept s g p) (hok : g.Ok s) (hf : Facts s) (h : Move s a s')
    (hw : s'.worker.tested t = true) (ha : (s'.state t).has .active = true) :
    (Arms.record s a s' g).latest t ∈ (Arms.record s a s' g).fired ∨ s'.cb t = none := by
  have ha0 : (s.state t).has .active = true := by
    rcases h.active_of ha with e | ⟨_, _, _, e, _⟩
    · exact e
    · rw [e] at hw; cases hw
  have hq : ¬s.Quiet t := fun hq => by rw [hq.2] at ha0; cases ha0
  have hl := hf.blank.live hf.own hf.handles hf.stopped hq
  have hlat : (Arms.record s a s' g).latest t = g.latest t := hf.latest hl.1 fun th r us _ e =>
    hq (hf.cleared th t (by rw [e]; rfl))
  have hcb := h.same_cb fun th hc => hq (hf.blank th t hc)
  have hold : s.worker.tested t = true →
      (Arms.record s a s' g).latest t ∈ (Arms.record s a s' g).fired ∨ s'.cb t = none := fun hw0 => by
    rw [hlat, hcb]
    exact (hi.tested t hw0 ha0).imp_left Arms.record_fired
  cases a with
  | work r =>
    rcases h.tested_of hw with hw0 | ⟨j, hw0, hw1⟩ | h0 | h0
    · exact hold hw0
    · have hrec : Arms.record s (.work r) s' g = g.fire t := by simp [Arms.record, Arms.work, hw0, hw1]
      rw [hlat, hrec, Arms.fire, ((hok.slot t).active ha0).1]
      exact .inl (List.mem_cons_self ..)
    · rw [h0] at ha; cases ha
    · exact .inr h0
  | call | step | expire | tick => exact hold ((h.frame_worker (by simp)).1 ▸ hw)

/-- One step of the system. -/
theorem Kept.step {a : Act n m} (hi : Kept s g p) (hok : g.Ok s) (hf : Facts s) (hat : Attentive s a)
    (h : Move s a s') : Kept s' (Arms.record s a s' g) (Pledges.record (s, g) a (s', Arms.record s a s' g) p) := by
  refine ⟨fun t hp => ?_, fun t ho hn => ?_, fun t hw ha => hi.tested_step hok hf h hw ha⟩
  · cases a with
    | work r => exact Pledged.work hi hf h nofun h.frame_calls hp
    | tick | expire => exact Pledged.work hi hf h nofun (by cases h; rfl) hp
    | call th op => exact Pledged.enter hi hf h hp
    | step th r => exact Pledged.call hi hf h hp
  · suffices hown : Owed s p t ∨ (s'.state t).has .sched = true by
      exact hown.elim (fun ho => hi.bits_step hf hat h ho hn) .inl
    rcases ho with hp | ⟨th, hc⟩
    · refine .inl ?_
      cases a with
      | work | expire | tick => exact .inl hp
      | call th op => exact .inl (Pledges.begin_of hp).1
      | step th r =>
        rcases Pledges.call_of hp with ⟨us, err, hc, -⟩ | ⟨hp0, -⟩
        · exact .inr ⟨th, by rw [hc]; rfl⟩
        · exact .inl hp0
    · exact (h.promises_of hc).imp (fun hc => .inr ⟨th, hc⟩) And.right

theorem kept_of_reach {x : (Sys n m × Arms n) × Pledges n}
    (hr : (pledges n m).Reach (fun x a => Heedful x.1.1 a) x) : Kept x.1.1 x.1.2 x.2 := by
  refine hr.record_invariant (I := fun y p => Kept y.1 y.2 p) ?_ fun y a y' p hr hi hp h => ?_
  · rintro ⟨s, g⟩ ⟨⟨fd, -, rfl⟩, -⟩
    refine ⟨fun t h => absurd rfl h, fun t h => ?_, nofun⟩
    rcases h with h | ⟨th, h⟩ <;> simp_all [ctxInit, Call.promises]
  · have hy := (hr.mono fun _ _ h => h.1).fst (P := fun (y : Sys n m × Arms n) a => Serial y.1 a)
    obtain ⟨h1, h2⟩ := Lts.record_step h
    have hk := hi.step (armsOk_of_reach hy) (facts_of_reach (hy.fst (P := Serial))) hp.2 (step_move h1)
    rw [← h2] at hk
    exact hk

/-! ## No lost restart -/

/-- The worker is at slot `t` in its pass and has not pushed it. -/
def Worker.examines (t : Fin n) : Worker n → Bool
  | .prepare i .testUsed | .prepare i .testZombie | .prepare i .testActive | .prepare i .cas => decide (i = t)
  | _ => false

/-- At the `mask_cas` the timer is not active. -/
def Untaken (s : Sys n m) : Prop := ∀ t, s.worker = .prepare t .cas → (s.state t).has .active = false

theorem Untaken.step {a : Act n m} (hi : Untaken s) (h : Move s a s') : Untaken s' := by
  intro t hw
  refine Bool.eq_false_iff.mpr fun ha => ?_
  rcases h.active_of ha with ha0 | ⟨_, _, _, e, _⟩
  · cases a with
    | work r =>
      cases h with
      | work hm =>
        cases hm with
        | inactive _ h0 => cases hw; rw [h0] at ha0; cases ha0
        | unused | noCas => rw [Sys.work_worker, prepareFrom] at hw; split at hw <;> cases hw
        | invalid | other => rw [Sys.work_worker, findFrom] at hw; split at hw <;> cases hw
        | _ => cases hw
      | pass | deinitLock | clearSched => rw [Sys.work_worker, prepareFrom] at hw; split at hw <;> cases hw
      | read =>
        rw [Sys.work_worker, findFrom] at hw
        split at hw
        · split at hw <;> cases hw
        · cases hw
      | _ => cases hw
    | call | step | expire | tick =>
      rw [hi t ((h.frame_worker (by simp)).1 ▸ hw)] at ha0
      cases ha0
  · rw [hw] at e; cases e

theorem untaken_of_reach {P : Sys n m → Act n m → Prop} (hr : (system n m).Reach P s) : Untaken s := by
  refine hr.invariant ?_ fun _ _ _ _ hi _ h => hi.step (step_move h)
  rintro s ⟨fd, -, rfl⟩ t
  nofun

/-- A pass does not leave out a timer that is installed and has one of the bits. -/
theorem Move.examined {r : Reply} (h : Move s (.work r) s') (hu : Untaken s) {t : Fin n}
    (hl : (s.state t).has .used = true ∧ (s.state t).has .zombie = false)
    (hb : (s.state t).has .sched = true ∨ (s.state t).has .active = true) (hw : s.worker.examines t = true) :
    s'.worker.examines t = true ∨ s'.worker = .prepare t .push := by
  cases h with
  | work hm =>
    cases hm with
    | unused hw0 h0 => rw [hw0] at hw; cases of_decide_eq_true hw; rw [h0] at hl; cases hl.1
    | zombie hw0 h0 => rw [hw0] at hw; cases of_decide_eq_true hw; rw [h0] at hl; cases hl.2
    | active hw0 => rw [hw0] at hw; cases of_decide_eq_true hw; exact .inr rfl
    | used hw0 | alive hw0 | inactive hw0 => rw [hw0] at hw; exact .inl hw
    | noCas hw0 h0 =>
      rw [hw0] at hw
      cases of_decide_eq_true hw
      rw [h0, hu _ hw0] at hb
      rcases hb with hb | hb <;> cases hb
    | _ hw0 => rw [hw0] at hw; cases hw
  | cas hw0 => rw [hw0] at hw; cases of_decide_eq_true hw; exact .inr rfl
  | _ hw0 => rw [hw0] at hw; cases hw

/-- **No restart is lost** in runs with serial calls and an attentive worker: from the return of a start or restart with
0 until the callback is started for it, or a later call on the timer begins, one of the bits is set. So
`gabs_timer_active` answers true, and a pass that comes to the slot pushes its pollfd. -/
theorem restart_kept {x : (Sys n m × Arms n) × Pledges n} (hr : (pledges n m).Reach (fun x a => Heedful x.1.1 a) x)
    {t : Fin n} {a : Nat} (hp : x.2 t = some a) (hn : some a ∉ x.1.2.fired) :
    ((x.1.1.state t).has .sched = true ∨ (x.1.1.state t).has .active = true) ∧
    (∀ th r s', x.1.1.calls th = .active t → step x.1.1 (.step th r) = some s' → s'.ret th = some (.active true)) ∧
    ∀ r s', x.1.1.worker.examines t = true → step x.1.1 (.work r) = some s' →
      s'.worker.examines t = true ∨ s'.worker = .prepare t .push := by
  have hk := kept_of_reach hr
  have hpl := hk.pledged t (by rw [hp]; nofun)
  have hb := hk.bits t (.inl (by rw [hp]; nofun)) (by rw [← hpl.latest, hp]; exact hn)
  have hy : (arms n m).Reach (fun y a => Heedful y.1 a) x.1 :=
    hr.fst (P := fun (y : Sys n m × Arms n) a => Heedful y.1 a)
  have hs := hy.fst (P := Heedful)
  refine ⟨hb, fun th r s' hc hst => ?_, fun r s' hw hst =>
    (step_move hst).examined (untaken_of_reach hs) ⟨hpl.owns.1, hpl.alive⟩ hb hw⟩
  rw [((step_move hst).asked hc).2]
  rcases hb with e | e <;> simp [e]

/-- A timer that is installed and restarted, and the worker's pass up to the `mask_clear(BIT_SCHED)`. -/
def untilClear : List (Act 1 1) :=
  let c : Thread 1 := .client 0
  [Act.call c (.install (some 7) 0), .step c .ok, .step c .ok, .step c (.fd 4), .step c .ok, .step c .ok,
    .call c (.restart 0 5), .step c .ok, .step c .ok, .step c .ok, .step c .ok] ++ List.replicate 6 (Act.work .ok)

theorem restart_kept_run : ∃ x : (Sys 1 1 × Arms 1) × Pledges 1, x.2 0 = some 0 ∧ x.1.2.fired = [] ∧
    ((x.1.1.state 0).has .sched = true ∨ (x.1.1.state 0).has .active = true) := by
  obtain ⟨x, hr, hp, hf⟩ := Lts.Reach.run (M := pledges 1 1) (P := fun x a => Heedful x.1.1 a)
    (Q := fun x => x.2 0 = some 0 ∧ x.1.2.fired = []) (s := ((ctxInit 1 1 3, .empty), fun _ => none))
    ⟨⟨⟨3, by decide, rfl⟩, rfl⟩, rfl⟩ (untilClear ++ [.work .ok]) (by decide)
  exact ⟨x, hp, hf, (restart_kept hr hp (by rw [hf]; nofun)).1⟩

/-- **A restart is lost** when all of it lands between the `mask_cas` and the `mask_clear(BIT_SCHED)` of the worker. -/
theorem restart_lost : ∃ x : (Sys 1 1 × Arms 1) × Pledges 1, (pledges 1 1).Reach (fun x a => Serial x.1.1 a) x ∧
    x.2 0 = some 1 ∧ x.1.2.fired = [] ∧ (∀ th, x.1.1.calls th = .idle) ∧ x.1.1.Live 0 ∧
    (x.1.1.state 0).has .sched = false ∧ (x.1.1.state 0).has .active = false :=
  let c : Thread 1 := .client 0
  Lts.Reach.run (s := ((ctxInit 1 1 3, .empty), fun _ => none)) ⟨⟨⟨3, by decide, rfl⟩, rfl⟩, rfl⟩
    (untilClear ++ .call c (.restart 0 5) :: List.replicate 4 (Act.step c .ok) ++ [.work .ok]) (by decide)

end Gabs.Timer.Posix
