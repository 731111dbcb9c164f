import Gabs.Timer.Posix.Signal

/-!
# The POSIX timer: armings

An arming is made by the `timerfd_settime` of a `timer_restart`.

- `Arms`: a history of the armings, of the ones the bits stand for, and of those that have fired;
- `Arms.At`, `Arms.Ok`: the bits of a timer stand for its latest arming, and `BIT_SCHED` for one that has not fired;
- `Arms.OnTime`: a readable timerfd means that the delay of the latest arming has elapsed;
- `fires_once`: an arming fires at most once, only while it is the latest of its timer, and never early.
-/

namespace Gabs.Timer.Posix

open Gabs.Lib

variable {n m : Nat}

/-- Armings are numbered; `due` is the instant the delay of one has elapsed. For each slot, `latest` is the last arming
of the timer installed there, and `sched`, `active` are the armings that `BIT_SCHED` and `BIT_ACTIVE` were set for.
`fired` lists the armings whose callback was started. -/
structure Arms (n : Nat) where
  next : Nat
  due : Nat → Nat
  latest : Fin n → Option Nat
  sched : Fin n → Option Nat
  active : Fin n → Option Nat
  fired : List (Option Nat)

def Arms.empty : Arms n := ⟨0, fun _ => 0, fun _ => none, fun _ => none, fun _ => none, []⟩

namespace Arms

/-- A new timer is in slot `i`. -/
def claim (g : Arms n) (i : Fin n) : Arms n := { g with latest := Function.update g.latest i none }

/-- Timer `t` is armed for the instant `due`. -/
def arm (g : Arms n) (t : Fin n) (due : Nat) : Arms n :=
  { g with
    next := g.next + 1
    due := Function.update g.due g.next due
    latest := Function.update g.latest t (some g.next) }

/-- `BIT_SCHED` is set for the latest arming. -/
def schedule (g : Arms n) (t : Fin n) : Arms n := { g with sched := Function.update g.sched t (g.latest t) }

/-- `BIT_ACTIVE` takes over from `BIT_SCHED`. -/
def activate (g : Arms n) (i : Fin n) : Arms n := { g with active := Function.update g.active i (g.sched i) }

/-- The callback is started for the arming `BIT_ACTIVE` stands for. -/
def fire (g : Arms n) (i : Fin n) : Arms n := { g with fired := g.active i :: g.fired }

/-- The history after a step of the worker. -/
def work (s s' : Sys n m) (g : Arms n) : Arms n :=
  match s.worker with
  | .prepare i .cas => if s'.worker = .prepare i .push then g.activate i else g
  | .service j (.alarm i .test) => if s'.worker = .service j (.alarm i .callback) then g.fire i else g
  | _ => g

/-- The history after a step of a call. -/
def call (s : Sys n m) (g : Arms n) : Call n → Arms n
  | .install _ _ (.alloc i) => if (s.state i).has .alloc then g else g.claim i
  | .restart t us .settime => g.arm t (s.clock + (toItimerspec us).ns)
  | .restart t _ (.setSched _) => g.schedule t
  | _ => g

/-- The history after one more step. -/
def record (s : Sys n m) (a : Act n m) (s' : Sys n m) (g : Arms n) : Arms n :=
  match a with
  | .work _ => g.work s s'
  | .step th _ => g.call s (s.calls th)
  | _ => g

/-- The latest arming of timer `t` has not fired. -/
def Fresh (g : Arms n) (t : Fin n) : Prop := ∃ a, g.latest t = some a ∧ some a ∉ g.fired

/-- The delay of the latest arming of timer `t` has elapsed at `now`. -/
def Elapsed (g : Arms n) (t : Fin n) (now : Nat) : Prop := ∃ a, g.latest t = some a ∧ g.due a ≤ now

end Arms

/-- The system with its armings. -/
def arms (n m : Nat) : Lts (Sys n m × Arms n) (Act n m) := (system n m).record .empty Arms.record

/-- The worker has tested `BIT_ACTIVE` of timer `t` and not cleared it. -/
def Worker.tested (t : Fin n) : Worker n → Bool
  | .service _ (.alarm i .callback) | .service _ (.alarm i .unlock) | .service _ (.alarm i .clear) => decide (i = t)
  | _ => false

/-! ## What the bits stand for -/

/-- **The bits of timer `t` stand for its latest arming.** -/
structure Arms.At (s : Sys n m) (g : Arms n) (t : Fin n) : Prop where
  setting : ∀ th, (s.calls th).arms = some t → g.Fresh t
  sched : (s.state t).has .sched = true → g.sched t = g.latest t ∧ g.Fresh t
  active : (s.state t).has .active = true →
    g.active t = g.latest t ∧ g.latest t ≠ none ∧ (g.Fresh t ∨ s.worker.tested t = true)

/-- **The history agrees with the state.** -/
structure Arms.Ok (s : Sys n m) (g : Arms n) : Prop where
  lt_next : ∀ t a, g.latest t = some a → a < g.next
  inj : ∀ t t' a, g.latest t = some a → g.latest t' = some a → t = t'
  fired_lt : ∀ x ∈ g.fired, ∃ a, x = some a ∧ a < g.next
  nodup : g.fired.Nodup
  slot : ∀ t, g.At s t

variable {s s' : Sys n m} {g g' : Arms n}

/-- The worker goes on from the test to the clear. -/
theorem Move.tested {r : Reply} (h : Move s (.work r) s') (hb : InBatch s) {t : Fin n} (hw : s.worker.tested t = true) :
    s'.worker.tested t = true ∨ (s'.state t).has .active = false := by
  cases h with
  | work hm =>
    cases hm with
    | @batchEnd j p hw' hj =>
      have hp : p ≠ .head := by rintro rfl; rw [hw'] at hw; cases hw
      have := hb j p hw' hp
      rw [List.getElem?_eq_none_iff] at hj
      omega
    | ret hw' => rw [hw'] at hw; exact .inl hw
    | _ hw' => rw [hw'] at hw; cases hw
  | unlock hw' => rw [hw'] at hw; exact .inl hw
  | @clearActive _ j i _ hw' =>
    rw [hw'] at hw
    have : i = t := of_decide_eq_true hw
    subst this
    exact .inr (by simp [bitActive])
  | _ hw' => rw [hw'] at hw; cases hw

/-- A step that is none of those that change the history of timer `t`. -/
theorem Arms.At.keep {a : Act n m} (h : Move s a s') (hb : InBatch s) {t : Fin n} (hi : g.At s t)
    (h1 : g'.latest t = g.latest t) (h2 : g'.sched t = g.sched t) (h3 : g'.active t = g.active t)
    (h4 : g.Fresh t → g'.Fresh t) (n1 : ¬a.schedules s t)
    (n2 : s.worker = .prepare t .cas → s'.worker ≠ .prepare t .push)
    (n3 : ∀ th r us, a = .step th r → s.calls th ≠ .restart t us .settime) : g'.At s' t := by
  refine ⟨fun th hc => ?_, fun hs => ?_, fun ha => ?_⟩
  · rcases h.arms_of hc with hc | ⟨us, r, e, hc⟩
    · exact h4 (hi.setting th hc)
    · exact absurd hc (n3 th r us e)
  · rcases h.sched_of hs with hs | ⟨th, r, us, err, e, hc, -⟩
    · rw [h1, h2]
      exact ⟨(hi.sched hs).1, h4 (hi.sched hs).2⟩
    · exact absurd (by rw [e]; exact ⟨us, err, hc⟩) n1
  · rcases h.active_of ha with ha0 | ⟨-, -, hw, hw', -⟩
    · obtain ⟨e1, e2, e3⟩ := hi.active ha0
      rw [h1, h3]
      refine ⟨e1, e2, e3.imp h4 fun hw => ?_⟩
      cases a with
      | work r =>
        rcases h.tested hb hw with h | h
        · exact h
        · rw [h] at ha; cases ha
      | call | step | expire | tick => rw [(h.frame_worker nofun).1]; exact hw
    · exact absurd hw' (n2 hw)

/-- A step after which timer `t` is quiet. -/
theorem Arms.At.of_quiet {t : Fin n} (hq : s'.Quiet t) (hc : ∀ th, (s'.calls th).arms = some t → g'.Fresh t) :
    g'.At s' t :=
  ⟨hc, fun h => (by rw [hq.1] at h; cases h), fun h => (by rw [hq.2] at h; cases h)⟩

/-! ## The invariant -/

/-- The history does not change. -/
theorem Arms.Ok.keep (hi : g.Ok s) {a : Act n m} (h : Move s a s') (hb : InBatch s) (n1 : ∀ t, ¬a.schedules s t)
    (n2 : ∀ t, s.worker = .prepare t .cas → s'.worker ≠ .prepare t .push)
    (n3 : ∀ t th r us, a = .step th r → s.calls th ≠ .restart t us .settime) : g.Ok s' :=
  ⟨hi.lt_next, hi.inj, hi.fired_lt, hi.nodup, fun t => .keep h hb (hi.slot t) rfl rfl rfl id (n1 t) (n2 t) (n3 t)⟩

/-- A slot is claimed. -/
theorem Arms.Ok.claim (hi : g.Ok s) {th : Thread m} {r : Reply} {cb : Option Nat} {arg : Nat} {i : Fin n}
    (h : Move s (.step th r) s') (hb : InBatch s) (hf : Facts s) (hc : s.calls th = .install cb arg (.alloc i))
    (ha : (s.state i).has .alloc = false) : (g.claim i).Ok s' := by
  have hlt : ∀ t a, (g.claim i).latest t = some a → g.latest t = some a := fun t a e => by
    simp only [Arms.claim, Function.update_apply] at e
    split at e
    · cases e
    · exact e
  have hw := (h.frame_worker nofun).1
  refine ⟨fun t a e => hi.lt_next t a (hlt t a e), fun t t' a e e' => hi.inj t t' a (hlt t a e) (hlt t' a e'),
    hi.fired_lt, hi.nodup, fun t => ?_⟩
  by_cases ht : t = i
  · subst ht
    have hn : ¬Act.schedules s t (.step th r) := fun ⟨_, _, e⟩ => by rw [hc] at e; cases e
    refine .of_quiet (h.quiet (quiet_of_zero (hf.handles.zero t ha)) hn) fun th' e => ?_
    rcases h.arms_of e with e | ⟨us, r, e, e'⟩
    · have := (hf.handles.live th' t (timer_of_arms e).1).1
      rw [(hf.own.free ha).2.2.1] at this
      cases this
    · cases e; rw [hc] at e'; cases e'
  · have hl : (g.claim i).latest t = g.latest t := Function.update_of_ne ht ..
    refine .keep h hb (hi.slot t) hl rfl rfl (fun ⟨a, e, hn⟩ => ⟨a, hl.trans e, hn⟩) ?_ (fun e e' => ?_) ?_
    · rintro ⟨_, _, e⟩; rw [hc] at e; cases e
    · rw [hw, e] at e'; cases e'
    · rintro _ _ us e e'; cases e; rw [hc] at e'; cases e'

/-- A timer is armed. -/
theorem Arms.Ok.arm (hi : g.Ok s) {th : Thread m} {r : Reply} {t : Fin n} {us due : Nat}
    (h : Move s (.step th r) s') (hb : InBatch s) (hf : Facts s) (hc : s.calls th = .restart t us .settime) :
    (g.arm t due).Ok s' := by
  have hself : (g.arm t due).latest t = some g.next := Function.update_self ..
  have hother : ∀ k, k ≠ t → (g.arm t due).latest k = g.latest k := fun k hk => Function.update_of_ne hk ..
  have hfresh : some g.next ∉ g.fired := fun e => by
    obtain ⟨a, h1, h2⟩ := hi.fired_lt _ e
    cases h1
    exact lt_irrefl _ h2
  have hw := (h.frame_worker nofun).1
  have hn : ∀ k, ¬Act.schedules s k (.step th r) := fun k ⟨_, _, e⟩ => by rw [hc] at e; cases e
  refine ⟨fun k a e => ?_, fun k k' a e e' => ?_, fun x hx => ?_, hi.nodup, fun k => ?_⟩
  · by_cases hk : k = t
    · rw [hk, hself] at e; cases e; exact Nat.lt_succ_self _
    · rw [hother k hk] at e; exact Nat.lt_succ_of_lt (hi.lt_next k a e)
  · by_cases hk : k = t <;> by_cases hk' : k' = t
    · rw [hk, hk']
    · rw [hk, hself] at e
      rw [hother k' hk'] at e'
      cases e
      exact absurd (hi.lt_next k' _ e') (lt_irrefl _)
    · rw [hk', hself] at e'
      rw [hother k hk] at e
      cases e'
      exact absurd (hi.lt_next k _ e) (lt_irrefl _)
    · rw [hother k hk] at e
      rw [hother k' hk'] at e'
      exact hi.inj k k' a e e'
  · obtain ⟨a, h1, h2⟩ := hi.fired_lt x hx
    exact ⟨a, h1, Nat.lt_succ_of_lt h2⟩
  · by_cases hk : k = t
    · subst hk
      exact .of_quiet (h.quiet (hf.cleared th k (by rw [hc]; rfl)) (hn k)) fun _ _ => ⟨_, hself, hfresh⟩
    · have hl := hother k hk
      refine .keep h hb (hi.slot k) hl rfl rfl (fun ⟨a, e, hn⟩ => ⟨a, hl.trans e, hn⟩) (hn k) (fun e e' => ?_) ?_
      · rw [hw, e] at e'; cases e'
      · rintro _ _ us e e'
        cases e
        rw [hc] at e'
        cases e'
        exact hk rfl

/-- `BIT_SCHED` is set. -/
theorem Arms.Ok.schedule (hi : g.Ok s) {th : Thread m} {r : Reply} {t : Fin n} {us : Nat} {err : Option Nat}
    (h : Move s (.step th r) s') (hb : InBatch s) (hf : Facts s) (hc : s.calls th = .restart t us (.setSched err)) :
    (g.schedule t).Ok s' := by
  have hw := (h.frame_worker nofun).1
  have hfr : g.Fresh t := (hi.slot t).setting th (by rw [hc]; rfl)
  refine ⟨hi.lt_next, hi.inj, hi.fired_lt, hi.nodup, fun k => ?_⟩
  by_cases hk : k = t
  · subst hk
    refine ⟨fun _ _ => hfr, fun _ => ⟨Function.update_self .., hfr⟩, fun ha => ?_⟩
    rcases h.active_of ha with e | ⟨r, e, -⟩
    · rw [(hf.cleared th k (by rw [hc]; rfl)).2] at e; cases e
    · cases e
  · refine .keep h hb (hi.slot k) rfl (Function.update_of_ne hk ..) rfl id ?_ (fun e e' => ?_) ?_
    · rintro ⟨_, _, e⟩
      rw [hc] at e
      cases e
      exact hk rfl
    · rw [hw, e] at e'; cases e'
    · rintro _ _ us e e'; cases e; rw [hc] at e'; cases e'

/-- `BIT_ACTIVE` is set. -/
theorem Arms.Ok.activate (hi : g.Ok s) {r : Reply} {i : Fin n} (h : Move s (.work r) s') (hb : InBatch s)
    (hw : s.worker = .prepare i .cas) (hw' : s'.worker = .prepare i .push) : (g.activate i).Ok s' := by
  refine ⟨hi.lt_next, hi.inj, hi.fired_lt, hi.nodup, fun k => ?_⟩
  by_cases hk : k = i
  · subst hk
    have hs : (s.state k).has .sched = true := by
      cases h with
      | work hm =>
        cases hm with
        | noCas => rw [Sys.work_worker, prepareFrom] at hw'; split at hw' <;> cases hw'
        | _ hw0 => cases hw.symm.trans hw0
      | cas hw0 hm => cases hw.symm.trans hw0; exact (has_of_maskCas hm).1
      | _ hw0 => cases hw.symm.trans hw0
    obtain ⟨e, hfr⟩ := (hi.slot k).sched hs
    refine ⟨fun _ _ => hfr, fun _ => ⟨e, hfr⟩, fun _ => ⟨(Function.update_self ..).trans e, ?_, .inl hfr⟩⟩
    obtain ⟨a, ha, -⟩ := hfr
    show g.latest k ≠ none
    rw [ha]
    exact Option.some_ne_none a
  · refine .keep h hb (hi.slot k) rfl rfl (Function.update_of_ne hk ..) id (by rintro ⟨⟩) (fun e => ?_) (by simp)
    rw [hw] at e
    cases e
    exact absurd rfl hk

/-- The callback is started only where `BIT_ACTIVE` is set. -/
theorem Move.fires {r : Reply} (h : Move s (.work r) s') {j : Nat} {i : Fin n}
    (hw : s.worker = .service j (.alarm i .test)) (hw' : s'.worker = .service j (.alarm i .callback)) :
    (s.state i).has .active = true := by
  cases h with
  | work hm =>
    cases hm with
    | fire hw0 _ ha => cases hw.symm.trans hw0; exact ha
    | batchEnd | skip => cases hw'
    | _ hw0 => cases hw.symm.trans hw0
  | _ hw0 => cases hw.symm.trans hw0

/-- The callback is started. -/
theorem Arms.Ok.fire (hi : g.Ok s) {r : Reply} {j : Nat} {i : Fin n} (h : Move s (.work r) s') (hb : InBatch s)
    (hf : Facts s) (hw : s.worker = .service j (.alarm i .test)) (hw' : s'.worker = .service j (.alarm i .callback)) :
    (g.fire i).Ok s' := by
  have ha := h.fires hw hw'
  obtain ⟨e1, -, e3⟩ := (hi.slot i).active ha
  obtain ⟨a, hl, hn⟩ : g.Fresh i := e3.resolve_right (by rw [hw]; nofun)
  rw [hl] at e1
  have hfire : (g.fire i).fired = some a :: g.fired := by rw [Arms.fire, e1]
  refine ⟨hi.lt_next, hi.inj, fun x hx => ?_, ?_, fun k => ?_⟩
  · rw [hfire, List.mem_cons] at hx
    rcases hx with rfl | hx
    · exact ⟨a, rfl, hi.lt_next i a hl⟩
    · exact hi.fired_lt x hx
  · rw [hfire]
    exact List.nodup_cons.mpr ⟨hn, hi.nodup⟩
  · by_cases hk : k = i
    · subst hk
      refine ⟨fun th hc => ?_, fun hs => ?_, fun _ => ⟨?_, ?_, .inr (by rw [hw']; simp [Worker.tested])⟩⟩
      · rw [h.frame_calls] at hc
        rw [(hf.cleared th k (timer_of_arms hc).2).2] at ha
        cases ha
      · rcases h.sched_of hs with hs | ⟨_, _, _, _, e, -⟩
        · rcases hf.handover k hs ha with e | e <;> rw [hw] at e <;> cases e
        · cases e
      · exact e1.trans hl.symm
      · show g.latest k ≠ none
        rw [hl]
        nofun
    · refine .keep h hb (hi.slot k) rfl rfl rfl (fun ⟨b, e, hb⟩ => ⟨b, e, ?_⟩) nofun (fun e => ?_) nofun
      · rw [hfire, List.mem_cons, not_or]
        exact ⟨fun e' => hk (hi.inj k i a (by cases e'; exact e) hl), hb⟩
      · rw [hw] at e; cases e

/-- One step of the system. -/
theorem Arms.Ok.step {a : Act n m} (hi : g.Ok s) (hb : InBatch s) (hf : Facts s) (h : Move s a s') :
    (Arms.record s a s' g).Ok s' := by
  cases a with
  | work r =>
    show (g.work s s').Ok s'
    unfold Arms.work
    split
    · rename_i i hw
      split
      · rename_i hw'; exact hi.activate h hb hw hw'
      · rename_i hw'
        exact hi.keep h hb (fun _ => id) (fun t e => by cases hw.symm.trans e; exact hw') nofun
    · rename_i j i hw
      split
      · rename_i hw'; exact hi.fire h hb hf hw hw'
      · exact hi.keep h hb (fun _ => id) (fun t e => by cases hw.symm.trans e) nofun
    · rename_i hn _
      exact hi.keep h hb (fun _ => id) (fun t e => absurd e (hn t)) nofun
  | step th r =>
    have hw := (h.frame_worker nofun).1
    have hk : (∀ t us err, s.calls th ≠ .restart t us (.setSched err)) →
        (∀ t us, s.calls th ≠ .restart t us .settime) → g.Ok s' := fun n1 n2 =>
      hi.keep h hb (fun t ⟨us, err, e⟩ => n1 t us err e) (fun t e e' => by rw [hw, e] at e'; cases e')
        fun t th' r us e => by cases e; exact n2 t us
    show (g.call s (s.calls th)).Ok s'
    unfold Arms.call
    split
    · rename_i cb arg i hc
      split
      · exact hk (by simp [hc]) (by simp [hc])
      · rename_i ha; exact hi.claim h hb hf hc (by simpa using ha)
    · rename_i t us hc; exact hi.arm h hb hf hc
    · rename_i t us err hc; exact hi.schedule h hb hf hc
    · rename_i h1 h2 h3; exact hk h3 h2
  | call | expire | tick =>
    refine hi.keep h hb (fun _ => id) (fun t e e' => ?_) nofun
    rw [(h.frame_worker nofun).1, e] at e'
    cases e'

theorem armsOk_of_reach {x : Sys n m × Arms n} (hr : (arms n m).Reach (fun x a => Serial x.1 a) x) : x.2.Ok x.1 := by
  refine hr.record_invariant (I := fun s g => Arms.Ok s g) ?_ fun s a s' g hr hi _ h => ?_
  · rintro s ⟨fd, -, rfl⟩
    refine ⟨nofun, nofun, nofun, List.nodup_nil, fun t => .of_quiet (quiet_of_zero rfl) nofun⟩
  · have hs := hr.fst (P := Serial)
    exact hi.step (inBatch_of_reach hs) (facts_of_reach hs) (step_move h)

/-! ## Delays -/

/-- **Expirations are on time**: an armed timerfd is set for the latest arming, a readable one means that its delay has
elapsed, and so does `POLLIN` on an active timer in the batch that is served. -/
structure Arms.OnTime (s : Sys n m) (g : Arms n) : Prop where
  timer : ∀ t, s.Holds t → ∀ tf, s.fds (s.fd t) = some tf →
    (tf.expired = true → g.Elapsed t s.clock) ∧ ∀ d, tf.deadline = some d → g.Elapsed t d
  served : ∀ j p, s.worker = .service j p → ∀ t, (s.state t).has .active = true → ∀ pfd ∈ s.pfds,
    pfd.revents = .pollin → pfd.fd = s.fd t → g.Elapsed t s.clock

/-- The clock does not go back. -/
theorem Move.clock_le {a : Act n m} (h : Move s a s') : s.clock ≤ s'.clock := by
  cases h with
  | tick => exact Nat.le_add_right ..
  | enter _ _ he => subst he; rw [enter_clock]
  | _ => exact le_refl _

/-- The latest arming stays the same until a claim or a `timerfd_settime`, and what has fired stays fired. -/
theorem Arms.record_latest {a : Act n m} {t : Fin n} (n1 : ¬a.claims s t)
    (n2 : ∀ th r us, a = .step th r → s.calls th ≠ .restart t us .settime) :
    (Arms.record s a s' g).latest t = g.latest t := by
  cases a with
  | work r =>
    show (g.work s s').latest t = g.latest t
    unfold Arms.work
    split <;> try split
    all_goals rfl
  | step th r =>
    show (g.call s (s.calls th)).latest t = g.latest t
    unfold Arms.call
    split
    · rename_i cb arg i hc
      split
      · rfl
      · rename_i ha
        have hne : t ≠ i := by
          rintro rfl
          exact n1 ⟨⟨cb, arg, hc⟩, by simpa using ha⟩
        exact Function.update_of_ne hne ..
    · rename_i k us hc
      have hne : t ≠ k := by
        rintro rfl
        exact n2 th r us rfl hc
      exact Function.update_of_ne hne ..
    all_goals rfl
  | call | expire | tick => rfl

theorem Arms.record_fired {a : Act n m} {x : Option Nat} (h : x ∈ g.fired) : x ∈ (Arms.record s a s' g).fired := by
  cases a with
  | work r =>
    show x ∈ (g.work s s').fired
    unfold Arms.work
    split <;> try split
    all_goals first | exact h | exact List.mem_cons_of_mem _ h
  | step th r =>
    show x ∈ (g.call s (s.calls th)).fired
    unfold Arms.call
    split <;> try split
    all_goals exact h
  | call | expire | tick => exact h

theorem Arms.record_due {a : Act n m} {b : Nat} (h : b < g.next) : (Arms.record s a s' g).due b = g.due b := by
  cases a with
  | work r =>
    show (g.work s s').due b = g.due b
    unfold Arms.work
    split <;> try split
    all_goals rfl
  | step th r =>
    show (g.call s (s.calls th)).due b = g.due b
    unfold Arms.call
    split <;> try split
    all_goals first | rfl | exact Function.update_of_ne h.ne ..
  | call | expire | tick => rfl

/-- An elapsed delay stays so until the timer is armed again. -/
theorem Arms.Elapsed.keep {a : Act n m} {t : Fin n} {now now' : Nat} (he : g.Elapsed t now) (hi : g.Ok s)
    (n1 : ¬a.claims s t) (n2 : ∀ th r us, a = .step th r → s.calls th ≠ .restart t us .settime) (hn : now ≤ now') :
    (Arms.record s a s' g).Elapsed t now' := by
  obtain ⟨b, hl, hd⟩ := he
  exact ⟨b, (Arms.record_latest n1 n2).trans hl, by rw [Arms.record_due (hi.lt_next t b hl)]; exact hd.trans hn⟩

theorem Arms.OnTime.timer_step {a : Act n m} (ht : g.OnTime s) (hi : g.Ok s) (hf : Facts s) (hset : SettimeOk s a)
    (h : Move s a s') {t : Fin n} (hh : s'.Holds t) {tf : Timerfd} (htf : s'.fds (s'.fd t) = some tf) :
    (tf.expired = true → (Arms.record s a s' g).Elapsed t s'.clock) ∧
      ∀ d, tf.deadline = some d → (Arms.record s a s' g).Elapsed t d := by
  by_cases hcr : a.creates s t
  · have hnew : tf = ⟨none, false⟩ := by
      cases a with
      | step th r =>
        obtain ⟨cb, arg, hc⟩ := hcr
        cases h with
        | goto hm => cases hm <;> simp_all
        | done hm => cases hm <;> simp_all
        | clear hk | settime hk => rw [hc] at hk; cases hk
        | create hc' => cases hc.symm.trans hc'; simpa using htf.symm
        | createErr hc' =>
          cases hc.symm.trans hc'
          exact (not_holds hh hf.own rfl (by rw [hc]; rfl) nofun rfl).elim
        | _ hc' => simp [hc] at hc'
      | _ => exact hcr.elim
    subst hnew
    exact ⟨nofun, nofun⟩
  · obtain ⟨hh0, hfd⟩ := h.holds hcr hh
    rw [hfd] at htf
    have hcl : ¬a.claims s t := fun hc => by
      rcases hh0 with ho | ⟨th, ho⟩
      · have := ho.1
        rw [(hf.own.free hc.free).2.2.1] at this
        cases this
      · exact (hf.own.free hc.free).1 th (claims_of_opened ho)
    by_cases hst : ∃ th r us, a = .step th r ∧ s.calls th = .restart t us .settime
    · obtain ⟨th, r, us, rfl, hc⟩ := hst
      cases h with
      | goto hm =>
        cases hm with
        | settimeErr _ hr => simp only [hr, SettimeOk, hc] at hset
        | _ => simp_all
      | done hm => cases hm <;> simp_all
      | clear hk => rw [hc] at hk; cases hk
      | settime hk =>
        rw [hc] at hk
        cases hk
        simp only [Sys.goto_fds, Sys.setTfd_fds, Function.update_self, toItimerspec_ns, if_false,
          Option.some.injEq] at htf
        subst htf
        refine ⟨nofun, fun d hd => ⟨g.next, ?_, ?_⟩⟩
        · simp [Arms.record, Arms.call, hc, Arms.arm]
        · cases hd
          simp [Arms.record, Arms.call, hc, Arms.arm]
      | _ => simp_all
    · have hn : ∀ th r us, a = .step th r → s.calls th ≠ .restart t us .settime :=
        fun th r us e e' => hst ⟨th, r, us, e, e'⟩
      cases h.setting hf.own hf.closing hf.descriptors hf.handles hh0 with
      | same e =>
        obtain ⟨h1, h2⟩ := ht.timer t hh0 tf (e ▸ htf)
        exact ⟨fun he => (h1 he).keep hi hcl hn h.clock_le, fun d hd => (h2 d hd).keep hi hcl hn le_rfl⟩
      | settime hk _ e =>
        rw [e] at htf
        generalize hc : s.calls _ = c' at hk
        cases hk with
        | restart us => exact absurd hc (hn _ _ us rfl)
        | stop un => cases htf; exact ⟨nofun, nofun⟩
      | expire e hd e' =>
        rw [e'] at htf
        cases htf
        exact ⟨fun _ => ((ht.timer t hh0 _ e).2 _ rfl).keep hi hcl hn (hd.trans h.clock_le), nofun⟩
      | read _ _ _ e =>
        rw [e, Option.map_eq_some_iff] at htf
        obtain ⟨tf0, e0, rfl⟩ := htf
        exact ⟨nofun, fun d hd => ((ht.timer t hh0 tf0 e0).2 d hd).keep hi hcl hn le_rfl⟩
      | close hk => exact absurd hh hk

/-- While the worker serves a batch its pollfds stay the same. -/
theorem Move.serves {a : Act n m} (h : Move s a s') {j : Nat} {p : Service n} (hw : s'.worker = .service j p) :
    (∃ j p, s.worker = .service j p ∧ s'.pfds = s.pfds) ∨
      s.worker = .poll ∧ s'.pfds = s.pfds.map (fun p => { p with revents := s.ready p.fd }) := by
  cases a with
  | work r =>
    cases h with
    | work hm =>
      cases hm with
      | exit | used | zombie | alive | active | inactive | pollErr | batchEnd => cases hw
      | unused | noCas => rw [Sys.work_worker, prepareFrom] at hw; split at hw <;> cases hw
      | quiet h | ready h | valid h | found h | noCb h | enter h | fire h | skip h | ret h | invalid h | other h =>
        exact .inl ⟨_, _, h, rfl⟩
    | pass | deinitLock | clearSched => rw [Sys.work_worker, prepareFrom] at hw; split at hw <;> cases hw
    | close | reset | cas | push | pollEvent | eventRead => cases hw
    | pollTimers h he => exact .inr ⟨h, he⟩
    | read h | lock h | unlock h | clearActive h => exact .inl ⟨_, _, h, rfl⟩
  | call | step | expire | tick =>
    obtain ⟨h1, h2⟩ := h.frame_worker (by simp)
    exact .inl ⟨j, p, h1 ▸ hw, h2⟩

theorem Arms.OnTime.served_step {a : Act n m} (ht : g.OnTime s) (hi : g.Ok s) (hf : Facts s) (h : Move s a s')
    {j : Nat} {p : Service n} (hw : s'.worker = .service j p) {t : Fin n} (ha : (s'.state t).has .active = true)
    {pfd : Pollfd} (hm : pfd ∈ s'.pfds) (hr : pfd.revents = .pollin) (he : pfd.fd = s'.fd t) :
    (Arms.record s a s' g).Elapsed t s'.clock := by
  have ha0 : (s.state t).has .active = true := by
    rcases h.active_of ha with e | ⟨_, _, _, e, _⟩
    · exact e
    · rw [hw] at e; cases e
  have hq : ¬s.Quiet t := fun hq => by rw [hq.2] at ha0; cases ha0
  have hl := hf.blank.live hf.own hf.handles hf.stopped hq
  rw [h.same_fd fun th hc => hq (hf.blank th t hc)] at he
  have hold : g.Elapsed t s.clock := by
    rcases h.serves hw with ⟨j, p, hw0, e⟩ | ⟨hw0, e⟩
    · exact ht.served j p hw0 t ha0 pfd (e ▸ hm) hr he
    · rw [e] at hm
      obtain ⟨q, hq, rfl⟩ := List.mem_map.mp hm
      have ho := hf.own.owns_of_used hl.1 (by rw [hw0]; nofun) (by rw [hw0]; rfl)
      obtain ⟨tf, htf⟩ := Option.ne_none_iff_exists'.mp (hf.descriptors.opened t (.inl ho)).2
      refine (ht.timer t (.inl ho) tf htf).1 ?_
      have hev : ¬(s.eventOpen = true ∧ s.fd t = s.eventfd) := fun ⟨h1, h2⟩ => by
        have := hf.descriptors.event h1
        rw [← h2, htf] at this
        cases this
      simp only [Sys.ready, show q.fd = s.fd t from he, if_neg hev, htf] at hr
      by_contra hex
      simp [hex] at hr
  refine hold.keep hi (fun hc => ?_) (fun th r us e e' => ?_) h.clock_le
  · rw [(hf.own.free hc.free).2.2.1] at hl
    cases hl.1
  · exact hq (hf.cleared th t (by rw [e']; rfl))

/-- Calls are serial, and `timerfd_settime` succeeds. -/
def Timed (s : Sys n m) (a : Act n m) : Prop := Serial s a ∧ SettimeOk s a

instance (s : Sys n m) (a : Act n m) : Decidable (Timed s a) := inferInstanceAs (Decidable (_ ∧ _))

theorem onTime_of_reach {x : Sys n m × Arms n} (hr : (arms n m).Reach (fun x a => Timed x.1 a) x) :
    x.2.OnTime x.1 := by
  refine hr.record_invariant (I := fun s g => Arms.OnTime s g) ?_ fun s a s' g hr hi hp h => ?_
  · rintro s ⟨fd, -, rfl⟩
    exact ⟨nofun, nofun⟩
  · have hok := armsOk_of_reach (hr.mono fun _ _ h => h.1)
    have hf := facts_of_reach ((hr.mono fun _ _ h => h.1).fst (P := Serial))
    have hm := step_move h
    exact ⟨fun t hh tf htf => hi.timer_step hok hf hp.2 hm hh htf,
      fun j p hw t ha pfd hm' hr he => hi.served_step hok hf hm hw ha hm' hr he⟩

/-! ## At most once, and never early -/

/-- **Every arming fires at most once, and never early**: no arming is listed twice, and where the worker starts a
callback, `BIT_ACTIVE` stands for an arming that is the latest of its timer, whose delay has elapsed and that has not
fired. -/
theorem fires_once {x : Sys n m × Arms n} (hr : (arms n m).Reach (fun x a => Timed x.1 a) x) :
    x.2.fired.Nodup ∧ ∀ r s' j i, step x.1 (.work r) = some s' → x.1.worker = .service j (.alarm i .test) →
      s'.worker = .service j (.alarm i .callback) → ∃ a, x.2.active i = some a ∧ x.2.latest i = some a ∧
        x.2.due a ≤ x.1.clock ∧ some a ∉ x.2.fired := by
  have hok := armsOk_of_reach (hr.mono fun _ _ h => h.1)
  refine ⟨hok.nodup, fun r s' j i hst hw hw' => ?_⟩
  have ha := (step_move hst).fires hw hw'
  obtain ⟨e1, -, e3⟩ := (hok.slot i).active ha
  obtain ⟨a, hl, hn⟩ := e3.resolve_right (by rw [hw]; nofun)
  have hs := (hr.mono fun _ _ h => h.1).fst (P := Serial)
  obtain ⟨pfd, h1, -, h3, h4⟩ := served_of_reach (hs.mono fun _ _ h => h.1.1) j _ hw nofun
  obtain ⟨b, hb, hd⟩ := (onTime_of_reach hr).served j _ hw i ha pfd (List.mem_of_getElem? h1) (h3 nofun) (h4 i _ rfl)
  cases hl.symm.trans hb
  exact ⟨a, e1.trans hl, hl, hd, hn⟩

/-- A timer that fires, is restarted from its own callback, and is about to fire again. -/
def restartOwn : List (Act 1 1) :=
  let c : Thread 1 := .client 0
  [Act.call c (.install (some 7) 0), .step c .ok, .step c .ok, .step c (.fd 4), .step c .ok, .step c .ok,
    .call c (.restart 0 0), .step c .ok, .step c .ok, .step c .ok, .step c .ok] ++ List.replicate 7 (Act.work .ok) ++
  [Act.tick 1, .expire 4] ++ List.replicate 17 (Act.work .ok) ++
  Act.call .worker (.restart 0 3) :: List.replicate 4 (Act.step .worker .ok) ++ List.replicate 4 (Act.work .ok) ++
  [Act.tick 3000, .expire 4] ++ List.replicate 23 (Act.work .ok)

theorem fires_once_run : ∃ x : Sys 1 1 × Arms 1, x.2.fired = [some 0] ∧ x.2.latest 0 = some 1 ∧
    ∃ s', step x.1 (.work .ok) = some s' ∧ s'.worker = .service 1 (.alarm 0 .callback) ∧ x.2.due 1 ≤ x.1.clock := by
  obtain ⟨x, hr, hf, hl, hw, hst⟩ := Lts.Reach.run (M := arms 1 1) (P := fun x a => Timed x.1 a)
    (Q := fun x => x.2.fired = [some 0] ∧ x.2.latest 0 = some 1 ∧ x.1.worker = .service 1 (.alarm 0 .test) ∧
      (step x.1 (.work .ok)).any (fun s' => decide (s'.worker = .service 1 (.alarm 0 .callback))) = true)
    (s := (ctxInit 1 1 3, .empty)) ⟨⟨3, by decide, rfl⟩, rfl⟩ restartOwn (by decide)
  obtain ⟨s', hs', hw'⟩ := (Option.any_eq_true _ _).mp hst
  obtain ⟨a, -, hla, hd, -⟩ := (fires_once hr).2 .ok s' 1 0 hs' hw (of_decide_eq_true hw')
  cases hl.symm.trans hla
  exact ⟨x, hf, hl, s', hs', of_decide_eq_true hw', hd⟩

end Gabs.Timer.Posix
