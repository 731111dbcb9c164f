import Gabs.Timer.Zephyr.Fresh

/-!
# The Zephyr timer: one callback for each start

- `Kernel.Delays`: what a delay and its end do to a work item;
- `due`: the callbacks of a timer that are on their way: a timeout, work in the queue, and a handler before its test;
- `Counts`: a history: how often a timer has been started and its callback has begun, since it was last stopped,
  uninstalled or installed; whether a start waits for its callback, and whether it has been lost;
- `fired_le_started`: at most one callback for each start;
- `lost_iff`: a start is lost exactly if its delay ends while the handler runs that a stop has cancelled.
-/

namespace Gabs.Timer.Zephyr

open Gabs.Lib

variable {n m : Nat} {κ χ : Type*} [DecidableEq χ] {K : Kernel κ} {s s' : Sys n m κ χ} {i : Fin n} {a : Act n m χ}

/-- **What the kernel does after a delay**: it submits the work item, which is refused while the item is canceling. -/
structure Kernel.Delays (K : Kernel κ) : Prop where
  reschedule : ∀ w d, d ≠ .ticks 0 → d ≠ .usec 0 → K.busyGet (K.reschedule w d) = { K.busyGet w with delayed := true }
  elapse : ∀ w, (K.busyGet w).delayed = true → K.busyGet (K.elapse w) =
    { K.busyGet w with queued := (K.busyGet w).queued || !(K.busyGet w).canceling, delayed := false }

theorem plainKernel_delays : plainKernel.Delays := ⟨fun _ _ _ _ => rfl, fun _ _ => rfl⟩

/-- `timer_start` never asks for no delay at all. -/
theorem startTimeout_ne (us : Nat) : startTimeout us ≠ .ticks 0 ∧ startTimeout us ≠ .usec 0 := by
  unfold startTimeout
  split
  · exact ⟨by simp, by simp⟩
  · rename_i hus
    exact ⟨by simp, by simpa using hus⟩

/-! ## Callbacks on their way -/

/-- The handler of timer `i` has not looked at the flags yet. -/
def Sys.pending (s : Sys n m κ χ) (i : Fin n) : Bool :=
  match s.expiry with
  | some (k, .enter) | some (k, .test) => decide (k = i)
  | _ => false

/-- The callbacks on their way to a timer with these flags. -/
def Busy.due (b : Busy) (pending : Bool) : Nat := b.delayed.toNat + b.queued.toNat + (pending && !b.canceling).toNat

/-- The callbacks of timer `i` that are on their way. -/
def due (K : Kernel κ) (s : Sys n m κ χ) (i : Fin n) : Nat := (s.busy K i).due (s.pending i)

section BusyDue

variable {b : Busy} {p : Bool}

theorem Busy.due_eq_zero : b.due p = 0 ↔ (b.queued = false ∧ b.delayed = false) ∧ (p = true → b.canceling = true) := by
  rw [Busy.due]
  cases b.delayed <;> cases b.queued <;> cases b.canceling <;> cases p <;> simp

theorem Busy.due_delayed (b : Busy) (p : Bool) :
    0 < ({ b with delayed := true } : Busy).due p ∧ ({ b with delayed := true } : Busy).due p ≤ b.due p + 1 := by
  simp only [Busy.due, Bool.toNat_true]
  omega

/-- A submission that is not refused. -/
theorem Busy.due_submit (hd : b.delayed = true) :
    0 < ({ b with queued := true, delayed := false } : Busy).due p ∧
      ({ b with queued := true, delayed := false } : Busy).due p ≤ b.due p := by
  simp only [Busy.due, hd, Bool.toNat_true, Bool.toNat_false]
  omega

/-- A refused submission. -/
theorem Busy.due_refuse (hd : b.delayed = true) (hq : b.queued = false) (hc : b.canceling = true) :
    ({ b with delayed := false } : Busy).due p = 0 ∧ 0 < b.due p := by
  simp [Busy.due, hd, hq, hc]

/-- The handler begins with what was in the queue. -/
theorem Busy.due_run (hq : b.queued = true) (hc : b.canceling = false) :
    ({ b with running := true, queued := false } : Busy).due true = b.due false := by
  simp [Busy.due, hq, hc]

/-- The handler finds the flags at its test. -/
theorem Busy.due_test : b.due true = b.due false + (!b.canceling).toNat := by simp [Busy.due]

/-- After its test the handler does not count, whatever becomes of the flags that go with it. -/
theorem Busy.due_finish : ({ b with running := false, canceling := false, flushing := false } : Busy).due false =
    b.due false := rfl

end BusyDue

section Due

omit [DecidableEq χ]

theorem pending_of_expiry (h : s'.expiry = s.expiry) : s'.pending i = s.pending i := by rw [Sys.pending, h, Sys.pending]

theorem pending_none (he : s.expiry = none) : s.pending i = false := by rw [Sys.pending, he]

theorem due_congr (hb : s'.busy K i = s.busy K i) (hp : s'.pending i = s.pending i) : due K s' i = due K s i := by
  rw [due, hb, hp, due]

theorem handles_of_pending (h : s.pending i = true) : s.handles i = true := by
  unfold Sys.pending at h
  split at h
  · rename_i he
    rw [decide_eq_true_eq] at h
    simp [Sys.handles, he, h]
  · rename_i he
    rw [decide_eq_true_eq] at h
    simp [Sys.handles, he, h]
  · cases h

/-- Nothing is on its way. -/
theorem due_eq_zero : due K s i = 0 ↔ Quiet K s i ∧ (s.pending i = true → (s.busy K i).canceling = true) :=
  Busy.due_eq_zero

/-- A cancel leaves nothing on its way: a handler that has not come to its test is canceling. -/
theorem due_canceled (hf : Flags K s i) (hb : s'.busy K i = (s.busy K i).canceled) (he : s'.expiry = s.expiry) :
    due K s' i = 0 := by
  rw [due_eq_zero, Quiet, hb, pending_of_expiry he]
  refine ⟨⟨canceled_queued _, canceled_delayed _⟩, fun hp => ?_⟩
  rw [canceled_canceling, hf.running, handles_of_pending hp]
  rfl

end Due

/-! ## The history -/

/-- What has become of the starts of a timer since it was last stopped, uninstalled or installed. `owed`: the handler
has not come to the callback since the last start; `lost`: the delay of this start has ended with a refused submission.
-/
structure Count where
  started : Nat
  fired : Nat
  owed : Bool
  lost : Bool

namespace Count

def zero : Count := ⟨0, 0, false, false⟩

def start (c : Count) : Count := ⟨c.started + 1, c.fired, true, false⟩

/-- The callback begins. -/
def fire (c : Count) : Count := { c with fired := c.fired + 1, owed := false }

/-- The handler comes to a callback that is null. -/
def skip (c : Count) : Count := { c with owed := false }

/-- A submission is refused. -/
def refuse (c : Count) : Count := { c with lost := c.owed }

/-- The history after one more step. -/
def record (K : Kernel κ) (s : Sys n m κ χ) (a : Act n m χ) (s' : Sys n m κ χ) (g : Fin n → Count) : Fin n → Count :=
  match a with
  | .step th _ => match s.calls th, s'.calls th with
    | .timerStart t _, _ => Function.update g t (g t).start
    | .stop t, _ => Function.update g t zero
    | .uninstall t .cancel, _ => Function.update g t zero
    | .install _ _ _ .reserve, .install _ _ _ (.fill t) => Function.update g t zero
    | _, _ => g
  | .elapse t => if (s.busy K t).canceling then Function.update g t (g t).refuse else g
  | .expiry => match s.expiry with
    | some (t, .test) =>
      if (s.busy K t).canceling then g
      else Function.update g t (if (s.pool t).callback.isSome then (g t).fire else (g t).skip)
    | _ => g
  | _ => g

end Count

/-- The system with this history. -/
def counts (K : Kernel κ) (n m : Nat) (χ : Type*) [DecidableEq χ] : Lts (Sys n m κ χ × (Fin n → Count)) (Act n m χ) :=
  (system K n m χ).record (fun _ => .zero) (Count.record K)

/-! ## The steps -/

/-- What a step makes of the callbacks on their way to timer `i`, and of its history. -/
inductive Bill (K : Kernel κ) (s : Sys n m κ χ) (i : Fin n) (s' : Sys n m κ χ) (c : Count) : Count → Prop
  | same : due K s' i = due K s i → Bill K s i s' c c
  | clear : due K s' i = 0 → Bill K s i s' c .zero
  | start {th : Thread m} : (s.calls th).arms = some i → 0 < due K s' i → due K s' i ≤ due K s i + 1 →
      Bill K s i s' c c.start
  | submit : 0 < due K s' i → due K s' i ≤ due K s i → Bill K s i s' c c
  | refuse : due K s' i = 0 → 0 < due K s i → Bill K s i s' c c.refuse
  | fire : due K s' i + 1 = due K s i → Bill K s i s' c c.fire
  | skip : due K s' i + 1 = due K s i → Bill K s i s' c c.skip

variable {g : Fin n → Count}

omit [DecidableEq χ] in
/-- A step on the work item and the history of one slot. -/
theorem bill_of_slot {k : Fin n} {w : κ} {c : Count}
    (hs : s'.pool = Function.update s.pool k { s.pool k with dwork := w }) (he : s'.expiry = s.expiry)
    (hk : s'.busy K k = K.busyGet w → Bill K s k s' (g k) c) : Bill K s i s' (g i) (Function.update g k c i) := by
  have hb := busy_of_update (K := K) (i := i) hs
  rcases eq_or_ne i k with rfl | hne
  · rw [Function.update_self]
    rw [if_pos rfl] at hb
    exact hk hb
  · rw [Function.update_of_ne hne]
    rw [if_neg hne] at hb
    exact .same (due_congr hb (pending_of_expiry he))

/-- The step of the handler that decides on the callback. -/
theorem test_step {k : Fin n} (he : s.expiry = some (k, .test)) (h : step K s .expiry = some s') :
    s' = s.handle (some (k, if (s.pool k).callback.isSome && !(s.busy K k).canceling then .callback else .leave)) := by
  simp only [step, he, Option.bind_some, timerExpiryStep, Option.some.injEq] at h
  exact h.symm

omit [DecidableEq χ] in
theorem pending_handle {k : Fin n} {q : Expiry} (h1 : q ≠ .enter) (h2 : q ≠ .test) :
    (s.handle (some (k, q))).pending i = false := by
  cases q <;> first | rfl | exact absurd rfl h1 | exact absurd rfl h2

/-- Its bill. -/
theorem bill_test {k : Fin n} (he : s.expiry = some (k, .test)) (h : step K s .expiry = some s') :
    Bill K s i s' (g i) (Count.record K s .expiry s' g i) := by
  have hs := test_step he h
  have hb : s'.busy K i = s.busy K i := by rw [hs]; rfl
  have hleft : s'.pending i = false := by
    rw [hs]
    apply pending_handle
    · split <;> simp
    · split <;> simp
  have hpend : s.pending i = decide (k = i) := by rw [Sys.pending, he]
  simp only [Count.record, he]
  rcases eq_or_ne i k with rfl | hne
  · have hdue : due K s i = due K s' i + (!(s.busy K i).canceling).toNat := by
      rw [due, due, hb, hleft, hpend, decide_eq_true rfl, Busy.due_test]
    cases hc : (s.busy K i).canceling with
    | true =>
      rw [if_pos rfl]
      rw [hc] at hdue
      exact .same hdue.symm
    | false =>
      rw [if_neg Bool.false_ne_true, Function.update_self]
      rw [hc] at hdue
      split
      · exact .fire hdue.symm
      · exact .skip hdue.symm
  · have hother : due K s' i = due K s i := due_congr hb (by rw [hleft, hpend, decide_eq_false hne.symm])
    split
    · exact .same hother
    · rw [Function.update_of_ne hne]
      exact .same hother

/-- The bill of the other steps of the handler. -/
theorem bill_expiry (hK : K.Lawful) (h : step K s .expiry = some s') :
    Bill K s i s' (g i) (Count.record K s .expiry s' g i) := by
  have hm := step_move h
  cases hm with
  | @handle k p q he hp =>
    by_cases htest : p = .test
    · exact bill_test (htest ▸ he) h
    · have hrec : Count.record K s .expiry (s.handle (some (k, q))) g i = g i := by
        simp only [Count.record, he]
        cases p <;> first | rfl | exact absurd rfl htest
      rw [hrec]
      have hpend : (s.handle (some (k, q))).pending i = s.pending i := by
        rw [Sys.pending, Sys.pending, he]
        cases hp <;> first | rfl | exact absurd rfl htest
      exact .same (due_congr rfl hpend)
  | @finish k he =>
    have hrec : Count.record K s .expiry ((s.setWork k (K.finish (s.pool k).dwork)).handle none) g i = g i := by
      simp only [Count.record, he]
    have hpend : s.pending i = false := by rw [Sys.pending, he]
    have hb : ((s.setWork k (K.finish (s.pool k).dwork)).handle none).busy K i =
        if i = k then K.busyGet (K.finish (s.pool k).dwork) else s.busy K i := busy_of_update rfl
    rw [hrec]
    apply Bill.same
    rw [due, due, hb, hpend, pending_none rfl]
    split
    · rename_i heq
      rw [hK.finish, heq, Sys.busy, Busy.due_finish]
    · rfl

omit [DecidableEq χ] in
/-- A delay ends. -/
theorem bill_elapse {k : Fin n} (hD : K.Delays) (hq : (s.busy K k).canceling = true → (s.busy K k).queued = false)
    (hd : (s.busy K k).delayed = true) (hs : s' = s.setWork k (K.elapse (s.pool k).dwork)) :
    Bill K s i s' (g i) (Count.record K s (.elapse k) s' g i) := by
  have hpool : s'.pool = Function.update s.pool k { s.pool k with dwork := K.elapse (s.pool k).dwork } := by
    rw [hs]; rfl
  have he : s'.expiry = s.expiry := by rw [hs]; rfl
  have hlaw := hD.elapse _ hd
  change K.busyGet _ =
    { s.busy K k with queued := (s.busy K k).queued || !(s.busy K k).canceling, delayed := false } at hlaw
  simp only [Count.record]
  cases hc : (s.busy K k).canceling with
  | true =>
    rw [if_pos rfl]
    apply bill_of_slot hpool he
    intro hb
    have hq := hq hc
    rw [hlaw, hc, hq] at hb
    obtain ⟨hzero, hpos⟩ := Busy.due_refuse (p := s.pending k) hd hq hc
    refine .refuse ?_ hpos
    rw [due, hb, pending_of_expiry he, ← hzero]
    simp only [hq, hc, Bool.not_true, Bool.or_false]
  | false =>
    rw [if_neg Bool.false_ne_true]
    have hsame := bill_of_slot (c := g k) (g := g) (i := i) hpool he fun hb => by
      rw [hlaw, hc, Bool.not_false, Bool.or_true] at hb
      have hdue : due K s' k = ({ s.busy K k with queued := true, delayed := false } : Busy).due (s.pending k) := by
        rw [due, hb, pending_of_expiry he]
      obtain ⟨hpos, hle⟩ := Busy.due_submit (p := s.pending k) hd
      rw [← hdue] at hpos hle
      exact .submit hpos hle
    rwa [Function.update_eq_self] at hsame

omit [DecidableEq χ] in
/-- The work queue takes an item. -/
theorem bill_run {k : Fin n} (hf : Flags K s k) (hK : K.Lawful) (he : s.expiry = none) (hq : (s.busy K k).queued = true)
    (hs : s' = (s.setWork k (K.run (s.pool k).dwork)).handle (some (k, .enter))) : Bill K s i s' (g i) (g i) := by
  have hb : s'.busy K i = if i = k then K.busyGet (K.run (s.pool k).dwork) else s.busy K i :=
    busy_of_update (by rw [hs]; rfl)
  have hpend : s'.pending i = decide (k = i) := by rw [hs]; rfl
  apply Bill.same
  rcases eq_or_ne i k with rfl | hne
  · have hidle : s.handles i = false := by simp [Sys.handles, he]
    have hc : (s.busy K i).canceling = false := by
      by_contra hc
      have hr := hf.canceling (Bool.eq_true_of_not_eq_false hc)
      rw [hf.running, hidle] at hr
      cases hr
    rw [if_pos rfl, hK.run _ hq] at hb
    rw [due, due, hb, hpend, pending_none he, decide_eq_true rfl]
    exact Busy.due_run hq hc
  · rw [if_neg hne] at hb
    apply due_congr hb
    rw [hpend, pending_none he, decide_eq_false hne.symm]

/-- **The bill of a step.** -/
theorem Bill.of_step (hK : K.Lawful) (hD : K.Delays) (hf : ∀ k, Flags K s k)
    (hq : ∀ k, (s.busy K k).canceling = true → (s.busy K k).queued = false)
    (hfree : ∀ k, s.taken k = false → due K s k = 0) (h : step K s a = some s') (i : Fin n) :
    Bill K s i s' (g i) (Count.record K s a s' g i) := by
  have hsame : ∀ s'' : Sys n m κ χ, (∀ k, (s''.pool k).dwork = (s.pool k).dwork) → s''.expiry = s.expiry →
      Bill K s i s'' (g i) (g i) := fun s'' hp he =>
    .same (due_congr (by rw [Sys.busy, hp, Sys.busy]) (pending_of_expiry he))
  have hcancel : ∀ (s'' : Sys n m κ χ) (k : Fin n), s''.pool = (s.setWork k (K.cancelDelayable (s.pool k).dwork)).pool →
      s''.expiry = s.expiry → Bill K s i s'' (g i) (Function.update g k Count.zero i) := fun s'' k hp he =>
    bill_of_slot hp he fun hb => .clear (due_canceled (hf k) (hb.trans (hK.cancelDelayable _)) he)
  have hm := step_move h
  cases hm with
  | enter => exact hsame _ (fun _ => rfl) rfl
  | elapse hd => exact bill_elapse hD (hq _) hd rfl
  | run he hqd => exact bill_run (hf _) hK he hqd rfl
  | handle | finish => exact bill_expiry hK h
  | goto hc =>
    cases hc with
    | wait hc | pass hc =>
      simp only [Count.record, hc]
      exact hsame _ (fun _ => rfl) rfl
  | done hd =>
    cases hd with
    | busy hc | active hc =>
      simp only [Count.record, hc]
      exact hsame _ (fun _ => rfl) rfl
    | full hc =>
      simp only [Count.record, hc, Sys.done_calls, Function.update_self]
      exact hsame _ (fun _ => rfl) rfl
  | @reserve th ctx cb arg k hc ht =>
    simp only [Count.record, hc, Sys.goto_calls, Function.update_self]
    rcases eq_or_ne i k with rfl | hne
    · rw [Function.update_self]
      exact .clear ((due_congr rfl rfl).trans (hfree i ht))
    · rw [Function.update_of_ne hne]
      exact hsame _ (fun _ => rfl) rfl
  | @fill _ _ _ _ _ k hc =>
    simp only [Count.record, hc]
    refine hsame _ (fun j => ?_) rfl
    rw [Sys.goto_pool, Sys.setInfo_pool, Function.update_apply]
    split
    · rename_i heq
      rw [heq]
    · rfl
  | append hc | release hc =>
    simp only [Count.record, hc]
    exact hsame _ (fun _ => rfl) rfl
  | remove hc =>
    simp only [Count.record, hc]
    refine hsame _ (fun j => ?_) (unlink_expiry ..)
    rw [Sys.goto_pool, unlink_pool]
  | cancelOwn hc | cancelSync hc | stop hc =>
    simp only [Count.record, hc]
    exact hcancel _ _ rfl rfl
  | @arm th idx t us hc =>
    simp only [Count.record, hc]
    refine bill_of_slot rfl rfl fun hb => ?_
    obtain ⟨h1, h2⟩ := startTimeout_ne us
    rw [hD.reschedule _ _ h1 h2] at hb
    obtain ⟨hpos, hle⟩ := Busy.due_delayed (s.busy K t) (s.pending t)
    have harms : (s.calls th).arms = some t := by rw [hc]; rfl
    refine .start harms ?_ ?_
    · rw [due, hb]
      exact hpos
    · rw [due, hb]
      exact hle

omit [DecidableEq χ] in
/-- Nothing comes on its way but by a start. -/
theorem Bill.zero {c c' : Count} (hb : Bill K s i s' c c') (hz : due K s i = 0)
    (hn : ∀ th, (s.calls th).arms ≠ some i) : due K s' i = 0 := by
  cases hb with
  | same h => rw [h, hz]
  | clear h => exact h
  | start ha => exact absurd ha (hn _)
  | submit hpos hle => omega
  | refuse h => exact h
  | fire h | skip h => omega

/-- **The bill is paid.** -/
structure Count.Paid (c : Count) (d : Nat) : Prop where
  starts : c.fired + d ≤ c.started
  owed : c.owed = true → c.lost = false → 0 < d
  lost : c.lost = true → c.owed = true ∧ d = 0

omit [DecidableEq χ] in
theorem Count.Paid.step {c c' : Count} (hi : c.Paid (due K s i)) (hb : Bill K s i s' c c') : c'.Paid (due K s' i) := by
  obtain ⟨hs, ho, hl⟩ := hi
  cases hb with
  | same h => rw [h]; exact ⟨hs, ho, hl⟩
  | clear h => rw [h]; exact ⟨Nat.le_refl _, by simp [zero], by simp [zero]⟩
  | start _ hpos hle => exact ⟨by simp only [start]; omega, fun _ _ => hpos, by simp [start]⟩
  | submit hpos hle =>
    refine ⟨by omega, fun _ _ => hpos, fun hc => ?_⟩
    have := (hl hc).2
    omega
  | refuse h hpos =>
    refine ⟨by simp only [refuse]; omega, fun h1 h2 => ?_, fun h1 => ⟨h1, h⟩⟩
    simp only [refuse] at h1 h2
    rw [h1] at h2
    cases h2
  | fire h | skip h =>
    refine ⟨by simp only [fire, skip]; omega, by simp [fire, skip], fun hc => ?_⟩
    have := (hl hc).2
    omega

/-! ## Slots that are not in use -/

/-- Nothing is on its way to a slot that is free, about to be released or about to be handed out; and no work is queued
for a timer that is canceling. -/
structure Spent (K : Kernel κ) (s : Sys n m κ χ) : Prop where
  canceling : ∀ i, (s.busy K i).canceling = true → (s.busy K i).queued = false
  released : ∀ th t, s.calls th = .uninstall t .release → due K s t = 0
  free : ∀ i, s.taken i = false → due K s i = 0
  claimed : ∀ th i, (s.calls th).claims = some i → due K s i = 0

theorem Spent.canceling_step (hi : Spent K s) (hK : K.Lawful) (hD : K.Delays)
    (h : Move K s a s') (hc : (s'.busy K i).canceling = true) : (s'.busy K i).queued = false := by
  have hold : s'.busy K i = s.busy K i → (s'.busy K i).queued = false := fun hb => by
    rw [hb] at hc ⊢
    exact hi.canceling i hc
  have hslot : ∀ {k : Fin n} {w : κ}, s'.pool = Function.update s.pool k { s.pool k with dwork := w } →
      (s'.busy K k = K.busyGet w → (s'.busy K k).canceling = true → (s'.busy K k).queued = false) →
      (s'.busy K i).queued = false := fun hs hk => by
    have hb := busy_of_update (K := K) (i := i) hs
    split at hb
    · rename_i heq
      rw [heq] at hc hb ⊢
      exact hk hb hc
    · exact hold hb
  cases h with
  | enter | handle | goto | done | reserve | append | release => exact hold rfl
  | remove => exact hold (by rw [Sys.busy, Sys.goto_pool, unlink_pool, Sys.busy])
  | @fill _ _ _ _ _ k =>
    apply hold
    rw [Sys.busy, Sys.busy, Sys.goto_pool, Sys.setInfo_pool, Function.update_apply]
    split
    · rename_i heq
      rw [heq]
    · rfl
  | cancelOwn | cancelSync | stop =>
    refine hslot rfl fun hb _ => ?_
    rw [hb, hK.cancelDelayable, canceled_queued]
  | @arm th idx t us hc =>
    refine hslot rfl fun hb hcan => ?_
    obtain ⟨h1, h2⟩ := startTimeout_ne us
    rw [hb, hD.reschedule _ _ h1 h2] at hcan ⊢
    exact hi.canceling t hcan
  | @elapse k hd =>
    refine hslot rfl fun hb hcan => ?_
    rw [hb, hD.elapse _ hd] at hcan ⊢
    change (s.busy K k).canceling = true at hcan
    change ((s.busy K k).queued || !(s.busy K k).canceling) = false
    rw [hi.canceling k hcan, hcan]
    rfl
  | @run k he hq =>
    refine hslot rfl fun hb _ => ?_
    rw [hb, hK.run _ hq]
  | @finish k =>
    refine hslot rfl fun hb hcan => ?_
    rw [hb, hK.finish] at hcan
    cases hcan

/-- A step of a call leaves the handler where it is. -/
theorem Move.expiry_of_step {th : Thread m} {idx : Option (Fin n)} (h : Move K s (.step th idx) s') :
    s'.expiry = s.expiry := by
  cases h with
  | remove => exact unlink_expiry ..
  | _ => rfl

variable {w : Newly n}

theorem Spent.released_step (hi : Spent K s) (hcl : Clean K s w) (hK : K.Lawful) (h : Move K s a s')
    (hb : ∀ i, Bill K s i s' (g i) (Count.record K s a s' g i)) {th : Thread m} {t : Fin n}
    (hc : s'.calls th = .uninstall t .release) : due K s' t = 0 := by
  rcases h.release_of hc with hold | ⟨⟨idx, rfl⟩, -, ⟨-, hcan⟩ | ⟨-, hnone, -⟩⟩
  · apply (hb t).zero (hi.released th t hold)
    intro th' ha
    rcases eq_or_ne th' th with rfl | hne
    · rw [hold] at ha
      cases ha
    · exact (hcl.released th t hold).2.2 th' hne (timer_of_arms ha)
  · exact due_canceled (hcl.flags t) (hcan.trans (hK.cancelDelayable _)) h.expiry_of_step
  · refine due_eq_zero.mpr ⟨quiet_of_none hnone, fun hp => ?_⟩
    have hr := ((hcl.flags t).step hK h).running
    rw [hnone, handles_of_pending hp] at hr
    cases hr

theorem Spent.free_step (hi : Spent K s) (hcl : Clean K s w) (h : Move K s a s')
    (hb : ∀ i, Bill K s i s' (g i) (Count.record K s a s' g i)) (hf : s'.taken i = false) : due K s' i = 0 := by
  rcases h.taken_of hf with hold | ⟨th, idx, rfl, hr⟩
  · apply (hb i).zero (hi.free i hold)
    intro th ha
    rw [hcl.timer th i (timer_of_arms ha)] at hold
    cases hold
  · apply (hb i).zero (hi.released th i hr)
    intro th' ha
    rcases eq_or_ne th' th with rfl | hne
    · rw [hr] at ha
      cases ha
    · exact (hcl.released th i hr).2.2 th' hne (timer_of_arms ha)

theorem Spent.claimed_step (hi : Spent K s) (hcl : Clean K s w) (h : Move K s a s')
    (hb : ∀ i, Bill K s i s' (g i) (Count.record K s a s' g i)) {th : Thread m} (hc : (s'.calls th).claims = some i) :
    due K s' i = 0 := by
  rcases h.claims_of hc with hold | ⟨-, hfree, -⟩
  · exact (hb i).zero (hi.claimed th i hold) fun th' ha => ((hcl.claims th i hold).2 th').2 (timer_of_arms ha)
  · apply (hb i).zero (hi.free i hfree)
    intro th' ha
    rw [hcl.timer th' i (timer_of_arms ha)] at hfree
    cases hfree

/-! ## The invariant -/

/-- **Starts and callbacks are balanced.** -/
structure Counted (K : Kernel κ) (s : Sys n m κ χ) (g : Fin n → Count) : Prop where
  spent : Spent K s
  paid : ∀ i, (g i).Paid (due K s i)

omit [DecidableEq χ] in
theorem Counted.init (hK : K.Lawful) : Counted K (boot K n m χ) fun _ => .zero := by
  have hnone : ∀ i, (boot K n m χ).busy K i = .none := fun _ => hK.initDelayable
  have hdue : ∀ i, due K (boot K n m χ) i = 0 := fun i => by
    rw [due, hnone]
    rfl
  constructor
  · refine ⟨fun i hc => ?_, fun _ t _ => hdue t, fun i _ => hdue i, fun _ i _ => hdue i⟩
    rw [hnone]
    rfl
  · intro i
    rw [hdue]
    exact ⟨Nat.le_refl _, by simp [Count.zero], by simp [Count.zero]⟩

/-- **One step.** -/
theorem Counted.step (hi : Counted K s g) (hcl : Clean K s w) (hK : K.Lawful) (hD : K.Delays)
    (h : step K s a = some s') : Counted K s' (Count.record K s a s' g) := by
  have hm := step_move h
  have hb := Bill.of_step (g := g) hK hD hcl.flags hi.spent.canceling hi.spent.free h
  constructor
  · exact ⟨fun _ => hi.spent.canceling_step hK hD hm, fun _ _ => hi.spent.released_step hcl hK hm hb,
      fun _ => hi.spent.free_step hcl hm hb, fun _ _ => hi.spent.claimed_step hcl hm hb⟩
  · exact fun i => (hi.paid i).step (hb i)

/-- The slots of a state that is reached are clean. -/
theorem exists_clean (hK : K.Lawful) (hr : (system K n m χ).Reach Valid s) : ∃ w, Clean K s w := by
  have hex : ∃ w, (installs K n m χ).Reach (fun x a => Valid x.1 a) (s, w) := Lts.Reach.exists_record hr
  obtain ⟨w, hw⟩ := hex
  exact ⟨w, clean_of_reach hK hw⟩

theorem counted_of_reach (hK : K.Lawful) (hD : K.Delays) {x : Sys n m κ χ × (Fin n → Count)}
    (hr : (counts K n m χ).Reach (fun x a => Valid x.1 a) x) : Counted K x.1 x.2 := by
  refine hr.record_invariant (I := fun s g => Counted K s g) ?_ fun s a s' g hr hi _ h => ?_
  · rintro s rfl
    exact .init hK
  · obtain ⟨w, hcl⟩ := exists_clean hK (Lts.Reach.fst hr)
    exact hi.step hcl hK hD h

/-- A callback that begins is paid for. -/
theorem Counted.begins (hi : Counted K s g) (he : s.expiry = some (i, .test)) (h : Zephyr.step K s .expiry = some s')
    (hcb : s'.expiry = some (i, .callback)) :
    (g i).fired < (g i).started ∧ s.taken i = true ∧ ∀ th, (s.calls th).claims ≠ some i := by
  have hruns := test_step he h
  have hc : (s.busy K i).canceling = false := by
    rw [hruns, Sys.handle_expiry] at hcb
    cases hcan : (s.busy K i).canceling with
    | true =>
      rw [hcan, Bool.not_true, Bool.and_false, if_neg Bool.false_ne_true] at hcb
      cases hcb
    | false => rfl
  have hdue : 0 < due K s i := by
    have hpend : s.pending i = true := by
      rw [Sys.pending, he]
      exact decide_eq_true rfl
    rw [due, hpend, Busy.due_test, hc]
    exact Nat.succ_pos _
  have hstarts := (hi.paid i).starts
  refine ⟨by omega, ?_, fun th hcl => ?_⟩
  · by_contra hfree
    have hz := hi.spent.free i (Bool.eq_false_iff.mpr hfree)
    omega
  · have hz := hi.spent.claimed th i hcl
    omega

/-! ## Results -/

/-- **One callback for each start**: since a timer was last stopped, uninstalled or installed, its callback has begun at
most as often as the timer has been started; and it begins only for a start that is still to be served, in a slot that
is in use and that no install is about to hand out. -/
theorem fired_le_started (hK : K.Lawful) (hD : K.Delays) {x : Sys n m κ χ × (Fin n → Count)}
    (hr : (counts K n m χ).Reach (fun x a => Valid x.1 a) x) :
    (∀ i, (x.2 i).fired ≤ (x.2 i).started) ∧
      ∀ i s', x.1.expiry = some (i, .test) → step K x.1 .expiry = some s' → s'.expiry = some (i, .callback) →
        (x.2 i).fired < (x.2 i).started ∧ x.1.taken i = true ∧ ∀ th, (x.1.calls th).claims ≠ some i := by
  have hi := counted_of_reach hK hD hr
  exact ⟨fun i => le_trans (Nat.le_add_right _ _) (hi.paid i).starts, fun _ _ => hi.begins⟩

/-- A timer that is installed and started, and whose callback begins. -/
def startOnce : List (Act 1 1 Unit) :=
  let c : Thread 1 := .client 0
  [Act.call c (.install () (some 7) 0), .step c (some 0), .step c none, .step c none, .call c (.start 0 5),
    .step c none, .step c none, .elapse 0, .run 0, .expiry]

theorem fired_le_started_run : ∃ x : Sys 1 1 Busy Unit × (Fin 1 → Count),
    (counts plainKernel 1 1 Unit).Reach (fun x a => Valid x.1 a) x ∧ (x.2 0).fired < (x.2 0).started ∧
      (step plainKernel x.1 .expiry).map Sys.expiry = some (some (0, .callback)) := by
  obtain ⟨x, hr, he, hs⟩ := Lts.Reach.run (M := counts plainKernel 1 1 Unit) (P := fun x a => Valid x.1 a)
    (Q := fun x => x.1.expiry = some (0, .test) ∧
      (step plainKernel x.1 .expiry).map Sys.expiry = some (some (0, .callback)))
    (s := (boot plainKernel 1 1 Unit, fun _ => .zero)) ⟨rfl, rfl⟩ startOnce (by decide)
  obtain ⟨s', h, hcb⟩ := Option.map_eq_some_iff.mp hs
  exact ⟨x, hr, ((fired_le_started plainKernel_lawful plainKernel_delays hr).2 0 s' he h hcb).1, hs⟩

/-- **A start is lost exactly if its submission has been refused**: while a start waits for its callback, nothing leads
there any more if and only if its delay has ended while the handler ran that a stop had cancelled. -/
theorem lost_iff (hK : K.Lawful) (hD : K.Delays) {x : Sys n m κ χ × (Fin n → Count)}
    (hr : (counts K n m χ).Reach (fun x a => Valid x.1 a) x) {i : Fin n} (ho : (x.2 i).owed = true) :
    (Quiet K x.1 i ∧ (x.1.pending i = true → (x.1.busy K i).canceling = true)) ↔ (x.2 i).lost = true := by
  have hi := (counted_of_reach hK hD hr).paid i
  rw [← due_eq_zero]
  constructor
  · intro hz
    by_contra hl
    have hpos := hi.owed ho (Bool.eq_false_iff.mpr hl)
    omega
  · exact fun hl => (hi.lost hl).2

/-- **A start is lost**: the callback stops its timer and starts it again with a delay that ends before it returns. -/
theorem lost_run : ∃ x : Sys 1 1 Busy Unit × (Fin 1 → Count),
    (counts plainKernel 1 1 Unit).Reach (fun x a => Valid x.1 a) x ∧ (x.2 0).owed = true ∧
      x.1.ret .workQueue = some (.status 0) ∧ Quiet plainKernel x.1 0 := by
  obtain ⟨x, hr, ho, hret, hl⟩ := Lts.Reach.run (M := counts plainKernel 1 1 Unit) (P := fun x a => Valid x.1 a)
    (Q := fun x => (x.2 0).owed = true ∧ x.1.ret .workQueue = some (.status 0) ∧ (x.2 0).lost = true)
    (s := (boot plainKernel 1 1 Unit, fun _ => .zero)) ⟨rfl, rfl⟩
    (startOnce ++ [.expiry, .call .workQueue (.stop 0), .step .workQueue none, .call .workQueue (.restart 0 1),
      .step .workQueue none, .elapse 0, .expiry, .expiry, .expiry]) (by decide)
  exact ⟨x, hr, ho, hret, ((lost_iff plainKernel_lawful plainKernel_delays hr ho).mpr hl).1⟩

end Gabs.Timer.Zephyr
