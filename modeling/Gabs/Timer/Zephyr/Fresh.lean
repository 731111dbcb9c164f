import Gabs.Timer.Zephyr.Steps

/-!
# The Zephyr timer: freshly installed timers

- `Valid`: handles are not used after their uninstall;
- `Turn`: what one step does to the work item of a timer (`Move.turn`);
- `Newly`: a history: the timers that have not been started since their install, and those whose slot was handed out
  while its handler ran;
- `Clean`: a slot that is free, or has not been started since, has no timeout left, and no work in the queue;
- `installed_idle`: a freshly installed timer is idle exactly if no handler of its slot is left.
-/

namespace Gabs.Timer.Zephyr

open Gabs.Lib

variable {n m : Nat} {κ χ : Type*} [DecidableEq χ] {K : Kernel κ} {s s' : Sys n m κ χ} {i : Fin n}

/-! ## The discipline -/

/-- A call of thread `th` on timer `t` is made from the callback of `t`. -/
def Sys.From (s : Sys n m κ χ) (th : Thread m) (t : Fin n) : Prop := th = .workQueue ∧ s.firing = some t

/-- **Handles are not used after uninstall.** A call is made on a timer that is installed. While another thread
uninstalls it, only the callback of the timer itself still makes calls on it; and an uninstall begins while no other
thread but the callback is in a call on the timer. -/
def Valid (s : Sys n m κ χ) : Act n m χ → Prop
  | .call th op => ∀ t ∈ op.timer, s.taken t = true ∧ ∀ th', (s.calls th').claims ≠ some t ∧
      ((s.calls th').removes = some t → op ≠ .uninstall t ∧ s.From th t) ∧
      (op = .uninstall t → (s.calls th').timer = some t → s.From th' t)
  | _ => True

instance (s : Sys n m κ χ) (th : Thread m) (t : Fin n) : Decidable (s.From th t) := inferInstanceAs (Decidable (_ ∧ _))

instance (s : Sys n m κ χ) (a : Act n m χ) : Decidable (Valid s a) :=
  match a with
  | .call _ _ => inferInstanceAs (Decidable (∀ _ ∈ _, _ ∧ ∀ _, _ ∧ _ ∧ _))
  | .step _ _ | .elapse _ | .run _ | .expiry => instDecidableTrue

/-! ## Work items -/

/-- What a step does to the work item of timer `i`, and to the handler. -/
inductive Turn (K : Kernel κ) (s : Sys n m κ χ) (i : Fin n) (s' : Sys n m κ χ) : Act n m χ → Prop
  | same {a : Act n m χ} : s'.busy K i = s.busy K i → s'.handles i = s.handles i → Turn K s i s' a
  | arm {th : Thread m} {idx : Option (Fin n)} {us : Nat} {queued delayed : Bool} : s.calls th = .timerStart i us →
      s'.busy K i = { s.busy K i with queued, delayed } → s'.handles i = s.handles i → Turn K s i s' (.step th idx)
  | cancel {a : Act n m χ} : s'.busy K i = (s.busy K i).canceled → s'.handles i = s.handles i → Turn K s i s' a
  | elapse {queued : Bool} : (s.busy K i).delayed = true →
      s'.busy K i = { s.busy K i with queued, delayed := false } → s'.handles i = s.handles i →
      Turn K s i s' (.elapse i)
  | run : (s.busy K i).queued = true → s'.busy K i = { s.busy K i with running := true, queued := false } →
      s'.handles i = true → Turn K s i s' (.run i)
  | finish : s.expiry = some (i, .ended) →
      s'.busy K i = { s.busy K i with running := false, canceling := false, flushing := false } →
      s'.handles i = false → Turn K s i s' .expiry

omit [DecidableEq χ] in
theorem busy_of_update {k : Fin n} {w : κ}
    (hs : s'.pool = Function.update s.pool k { s.pool k with dwork := w }) :
    s'.busy K i = if i = k then K.busyGet w else s.busy K i := by
  rw [Sys.busy, hs, Function.update_apply]
  split <;> rfl

omit [DecidableEq χ] in
theorem handles_of_expiry (h : s'.expiry = s.expiry) : s'.handles i = s.handles i := by rw [Sys.handles, h, Sys.handles]

/-- **The steps on the work items.** -/
theorem Move.turn {a : Act n m χ} (hK : K.Lawful) (h : Move K s a s') (i : Fin n) : Turn K s i s' a := by
  -- A step on the work item of slot `k`.
  have hslot : ∀ {k : Fin n} {w : κ}, s'.pool = Function.update s.pool k { s.pool k with dwork := w } →
      s'.handles i = s.handles i ∨ i = k → (i = k → s'.busy K i = K.busyGet w → Turn K s i s' a) → Turn K s i s' a :=
    fun hs hh ht => by
      have hb := busy_of_update (K := K) (i := i) hs
      split at hb
      · exact ht ‹_› hb
      · exact .same hb (hh.resolve_right ‹_›)
  cases h with
  | enter | goto | done | reserve | append | release => exact .same rfl rfl
  | remove =>
    exact .same (by rw [Sys.busy, Sys.goto_pool, unlink_pool, Sys.busy]) (handles_of_expiry (unlink_expiry ..))
  | @fill _ _ _ _ _ k =>
    refine .same ?_ rfl
    rw [Sys.busy, Sys.busy, Sys.goto_pool, Sys.setInfo_pool, Function.update_apply]
    split
    · rename_i heq
      rw [heq]
    · rfl
  | handle he hp => exact .same rfl (by simp only [Sys.handles, Sys.handle_expiry, he, Option.map_some])
  | cancelOwn | cancelSync | stop =>
    refine hslot rfl (.inl rfl) fun heq hb => .cancel ?_ rfl
    subst heq
    exact hb.trans (hK.cancelDelayable _)
  | @arm th idx t us hc =>
    refine hslot rfl (.inl rfl) fun heq hb => ?_
    subst heq
    obtain ⟨queued, delayed, hlaw⟩ := hK.reschedule (s.pool i).dwork (startTimeout us)
    exact .arm hc (hb.trans hlaw) rfl
  | @elapse k hd =>
    refine hslot rfl (.inl rfl) fun heq hb => ?_
    subst heq
    obtain ⟨queued, hlaw⟩ := hK.elapse _ hd
    exact .elapse hd (hb.trans hlaw) rfl
  | @run k he hq =>
    refine hslot rfl ?_ fun heq hb => ?_
    · rcases eq_or_ne i k with heq | hne
      · exact .inr heq
      · exact .inl (by simp [Sys.handles, he, hne.symm])
    · subst heq
      exact .run hq (hb.trans (hK.run _ hq)) (by simp [Sys.handles])
  | @finish k he =>
    refine hslot rfl ?_ fun heq hb => ?_
    · rcases eq_or_ne i k with heq | hne
      · exact .inr heq
      · exact .inl (by simp [Sys.handles, he, hne.symm])
    · subst heq
      exact .finish he (hb.trans (hK.finish _)) (by simp [Sys.handles])

/-- **The flags of the work items**: one is running while its handler runs, and canceling only then; nothing is flushed.
-/
structure Flags (K : Kernel κ) (s : Sys n m κ χ) (i : Fin n) : Prop where
  running : (s.busy K i).running = s.handles i
  canceling : (s.busy K i).canceling = true → (s.busy K i).running = true
  flushing : (s.busy K i).flushing = false

section Canceled

variable (b : Busy)

theorem canceled_running : b.canceled.running = b.running := by unfold Busy.canceled; dsimp only; split <;> rfl

theorem canceled_flushing : b.canceled.flushing = b.flushing := by unfold Busy.canceled; dsimp only; split <;> rfl

theorem canceled_queued : b.canceled.queued = false := by unfold Busy.canceled; dsimp only; split <;> rfl

theorem canceled_delayed : b.canceled.delayed = false := by unfold Busy.canceled; dsimp only; split <;> rfl

theorem canceled_canceling : b.canceled.canceling = (b.running || b.canceling || b.flushing) := by
  rcases b with ⟨r, c, q, d, f⟩
  cases r <;> cases c <;> cases f <;> rfl

end Canceled

theorem Flags.step {a : Act n m χ} (hi : Flags K s i) (hK : K.Lawful) (h : Move K s a s') : Flags K s' i := by
  obtain ⟨hr, hc, hf⟩ := hi
  cases h.turn hK i with
  | same hb hh => exact ⟨by rw [hb, hh, hr], by rw [hb]; exact hc, by rw [hb, hf]⟩
  | arm _ hb hh => exact ⟨by rw [hb, hh, ← hr], by rw [hb]; exact hc, by rw [hb]; exact hf⟩
  | elapse _ hb hh => exact ⟨by rw [hb, hh, ← hr], by rw [hb]; exact hc, by rw [hb]; exact hf⟩
  | run _ hb hh => exact ⟨by rw [hb, hh], by rw [hb]; exact fun _ => rfl, by rw [hb]; exact hf⟩
  | finish _ hb hh => exact ⟨by rw [hb, hh], by rw [hb]; nofun, by rw [hb]⟩
  | cancel hb hh =>
    refine ⟨by rw [hb, hh, canceled_running, hr], fun hcan => ?_, by rw [hb, canceled_flushing, hf]⟩
    rw [hb, canceled_canceling, hf, Bool.or_false, Bool.or_eq_true] at hcan
    rw [hb, canceled_running]
    exact hcan.elim id hc

/-- Timer `i` has no timeout left, and no work in the queue. -/
def Quiet (K : Kernel κ) (s : Sys n m κ χ) (i : Fin n) : Prop :=
  (s.busy K i).queued = false ∧ (s.busy K i).delayed = false

/-- That is so until a call starts the timer; its handler does not begin. -/
theorem Quiet.step {a : Act n m χ} (hq : Quiet K s i) (hK : K.Lawful) (h : Move K s a s')
    (hn : ∀ th, (s.calls th).arms ≠ some i) : Quiet K s' i ∧ (s.handles i = false → s'.handles i = false) := by
  obtain ⟨hqueued, hdelayed⟩ := hq
  cases h.turn hK i with
  | same hb hh => exact ⟨by rw [Quiet, hb]; exact ⟨hqueued, hdelayed⟩, by rw [hh]; exact id⟩
  | @arm th _ us _ _ hc => exact absurd (by rw [hc]; rfl) (hn th)
  | cancel hb hh => exact ⟨by rw [Quiet, hb]; exact ⟨canceled_queued _, canceled_delayed _⟩, by rw [hh]; exact id⟩
  | elapse hd => rw [hdelayed] at hd; cases hd
  | run hq => rw [hqueued] at hq; cases hq
  | finish _ hb hh => exact ⟨by rw [Quiet, hb]; exact ⟨hqueued, hdelayed⟩, fun _ => hh⟩

omit [DecidableEq χ] in
/-- Nothing is left of a work item that is not busy. -/
theorem quiet_of_none (h : s.busy K i = .none) : Quiet K s i := by
  rw [Quiet, h]
  exact ⟨rfl, rfl⟩

/-! ## Fresh timers -/

/-- `fresh`: the timer has been returned by an install, and no start, restart or uninstall of it has been made since.
`stale`: its slot was reserved while the handler ran for a timer that had been there before, and this handler still
runs. -/
structure Newly (n : Nat) where
  fresh : Fin n → Bool
  stale : Fin n → Bool

/-- The history after one more step. -/
def Newly.record (s : Sys n m κ χ) (a : Act n m χ) (_ : Sys n m κ χ) (g : Newly n) : Newly n :=
  match a with
  | .call _ (.uninstall t) | .call _ (.start t _) | .call _ (.restart t _) =>
    { g with fresh := Function.update g.fresh t false }
  | .step th idx => match s.calls th, idx with
    | .install _ _ _ .reserve, some i => { g with stale := Function.update g.stale i (s.handles i) }
    | .install _ _ _ (.append i), _ => { g with fresh := Function.update g.fresh i true }
    | _, _ => g
  | .expiry => match s.expiry with
    | some (i, .ended) => { g with stale := Function.update g.stale i false }
    | _ => g
  | _ => g

/-- The system with this history. -/
def installs (K : Kernel κ) (n m : Nat) (χ : Type*) [DecidableEq χ] : Lts (Sys n m κ χ × Newly n) (Act n m χ) :=
  (system K n m χ).record ⟨fun _ => false, fun _ => false⟩ Newly.record

variable {g : Newly n} {a : Act n m χ}

/-- A step of a call leaves the handlers alone. -/
theorem Move.handles_of_step {th : Thread m} {idx : Option (Fin n)} (h : Move K s (.step th idx) s') :
    s'.handles i = s.handles i := by
  cases h with
  | remove => exact handles_of_expiry (unlink_expiry ..)
  | _ => exact handles_of_expiry rfl

omit [DecidableEq χ] in
theorem Newly.record_step (g : Newly n) (s s' : Sys n m κ χ) (th : Thread m) (idx : Option (Fin n)) (i : Fin n) :
    (g.record s (.step th idx) s').stale i = g.stale i ∨ (g.record s (.step th idx) s').stale i = s.handles i := by
  simp only [Newly.record]
  split
  · rename_i k _
    rcases eq_or_ne i k with rfl | hne
    · exact .inr (Function.update_self ..)
    · exact .inl (Function.update_of_ne hne ..)
  · exact .inl rfl
  · exact .inl rfl

/-- While a timer is quiet, a handler that runs for it is an old one. -/
theorem Newly.stale_step (h : Move K s a s') (hq : Quiet K s i) (hg : g.stale i = s.handles i) :
    (g.record s a s').stale i = s'.handles i := by
  cases a with
  | call th op =>
    cases h with
    | enter => cases op <;> exact hg
  | step th idx =>
    rw [h.handles_of_step]
    rcases g.record_step s s' th idx i with heq | heq
    · rw [heq, hg]
    · exact heq
  | elapse k => cases h; exact hg
  | run k =>
    cases h with
    | run he hqueued =>
      have hne : i ≠ k := by
        rintro rfl
        rw [hq.1] at hqueued
        cases hqueued
      have hold : s.handles i = false := by simp [Sys.handles, he]
      exact hg.trans (hold.trans (by simp [Sys.handles, hne.symm]))
  | expiry =>
    cases h with
    | @handle k p q he hp =>
      have hsame : (g.record s .expiry (s.handle (some (k, q)))).stale = g.stale := by
        cases hp <;> simp [Newly.record, he]
      rw [hsame, hg]
      simp [Sys.handles, he]
    | @finish k he =>
      have hnew : (g.record s .expiry ((s.setWork k (K.finish (s.pool k).dwork)).handle none)).stale =
          Function.update g.stale k false := by simp [Newly.record, he]
      rw [hnew]
      rcases eq_or_ne i k with rfl | hne
      · simp [Sys.handles]
      · rw [Function.update_of_ne hne, hg]
        simp [Sys.handles, he, hne.symm]

/-- The last step of an install. -/
theorem Move.appended {th : Thread m} {idx : Option (Fin n)} (h : Move K s (.step th idx) s') {ctx : χ}
    {cb : Option Nat} {arg : Nat} (hc : s.calls th = .install ctx cb arg (.append i)) : s'.calls th = .idle := by
  cases h with
  | goto hm =>
    cases hm with
    | _ hc' => cases hc.symm.trans hc'
  | done | append | release | arm | stop => exact Function.update_self ..
  | reserve hc' | fill hc' | remove hc' | cancelOwn hc' | cancelSync hc' => cases hc.symm.trans hc'

/-- A timer is fresh when its install returns, and until a call begins that starts or uninstalls it. -/
theorem Newly.fresh_of (h : Move K s a s') (hf : (g.record s a s').fresh i = true) :
    (g.fresh i = true ∧ ∀ th op, a = .call th op → op.arms ≠ some i ∧ op ≠ .uninstall i) ∨
      ∃ th idx, a = .step th idx ∧ (s.calls th).claims = some i ∧ s'.calls th = .idle := by
  cases a with
  | call th op =>
    have hclear : ∀ {t : Fin n}, Function.update g.fresh t false i = true → i ≠ t ∧ g.fresh i = true := fun ht => by
      rw [Function.update_apply] at ht
      split at ht
      · cases ht
      · exact ⟨‹_›, ht⟩
    refine .inl ?_
    cases op with
    | install | stop | active => exact ⟨hf, fun th' op' ha => by cases ha; exact ⟨nofun, nofun⟩⟩
    | uninstall t =>
      obtain ⟨hne, hold⟩ := hclear hf
      exact ⟨hold, fun th' op' ha => by cases ha; exact ⟨nofun, fun he => hne (Op.uninstall.inj he).symm⟩⟩
    | start t us | restart t us =>
      obtain ⟨hne, hold⟩ := hclear hf
      exact ⟨hold, fun th' op' ha => by cases ha; exact ⟨fun he => hne (Option.some.inj he).symm, nofun⟩⟩
  | step th idx =>
    simp only [Newly.record] at hf
    split at hf
    · exact .inl ⟨hf, nofun⟩
    · rename_i hc
      dsimp only at hf
      rw [Function.update_apply] at hf
      split at hf
      · rename_i heq
        subst heq
        exact .inr ⟨th, _, rfl, by rw [hc]; rfl, h.appended hc⟩
      · exact .inl ⟨hf, nofun⟩
    · exact .inl ⟨hf, nofun⟩
  | elapse | run => exact .inl ⟨hf, nofun⟩
  | expiry =>
    simp only [Newly.record] at hf
    split at hf <;> exact .inl ⟨hf, nofun⟩

/-! ## The invariant -/

/-- **Slots are clean** between an uninstall and the first start after the next install. -/
structure Clean (K : Kernel κ) (s : Sys n m κ χ) (g : Newly n) : Prop where
  flags : ∀ i, Flags K s i
  within : s.calls .workQueue ≠ .idle → s.inCallback = true
  timer : ∀ th t, (s.calls th).timer = some t → s.taken t = true
  claims : ∀ th i, (s.calls th).claims = some i → s.taken i = true ∧
    ∀ th', (th' ≠ th → (s.calls th').claims ≠ some i) ∧ (s.calls th').timer ≠ some i
  removes : ∀ th t, (s.calls th).removes = some t → ∀ th', th' ≠ th → (s.calls th').timer = some t →
    (s.calls th').removes ≠ some t ∧ s.From th' t
  released : ∀ th t, s.calls th = .uninstall t .release → Quiet K s t ∧ (th = .workQueue ∨ s.handles t = false) ∧
    ∀ th', th' ≠ th → (s.calls th').timer ≠ some t
  free : ∀ i, s.taken i = false → Quiet K s i
  claimed : ∀ th i, (s.calls th).claims = some i → Quiet K s i ∧ g.stale i = s.handles i
  fresh : ∀ i, g.fresh i = true → Quiet K s i ∧ g.stale i = s.handles i ∧ s.taken i = true ∧
    ∀ th, (s.calls th).claims ≠ some i ∧ (s.calls th).removes ≠ some i ∧ (s.calls th).arms ≠ some i

omit [DecidableEq χ] in
theorem Clean.init (hK : K.Lawful) : Clean K (boot K n m χ) ⟨fun _ => false, fun _ => false⟩ := by
  have hnone : ∀ i, (boot K n m χ).busy K i = .none := fun _ => hK.initDelayable
  refine ⟨fun i => ⟨?_, ?_, ?_⟩, fun hc => absurd rfl hc, nofun, nofun, nofun, nofun,
    fun i _ => quiet_of_none (hnone i), nofun, nofun⟩
  · rw [hnone]; rfl
  · rw [hnone]; nofun
  · rw [hnone]; rfl

omit [DecidableEq χ] in
/-- A callback is part of the handler. -/
theorem handles_of_firing (h : s.firing = some i) : s.handles i = true := by
  unfold Sys.firing at h
  split at h <;> cases h <;> rename_i he <;> simp [Sys.handles, he]

omit [DecidableEq χ] in
theorem firing_of_expiry (h : s'.expiry = s.expiry) : s'.firing = s.firing := by rw [Sys.firing, h, Sys.firing]

omit [DecidableEq χ] in
theorem inCallback_of_expiry (h : s'.expiry = s.expiry) : s'.inCallback = s.inCallback := by
  rw [Sys.inCallback, h, Sys.inCallback]

/-! ## One step -/

/-- A call made from a callback is followed by no other step of the handler. -/
theorem Clean.expiry_kept (hi : Clean K s g) (h : Move K s a s') {t : Fin n}
    (hc : (s.calls .workQueue).timer = some t) : s'.expiry = s.expiry := by
  have hbusy : s.calls .workQueue ≠ .idle := fun he => by rw [he] at hc; cases hc
  exact h.expiry_kept (hi.within hbusy) hbusy

theorem Clean.within_step (hi : Clean K s g) (h : Move K s a s') (hc : s'.calls .workQueue ≠ .idle) :
    s'.inCallback = true := by
  rcases h.calls_of .workQueue with heq | ⟨op, rfl, -, -⟩ | ⟨idx, -, hn⟩
  · rw [heq] at hc
    rw [inCallback_of_expiry (h.expiry_kept (hi.within hc) hc)]
    exact hi.within hc
  · cases h with
    | enter _ hcb => exact hcb rfl
  · have hold : s.calls .workQueue ≠ .idle := by
      intro hidle
      rw [hidle] at hn
      generalize s'.calls .workQueue = c' at hn hc
      cases hn
      exact hc rfl
    rw [inCallback_of_expiry (h.expiry_kept (hi.within hold) hold)]
    exact hi.within hold

/-- The slots of calls stay taken. -/
theorem Clean.timer_step (hi : Clean K s g) (hv : Valid s a) (h : Move K s a s') {th : Thread m} {t : Fin n}
    (hc : (s'.calls th).timer = some t) : s'.taken t = true := by
  rcases h.timer_of hc with hold | ⟨op, rfl, hop⟩
  · by_contra hfree
    rcases h.taken_of (Bool.eq_false_iff.mpr hfree) with hf | ⟨th', idx, rfl, hr⟩
    · rw [hi.timer th t hold] at hf
      cases hf
    · rcases eq_or_ne th th' with rfl | hne
      · rw [h.released hr] at hc
        cases hc
      · exact (hi.released th' t hr).2.2 th hne hold
  · obtain ⟨-, rfl⟩ := h.entered
    exact (hv t hop).1

/-- An install has its slot to itself. -/
theorem Clean.claims_step (hi : Clean K s g) (hv : Valid s a) (h : Move K s a s') {th : Thread m} {i : Fin n}
    (hc : (s'.calls th).claims = some i) : s'.taken i = true ∧
      ∀ th', (th' ≠ th → (s'.calls th').claims ≠ some i) ∧ (s'.calls th').timer ≠ some i := by
  rcases h.claims_of hc with hold | ⟨rfl, hfree, htaken, -⟩
  · obtain ⟨ht, hothers⟩ := hi.claims th i hold
    refine ⟨h.taken_kept ht fun th' hr => (hothers th').2 (by rw [hr]; rfl),
      fun th' => ⟨fun hne hc' => ?_, fun hc' => ?_⟩⟩
    · rcases h.claims_of hc' with hold' | ⟨-, hfree, -⟩
      · exact (hothers th').1 hne hold'
      · rw [ht] at hfree
        cases hfree
    · rcases h.timer_of hc' with hold' | ⟨op, rfl, hop⟩
      · exact (hothers th').2 hold'
      · exact ((hv i hop).2 th).1 hold
  · refine ⟨htaken, fun th' => ⟨fun hne hc' => ?_, fun hc' => ?_⟩⟩
    · rcases h.claims_of hc' with hold' | ⟨heq, -⟩
      · rw [(hi.claims th' i hold').1] at hfree
        cases hfree
      · exact hne (Act.step.inj heq).1.symm
    · rcases h.timer_of hc' with hold' | ⟨op, heq, -⟩
      · rw [hi.timer th' i hold'] at hfree
        cases hfree
      · cases heq

/-- While a timer is being uninstalled, only its own callback is in another call on it. -/
theorem Clean.removes_step (hi : Clean K s g) (hv : Valid s a) (h : Move K s a s') {th th' : Thread m} {t : Fin n}
    (hc : (s'.calls th).removes = some t) (hne : th' ≠ th) (hc' : (s'.calls th').timer = some t) :
    (s'.calls th').removes ≠ some t ∧ s'.From th' t := by
  rcases h.removes_of hc with hold | rfl
  · rcases h.timer_of hc' with hold' | ⟨op, rfl, hop⟩
    · obtain ⟨hn, rfl, hf⟩ := hi.removes th t hold th' hne hold'
      refine ⟨fun hr => ?_, rfl, (firing_of_expiry (hi.expiry_kept h hold')).trans hf⟩
      rcases h.removes_of hr with hr | rfl
      · exact hn hr
      · exact (((hv t rfl).2 th).2.1 hold).1 rfl
    · obtain ⟨-, rfl⟩ := h.entered
      obtain ⟨hno, hfrom⟩ := ((hv t hop).2 th).2.1 hold
      refine ⟨fun hr => ?_, hfrom⟩
      rcases h.removes_of hr with hr | heq
      · rw [(Move.entered h).1] at hr
        cases hr
      · exact hno (Act.call.inj heq).2
  · obtain ⟨-, rfl⟩ := h.entered
    rw [Sys.goto_calls, Function.update_of_ne hne] at hc' ⊢
    exact ⟨fun hr => (((hv t rfl).2 th').2.1 hr).1 rfl, ((hv t rfl).2 th').2.2 rfl hc'⟩

/-- When a slot is about to be released, nothing is left of its timer but the callback that releases it. -/
theorem Clean.released_step (hi : Clean K s g) (hK : K.Lawful) (hv : Valid s a) (h : Move K s a s') {th : Thread m}
    {t : Fin n} (hc : s'.calls th = .uninstall t .release) : Quiet K s' t ∧ (th = .workQueue ∨ s'.handles t = false) ∧
      ∀ th', th' ≠ th → (s'.calls th').timer ≠ some t := by
  rcases h.release_of hc with hold | ⟨⟨idx, rfl⟩, hr, hlast⟩
  · obtain ⟨hq, hw, hothers⟩ := hi.released th t hold
    have harms : ∀ th', (s.calls th').arms ≠ some t := fun th' ha => by
      rcases eq_or_ne th' th with rfl | hne
      · rw [hold] at ha
        cases ha
      · exact hothers th' hne (timer_of_arms ha)
    obtain ⟨hq', hh⟩ := hq.step hK h harms
    refine ⟨hq', hw.imp_right hh, fun th' hne hc' => ?_⟩
    rcases h.timer_of hc' with hold' | ⟨op, rfl, hop⟩
    · exact hothers th' hne hold'
    · obtain ⟨-, hwq, hf⟩ := ((hv t hop).2 th).2.1 (by rw [hold]; rfl)
      rcases hw with rfl | hw
      · exact hne hwq
      · rw [handles_of_firing hf] at hw
        cases hw
  · have hothers : ∀ th', th' ≠ th → (s'.calls th').timer = some t → s.From th' t := fun th' hne hc' => by
      rcases h.timer_of hc' with hold' | ⟨op, heq, -⟩
      · exact (hi.removes th t hr th' hne hold').2
      · cases heq
    rcases hlast with ⟨rfl, hb⟩ | ⟨hb, hb', he⟩
    · refine ⟨?_, .inl rfl, fun th' hne hc' => hne (hothers th' hne hc').1⟩
      rw [Quiet, hb, hK.cancelDelayable]
      exact ⟨canceled_queued _, canceled_delayed _⟩
    · have hh : s.handles t = false := by rw [← (hi.flags t).running, hb]; rfl
      refine ⟨quiet_of_none hb', .inr ((handles_of_expiry he).trans hh), fun th' hne hc' => ?_⟩
      rw [handles_of_firing (hothers th' hne hc').2] at hh
      cases hh

theorem Clean.free_step (hi : Clean K s g) (hK : K.Lawful) (h : Move K s a s') (hf : s'.taken i = false) :
    Quiet K s' i := by
  rcases h.taken_of hf with hold | ⟨th, idx, rfl, hr⟩
  · refine ((hi.free i hold).step hK h fun th ha => ?_).1
    rw [hi.timer th i (timer_of_arms ha)] at hold
    cases hold
  · obtain ⟨hq, -, hothers⟩ := hi.released th i hr
    refine (hq.step hK h fun th' ha => ?_).1
    rcases eq_or_ne th' th with rfl | hne
    · rw [hr] at ha
      cases ha
    · exact hothers th' hne (timer_of_arms ha)

theorem Clean.claimed_step (hi : Clean K s g) (hK : K.Lawful) (h : Move K s a s') {th : Thread m} {i : Fin n}
    (hc : (s'.calls th).claims = some i) : Quiet K s' i ∧ (g.record s a s').stale i = s'.handles i := by
  rcases h.claims_of hc with hold | ⟨rfl, hfree, -, ctx, cb, arg, hr⟩
  · obtain ⟨hq, hg⟩ := hi.claimed th i hold
    exact ⟨(hq.step hK h fun th' ha => ((hi.claims th i hold).2 th').2 (timer_of_arms ha)).1, Newly.stale_step h hq hg⟩
  · refine ⟨((hi.free i hfree).step hK h fun th' ha => ?_).1, ?_⟩
    · rw [hi.timer th' i (timer_of_arms ha)] at hfree
      cases hfree
    · rw [h.handles_of_step]
      simp only [Newly.record, hr, Function.update_self]

/-- **A fresh timer** has its slot from its install on, and nothing is started there. -/
theorem Clean.fresh_step (hi : Clean K s g) (hK : K.Lawful) (hv : Valid s a) (h : Move K s a s')
    (hf : (g.record s a s').fresh i = true) : Quiet K s' i ∧ (g.record s a s').stale i = s'.handles i ∧
      s'.taken i = true ∧
        ∀ th, (s'.calls th).claims ≠ some i ∧ (s'.calls th).removes ≠ some i ∧ (s'.calls th).arms ≠ some i := by
  rcases Newly.fresh_of h hf with ⟨hold, hop⟩ | ⟨th, idx, rfl, hcl, hidle⟩
  · obtain ⟨hq, hg, ht, hothers⟩ := hi.fresh i hold
    refine ⟨(hq.step hK h fun th => (hothers th).2.2).1, Newly.stale_step h hq hg,
      h.taken_kept ht fun th hr => (hothers th).2.1 (by rw [hr]; rfl),
      fun th => ⟨fun hc => ?_, fun hc => ?_, fun hc => ?_⟩⟩
    · rcases h.claims_of hc with hc | ⟨-, hfree, -⟩
      · exact (hothers th).1 hc
      · rw [ht] at hfree
        cases hfree
    · rcases h.removes_of hc with hc | heq
      · exact (hothers th).2.1 hc
      · exact (hop th _ heq).2 rfl
    · rcases h.arms_of hc with hc | ⟨op, heq, ho⟩
      · exact (hothers th).2.2 hc
      · exact (hop th op heq).1 ho
  · obtain ⟨hq, hg⟩ := hi.claimed th i hcl
    obtain ⟨ht, hothers⟩ := hi.claims th i hcl
    have htimer : ∀ th', (s'.calls th').timer ≠ some i := fun th' hc => by
      rcases h.timer_of hc with hc | ⟨op, heq, -⟩
      · exact (hothers th').2 hc
      · cases heq
    refine ⟨(hq.step hK h fun th' ha => (hothers th').2 (timer_of_arms ha)).1, Newly.stale_step h hq hg,
      h.taken_kept ht fun th' hr => (hothers th').2 (by rw [hr]; rfl),
      fun th' => ⟨fun hc => ?_, fun hc => htimer th' (timer_of_removes hc), fun hc => htimer th' (timer_of_arms hc)⟩⟩
    rcases eq_or_ne th' th with rfl | hne
    · rw [hidle] at hc
      cases hc
    · rcases h.claims_of hc with hc | ⟨heq, -⟩
      · exact (hothers th').1 hne hc
      · exact hne (Act.step.inj heq).1.symm

/-- **One step.** -/
theorem Clean.step (hi : Clean K s g) (hK : K.Lawful) (hv : Valid s a) (h : Move K s a s') :
    Clean K s' (g.record s a s') where
  flags i := (hi.flags i).step hK h
  within := hi.within_step h
  timer _ _ := hi.timer_step hv h
  claims _ _ := hi.claims_step hv h
  removes _ _ hc _ := hi.removes_step hv h hc
  released _ _ := hi.released_step hK hv h
  free _ := hi.free_step hK h
  claimed _ _ := hi.claimed_step hK h
  fresh _ := hi.fresh_step hK hv h

theorem clean_of_reach (hK : K.Lawful) {x : Sys n m κ χ × Newly n}
    (hr : (installs K n m χ).Reach (fun x a => Valid x.1 a) x) : Clean K x.1 x.2 := by
  refine hr.record_invariant (I := fun s g => Clean K s g) ?_ fun s a s' g _ hi hv h => hi.step hK hv (step_move h)
  rintro s rfl
  exact .init hK

/-! ## Idle timers -/

/-- **Timer `t` is idle**: in any thread, `gabs_timer_active` answers false, and `gabs_timer_start` goes on. -/
structure Idle (K : Kernel κ) (s : Sys n m κ χ) (t : Fin n) : Prop where
  active : ∀ th idx, ∃ s', callStep K (s.goto th (.active t)) th idx = some s' ∧ s'.ret th = some (.active false)
  start : ∀ th us idx, ∃ s', callStep K (s.goto th (.start t us)) th idx = some s' ∧ s'.calls th = .timerStart t us

/-- It is idle if its work item is not busy; a flag that `gabs_timer_active` does not see is enough for
`gabs_timer_start` to return `-EBUSY`. -/
theorem idle_iff {t : Fin n} : Idle K s t ↔ s.busy K t = .none := by
  constructor
  · intro hi
    obtain ⟨s', hs, hcall⟩ := hi.start .workQueue 0 none
    have hstart : (s.goto .workQueue (.start t 0)).calls .workQueue = .start t 0 := by
      rw [Sys.goto_calls, Function.update_self]
    by_contra hb
    have hbusy : (s.goto .workQueue (.start t 0)).busy K t ≠ .none := hb
    simp only [callStep, hstart, if_pos hbusy, Option.some.injEq] at hs
    rw [← hs, Sys.done_calls, Function.update_self] at hcall
    cases hcall
  · intro hb
    constructor
    · intro th idx
      have hcall : (s.goto th (.active t)).calls th = .active t := by rw [Sys.goto_calls, Function.update_self]
      have hbusy : (s.goto th (.active t)).busy K t = .none := hb
      refine ⟨_, by rw [callStep, hcall], ?_⟩
      rw [Sys.done_ret, Function.update_self, hbusy]
      rfl
    · intro th us idx
      have hcall : (s.goto th (.start t us)).calls th = .start t us := by rw [Sys.goto_calls, Function.update_self]
      have hpass : ¬(s.goto th (.start t us)).busy K t ≠ .none := not_not.mpr hb
      refine ⟨(s.goto th (.start t us)).goto th (.timerStart t us), ?_, ?_⟩
      · simp only [callStep, hcall, if_neg hpass]
      · rw [Sys.goto_calls, Function.update_self]

/-- A quiet timer is idle if its handler does not run. -/
theorem Flags.idle_iff {t : Fin n} (hf : Flags K s t) (hq : Quiet K s t) : Idle K s t ↔ s.handles t = false := by
  rw [Zephyr.idle_iff, ← hf.running]
  constructor
  · intro hb
    rw [hb]
    rfl
  · intro hr
    have hc : (s.busy K t).canceling = false := by
      by_contra hc
      rw [hf.canceling (Bool.eq_true_of_not_eq_false hc)] at hr
      cases hr
    have hfl := hf.flushing
    obtain ⟨hqueued, hdelayed⟩ := hq
    generalize s.busy K t = b at *
    cases b
    simp only at hr hc hfl hqueued hdelayed
    rw [hr, hc, hfl, hqueued, hdelayed]
    rfl

/-- **A freshly installed timer is idle exactly if no handler of its slot is left**: its slot was not handed out while
the handler ran for the timer that had been there before, or this handler has ended. -/
theorem installed_idle (hK : K.Lawful) {x : Sys n m κ χ × Newly n}
    (hr : (installs K n m χ).Reach (fun x a => Valid x.1 a) x) {t : Fin n} (hf : x.2.fresh t = true) :
    Idle K x.1 t ↔ x.2.stale t = false := by
  have hi := clean_of_reach hK hr
  obtain ⟨hq, hg, -⟩ := hi.fresh t hf
  rw [(hi.flags t).idle_iff hq, hg]

/-- A kernel whose work items are their flags: a work item that is being cancelled is not queued. -/
def plainKernel : Kernel Busy where
  initDelayable := .none
  busyGet b := b
  reschedule b _ := { b with delayed := true }
  cancelDelayable := Busy.canceled
  elapse b := { b with queued := b.queued || !b.canceling, delayed := false }
  run b := { b with running := true, queued := false }
  finish b := { b with running := false, canceling := false, flushing := false }

theorem plainKernel_lawful : plainKernel.Lawful :=
  ⟨rfl, fun w _ => ⟨w.queued, true, rfl⟩, fun _ => rfl, fun _ _ => ⟨_, rfl⟩, fun _ _ => rfl, fun _ => rfl⟩

/-- A timer that is installed and started, and whose callback uninstalls it. -/
def uninstallOwn : List (Act 1 1 Unit) :=
  let c : Thread 1 := .client 0
  [Act.call c (.install () (some 7) 0), .step c (some 0), .step c none, .step c none, .call c (.start 0 5),
    .step c none,
    .step c none, .elapse 0, .run 0, .expiry, .expiry, .call .workQueue (.uninstall 0), .step .workQueue none,
    .step .workQueue none, .step .workQueue none]

/-- Its slot is handed out again. -/
def reinstall : List (Act 1 1 Unit) :=
  let c : Thread 1 := .client 0
  [Act.call c (.install () (some 8) 0), .step c (some 0), .step c none, .step c none]

theorem installed_idle_run : ∃ x : Sys 1 1 Busy Unit × Newly 1,
    (installs plainKernel 1 1 Unit).Reach (fun x a => Valid x.1 a) x ∧ x.2.fresh 0 = true ∧ Idle plainKernel x.1 0 := by
  obtain ⟨x, hr, hf, hs⟩ := Lts.Reach.run (M := installs plainKernel 1 1 Unit) (P := fun x a => Valid x.1 a)
    (Q := fun x => x.2.fresh 0 = true ∧ x.2.stale 0 = false)
    (s := (boot plainKernel 1 1 Unit, ⟨fun _ => false, fun _ => false⟩)) ⟨rfl, rfl⟩
    (uninstallOwn ++ reinstall ++ [.expiry, .expiry, .expiry]) (by decide)
  exact ⟨x, hr, hf, (installed_idle plainKernel_lawful hr hf).mpr hs⟩

/-- **A slot is handed out while its handler runs**: the new timer is active, and its first start returns `-EBUSY`. -/
theorem reinstalled_busy : ∃ x : Sys 1 1 Busy Unit × Newly 1,
    (installs plainKernel 1 1 Unit).Reach (fun x a => Valid x.1 a) x ∧ x.2.fresh 0 = true ∧
    x.1.ret (.client 0) = some (.timer (some 0)) ∧
    (callStep plainKernel (x.1.goto (.client 0) (.active 0)) (.client 0) none).map (fun s => s.ret (.client 0)) =
      some (some (.active true)) ∧
    (callStep plainKernel (x.1.goto (.client 0) (.start 0 5)) (.client 0) none).map (fun s => s.ret (.client 0)) =
      some (some (.status (-eBusy))) :=
  Lts.Reach.run (M := installs plainKernel 1 1 Unit) (P := fun x a => Valid x.1 a)
    (s := (boot plainKernel 1 1 Unit, ⟨fun _ => false, fun _ => false⟩)) ⟨rfl, rfl⟩
    (uninstallOwn ++ reinstall) (by decide)

end Gabs.Timer.Zephyr
