import Gabs.Timer.Zephyr.Model

/-!
# The Zephyr timer: what one step can do

- `Call.claims`, `Call.removes`, `Call.timer`, `Call.arms`: the slot a call is at work on, and what it does there;
- `Move K s a s'`: every way in which an action changes the system, with what the step found (`step_move`);
- `Move.timer_of` …: how a call comes to such a position.
-/

namespace Gabs.Timer.Zephyr

open Gabs.Lib

variable {n m : Nat} {κ χ : Type*} [DecidableEq χ] {K : Kernel κ} {s s' : Sys n m κ χ}

/-! ## Positions -/

/-- The slot an install has reserved and not returned. -/
def Call.claims : Call n χ → Option (Fin n)
  | .install _ _ _ (.fill i) | .install _ _ _ (.append i) => some i
  | _ => none

/-- The timer an uninstall is at work on. -/
def Call.removes : Call n χ → Option (Fin n)
  | .uninstall t _ => some t
  | _ => none

/-- The timer a call is made on. -/
def Call.timer : Call n χ → Option (Fin n)
  | .uninstall t _ | .start t _ | .timerStart t _ | .stop t | .active t => some t
  | _ => none

/-- The timer a call may start. -/
def Call.arms : Call n χ → Option (Fin n)
  | .start t _ | .timerStart t _ => some t
  | _ => none

/-- The timer a function is called on. -/
def Op.timer : Op n χ → Option (Fin n)
  | .uninstall t | .start t _ | .restart t _ | .stop t | .active t => some t
  | .install _ _ _ => none

/-- The timer a function starts. -/
def Op.arms : Op n χ → Option (Fin n)
  | .start t _ | .restart t _ => some t
  | _ => none

/-- The handler of timer `i` runs. -/
def Sys.handles (s : Sys n m κ χ) (i : Fin n) : Bool := decide (s.expiry.map Prod.fst = some i)

section First

variable (op : Op n χ)

omit [DecidableEq χ]

theorem first_timer : op.first.timer = op.timer := by cases op <;> rfl

theorem first_arms : op.first.arms = op.arms := by cases op <;> rfl

theorem first_claims : op.first.claims = none := by cases op <;> rfl

theorem timer_of_removes {c : Call n χ} {t : Fin n} (h : c.removes = some t) : c.timer = some t := by
  cases c <;> first | exact h | cases h

theorem timer_of_arms {c : Call n χ} {t : Fin n} (h : c.arms = some t) : c.timer = some t := by
  cases c <;> first | exact h | cases h

end First

/-! ## The steps -/

/-- The steps of the handler of timer `i` before it returns to the work queue. -/
inductive Handles (s : Sys n m κ χ) : Expiry → Expiry → Prop
  | enter : Handles s .enter .test
  | fire : Handles s .test .callback
  | skip : Handles s .test .leave
  | ret : s.calls .workQueue = .idle → Handles s .callback .leave
  | leave : Handles s .leave .ended

/-- Steps of a call that change nothing but its position. -/
inductive CallMove (K : Kernel κ) (s : Sys n m κ χ) (th : Thread m) : Call n χ → Prop
  | wait {t : Fin n} : s.calls th = .uninstall t .wait → s.busy K t = .none → CallMove K s th (.uninstall t .release)
  | pass {t : Fin n} {us : Nat} : s.calls th = .start t us → s.busy K t = .none → CallMove K s th (.timerStart t us)

/-- Steps with which a call returns and which change nothing else. -/
inductive DoneMove (K : Kernel κ) (s : Sys n m κ χ) (th : Thread m) : Ret n → Prop
  | full {ctx : χ} {cb : Option Nat} {arg : Nat} : s.calls th = .install ctx cb arg .reserve →
      DoneMove K s th (.timer none)
  | busy {t : Fin n} {us : Nat} : s.calls th = .start t us → s.busy K t ≠ .none →
      DoneMove K s th (.status (-eBusy))
  | active {t : Fin n} : s.calls th = .active t → DoneMove K s th (.active (s.busy K t).active)

/-- **The steps of the system.** -/
inductive Move (K : Kernel κ) (s : Sys n m κ χ) : Act n m χ → Sys n m κ χ → Prop
  | enter {th : Thread m} {op : Op n χ} : s.calls th = .idle → (th = .workQueue → s.inCallback = true) →
      Move K s (.call th op) (s.goto th op.first)
  | elapse {i : Fin n} : (s.busy K i).delayed = true → Move K s (.elapse i) (s.setWork i (K.elapse (s.pool i).dwork))
  | run {i : Fin n} : s.expiry = none → (s.busy K i).queued = true →
      Move K s (.run i) ((s.setWork i (K.run (s.pool i).dwork)).handle (some (i, .enter)))
  | handle {i : Fin n} {p q : Expiry} : s.expiry = some (i, p) → Handles s p q →
      Move K s .expiry (s.handle (some (i, q)))
  | finish {i : Fin n} : s.expiry = some (i, .ended) →
      Move K s .expiry ((s.setWork i (K.finish (s.pool i).dwork)).handle none)
  | goto {th : Thread m} {idx : Option (Fin n)} {c : Call n χ} :
      CallMove K s th c → Move K s (.step th idx) (s.goto th c)
  | done {th : Thread m} {idx : Option (Fin n)} {v : Ret n} : DoneMove K s th v → Move K s (.step th idx) (s.done th v)
  | reserve {th : Thread m} {ctx : χ} {cb : Option Nat} {arg : Nat} {i : Fin n} :
      s.calls th = .install ctx cb arg .reserve → s.taken i = false →
      Move K s (.step th (some i)) ((s.setTaken i true).goto th (.install ctx cb arg (.fill i)))
  | fill {th : Thread m} {idx : Option (Fin n)} {ctx : χ} {cb : Option Nat} {arg : Nat} {i : Fin n} :
      s.calls th = .install ctx cb arg (.fill i) →
      Move K s (.step th idx) ((s.setInfo i cb arg ctx).goto th (.install ctx cb arg (.append i)))
  | append {th : Thread m} {idx : Option (Fin n)} {ctx : χ} {cb : Option Nat} {arg : Nat} {i : Fin n} :
      s.calls th = .install ctx cb arg (.append i) →
      Move K s (.step th idx) ((s.setList ctx (s.list ctx ++ [i])).done th (.timer (some i)))
  | remove {th : Thread m} {idx : Option (Fin n)} {t : Fin n} : s.calls th = .uninstall t .remove →
      Move K s (.step th idx) ((unlink s t).goto th (.uninstall t .cancel))
  | cancelOwn {th : Thread m} {idx : Option (Fin n)} {t : Fin n} : s.calls th = .uninstall t .cancel →
      th = .workQueue → s.firing = some t →
      Move K s (.step th idx) ((s.setWork t (K.cancelDelayable (s.pool t).dwork)).goto th (.uninstall t .release))
  | cancelSync {th : Thread m} {idx : Option (Fin n)} {t : Fin n} : s.calls th = .uninstall t .cancel →
      Move K s (.step th idx) ((s.setWork t (K.cancelDelayable (s.pool t).dwork)).goto th (.uninstall t .wait))
  | release {th : Thread m} {idx : Option (Fin n)} {t : Fin n} : s.calls th = .uninstall t .release →
      Move K s (.step th idx) ((s.setTaken t false).done th (.status 0))
  | arm {th : Thread m} {idx : Option (Fin n)} {t : Fin n} {us : Nat} : s.calls th = .timerStart t us →
      Move K s (.step th idx)
        ((s.setWork t (K.reschedule (s.pool t).dwork (startTimeout us))).done th (.status 0))
  | stop {th : Thread m} {idx : Option (Fin n)} {t : Fin n} : s.calls th = .stop t →
      Move K s (.step th idx) ((s.setWork t (K.cancelDelayable (s.pool t).dwork)).done th (.status 0))

theorem installStep_move {th : Thread m} {ctx : χ} {cb : Option Nat} {arg : Nat} {p : Install n} {idx : Option (Fin n)}
    (hc : s.calls th = .install ctx cb arg p) (h : installStep s th ctx cb arg p idx = some s') :
    Move K s (.step th idx) s' := by
  cases p with
  | reserve =>
    cases idx with
    | none => cases h; exact .done (.full hc)
    | some i =>
      simp only [installStep] at h
      cases ht : s.taken i with
      | true => simp only [ht, if_true] at h; cases h
      | false => simp only [ht, Bool.false_eq_true, if_false] at h; cases h; exact .reserve hc ht
  | fill i => cases h; exact .fill hc
  | append i => cases h; exact .append hc

theorem uninstallStep_move {th : Thread m} {t : Fin n} {p : Uninstall} {idx : Option (Fin n)}
    (hc : s.calls th = .uninstall t p) (h : uninstallStep K s th t p = some s') : Move K s (.step th idx) s' := by
  cases p with
  | remove => cases h; exact .remove hc
  | cancel =>
    cases hown : s.inCallbackOf th t with
    | true =>
      simp only [uninstallStep, hown, if_true, Option.some.injEq] at h
      simp only [Sys.inCallbackOf, Bool.and_eq_true, decide_eq_true_eq] at hown
      subst h
      exact .cancelOwn hc hown.1 hown.2
    | false =>
      simp only [uninstallStep, hown, Bool.false_eq_true, if_false, Option.some.injEq] at h
      subst h
      exact .cancelSync hc
  | wait =>
    simp only [uninstallStep] at h
    split at h
    · cases h; exact .goto (.wait hc ‹_›)
    · cases h
  | release => cases h; exact .release hc

theorem callStep_move {th : Thread m} {idx : Option (Fin n)} (h : callStep K s th idx = some s') :
    Move K s (.step th idx) s' := by
  unfold callStep at h
  split at h
  · cases h
  · rename_i hc; exact installStep_move hc h
  · rename_i hc; exact uninstallStep_move hc h
  · rename_i t us hc
    by_cases hb : s.busy K t ≠ .none
    · rw [if_pos hb] at h; cases h; exact .done (.busy hc hb)
    · rw [if_neg hb] at h; cases h; exact .goto (.pass hc (not_not.mp hb))
  · rename_i hc; cases h; exact .arm hc
  · rename_i hc; cases h; exact .stop hc
  · rename_i hc; cases h; exact .done (.active hc)

theorem timerExpiryStep_move {i : Fin n} {p : Expiry} (he : s.expiry = some (i, p))
    (h : timerExpiryStep K s i p = some s') : Move K s .expiry s' := by
  cases p with
  | enter => cases h; exact .handle he .enter
  | test =>
    simp only [timerExpiryStep] at h
    split at h
    · cases h; exact .handle he .fire
    · cases h; exact .handle he .skip
  | callback =>
    simp only [timerExpiryStep] at h
    split at h
    · cases h; exact .handle he (.ret ‹_›)
    · cases h
  | leave => cases h; exact .handle he .leave
  | ended => cases h; exact .finish he

/-- **Every step of the system is a move.** -/
theorem step_move {a : Act n m χ} (h : step K s a = some s') : Move K s a s' := by
  cases a with
  | call th op =>
    simp only [step] at h
    split at h
    · rename_i hc; cases h; exact .enter hc.1 hc.2
    · cases h
  | step th idx => exact callStep_move h
  | elapse i =>
    simp only [step] at h
    split at h
    · cases h; exact .elapse ‹_›
    · cases h
  | run i =>
    simp only [step] at h
    split at h
    · rename_i hc; cases h; exact .run hc.1 hc.2
    · cases h
  | expiry =>
    obtain ⟨x, hx, h⟩ := Option.bind_eq_some_iff.mp h
    exact timerExpiryStep_move hx h

/-! ## How a call comes to a position -/

/-- The steps of a call, as far as its position goes. -/
inductive Next : Call n χ → Call n χ → Prop
  | idle {c : Call n χ} : Next c .idle
  | reserve {ctx : χ} {cb : Option Nat} {arg : Nat} {i : Fin n} :
      Next (.install ctx cb arg .reserve) (.install ctx cb arg (.fill i))
  | fill {ctx : χ} {cb : Option Nat} {arg : Nat} {i : Fin n} :
      Next (.install ctx cb arg (.fill i)) (.install ctx cb arg (.append i))
  | uninstall {t : Fin n} {p q : Uninstall} : Next (.uninstall t p) (.uninstall t q)
  | pass {t : Fin n} {us : Nat} : Next (.start t us) (.timerStart t us)

omit [DecidableEq χ] in
/-- A step that moves one thread. -/
theorem calls_of_update {th th' : Thread m} {c : Call n χ} (hs : s'.calls = Function.update s.calls th' c)
    (hn : Next (s.calls th') c) : s'.calls th = s.calls th ∨ th = th' ∧ Next (s.calls th) (s'.calls th) := by
  rw [hs]
  rcases eq_or_ne th th' with rfl | hne
  · rw [Function.update_self]
    exact .inr ⟨rfl, hn⟩
  · exact .inl (Function.update_of_ne hne ..)

variable {a : Act n m χ}

/-- **What a step does to a call.** -/
theorem Move.calls_of (h : Move K s a s') (th : Thread m) : s'.calls th = s.calls th ∨
    (∃ op, a = .call th op ∧ s.calls th = .idle ∧ s'.calls th = op.first) ∨
    ∃ idx, a = .step th idx ∧ Next (s.calls th) (s'.calls th) := by
  have hstep : ∀ {th' : Thread m} {idx : Option (Fin n)} {c : Call n χ}, s'.calls = Function.update s.calls th' c →
      Next (s.calls th') c → a = .step th' idx → s'.calls th = s.calls th ∨
        (∃ op, a = .call th op ∧ s.calls th = .idle ∧ s'.calls th = op.first) ∨
        ∃ idx, a = .step th idx ∧ Next (s.calls th) (s'.calls th) := fun hs hn ha =>
    (calls_of_update hs hn).imp_right fun ⟨heq, hnext⟩ => .inr ⟨_, heq ▸ ha, hnext⟩
  cases h with
  | elapse | run | handle | finish => exact .inl rfl
  | @enter th' op hi hcb =>
    rcases eq_or_ne th th' with rfl | hne
    · exact .inr (.inl ⟨op, rfl, hi, Function.update_self ..⟩)
    · exact .inl (Function.update_of_ne hne ..)
  | goto hm =>
    cases hm with
    | wait hc => exact hstep rfl (hc ▸ .uninstall) rfl
    | pass hc => exact hstep rfl (hc ▸ .pass) rfl
  | done | append | release | arm | stop => exact hstep rfl .idle rfl
  | reserve hc => exact hstep rfl (hc ▸ .reserve) rfl
  | fill hc => exact hstep rfl (hc ▸ .fill) rfl
  | remove hc => exact hstep (congrArg (Function.update · _ _) (unlink_calls s _)) (hc ▸ Next.uninstall) rfl
  | cancelOwn hc | cancelSync hc => exact hstep rfl (hc ▸ .uninstall) rfl

/-- A call on a timer has been entered as such. -/
theorem Move.timer_of (h : Move K s a s') {th : Thread m} {t : Fin n} (hc : (s'.calls th).timer = some t) :
    (s.calls th).timer = some t ∨ ∃ op, a = .call th op ∧ op.timer = some t := by
  rcases h.calls_of th with heq | ⟨op, ha, -, heq⟩ | ⟨idx, -, hn⟩
  · exact .inl (heq ▸ hc)
  · rw [heq, first_timer] at hc
    exact .inr ⟨op, ha, hc⟩
  · generalize s.calls th = c at hn ⊢
    generalize s'.calls th = c' at hn hc
    cases hn <;> first | exact .inl hc | cases hc

/-- An uninstall has been entered. -/
theorem Move.removes_of (h : Move K s a s') {th : Thread m} {t : Fin n} (hc : (s'.calls th).removes = some t) :
    (s.calls th).removes = some t ∨ a = .call th (.uninstall t) := by
  rcases h.calls_of th with heq | ⟨op, ha, -, heq⟩ | ⟨idx, -, hn⟩
  · exact .inl (heq ▸ hc)
  · rw [heq] at hc
    cases op <;> cases hc
    exact .inr ha
  · generalize s.calls th = c at hn ⊢
    generalize s'.calls th = c' at hn hc
    cases hn <;> first | exact .inl hc | cases hc

/-- A call that starts a timer has been entered as such. -/
theorem Move.arms_of (h : Move K s a s') {th : Thread m} {t : Fin n} (hc : (s'.calls th).arms = some t) :
    (s.calls th).arms = some t ∨ ∃ op, a = .call th op ∧ op.arms = some t := by
  rcases h.calls_of th with heq | ⟨op, ha, -, heq⟩ | ⟨idx, -, hn⟩
  · exact .inl (heq ▸ hc)
  · rw [heq, first_arms] at hc
    exact .inr ⟨op, ha, hc⟩
  · generalize s.calls th = c at hn ⊢
    generalize s'.calls th = c' at hn hc
    cases hn <;> first | exact .inl hc | cases hc

/-- A slot is held from its reservation on. -/
theorem Move.claims_of (h : Move K s a s') {th : Thread m} {i : Fin n} (hc : (s'.calls th).claims = some i) :
    (s.calls th).claims = some i ∨ a = .step th (some i) ∧ s.taken i = false ∧ s'.taken i = true ∧
      ∃ ctx cb arg, s.calls th = .install ctx cb arg .reserve := by
  have hself : ∀ {th' : Thread m} {c : Call n χ}, s'.calls = Function.update s.calls th' c →
      (c.claims = some i → (s.calls th').claims = some i) → (s.calls th).claims = some i := fun hs hn => by
    rw [hs, Function.update_apply] at hc
    split at hc
    · rename_i heq
      exact heq ▸ hn hc
    · exact hc
  cases h with
  | elapse | run | handle | finish => exact .inl hc
  | @enter th' op => exact .inl (hself rfl (by rw [first_claims]; nofun))
  | goto hm => cases hm <;> exact .inl (hself rfl nofun)
  | done | append | release | arm | stop | cancelOwn | cancelSync => exact .inl (hself rfl nofun)
  | remove => exact .inl (hself (congrArg (Function.update · _ _) (unlink_calls s _)) nofun)
  | fill hf => exact .inl (hself rfl fun e => by rw [hf]; exact e)
  | @reserve th' ctx cb arg k hf ht =>
    rw [Sys.goto_calls, Function.update_apply] at hc
    split at hc
    · rename_i heq
      cases hc
      exact .inr ⟨by rw [heq], ht, Function.update_self .., ctx, cb, arg, heq ▸ hf⟩
    · exact .inl hc

/-- A slot is released after an asynchronous cancel in the callback of its timer, or once its work item is not busy. -/
theorem Move.release_of (h : Move K s a s') {th : Thread m} {t : Fin n} (hc : s'.calls th = .uninstall t .release) :
    s.calls th = .uninstall t .release ∨ (∃ idx, a = .step th idx) ∧ (s.calls th).removes = some t ∧
      (th = .workQueue ∧ s'.busy K t = K.busyGet (K.cancelDelayable (s.pool t).dwork) ∨
        s.busy K t = .none ∧ s'.busy K t = .none ∧ s'.expiry = s.expiry) := by
  have hother : ∀ {th' : Thread m} {c : Call n χ}, s'.calls = Function.update s.calls th' c →
      c ≠ .uninstall t .release → s.calls th = .uninstall t .release := fun hs hn => by
    rw [hs, Function.update_apply] at hc
    split at hc
    · exact absurd hc hn
    · exact hc
  cases h with
  | elapse | run | handle | finish => exact .inl hc
  | @enter th' op => exact .inl (hother rfl (by cases op <;> nofun))
  | done | append | release | arm | stop | cancelSync | fill | reserve => exact .inl (hother rfl nofun)
  | remove => exact .inl (hother (congrArg (Function.update · _ _) (unlink_calls s _)) nofun)
  | @goto th' _ _ hm =>
    cases hm with
    | pass => exact .inl (hother rfl nofun)
    | @wait k hk hb =>
      rw [Sys.goto_calls, Function.update_apply] at hc
      split at hc
      · rename_i heq
        cases hc
        exact .inr ⟨⟨_, by rw [heq]⟩, by rw [heq, hk]; rfl, .inr ⟨hb, hb, rfl⟩⟩
      · exact .inl hc
  | @cancelOwn th' _ k hk hw hf =>
    rw [Sys.goto_calls, Function.update_apply] at hc
    split at hc
    · rename_i heq
      cases hc
      exact .inr ⟨⟨_, by rw [heq]⟩, by rw [heq, hk]; rfl, .inl ⟨heq ▸ hw, by simp [Sys.busy]⟩⟩
    · exact .inl hc

/-- A slot is free once it is released. -/
theorem Move.taken_of (h : Move K s a s') {i : Fin n} (ht : s'.taken i = false) :
    s.taken i = false ∨ ∃ th idx, a = .step th idx ∧ s.calls th = .uninstall i .release := by
  cases h with
  | remove => exact .inl (by rw [← unlink_taken s]; exact ht)
  | @reserve _ _ _ _ k =>
    rw [Sys.goto_taken, Sys.setTaken_taken, Function.update_apply] at ht
    split at ht
    · cases ht
    · exact .inl ht
  | @release th idx k hk =>
    rw [Sys.done_taken, Sys.setTaken_taken, Function.update_apply] at ht
    split at ht
    · rename_i heq
      exact .inr ⟨th, idx, rfl, heq ▸ hk⟩
    · exact .inl ht
  | _ => exact .inl ht

/-- A slot stays taken unless it is released. -/
theorem Move.taken_kept (h : Move K s a s') {i : Fin n} (ht : s.taken i = true)
    (hn : ∀ th, s.calls th ≠ .uninstall i .release) : s'.taken i = true := by
  by_contra hfree
  rcases h.taken_of (Bool.eq_false_iff.mpr hfree) with hf | ⟨th, _, -, hc⟩
  · rw [hf] at ht
    cases ht
  · exact hn th hc

/-- A function is entered by an idle thread, and nothing else happens. -/
theorem Move.entered {th : Thread m} {op : Op n χ} (h : Move K s (.call th op) s') :
    s.calls th = .idle ∧ s' = s.goto th op.first := by
  cases h with
  | enter hidle => exact ⟨hidle, rfl⟩

/-- The last step of an uninstall. -/
theorem Move.released {th : Thread m} {idx : Option (Fin n)} (h : Move K s (.step th idx) s') {t : Fin n}
    (hc : s.calls th = .uninstall t .release) : s'.calls th = .idle := by
  cases h with
  | goto hm =>
    cases hm with
    | _ hc' => cases hc.symm.trans hc'
  | done | append | release | arm | stop => exact Function.update_self ..
  | reserve hc' | fill hc' | remove hc' | cancelOwn hc' | cancelSync hc' => cases hc.symm.trans hc'

/-- The handler stays where it is as long as a call made from its callback is in progress. -/
theorem Move.expiry_kept (h : Move K s a s') (hin : s.inCallback = true) (hc : s.calls .workQueue ≠ .idle) :
    s'.expiry = s.expiry := by
  cases h with
  | run he => rw [Sys.inCallback, he] at hin; cases hin
  | finish he => rw [Sys.inCallback, he] at hin; cases hin
  | handle he hp =>
    rw [Sys.inCallback, he] at hin
    cases hp with
    | ret hidle => exact absurd hidle hc
    | _ => cases hin
  | remove => exact unlink_expiry ..
  | _ => rfl

end Gabs.Timer.Zephyr
