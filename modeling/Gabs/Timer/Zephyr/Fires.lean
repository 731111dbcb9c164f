import Gabs.Lib.Fair
import Gabs.Timer.Zephyr.Counts

/-!
# The Zephyr timer: started timers fire

- `Apart`: no thread is in a call on a timer;
- `Drift`: what a step does to such a timer: it brings the callback one step nearer, refuses its submission, or leaves
  the timer as it is (`Move.drift`);
- `Way`: how far the callback is, and who has to bring it on;
- `fires_iff`: in a fair run a start that waits for its callback comes to it, unless it is lost.
-/

namespace Gabs.Timer.Zephyr

open Gabs.Lib

variable {n m : Nat} {κ χ : Type*} [DecidableEq χ] {K : Kernel κ} {s s' : Sys n m κ χ} {i : Fin n} {a : Act n m χ}
  {g : Fin n → Count}

/-! ## A timer that is left alone -/

/-- **Timer `i` is left alone**: its slot is in use, and no thread is in a call on it. -/
structure Apart (s : Sys n m κ χ) (i : Fin n) : Prop where
  taken : s.taken i = true
  timer : ∀ th, (s.calls th).timer ≠ some i
  claims : ∀ th, (s.calls th).claims ≠ some i

/-- The action is no call on timer `i`. -/
def Act.Leaves (i : Fin n) : Act n m χ → Prop
  | .call _ op => op.timer ≠ some i
  | _ => True

theorem Apart.step (hi : Apart s i) (ha : a.Leaves i) (h : Move K s a s') : Apart s' i := by
  refine ⟨h.taken_kept hi.taken fun th hc => ?_, fun th hc => ?_, fun th hc => ?_⟩
  · apply hi.timer th
    rw [hc]
    rfl
  · rcases h.timer_of hc with hold | ⟨op, rfl, hop⟩
    · exact hi.timer th hold
    · exact ha hop
  · rcases h.claims_of hc with hold | ⟨-, hfree, -⟩
    · exact hi.claims th hold
    · rw [hi.taken] at hfree
      cases hfree

/-- Where the handler of timer `i` is. -/
def Sys.place (s : Sys n m κ χ) (i : Fin n) : Option Expiry :=
  s.expiry.bind fun x => if x.1 = i then some x.2 else none

/-- **The steps of a timer that is left alone**, with what they write to its history. -/
inductive Drift (K : Kernel κ) (s : Sys n m κ χ) (i : Fin n) (s' : Sys n m κ χ) (c : Count) : Act n m χ → Count → Prop
  | same {a : Act n m χ} : a ≠ .elapse i → a ≠ .run i → (a = .expiry → s.place i = none) → s'.busy K i = s.busy K i →
      s'.place i = s.place i → Drift K s i s' c a c
  | elapse : (s.busy K i).delayed = true →
      s'.busy K i = { s.busy K i with queued := (s.busy K i).queued || !(s.busy K i).canceling, delayed := false } →
      s'.place i = s.place i → Drift K s i s' c (.elapse i) (if (s.busy K i).canceling then c.refuse else c)
  | run : (s.busy K i).queued = true → s.place i = none →
      s'.busy K i = { s.busy K i with running := true, queued := false } → s'.place i = some .enter →
      Drift K s i s' c (.run i) c
  | enter : s.place i = some .enter → s'.busy K i = s.busy K i → s'.place i = some .test → Drift K s i s' c .expiry c
  | test {c' : Count} : s.place i = some .test → s'.busy K i = s.busy K i →
      s'.place i ≠ some .enter ∧ s'.place i ≠ some .test →
      ((s.busy K i).canceling = true ∧ c' = c ∨
        (s.busy K i).canceling = false ∧ c' = if (s.pool i).callback.isSome then c.fire else c.skip) →
      Drift K s i s' c .expiry c'
  | past : s.place i ≠ some .enter ∧ s.place i ≠ some .test → s'.place i ≠ some .enter ∧ s'.place i ≠ some .test →
      (s'.busy K i = s.busy K i ∨
        s'.busy K i = { s.busy K i with running := false, canceling := false, flushing := false }) →
      Drift K s i s' c .expiry c

section Place

omit [DecidableEq χ]

theorem place_of_expiry (h : s'.expiry = s.expiry) : s'.place i = s.place i := by rw [Sys.place, h, Sys.place]

theorem place_self {p : Expiry} (h : s.expiry = some (i, p)) : s.place i = some p := by simp [Sys.place, h]

theorem place_other {k : Fin n} {p : Expiry} (h : s.expiry = some (k, p)) (hne : k ≠ i) : s.place i = none := by
  simp [Sys.place, h, hne]

theorem place_none (h : s.expiry = none) : s.place i = none := by simp [Sys.place, h]

/-- A handler before its test. -/
theorem pending_iff : s.pending i = true ↔ s.place i = some .enter ∨ s.place i = some .test := by
  cases hx : s.expiry with
  | none => simp [Sys.pending, Sys.place, hx]
  | some x =>
    obtain ⟨k, p⟩ := x
    by_cases hk : k = i
    · cases p <;> simp [Sys.pending, Sys.place, hx, hk]
    · cases p <;> simp [Sys.pending, Sys.place, hx, hk]

end Place

omit [DecidableEq χ] in
/-- A call on another timer. -/
theorem drift_of_other {k : Fin n} {w : κ} {th : Thread m} {idx : Option (Fin n)} {c' : Count} (hne : k ≠ i)
    (hs : s'.pool = Function.update s.pool k { s.pool k with dwork := w }) (he : s'.expiry = s.expiry) :
    Drift K s i s' (g i) (.step th idx) (Function.update g k c' i) := by
  rw [Function.update_of_ne hne.symm]
  refine .same (by simp) (by simp) (by simp) ?_ (place_of_expiry he)
  rw [busy_of_update hs, if_neg hne.symm]

/-- The steps of the handlers. -/
theorem drift_expiry (hK : K.Lawful) (h : step K s .expiry = some s') :
    Drift K s i s' (g i) .expiry (Count.record K s .expiry s' g i) := by
  have hm := step_move h
  cases hm with
  | @handle k p q he hp =>
    rcases eq_or_ne k i with rfl | hne
    · have hq := place_self (s := s.handle (some (k, q))) (i := k) rfl
      cases p with
      | enter =>
        have hrec : Count.record K s .expiry (s.handle (some (k, q))) g k = g k := by simp only [Count.record, he]
        rw [hrec]
        cases hp
        exact .enter (place_self he) rfl hq
      | test =>
        refine .test (place_self he) rfl ?_ ?_
        · rw [hq]
          cases hp <;> simp
        · simp only [Count.record, he]
          cases hc : (s.busy K k).canceling with
          | true =>
            left
            exact ⟨rfl, by rw [if_pos rfl]⟩
          | false =>
            right
            exact ⟨rfl, by rw [if_neg Bool.false_ne_true, Function.update_self]⟩
      | callback | leave | ended =>
        have hrec : Count.record K s .expiry (s.handle (some (k, q))) g k = g k := by simp only [Count.record, he]
        rw [hrec]
        refine .past ?_ ?_ (.inl rfl)
        · rw [place_self he]
          simp
        · rw [hq]
          cases hp <;> simp
    · have hrec : Count.record K s .expiry (s.handle (some (k, q))) g i = g i := by
        simp only [Count.record, he]
        cases p <;> simp only [ite_apply, Function.update_of_ne hne.symm, ite_self]
      rw [hrec]
      refine .same (by simp) (by simp) (fun _ => place_other he hne) rfl ?_
      rw [place_other he hne]
      exact place_other rfl hne
  | @finish k he =>
    have hrec : Count.record K s .expiry ((s.setWork k (K.finish (s.pool k).dwork)).handle none) g i = g i := by
      simp only [Count.record, he]
    have hb : ((s.setWork k (K.finish (s.pool k).dwork)).handle none).busy K i =
        if i = k then K.busyGet (K.finish (s.pool k).dwork) else s.busy K i := busy_of_update rfl
    rw [hrec]
    rcases eq_or_ne k i with rfl | hne
    · rw [if_pos rfl, hK.finish] at hb
      refine .past ?_ ?_ (.inr hb)
      · rw [place_self he]
        simp
      · rw [place_none rfl]
        simp
    · rw [if_neg hne.symm] at hb
      refine .same (by simp) (by simp) (fun _ => place_other he hne) hb ?_
      rw [place_other he hne]
      exact place_none rfl

/-- **What a step does to a timer that is left alone.** -/
theorem Apart.drift (hi : Apart s i) (hK : K.Lawful) (hD : K.Delays) (h : Zephyr.step K s a = some s') :
    Drift K s i s' (g i) a (Count.record K s a s' g i) := by
  have hsame : ∀ {th : Thread m} {idx : Option (Fin n)} {s'' : Sys n m κ χ}, s''.busy K i = s.busy K i →
      s''.expiry = s.expiry → Drift K s i s'' (g i) (.step th idx) (g i) := fun hb he =>
    .same (by simp) (by simp) (by simp) hb (place_of_expiry he)
  have hother : ∀ {th : Thread m} {k : Fin n}, (s.calls th).timer = some k → k ≠ i := by
    rintro th k hc rfl
    exact hi.timer th hc
  have hm := step_move h
  cases hm with
  | handle | finish => exact drift_expiry hK h
  | enter => exact .same (by simp) (by simp) (by simp) rfl rfl
  | @elapse k hd =>
    have hb : (s.setWork k (K.elapse (s.pool k).dwork)).busy K i =
        if i = k then K.busyGet (K.elapse (s.pool k).dwork) else s.busy K i := busy_of_update rfl
    simp only [Count.record]
    rcases eq_or_ne k i with rfl | hne
    · rw [if_pos rfl, hD.elapse _ hd] at hb
      have hrec : (if (s.busy K k).canceling then Function.update g k (g k).refuse else g) k =
          if (s.busy K k).canceling then (g k).refuse else g k := by
        split
        · rw [Function.update_self]
        · rfl
      rw [hrec]
      exact .elapse hd hb rfl
    · rw [if_neg hne.symm] at hb
      have hrec : (if (s.busy K k).canceling then Function.update g k (g k).refuse else g) i = g i := by
        split
        · rw [Function.update_of_ne hne.symm]
        · rfl
      rw [hrec]
      exact .same (by simpa using hne) (by simp) (by simp) hb rfl
  | @run k he hq =>
    have hb : ((s.setWork k (K.run (s.pool k).dwork)).handle (some (k, .enter))).busy K i =
        if i = k then K.busyGet (K.run (s.pool k).dwork) else s.busy K i := busy_of_update rfl
    rcases eq_or_ne k i with rfl | hne
    · rw [if_pos rfl, hK.run _ hq] at hb
      exact .run hq (place_none he) hb (place_self rfl)
    · rw [if_neg hne.symm] at hb
      refine .same (by simp) (by simpa using hne) (by simp) hb ?_
      rw [place_none he]
      exact place_other rfl hne
  | goto hc =>
    cases hc with
    | wait hc | pass hc =>
      simp only [Count.record, hc]
      exact hsame rfl rfl
  | done hd =>
    cases hd with
    | busy hc | active hc =>
      simp only [Count.record, hc]
      exact hsame rfl rfl
    | full hc =>
      simp only [Count.record, hc, Sys.done_calls, Function.update_self]
      exact hsame rfl rfl
  | @reserve th ctx cb arg k hc ht =>
    have hne : i ≠ k := by
      rintro rfl
      rw [hi.taken] at ht
      cases ht
    simp only [Count.record, hc, Sys.goto_calls, Function.update_self]
    rw [Function.update_of_ne hne]
    exact hsame rfl rfl
  | @fill th _ _ _ _ k hc =>
    have hne : i ≠ k := by
      rintro rfl
      apply hi.claims th
      rw [hc]
      rfl
    simp only [Count.record, hc]
    refine hsame ?_ rfl
    rw [Sys.busy, Sys.goto_pool, Sys.setInfo_pool, Function.update_of_ne hne, Sys.busy]
  | append hc | release hc =>
    simp only [Count.record, hc]
    exact hsame rfl rfl
  | remove hc =>
    simp only [Count.record, hc]
    refine hsame ?_ (unlink_expiry ..)
    rw [Sys.busy, Sys.goto_pool, unlink_pool, Sys.busy]
  | cancelOwn hc | cancelSync hc | stop hc | arm hc =>
    simp only [Count.record, hc]
    exact drift_of_other (hother (by rw [hc]; rfl)) rfl rfl

/-! ## The way to the callback -/

/-- How far the callback is: its delay has to end, the work queue has to take the item, or the handler has to go on. -/
inductive Way
  | delay | queue | enter | test
  deriving DecidableEq

/-- The steps that are left. -/
def Way.steps : Way → Nat
  | .delay => 4
  | .queue => 3
  | .enter => 2
  | .test => 1

/-- The action that brings the callback of timer `i` on. -/
def Way.act (i : Fin n) : Way → Act n m χ
  | .delay => .elapse i
  | .queue => .run i
  | .enter | .test => .expiry

/-- Where a timer is with these flags, when its handler is at `p`. -/
def Busy.way (b : Busy) (p : Option Expiry) : Way :=
  if p = some .enter ∧ b.canceling = false then .enter
  else if p = some .test ∧ b.canceling = false then .test
  else if b.queued then .queue
  else .delay

/-- Where timer `i` is on its way. -/
def Sys.way (K : Kernel κ) (s : Sys n m κ χ) (i : Fin n) : Way := (s.busy K i).way (s.place i)

section Way

variable {b : Busy} {p : Option Expiry}

theorem Busy.way_enter (hc : b.canceling = false) : b.way (some .enter) = .enter := if_pos ⟨rfl, hc⟩

theorem Busy.way_test (hc : b.canceling = false) : b.way (some .test) = .test := by simp [Busy.way, hc]

/-- A handler that will not come to the callback does not count. -/
theorem Busy.way_past (h : p ≠ some .enter ∧ p ≠ some .test ∨ b.canceling = true) :
    b.way p = if b.queued then .queue else .delay := by
  rcases h with ⟨h1, h2⟩ | hc
  · simp [Busy.way, h1, h2]
  · simp [Busy.way, hc]

end Way

/-- The action that brings timer `i` on is there to be made. -/
def Way.Ready (K : Kernel κ) (s : Sys n m κ χ) (i : Fin n) : Way → Prop
  | .delay => (s.busy K i).delayed = true
  | .queue => (s.busy K i).queued = true
  | .enter | .test => s.pending i = true

omit [DecidableEq χ] in
/-- **Whoever brings a timer on can move**, as long as anything is on its way. -/
theorem way_ready (hd : 0 < due K s i) : (s.way K i).Ready K s i := by
  by_cases h1 : s.place i = some .enter ∧ (s.busy K i).canceling = false
  · rw [Sys.way, h1.1, Busy.way_enter h1.2]
    exact pending_iff.mpr (.inl h1.1)
  by_cases h2 : s.place i = some .test ∧ (s.busy K i).canceling = false
  · rw [Sys.way, h2.1, Busy.way_test h2.2]
    exact pending_iff.mpr (.inr h2.1)
  rw [Sys.way, Busy.way, if_neg h1, if_neg h2]
  split
  · rename_i hq
    exact hq
  · rename_i hq
    by_contra hn
    have hz : due K s i = 0 := by
      refine due_eq_zero.mpr ⟨⟨Bool.eq_false_iff.mpr hq, Bool.eq_false_iff.mpr hn⟩, fun hp => ?_⟩
      by_contra hc
      rcases pending_iff.mp hp with hp | hp
      · exact h1 ⟨hp, Bool.eq_false_iff.mpr hc⟩
      · exact h2 ⟨hp, Bool.eq_false_iff.mpr hc⟩
    omega

/-- What has become of a start that waits, when its timer has been left alone: it still waits, and is as near to its
callback as before, or nearer; the callback has begun; or the start is lost. -/
inductive Fate (K : Kernel κ) (s : Sys n m κ χ) (i : Fin n) (a : Act n m χ) (s' : Sys n m κ χ) (c : Count) :
    Count → Prop
  | waits : Lts.Advances (· < ·) (fun s => (s.way K i).steps) (fun s => s.way K i) (fun w a => a = w.act i) s a s' →
      Fate K s i a s' c c
  | fires : Fate K s i a s' c c.fire
  | lost : (s.busy K i).canceling = true → Fate K s i a s' c c.refuse

omit [DecidableEq χ] in
theorem way_cases (K : Kernel κ) (s : Sys n m κ χ) (i : Fin n) :
    (s.busy K i).canceling = false ∧ s.place i = some .enter ∧ s.way K i = .enter ∨
    (s.busy K i).canceling = false ∧ s.place i = some .test ∧ s.way K i = .test ∨
    (s.place i ≠ some .enter ∧ s.place i ≠ some .test ∨ (s.busy K i).canceling = true) ∧
      s.way K i = if (s.busy K i).queued then .queue else .delay := by
  by_cases hpast : s.place i ≠ some .enter ∧ s.place i ≠ some .test ∨ (s.busy K i).canceling = true
  · exact .inr (.inr ⟨hpast, Busy.way_past hpast⟩)
  · rw [not_or, not_and_or, not_not, not_not, Bool.not_eq_true] at hpast
    obtain ⟨hp | hp, hc⟩ := hpast
    · left
      exact ⟨hc, hp, by rw [Sys.way, hp, Busy.way_enter hc]⟩
    · right
      left
      exact ⟨hc, hp, by rw [Sys.way, hp, Busy.way_test hc]⟩

omit [DecidableEq χ] in
/-- A handler has no part in a way that does not lead through it. -/
theorem act_ne_expiry {b : Bool} : ((if b then .queue else .delay : Way).act i : Act n m χ) ≠ .expiry := by
  cases b <;> simp [Way.act]

omit [DecidableEq χ] in
/-- **One step.** -/
theorem Drift.fate {c c' : Count} (h : Drift K s i s' c a c')
    (hq : (s.busy K i).canceling = true → (s.busy K i).queued = false) (hcb : (s.pool i).callback.isSome = true) :
    Fate K s i a s' c c' := by
  have hstays : s'.way K i = s.way K i → a ≠ (s.way K i).act i → Fate K s i a s' c c := fun hw ha =>
    .waits (.inr ⟨congrArg Way.steps hw, hw, ha⟩)
  have hnear : ∀ {w w' : Way}, s.way K i = w → s'.way K i = w' → w'.steps < w.steps → Fate K s i a s' c c := by
    rintro w w' rfl rfl hlt
    exact .waits (.inl hlt)
  have hpast : (s.place i ≠ some .enter ∧ s.place i ≠ some .test ∨ (s.busy K i).canceling = true) →
      (s'.place i ≠ some .enter ∧ s'.place i ≠ some .test ∨ (s'.busy K i).canceling = true) →
      (s'.busy K i).queued = (s.busy K i).queued → a = .expiry → Fate K s i a s' c c := by
    intro hp hp' hqd ha
    have hw : s.way K i = _ := Busy.way_past hp
    apply hstays
    · rw [hw, Sys.way, Busy.way_past hp', hqd]
    · rw [hw, ha]
      exact act_ne_expiry.symm
  cases h with
  | same h1 h2 h3 hb hp =>
    refine hstays (by rw [Sys.way, Sys.way, hb, hp]) ?_
    rcases way_cases K s i with ⟨-, hpl, hw⟩ | ⟨-, hpl, hw⟩ | ⟨-, hw⟩
    · rw [hw]
      intro ha
      rw [h3 ha] at hpl
      cases hpl
    · rw [hw]
      intro ha
      rw [h3 ha] at hpl
      cases hpl
    · rw [hw]
      split
      · exact h2
      · exact h1
  | elapse hd hb hp =>
    cases hc : (s.busy K i).canceling with
    | true =>
      rw [if_pos rfl]
      exact .lost hc
    | false =>
      have hc' : (s'.busy K i).canceling = false := by rw [hb]; exact hc
      have hqd : (s'.busy K i).queued = true := by
        rw [hb, hc]
        exact Bool.or_true _
      rw [if_neg Bool.false_ne_true]
      rcases way_cases K s i with ⟨-, hpl, hw⟩ | ⟨-, hpl, hw⟩ | ⟨hpl, hw⟩
      · apply hstays
        · rw [hw, Sys.way, hp, hpl, Busy.way_enter hc']
        · rw [hw]
          simp [Way.act]
      · apply hstays
        · rw [hw, Sys.way, hp, hpl, Busy.way_test hc']
        · rw [hw]
          simp [Way.act]
      · have hw' : s'.way K i = .queue := by
          have hpl' : s'.place i ≠ some .enter ∧ s'.place i ≠ some .test ∨ (s'.busy K i).canceling = true := by
            rwa [hp, hc', ← hc]
          rw [Sys.way, Busy.way_past hpl', if_pos hqd]
        cases hold : (s.busy K i).queued with
        | true =>
          rw [hold, if_pos rfl] at hw
          apply hstays (hw'.trans hw.symm)
          rw [hw]
          simp [Way.act]
        | false =>
          rw [hold, if_neg Bool.false_ne_true] at hw
          exact hnear hw hw' (by decide)
  | run hqd hp hb hp' =>
    have hc : (s.busy K i).canceling = false := by
      by_contra hc
      rw [hq (Bool.eq_true_of_not_eq_false hc)] at hqd
      cases hqd
    have hw : s.way K i = .queue := by
      rw [Sys.way, Busy.way_past (.inl (by simp [hp])), if_pos hqd]
    have hw' : s'.way K i = .enter := by
      rw [Sys.way, hp', Busy.way_enter]
      rw [hb]
      exact hc
    exact hnear hw hw' (by decide)
  | enter hp hb hp' =>
    cases hc : (s.busy K i).canceling with
    | true => exact hpast (.inr hc) (.inr (by rw [hb, hc])) (by rw [hb]) rfl
    | false =>
      have hw : s.way K i = .enter := by rw [Sys.way, hp, Busy.way_enter hc]
      have hw' : s'.way K i = .test := by rw [Sys.way, hp', hb, Busy.way_test hc]
      exact hnear hw hw' (by decide)
  | test hp hb hp' hc =>
    rcases hc with ⟨hc, rfl⟩ | ⟨hc, rfl⟩
    · exact hpast (.inr hc) (.inl hp') (by rw [hb]) rfl
    · rw [if_pos hcb]
      exact .fires
  | past hp hp' hb =>
    refine hpast (.inl hp) (.inl hp') ?_ rfl
    rcases hb with hb | hb <;> rw [hb]

/-! ## Fair runs -/

/-- **A start of timer `i` waits for its callback**, and the timer is left alone. -/
structure Owing (i : Fin n) (x : Sys n m κ χ × (Fin n → Count)) : Prop where
  apart : Apart x.1 i
  callback : (x.1.pool i).callback.isSome = true
  owed : (x.2 i).owed = true
  lost : (x.2 i).lost = false

/-- Its callback has begun since it had begun `k` times. -/
def Served (i : Fin n) (k : Nat) (x : Sys n m κ χ × (Fin n → Count)) : Prop := k < (x.2 i).fired ∧ (x.2 i).owed = false

/-- It is lost, when the callback had begun `k` times. -/
def Missed (i : Fin n) (k : Nat) (x : Sys n m κ χ × (Fin n → Count)) : Prop := (x.2 i).fired = k ∧ (x.2 i).lost = true

variable {x x' : Sys n m κ χ × (Fin n → Count)} {k : Nat}

section Counts

omit [DecidableEq χ]

variable {c c' : Count}

/-- Without a start no start comes to wait. -/
theorem Drift.served (h : Drift K s i s' c a c') (hs : k < c.fired ∧ c.owed = false) :
    k < c'.fired ∧ c'.owed = false := by
  obtain ⟨hk, ho⟩ := hs
  cases h with
  | same | run | enter | past => exact ⟨hk, ho⟩
  | elapse => split <;> exact ⟨hk, ho⟩
  | test _ _ _ hc =>
    rcases hc with ⟨-, rfl⟩ | ⟨-, rfl⟩
    · exact ⟨hk, ho⟩
    · split
      · exact ⟨Nat.lt_succ_of_lt hk, rfl⟩
      · exact ⟨hk, rfl⟩

/-- A start that is lost stays so, and no callback begins for it. -/
theorem Drift.missed (h : Drift K s i s' c a c') (hp : c.Paid (due K s i)) (hl : c.fired = k ∧ c.lost = true) :
    c'.fired = k ∧ c'.lost = true := by
  obtain ⟨hk, hl⟩ := hl
  obtain ⟨ho, hz⟩ := hp.lost hl
  cases h with
  | same | run | enter | past => exact ⟨hk, hl⟩
  | elapse =>
    split
    · exact ⟨hk, ho⟩
    · exact ⟨hk, hl⟩
  | test hpl _ _ hc =>
    rcases hc with ⟨-, rfl⟩ | ⟨hc, -⟩
    · exact ⟨hk, hl⟩
    · have hcan := (due_eq_zero.mp hz).2 (pending_iff.mpr (.inr hpl))
      rw [hc] at hcan
      cases hcan

/-- A timer that is not canceling does not come to be, and its start is not lost. -/
theorem Drift.steady (h : Drift K s i s' c a c') (hs : (s.busy K i).canceling = false ∧ c.lost = false) :
    (s'.busy K i).canceling = false ∧ c'.lost = false := by
  obtain ⟨hcan, hl⟩ := hs
  cases h with
  | same _ _ _ hb | enter _ hb => exact ⟨by rw [hb, hcan], hl⟩
  | run _ _ hb => exact ⟨by rw [hb]; exact hcan, hl⟩
  | elapse _ hb =>
    rw [if_neg (by rw [hcan]; exact Bool.false_ne_true)]
    exact ⟨by rw [hb]; exact hcan, hl⟩
  | test _ hb _ hc =>
    refine ⟨by rw [hb, hcan], ?_⟩
    rcases hc with ⟨-, rfl⟩ | ⟨-, rfl⟩
    · exact hl
    · split <;> exact hl
  | past _ _ hb =>
    rcases hb with hb | hb
    · exact ⟨by rw [hb, hcan], hl⟩
    · exact ⟨by rw [hb], hl⟩

end Counts

/-- The callback of a timer that is left alone stays what it is. -/
theorem Apart.callback (hi : Apart s i) (h : Move K s a s') : (s'.pool i).callback = (s.pool i).callback := by
  have hwork : ∀ {k : Fin n} {w : κ}, s'.pool = Function.update s.pool k { s.pool k with dwork := w } →
      (s'.pool i).callback = (s.pool i).callback := by
    intro k w hs
    rw [hs, Function.update_apply]
    split
    · rename_i heq
      rw [heq]
    · rfl
  cases h with
  | elapse | run | finish | cancelOwn | cancelSync | arm | stop => exact hwork rfl
  | remove => rw [Sys.goto_pool, unlink_pool]
  | @fill th _ _ _ _ k hc =>
    have hne : i ≠ k := by
      rintro rfl
      apply hi.claims th
      rw [hc]
      rfl
    rw [Sys.goto_pool, Sys.setInfo_pool, Function.update_of_ne hne]
  | _ => rfl

omit [DecidableEq χ] in
/-- A start that waits keeps something on its way. -/
theorem Owing.due_pos (hi : Owing i x) (hc : Counted K x.1 x.2) : 0 < due K x.1 i := (hc.paid i).owed hi.owed hi.lost

/-- **One step** of a timer whose start waits. -/
theorem Owing.step (hi : Owing i x) (hk : (x.2 i).fired = k) (hK : K.Lawful) (hD : K.Delays) (hc : Counted K x.1 x.2)
    (ha : a.Leaves i) (hst : (counts K n m χ).step x a = some x') : (Served i k x' ∨ Missed i k x') ∨
      (Owing i x' ∧ (x'.2 i).fired = k) ∧ Lts.Advances (· < ·) (fun x => (x.1.way K i).steps)
        (fun x => x.1.way K i) (fun w a => a = w.act i) x a x' := by
  subst hk
  obtain ⟨hs, hg⟩ := Lts.record_step hst
  have hm := step_move hs
  have hd := hi.apart.drift (g := x.2) hK hD hs
  rw [← hg] at hd
  have hf := hd.fate (hc.spent.canceling i) hi.callback
  have hcb : (x'.1.pool i).callback.isSome = true := by rw [hi.apart.callback hm, hi.callback]
  generalize hc' : x'.2 i = c' at hf
  cases hf with
  | waits hadv => exact .inr ⟨⟨⟨hi.apart.step ha hm, hcb, by rw [hc', hi.owed], by rw [hc', hi.lost]⟩, rfl⟩, hadv⟩
  | fires =>
    left
    left
    rw [Served, hc']
    exact ⟨Nat.lt_succ_self _, rfl⟩
  | lost =>
    left
    right
    rw [Missed, hc']
    exact ⟨rfl, hi.owed⟩

/-- The delays of timer `i` end, the work queue takes its work, and its handler goes on, each after a finite time. -/
structure Steady (K : Kernel κ) (t : (counts K n m χ).Trace fun x a => Valid x.1 a) (i : Fin n) : Prop where
  delay : t.Fair (fun x => (x.1.busy K i).delayed = true) (· = .elapse i)
  queue : t.Fair (fun x => (x.1.busy K i).queued = true) (· = .run i)
  handler : t.Fair (fun x => x.1.pending i = true) (· = .expiry)

section Trace

variable (t : (counts K n m χ).Trace fun x a => Valid x.1 a) (hK : K.Lawful) (hD : K.Delays)
include t hK hD

/-- What the steps keep of a timer that is left alone. -/
theorem Apart.kept {I : Sys n m κ χ → Count → Prop}
    (hI : ∀ s a s' c c', Drift K s i s' c a c' → c.Paid (due K s i) → I s c → I s' c') (ha : Apart (t.state k).1 i)
    (hq : ∀ j, k ≤ j → (t.act j).Leaves i) (hk : I (t.state k).1 ((t.state k).2 i)) {j : Nat} (hj : k ≤ j) :
    Apart (t.state j).1 i ∧ I (t.state j).1 ((t.state j).2 i) := by
  refine t.kept (I := fun x => Apart x.1 i ∧ I x.1 (x.2 i)) (fun x a x' hr hi _ hb hst => ?_) hq ⟨ha, hk⟩ hj
  obtain ⟨hs, hg⟩ := Lts.record_step hst
  have hd := hi.1.drift (g := x.2) hK hD hs
  rw [← hg] at hd
  exact ⟨hi.1.step hb (step_move hs), hI _ _ _ _ _ hd ((counted_of_reach hK hD hr).paid i) hi.2⟩

/-- The timer comes to its callback, or its start is lost. -/
theorem Owing.ends (hw : Owing i (t.state k)) (hq : ∀ j, k ≤ j → (t.act j).Leaves i) (hs : Steady K t i) :
    ∃ j, k ≤ j ∧ (Served i ((t.state k).2 i).fired (t.state j) ∨ Missed i ((t.state k).2 i).fired (t.state j)) := by
  have hfair : ∀ w : Way, t.Fair (fun x => w.Ready K x.1 i) (· = w.act i) := by
    intro w
    cases w
    · exact hs.delay
    · exact hs.queue
    · exact hs.handler
    · exact hs.handler
  exact t.eventually (I := fun x => Owing i x ∧ (x.2 i).fired = _)
    (G := fun x => Served i ((t.state k).2 i).fired x ∨ Missed i ((t.state k).2 i).fired x) Nat.lt_wfRel.wf hfair
    (fun x hr hi _ => way_ready (hi.1.due_pos (counted_of_reach hK hD hr)))
    (fun x a x' hr hi _ _ hb hst => hi.1.step hi.2 hK hD (counted_of_reach hK hD hr) hb hst) hq ⟨hw, rfl⟩

/-- It still waits, or it has come to one of these ends, where it stays. -/
theorem Owing.fates (hw : Owing i (t.state k)) (hq : ∀ j, k ≤ j → (t.act j).Leaves i) {j : Nat} (hj : k ≤ j) :
    (Owing i (t.state j) ∧ ((t.state j).2 i).fired = ((t.state k).2 i).fired) ∨
    (∀ l, j ≤ l → Served i ((t.state k).2 i).fired (t.state l)) ∨
    ∀ l, j ≤ l → Missed i ((t.state k).2 i).fired (t.state l) := by
  induction j, hj using Nat.le_induction with
  | base => exact .inl ⟨hw, rfl⟩
  | succ j hj ih =>
    rcases ih with ⟨hi, hf⟩ | hs | hm
    · have hq' : ∀ l, j + 1 ≤ l → (t.act l).Leaves i := fun l hl => hq l (by omega)
      have ha := hi.apart.step (hq j hj) (step_move (Lts.record_step (t.step j)).1)
      rcases hi.step hf hK hD (counted_of_reach hK hD (t.reach j)) (hq j hj) (t.step j) with (hs | hm) | ⟨hi', -⟩
      · exact .inr (.inl fun l hl => (ha.kept t hK hD (I := fun _ c => _ < c.fired ∧ c.owed = false)
          (fun _ _ _ _ _ hd _ hs => hd.served hs) hq' hs hl).2)
      · exact .inr (.inr fun l hl => (ha.kept t hK hD (I := fun _ c => c.fired = _ ∧ c.lost = true)
          (fun _ _ _ _ _ hd hp hs => hd.missed hp hs) hq' hm hl).2)
      · exact .inl hi'
    · exact .inr (.inl fun l hl => hs l (by omega))
    · exact .inr (.inr fun l hl => hm l (by omega))

/-- **A started timer fires, unless its start is lost.** Let a start of timer `i`, which has a callback, wait, and let
nobody be in a call on the timer or make one any more. If its delay ends, the work queue takes it from the queue, and
its handler goes on, each after a finite time, then the callback begins if and only if the start is not lost; and it is
not lost if no stop has cancelled a handler of the timer that still runs. -/
theorem fires_iff (hw : Owing i (t.state k)) (hq : ∀ j, k ≤ j → (t.act j).Leaves i) (hs : Steady K t i) :
    ((∃ j, k ≤ j ∧ ((t.state k).2 i).fired < ((t.state j).2 i).fired) ↔
      ∀ j, k ≤ j → ((t.state j).2 i).lost = false) ∧
    (((t.state k).1.busy K i).canceling = false → ∀ j, k ≤ j → ((t.state j).2 i).lost = false) := by
  refine ⟨⟨?_, fun hnever => ?_⟩, fun hcan j hj => ?_⟩
  · rintro ⟨j, hj, hlt⟩ l hl
    have hserved : ∀ l, j ≤ l → Served i ((t.state k).2 i).fired (t.state l) := by
      rcases hw.fates t hK hD hq hj with ⟨-, hf⟩ | hs | hm
      · omega
      · exact hs
      · have hf := (hm j (Nat.le_refl j)).1
        omega
    rcases hw.fates t hK hD hq hl with ⟨hi, -⟩ | hs | hm
    · exact hi.lost
    · by_contra hl'
      have ho := (((counted_of_reach hK hD (t.reach l)).paid i).lost (Bool.eq_true_of_not_eq_false hl')).1
      rw [(hs l (Nat.le_refl l)).2] at ho
      cases ho
    · -- Both ends would have come.
      have h1 := (hserved (max j l) (Nat.le_max_left ..)).1
      have h2 := (hm (max j l) (Nat.le_max_right ..)).1
      omega
  · obtain ⟨j, hj, hs | hm⟩ := hw.ends t hK hD hq hs
    · exact ⟨j, hj, hs.1⟩
    · have hl := hm.2
      rw [hnever j hj] at hl
      cases hl
  · exact (hw.apart.kept t hK hD (I := fun s c => (s.busy K i).canceling = false ∧ c.lost = false)
      (fun _ _ _ _ _ hd _ hs => hd.steady hs) hq ⟨hcan, hw.lost⟩ hj).2.2

end Trace

/-- A timer that is installed and started, up to the end of its handler. -/
def startThrough : List (Act 1 1 Unit) := startOnce ++ [.expiry, .expiry, .expiry, .expiry]

/-- Nothing is left of the timer, and the client makes installs which fail. -/
def AtRest (x : Sys 1 1 Busy Unit × (Fin 1 → Count)) : Prop :=
  x.1.expiry = none ∧ x.1.busy plainKernel 0 = .none ∧
    (x.1.calls (.client 0) = .idle ∨ x.1.calls (.client 0) = .install () none 0 .reserve)

instance (x : Sys 1 1 Busy Unit × (Fin 1 → Count)) : Decidable (AtRest x) :=
  inferInstanceAs (Decidable (_ ∧ _ ∧ (_ ∨ _)))

/-- The next action of the client then. -/
def restless (x : Sys 1 1 Busy Unit × (Fin 1 → Count)) : Act 1 1 Unit :=
  if x.1.calls (.client 0) = .idle then .call (.client 0) (.install () none 0) else .step (.client 0) none

theorem AtRest.goes_on {x : Sys 1 1 Busy Unit × (Fin 1 → Count)} (h : AtRest x) : Valid x.1 (restless x) ∧
    ∃ x', (counts plainKernel 1 1 Unit).step x (restless x) = some x' ∧ AtRest x' := by
  obtain ⟨he, hb, hc | hc⟩ := h
  · have hact : restless x = .call (.client 0) (.install () none 0) := if_pos hc
    rw [hact]
    refine ⟨by rintro t ⟨⟩, (x.1.goto (.client 0) (.install () none 0 .reserve), x.2), ?_, he, hb, ?_⟩
    · simp [counts, Lts.record, system, step, hc, Op.first, Count.record]
    · right
      rw [Sys.goto_calls, Function.update_self]
  · have hact : restless x = .step (.client 0) none := if_neg (by rw [hc]; simp)
    rw [hact]
    refine ⟨True.intro, (x.1.done (.client 0) (.timer none), x.2), ?_, he, hb, ?_⟩
    · simp [counts, Lts.record, system, step, callStep, hc, installStep, Count.record]
    · left
      rw [Sys.done_calls, Function.update_self]

theorem fires_iff_run : ∃ t : (counts plainKernel 1 1 Unit).Trace (fun x a => Valid x.1 a), ∃ j, 7 ≤ j ∧
    ((t.state 7).2 0).fired < ((t.state j).2 0).fired := by
  obtain ⟨x, he, hx⟩ := (Option.any_eq_true _ _).mp (show ((counts plainKernel 1 1 Unit).exec (fun x a => Valid x.1 a)
    (boot plainKernel 1 1 Unit, fun _ => .zero) startThrough).any (fun x => decide (AtRest x)) = true by decide)
  obtain ⟨t, htake, hact, hrest⟩ := Lts.exists_trace (M := counts plainKernel 1 1 Unit) (b := restless) (J := AtRest)
    (fun x hx => hx.goes_on) (s := (boot plainKernel 1 1 Unit, fun _ => .zero)) ⟨rfl, rfl⟩ he (of_decide_eq_true hx)
  have hwait : (((t.state 7).1.taken 0 = true ∧ (∀ th, ((t.state 7).1.calls th).timer ≠ some 0) ∧
      ∀ th, ((t.state 7).1.calls th).claims ≠ some 0) ∧ ((t.state 7).1.pool 0).callback.isSome = true ∧
      ((t.state 7).2 0).owed = true ∧ ((t.state 7).2 0).lost = false) ∧
      ((t.state 7).1.busy plainKernel 0).canceling = false := by
    have h : ((counts plainKernel 1 1 Unit).exec (fun x a => Valid x.1 a) (boot plainKernel 1 1 Unit, fun _ => .zero)
      (startThrough.take 7)).all (fun x => decide (((x.1.taken 0 = true ∧ (∀ th, (x.1.calls th).timer ≠ some 0) ∧
        ∀ th, (x.1.calls th).claims ≠ some 0) ∧ (x.1.pool 0).callback.isSome = true ∧ (x.2 0).owed = true ∧
        (x.2 0).lost = false) ∧ (x.1.busy plainKernel 0).canceling = false)) = true := by decide
    rw [htake 7 (by decide)] at h
    exact of_decide_eq_true h
  obtain ⟨⟨⟨htaken, htimer, hclaims⟩, hcb, howed, hlost⟩, hcan⟩ := hwait
  have hleaves : ∀ j, 7 ≤ j → (t.act j).Leaves 0 := by
    intro j hj
    refine t.forall_act restless hact (Q := Act.Leaves 0) ?_ (fun l _ => ?_) hj
    · intro a ha
      simp [startThrough, startOnce] at ha
      rcases ha with rfl | rfl | rfl <;> exact True.intro
    · unfold restless
      split <;> simp [Act.Leaves, Op.timer]
  have hsteady : Steady plainKernel t 0 := by
    refine ⟨t.fair_of_rest hrest ?_, t.fair_of_rest hrest ?_, t.fair_of_rest hrest ?_⟩
    · rintro x ⟨-, hb, -⟩ h
      rw [hb] at h
      cases h
    · rintro x ⟨-, hb, -⟩ h
      rw [hb] at h
      cases h
    · rintro x ⟨he, -, -⟩ h
      rw [pending_none he] at h
      cases h
  obtain ⟨hiff, hsafe⟩ := fires_iff t plainKernel_lawful plainKernel_delays
    ⟨⟨htaken, htimer, hclaims⟩, hcb, howed, hlost⟩ hleaves hsteady
  exact ⟨t, hiff.mpr (hsafe hcan)⟩

end Gabs.Timer.Zephyr
