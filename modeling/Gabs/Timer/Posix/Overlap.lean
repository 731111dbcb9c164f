import Gabs.Lib.Stamps
import Gabs.Timer.Posix.Ownership

/-!
# The POSIX timer: two overlapping calls

- `Request`: a start, restart or stop; `overlap`: the interleavings of two of them on one timer;
- `Obs`, `Request.spec`: what a call that runs alone does to the bits and the timerfd;
- `Turn`, `Place`: one step of a call, and the events of its steps so far;
- `Running`: what holds in every interleaving of the calls;
- `Serially`: the outcome is that of the calls made one after the other; `serially_iff`: that of their specifications.
-/

namespace Gabs.Timer.Posix

open Gabs.Lib

variable {n m : Nat}

/-! ## The calls -/

/-- The calls that set the timerfd. -/
inductive Request
  | start (us : Nat)
  | restart (us : Nat)
  | stop
  deriving DecidableEq

def Request.op (t : Fin n) : Request → Op n
  | .start us => .start t us
  | .restart us => .restart t us
  | .stop => .stop t

/-- The steps of the calls; the check of `gabs_timer_start` passes or finds the timer busy. -/
inductive Ev
  | pass | busy | clear | settime | sched | trigger
  deriving DecidableEq

/-- The event of the next step of a call. -/
def Call.event (s : Sys n m) : Call n → Ev
  | .start t _ => if maskGet (s.state t) (bitActive ||| bitSched) ≠ 0 then .busy else .pass
  | .restart _ _ .clear | .stop _ _ .clear => .clear
  | .restart _ _ .settime | .stop _ _ .settime => .settime
  | .restart _ _ (.setSched _) => .sched
  | _ => .trigger

/-- Two threads step from `s₀`, and nothing else does; the kernel grants every call. The history stamps each step. -/
def overlap (s₀ : Sys n m) (th : Bool → Thread m) : Lts (Sys n m × Stamps (Bool × Ev)) Bool :=
  Lts.record ⟨(· = s₀), fun s b => callStep s (th b) .ok⟩ .empty fun s b _ h => h.mark (b, (s.calls (th b)).event s)

/-- Two calls on timer `t` have just been entered. -/
structure Entered (s₀ : Sys n m) (th : Bool → Thread m) (t : Fin n) (q : Bool → Request) : Prop where
  distinct : th true ≠ th false
  calls : ∀ b, s₀.calls (th b) = ((q b).op t).first
  opened : s₀.fds (s₀.fd t) ≠ none

instance (s₀ : Sys n m) (th : Bool → Thread m) (t : Fin n) (q : Bool → Request) : Decidable (Entered s₀ th t q) :=
  decidable_of_iff (th true ≠ th false ∧ (∀ b, s₀.calls (th b) = ((q b).op t).first) ∧ (s₀.fds (s₀.fd t)).isSome)
    ⟨fun ⟨h1, h2, h3⟩ => ⟨h1, h2, Option.isSome_iff_ne_none.mp h3⟩,
      fun h => ⟨h.distinct, h.calls, Option.isSome_iff_ne_none.mpr h.opened⟩⟩

/-! ## One call alone -/

deriving instance DecidableEq for Timerfd

/-- The bits of a timer, and its timerfd. -/
@[ext] structure Obs where
  sched : Bool
  active : Bool
  timer : Option Timerfd

/-- What is seen of timer `t`. -/
def Sys.obs (s : Sys n m) (t : Fin n) : Obs := ⟨(s.state t).has .sched, (s.state t).has .active, s.fds (s.fd t)⟩

/-- The timerfd armed `us` microseconds from `clock` on. -/
def armedFor (clock us : Nat) : Timerfd := ⟨some (clock + (toItimerspec us).ns), false⟩

/-- The timerfd disarmed. -/
def disarmed : Timerfd := ⟨none, false⟩

/-- What a call that runs alone does, and what it returns. -/
def Request.spec (clock : Nat) (o : Obs) : Request → Obs × Int
  | .start us => if o.sched || o.active then (o, -eBusy) else (⟨true, false, some (armedFor clock us)⟩, 0)
  | .restart us => (⟨true, false, some (armedFor clock us)⟩, 0)
  | .stop => (⟨false, false, some disarmed⟩, 0)

/-- One step of a call: what it does to the timer and what the call returns, if it does. -/
inductive Turn (t : Fin n) (clock : Nat) (o : Obs) : Call n → Ev → Call n → Obs → Option Int → Prop
  | busy (us : Nat) : (o.sched || o.active) = true → Turn t clock o (.start t us) .busy .idle o (some (-eBusy))
  | pass (us : Nat) : (o.sched || o.active) = false → Turn t clock o (.start t us) .pass (.restart t us .clear) o none
  | clear (us : Nat) : Turn t clock o (.restart t us .clear) .clear (.restart t us .settime)
      ⟨false, false, o.timer⟩ none
  | settime (us : Nat) : Turn t clock o (.restart t us .settime) .settime (.restart t us (.setSched none))
      { o with timer := some (armedFor clock us) } none
  | sched (us : Nat) : Turn t clock o (.restart t us (.setSched none)) .sched (.restart t us (.trigger none))
      { o with sched := true } none
  | trigger (us : Nat) : Turn t clock o (.restart t us (.trigger none)) .trigger .idle o (some 0)
  | stopClear : Turn t clock o (.stop t false .clear) .clear (.stop t false .settime) ⟨false, false, o.timer⟩ none
  | stopSettime : Turn t clock o (.stop t false .settime) .settime (.stop t false (.trigger 0))
      { o with timer := some disarmed } none
  | stopTrigger : Turn t clock o (.stop t false (.trigger 0)) .trigger .idle o (some 0)

/-! ## Where a call is -/

/-- A call that arms the timer, and the event of its check if it has one. -/
inductive Arming : Request → Nat → List Ev → Prop
  | restart (us : Nat) : Arming (.restart us) us []
  | start (us : Nat) : Arming (.start us) us [.pass]

/-- The positions of a call, and the events of its steps so far. -/
inductive Place (t : Fin n) : Request → Call n → List Ev → Prop
  | check (us : Nat) : Place t (.start us) (.start t us) []
  | busy (us : Nat) : Place t (.start us) .idle [.busy]
  | clear {q : Request} {us : Nat} {pre : List Ev} : Arming q us pre → Place t q (.restart t us .clear) pre
  | settime {q : Request} {us : Nat} {pre : List Ev} : Arming q us pre →
      Place t q (.restart t us .settime) (pre ++ [.clear])
  | sched {q : Request} {us : Nat} {pre : List Ev} : Arming q us pre →
      Place t q (.restart t us (.setSched none)) (pre ++ [.clear, .settime])
  | trigger {q : Request} {us : Nat} {pre : List Ev} : Arming q us pre →
      Place t q (.restart t us (.trigger none)) (pre ++ [.clear, .settime, .sched])
  | armed {q : Request} {us : Nat} {pre : List Ev} : Arming q us pre →
      Place t q .idle (pre ++ [.clear, .settime, .sched, .trigger])
  | stopClear : Place t .stop (.stop t false .clear) []
  | stopSettime : Place t .stop (.stop t false .settime) [.clear]
  | stopTrigger : Place t .stop (.stop t false (.trigger 0)) [.clear, .settime]
  | stopped : Place t .stop .idle [.clear, .settime, .trigger]

variable {s s' s₀ : Sys n m} {t : Fin n} {clock : Nat} {o o' : Obs} {c c' : Call n} {e : Ev} {q : Request}
  {l : List Ev} {v : Option Int}

theorem Place.first (q : Request) : Place t q (q.op t).first [] := by
  cases q with
  | start us => exact .check us
  | restart us => exact .clear (.restart us)
  | stop => exact .stopClear

/-- A step goes on to the next event of the call. -/
theorem Place.turn (hp : Place t q c l) (h : Turn t clock o c e c' o' v) : Place t q c' (l ++ [e]) ∧ e ∉ l := by
  cases hp with
  | check us =>
    cases h with
    | busy => exact ⟨.busy us, by simp⟩
    | pass => exact ⟨.clear (.start us), by simp⟩
  | busy | armed | stopped => cases h
  | clear ha => cases h; exact ⟨.settime ha, by cases ha <;> simp⟩
  | settime ha => cases h; rw [List.append_assoc]; exact ⟨.sched ha, by cases ha <;> simp⟩
  | sched ha => cases h; rw [List.append_assoc]; exact ⟨.trigger ha, by cases ha <;> simp⟩
  | trigger ha => cases h; rw [List.append_assoc]; exact ⟨.armed ha, by cases ha <;> simp⟩
  | stopClear => cases h; exact ⟨.stopSettime, by simp⟩
  | stopSettime => cases h; exact ⟨.stopTrigger, by simp⟩
  | stopTrigger => cases h; exact ⟨.stopped, by simp⟩

/-- What a step of one of the calls leaves, and what it returns. -/
structure Stepped (s : Sys n m) (th : Thread m) (t : Fin n) (c' : Call n) (o' : Obs) (v : Option Int) (s' : Sys n m) :
    Prop where
  obs : s'.obs t = o'
  calls : s'.calls = Function.update s.calls th c'
  ret : s'.ret = match v with
    | none => s.ret
    | some v => Function.update s.ret th (some (.status v))
  fd : s'.fd = s.fd
  clock : s'.clock = s.clock
  opened : s'.fds (s.fd t) ≠ none

/-- **A step of a call is a turn.** -/
theorem turn_of_step {th : Thread m} (hp : Place t q (s.calls th) l) (ho : s.fds (s.fd t) ≠ none)
    (h : callStep s th .ok = some s') :
    ∃ c' o' v, Turn t s.clock (s.obs t) (s.calls th) ((s.calls th).event s) c' o' v ∧ Stepped s th t c' o' v s' := by
  obtain ⟨tf, htf⟩ := Option.ne_none_iff_exists'.mp ho
  generalize hc : s.calls th = c at hp
  unfold callStep at h
  cases hp with
  | busy | armed | stopped => rw [hc] at h; cases h
  | check us =>
    rw [hc] at h
    have hb : maskGet (s.state t) (bitActive ||| bitSched) = 0 ↔ ((s.obs t).sched || (s.obs t).active) = false := by
      rw [bitActive, bitSched, maskGet_or_eq_zero, Bool.or_eq_false_iff]
      exact and_comm
    by_cases hz : maskGet (s.state t) (bitActive ||| bitSched) = 0
    · simp only [hz, ne_eq, not_true_eq_false, if_false, Option.some.injEq] at h
      subst h
      have he : (Call.start t us).event s = .pass := if_neg (not_not.mpr hz)
      rw [he]
      exact ⟨_, _, _, .pass us (hb.mp hz), rfl, rfl, rfl, rfl, rfl, ho⟩
    · simp only [hz, ne_eq, not_false_eq_true, if_true, Option.some.injEq] at h
      subst h
      have he : (Call.start t us).event s = .busy := if_pos hz
      rw [he]
      exact ⟨_, _, _, .busy us (Bool.not_eq_false _ |>.mp (mt hb.mpr hz)), rfl, rfl, rfl, rfl, rfl, ho⟩
  | clear =>
    rw [hc] at h
    cases h
    exact ⟨_, _, _, .clear _, by simp [Sys.obs, bitActive, bitSched], rfl, rfl, rfl, rfl, ho⟩
  | stopClear =>
    rw [hc] at h
    cases h
    exact ⟨_, _, _, .stopClear, by simp [Sys.obs, bitActive, bitSched], rfl, rfl, rfl, rfl, ho⟩
  | settime =>
    rw [hc] at h
    simp only [timerRestartStep, timerfdSettime, htf, toItimerspec_ns, if_false, Option.map_some,
      Option.some.injEq] at h
    subst h
    exact ⟨_, _, _, .settime _, by simp [Sys.obs, armedFor], rfl, rfl, rfl, rfl, by simp⟩
  | stopSettime =>
    rw [hc] at h
    simp only [timerStopStep, timerfdSettime, htf, Option.map_some, Option.some.injEq] at h
    subst h
    exact ⟨_, _, _, .stopSettime, by simp [Sys.obs, disarmed, Itimerspec.ns], rfl, rfl, rfl, rfl, by simp⟩
  | sched =>
    rw [hc] at h
    cases h
    exact ⟨_, _, _, .sched _, by simp [Sys.obs, bitSched], rfl, rfl, rfl, rfl, ho⟩
  | trigger =>
    rw [hc] at h
    cases h
    exact ⟨_, _, _, .trigger _, rfl, rfl, rfl, rfl, rfl, ho⟩
  | stopTrigger =>
    rw [hc] at h
    cases h
    exact ⟨_, _, _, .stopTrigger, rfl, rfl, rfl, rfl, rfl, ho⟩

/-- The steps a call has left, at most. -/
def Call.left : Call n → Nat
  | .start _ _ => 5
  | .restart _ _ .clear => 4
  | .restart _ _ .settime | .stop _ _ .clear => 3
  | .restart _ _ (.setSched _) | .stop _ _ .settime => 2
  | .restart _ _ (.trigger _) | .stop _ _ (.trigger _) => 1
  | _ => 0

theorem Turn.left_lt (h : Turn t clock o c e c' o' v) : c'.left < c.left := by
  cases h <;> simp [Call.left]

/-- A call that has not returned can step. -/
theorem Place.enabled {th : Thread m} (hp : Place t q (s.calls th) l) (ho : s.fds (s.fd t) ≠ none)
    (hc : s.calls th ≠ .idle) : ∃ s', callStep s th .ok = some s' := by
  obtain ⟨tf, htf⟩ := Option.ne_none_iff_exists'.mp ho
  unfold callStep
  generalize s.calls th = c at hp hc
  cases hp with
  | busy | armed | stopped => exact absurd rfl hc
  | check us => simp only; split <;> exact ⟨_, rfl⟩
  | settime => simp [timerRestartStep, timerfdSettime, htf]
  | stopSettime => simp [timerStopStep, timerfdSettime, htf]
  | clear | sched | trigger | stopClear | stopTrigger => exact ⟨_, rfl⟩

/-! ## One call after the other -/

/-- A call that began at `o` and has run alone: what is seen of the timer, and what it has returned. -/
inductive Solo (t : Fin n) (clock : Nat) (o : Obs) : Request → Call n → Obs → Option Int → Prop
  | check (us : Nat) : Solo t clock o (.start us) (.start t us) o none
  | busy (us : Nat) : (o.sched || o.active) = true → Solo t clock o (.start us) .idle o (some (-eBusy))
  | clear {q : Request} {us : Nat} : q.spec clock o = (⟨true, false, some (armedFor clock us)⟩, 0) →
      Solo t clock o q (.restart t us .clear) o none
  | settime {q : Request} {us : Nat} : q.spec clock o = (⟨true, false, some (armedFor clock us)⟩, 0) →
      Solo t clock o q (.restart t us .settime) ⟨false, false, o.timer⟩ none
  | sched {q : Request} {us : Nat} : q.spec clock o = (⟨true, false, some (armedFor clock us)⟩, 0) →
      Solo t clock o q (.restart t us (.setSched none)) ⟨false, false, some (armedFor clock us)⟩ none
  | trigger {q : Request} {us : Nat} : q.spec clock o = (⟨true, false, some (armedFor clock us)⟩, 0) →
      Solo t clock o q (.restart t us (.trigger none)) ⟨true, false, some (armedFor clock us)⟩ none
  | armed {q : Request} {us : Nat} : q.spec clock o = (⟨true, false, some (armedFor clock us)⟩, 0) →
      Solo t clock o q .idle ⟨true, false, some (armedFor clock us)⟩ (some 0)
  | stopClear : Solo t clock o .stop (.stop t false .clear) o none
  | stopSettime : Solo t clock o .stop (.stop t false .settime) ⟨false, false, o.timer⟩ none
  | stopTrigger : Solo t clock o .stop (.stop t false (.trigger 0)) ⟨false, false, some disarmed⟩ none
  | stopped : Solo t clock o .stop .idle ⟨false, false, some disarmed⟩ (some 0)

theorem Solo.first (q : Request) : Solo t clock o q (q.op t).first o none := by
  cases q with
  | start us => exact .check us
  | restart us => exact .clear rfl
  | stop => exact .stopClear

theorem Solo.turn {o₁ o₂ : Obs} {v₁ v₂ : Option Int} (hs : Solo t clock o q c o₁ v₁)
    (h : Turn t clock o₁ c e c' o₂ v₂) : Solo t clock o q c' o₂ v₂ := by
  cases hs with
  | check us =>
    cases h with
    | busy _ hb => exact .busy us hb
    | pass _ hb => exact .clear (by rw [Request.spec, hb]; rfl)
  | busy | armed | stopped => cases h
  | clear hq => cases h; exact .settime hq
  | settime hq => cases h; exact .sched hq
  | sched hq => cases h; exact .trigger hq
  | trigger hq => cases h; exact .armed hq
  | stopClear => cases h; exact .stopSettime
  | stopSettime => cases h; exact .stopTrigger
  | stopTrigger => cases h; exact .stopped

/-- **A call that runs alone is its specification.** -/
theorem Solo.done (hs : Solo t clock o q .idle o' v) : ∃ r, v = some r ∧ (o', r) = q.spec clock o := by
  cases hs with
  | busy us hb => exact ⟨_, rfl, by rw [Request.spec, if_pos hb]⟩
  | armed hq => exact ⟨_, rfl, hq.symm⟩
  | stopped => exact ⟨_, rfl, rfl⟩

/-- The outcome of two states is the same: the bits, the timerfd and what the two calls returned. -/
def SameOutcome (th : Bool → Thread m) (t : Fin n) (s s' : Sys n m) : Prop :=
  s.obs t = s'.obs t ∧ ∀ b, s.ret (th b) = s'.ret (th b)

/-- The outcome is that of a run in which the call of `b` returns before the other one steps. -/
def Serially (s₀ : Sys n m) (th : Bool → Thread m) (t : Fin n) (b : Bool) (s : Sys n m) : Prop :=
  ∃ y, (overlap s₀ th).Reach (fun y c => c = b ∨ y.1.calls (th b) = .idle) y ∧ (∀ c, y.1.calls (th c) = .idle) ∧
    SameOutcome th t s y.1

/-- The outcome is the specification of the call of `b` and then that of the other. -/
def SpecOrder (s₀ : Sys n m) (th : Bool → Thread m) (t : Fin n) (q : Bool → Request) (b : Bool) (s : Sys n m) : Prop :=
  let first := (q b).spec s₀.clock (s₀.obs t)
  let second := (q !b).spec s₀.clock first.1
  s.obs t = second.1 ∧ s.ret (th b) = some (.status first.2) ∧ s.ret (th !b) = some (.status second.2)

theorem SpecOrder.same {th : Bool → Thread m} {q : Bool → Request} {b : Bool} (h : SpecOrder s₀ th t q b s)
    (h' : SpecOrder s₀ th t q b s') : SameOutcome th t s s' := by
  obtain ⟨h1, h2, h3⟩ := h
  obtain ⟨h1', h2', h3'⟩ := h'
  refine ⟨h1.trans h1'.symm, fun c => ?_⟩
  rcases Bool.eq_or_eq_not c b with rfl | rfl
  · rw [h2, h2']
  · rw [h3, h3']

theorem SpecOrder.of_same {th : Bool → Thread m} {q : Bool → Request} {b : Bool} (h : SameOutcome th t s s')
    (h' : SpecOrder s₀ th t q b s') : SpecOrder s₀ th t q b s := by
  obtain ⟨h1, h2, h3⟩ := h'
  exact ⟨h.1.trans h1, (h.2 b).trans h2, (h.2 !b).trans h3⟩

section Runs

variable {th : Bool → Thread m} {qs : Bool → Request} {h : Stamps (Bool × Ev)} {b : Bool}

/-- **What holds in every interleaving.** -/
structure Running (s₀ : Sys n m) (th : Bool → Thread m) (t : Fin n) (q : Bool → Request) (s : Sys n m)
    (h : Stamps (Bool × Ev)) : Prop where
  fd : s.fd = s₀.fd
  clock : s.clock = s₀.clock
  opened : s.fds (s.fd t) ≠ none
  place : ∀ b, ∃ l, Place t (q b) (s.calls (th b)) l ∧ h.Course (fun e => (b, e)) l

theorem Running.init (h₀ : Entered s₀ th t qs) : Running s₀ th t qs s₀ .empty :=
  ⟨rfl, rfl, h₀.opened, fun b => ⟨[], h₀.calls b ▸ .first _, fun _ _ => rfl, [], .nil, rfl⟩⟩

theorem Entered.ne (h₀ : Entered s₀ th t qs) (b : Bool) : th (!b) ≠ th b := by
  cases b with
  | true => exact h₀.distinct.symm
  | false => exact h₀.distinct

/-- One step of the call of `b`. -/
theorem Running.turn (hi : Running s₀ th t qs s h) (h₀ : Entered s₀ th t qs) (hs : callStep s (th b) .ok = some s') :
    ∃ o' v, Turn t s.clock (s.obs t) (s.calls (th b)) ((s.calls (th b)).event s) (s'.calls (th b)) o' v ∧
      Stepped s (th b) t (s'.calls (th b)) o' v s' ∧
      Running s₀ th t qs s' (h.mark (b, (s.calls (th b)).event s)) := by
  obtain ⟨l, hp, hl⟩ := hi.place b
  obtain ⟨c', o', v, ht, hst⟩ := turn_of_step hp hi.opened hs
  have hc : s'.calls (th b) = c' := by rw [hst.calls, Function.update_self]
  subst hc
  refine ⟨o', v, ht, hst, hst.fd.trans hi.fd, hst.clock.trans hi.clock, hst.fd ▸ hst.opened, fun c => ?_⟩
  obtain ⟨hp', hn⟩ := hp.turn ht
  rcases Bool.eq_or_eq_not c b with rfl | rfl
  · exact ⟨_, hp', hl.snoc (fun _ _ e => (Prod.mk.inj e).2) hn⟩
  · obtain ⟨l', hp'', hl'⟩ := hi.place !b
    refine ⟨l', ?_, hl'.other fun e he => by simpa using (Prod.mk.inj he).1⟩
    rw [hst.calls, Function.update_of_ne (h₀.ne b)]
    exact hp''

theorem running_of_reach (h₀ : Entered s₀ th t qs) {P : Sys n m × Stamps (Bool × Ev) → Bool → Prop}
    {x : Sys n m × Stamps (Bool × Ev)} (hr : (overlap s₀ th).Reach P x) : Running s₀ th t qs x.1 x.2 := by
  refine hr.record_invariant (I := fun s h => Running s₀ th t qs s h) ?_ fun s b s' h _ hi _ hs => ?_
  · rintro s rfl; exact .init h₀
  · obtain ⟨_, _, _, _, hr⟩ := hi.turn h₀ hs
    exact hr

/-- A run in which the call of `b` returns before the other one steps: the call of `b` has run alone, or it is done
and the other one has run alone. -/
def OneByOne (s₀ : Sys n m) (th : Bool → Thread m) (t : Fin n) (q : Bool → Request) (b : Bool) (s : Sys n m) : Prop :=
  (s.calls (th !b) = ((q !b).op t).first ∧ ∃ v, Solo t s₀.clock (s₀.obs t) (q b) (s.calls (th b)) (s.obs t) v ∧
    ∀ r, v = some r → s.ret (th b) = some (.status r)) ∨
  ∃ o r, (o, r) = (q b).spec s₀.clock (s₀.obs t) ∧ s.calls (th b) = .idle ∧ s.ret (th b) = some (.status r) ∧
    ∃ v, Solo t s₀.clock o (q !b) (s.calls (th !b)) (s.obs t) v ∧ ∀ r, v = some r → s.ret (th !b) = some (.status r)

theorem Stepped.ret_of {th : Thread m} (hst : Stepped s th t c' o' v s') {r : Int} (hv : v = some r) :
    s'.ret th = some (.status r) := by
  rw [hst.ret, hv]
  exact Function.update_self ..

theorem Stepped.ret_other {th th' : Thread m} (hst : Stepped s th t c' o' v s') (hn : th' ≠ th) :
    s'.ret th' = s.ret th' := by
  rw [hst.ret]
  cases v with
  | none => rfl
  | some r => exact Function.update_of_ne hn ..

theorem OneByOne.step (hi : OneByOne s₀ th t qs b s) (hrun : Running s₀ th t qs s h) (h₀ : Entered s₀ th t qs)
    {c : Bool} (hc : c = b ∨ s.calls (th b) = .idle) (hs : callStep s (th c) .ok = some s') :
    OneByOne s₀ th t qs b s' := by
  obtain ⟨o', v', ht, hst, -⟩ := hrun.turn h₀ hs
  rw [hrun.clock] at ht
  have hother : s'.calls (th !c) = s.calls (th !c) := by rw [hst.calls, Function.update_of_ne (h₀.ne c)]
  have hret := hst.ret_other (h₀.ne c)
  rcases Bool.eq_or_eq_not c b with rfl | rfl
  · rcases hi with ⟨h1, v, h2, -⟩ | ⟨o, r, -, h2, -⟩
    · refine .inl ⟨hother.trans h1, v', ?_, fun r hr => hst.ret_of hr⟩
      rw [hst.obs]
      exact h2.turn ht
    · rw [h2] at ht; cases ht
  · have hidle := hc.resolve_left (by simp)
    rw [Bool.not_not] at hother hret
    refine .inr ?_
    have hfin : ∀ o r v, (o, r) = (qs b).spec s₀.clock (s₀.obs t) → s.ret (th b) = some (.status r) →
        Solo t s₀.clock o (qs !b) (s.calls (th !b)) (s.obs t) v → ∃ o r, (o, r) = (qs b).spec s₀.clock (s₀.obs t) ∧
          s'.calls (th b) = .idle ∧ s'.ret (th b) = some (.status r) ∧
          ∃ v, Solo t s₀.clock o (qs !b) (s'.calls (th !b)) (s'.obs t) v ∧
            ∀ r, v = some r → s'.ret (th !b) = some (.status r) := by
      intro o r v hsp hr hsolo
      refine ⟨o, r, hsp, hother.trans hidle, hret.trans hr, v', ?_, fun r hr => hst.ret_of hr⟩
      rw [hst.obs]
      exact hsolo.turn ht
    rcases hi with ⟨h1, v, h2, h3⟩ | ⟨o, r, h1, -, h3, v, h4, -⟩
    · rw [hidle] at h2
      obtain ⟨r, rfl, hsp⟩ := h2.done
      exact hfin _ r none hsp (h3 r rfl) (h1 ▸ .first _)
    · exact hfin o r v h1 h3 h4

theorem oneByOne_of_reach (h₀ : Entered s₀ th t qs) {y : Sys n m × Stamps (Bool × Ev)}
    (hr : (overlap s₀ th).Reach (fun y c => c = b ∨ y.1.calls (th b) = .idle) y) : OneByOne s₀ th t qs b y.1 := by
  refine hr.record_invariant (I := fun s _ => OneByOne s₀ th t qs b s) ?_ fun s c s' h hr hi hp hs => ?_
  · rintro s rfl
    exact .inl ⟨h₀.calls _, none, h₀.calls b ▸ .first _, nofun⟩
  · exact hi.step (running_of_reach h₀ hr) h₀ hp hs

/-- **Calls made one after the other are their specifications.** -/
theorem OneByOne.done (hi : OneByOne s₀ th t qs b s) (hd : ∀ c, s.calls (th c) = .idle) : SpecOrder s₀ th t qs b s := by
  rcases hi with ⟨h1, -⟩ | ⟨o, r, h1, -, h3, v, h4, h5⟩
  · rw [hd] at h1
    cases hq : qs !b <;> rw [hq] at h1 <;> cases h1
  · rw [hd] at h4
    obtain ⟨r', rfl, hsp⟩ := h4.done
    simp only [SpecOrder]
    rw [← h1, ← hsp]
    exact ⟨rfl, h3, h5 r' rfl⟩

/-- The call of `c` can be run to its end. -/
theorem exists_return (h₀ : Entered s₀ th t qs) {c : Bool} : ∀ (k : Nat) {y : Sys n m × Stamps (Bool × Ev)},
    (overlap s₀ th).Reach (fun y c => c = b ∨ y.1.calls (th b) = .idle) y → (y.1.calls (th c)).left ≤ k →
    (c = b ∨ y.1.calls (th b) = .idle) → ∃ y', (overlap s₀ th).Reach (fun y c => c = b ∨ y.1.calls (th b) = .idle) y' ∧
      y'.1.calls (th c) = .idle ∧ y'.1.calls (th !c) = y.1.calls (th !c) := by
  intro k
  induction k with
  | zero =>
    intro y hr hk _
    obtain ⟨l, hp, -⟩ := (running_of_reach h₀ hr).place c
    refine ⟨y, hr, ?_, rfl⟩
    by_contra hne
    obtain ⟨s', hs⟩ := hp.enabled (running_of_reach h₀ hr).opened hne
    obtain ⟨_, _, ht, -⟩ := (running_of_reach h₀ hr).turn h₀ hs
    have := ht.left_lt
    omega
  | succ k ih =>
    intro y hr hk hc
    have hrun := running_of_reach h₀ hr
    obtain ⟨l, hp, -⟩ := hrun.place c
    by_cases hne : y.1.calls (th c) = .idle
    · exact ⟨y, hr, hne, rfl⟩
    · obtain ⟨s', hs⟩ := hp.enabled hrun.opened hne
      obtain ⟨_, _, ht, hst, -⟩ := hrun.turn h₀ hs
      have hother : s'.calls (th !c) = y.1.calls (th !c) := by rw [hst.calls, Function.update_of_ne (h₀.ne c)]
      have hlt := ht.left_lt
      have hst' : (overlap s₀ th).step y c = some (s', y.2.mark (c, (y.1.calls (th c)).event y.1)) := by
        simp only [overlap, Lts.record, hs, Option.map_some]
      have hr' := hr.step hc hst'
      have hc' : c = b ∨ s'.calls (th b) = .idle := by
        rcases hc with hc | hc
        · exact .inl hc
        · rcases Bool.eq_or_eq_not c b with hcb | rfl
          · exact .inl hcb
          · rw [Bool.not_not] at hother
            exact .inr (hother.trans hc)
      obtain ⟨y', h1, h2, h3⟩ := ih hr' (by simp only; omega) hc'
      exact ⟨y', h1, h2, h3.trans hother⟩

/-- **The serial outcomes are those of the specification.** -/
theorem serially_iff (h₀ : Entered s₀ th t qs) : Serially s₀ th t b s ↔ SpecOrder s₀ th t qs b s := by
  constructor
  · rintro ⟨y, hr, hd, hsame⟩
    exact .of_same hsame ((oneByOne_of_reach h₀ hr).done hd)
  · intro hsp
    obtain ⟨y, hr, h1, -⟩ :=
      exists_return (b := b) (c := b) h₀ _ (.init (s := (s₀, .empty)) ⟨rfl, rfl⟩) le_rfl (.inl rfl)
    obtain ⟨y', hr', h2, h3⟩ := exists_return (c := !b) h₀ _ hr le_rfl (.inr h1)
    rw [Bool.not_not] at h3
    have hd : ∀ c, y'.1.calls (th c) = .idle := fun c => by
      rcases Bool.eq_or_eq_not c b with rfl | rfl
      · exact h3.trans h1
      · exact h2
    exact ⟨y', hr', hd, hsp.same ((oneByOne_of_reach h₀ hr').done hd)⟩

end Runs

end Gabs.Timer.Posix
