import Gabs.Timer.Manual.Scripts
import Gabs.Timer.Posix.Scripts

/-!
# The manual timer in the place of the POSIX timer

- `Posix.Completed`, `Manual.Completed`: a callback that calls on its own timer, from its start to its end;
- `Agrees`: the same script gets the same answers, and leaves the timer armed in both or in neither;
- `agrees_iff`: exactly when that is so.

The manual timer clears `active` before the callback, the POSIX timer clears `BIT_ACTIVE` after it: a start or active
that is made before any restart or stop tells them apart.
-/

namespace Gabs.Timer

open Gabs.Lib

/-! ## Completed callbacks -/

/-- The timer whose callback begins or runs. -/
def Posix.Worker.callbackOf {n : Nat} : Posix.Worker n → Option (Fin n)
  | .service _ (.alarm i .callback) => some i
  | _ => none

/-- **A callback of timer `t`**: from `p₀`, where the worker has just called it, to `x`, where `BIT_ACTIVE` has been
cleared after it. -/
structure Posix.Completed {n m : Nat} (p₀ : Posix.Sys n m) (t : Fin n) (x : Posix.Sys n m × Posix.Script) : Prop where
  called : ∃ p r, (Posix.system n m).Reach Posix.Linear p ∧ Posix.step p (.work r) = some p₀
  begins : p₀.worker.callbackOf = some t
  run : (Posix.callback p₀ t).Reach (fun x a => Posix.Alone t x.1 a) x
  ends : x.1.worker.finishing ≠ some t

/-- **A callback of timer `t`**: from `s₀`, where `timer_fire` has just called it, to `y`, where it has returned. -/
structure Manual.Completed {n : Nat} (s₀ : Manual.Sys n) (t : Fin n) (y : Manual.Sys n × List Entry) : Prop where
  called : ∃ s, (s.ctx.timers t).used = true ∧ Manual.timerFire s t = some s₀
  run : (Manual.callback s₀ t).Reach (fun y a => Manual.Alone s₀ t y.1 a) y
  ends : s₀.Returned y.1

namespace Posix.Completed

variable {n m : Nat} {p₀ : Posix.Sys n m} {t : Fin n} {x : Posix.Sys n m × Posix.Script} {sched : Bool}

/-- What the two bits answer, and what is left of them. -/
theorem outcome (h : Posix.Completed p₀ t x) (hs : (p₀.state t).has .sched = sched) :
    answers x.2.log = flag.outs true (calls x.2.log) ∧
    x.1.armed t = (Posix.word.after (sched, true) (calls x.2.log)).1 := by
  obtain ⟨p, r, hr, hst⟩ := h.called
  have hw : ∃ j, p₀.worker = .service j (.alarm t .callback) := by
    have hb := h.begins
    unfold Posix.Worker.callbackOf at hb
    split at hb <;> cases hb
    exact ⟨_, by assumption⟩
  obtain ⟨j, hw⟩ := hw
  have hi := Posix.scripted_of_reach hr hst hw h.run
  rw [hs] at hi
  constructor
  · have hbusy : Posix.busy (sched, true) = true := Bool.or_true _
    have hout := Posix.word_hom.outs (sched, true) (calls x.2.log)
    rw [hbusy] at hout
    exact hi.answers.trans hout.symm
  · rw [Posix.armed_eq, hi.after h.ends]
    exact Bool.or_false _

end Posix.Completed

/-- What the flag answers, and what is left of it. -/
theorem Manual.Completed.outcome {n : Nat} {s₀ : Manual.Sys n} {t : Fin n} {y : Manual.Sys n × List Entry}
    (h : Manual.Completed s₀ t y) :
    answers y.2 = flag.outs false (calls y.2) ∧ (y.1.ctx.timers t).active = flag.after false (calls y.2) := by
  obtain ⟨s, hu, hf⟩ := h.called
  have hi := Manual.answering_of_reach hu hf h.run
  exact ⟨hi.answers, hi.active⟩

/-! ## Scripts that tell the timers apart -/

/-- The first call of the script sets the state of the timer. -/
def SetsFirst (l : List OwnCall) : Prop := l.head?.any OwnCall.sets = true

instance (l : List OwnCall) : Decidable (SetsFirst l) := inferInstanceAs (Decidable (_ = _))

/-- After such a call `BIT_SCHED` is the flag. -/
theorem word_after_eq (sched : Bool) {l : List OwnCall} (h : SetsFirst l) :
    (Posix.word.after (sched, true) l).1 = flag.after false l := by
  have hbits : ∀ (b : Bool) (l : List OwnCall), (Posix.word.after (b, false) l).1 = flag.after b l := by
    intro b l
    have hbusy : flag.after (Posix.busy (b, false)) l = Posix.busy (Posix.word.after (b, false) l) :=
      Posix.word_hom.after _ l
    rw [Posix.busy, Posix.busy, Posix.word_after_idle, Bool.or_false, Bool.or_false] at hbusy
    exact hbusy.symm
  cases l with
  | nil => cases h
  | cons q l =>
    cases q with
    | restart us => exact hbits true l
    | stop => exact hbits false l
    | start | active => cases h

/-- **The two timers do the same** with a script. -/
def Agrees {n m k : Nat} (t : Fin n) (x : Posix.Sys n m × Posix.Script) (u : Fin k) (y : Manual.Sys k × List Entry) :
    Prop :=
  answers x.2.log = answers y.2 ∧ x.1.armed t = (y.1.ctx.timers u).active

variable {n m k : Nat} {p₀ : Posix.Sys n m} {t : Fin n} {x : Posix.Sys n m × Posix.Script} {s₀ : Manual.Sys k}
  {u : Fin k} {y : Manual.Sys k × List Entry}

/-- **The manual timer stands in for the POSIX timer** exactly in the callbacks whose first call on their timer is a
restart or a stop, and in those without a call that find `BIT_SCHED` clear. -/
theorem agrees_iff (hx : Posix.Completed p₀ t x) (hy : Manual.Completed s₀ u y) (hc : calls x.2.log = calls y.2) :
    Agrees t x u y ↔ SetsFirst (calls y.2) ∨ calls y.2 = [] ∧ (p₀.state t).has .sched = false := by
  obtain ⟨hx1, hx2⟩ := hx.outcome rfl
  obtain ⟨hy1, hy2⟩ := hy.outcome
  rw [Agrees, hx1, hx2, hy1, hy2, hc, flag_outs_iff]
  constructor
  · rintro ⟨hnil | hset, harmed⟩
    · rw [hnil] at harmed
      exact .inr ⟨hnil, harmed⟩
    · exact .inl hset
  · rintro (hset | ⟨hnil, hsched⟩)
    · exact ⟨.inr hset, word_after_eq _ hset⟩
    · rw [hnil]
      exact ⟨.inl rfl, hsched⟩

/-! ## Two scripts -/

/-- A POSIX timer is installed and started, expires, and the worker is about to test `BIT_ACTIVE`. -/
def beforeCallback : List (Posix.Act 1 1) :=
  let c : Posix.Thread 1 := .client 0
  [Posix.Act.call c (.install (some 7) 0), .step c .ok, .step c .ok, .step c (.fd 4), .step c .ok, .step c .ok,
    .call c (.restart 0 0), .step c .ok, .step c .ok, .step c .ok, .step c .ok] ++
  List.replicate 7 (Posix.Act.work .ok) ++
  [Posix.Act.tick 1, .expire 4] ++ List.replicate 16 (Posix.Act.work .ok)

/-- A callback of the POSIX timer that makes the calls of `acts` and returns. -/
theorem exists_completed (acts : List (Posix.Act 1 1)) {Q : Posix.Sys 1 1 → Posix.Sys 1 1 × Posix.Script → Prop}
    [∀ p x, Decidable (Q p x)]
    (h : ((Posix.system 1 1).exec Posix.Linear (Posix.ctxInit 1 1 3) beforeCallback).any (fun p =>
      (Posix.step p (.work .ok)).any fun p₀ => decide (p₀.worker.callbackOf = some 0) &&
        ((Posix.callback p₀ 0).exec (fun x a => Posix.Alone 0 x.1 a) (p₀, ⟨[], none⟩) acts).any fun x =>
          decide (x.1.worker.finishing ≠ some 0 ∧ Q p₀ x)) = true) :
    ∃ p₀ x, Posix.Completed p₀ 0 x ∧ Q p₀ x := by
  obtain ⟨p, hp, h⟩ := (Option.any_eq_true _ _).mp h
  obtain ⟨p₀, hp₀, h⟩ := (Option.any_eq_true _ _).mp h
  rw [Bool.and_eq_true, decide_eq_true_eq] at h
  obtain ⟨hb, h⟩ := h
  obtain ⟨x, hx, h⟩ := (Option.any_eq_true _ _).mp h
  rw [decide_eq_true_eq] at h
  have hr : (Posix.system 1 1).Reach Posix.Linear p := .of_exec (.init ⟨3, by decide, rfl⟩) hp
  exact ⟨p₀, x, ⟨⟨p, .ok, hr, hp₀⟩, hb, .of_exec (.init ⟨rfl, rfl⟩) hx, h.1⟩, h.2⟩

/-- A callback of the manual timer that makes the calls of `acts` and returns. -/
theorem exists_returned (acts : List (Manual.Act 1)) {Q : Manual.Sys 1 × List Entry → Prop} [DecidablePred Q]
    (h : ((Manual.system 1).exec Manual.Usable (Manual.boot 1)
      [.call (.install (some 7) 0), .call (.start 0 5), .advance 5]).any (fun s =>
        decide ((s.ctx.timers 0).used = true) && (Manual.timerFire s 0).any fun s₀ =>
          ((Manual.callback s₀ 0).exec (fun y a => Manual.Alone s₀ 0 y.1 a) (s₀, []) acts).any fun y =>
            decide (s₀.Returned y.1 ∧ Q y)) = true) :
    ∃ s₀ y, Manual.Completed s₀ 0 y ∧ Q y := by
  obtain ⟨s, -, h⟩ := (Option.any_eq_true _ _).mp h
  rw [Bool.and_eq_true, decide_eq_true_eq] at h
  obtain ⟨s₀, hs₀, h2⟩ := (Option.any_eq_true _ _).mp h.2
  obtain ⟨y, hy, h3⟩ := (Option.any_eq_true _ _).mp h2
  rw [decide_eq_true_eq] at h3
  exact ⟨s₀, y, ⟨⟨s, h.1, hs₀⟩, .of_exec (.init ⟨rfl, rfl⟩) hy, h3.1⟩, h3.2⟩

/-- A callback that restarts its timer and asks whether it is active. -/
theorem agrees_restart : ∃ (p₀ : Posix.Sys 1 1) (x : Posix.Sys 1 1 × Posix.Script) (s₀ : Manual.Sys 1)
    (y : Manual.Sys 1 × List Entry), Posix.Completed p₀ 0 x ∧ Manual.Completed s₀ 0 y ∧
    calls y.2 = [.restart 5, .active] ∧ Agrees 0 x 0 y := by
  obtain ⟨p₀, x, hx, hcx⟩ := exists_completed (Q := fun _ x => calls x.2.log = [.restart 5, .active])
    (.call .worker (.restart 0 5) :: List.replicate 4 (Posix.Act.step .worker .ok) ++
      [.call .worker (.active 0), .step .worker .ok, .work .ok, .work .ok, .work .ok]) (by decide)
  obtain ⟨s₀, y, hy, hcy⟩ := exists_returned (Q := fun y => calls y.2 = [.restart 5, .active])
    [.call (.restart 0 5), .call (.active 0), .ret] (by decide)
  exact ⟨p₀, x, s₀, y, hx, hy, hcy, (agrees_iff hx hy (hcx.trans hcy.symm)).mpr (.inl (hcy ▸ rfl))⟩

/-- **A callback that starts its timer again**: the manual timer is started, the POSIX timer answers `-EBUSY` and is not
armed when the callback is completed. -/
theorem start_disagrees : ∃ (p₀ : Posix.Sys 1 1) (x : Posix.Sys 1 1 × Posix.Script) (s₀ : Manual.Sys 1)
    (y : Manual.Sys 1 × List Entry), Posix.Completed p₀ 0 x ∧ Manual.Completed s₀ 0 y ∧
    x.2.log = [⟨.start 5, .status (-16)⟩] ∧ y.2 = [⟨.start 5, .status 0⟩] ∧
    x.1.armed 0 = false ∧ (y.1.ctx.timers 0).active = true ∧ ¬Agrees 0 x 0 y := by
  obtain ⟨p₀, x, hx, hlx, hax⟩ := exists_completed
    (Q := fun _ x => x.2.log = [⟨.start 5, .status (-16)⟩] ∧ x.1.armed 0 = false)
    [.call .worker (.start 0 5), .step .worker .ok, .work .ok, .work .ok, .work .ok] (by decide)
  obtain ⟨s₀, y, hy, hly, hay⟩ := exists_returned
    (Q := fun y => y.2 = [⟨.start 5, .status 0⟩] ∧ (y.1.ctx.timers 0).active = true)
    [.call (.start 0 5), .ret] (by decide)
  refine ⟨p₀, x, s₀, y, hx, hy, hlx, hly, hax, hay, fun h => ?_⟩
  have := h.2
  rw [hax, hay] at this
  cases this

end Gabs.Timer
