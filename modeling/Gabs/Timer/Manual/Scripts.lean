import Gabs.Timer.Manual.Sane
import Gabs.Timer.Script

/-!
# The manual timer: a callback that calls on its own timer

- `callback`: the steps from the start of a callback of timer `t` on, with the calls on `t` as a history;
- `Alone`: the discipline: until the callback has returned, it alone calls on `t`, and the timer is not fired again;
- `Answering`: the timer is one flag, which is clear when the callback begins.
-/

namespace Gabs.Timer.Manual

open Gabs.Lib

variable {n : Nat} {s s' s₀ : Sys n} {t : Fin n}

/-- The calls of a script. -/
def Op.own (t : Fin n) : Op n → Option OwnCall
  | .start u us => if u = t then some (.start us) else none
  | .restart u us => if u = t then some (.restart us) else none
  | .stop u => if u = t then some .stop else none
  | .active u => if u = t then some .active else none
  | _ => none

/-- What they return. -/
def Ret.answer : Ret n → Answer
  | .active b => .active b
  | .status v => .status v
  | _ => .status 0

/-- A call on timer `t` is recorded with its answer. -/
def recordCall (t : Fin n) (_ : Sys n) (a : Act n) (s' : Sys n) (l : List Entry) : List Entry :=
  match a with
  | .call op => match op.own t with
    | some q => l ++ [⟨q, s'.ret.answer⟩]
    | none => l
  | _ => l

/-- The steps from `s₀` on, with the calls on timer `t`. -/
def callback (s₀ : Sys n) (t : Fin n) : Lts (Sys n × List Entry) (Act n) :=
  Lts.record ⟨(· = s₀), step⟩ [] (recordCall t)

/-- **Timer `t` is left to the callback** that is on top of the stack in `s₀` and has not returned: it alone calls on
`t`, start, restart, stop and active only, and `t` is not fired above it. -/
def Alone (s₀ : Sys n) (t : Fin n) (s : Sys n) (a : Act n) : Prop :=
  s₀.frames <:+ s.frames ∧ match a with
    | .call op => op.timer = some t → s.frames = s₀.frames ∧ op.own t ≠ none
    | .loop => match s.frames with
      | .advance e _ :: _ => nextExpired s.ctx e ≠ some t
      | _ => True
    | _ => True

instance (s₀ : Sys n) (t : Fin n) (s : Sys n) (a : Act n) : Decidable (Alone s₀ t s a) := by
  unfold Alone
  refine @instDecidableAnd _ _ _ ?_
  exact match a with
    | .call _ => inferInstanceAs (Decidable (_ → _ ∧ _))
    | .loop => by dsimp only; split <;> infer_instance
    | .advance _ | .ret => instDecidableTrue

/-- The callback that is on top of the stack in `s₀` has returned. -/
def Sys.Returned (s₀ s : Sys n) : Prop := ¬s₀.frames <:+ s.frames

instance (s₀ s : Sys n) : Decidable (s₀.Returned s) := inferInstanceAs (Decidable (¬_))

/-- **Timer `t` is one flag**, which was clear at first. -/
structure Answering (t : Fin n) (s : Sys n) (l : List Entry) : Prop where
  used : (s.ctx.timers t).used = true
  active : (s.ctx.timers t).active = flag.after false (calls l)
  answers : answers l = flag.outs false (calls l)

namespace Answering

variable {l : List Entry}

/-- A step that is no call on `t`. -/
theorem keep (hi : Answering t s l) (h : s'.ctx.timers t = s.ctx.timers t) : Answering t s' l :=
  ⟨h ▸ hi.used, h ▸ hi.active, hi.answers⟩

/-- A call on `t`. -/
theorem call (hi : Answering t s l) {q : OwnCall} {v : Answer} (hu : (s'.ctx.timers t).used = true)
    (hv : v = flag.out (s.ctx.timers t).active q)
    (ha : (s'.ctx.timers t).active = flag.step (s.ctx.timers t).active q) : Answering t s' (l ++ [⟨q, v⟩]) where
  used := hu
  active := by rw [calls_concat, Mealy.after_concat, ← hi.active]; exact ha
  answers := by
    rw [answers_concat, calls_concat, Mealy.outs_concat, ← hi.active, ← hi.answers]
    exact congrArg _ (by rw [hv])

/-- A call that is not on `t` is not recorded. -/
theorem other {op : Op n} (hi : Answering t s l) (ho : op.own t = none) (h : s'.ctx.timers t = s.ctx.timers t) :
    Answering t s' (recordCall t s (.call op) s' l) := by
  simp only [recordCall, ho]
  exact hi.keep h

theorem step {a : Act n} (hi : Answering t s l) (hp : Alone s₀ t s a) (h : Move s a s') :
    Answering t s' (recordCall t s a s' l) := by
  obtain ⟨-, hp⟩ := hp
  cases h with
  | advance | retLoop | retFire | done => exact hi.keep rfl
  | install _ hu => exact hi.other rfl (put_timers_of_ne fun e => by rw [← e, hi.used] at hu; cases hu)
  | @uninstall u _ => exact hi.other rfl (put_timers_of_ne fun e => (hp (by rw [← e]; rfl)).2 rfl)
  | @fire u _ _ _ => exact hi.other rfl (disarm_timers_of_ne fun e => (hp (by rw [← e]; rfl)).2 rfl)
  | alarm hf hne =>
    simp only [hf] at hp
    exact hi.keep (disarm_timers_of_ne fun e => hp (by rw [e]; exact hne))
  | @stop u _ =>
    by_cases e : u = t
    · subst e
      simp only [recordCall, Op.own, if_true]
      exact hi.call (disarm_used.trans hi.used) rfl disarm_active
    · exact hi.other (by simp [Op.own, e]) (disarm_timers_of_ne (Ne.symm e))
  | @arm op u us _ ha =>
    by_cases e : u = t
    · subst e
      have hu : ((s.ctx.arm u us).timers u).used = true := by rw [arm_timers_self]; exact hi.used
      have hon : ((s.ctx.arm u us).timers u).active = true := by rw [arm_timers_self]
      cases op with
      | start v us' =>
        simp only [Op.arms] at ha
        split at ha <;> cases ha
        rename_i hb
        rw [Bool.not_eq_true] at hb
        simp only [recordCall, Op.own, if_true]
        exact hi.call hu (by simp [flag, hb, Ret.answer]) hon
      | restart v us' =>
        cases ha
        simp only [recordCall, Op.own, if_true]
        exact hi.call hu rfl hon
      | _ => cases ha
    · have ho : op.own t = none := by
        cases op with
        | start v us' =>
          simp only [Op.arms] at ha
          split at ha <;> cases ha
          exact if_neg e
        | restart v us' => cases ha; exact if_neg e
        | _ => cases ha
      exact hi.other ho (arm_timers_of_ne (Ne.symm e))
  | @quiet op v _ hq =>
    cases ho : op.own t with
    | none => exact hi.other ho rfl
    | some q =>
      simp only [recordCall, ho]
      cases op with
      | start u us =>
        simp only [Op.own] at ho
        split at ho <;> cases ho
        rename_i e; subst e
        obtain ⟨hb, rfl⟩ := hq
        exact hi.call hi.used (by simp [flag, hb, Ret.answer, eBusy, ebusy]) (by simp [flag, hb])
      | active u =>
        simp only [Op.own] at ho
        split at ho <;> cases ho
        rename_i e; subst e
        subst hq
        exact hi.call hi.used rfl rfl
      | restart | stop => exact hq.elim
      | _ => cases ho

end Answering

/-- **A callback finds its timer idle**, and what it calls on it is answered by one flag. -/
theorem answering_of_reach {m : Sys n} (hu : (m.ctx.timers t).used = true) (hf : timerFire m t = some s₀)
    {x : Sys n × List Entry} (hr : (callback s₀ t).Reach (fun x a => Alone s₀ t x.1 a) x) : Answering t x.1 x.2 := by
  refine hr.record_invariant (I := fun s l => Answering t s l) ?_ fun s a s' l _ hi hp h => hi.step hp (step_move h)
  rintro s rfl
  obtain ⟨-, rfl⟩ := timerFire_eq hf
  exact ⟨disarm_used.trans hu, disarm_active, rfl⟩

end Gabs.Timer.Manual
