import Gabs.Lib.Least
import Gabs.Timer.Manual.Model

/-!
# The manual timer: what one step can do

- `nextExpired_eq`: the loop of `next_expired` finds the least pair of expiry and sequence number among the timers that
  are due;
- `Move s a s'`: every way in which an action changes the system, with what the step found (`step_move`).
-/

namespace Gabs.Timer.Manual

open Gabs.Lib

variable {n : Nat}

/-! ## The next timer -/

/-- Timer `i` is to fire until `endUs`. -/
def Ctx.due (c : Ctx n) (endUs : Nat) (i : Fin n) : Bool :=
  (c.timers i).used && (c.timers i).active && decide ((c.timers i).expiryUs ≤ endUs)

/-- The order in which timers fire: by expiry, and then by the order of their starts. -/
def Ctx.key (c : Ctx n) (i : Fin n) : ℕ ×ₗ ℕ := toLex ((c.timers i).expiryUs, (c.timers i).seq)

theorem due_iff {c : Ctx n} {e : Nat} {i : Fin n} :
    c.due e i = true ↔ (c.timers i).used = true ∧ (c.timers i).active = true ∧ (c.timers i).expiryUs ≤ e := by
  simp [Ctx.due, and_assoc]

theorem key_lt_iff {c : Ctx n} {i j : Fin n} : c.key i < c.key j ↔
    (c.timers i).expiryUs < (c.timers j).expiryUs ∨
      (c.timers i).expiryUs = (c.timers j).expiryUs ∧ (c.timers i).seq < (c.timers j).seq :=
  Prod.Lex.toLex_lt_toLex

/-- **`next_expired` is a minimum.** -/
theorem nextExpired_eq (c : Ctx n) (e : Nat) :
    nextExpired c e = ((List.finRange n).filter (c.due e)).argmin c.key := by
  rw [List.argmin, List.foldl_filter, nextExpired]
  congr 1
  funext next i
  have hdue : (!(c.timers i).used || !(c.timers i).active || decide (e < (c.timers i).expiryUs)) = !c.due e i := by
    rw [Ctx.due, Bool.not_and, Bool.not_and, ← decide_not]
    simp only [not_le]
  simp only [pick, hdue]
  cases c.due e i with
  | false => rfl
  | true =>
    cases next with
    | none => rfl
    | some j => simp only [Bool.not_true, Bool.false_eq_true, if_false, if_true, List.argAux, key_lt_iff]

theorem nextExpired_some {c : Ctx n} {e : Nat} {t : Fin n} (h : nextExpired c e = some t) :
    c.due e t = true ∧ ∀ i, c.due e i = true → c.key t ≤ c.key i := by
  rw [nextExpired_eq] at h
  exact ⟨(List.mem_filter.mp (List.argmin_mem h)).2, fun i hi =>
    List.le_of_mem_argmin (List.mem_filter.mpr ⟨List.mem_finRange i, hi⟩) h⟩

theorem nextExpired_none {c : Ctx n} {e : Nat} (h : nextExpired c e = none) (i : Fin n) : c.due e i = false := by
  rw [nextExpired_eq, List.argmin_eq_none, List.filter_eq_nil_iff] at h
  simpa using h i (List.mem_finRange i)

/-- A later end changes nothing as long as a timer is due. -/
theorem nextExpired_mono {c : Ctx n} {e e' : Nat} (he : e ≤ e') {t : Fin n} (h : nextExpired c e = some t) :
    nextExpired c e' = some t := by
  rw [nextExpired_eq] at h ⊢
  refine argmin_filter_of_lt (fun i hi => ?_) (fun i j hi hj hn => ?_) h
  · rw [due_iff] at hi ⊢
    exact ⟨hi.1, hi.2.1, hi.2.2.trans he⟩
  · rw [due_iff] at hi hj
    have hlt : e < (c.timers j).expiryUs := by
      by_contra hle
      rw [due_iff.mpr ⟨hj.1, hj.2.1, not_lt.mp hle⟩] at hn
      cases hn
    exact key_lt_iff.mpr (.inl (lt_of_le_of_lt hi.2.2 hlt))

/-! ## The steps -/

/-- A call that changes nothing, and what it returns. -/
def Op.Quiet (c : Ctx n) : Op n → Ret n → Prop
  | .install _ _, v => (∀ i, (c.timers i).used = true) ∧ v = .timer none
  | .start t _, v => (c.timers t).active = true ∧ v = .status (-eBusy)
  | .fire t, v => (c.timers t).active = false ∧ v = .status (-eInval)
  | .active t, v => v = .active (c.timers t).active
  | .now, v => v = .now c.nowUs
  | _, _ => False

/-- Timer `t` is armed. -/
def Ctx.arm (c : Ctx n) (t : Fin n) (us : Nat) : Ctx n := (restart c t us).1

/-- Timer `t` is no longer active. -/
def Ctx.disarm (c : Ctx n) (t : Fin n) : Ctx n := c.put t { c.timers t with active := false }

/-- The callback of timer `t` begins. -/
def Sys.fired (s : Sys n) (t : Fin n) : Sys n := { s with ctx := s.ctx.disarm t, frames := .callback t :: s.frames }

/-- **The steps of the system.** -/
inductive Move (s : Sys n) : Act n → Sys n → Prop
  | install {cb : Option Nat} {arg : Nat} {i : Fin n} : s.inClient = true → (s.ctx.timers i).used = false →
      Move s (.call (.install cb arg))
        { s with ctx := s.ctx.put i { Slot.zero with used := true, cb := cb, userArg := arg }, ret := .timer (some i) }
  | quiet {op : Op n} {v : Ret n} : s.inClient = true → op.Quiet s.ctx v → Move s (.call op) { s with ret := v }
  | uninstall {t : Fin n} : s.inClient = true → Move s (.call (.uninstall t))
      { s with ctx := s.ctx.put t { s.ctx.timers t with active := false, used := false }, ret := .status 0 }
  | stop {t : Fin n} : s.inClient = true →
      Move s (.call (.stop t)) { s with ctx := s.ctx.disarm t, ret := .status 0 }
  | arm {op : Op n} {t : Fin n} {us : Nat} : s.inClient = true → op.arms s.ctx = some (t, us) →
      Move s (.call op) { s with ctx := s.ctx.arm t us, ret := .status 0 }
  | fire {t : Fin n} : s.inClient = true → (s.ctx.timers t).active = true → (s.ctx.timers t).cb ≠ none →
      Move s (.call (.fire t)) (s.fired t)
  | advance {us : Nat} : s.inClient = true →
      Move s (.advance us) { s with frames := .advance (wrap (s.ctx.nowUs + us)) 0 :: s.frames }
  | retLoop {t : Fin n} {e k : Nat} {fs : List (Frame n)} : s.frames = .callback t :: .advance e k :: fs →
      Move s .ret { s with frames := .advance e (k + 1) :: fs }
  | retFire {t : Fin n} {fs : List (Frame n)} : s.frames = .callback t :: fs → (∀ e k gs, fs ≠ .advance e k :: gs) →
      Move s .ret { s with frames := fs, ret := .status 0 }
  | alarm {t : Fin n} {e k : Nat} {fs : List (Frame n)} : s.frames = .advance e k :: fs →
      nextExpired s.ctx e = some t → (s.ctx.timers t).cb ≠ none →
      Move s .loop ({ s with ctx := s.ctx.setNow (s.ctx.timers t).expiryUs }.fired t)
  | done {e k : Nat} {fs : List (Frame n)} : s.frames = .advance e k :: fs → nextExpired s.ctx e = none →
      Move s .loop ⟨s.ctx.setNow e, fs, .count k⟩

variable {s s' : Sys n}

theorem timerFire_eq {t : Fin n} (h : timerFire s t = some s') : (s.ctx.timers t).cb ≠ none ∧ s' = s.fired t := by
  unfold timerFire at h
  split at h
  · cases h
  · cases h; exact ⟨‹_›, rfl⟩

theorem callStep_move {op : Op n} (hc : s.inClient = true) (h : callStep s op = some s') : Move s (.call op) s' := by
  cases op with
  | install cb arg =>
    simp only [callStep, install] at h
    cases hf : (List.finRange n).find? fun i => !(s.ctx.timers i).used with
    | some i =>
      simp only [hf, Option.some.injEq] at h
      subst h
      exact .install hc (by simpa using List.find?_some hf)
    | none =>
      simp only [hf, Option.some.injEq] at h
      subst h
      exact .quiet hc ⟨fun i => by simpa using List.find?_eq_none.mp hf i (List.mem_finRange i), rfl⟩
  | uninstall t => cases h; exact .uninstall hc
  | start t us =>
    simp only [callStep, start] at h
    cases ha : (s.ctx.timers t).active with
    | true =>
      simp only [ha, if_true, Option.some.injEq] at h
      subst h
      exact .quiet hc ⟨ha, rfl⟩
    | false =>
      simp only [ha, Bool.false_eq_true, if_false, Option.some.injEq] at h
      subst h
      exact .arm hc (by simp [Op.arms, ha])
  | restart t us => cases h; exact .arm hc rfl
  | stop t => cases h; exact .stop hc
  | active t => cases h; exact .quiet hc rfl
  | now => cases h; exact .quiet hc rfl
  | fire t =>
    simp only [callStep] at h
    cases ha : (s.ctx.timers t).active with
    | true =>
      rw [if_pos ha] at h
      obtain ⟨h1, rfl⟩ := timerFire_eq h
      exact .fire hc ha h1
    | false =>
      simp only [ha, Bool.false_eq_true, if_false, Option.some.injEq] at h
      subst h
      exact .quiet hc ⟨ha, rfl⟩

/-- **Every step is one of them.** -/
theorem step_move {a : Act n} (h : step s a = some s') : Move s a s' := by
  cases a with
  | call op =>
    simp only [step] at h
    split at h
    · exact callStep_move ‹_› h
    · cases h
  | advance us =>
    simp only [step] at h
    split at h
    · cases h; exact .advance ‹_›
    · cases h
  | ret =>
    simp only [step] at h
    split at h
    · rename_i t e k fs hf
      cases h
      exact .retLoop hf
    · rename_i t fs hno hf
      cases h
      exact .retFire hf hno
    · cases h
  | loop =>
    simp only [step] at h
    split at h
    · rename_i e k fs hf
      simp only [advanceLoop] at h
      split at h
      · obtain ⟨h1, rfl⟩ := timerFire_eq h
        exact .alarm hf ‹_› h1
      · cases h; exact .done hf ‹_›
    · cases h

end Gabs.Timer.Manual
