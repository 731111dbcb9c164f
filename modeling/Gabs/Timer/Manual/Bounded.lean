import Gabs.Lib.Within
import Gabs.Timer.Manual.Nested
import Mathlib.Data.Fintype.Card
import Mathlib.Logic.Relation

/-!
# The manual timer: `gabs_timer_manual_advance` ends

- `Supplied`, `Callable`: timers are installed with a callback, so that there is one to run where a timer fires;
- `Calls`, `Round`: the calls of one callback, and one round of the loop: a timer fires, and its callback returns;
- `Ctx.load`: how many rounds the loop can still make: a pool for each microsecond that remains, and the timers due now;
- `advance_ends`: the loop ends after at most one pool of callbacks for each instant from the entry to the end.
-/

namespace Gabs.Timer.Manual

open Gabs.Lib

variable {n : Nat} {s s' : Sys n}

/-! ## Callbacks -/

/-- A timer that is installed is given a callback. -/
def Op.supplied : Op n → Bool
  | .install cb _ => cb.isSome
  | _ => true

/-- **No sum wraps, and every timer is installed with a callback.** -/
def Supplied (s : Sys n) (a : Act n) : Prop :=
  Unwrapped s a ∧ match a with
    | .call op => op.supplied = true
    | _ => True

instance (s : Sys n) (a : Act n) : Decidable (Supplied s a) :=
  match a with
  | .call _ => inferInstanceAs (Decidable (_ ∧ _ = true))
  | .advance _ | .ret | .loop => inferInstanceAs (Decidable (_ ∧ True))

/-- Every timer has a callback to run. -/
def Callable (c : Ctx n) : Prop := ∀ t, (c.timers t).used = true → (c.timers t).cb ≠ none

theorem Callable.put {c : Ctx n} {i : Fin n} {t : Slot} (hi : Callable c) (ht : t.used = true → t.cb ≠ none) :
    Callable (c.put i t) := by
  intro u hu
  rcases eq_or_ne u i with rfl | hne
  · rw [Ctx.put_timers, Function.update_self] at hu ⊢
    exact ht hu
  · rw [Ctx.put_timers, Function.update_of_ne hne] at hu ⊢
    exact hi u hu

/-- A call. -/
theorem Callable.call {op : Op n} (hi : Callable s.ctx) (ho : op.supplied = true) (h : Move s (.call op) s') :
    Callable s'.ctx := by
  cases h with
  | @install cb arg i => exact hi.put fun _ => Option.isSome_iff_ne_none.mp ho
  | @uninstall t => exact hi.put fun h => absurd h Bool.false_ne_true
  | @stop t => exact hi.put (hi t)
  | quiet => exact hi
  | @fire t => exact hi.put (hi t)
  | @arm _ t us => exact hi.put (t := { s.ctx.timers t with active := true, expiryUs := _, seq := _ }) (hi t)

/-- **One step.** -/
theorem Callable.step {a : Act n} (hi : Callable s.ctx) (hp : Supplied s a) (h : Move s a s') : Callable s'.ctx := by
  cases a with
  | call op => exact hi.call hp.2 h
  | advance us =>
    cases h
    exact hi
  | ret =>
    cases h with
    | retLoop => exact hi
    | retFire => exact hi
  | loop =>
    cases h with
    | done => exact hi
    | @alarm t => exact Callable.put (c := s.ctx.setNow (s.ctx.timers t).expiryUs) hi (hi t)

theorem callable_of_reach (hr : (system n).Reach Supplied s) : Callable s.ctx := by
  refine hr.invariant (I := fun s => Callable s.ctx) ?_ fun s a s' _ hi hp h => hi.step hp (step_move h)
  rintro s rfl t hu
  cases hu

/-! ## Rounds -/

/-- A call that begins no callback and arms no timer for the present instant. -/
def Later (s : Sys n) (op : Op n) : Prop :=
  (∀ t, op ≠ .fire t) ∧ op.supplied = true ∧ ∀ x ∈ op.arms s.ctx, 1 ≤ x.2 ∧ s.ctx.nowUs + x.2 < 2 ^ 64

/-- **What a callback does**: such calls, any number of them. -/
def Calls : Sys n → Sys n → Prop := Relation.ReflTransGen fun s s' => ∃ op, Later s op ∧ step s (.call op) = some s'

/-- **A round of the loop**: the next timer fires, its callback makes calls, and returns. -/
def Round (s s' : Sys n) : Prop :=
  ∃ t m m', step s .loop = some m ∧ m.frames = .callback t :: s.frames ∧ Calls m m' ∧ step m' .ret = some s'

/-- **The loop ends**: `gabs_timer_manual_advance` returns what it has counted. -/
def Returns (s : Sys n) : Prop :=
  ∃ e k fs, s.frames = .advance e k :: fs ∧ step s .loop = some ⟨s.ctx.setNow e, fs, .count k⟩

/-! ## The measure -/

/-- The timers due now. -/
def Ctx.dueNow (c : Ctx n) : Finset (Fin n) := Finset.univ.filter fun i => c.due c.nowUs i = true

/-- **The rounds that may remain** until `endUs`. -/
def Ctx.load (c : Ctx n) (endUs : Nat) : Nat := (endUs - c.nowUs) * n + c.dueNow.card

theorem mem_dueNow {c : Ctx n} {i : Fin n} : i ∈ c.dueNow ↔ c.due c.nowUs i = true := by simp [Ctx.dueNow]

theorem load_le (c : Ctx n) (endUs : Nat) : c.load endUs ≤ (endUs - c.nowUs + 1) * n := by
  have hcard : c.dueNow.card ≤ n := (Finset.card_le_univ _).trans (Fintype.card_fin n).le
  rw [Ctx.load, Nat.succ_mul]
  exact Nat.add_le_add_left hcard _

/-- Timers that are as before, or not active, or armed for later, do not become due. -/
theorem dueNow_subset {c c' : Ctx n} (hn : c'.nowUs = c.nowUs)
    (ht : ∀ i, (c'.timers i).active = true → c'.timers i = c.timers i ∨ c.nowUs < (c'.timers i).expiryUs) :
    c'.dueNow ⊆ c.dueNow := by
  intro i hi
  obtain ⟨hu, ha, hle⟩ := due_iff.mp (mem_dueNow.mp hi)
  refine mem_dueNow.mpr (due_iff.mpr ?_)
  rcases ht i ha with he | hlt
  · rw [← he, ← hn]
    exact ⟨hu, ha, hle⟩
  · exact absurd hle (not_le.mpr (hn ▸ hlt))

/-- What a call of a callback does to the timers. -/
theorem Later.effect {op : Op n} (hl : Later s op) (h : Move s (.call op) s') :
    s'.frames = s.frames ∧ s'.ctx.nowUs = s.ctx.nowUs ∧ ∀ i, (s'.ctx.timers i).active = true →
      s'.ctx.timers i = s.ctx.timers i ∨ s.ctx.nowUs < (s'.ctx.timers i).expiryUs := by
  cases h with
  | install => exact ⟨rfl, rfl, fun i ha => .inl (active_of_put rfl ha)⟩
  | uninstall => exact ⟨rfl, rfl, fun i ha => .inl (active_of_put rfl ha)⟩
  | stop => exact ⟨rfl, rfl, fun i ha => .inl (active_of_put rfl ha)⟩
  | quiet => exact ⟨rfl, rfl, fun _ _ => .inl rfl⟩
  | fire => exact absurd rfl (hl.1 _)
  | @arm _ t us hc ha =>
    obtain ⟨hpos, hfit⟩ := hl.2.2 (t, us) ha
    refine ⟨rfl, rfl, fun i _ => ?_⟩
    rcases eq_or_ne i t with rfl | hne
    · refine .inr ?_
      rw [arm_timers_self, wrap_of_lt hfit]
      exact Nat.lt_add_of_pos_right hpos
    · exact .inl (arm_timers_of_ne hne)

/-- **A callback** leaves the clock and the stack alone, and makes no timer due. -/
theorem Calls.effect (h : Calls s s') : s'.frames = s.frames ∧ s'.ctx.nowUs = s.ctx.nowUs ∧
    s'.ctx.dueNow ⊆ s.ctx.dueNow ∧ (Ahead s.ctx → Ahead s'.ctx) ∧ (Callable s.ctx → Callable s'.ctx) := by
  induction h with
  | refl => exact ⟨rfl, rfl, subset_rfl, id, id⟩
  | @tail m m' _ hop ih =>
    obtain ⟨hframes, hnow, hdue, hahead, hcall⟩ := ih
    obtain ⟨op, hl, hstep⟩ := hop
    obtain ⟨hframes', hnow', ht⟩ := hl.effect (step_move hstep)
    exact ⟨hframes'.trans hframes, hnow'.trans hnow, (dueNow_subset hnow' ht).trans hdue,
      fun hi => (hahead hi).keep hnow' fun i ha => (ht i ha).imp_right Nat.le_of_lt,
      fun hi => (hcall hi).call hl.2.1 (step_move hstep)⟩

/-- The loop of the call that ends at `endUs`, above the frames `fs`. -/
structure Looping (endUs : Nat) (fs : List (Frame n)) (s : Sys n) : Prop where
  top : ∃ k, s.frames = .advance endUs k :: fs
  inTime : s.ctx.nowUs ≤ endUs
  ahead : Ahead s.ctx
  callable : Callable s.ctx

variable {endUs : Nat} {fs : List (Frame n)}

/-- The loop ends, or goes on: the next timer fires, and its callback may return at once. -/
theorem Looping.goes (hi : Looping endUs fs s) : Returns s ∨ ∃ s', Round s s' := by
  obtain ⟨k, hf⟩ := hi.top
  cases hne : nextExpired s.ctx endUs with
  | none => exact .inl ⟨endUs, k, fs, hf, by simp only [step, hf, advanceLoop, hne]⟩
  | some t =>
    obtain ⟨hu, -, -⟩ := due_iff.mp (nextExpired_some hne).1
    have hcb : (s.ctx.timers t).cb ≠ none := hi.callable t hu
    have hfire : step s .loop = some ({ s with ctx := s.ctx.setNow (s.ctx.timers t).expiryUs }.fired t) := by
      simp only [step, hf, advanceLoop, hne, timerFire, Ctx.setNow_timers, if_neg hcb]
      rfl
    have hret : step ({ s with ctx := s.ctx.setNow (s.ctx.timers t).expiryUs }.fired t) .ret =
        some ⟨(s.ctx.setNow (s.ctx.timers t).expiryUs).disarm t, .advance endUs (k + 1) :: fs, s.ret⟩ := by
      simp only [step, Sys.fired, hf]
    exact .inr ⟨_, t, _, _, hfire, rfl, .refl, hret⟩

/-- The next timer fires, and is due no more. If the clock has moved, some other timers may be due. -/
theorem alarm_load {c : Ctx n} {t : Fin n} (hi : Ahead c) (hne : nextExpired c endUs = some t) :
    ((c.setNow (c.timers t).expiryUs).disarm t).load endUs < c.load endUs := by
  obtain ⟨hu, ha, hle⟩ := due_iff.mp (nextExpired_some hne).1
  have hnot : t ∉ ((c.setNow (c.timers t).expiryUs).disarm t).dueNow := by
    rw [mem_dueNow, due_iff, disarm_active]
    exact fun h => by cases h.2.1
  rw [Ctx.load, Ctx.load, disarm_nowUs, Ctx.setNow_nowUs]
  rcases (hi t hu ha).eq_or_lt with heq | hlt
  · rw [← heq]
    have hkept : ∀ i, (((c.setNow c.nowUs).disarm t).timers i).active = true →
        ((c.setNow c.nowUs).disarm t).timers i = c.timers i := fun i hai => active_of_put rfl hai
    have hsub : ((c.setNow c.nowUs).disarm t).dueNow ⊆ c.dueNow := dueNow_subset rfl fun i hai => .inl (hkept i hai)
    refine Nat.add_lt_add_left (Finset.card_lt_card ⟨hsub, ?_⟩) _
    exact fun hsub => hnot (heq ▸ hsub (mem_dueNow.mpr (due_iff.mpr ⟨hu, ha, heq.ge⟩)))
  · have hcard : ((c.setNow (c.timers t).expiryUs).disarm t).dueNow.card < n :=
      (Finset.card_lt_univ_of_notMem hnot).trans_eq (Fintype.card_fin n)
    calc (endUs - (c.timers t).expiryUs) * n + _
      _ < (endUs - (c.timers t).expiryUs) * n + n := Nat.add_lt_add_left hcard _
      _ = (endUs - (c.timers t).expiryUs + 1) * n := (Nat.succ_mul ..).symm
      _ ≤ (endUs - c.nowUs) * n := Nat.mul_le_mul_right n (by omega)
      _ ≤ _ := Nat.le_add_right ..

/-- **A round decreases the load.** -/
theorem Looping.round (hi : Looping endUs fs s) (h : Round s s') :
    Looping endUs fs s' ∧ s'.ctx.load endUs < s.ctx.load endUs := by
  obtain ⟨t₀, m, m', hloop, hm, hcalls, hret⟩ := h
  obtain ⟨k, hf⟩ := hi.top
  obtain ⟨hframes, hnow, hdue, hahead, hcallable⟩ := hcalls.effect
  have hahead' := hi.ahead.step (a := .loop) trivial (step_move hloop)
  have hcallable' := hi.callable.step (a := .loop) ⟨trivial, trivial⟩ (step_move hloop)
  cases step_move hloop with
  | @done e k' fs' hf' =>
    -- A call has returned, and no callback runs on top of it.
    have hlen : fs'.length = s.frames.length + 1 := congrArg List.length hm
    rw [hf', List.length_cons] at hlen
    omega
  | @alarm t e k' fs' hf' hne hcb =>
    obtain ⟨rfl, rfl⟩ : e = endUs ∧ k' = k := by
      rw [hf] at hf'
      cases hf'
      exact ⟨rfl, rfl⟩
    have hstack : m'.frames = .callback t :: .advance e k' :: fs := hframes.trans (congrArg _ hf)
    cases step_move hret with
    | retFire hf₂ hno =>
      rw [hstack] at hf₂
      cases hf₂
      exact absurd rfl (hno _ _ _)
    | retLoop hf₂ =>
      rw [hstack] at hf₂
      cases hf₂
      refine ⟨⟨⟨_, rfl⟩, ?_, hahead hahead', hcallable hcallable'⟩, ?_⟩
      · exact hnow.trans_le (due_iff.mp (nextExpired_some hne).1).2.2
      · refine Nat.lt_of_le_of_lt ?_ (alarm_load hi.ahead hne)
        have hclock : m'.ctx.nowUs = (s.ctx.timers t).expiryUs := hnow
        rw [Ctx.load, Ctx.load, hclock]
        exact Nat.add_le_add_left (Finset.card_le_card hdue) _

/-! ## The bound -/

/-- **`gabs_timer_manual_advance` ends.** From any reachable context, with callbacks that make no nested call of it and
fire no timer by hand, and arm timers only for later instants, its loop ends after at most as many callbacks as the pool
has timers for each of the `us + 1` instants from now on. -/
theorem advance_ends {us : Nat} (hr : (system n).Reach Supplied s) (hp : Unwrapped s (.advance us))
    (hs : step s (.advance us) = some s') : Within Round Returns ((us + 1) * n) s' := by
  have hahead := ahead_of_reach (hr.mono fun _ _ h => h.1)
  have hcallable := callable_of_reach hr
  have hend : wrap (s.ctx.nowUs + us) = s.ctx.nowUs + us := wrap_of_lt hp
  cases step_move hs with
  | advance =>
    rw [hend]
    refine Within.of_measure (I := Looping (s.ctx.nowUs + us) s.frames) (m := fun s => s.ctx.load _)
      (fun _ hi => hi.goes) (fun _ _ hi => hi.round) ⟨⟨0, rfl⟩, Nat.le_add_right .., hahead, hcallable⟩ ?_
    refine (load_le _ _).trans_eq ?_
    rw [Nat.add_sub_cancel_left]

/-- After a nested call has set the clock back, a timer is due at once, and another one 3 microseconds later. -/
def dueAtOnce : List (Act 2) :=
  [.call (.install (some 1) 0), .call (.start 0 5), .advance 5, .loop, .advance 10, .loop, .ret, .loop,
    .call (.start 0 0), .call (.install (some 2) 0), .call (.start 1 3)]

theorem advance_ends_dueAtOnce : ∃ s s' : Sys 2, (system 2).Reach Supplied s ∧ Unwrapped s (.advance 4) ∧
    step s (.advance 4) = some s' ∧ s.ctx.nowUs = 5 ∧ (s.ctx.timers 0).expiryUs = 5 ∧ (s.ctx.timers 1).expiryUs = 8 ∧
    Within Round Returns ((4 + 1) * 2) s' := by
  obtain ⟨s, hr, hp, hs, hnow, h0, h1⟩ := Lts.Reach.run (M := system 2) (P := Supplied) (s := boot 2)
    (Q := fun s => Unwrapped s (.advance 4) ∧ (step s (.advance 4)).isSome = true ∧ s.ctx.nowUs = 5 ∧
      (s.ctx.timers 0).expiryUs = 5 ∧ (s.ctx.timers 1).expiryUs = 8) rfl dueAtOnce (by decide)
  obtain ⟨s', hs'⟩ := Option.isSome_iff_exists.mp hs
  exact ⟨s, s', hr, hp, hs', hnow, h0, h1, advance_ends hr hp hs'⟩

end Gabs.Timer.Manual
