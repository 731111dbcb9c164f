import Mathlib.Logic.Relation
import Mathlib.Data.Option.Basic

/-!
# Labelled transition systems with an executable step

- `Lts`: initial states and a step function that answers `none` where the action is not enabled;
- `Lts.Reach M P`: the states reached by runs all of whose steps `s -a->` satisfy `P s a`. The predicate `P` is
  where a discipline of the environment, or a condition on the steps, is written;
- `Reach.invariant`: what holds initially and is kept by every such step holds in every state reached;
- `Reach.mono`: fewer runs reach fewer states;
- `Lts.exec`, `Reach.of_exec`, `Reach.run`: a list of actions, run and checked;
- `Lts.record`: the system together with a history variable, which sees the steps and does not change them
  (`Reach.record_invariant`, `Reach.fst`, `Reach.exists_record`).
-/

namespace Gabs.Lib

/-- A transition system: its initial states, and the state an action leads to where it is enabled. -/
structure Lts (σ α : Type*) where
  init : σ → Prop
  step : σ → α → Option σ

namespace Lts

variable {σ α η : Type*}

/-- The states of the runs whose steps all satisfy `P`. -/
inductive Reach (M : Lts σ α) (P : σ → α → Prop) : σ → Prop
  | init {s : σ} : M.init s → Reach M P s
  | step {s s' : σ} {a : α} : Reach M P s → P s a → M.step s a = some s' → Reach M P s'

/-- **The invariant rule.** The step lemma may use that the state before the step is reachable. -/
theorem Reach.invariant {M : Lts σ α} {P : σ → α → Prop} {I : σ → Prop} (h0 : ∀ s, M.init s → I s)
    (hs : ∀ s a s', M.Reach P s → I s → P s a → M.step s a = some s' → I s') : ∀ {s}, M.Reach P s → I s := by
  intro s hr
  induction hr with
  | init h => exact h0 _ h
  | step hr hp hst ih => exact hs _ _ _ hr ih hp hst

/-- Fewer runs reach fewer states. -/
theorem Reach.mono {M : Lts σ α} {P Q : σ → α → Prop} (h : ∀ s a, P s a → Q s a) {s : σ} (hr : M.Reach P s) :
    M.Reach Q s := by
  induction hr with
  | init hi => exact .init hi
  | step _ hp hst ih => exact .step ih (h _ _ hp) hst

/-! ## Running a list of actions -/

/-- Runs `as` from `s`, checking `P` before every step. -/
def exec (M : Lts σ α) (P : σ → α → Prop) [∀ s a, Decidable (P s a)] : σ → List α → Option σ
  | s, [] => some s
  | s, a :: as => if P s a then (M.step s a).bind fun s' => exec M P s' as else none

theorem Reach.of_exec {M : Lts σ α} {P : σ → α → Prop} [∀ s a, Decidable (P s a)] :
    ∀ {as : List α} {s s' : σ}, M.Reach P s → M.exec P s as = some s' → M.Reach P s'
  | [], s, s', hr, h => by
    simp only [exec, Option.some.injEq] at h
    exact h ▸ hr
  | a :: as, s, s', hr, h => by
    simp only [exec] at h
    split at h
    · rename_i hp
      obtain ⟨t, ht, h⟩ := Option.bind_eq_some_iff.mp h
      exact Reach.of_exec (hr.step hp ht) h
    · cases h

/-- A state reached by running a list of actions from an initial state. -/
theorem Reach.run {M : Lts σ α} {P : σ → α → Prop} [∀ s a, Decidable (P s a)] {Q : σ → Prop} [DecidablePred Q]
    {s : σ} (hs : M.init s) (as : List α) (h : (M.exec P s as).any (fun s => decide (Q s)) = true) :
    ∃ s', M.Reach P s' ∧ Q s' := by
  obtain ⟨s', he, hq⟩ := (Option.any_eq_true _ _).mp h
  exact ⟨s', .of_exec (.init hs) he, of_decide_eq_true hq⟩

/-! ## History variables -/

/-- `M` with a history variable: `upd s a s' h` is its value after the step from `s` to `s'`. -/
def record (M : Lts σ α) (h₀ : η) (upd : σ → α → σ → η → η) : Lts (σ × η) α where
  init x := M.init x.1 ∧ x.2 = h₀
  step x a := (M.step x.1 a).map fun s' => (s', upd x.1 a s' x.2)

variable {M : Lts σ α} {P : σ → α → Prop} {h₀ : η} {upd : σ → α → σ → η → η}

theorem record_step {x x' : σ × η} {a : α} (h : (M.record h₀ upd).step x a = some x') :
    M.step x.1 a = some x'.1 ∧ x'.2 = upd x.1 a x'.1 x.2 := by
  obtain ⟨s', hs, rfl⟩ := Option.map_eq_some_iff.mp h
  exact ⟨hs, rfl⟩

/-- The invariant rule for a system with a history variable. -/
theorem Reach.record_invariant {Q : σ × η → α → Prop} {I : σ → η → Prop} (h0 : ∀ s, M.init s → I s h₀)
    (hs : ∀ s a s' h, (M.record h₀ upd).Reach Q (s, h) → I s h → Q (s, h) a → M.step s a = some s' →
      I s' (upd s a s' h)) {x : σ × η} (hr : (M.record h₀ upd).Reach Q x) : I x.1 x.2 := by
  refine hr.invariant (I := fun x => I x.1 x.2) (fun x hx => hx.2 ▸ h0 _ hx.1) fun x a x' hr hi hq hst => ?_
  obtain ⟨h1, h2⟩ := record_step hst
  exact h2 ▸ hs _ _ _ _ hr hi hq h1

/-- A history variable adds no behaviour. -/
theorem Reach.fst {x : σ × η} (hr : (M.record h₀ upd).Reach (fun x a => P x.1 a) x) : M.Reach P x.1 := by
  induction hr with
  | init h => exact .init h.1
  | step _ hp hst ih => exact .step ih hp (record_step hst).1

/-- A history variable removes no behaviour. -/
theorem Reach.exists_record {s : σ} (hr : M.Reach P s) :
    ∃ h, (M.record h₀ upd).Reach (fun x a => P x.1 a) (s, h) := by
  induction hr with
  | init hi => exact ⟨h₀, .init ⟨hi, rfl⟩⟩
  | @step s s' a _ hp hst ih =>
    obtain ⟨h, ih⟩ := ih
    exact ⟨upd s a s' h, ih.step hp (by simp only [record, hst, Option.map_some])⟩

end Lts

end Gabs.Lib
