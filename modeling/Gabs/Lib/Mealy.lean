import Mathlib.Init

/-!
# Machines that answer

- `Mealy`: a machine that answers each input and goes on to its next state;
- `outs`, `after`: the answers to a list of inputs, and the state it leaves;
- `Hom`: a map of states that keeps answers and steps; then it keeps those of every list (`Hom.outs`, `Hom.after`).
-/

namespace Gabs.Lib

/-- A machine with states `σ`, inputs `α` and answers `β`. -/
structure Mealy (σ α β : Type*) where
  step : σ → α → σ
  out : σ → α → β

namespace Mealy

variable {σ τ α β : Type*} (M : Mealy σ α β) {N : Mealy τ α β}

/-- The state after a list of inputs. -/
def after (s : σ) : List α → σ
  | [] => s
  | a :: as => after (M.step s a) as

/-- The answers to a list of inputs. -/
def outs (s : σ) : List α → List β
  | [] => []
  | a :: as => M.out s a :: outs (M.step s a) as

theorem after_concat (a : α) : ∀ (as : List α) (s : σ), M.after s (as ++ [a]) = M.step (M.after s as) a
  | [], _ => rfl
  | b :: as, s => after_concat a as (M.step s b)

theorem outs_concat (a : α) : ∀ (as : List α) (s : σ), M.outs s (as ++ [a]) = M.outs s as ++ [M.out (M.after s as) a]
  | [], _ => rfl
  | b :: as, s => congrArg (M.out s b :: ·) (outs_concat a as (M.step s b))

/-- `f` keeps answers and steps. -/
structure Hom (M : Mealy σ α β) (N : Mealy τ α β) (f : σ → τ) : Prop where
  out : ∀ s a, N.out (f s) a = M.out s a
  step : ∀ s a, N.step (f s) a = f (M.step s a)

variable {M} {f : σ → τ}

theorem Hom.after (h : Hom M N f) (s : σ) (as : List α) : N.after (f s) as = f (M.after s as) := by
  induction as generalizing s with
  | nil => rfl
  | cons a as ih => rw [Mealy.after, Mealy.after, h.step, ih]

theorem Hom.outs (h : Hom M N f) (s : σ) (as : List α) : N.outs (f s) as = M.outs s as := by
  induction as generalizing s with
  | nil => rfl
  | cons a as ih => rw [Mealy.outs, Mealy.outs, h.out, h.step, ih]

end Mealy

end Gabs.Lib
