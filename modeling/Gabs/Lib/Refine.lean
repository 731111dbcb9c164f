import Gabs.Lib.Lts

/-!
# Refinement between two systems

- `Lts.Runs M P s s'`: a run from `s` to `s'` all of whose steps satisfy `P`;
- `Reach.refine`: a system whose steps are each matched by a run of another one reaches only what the other one does;
- `Runs.kept`: a condition that every step keeps is kept by a run.
-/

namespace Gabs.Lib.Lts

variable {σ τ α β : Type*}

/-- The runs between two states. -/
inductive Runs (M : Lts σ α) (P : σ → α → Prop) (s : σ) : σ → Prop
  | refl : Runs M P s s
  | step {t t' : σ} {a : α} : Runs M P s t → P t a → M.step t a = some t' → Runs M P s t'

variable {M : Lts σ α} {P : σ → α → Prop} {N : Lts τ β} {Q : τ → β → Prop}

theorem Reach.runs {s s' : σ} (hr : M.Reach P s) (h : M.Runs P s s') : M.Reach P s' := by
  induction h with
  | refl => exact hr
  | step _ hp hst ih => exact ih.step hp hst

/-- A run of one step. -/
theorem Runs.one {s s' : σ} {a : α} (hp : P s a) (h : M.step s a = some s') : M.Runs P s s' := .step .refl hp h

/-- What every step keeps. -/
theorem Runs.kept {I : σ → Prop} (hs : ∀ s a s', I s → P s a → M.step s a = some s' → I s') {s s' : σ}
    (h : M.Runs P s s') (hi : I s) : I s' := by
  induction h with
  | refl => exact hi
  | step _ hp hst ih => exact hs _ _ _ ih hp hst

/-- **Refinement.** Every step of `M` is matched by a run of `N`, where `R` relates the states. -/
theorem Reach.refine {R : σ → τ → Prop} (h0 : ∀ s, M.init s → ∃ t, N.init t ∧ R s t)
    (hs : ∀ s a s' t, N.Reach Q t → R s t → P s a → M.step s a = some s' → ∃ t', N.Runs Q t t' ∧ R s' t') {s : σ}
    (hr : M.Reach P s) : ∃ t, N.Reach Q t ∧ R s t := by
  induction hr with
  | init hi =>
    obtain ⟨t, ht, hR⟩ := h0 _ hi
    exact ⟨t, .init ht, hR⟩
  | step _ hp hst ih =>
    obtain ⟨t, ht, hR⟩ := ih
    obtain ⟨t', hrun, hR'⟩ := hs _ _ _ t ht hR hp hst
    exact ⟨t', ht.runs hrun, hR'⟩

end Gabs.Lib.Lts
