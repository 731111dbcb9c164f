import Mathlib.Logic.Basic

/-!
# Two fallible computations in tandem

- `Tandem φ e e'`: both computations give results, which `φ` relates, or both fail in the same way;
- `Tandem.bind`, `tandem_ite`: the rules for the constructs of a `do` block;
- `Tandem.mono`, `Tandem.mono_of_ok`: consequence; `Tandem.of_ok`, `tandem_eq`: what is read off.
-/

namespace Gabs.Lib

universe u v

variable {ε : Type v} {α α' β β' : Type u} {φ χ : α → α' → Prop} {ψ : β → β' → Prop} {e : Except ε α} {e' : Except ε α'}

/-- **Two computations go in tandem**: both give results, which `φ` relates, or both fail in the same way. -/
def Tandem (φ : α → α' → Prop) (e : Except ε α) (e' : Except ε α') : Prop :=
  match e, e' with
  | .ok a, .ok a' => φ a a'
  | .error x, .error x' => x = x'
  | _, _ => False

@[simp] theorem tandem_ok {a : α} {a' : α'} : Tandem φ (.ok a : Except ε α) (.ok a') ↔ φ a a' := Iff.rfl

/-- **The rule of sequencing.** -/
theorem Tandem.bind {k : α → Except ε β} {k' : α' → Except ε β'} (he : Tandem φ e e')
    (hk : ∀ a a', φ a a' → Tandem ψ (k a) (k' a')) : Tandem ψ (e >>= k) (e' >>= k') := by
  cases e with
  | ok a =>
    cases e' with
    | ok a' => exact hk a a' he
    | error x' => exact he.elim
  | error x =>
    cases e' with
    | ok a' => exact he.elim
    | error x' => exact he

/-- The rule of consequence, for what is known of the result of the first one. -/
theorem Tandem.mono_of_ok (he : Tandem φ e e') (h : ∀ a a', e = .ok a → φ a a' → χ a a') : Tandem χ e e' := by
  cases e with
  | ok a =>
    cases e' with
    | ok a' => exact h a a' rfl he
    | error x' => exact he.elim
  | error x =>
    cases e' with
    | ok a' => exact he.elim
    | error x' => exact he

/-- The rule of consequence. -/
theorem Tandem.mono (he : Tandem φ e e') (h : ∀ a a', φ a a' → χ a a') : Tandem χ e e' :=
  he.mono_of_ok fun a a' _ ha => h a a' ha

/-- A branch that both take. -/
theorem tandem_ite {c c' : Prop} [Decidable c] [Decidable c'] {f : Except ε α} {f' : Except ε α'} (hc : c ↔ c')
    (h : c → Tandem φ e e') (h' : ¬c → Tandem φ f f') : Tandem φ (if c then e else f) (if c' then e' else f') := by
  by_cases hcond : c
  · rw [if_pos hcond, if_pos (hc.mp hcond)]
    exact h hcond
  · rw [if_neg hcond, if_neg fun h => hcond (hc.mpr h)]
    exact h' hcond

/-- What one of them answers, the other one answers, too. -/
theorem Tandem.of_ok {a : α} (he : Tandem φ e e') (h : e = .ok a) : ∃ a', e' = .ok a' ∧ φ a a' := by
  subst h
  cases e' with
  | ok a' => exact ⟨a', rfl, he⟩
  | error x' => exact he.elim

/-- Computations that give the same. -/
theorem tandem_eq {f : Except ε α} : Tandem Eq e f ↔ e = f := by
  constructor
  · intro he
    cases e with
    | ok a =>
      cases f with
      | ok b => exact congrArg Except.ok he
      | error x' => exact he.elim
    | error x =>
      cases f with
      | ok b => exact he.elim
      | error x' => exact congrArg Except.error he
  · rintro rfl
    cases e with
    | ok a => exact rfl
    | error x => exact rfl

end Gabs.Lib
