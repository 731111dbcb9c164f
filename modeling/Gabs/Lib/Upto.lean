import Mathlib.Logic.Basic

/-!
# Partial correctness of fallible computations

- `Upto ok e Q`: a result of `e` satisfies `Q`, and a failure of `e` is one of those `ok` tolerates;
- `Upto.bind`, `upto_ite`: the rules for the constructs of a `do` block;
- `Upto.mono`, `Upto.and`: consequence and conjunction;
- `Upto.of_ok`, `Upto.error_ok`: what is read off a run.
-/

namespace Gabs.Lib

universe u v

variable {ε : Type v} {α β : Type u} {ok : ε → Prop} {e : Except ε α} {Q R : α → Prop}

/-- **Partial correctness**: a result satisfies `Q`, and a failure is tolerated. -/
def Upto (ok : ε → Prop) (e : Except ε α) (Q : α → Prop) : Prop :=
  match e with
  | .ok a => Q a
  | .error x => ok x

@[simp] theorem upto_ok {a : α} : Upto ok (.ok a) Q ↔ Q a := Iff.rfl

@[simp] theorem upto_error {x : ε} : Upto ok (.error x : Except ε α) Q ↔ ok x := Iff.rfl

/-- **The rule of sequencing.** -/
theorem Upto.bind {k : α → Except ε β} {S : β → Prop} (he : Upto ok e Q) (hk : ∀ a, Q a → Upto ok (k a) S) :
    Upto ok (e >>= k) S := by
  cases e with
  | ok a => exact hk a he
  | error x => exact he

/-- The rule of consequence. -/
theorem Upto.mono (he : Upto ok e Q) (hQ : ∀ a, Q a → R a) : Upto ok e R := by
  cases e with
  | ok a => exact hQ a he
  | error x => exact he

/-- The rule of conjunction. -/
theorem Upto.and (he : Upto ok e Q) (he' : Upto ok e R) : Upto ok e fun a => Q a ∧ R a := by
  cases e with
  | ok a => exact ⟨he, he'⟩
  | error x => exact he

/-- A branch. -/
theorem upto_ite {c : Prop} [Decidable c] {e' : Except ε α} (h : c → Upto ok e Q) (h' : ¬c → Upto ok e' Q) :
    Upto ok (if c then e else e') Q := by
  split
  · exact h ‹_›
  · exact h' ‹_›

/-- What a result satisfies. -/
theorem Upto.of_ok {a : α} (he : Upto ok e Q) (h : e = .ok a) : Q a := by
  rw [h] at he
  exact he

/-- A failure that is not tolerated does not occur. -/
theorem Upto.error_ok {x : ε} (he : Upto ok e Q) (h : e = .error x) : ok x := by
  rw [h] at he
  exact he

end Gabs.Lib
