import Mathlib.Init

/-!
# Loops that end, whatever their bodies do

- `Within R done k s`: from `s`, at most `k` rounds of `R` are made before `done` holds, and until then there is a next
  round;
- `Within.of_measure`: the rule of a measure that every round decreases.
-/

namespace Gabs.Lib

variable {σ : Type*} {R : σ → σ → Prop} {done : σ → Prop}

/-- **At most `k` rounds until `done` holds**, and no round that cannot be made before. -/
inductive Within (R : σ → σ → Prop) (done : σ → Prop) : Nat → σ → Prop
  | here {k : Nat} {s : σ} : done s → Within R done k s
  | after {k : Nat} {s : σ} : (∃ s', R s s') → (∀ s', R s s' → Within R done k s') → Within R done (k + 1) s

/-- **The rule of a measure.** `I` holds between the rounds, and where it does the loop is done or goes on. -/
theorem Within.of_measure {I : σ → Prop} {m : σ → Nat} (hgo : ∀ s, I s → done s ∨ ∃ s', R s s')
    (hround : ∀ s s', I s → R s s' → I s' ∧ m s' < m s) {k : Nat} : ∀ {s : σ}, I s → m s ≤ k → Within R done k s := by
  induction k with
  | zero =>
    intro s hi hm
    rcases hgo s hi with hdone | ⟨s', hr⟩
    · exact .here hdone
    · exact absurd (Nat.lt_of_lt_of_le (hround s s' hi hr).2 hm) (Nat.not_lt_zero _)
  | succ k ih =>
    intro s hi hm
    rcases hgo s hi with hdone | hnext
    · exact .here hdone
    · refine .after hnext fun s' hr => ?_
      obtain ⟨hi', hlt⟩ := hround s s' hi hr
      exact ih hi' (Nat.le_of_lt_succ (Nat.lt_of_lt_of_le hlt hm))

end Gabs.Lib
