import Mathlib.Algebra.GroupWithZero.Nat

/-!
# Small sizes

Runs on fixed inputs have one or two slots, and name them by numerals. That these sizes are not zero is stated here
once, for all systems whose slots are `Fin n`.
-/

namespace Gabs.Lib

instance neZero_one : NeZero 1 := ⟨Nat.one_ne_zero⟩

instance neZero_two : NeZero 2 := ⟨Nat.succ_ne_zero 1⟩

end Gabs.Lib
