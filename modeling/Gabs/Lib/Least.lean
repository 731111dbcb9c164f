import Mathlib.Data.List.MinMax
import Mathlib.Data.Prod.Lex

/-!
# The least element of a filtered list

`List.argmin f l` is the first element of `l` at which `f` is least. Elements that are above all others may be left
out of the list (`argmin_filter_of_lt`).
-/

namespace Gabs.Lib

variable {α β : Type*} [LinearOrder β] {f : α → β} {p q : α → Bool}

/-- What is least among the elements of `p` is least among those of `q`, if the others are above them. -/
theorem argmin_filter_of_lt (hpq : ∀ a, p a = true → q a = true)
    (hlt : ∀ a b, p a = true → q b = true → p b = false → f a < f b) :
    ∀ {l : List α} {m : α}, (l.filter p).argmin f = some m → (l.filter q).argmin f = some m := by
  intro l
  induction l with
  | nil => exact fun h => h
  | cons a l ih =>
    intro m h
    cases hp : p a with
    | true =>
      rw [List.filter_cons_of_pos hp, List.argmin_cons] at h
      rw [List.filter_cons_of_pos (hpq a hp), List.argmin_cons]
      cases hl : (l.filter p).argmin f with
      | some c => rw [ih hl]; rwa [hl] at h
      | none =>
        rw [hl] at h
        cases hq : (l.filter q).argmin f with
        | none => exact h
        | some c =>
          obtain ⟨hc, hqc⟩ := List.mem_filter.mp (List.argmin_mem hq)
          have hpc : p c = false := by
            by_contra hpc
            have hmem : c ∈ l.filter p := List.mem_filter.mpr ⟨hc, by simpa using hpc⟩
            rw [List.argmin_eq_none.mp hl] at hmem
            cases hmem
          have hac := hlt a c hp hqc hpc
          dsimp only
          rwa [if_neg (not_lt_of_gt hac)]
    | false =>
      rw [List.filter_cons_of_neg (by simp [hp])] at h
      have hm := ih h
      cases hq : q a with
      | false => rwa [List.filter_cons_of_neg (by simp [hq])]
      | true =>
        have hpm := (List.mem_filter.mp (List.argmin_mem h)).2
        rw [List.filter_cons_of_pos hq, List.argmin_cons, hm]
        dsimp only
        rw [if_pos (hlt m a hpm hq hp)]

end Gabs.Lib
