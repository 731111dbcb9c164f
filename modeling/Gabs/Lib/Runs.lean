import Mathlib.Data.List.Basic
import Mathlib.Data.List.Perm.Basic

/-!
# Inserting one run

- `count_strict`: a list that gains an occurrence;
- `not_run`: copies of `y` on both sides of an `x` are not inserted as one run.
-/

namespace Gabs.Lib

variable {α β : Type*} [DecidableEq β]

/-- Under a map that keeps each `y` and makes another one, there are more of them. -/
theorem count_strict {f g : α → β} {y : β} {l : List α} (hfg : ∀ a ∈ l, f a = y → g a = y) {a : α} (ha : a ∈ l)
    (hf : f a ≠ y) (hg : g a = y) : (l.map f).count y < (l.map g).count y := by
  have hle : ∀ l' : List α, (∀ a ∈ l', f a = y → g a = y) → (l'.map f).count y ≤ (l'.map g).count y := fun l' h' => by
    induction l' with
    | nil => exact Nat.le_refl _
    | cons b l' ih =>
      have hrest := ih fun a ha => h' a (List.mem_cons_of_mem _ ha)
      have hb := h' b List.mem_cons_self
      rw [List.map_cons, List.map_cons, List.count_cons, List.count_cons]
      by_cases hfb : f b = y
      · simp only [hfb, hb hfb, BEq.rfl, if_true]
        omega
      · rw [if_neg (by simpa using hfb)]
        omega
  obtain ⟨l₁, l₂, rfl⟩ := List.append_of_mem ha
  have h₁ := hle l₁ fun b hb => hfg b (List.mem_append_left _ hb)
  have h₂ := hle l₂ fun b hb => hfg b (List.mem_append_right _ (List.mem_cons_of_mem _ hb))
  rw [List.map_append, List.map_append, List.map_cons, List.map_cons, List.count_append, List.count_append,
    List.count_cons, List.count_cons, if_neg (by simpa using hf), if_pos (by simpa using hg)]
  omega

/-- `m` letters, `m` of which are `y`, do not begin with another one. -/
theorem count_lt {x y : β} (hxy : x ≠ y) (l : List β) : (x :: l).count y < (x :: l).length := by
  rw [List.count_cons_of_ne hxy]
  exact Nat.lt_succ_of_le List.count_le_length

omit [DecidableEq β] in
/-- A list that is continued by an `x` is continued so in a longer one. -/
theorem cons_split {x : β} {s t a b : List β} (h : s ++ x :: a = t ++ b) (hlt : s.length < t.length) :
    ∃ c, t = s ++ x :: c := by
  rcases List.append_eq_append_iff.mp h with ⟨t', rfl, ht⟩ | ⟨s', rfl, -⟩
  · cases t' with
    | nil => simp at hlt
    | cons z c =>
      obtain rfl : x = z := (List.cons.inj ht).1
      exact ⟨c, rfl⟩
  · rw [List.length_append] at hlt
    omega

omit [DecidableEq β] in
/-- The shorter beginning of a list is one of the longer. -/
theorem append_split {s t a b : List β} (h : s ++ a = t ++ b) (hle : s.length ≤ t.length) : ∃ c, t = s ++ c := by
  rcases List.append_eq_append_iff.mp h with ⟨c, rfl, -⟩ | ⟨c, rfl, -⟩
  · exact ⟨c, rfl⟩
  · rw [List.length_append] at hle
    obtain rfl : c = [] := List.length_eq_zero_iff.mp (by omega)
    exact ⟨[], by simp⟩

/-- Before the `x` there are `m` copies of `y` more than there were, `0 < m < n`: they are not part of one run of `n`.
-/
theorem not_run {x y : β} (hxy : x ≠ y) {m n : Nat} (hm : 0 < m) (hmn : m < n) {d₁ d₂ e₁ e₂ u v : List β}
    (he : e₁.Perm (d₁ ++ List.replicate m y)) (hd : d₁ ++ x :: d₂ = u ++ v) :
    e₁ ++ x :: e₂ ≠ u ++ (List.replicate n y ++ v) := by
  intro hrun
  have hlen : e₁.length = d₁.length + m := by rw [he.length_eq, List.length_append, List.length_replicate]
  have hcount : e₁.count y = d₁.count y + m := by rw [he.count_eq, List.count_append, List.count_replicate_self]
  rcases Nat.lt_or_ge d₁.length u.length with hlt | hge
  · -- The run begins behind the `x`, which comes first after `d₁`.
    obtain ⟨u', rfl⟩ := cons_split hd hlt
    rw [List.append_assoc, List.cons_append] at hrun
    obtain ⟨s, rfl⟩ := cons_split hrun.symm (by omega)
    have hs := count_lt hxy s
    rw [List.count_append] at hcount
    rw [List.length_append] at hlen
    omega
  · -- The run begins in `d₁`; what follows it there would be `n - m` times `y`, but begins with the `x`.
    obtain ⟨v₂, rfl⟩ := append_split hd.symm hge
    rw [List.append_assoc] at hd
    obtain rfl := List.append_cancel_left hd
    rw [List.length_append] at hlen
    rw [List.count_append] at hcount
    obtain ⟨s, rfl⟩ := append_split hrun.symm (by omega)
    rw [List.append_assoc] at hrun
    have hrest := List.append_cancel_left hrun
    rw [List.length_append] at hlen
    rw [List.count_append] at hcount
    rcases Nat.lt_or_ge s.length n with hlt | hge
    · obtain ⟨c, hc⟩ := cons_split hrest (by rwa [List.length_replicate])
      have hx : x ∈ List.replicate n y := by rw [hc]; simp
      exact hxy (List.eq_of_mem_replicate hx)
    · obtain ⟨s', rfl⟩ := append_split hrest.symm (by rwa [List.length_replicate])
      rw [List.append_assoc] at hrest
      have hrest := List.append_cancel_left hrest
      rw [List.length_append, List.length_replicate] at hlen
      rw [List.count_append, List.count_replicate_self] at hcount
      obtain ⟨c, rfl⟩ := cons_split hrest (by omega)
      have hc := count_lt hxy c
      rw [List.length_cons] at hc
      rw [List.length_append, List.length_cons] at hlen
      rw [List.count_append] at hcount
      omega

end Gabs.Lib
