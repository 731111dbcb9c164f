import Mathlib.Data.Set.Card

/-!
# Pointers counted

- `tally s a`: how many of the pointers `s` lead to `a`;
- `Finitary s`: finitely many of them lead anywhere;
- `tally_update`: what a pointer that is redirected changes;
- `tally_pos`, `tally_none`: some pointer leads to `a`, or none does.
-/

namespace Gabs.Lib

variable {κ α : Type*} {s : κ → Option α} {v : Option α} {a : α} {i : κ}

/-- How many of the pointers `s` lead to `a`. -/
noncomputable def tally (s : κ → Option α) (a : α) : Nat := {i | s i = some a}.ncard

/-- Finitely many of the pointers lead anywhere. -/
def Finitary (s : κ → Option α) : Prop := {i | s i ≠ none}.Finite

/-- Those that lead to `a` are finitely many. -/
theorem Finitary.leads (hs : Finitary s) (a : α) : {i | s i = some a}.Finite := by
  apply Set.Finite.subset hs
  intro i hi
  rw [Set.mem_ofPred_eq] at hi ⊢
  rw [hi]
  nofun

theorem finitary_none : Finitary fun _ : κ => (none : Option α) := by
  have hempty : {i : κ | (none : Option α) ≠ none} = ∅ := by simp
  rw [Finitary, hempty]
  exact Set.finite_empty

/-- A pointer that leads to `a` counts. -/
theorem tally_pos (hs : Finitary s) (hi : s i = some a) : 0 < tally s a :=
  (Set.ncard_pos (hs.leads a)).mpr ⟨i, hi⟩

/-- Some pointer counts. -/
theorem exists_of_tally (h : tally s a ≠ 0) : ∃ i, s i = some a := by
  by_contra hno
  have hempty : {i | s i = some a} = ∅ := Set.eq_empty_of_forall_notMem (not_exists.mp hno)
  apply h
  rw [tally, hempty, Set.ncard_empty]

/-- None counts when none leads anywhere. -/
theorem tally_none (hs : ∀ i, s i = none) (a : α) : tally s a = 0 := by
  by_contra hne
  obtain ⟨i, hi⟩ := exists_of_tally hne
  rw [hs i] at hi
  cases hi

theorem Finitary.update [DecidableEq κ] (hs : Finitary s) (i : κ) (v : Option α) :
    Finitary (Function.update s i v) := by
  apply Set.Finite.subset (hs.insert i)
  intro j hj
  by_cases e : j = i
  · exact .inl e
  · rw [Set.mem_ofPred_eq, Function.update_of_ne e] at hj
    exact .inr hj

variable [DecidableEq α]

/-- The pointer `i`, and the others. -/
theorem tally_split (hs : Finitary s) (i : κ) (a : α) :
    tally s a = {j | j ≠ i ∧ s j = some a}.ncard + (s i).toList.count a := by
  have hfin : {j | j ≠ i ∧ s j = some a}.Finite := Set.Finite.subset (hs.leads a) fun j hj => hj.2
  by_cases hi : s i = some a
  · have hset : {j | s j = some a} = insert i {j | j ≠ i ∧ s j = some a} := by
      ext j
      rw [Set.mem_insert_iff, Set.mem_ofPred_eq, Set.mem_ofPred_eq]
      constructor
      · intro hj
        by_cases e : j = i
        · exact .inl e
        · exact .inr ⟨e, hj⟩
      · rintro (rfl | hj)
        · exact hi
        · exact hj.2
    rw [tally, hset, Set.ncard_insert_of_notMem (fun h => h.1 rfl) hfin, hi, Option.toList_some,
      List.count_singleton_self]
  · have hset : {j | s j = some a} = {j | j ≠ i ∧ s j = some a} := by
      ext j
      constructor
      · intro hj
        exact ⟨fun e => hi (e ▸ hj), hj⟩
      · exact And.right
    have hzero : (s i).toList.count a = 0 := by
      rw [List.count_eq_zero, Option.mem_toList]
      exact hi
    rw [tally, hset, hzero, Nat.add_zero]

/-- **A pointer is redirected**: what it led to loses one, what it leads to gains one. -/
theorem tally_update [DecidableEq κ] (hs : Finitary s) (i : κ) (v : Option α) (a : α) :
    tally (Function.update s i v) a + (s i).toList.count a = tally s a + v.toList.count a := by
  have hothers : {j | j ≠ i ∧ Function.update s i v j = some a} = {j | j ≠ i ∧ s j = some a} := by
    ext j
    rw [Set.mem_ofPred_eq, Set.mem_ofPred_eq]
    exact and_congr_right fun hj => by rw [Function.update_of_ne hj]
  rw [tally_split (hs.update i v) i a, tally_split hs i a, hothers, Function.update_self]
  omega

end Gabs.Lib
