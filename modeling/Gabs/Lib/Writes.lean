import Mathlib.Data.List.Nodup
import Mathlib.Logic.Function.Basic

/-!
# Sequences of writes

- `writes m w`: the memory `m` after the writes `w`, in order;
- `writes_of_notMem`, `writes_const`, `writes_mem`: what is read where nothing, one value only, or something is written;
- `map_writes`: writes to different addresses are read back;
- `writes_masked`: a value that is written over is read nowhere;
- `zip_split`, `exists_repeated`: lists of addresses.
-/

namespace Gabs.Lib

variable {α β : Type*} [DecidableEq α] {m : α → β} {w w' : List (α × β)} {a b : α} {x y : β}

/-- The memory `m` after the writes `w`, in order. -/
def writes (m : α → β) (w : List (α × β)) : α → β := w.foldl (fun m p => Function.update m p.1 p.2) m

@[simp] theorem writes_nil : writes m [] = m := rfl

@[simp] theorem writes_cons : writes m ((a, x) :: w) = writes (Function.update m a x) w := rfl

theorem writes_append : writes m (w ++ w') = writes (writes m w) w' := List.foldl_append

/-- Where nothing is written. -/
theorem writes_of_notMem (ha : a ∉ w.map Prod.fst) : writes m w a = m a := by
  induction w generalizing m with
  | nil => rfl
  | cons p w ih =>
    rw [List.map_cons, List.mem_cons, not_or] at ha
    exact (ih ha.2).trans (Function.update_of_ne ha.1 ..)

/-- Where something is written, some value that is written is read. -/
theorem writes_mem (ha : a ∈ w.map Prod.fst) : ∃ p ∈ w, writes m w a = p.2 := by
  induction w generalizing m with
  | nil => cases ha
  | cons p w ih =>
    by_cases hw : a ∈ w.map Prod.fst
    · obtain ⟨q, hq, hread⟩ := ih (m := Function.update m p.1 p.2) hw
      exact ⟨q, List.mem_cons_of_mem _ hq, hread⟩
    · rw [List.map_cons] at ha
      obtain rfl : a = p.1 := (List.mem_cons.mp ha).resolve_right hw
      exact ⟨p, List.mem_cons_self, (writes_of_notMem hw).trans (Function.update_self ..)⟩

/-- Where one value only is written. -/
theorem writes_const (ha : a ∈ w.map Prod.fst) (hw : ∀ p ∈ w, p.2 = x) : writes m w a = x := by
  obtain ⟨p, hp, hread⟩ := writes_mem (m := m) ha
  rw [hread, hw p hp]

/-- **Writes to different addresses are read back.** -/
theorem map_writes {l : List α} {d : List β} (hl : l.Nodup) (hd : l.length = d.length) :
    l.map (writes m (l.zip d)) = d := by
  induction l generalizing m d with
  | nil =>
    rw [List.length_nil] at hd
    exact (List.length_eq_zero_iff.mp hd.symm).symm
  | cons a l ih =>
    cases d with
    | nil => cases hd
    | cons x d =>
      obtain ⟨ha, hl⟩ := List.nodup_cons.mp hl
      have hkeys : a ∉ (l.zip d).map Prod.fst := fun h => by
        obtain ⟨p, hp, rfl⟩ := List.mem_map.mp h
        exact ha (List.of_mem_zip hp).1
      have hfirst : writes m ((a :: l).zip (x :: d)) a = x :=
        (writes_of_notMem hkeys).trans (Function.update_self ..)
      rw [List.map_cons, hfirst, List.zip_cons_cons, writes_cons, ih hl (Nat.succ.inj hd)]

/-- **A value that is written over is read nowhere**: all others are `x`. -/
theorem writes_masked (hw : ∀ p ∈ w, p.2 = x) (hw' : ∀ p ∈ w', p.2 = x) (ha : a ∈ w'.map Prod.fst)
    (hb : b ∈ (w ++ (a, y) :: w').map Prod.fst) : writes m (w ++ (a, y) :: w') b = x := by
  rw [writes_append, writes_cons]
  by_cases hlast : b ∈ w'.map Prod.fst
  · exact writes_const hlast hw'
  · have hne : b ≠ a := fun e => hlast (by rw [e]; exact ha)
    rw [writes_of_notMem hlast, Function.update_of_ne hne]
    rw [List.map_append, List.map_cons, List.mem_append, List.mem_cons] at hb
    exact writes_const (hb.resolve_right fun h => h.elim hne hlast) hw

omit [DecidableEq α] in
/-- The second list is cut where the first one is. -/
theorem zip_split (l l' : List α) (d : List β) :
    (l ++ l').zip d = l.zip (d.take l.length) ++ l'.zip (d.drop l.length) := by
  induction l generalizing d with
  | nil => rfl
  | cons a l ih =>
    cases d with
    | nil => simp
    | cons x d =>
      simp only [List.cons_append, List.zip_cons_cons, List.length_cons, List.take_succ_cons, List.drop_succ_cons, ih]

omit [DecidableEq α] in
/-- Only as much of the first list counts as the second one is long. -/
theorem zip_take (l : List α) (d : List β) : (l.take d.length).zip d = l.zip d := by
  induction l generalizing d with
  | nil => rw [List.take_nil]
  | cons a l ih =>
    cases d with
    | nil => rfl
    | cons x d => simp only [List.length_cons, List.take_succ_cons, List.zip_cons_cons, ih]

omit [DecidableEq α] in
theorem map_fst_zip (l : List α) (d : List β) : (l.zip d).map Prod.fst = l.take d.length := by
  induction l generalizing d with
  | nil => rw [List.take_nil]; rfl
  | cons a l ih =>
    cases d with
    | nil => rfl
    | cons x d => simp only [List.length_cons, List.take_succ_cons, List.zip_cons_cons, List.map_cons, ih]

/-- Where an address is repeated. -/
theorem exists_repeated {l : List α} (hl : ¬ l.Nodup) : ∃ l₁ a l₂, l = l₁ ++ a :: l₂ ∧ a ∈ l₂ := by
  induction l with
  | nil => exact absurd List.nodup_nil hl
  | cons a l ih =>
    by_cases ha : a ∈ l
    · exact ⟨[], a, l, rfl, ha⟩
    · obtain ⟨l₁, b, l₂, rfl, hb⟩ := ih fun h => hl (List.nodup_cons.mpr ⟨ha, h⟩)
      exact ⟨a :: l₁, b, l₂, rfl, hb⟩

end Gabs.Lib
