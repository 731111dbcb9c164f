import Mathlib.Data.List.Nodup
import Mathlib.Logic.Function.Basic

/-!
# Paths along pointers

- `Path next p l q`: following `next` from `p` visits the nodes of `l` and leads to `q`;
- `path_append`: paths are cut and joined;
- `Path.congr`, `Path.redirect`: changes of pointers outside a path, and of its last pointer;
- `Path.unique`, `Path.nodup`: a path to the end is the only one, and visits no node twice.
-/

namespace Gabs.Lib

variable {α : Type*}

/-- Following `next` from `p` visits the nodes of `l` and leads to `q`. -/
def Path (next : α → Option α) : Option α → List α → Option α → Prop
  | p, [], q => p = q
  | p, a :: l, q => p = some a ∧ Path next (next a) l q

variable {next next' : α → Option α} {p q r : Option α} {l l' : List α} {a : α}

@[simp] theorem path_nil : Path next p [] q ↔ p = q := Iff.rfl

@[simp] theorem path_cons : Path next p (a :: l) q ↔ p = some a ∧ Path next (next a) l q := Iff.rfl

theorem path_append : Path next p (l ++ l') q ↔ ∃ r, Path next p l r ∧ Path next r l' q := by
  induction l generalizing p with
  | nil => simp
  | cons a l ih => simp [ih, and_assoc]

/-- Pointers of other nodes may change. -/
theorem Path.congr (h : Path next p l q) (hn : ∀ a ∈ l, next' a = next a) : Path next' p l q := by
  induction l generalizing p with
  | nil => exact h
  | cons a l ih =>
    rw [path_cons, hn a List.mem_cons_self]
    exact ⟨h.1, ih h.2 fun b hb => hn b (List.mem_cons_of_mem _ hb)⟩

/-- Two paths to the end are one. -/
theorem Path.unique (h : Path next p l none) (h' : Path next p l' none) : l = l' := by
  induction l generalizing p l' with
  | nil =>
    cases l' with
    | nil => rfl
    | cons b l' =>
      rw [path_nil] at h
      rw [h] at h'
      cases h'.1
  | cons a l ih =>
    cases l' with
    | nil =>
      rw [path_nil] at h'
      rw [h'] at h
      cases h.1
    | cons b l' =>
      have hab : a = b := Option.some.inj (h.1.symm.trans h'.1)
      subst hab
      rw [ih h.2 h'.2]

/-- **A path to the end visits no node twice.** -/
theorem Path.nodup (h : Path next p l none) : l.Nodup := by
  induction l generalizing p with
  | nil => exact List.nodup_nil
  | cons a l ih =>
    refine List.nodup_cons.mpr ⟨fun ha => ?_, ih h.2⟩
    obtain ⟨l₁, l₂, rfl⟩ := List.append_of_mem ha
    obtain ⟨r, -, h₂⟩ := path_append.mp h.2
    have hlen := congrArg List.length (h.2.unique h₂.2)
    simp at hlen
    omega

variable [DecidableEq α]

/-- The pointer of a node off the path changes. -/
theorem Path.update (h : Path next p l q) (ha : a ∉ l) (x : Option α) : Path (Function.update next a x) p l q :=
  h.congr fun b hb => Function.update_of_ne (fun e => ha (by rw [← e]; exact hb)) ..

/-- The pointer of the last node changes. -/
theorem Path.redirect (h : Path next p (l ++ [a]) q) (ha : a ∉ l) (x : Option α) :
    Path (Function.update next a x) p (l ++ [a]) x := by
  obtain ⟨r, h₁, h₂, -⟩ := path_append.mp h
  exact path_append.mpr ⟨r, h₁.update ha x, h₂, Function.update_self ..⟩

end Gabs.Lib
