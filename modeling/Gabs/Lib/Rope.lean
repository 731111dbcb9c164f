import Mathlib.Data.List.Basic

/-!
# Ropes: sequences in pieces with room

- `Piece`: some elements, and how many more fit before and behind them;
- `Rope.elems`: the sequence that the pieces of a rope make up;
- `Rope.front`, `Rope.back`, `Rope.slice`: elements are given up at the ends;
- `Rope.fill`: elements are put into the room, piece by piece; `Rope.Tight`: the room is at the end;
- `Rope.cut`: a rope is cut between two pieces.
-/

namespace Gabs.Lib

universe u

variable {α : Type u}

/-- Some elements, and how many more fit before them (`head`) and behind them (`room`). -/
structure Piece (α : Type u) where
  head : Nat
  elems : List α
  room : Nat
  deriving DecidableEq

namespace Piece

/-- A piece without elements. -/
def blank (n : Nat) : Piece α := ⟨0, [], n⟩

/-- A piece without room. -/
def full (a : List α) : Piece α := ⟨0, a, 0⟩

/-- The first `n` elements are given up. -/
def advance (p : Piece α) (n : Nat) : Piece α := ⟨p.head + n, p.elems.drop n, p.room⟩

/-- The first `n` elements are kept. -/
def resize (p : Piece α) (n : Nat) : Piece α := ⟨p.head, p.elems.take n, p.room + (p.elems.length - n)⟩

/-- Elements are put before the others. -/
def push (p : Piece α) (a : List α) : Piece α := ⟨p.head - a.length, a ++ p.elems, p.room⟩

/-- Elements are put behind the others. -/
def append (p : Piece α) (a : List α) : Piece α := ⟨p.head, p.elems ++ a, p.room - a.length⟩

@[simp] theorem advance_zero (p : Piece α) : p.advance 0 = p := rfl

end Piece

/-- A sequence in pieces. -/
abbrev Rope (α : Type u) : Type u := List (Piece α)

namespace Rope

variable {r s t : Rope α} {p : Piece α} {a : List α} {n : Nat}

/-- **The sequence** that the pieces make up. -/
def elems (r : Rope α) : List α := r.flatMap Piece.elems

/-- The number of elements. -/
def size (r : Rope α) : Nat := r.elems.length

@[simp] theorem elems_nil : elems ([] : Rope α) = [] := rfl

@[simp] theorem elems_cons (p : Piece α) (r : Rope α) : elems (p :: r) = p.elems ++ elems r := rfl

@[simp] theorem elems_append (r s : Rope α) : elems (r ++ s) = elems r ++ elems s := List.flatMap_append

@[simp] theorem size_nil : size ([] : Rope α) = 0 := rfl

@[simp] theorem size_cons (p : Piece α) (r : Rope α) : size (p :: r) = p.elems.length + size r := List.length_append

@[simp] theorem size_append (r s : Rope α) : size (r ++ s) = size r + size s := by
  rw [size, elems_append, List.length_append, size, size]

/-! ## Giving up elements -/

/-- The first `n` elements are given up, with the pieces that end before the next one. -/
def front : Nat → Rope α → Rope α
  | _, [] => []
  | n, p :: r => if n < p.elems.length then p.advance n :: r else front (n - p.elems.length) r

/-- The first `n` elements are kept, up to the piece of the last of them. -/
def back : Nat → Rope α → Rope α
  | _, [] => []
  | n, p :: r => if n ≤ p.elems.length then [p.resize n] else p :: back (n - p.elems.length) r

/-- The `n` elements from `offset` on. -/
def slice (offset n : Nat) (r : Rope α) : Rope α := back n (if offset = 0 then r else front offset r)

theorem front_elems (n : Nat) (r : Rope α) : elems (front n r) = (elems r).drop n := by
  induction r generalizing n with
  | nil => exact List.drop_nil.symm
  | cons p r ih =>
    rw [front, elems_cons]
    split
    · rename_i hlt
      rw [elems_cons, List.drop_append_of_le_length (Nat.le_of_lt hlt)]
      rfl
    · rename_i hge
      rw [ih, List.drop_append, List.drop_eq_nil_of_le (Nat.le_of_not_lt hge), List.nil_append]

theorem back_elems (n : Nat) (r : Rope α) : elems (back n r) = (elems r).take n := by
  induction r generalizing n with
  | nil => exact List.take_nil.symm
  | cons p r ih =>
    rw [back, elems_cons]
    split
    · rename_i hle
      rw [elems_cons, elems_nil, List.append_nil, List.take_append_of_le_length hle]
      rfl
    · rename_i hlt
      rw [elems_cons, ih, List.take_append, List.take_of_length_le (Nat.le_of_not_le hlt)]

/-- **A slice** of the rope is one of the sequence. -/
theorem slice_elems (offset n : Nat) (r : Rope α) : elems (slice offset n r) = ((elems r).drop offset).take n := by
  rw [slice, back_elems]
  split
  · rename_i hzero
    rw [hzero, List.drop_zero]
  · rw [front_elems]

/-- Where the front ends in the piece `p`. -/
theorem front_split (hlo : size r ≤ n) (hhi : n < size r + p.elems.length) (s : Rope α) :
    front n (r ++ p :: s) = p.advance (n - size r) :: s := by
  induction r generalizing n with
  | nil =>
    rw [size_nil] at hhi ⊢
    rw [List.nil_append, front, if_pos (by omega), Nat.sub_zero]
  | cons q r ih =>
    rw [size_cons] at hlo hhi ⊢
    rw [List.cons_append, front, if_neg (by omega), ih (by omega) (by omega), Nat.sub_sub]

/-- Where the front is everything. -/
theorem front_all (hle : size r ≤ n) : front n r = [] := by
  induction r generalizing n with
  | nil => rfl
  | cons q r ih =>
    rw [size_cons] at hle
    rw [front, if_neg (by omega), ih (by omega)]

/-- Where the last element that is kept is in the piece `p`. -/
theorem back_split (hlo : r = [] ∨ size r < n) (hhi : n ≤ size r + p.elems.length) (s : Rope α) :
    back n (r ++ p :: s) = r ++ [p.resize (n - size r)] := by
  induction r generalizing n with
  | nil =>
    rw [size_nil] at hhi ⊢
    rw [List.nil_append, back, if_pos (by omega), Nat.sub_zero]
    rfl
  | cons q r ih =>
    have hlt : size (q :: r) < n := hlo.resolve_left (List.cons_ne_nil q r)
    rw [size_cons] at hlt hhi ⊢
    rw [List.cons_append, back, if_neg (by omega), ih (.inr (by omega)) (by omega), Nat.sub_sub]
    rfl

/-- Where everything is kept. -/
theorem back_all (hlt : r = [] ∨ size r < n) : back n r = r := by
  induction r generalizing n with
  | nil => rfl
  | cons q r ih =>
    have hlt : size (q :: r) < n := hlt.resolve_left (List.cons_ne_nil q r)
    rw [size_cons] at hlt
    rw [back, if_neg (by omega), ih (.inr (by omega))]

/-! ## Filling the room -/

/-- The elements `a` are put into the room of the pieces, as many into each as it has room for. -/
def fill : List α → Rope α → Rope α
  | _, [] => []
  | a, p :: r => p.append (a.take p.room) :: fill (a.drop p.room) r

/-- The room behind the last element. -/
def tail (r : Rope α) : Nat := r.getLast?.elim 0 Piece.room

/-- **The room is at the end**: only the last piece has any. -/
def Tight (r : Rope α) : Prop := ∀ p ∈ r.dropLast, p.room = 0

instance (r : Rope α) : Decidable r.Tight := inferInstanceAs (Decidable (∀ p ∈ _, _))

theorem tight_cons {q : Piece α} : Tight (p :: q :: r) ↔ p.room = 0 ∧ Tight (q :: r) := by
  rw [Tight, List.dropLast_cons_cons, List.forall_mem_cons, Tight]

/-- **Filling appends**, where the room is at the end. -/
theorem fill_elems (ht : r.Tight) (a : List α) : elems (fill a r) = elems r ++ a.take r.tail := by
  induction r with
  | nil => simp [fill, tail]
  | cons p r ih =>
    cases r with
    | nil => simp [fill, tail, Piece.append]
    | cons q r =>
      obtain ⟨hzero, ht⟩ := tight_cons.mp ht
      have hlast : tail (p :: q :: r) = tail (q :: r) := by rw [tail, List.getLast?_cons_cons, tail]
      rw [fill, elems_cons, hzero, List.drop_zero, ih ht, hlast, elems_cons p, List.append_assoc]
      simp [Piece.append]

/-! ## Cutting -/

/-- The pieces before the `n`-th element and those from it on, where a piece begins there. Pieces without elements at
that place come first. -/
def cut : Nat → Rope α → Option (Rope α × Rope α)
  | n, [] => if n = 0 then some ([], []) else none
  | n, p :: r =>
    if n < p.elems.length then if n = 0 then some ([], p :: r) else none
    else (cut (n - p.elems.length) r).map fun c => (p :: c.1, c.2)

/-- **What is cut** is the rope, at the place asked for. -/
theorem cut_eq (hc : cut n r = some (s, t)) : r = s ++ t ∧ size s = n := by
  induction r generalizing n s with
  | nil =>
    rw [cut] at hc
    split at hc
    · rename_i hzero
      cases hc
      exact ⟨rfl, hzero.symm⟩
    · cases hc
  | cons p r ih =>
    rw [cut] at hc
    split at hc
    · split at hc
      · rename_i hzero
        cases hc
        exact ⟨rfl, hzero.symm⟩
      · cases hc
    · rename_i hge
      obtain ⟨c, hc', hst⟩ := Option.map_eq_some_iff.mp hc
      obtain ⟨c₁, c₂⟩ := c
      cases hst
      obtain ⟨rfl, hsize⟩ := ih hc'
      refine ⟨rfl, ?_⟩
      rw [size_cons, hsize]
      omega

/-- Where the cut is. -/
theorem cut_split (hs : size s = n) (ht : ∀ p ∈ t.head?, 0 < p.elems.length) : cut n (s ++ t) = some (s, t) := by
  induction s generalizing n with
  | nil =>
    rw [size_nil] at hs
    cases t with
    | nil => rw [List.nil_append, cut, if_pos hs.symm]
    | cons p t =>
      have hpos : 0 < p.elems.length := ht p rfl
      rw [List.nil_append, cut, if_pos (by omega), if_pos hs.symm]
  | cons p s ih =>
    rw [size_cons] at hs
    rw [List.cons_append, cut, if_neg (by omega), ih (by omega)]
    rfl

end Rope

end Gabs.Lib
