import Mathlib.Data.List.Pairwise
import Mathlib.Data.List.Sort
import Mathlib.Data.Prod.Lex

/-!
# Agendas

An agenda lists appointments, each a time and an item, in the order in which they fall due. Appointments for the same
time stand in the order in which they were made.

- `schedule`, `cancel`, `due`: an appointment is made, after those for the same time; an item has no appointment any
  more; the first appointment, if it is due;
- `Queued key p l`: the items of `p` have a time and a ticket each, and `l` is the agenda that lists them in this order.
  There is at most one such list (`Queued.unique`), and sorting finds it (`queued_listing`);
- `Queued.schedule`, `Queued.cancel`, `Queued.due_some`: where tickets grow, the operations on the items are those on
  their agenda.
-/

namespace Gabs.Lib.Agenda

variable {τ κ ι : Type*} [LinearOrder τ] [LinearOrder κ]

/-- An appointment for item `x` at time `t`. -/
def schedule (t : τ) (x : ι) (l : List (τ × ι)) : List (τ × ι) := l.orderedInsert (fun a b => a.1 < b.1) (t, x)

/-- The appointments of item `x` are dropped. -/
def cancel [DecidableEq ι] (x : ι) (l : List (τ × ι)) : List (τ × ι) := l.filter fun a => a.2 ≠ x

/-- What is due first until `e`. -/
def due (e : τ) (l : List (τ × ι)) : Option (τ × ι) := l.head?.filter fun a => a.1 ≤ e

/-- The items of a list in the order of their keys, with their times. -/
def listing (key : ι → τ ×ₗ κ) (xs : List ι) : List (τ × ι) :=
  (xs.insertionSort fun i j => key i ≤ key j).map fun i => ((ofLex (key i)).1, i)

/-- **The agenda of the items of `p`**, ordered by their times and then by their tickets. -/
structure Queued (key : ι → τ ×ₗ κ) (p : ι → Prop) (l : List (τ × ι)) : Prop where
  sorted : l.Pairwise fun a b => key a.2 < key b.2
  mem : ∀ a, a ∈ l ↔ p a.2 ∧ (ofLex (key a.2)).1 = a.1

variable {key key' : ι → τ ×ₗ κ} {p p' : ι → Prop} {l l' : List (τ × ι)} {x : ι} {e t : τ} {k : κ}

theorem mem_schedule {a : τ × ι} : a ∈ schedule t x l ↔ a = (t, x) ∨ a ∈ l := List.mem_orderedInsert _

omit [LinearOrder τ] in
theorem mem_cancel [DecidableEq ι] {a : τ × ι} : a ∈ cancel x l ↔ a ∈ l ∧ a.2 ≠ x := by simp [cancel]

omit [LinearOrder τ] in
/-- An item that has no appointment. -/
theorem cancel_of_notMem [DecidableEq ι] (h : ∀ a ∈ l, a.2 ≠ x) : cancel x l = l := by
  apply List.filter_eq_self.mpr
  intro a ha
  exact decide_eq_true (h a ha)

/-- The new appointment comes after the others that are not later, and before those that are. -/
theorem pairwise_schedule {r : τ × ι → τ × ι → Prop} (hl : l.Pairwise r)
    (hm : ∀ a ∈ l, ∀ b ∈ l, r a b → a.1 ≤ b.1) (hlt : ∀ a ∈ l, t < a.1 → r (t, x) a)
    (hle : ∀ a ∈ l, a.1 ≤ t → r a (t, x)) : (schedule t x l).Pairwise r := by
  induction l with
  | nil => exact List.pairwise_singleton ..
  | cons b l ih =>
    obtain ⟨hb, hl'⟩ := List.pairwise_cons.mp hl
    rw [schedule, List.orderedInsert_cons]
    split
    · rename_i hn
      refine List.pairwise_cons.mpr ⟨fun a ha => hlt a ha ?_, hl⟩
      rcases List.mem_cons.mp ha with rfl | ha'
      · exact hn
      · exact lt_of_lt_of_le hn (hm b List.mem_cons_self a ha (hb a ha'))
    · rename_i hn
      have ih := ih hl' (fun a ha c hc => hm a (List.mem_cons_of_mem _ ha) c (List.mem_cons_of_mem _ hc))
        (fun a ha => hlt a (List.mem_cons_of_mem _ ha)) (fun a ha => hle a (List.mem_cons_of_mem _ ha))
      refine List.pairwise_cons.mpr ⟨fun a ha => ?_, ih⟩
      rcases mem_schedule.mp ha with rfl | ha
      · exact hle b List.mem_cons_self (not_lt.mp hn)
      · exact hb a ha

/-! ## The agenda of a set of items -/

/-- **There is one agenda.** -/
theorem Queued.unique (h : Queued key p l) (h' : Queued key p l') : l = l' := by
  have : Std.Irrefl fun a b : τ × ι => key a.2 < key b.2 := ⟨fun a => lt_irrefl _⟩
  have : Std.Antisymm fun a b : τ × ι => key a.2 < key b.2 := ⟨fun a b hab hba => absurd hba hab.asymm⟩
  exact h.sorted.eq_of_mem_iff h'.sorted fun a => (h.mem a).trans (h'.mem a).symm

/-- **Sorting finds it**, if no two items have the same key. -/
theorem queued_listing {xs : List ι} (hnd : xs.Nodup) (hinj : ∀ i ∈ xs, ∀ j ∈ xs, key i = key j → i = j) :
    Queued key (· ∈ xs) (listing key xs) := by
  have : Std.Total fun i j : ι => key i ≤ key j := ⟨fun i j => le_total _ _⟩
  have : IsTrans ι fun i j => key i ≤ key j := ⟨fun i j k => le_trans⟩
  have hperm := List.perm_insertionSort (fun i j => key i ≤ key j) xs
  have hsorted := List.pairwise_insertionSort (fun i j => key i ≤ key j) xs
  refine ⟨List.pairwise_map.mpr ?_, fun a => ?_⟩
  · refine (hsorted.and (hperm.nodup_iff.mpr hnd)).imp_of_mem ?_
    intro i j hi hj hij
    exact lt_of_le_of_ne hij.1 fun he => hij.2 (hinj i (hperm.mem_iff.mp hi) j (hperm.mem_iff.mp hj) he)
  · rw [listing, List.mem_map]
    constructor
    · rintro ⟨i, hi, rfl⟩
      exact ⟨hperm.mem_iff.mp hi, rfl⟩
    · intro ha
      exact ⟨a.2, hperm.mem_iff.mpr ha.1, Prod.ext ha.2 rfl⟩

/-- The same items with the same keys. -/
theorem Queued.congr (h : Queued key p l) (hp : ∀ i, p' i ↔ p i) (hk : ∀ i, p i → key' i = key i) :
    Queued key' p' l := by
  have hmem : ∀ a ∈ l, key' a.2 = key a.2 := fun a ha => hk a.2 ((h.mem a).mp ha).1
  constructor
  · refine h.sorted.imp_of_mem ?_
    intro a b ha hb hab
    rwa [hmem a ha, hmem b hb]
  · intro a
    rw [h.mem, hp]
    refine and_congr_right fun ha => ?_
    rw [hk a.2 ha]

/-- No two items have the same key. -/
theorem Queued.injective (h : Queued key p l) {i j : ι} (hi : p i) (hj : p j) (he : key i = key j) : i = j := by
  by_contra hne
  have : Std.Symm fun a b : τ × ι => key a.2 ≠ key b.2 := ⟨fun _ _ hab => hab.symm⟩
  have hall : l.Pairwise fun a b => key a.2 ≠ key b.2 := h.sorted.imp fun hlt => hlt.ne
  exact hall.forall ((h.mem ((ofLex (key i)).1, i)).mpr ⟨hi, rfl⟩)
    ((h.mem ((ofLex (key j)).1, j)).mpr ⟨hj, rfl⟩) (fun hp => hne (congrArg Prod.snd hp)) he

theorem Queued.listing_eq {xs : List ι} (h : Queued key p l) (hnd : xs.Nodup) (hp : ∀ i, i ∈ xs ↔ p i) :
    listing key xs = l := by
  apply Queued.unique (queued_listing hnd _)
  · exact h.congr hp fun _ _ => rfl
  · exact fun i hi j hj => h.injective ((hp i).mp hi) ((hp j).mp hj)

/-- **An item leaves.** -/
theorem Queued.cancel [DecidableEq ι] (h : Queued key p l) : Queued key (fun i => p i ∧ i ≠ x) (cancel x l) := by
  constructor
  · exact h.sorted.filter _
  · intro a
    rw [mem_cancel, h.mem, and_right_comm]

/-- **An item comes in** with a new ticket, larger than those of the others. -/
theorem Queued.schedule (h : Queued key p l) (hx : ¬ p x) (hold : ∀ i, i ≠ x → key' i = key i)
    (hnew : key' x = toLex (t, k)) (hk : ∀ i, p i → (ofLex (key i)).2 < k) :
    Queued key' (fun i => p i ∨ i = x) (schedule t x l) := by
  have hmem : ∀ a ∈ l, a.2 ≠ x ∧ p a.2 ∧ key' a.2 = toLex (a.1, (ofLex (key a.2)).2) := by
    intro a ha
    obtain ⟨hpa, hta⟩ := (h.mem a).mp ha
    have hne : a.2 ≠ x := fun he => hx (he ▸ hpa)
    refine ⟨hne, hpa, ?_⟩
    rw [hold _ hne, ← hta]
    rfl
  constructor
  · apply pairwise_schedule
    · refine h.sorted.imp_of_mem ?_
      intro a b ha hb hab
      rwa [hold _ (hmem a ha).1, hold _ (hmem b hb).1]
    · intro a ha b hb hab
      rw [(hmem a ha).2.2, (hmem b hb).2.2] at hab
      rcases Prod.Lex.toLex_lt_toLex.mp hab with hlt | heq
      · exact hlt.le
      · exact heq.1.le
    · intro a ha hlt
      rw [(hmem a ha).2.2, hnew]
      exact Prod.Lex.toLex_lt_toLex.mpr (.inl hlt)
    · intro a ha hle
      obtain ⟨-, hpa, hkey⟩ := hmem a ha
      rw [hkey, hnew]
      apply Prod.Lex.toLex_lt_toLex.mpr
      rcases hle.lt_or_eq with hlt | heq
      · exact .inl hlt
      · exact .inr ⟨heq, hk a.2 hpa⟩
  · intro a
    rw [mem_schedule]
    constructor
    · rintro (rfl | ha)
      · exact ⟨.inr rfl, by rw [hnew]; rfl⟩
      · obtain ⟨-, hpa, hkey⟩ := hmem a ha
        exact ⟨.inl hpa, by rw [hkey]; rfl⟩
    · rintro ⟨hpa, hta⟩
      by_cases hax : a.2 = x
      · refine .inl (Prod.ext ?_ hax)
        rw [← hta, hax, hnew]
        rfl
      · refine .inr ((h.mem a).mpr ⟨hpa.resolve_right hax, ?_⟩)
        rw [← hta, hold _ hax]

/-- The first appointment is that of the item with the least key. -/
theorem Queued.head (h : Queued key p ((t, x) :: l)) :
    p x ∧ (ofLex (key x)).1 = t ∧ ∀ i, p i → i ≠ x → key x < key i := by
  obtain ⟨hx, ht⟩ := (h.mem (t, x)).mp List.mem_cons_self
  refine ⟨hx, ht, fun i hi hne => ?_⟩
  rcases List.mem_cons.mp ((h.mem ((ofLex (key i)).1, i)).mpr ⟨hi, rfl⟩) with he | hm
  · exact absurd (congrArg Prod.snd he) hne
  · exact (List.pairwise_cons.mp h.sorted).1 _ hm

/-- **What is due first** is the item with the least key. -/
theorem Queued.due_some (h : Queued key p l) (hd : due e l = some (t, x)) :
    p x ∧ (ofLex (key x)).1 = t ∧ t ≤ e ∧ ∀ i, p i → i ≠ x → key x < key i := by
  cases l with
  | nil => cases hd
  | cons a l =>
    obtain ⟨ha, hle⟩ := Option.filter_eq_some_iff.mp hd
    cases ha
    obtain ⟨hx, ht, hleast⟩ := h.head
    exact ⟨hx, ht, of_decide_eq_true hle, hleast⟩

theorem Queued.due_none (h : Queued key p l) (hd : due e l = none) (i : ι) (hi : p i) : e < (ofLex (key i)).1 := by
  have hmem := (h.mem ((ofLex (key i)).1, i)).mpr ⟨hi, rfl⟩
  cases l with
  | nil => cases hmem
  | cons a l =>
    have hlate : e < a.1 := by simpa [due] using hd
    rcases List.mem_cons.mp hmem with he | hm
    · rw [← he] at hlate
      exact hlate
    · have hlt := (List.pairwise_cons.mp h.sorted).1 _ hm
      obtain ⟨-, ha⟩ := (h.mem a).mp List.mem_cons_self
      rw [← ha] at hlate
      rcases Prod.Lex.lt_iff.mp hlt with h1 | h1
      · exact hlate.trans h1
      · exact lt_of_lt_of_eq hlate h1.1

/-- An item is listed when it is one of `p`. -/
theorem Queued.any_iff [DecidableEq ι] (h : Queued key p l) (x : ι) : l.any (·.2 = x) = true ↔ p x := by
  rw [List.any_eq_true]
  constructor
  · rintro ⟨a, ha, hx⟩
    exact of_decide_eq_true hx ▸ ((h.mem a).mp ha).1
  · intro hx
    exact ⟨_, (h.mem ((ofLex (key x)).1, x)).mpr ⟨hx, rfl⟩, decide_eq_true rfl⟩

end Gabs.Lib.Agenda
