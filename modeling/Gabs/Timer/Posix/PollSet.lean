import Gabs.Timer.Posix.Ownership
import Mathlib.Data.Fintype.Card

/-!
# The POSIX timer: the poll set of one pass

- `Sys.storeIndex`: the index of `pfds` at which the worker is about to store, `Sys.Fits`: stores and the count given
  to `poll` stay inside the array of `n` entries;
- `examine`: the history variable of a pass, which slots the pass found active or scheduled;
- `PassInv`: the worker has pushed the eventfd and one entry for each of these;
- `poll_set_fits_iff`: the poll set fits exactly as long as the pass found some slot neither active nor scheduled;
  `full_pool_overflows`: a pool in which every timer runs overflows it.
-/

namespace Gabs.Timer.Posix

open Gabs.Lib

variable {n m : Nat}

/-- The index of `pfds` at which the worker stores with its next step. -/
def Sys.storeIndex (s : Sys n m) : Option Nat :=
  match s.worker with
  | .top => some 0
  | .prepare _ .push => some s.pfds.length
  | _ => none

/-- The worker stores inside `pfds`, and the count it gives to `poll` is at most the number of entries. -/
def Sys.Fits (s : Sys n m) : Prop :=
  (∀ k ∈ s.storeIndex, k < n) ∧ (s.worker = .poll → s.pfds.length ≤ n)

instance (s : Sys n m) : Decidable s.Fits := inferInstanceAs (Decidable (_ ∧ _))

/-! ## What a pass finds -/

/-- The slots that the current pass of `prepare_pfds` found active or scheduled, after one more step. -/
def examine (s : Sys n m) (a : Act n m) (_ : Sys n m) (seen : Fin n → Bool) : Fin n → Bool :=
  match a, s.worker with
  | .work _, .top => fun _ => false
  | .work _, .prepare i .testActive => if (s.state i).has .active then Function.update seen i true else seen
  | .work _, .prepare i .cas => if (s.state i).has .sched then Function.update seen i true else seen
  | _, _ => seen

/-- The system with the slots the current pass found armed. -/
def examined (n m : Nat) : Lts (Sys n m × (Fin n → Bool)) (Act n m) :=
  (system n m).record (fun _ => false) examine

/-- The number of slots found armed. -/
def seenCount (seen : Fin n → Bool) : Nat := (Finset.univ.filter fun j => seen j = true).card

theorem seenCount_update {seen : Fin n → Bool} {i : Fin n} (h : seen i = false) :
    seenCount (Function.update seen i true) = seenCount seen + 1 := by
  have hs : (Finset.univ.filter fun j => Function.update seen i true j = true) =
      insert i (Finset.univ.filter fun j => seen j = true) := by
    ext j
    rcases eq_or_ne j i with rfl | hj <;> simp [*]
  rw [seenCount, hs, Finset.card_insert_of_notMem (by simp [h]), seenCount]

/-- Fewer than `n` slots were found armed exactly when one was not. -/
theorem seenCount_lt (seen : Fin n → Bool) : seenCount seen < n ↔ ∃ j, seen j = false := by
  have h := Finset.card_lt_iff_ne_univ (Finset.univ.filter fun j => seen j = true)
  rw [Fintype.card_fin] at h
  rw [seenCount, h, ne_eq, Finset.eq_univ_iff_forall]
  simp

/-! ## The invariant of a pass -/

/-- **The poll set during a pass**: no slot ahead was found armed, and the eventfd and every slot found armed so far
have been pushed, the current one from `push` on. -/
def PassInv (pfds : List Pollfd) (seen : Fin n → Bool) : Worker n → Prop
  | .prepare i .push => (∀ j, i < j → seen j = false) ∧ pfds.length = seenCount seen
  | .prepare i .clearSched => (∀ j, i < j → seen j = false) ∧ pfds.length = seenCount seen + 1
  | .prepare i _ => (∀ j, i ≤ j → seen j = false) ∧ pfds.length = seenCount seen + 1
  | .poll => pfds.length = seenCount seen + 1
  | _ => True

theorem PassInv.head {pfds : List Pollfd} {seen : Fin n → Bool} {k : Nat} (h : ∀ j : Fin n, k ≤ j → seen j = false)
    (hl : pfds.length = seenCount seen + 1) : PassInv pfds seen (prepareFrom n k) := by
  unfold prepareFrom
  split
  · exact ⟨fun j hj => h j hj, hl⟩
  · exact hl

theorem passInv_findFrom (pfds : List Pollfd) (seen : Fin n → Bool) (j k : Nat) :
    PassInv pfds seen (findFrom n j k) := by
  unfold findFrom
  split <;> exact True.intro

/-- Finding the current slot armed. -/
theorem PassInv.found {pfds : List Pollfd} {seen : Fin n → Bool} {i : Fin n}
    (h : (∀ j, i ≤ j → seen j = false) ∧ pfds.length = seenCount seen + 1) :
    PassInv pfds (Function.update seen i true) (.prepare i .push) := by
  refine ⟨fun j hj => ?_, ?_⟩
  · rw [Function.update_of_ne (ne_of_gt hj)]; exact h.1 j (le_of_lt hj)
  · rw [seenCount_update (h.1 i (le_refl i)), h.2]

/-- A step of the worker that only moves it. -/
theorem PassInv.move {s s' : Sys n m} {w : Worker n} {seen : Fin n → Bool} {r : Reply}
    (hi : PassInv s.pfds seen s.worker) (h : WorkMove s w) : PassInv s.pfds (examine s (.work r) s' seen) w := by
  cases h with
  | exit hw | quiet hw | ready hw | valid hw | found hw | noCb hw | enter hw | fire hw | skip hw | ret hw
  | pollErr hw | batchEnd hw => exact True.intro
  | invalid hw | other hw => exact passInv_findFrom ..
  | used hw | zombie hw | alive hw =>
    simp only [hw] at hi
    simp only [examine, hw]
    exact hi
  | unused hw =>
    simp only [hw] at hi
    simp only [examine, hw]
    exact .head (fun j hj => hi.1 j (by omega)) hi.2
  | noCas hw hs =>
    simp only [hw] at hi
    simp only [examine, hw, hs]
    exact .head (fun j hj => hi.1 j (by omega)) hi.2
  | active hw ha =>
    simp only [hw] at hi
    simp only [examine, hw, ha]
    exact .found hi
  | inactive hw ha =>
    simp only [hw] at hi
    simp only [examine, hw, ha]
    exact hi

/-- One step of the worker. -/
theorem PassInv.work {s s' : Sys n m} {r : Reply} {seen : Fin n → Bool} (hi : PassInv s.pfds seen s.worker)
    (h : Move s (.work r) s') : PassInv s'.pfds (examine s (.work r) s' seen) s'.worker := by
  cases h with
  | work h => exact hi.move h
  | pass hw =>
    simp only [examine, hw]
    exact .head (fun _ _ => rfl) (by simp [seenCount])
  | close hw | reset hw =>
    rw [hw] at hi
    simp only [examine, hw]
    exact hi
  | deinitLock hw =>
    rw [hw] at hi
    simp only [examine, hw]
    exact .head (fun j hj => hi.1 j (by omega)) hi.2
  | cas hw hc =>
    rw [hw] at hi
    simp only [examine, hw, (has_of_maskCas hc).1]
    exact .found hi
  | push hw =>
    rw [hw] at hi
    simp only [examine, hw]
    exact ⟨hi.1, by simp [hi.2]⟩
  | clearSched hw =>
    rw [hw] at hi
    simp only [examine, hw]
    exact .head (fun j hj => hi.1 j (by omega)) hi.2
  | read hw =>
    simp only [Sys.work_worker]
    split
    · exact passInv_findFrom ..
    · exact True.intro
  | pollEvent hw | pollTimers hw | eventRead hw | lock hw | unlock hw | clearActive hw => exact True.intro

/-- **The poll set of every run.** -/
theorem passInv_of_reach {x : Sys n m × (Fin n → Bool)} (hr : (examined n m).Reach (fun _ _ => True) x) :
    PassInv x.1.pfds x.2 x.1.worker := by
  refine hr.record_invariant (I := fun s seen => PassInv s.pfds seen s.worker) ?_ ?_
  · rintro s ⟨fd, -, rfl⟩
    exact True.intro
  · intro s a s' seen _ hi _ hst
    have hm := step_move hst
    cases a with
    | work r => exact hi.work hm
    | call | step | expire | tick =>
      obtain ⟨h1, h2⟩ := hm.frame_worker (by simp)
      rw [h1, h2]
      exact hi

/-! ## The bound -/

/-- The worker is about to push a timer, or to poll. -/
def Sys.counts (s : Sys n m) : Prop := (∃ i, s.worker = .prepare i .push) ∨ s.worker = .poll

/-- **The poll set fits its array exactly if the pass has found some slot neither active nor scheduled**, in every
state of every run in which the worker pushes a timer or polls. -/
theorem poll_set_fits_iff (hn : 0 < n) {x : Sys n m × (Fin n → Bool)}
    (hr : (examined n m).Reach (fun _ _ => True) x) : x.1.Fits ↔ (x.1.counts → ∃ j, x.2 j = false) := by
  have hi := passInv_of_reach hr
  rw [← seenCount_lt]
  unfold Sys.Fits Sys.storeIndex Sys.counts
  cases hw : x.1.worker with
  | top => simp [hn]
  | poll =>
    rw [hw] at hi
    have hl : x.1.pfds.length = seenCount x.2 + 1 := hi
    simp
    omega
  | prepare i p =>
    rw [hw] at hi
    cases p with
    | push =>
      have hl : x.1.pfds.length = seenCount x.2 := hi.2
      simp [hl]
    | _ => simp
  | _ => simp

/-! ## A full pool -/

/-- A timer is installed and started, and the worker makes its first pass. -/
def fullPool (n : Nat) (t : Fin n) : List (Act n 1) :=
  let c : Thread 1 := .client 0
  [.call c (.install none 0), .step c .ok, .step c .ok, .step c (.fd 4), .step c .ok, .step c .ok,
    .call c (.restart t 5), .step c .ok, .step c .ok, .step c .ok, .step c .ok,
    .work .ok, .work .ok, .work .ok, .work .ok, .work .ok]

/-- With a second slot, the first timer's pollfd is the last one of the array. -/
theorem poll_set_fits_half : ∃ x : Sys 2 1 × (Fin 2 → Bool), x.1.storeIndex = some 1 ∧ x.1.Fits := by
  obtain ⟨x, hr, hi, hs⟩ := Lts.Reach.run (M := examined 2 1) (P := fun _ _ => True)
    (Q := fun x => x.1.storeIndex = some 1 ∧ x.2 1 = false) (s := (ctxInit 2 1 3, fun _ => false))
    ⟨⟨3, by decide, rfl⟩, rfl⟩ (fullPool 2 0) (by decide)
  exact ⟨x, hi, (poll_set_fits_iff (by decide) hr).mpr fun _ => ⟨1, hs⟩⟩

/-- **A full pool overflows the poll set**: its last pollfd is stored behind the array. -/
theorem full_pool_overflows : ∃ s : Sys 1 1, (system 1 1).Reach Serial s ∧ ¬ s.Fits :=
  Lts.Reach.run ⟨3, by decide, rfl⟩ (fullPool 1 0) (by decide)

end Gabs.Timer.Posix
