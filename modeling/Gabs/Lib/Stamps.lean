import Mathlib.Logic.Function.Basic

/-!
# Time stamps of events

- `Stamps`: a history in which each event has the time of its last occurrence, or none;
- `Stamps.mark`: an event occurs; `Stamps.Before`: an event occurred before another;
- `Stamps.Course`: some events have occurred in an order, and no others of their kind;
- `LastWrite`: the value of a register whose writes are events: that of its last write, or the initial one
  (`LastWrite.written`, `LastWrite.skip`, `LastWrite.eq_init`).
-/

namespace Gabs.Lib

/-- The times of events; all of them are past, and no two events have the same. -/
structure Stamps (ε : Type*) where
  now : Nat
  time : ε → Option Nat
  lt_now : ∀ e i, time e = some i → i < now
  inj : ∀ e e' i, time e = some i → time e' = some i → e = e'

namespace Stamps

variable {ε ι : Type*}

def empty : Stamps ε := ⟨0, fun _ => none, nofun, nofun⟩

/-- `a` has occurred, and `b` after it. -/
def Before (h : Stamps ε) (a b : ε) : Prop := ∃ i j, h.time a = some i ∧ h.time b = some j ∧ i < j

instance (h : Stamps ε) (a b : ε) : Decidable (h.Before a b) :=
  match ha : h.time a, hb : h.time b with
  | some i, some j => decidable_of_iff (i < j) (by simp [Before, ha, hb])
  | none, _ => isFalse (by simp [Before, ha])
  | some _, none => isFalse (by simp [Before, hb])

theorem before_iff {h : Stamps ε} {a b : ε} {i j : Nat} (ha : h.time a = some i) (hb : h.time b = some j) :
    h.Before a b ↔ i < j := by
  simp [Before, ha, hb]

variable [DecidableEq ε]

/-- Event `e` occurs. -/
def mark (h : Stamps ε) (e : ε) : Stamps ε where
  now := h.now + 1
  time := Function.update h.time e (some h.now)
  lt_now e' i hi := by
    rw [Function.update_apply] at hi
    split at hi
    · cases hi; exact Nat.lt_succ_self _
    · exact Nat.lt_succ_of_lt (h.lt_now e' i hi)
  inj a b i ha hb := by
    rw [Function.update_apply] at ha hb
    split at ha <;> split at hb
    · simp [*]
    · cases ha; exact absurd (h.lt_now b _ hb) (Nat.lt_irrefl _)
    · cases hb; exact absurd (h.lt_now a _ ha) (Nat.lt_irrefl _)
    · exact h.inj a b i ha hb

variable {h : Stamps ε} {e e' : ε}

@[simp] theorem mark_now : (h.mark e).now = h.now + 1 := rfl

@[simp] theorem mark_self : (h.mark e).time e = some h.now := Function.update_self ..

theorem mark_of_ne (hn : e' ≠ e) : (h.mark e).time e' = h.time e' := Function.update_of_ne hn ..

/-- The times before `k`. -/
def upto (h : Stamps ε) (k : Nat) (e : ε) : Option Nat := (h.time e).filter fun i => i < k

theorem upto_now (hn : h.time e' = none) : (h.mark e').upto h.now e = h.time e := by
  by_cases he : e = e'
  · subst he; simp [upto, hn]
  · rw [upto, mark_of_ne he]
    cases ht : h.time e with
    | none => rfl
    | some i => simp [h.lt_now e i ht]

theorem upto_mark {k : Nat} (hk : k ≤ h.now) (hn : h.time e' = none) : (h.mark e').upto k e = h.upto k e := by
  by_cases he : e = e'
  · subst he; simp [upto, hn, hk]
  · rw [upto, upto, mark_of_ne he]

/-! ## Courses -/

/-- Of the events `f x`, those of the list have occurred, in its order, and no others. -/
def Course (h : Stamps ε) (f : ι → ε) (l : List ι) : Prop :=
  (∀ x, x ∉ l → h.time (f x) = none) ∧ ∃ ts : List Nat, ts.Pairwise (· < ·) ∧
    l.map (fun x => h.time (f x)) = ts.map some

/-- The next event of the course occurs. -/
theorem Course.snoc {f : ι → ε} (hf : Function.Injective f) {l : List ι} (hc : h.Course f l) {x : ι} (hx : x ∉ l) :
    (h.mark (f x)).Course f (l ++ [x]) := by
  obtain ⟨h1, ts, h2, h3⟩ := hc
  have hne : ∀ y, y ≠ x → (h.mark (f x)).time (f y) = h.time (f y) := fun y hy => mark_of_ne fun e => hy (hf e)
  refine ⟨fun y hy => ?_, ts ++ [h.now], ?_, ?_⟩
  · rw [List.mem_append, List.mem_singleton, not_or] at hy
    rw [hne y hy.2, h1 y hy.1]
  · refine List.pairwise_append.mpr ⟨h2, List.pairwise_singleton .., fun i hi j hj => ?_⟩
    rw [List.mem_singleton.mp hj]
    obtain ⟨y, -, hy⟩ := List.mem_map.mp (h3 ▸ List.mem_map.mpr ⟨i, hi, rfl⟩)
    exact h.lt_now _ _ hy
  · rw [List.map_append, List.map_append, ← h3]
    congr 1
    · exact List.map_congr_left fun y hy => hne y fun e => hx (e ▸ hy)
    · simp

/-- An event of another kind occurs. -/
theorem Course.other {f : ι → ε} {l : List ι} (hc : h.Course f l) (hx : ∀ x, f x ≠ e) : (h.mark e).Course f l := by
  obtain ⟨h1, ts, h2, h3⟩ := hc
  refine ⟨fun y hy => (mark_of_ne (hx y)).trans (h1 y hy), ts, h2, ?_⟩
  rw [← h3]
  exact List.map_congr_left fun y _ => mark_of_ne (hx y)

end Stamps

/-! ## Registers -/

section LastWrite

variable {ε β : Type*}

/-- `v` is the value of a register: that of the last event that writes it, or the initial value if none has. -/
def LastWrite (time : ε → Option Nat) (wr : ε → Option β) (init v : β) : Prop :=
  (∃ e i, time e = some i ∧ wr e = some v ∧ ∀ e' j, time e' = some j → wr e' ≠ none → j ≤ i) ∨
    v = init ∧ ∀ e i, time e = some i → wr e = none

variable {time time' : ε → Option Nat} {wr : ε → Option β} {init v w : β}

theorem LastWrite.start : LastWrite (fun _ => none) wr init init := .inr ⟨rfl, nofun⟩

/-- Only the times of writes matter. -/
theorem LastWrite.congr (h : LastWrite time wr init v) (ht : ∀ e, wr e ≠ none → time' e = time e) :
    LastWrite time' wr init v := by
  rcases h with ⟨e, i, h1, h2, h3⟩ | ⟨h1, h2⟩
  · exact .inl ⟨e, i, (ht e (by rw [h2]; nofun)).trans h1, h2, fun e' j hj hw => h3 e' j (ht e' hw ▸ hj) hw⟩
  · refine .inr ⟨h1, fun e i hi => ?_⟩
    by_contra hw
    exact hw (h2 e i (ht e hw ▸ hi))

/-- A register that no event has written. -/
theorem LastWrite.eq_init (hl : LastWrite time wr init v) (hn : ∀ e, wr e ≠ none → time e = none) : v = init := by
  rcases hl with ⟨e, i, h1, h2, -⟩ | ⟨h1, -⟩
  · rw [hn e (by rw [h2]; nofun)] at h1
    cases h1
  · exact h1

variable [DecidableEq ε] {h : Stamps ε} {e : ε}

/-- A write. -/
theorem LastWrite.written (hw : wr e = some w) : LastWrite (h.mark e).time wr init w :=
  .inl ⟨e, h.now, Stamps.mark_self, hw, fun e' j hj _ => Nat.le_of_lt_succ ((h.mark e).lt_now e' j hj)⟩

/-- An event that is no write. -/
theorem LastWrite.skip (hl : LastWrite h.time wr init v) (hw : wr e = none) :
    LastWrite (h.mark e).time wr init v :=
  hl.congr fun _ he' => Stamps.mark_of_ne fun eq => he' (eq ▸ hw)

/-- Any event. -/
theorem LastWrite.mark (hl : LastWrite h.time wr init v) : LastWrite (h.mark e).time wr init ((wr e).getD v) := by
  cases hw : wr e with
  | none => exact hl.skip hw
  | some w => exact .written hw

end LastWrite

end Gabs.Lib
