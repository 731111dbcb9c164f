import Gabs.Lib.Upto
import Gabs.Pbuf.Chain

/-!
# Packet buffers: the bytes in use fit into a fragment

- `Frag.Fits`: the representation invariant of a fragment; `Heap.Fits`: every live fragment satisfies it;
- `Passes S`: no assertion of a computation fails when `S` holds;
- what reserving and releasing makes of a fragment, and what the reads of the iterators answer.

Nothing is assumed about how the fragments are linked.
-/

namespace Gabs.Pbuf

open Gabs.Lib

variable {ι α : Type} {h : Heap ι} {p : Option Nat} {f n : Nat} {x : Frag} {it : Ci ι} {S : Prop}

/-- **The representation invariant**: the bytes in use are among the bytes from `base` on that the fragment has. -/
structure Frag.Fits (x : Frag) : Prop where
  block : x.data.block = x.base.block
  le : x.base.off ≤ x.data.off
  room : x.data.off - x.base.off + x.size ≤ x.cap
  cap : x.cap < 2 ^ 64

/-- Every live fragment has been allocated and satisfies the invariant. -/
def Heap.Fits (h : Heap ι) : Prop := ∀ f x, h.frags f = some x → f < h.asked ∧ x.Fits

theorem Heap.Fits.frag (hf : h.Fits) (hx : h.frags f = some x) : x.Fits := (hf f x hx).2

theorem Heap.Fits.sound (hf : h.Fits) : h.Sound := fun f x hx => (hf f x hx).1

/-- Under the condition `S` no assertion fails; the result, if there is one, satisfies `Q`. -/
abbrev Passes (S : Prop) (e : Except Fault α) (Q : α → Prop) : Prop := Upto (fun x => x = Fault.assertion → ¬ S) e Q

/-! ## Room -/

theorem Frag.Fits.headroom (hx : x.Fits) : x.headroom = x.data.off - x.base.off := sub_of_le hx.le

/-- **The tailroom does not wrap.** -/
theorem Frag.Fits.tailroom (hx : x.Fits) : x.headroom + x.size + x.tailroom = x.cap := by
  have hroom := hx.room
  rw [Frag.tailroom, hx.headroom, sub_of_le (by omega : x.size ≤ x.cap), sub_of_le (by omega)]
  omega

theorem Frag.Fits.size_lt (hx : x.Fits) : x.size < 2 ^ 64 := by
  have hroom := hx.room
  have hcap := hx.cap
  omega

/-- A fragment of which the first `n` bytes are released. -/
theorem Frag.Fits.release_head (hx : x.Fits) (hn : n ≤ x.size) :
    Frag.Fits { x with size := sub x.size n, data := x.data.add n } := by
  have hroom := hx.room
  have hle := hx.le
  refine ⟨hx.block, ?_, ?_, hx.cap⟩
  · simp only [Ptr.add]
    omega
  · simp only [Ptr.add, sub_of_le hn]
    omega

/-- A fragment of which the last `n` bytes are released. -/
theorem Frag.Fits.release_tail (hx : x.Fits) (hn : n ≤ x.size) : Frag.Fits { x with size := sub x.size n } := by
  have hroom := hx.room
  refine ⟨hx.block, hx.le, ?_, hx.cap⟩
  simp only [sub_of_le hn]
  omega

/-- A fragment in which `n` bytes are reserved. -/
theorem Frag.Fits.reserve_tail (hx : x.Fits) (hn : n ≤ x.tailroom) :
    Frag.Fits { x with size := wrap (x.size + n) } := by
  have hroom := hx.tailroom
  have hcap := hx.cap
  rw [hx.headroom] at hroom
  refine ⟨hx.block, hx.le, ?_, hx.cap⟩
  simp only [wrap_of_lt (show x.size + n < 2 ^ 64 by omega)]
  omega

/-! ## Reads -/

theorem deref_passes (h : Heap ι) (p : Option Nat) :
    Passes S (h.deref p) fun x => ∃ f, p = some f ∧ h.frags f = some x := by
  cases p with
  | none => exact nofun
  | some f =>
    cases hx : h.frags f with
    | none => simp [Heap.deref, hx]
    | some x => simp [Heap.deref, hx]

/-- A fragment is written. -/
theorem modify_passes (h : Heap ι) (p : Option Nat) (k : Frag → Frag) :
    Passes S (h.modify p k) fun h' => ∃ f x, p = some f ∧ h.frags f = some x ∧ h' = h.put f (k x) := by
  refine (deref_passes h p).bind fun x hx => ?_
  obtain ⟨f, rfl, hx⟩ := hx
  exact ⟨f, x, rfl, hx, rfl⟩

theorem assert_passes (h : Heap ι) {b : Bool} (hb : S → b = true) : Passes S (h.assert b) fun _ => True := by
  rw [Heap.assert]
  refine upto_ite (fun _ => trivial) fun hne _ hs => hne ?_
  rw [hb hs, Bool.or_true]

theorem touch_passes (h : Heap ι) (p : Ptr) (n : Nat) : Passes S (h.touch p n) fun _ => True := by
  unfold Heap.touch
  split
  · exact trivial
  · split
    · exact nofun
    · split
      · exact nofun
      · split
        · exact trivial
        · exact nofun
    · split
      · exact trivial
      · exact nofun

theorem ciNext_passes (h : Heap ι) (it : Ci ι) :
    Passes S (ciNext h it) fun it' => ∃ f x, it.cur = some f ∧ h.frags f = some x ∧ it' = ⟨x.next, .next f⟩ := by
  unfold ciNext
  split
  · exact nofun
  · rename_i f hcur
    refine (deref_passes h (some f)).bind fun x hx => ?_
    obtain ⟨g, hg, hx⟩ := hx
    cases hg
    exact ⟨f, x, hcur, hx, rfl⟩

theorem ciSize_passes (h : Heap ι) (it : Ci ι) :
    Passes S (ciSize h it) fun s => ∃ f x, it.cur = some f ∧ h.frags f = some x ∧ s = x.size := by
  refine (deref_passes h it.cur).bind fun x hx => ?_
  obtain ⟨f, hcur, hx⟩ := hx
  exact ⟨f, x, hcur, hx, rfl⟩

theorem ciData_passes (h : Heap ι) (it : Ci ι) :
    Passes S (ciData h it) fun q => ∃ f x, it.cur = some f ∧ h.frags f = some x ∧ q = x.data := by
  refine (deref_passes h it.cur).bind fun x hx => ?_
  obtain ⟨f, hcur, hx⟩ := hx
  exact ⟨f, x, hcur, hx, rfl⟩

theorem sizeLoop_passes (h : Heap ι) (n : Nat) (it : Ci ι) (size : Nat) :
    Passes S (sizeLoop h n it size) fun _ => True := by
  induction n generalizing it size with
  | zero => exact nofun
  | succ n ih =>
    rw [sizeLoop]
    exact upto_ite (fun _ => trivial) fun _ => (ciSize_passes h it).bind fun s _ =>
      (ciNext_passes h it).bind fun it' _ => ih it' _

theorem seekLoop_passes (h : Heap ι) (offset n : Nat) (it : Ci ι) (bytes : Nat) :
    Passes S (seekLoop h offset n it bytes) fun _ => True := by
  induction n generalizing it bytes with
  | zero => exact nofun
  | succ n ih =>
    rw [seekLoop]
    refine upto_ite (fun _ => trivial) fun _ => (ciSize_passes h it).bind fun s _ => ?_
    exact upto_ite (fun _ => trivial) fun _ => (ciNext_passes h it).bind fun it' _ => ih it' _

/-- A fragment of which the reference counter and the next fragment are others. -/
theorem Frag.Fits.relink (hx : x.Fits) (r : Nat) (v : Option Nat) : Frag.Fits { x with refcnt := r, next := v } :=
  ⟨hx.block, hx.le, hx.room, hx.cap⟩

end Gabs.Pbuf
