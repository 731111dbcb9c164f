import Gabs.Alloc.Std
import Gabs.Pbuf.Clone

/-!
# Packet buffers: the memory a fragment has been promised

- `RoomOp`: the calls that reserve and release bytes; `Heap.Works`: one of them whose assertion holds;
- `Heap.Exposes`: the bytes they give access to; `exposed_inside`: all of them lie in the block of the fragment, when it
  has room for the header and for `cap` bytes;
- `memory_promised`: new fragments, clones and the blocks of `do_alloc` have that room exactly when no size wraps.
-/

namespace Gabs.Pbuf

open Gabs.Lib Gabs.Alloc Relation

variable {ι : Type} {h h' h₁ : Heap ι} {p : Option Nat} {f n offset size alloc : Nat} {q : Ptr} {x : Frag}

/-! ## Reserving and releasing -/

/-- A call that reserves or releases bytes. -/
inductive RoomOp
  | reserveHead (bytes : Nat)
  | releaseHead (bytes : Nat)
  | reserveTail (bytes : Nat)
  | releaseTail (bytes : Nat)

def RoomOp.bytes : RoomOp → Nat
  | .reserveHead n | .releaseHead n | .reserveTail n | .releaseTail n => n

def RoomOp.call (h : Heap ι) (it : Ci ι) : RoomOp → Except Fault (Heap ι × Ptr)
  | .reserveHead n => ciReserveHead h it n
  | .releaseHead n => ciReleaseHead h it n
  | .reserveTail n => ciReserveTail h it n
  | .releaseTail n => ciReleaseTail h it n

/-- The assertion of a call. -/
def RoomOp.Holds (x : Frag) : RoomOp → Prop
  | .reserveHead n => n ≤ x.headroom
  | .reserveTail n => n ≤ x.tailroom
  | .releaseHead n | .releaseTail n => n ≤ x.size

/-- A fragment in which `n` bytes are reserved in front. -/
theorem Frag.Fits.reserve_head (hx : x.Fits) (hn : n ≤ x.headroom) :
    Frag.Fits { x with data := ⟨x.data.block, sub x.data.off n⟩, size := wrap (x.size + n) } := by
  have hle := hx.le
  have hroom := hx.room
  have hcap := hx.cap
  rw [hx.headroom] at hn
  have hoff : sub x.data.off n = x.data.off - n := sub_of_le (by omega)
  have hsize : wrap (x.size + n) = x.size + n := wrap_of_lt (by omega)
  refine ⟨hx.block, ?_, ?_, hcap⟩
  · simp only [hoff]
    omega
  · simp only [hoff, hsize]
    omega

/-- **What a call does to a fragment**, when its assertion holds: the bytes in use still fit, and the bytes it returns
are among those of the fragment. -/
theorem call_fits (lp : Link ι) (hx : h.frags f = some x) (hf : x.Fits) {op : RoomOp} (ho : op.Holds x) :
    ∃ y q, op.call h ⟨some f, lp⟩ = .ok (h.put f y, q) ∧ y.Fits ∧ y.base = x.base ∧ y.cap = x.cap ∧
      q.block = x.base.block ∧ x.base.off ≤ q.off ∧ q.off - x.base.off + op.bytes ≤ x.cap := by
  have hroom := hf.room
  have hle := hf.le
  have hcap := hf.cap
  have htail := hf.tailroom
  rw [hf.headroom] at htail
  cases op with
  | reserveHead n =>
    have hn : n ≤ x.headroom := ho
    have hfits := hf.reserve_head hn
    refine ⟨_, ⟨x.data.block, sub x.data.off n⟩, ?_, hfits, rfl, rfl, hf.block, hfits.le, ?_⟩
    · simp only [RoomOp.call, ciReserveHead, deref_of hx, bind, Except.bind, assert_of hn, modify_of hx]
    · rw [hf.headroom] at hn
      simp only [RoomOp.bytes, sub_of_le (show n ≤ x.data.off by omega)]
      omega
  | releaseHead n =>
    have hn : n ≤ x.size := ho
    refine ⟨_, x.data, ?_, hf.release_head hn, rfl, rfl, hf.block, hle, ?_⟩
    · simp only [RoomOp.call, ciReleaseHead, deref_of hx, bind, Except.bind, assert_of hn, modify_of hx]
    · simp only [RoomOp.bytes]
      omega
  | reserveTail n =>
    have hn : n ≤ x.tailroom := ho
    refine ⟨_, x.data.add x.size, ?_, hf.reserve_tail hn, rfl, rfl, hf.block, ?_, ?_⟩
    · simp only [RoomOp.call, ciReserveTail, deref_of hx, bind, Except.bind, assert_of hn, modify_of hx]
    · simp only [Ptr.add]
      omega
    · simp only [Ptr.add, RoomOp.bytes]
      omega
  | releaseTail n =>
    have hn : n ≤ x.size := ho
    refine ⟨_, x.data.add (sub x.size n), ?_, hf.release_tail hn, rfl, rfl, hf.block, ?_, ?_⟩
    · simp only [RoomOp.call, ciReleaseTail, deref_of hx, bind, Except.bind, assert_of hn, modify_of hx]
    · simp only [Ptr.add]
      omega
    · simp only [Ptr.add, RoomOp.bytes, sub_of_le hn]
      omega

/-- One call on the fragment `f`, whose assertion holds. -/
def Heap.Works (f : Nat) (h h' : Heap ι) : Prop :=
  ∃ (op : RoomOp) (lp : Link ι) (x : Frag) (q : Ptr), h.frags f = some x ∧ op.Holds x ∧
    op.call h ⟨some f, lp⟩ = .ok (h', q)

/-- The `n` bytes from `q` on are exposed: they are those in use, or those that a call returns. -/
def Heap.Exposes (h : Heap ι) (f : Nat) (q : Ptr) (n : Nat) : Prop :=
  (∃ x, h.frags f = some x ∧ q = x.data ∧ n = x.size) ∨
    ∃ (op : RoomOp) (lp : Link ι) (x : Frag) (h' : Heap ι), h.frags f = some x ∧ op.Holds x ∧
      op.call h ⟨some f, lp⟩ = .ok (h', q) ∧ n = op.bytes

/-- The `n` bytes from `q` on lie in the block of the fragment `f`. -/
def Heap.Inside (h : Heap ι) (f : Nat) (q : Ptr) (n : Nat) : Prop :=
  q.block = .own f ∧ sizeofFrag + q.off + n ≤ h.requests f

/-- The fragment `f` begins its block, which has room for the header and `cap` bytes. -/
structure Heap.Housed (h : Heap ι) (f : Nat) (x : Frag) : Prop where
  frag : h.frags f = some x
  fits : x.Fits
  base : x.base = ⟨.own f, 0⟩
  room : sizeofFrag + x.cap ≤ h.requests f

/-- A call leaves the fragment in its block. -/
theorem Heap.Housed.works (hh : h.Housed f x) (hw : Heap.Works f h h') : ∃ y, h'.Housed f y := by
  obtain ⟨op, lp, z, q, hz, ho, hrun⟩ := hw
  obtain rfl : x = z := Option.some.inj (hh.frag.symm.trans hz)
  obtain ⟨y, q', hcall, hfits, hbase, hcap, -⟩ := call_fits lp hz hh.fits ho
  rw [hcall] at hrun
  cases hrun
  refine ⟨y, ?_, hfits, hbase.trans hh.base, ?_⟩
  · exact Function.update_self ..
  · rw [hcap]
    exact hh.room

/-- So does a sequence of calls. -/
theorem Heap.Housed.run (hh : h.Housed f x) (hw : ReflTransGen (Heap.Works f) h h') : ∃ y, h'.Housed f y := by
  induction hw with
  | refl => exact ⟨x, hh⟩
  | tail _ hstep ih =>
    obtain ⟨y, hy⟩ := ih
    exact hy.works hstep

/-- **Nothing outside the block is exposed.** -/
theorem exposed_inside (hh : h.Housed f x) (he : h.Exposes f q n) : h.Inside f q n := by
  have hbase := hh.base
  have hroom := hh.room
  rcases he with ⟨y, hy, rfl, rfl⟩ | ⟨op, lp, y, h', hy, ho, hrun, rfl⟩
  · obtain rfl : x = y := Option.some.inj (hh.frag.symm.trans hy)
    have hfits := hh.fits.room
    rw [hbase, Nat.sub_zero] at hfits
    refine ⟨by rw [hh.fits.block, hbase], ?_⟩
    omega
  · obtain rfl : x = y := Option.some.inj (hh.frag.symm.trans hy)
    obtain ⟨z, q', hcall, -, -, -, hblock, -, hin⟩ := call_fits lp hy hh.fits ho
    rw [hcall] at hrun
    cases hrun
    rw [hbase, Nat.sub_zero] at hin
    refine ⟨by rw [hblock, hbase], ?_⟩
    omega

/-! ## The blocks that are asked for -/

/-- The block of the fragment `f` has the memory it has been promised: room for the header and for `cap` bytes, so that
the calls that reserve and release bytes expose nothing outside it. -/
def Heap.Promised (h : Heap ι) (f : Nat) : Prop :=
  (∃ x, h.frags f = some x ∧ sizeofFrag + x.cap ≤ h.requests f) ∧
    ∀ h₁, ReflTransGen (Heap.Works f) h h₁ → ∀ q n, h₁.Exposes f q n → h₁.Inside f q n

/-- The promise is kept exactly when the size of the block has not wrapped. -/
theorem promised_iff (hx : h.frags f = some x) (hf : x.Fits) (hbase : x.base = ⟨.own f, 0⟩)
    (hreq : h.requests f = wrap (sizeofFrag + x.cap)) : h.Promised f ↔ sizeofFrag + x.cap < 2 ^ 64 := by
  constructor
  · rintro ⟨⟨y, hy, hroom⟩, -⟩
    obtain rfl : x = y := Option.some.inj (hx.symm.trans hy)
    rw [hreq] at hroom
    exact Nat.lt_of_le_of_lt hroom (wrap_lt _)
  · intro hlt
    have hroom : sizeofFrag + x.cap ≤ h.requests f := Nat.le_of_eq (hreq.trans (wrap_of_lt hlt)).symm
    refine ⟨⟨x, hx, hroom⟩, fun h₁ hw q n he => ?_⟩
    obtain ⟨y, hy⟩ := Heap.Housed.run ⟨hx, hf, hbase, hroom⟩ hw
    exact exposed_inside hy he

/-- A new buffer that is okay. -/
theorem new_okay (hrun : gabsPbufNew h alloc size = .ok (h', some f)) :
    f = h.asked ∧ h' = h.fresh (wrap (sizeofFrag + size)) (.blank h.asked size alloc) := by
  have hr := (new_passes (S := False) False.elim alloc size).of_ok hrun
  split at hr
  · cases hr
    exact ⟨rfl, rfl⟩
  · cases hr

/-- A clone that is okay. -/
theorem clone_okay (hsize : size < 2 ^ 64) (hrun : gabsPbufClone h p offset size alloc = .ok (h', some f)) :
    f = h.asked ∧ ∃ b, h' = (h.reserved size alloc).store ⟨.own h.asked, 0⟩ b := by
  have hclone : Passes False (gabsPbufClone h p offset size alloc) fun r =>
      ∀ g, r.2 = some g → g = h.asked ∧ ∃ b, r.1 = (h.reserved size alloc).store ⟨.own h.asked, 0⟩ b := by
    refine (new_passes False.elim alloc size).bind fun r hr => ?_
    split at hr
    · subst hr
      have hres := reserve_blank alloc hsize (fresh_frags_self h (wrap (sizeofFrag + size)) (.blank h.asked size alloc))
      simp only [gabsPbufOkay, Option.isSome_some, Bool.not_true, Bool.false_eq_true, if_false, hres, bind, Except.bind]
      refine (passes_of_not id _).bind fun b _ => (touch_passes _ _ _).bind fun _ _ => ?_
      refine (assert_passes _ False.elim).bind fun _ _ g hg => ?_
      cases hg
      exact ⟨rfl, b, rfl⟩
    · subst hr
      exact fun g hg => by cases hg
  exact hclone.of_ok hrun f rfl

/-- **No success with less memory than promised**, exactly when the sum of the header and the size does not wrap: for a
new buffer, a clone, and a block of `do_alloc`. -/
theorem memory_promised (h : Heap ι) (p : Option Nat) (offset alloc : Nat) (a : Arena) (hsize : size < 2 ^ 64) :
    (∀ h' f, gabsPbufNew h alloc size = .ok (h', some f) → (h'.Promised f ↔ sizeofFrag + size < 2 ^ 64)) ∧
    (∀ h' f, gabsPbufClone h p offset size alloc = .ok (h', some f) →
      (h'.Promised f ↔ sizeofFrag + size < 2 ^ 64)) ∧
    ∀ a' mem, doAlloc a size = some (a', 0, mem) →
      (sizeofSize + size ≤ a'.requests mem.block ↔ sizeofSize + size < 2 ^ 64) := by
  refine ⟨fun h' f hrun => ?_, fun h' f hrun => ?_, fun a' mem hrun => ?_⟩
  · obtain ⟨rfl, rfl⟩ := new_okay hrun
    exact promised_iff (fresh_frags_self h _ _) (fits_blank h.asked alloc hsize) rfl (Function.update_self ..)
  · obtain ⟨rfl, b, rfl⟩ := clone_okay hsize hrun
    have hfrag : ((h.reserved size alloc).store ⟨.own h.asked, 0⟩ b).frags h.asked =
        some (.filled h.asked size alloc) :=
      reserved_frags h size alloc
    have hreq : ((h.reserved size alloc).store ⟨.own h.asked, 0⟩ b).requests h.asked = wrap (sizeofFrag + size) :=
      Function.update_self ..
    exact promised_iff hfrag (fits_filled h.asked alloc hsize) rfl hreq
  · rw [doAlloc_requests hrun]
    constructor
    · intro hle
      exact Nat.lt_of_le_of_lt hle (wrap_lt _)
    · intro hlt
      exact Nat.le_of_eq (wrap_of_lt hlt).symm

/-- An underlying allocator that never throws. -/
def freshArena : Arena := ⟨0, fun _ => 0, fun _ _ => true, fun _ => 0, []⟩

/-- Three bytes. -/
theorem memory_promised_three :
    (∃ h' f, gabsPbufNew sevenBytes 0 3 = .ok (h', some f) ∧ h'.Promised f) ∧
    (∃ h' f, gabsPbufClone sevenBytes (some 0) 2 3 0 = .ok (h', some f) ∧ h'.Promised f) ∧
    ∃ a' mem, doAlloc freshArena 3 = some (a', 0, mem) ∧ sizeofSize + 3 ≤ a'.requests mem.block := by
  obtain ⟨hnew, hclone, halloc⟩ := memory_promised sevenBytes (some 0) 2 0 freshArena (show 3 < 2 ^ 64 by decide)
  refine ⟨⟨_, _, rfl, ?_⟩, ⟨_, _, rfl, ?_⟩, ⟨_, _, rfl, ?_⟩⟩
  · exact (hnew _ _ rfl).mpr (by decide)
  · exact (hclone _ _ rfl).mpr (by decide)
  · exact (halloc _ _ rfl).mpr (by decide)

/-- **A block that is too short**: of 55 bytes for a fragment, and of 7 bytes for `do_alloc`, when `SIZE_MAX` bytes are
asked for. -/
theorem memory_short :
    (∃ h' f, gabsPbufNew sevenBytes 0 (2 ^ 64 - 1) = .ok (h', some f) ∧ h'.requests f = 55 ∧ ¬ h'.Promised f) ∧
    ∃ a' mem, doAlloc freshArena (2 ^ 64 - 1) = some (a', 0, mem) ∧ a'.requests mem.block = 7 := by
  refine ⟨⟨_, _, rfl, by decide, ?_⟩, ⟨_, _, rfl, by decide⟩⟩
  rintro ⟨⟨x, hx, hroom⟩, -⟩
  cases hx
  exact absurd hroom (by decide)

end Gabs.Pbuf
