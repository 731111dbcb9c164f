import Gabs.Lib.Upto
import Gabs.Pbuf.View

/-!
# Packet buffers: what is copied out of a chain

- `load_eq`: the bytes that one `memcpy` reads;
- `copyLoop_upto`, `gabsPbufCopy_upto`: the copy is the slice asked for, unless an access to the bytes of the chain goes
  wrong in a way that is tolerated.
-/

namespace Gabs.Pbuf

open Gabs.Lib

variable {ι : Type} {h : Heap ι} {p : Option Nat} {f n : Nat} {x : Frag} {l : List Nat} {ok : Fault → Prop}

/-- The accesses to the bytes in use of the fragments `l` go wrong in tolerated ways only. -/
def Heap.Touchable (h : Heap ι) (ok : Fault → Prop) (l : List Nat) : Prop :=
  ∀ f ∈ l, ∀ x, h.frags f = some x → ∀ j k, j + k ≤ x.size → Upto ok (h.touch (x.data.add j) k) fun _ => True

/-- A part of the bytes of a fragment. -/
theorem load_eq {j k : Nat} (hk : j + k ≤ x.size) (h : Heap ι) :
    h.load (x.data.add j) k = ((x.addrs.map h.byte).drop j).take k := by
  have hover : h.load (x.data.add j) k = (Frag.over (x.data.add j) k 0).addrs.map h.byte := by
    rw [Heap.load, Frag.addrs, List.map_map]
    rfl
  rw [hover, addrs_over_from hk, List.map_take, List.map_drop]

theorem content_cons (hx : h.frags f = some x) (l : List Nat) :
    h.content (f :: l) = x.addrs.map h.byte ++ h.content l := by
  rw [Heap.content, addrs_cons hx, List.map_append, Heap.content]

/-- **The loop of `gabs_pbuf_copy`.** -/
theorem copyLoop_upto (hc : h.Chain (some f) (f :: l)) (hn : l.length < n) (ht : h.Touchable ok l) (maxSize : Nat)
    (lp : Link ι) (mem : List UInt8) : Upto ok (copyLoop h maxSize n ⟨some f, lp⟩ mem) fun b =>
      b = mem ++ (h.content l).take (maxSize - mem.length) := by
  induction l generalizing f n lp mem with
  | nil =>
    obtain ⟨n, rfl⟩ := exists_fuel hn
    obtain ⟨x, hx⟩ := hc.live f List.mem_cons_self
    have hnext : x.next = none := (hc.tail hx).head
    have hend : copyLoop h maxSize (n + 1) ⟨some f, lp⟩ mem = .ok mem := by
      rw [copyLoop]
      split
      · simp only [ciNext_of hx, hnext, bind, Except.bind, ciEoi, Option.isNone_none, if_true]
      · rfl
    rw [hend, upto_ok, Heap.content, addrs_nil, List.map_nil, List.take_nil, List.append_nil]
  | cons g l ih =>
    obtain ⟨n, rfl⟩ := exists_fuel hn
    obtain ⟨x, hx⟩ := hc.live f List.mem_cons_self
    obtain ⟨y, hy⟩ := hc.live g (by simp)
    have hnext : x.next = some g := (hc.tail hx).head
    have htail : h.Chain (some g) (g :: l) := hnext ▸ hc.tail hx
    rw [copyLoop]
    refine upto_ite (fun hlt => ?_) fun hge => ?_
    · have hstep : ciEoi (⟨some g, .next f⟩ : Ci ι) = false := rfl
      simp only [ciNext_of hx, hnext, bind, Except.bind, hstep, Bool.false_eq_true, if_false, ciSize_of hy,
        ciData_of hy]
      have htouch : Upto ok (h.touch y.data (min y.size (maxSize - mem.length))) fun _ => True :=
        ht g List.mem_cons_self y hy 0 _ (by omega)
      refine htouch.bind fun _ _ => ?_
      have hload : h.load y.data (min y.size (maxSize - mem.length)) =
          (y.addrs.map h.byte).take (min y.size (maxSize - mem.length)) := load_eq (j := 0) (by omega) h
      refine (ih htail (Nat.lt_of_succ_lt_succ hn) (fun f hf => ht f (List.mem_cons_of_mem _ hf)) _ _).mono
        fun b hb => ?_
      have hlen : (y.addrs.map h.byte).length = y.size := by rw [List.length_map, addrs_length]
      have hpiece : (y.addrs.map h.byte).take (min y.size (maxSize - mem.length)) =
          (y.addrs.map h.byte).take (maxSize - mem.length) := List.take_eq_take_iff.mpr (by rw [hlen]; omega)
      have hrest : maxSize - (mem ++ (y.addrs.map h.byte).take (min y.size (maxSize - mem.length))).length =
          maxSize - mem.length - (y.addrs.map h.byte).length := by
        rw [List.length_append, List.length_take, hlen]
        omega
      rw [hb, hload, hrest, content_cons hy, List.take_append, hpiece, List.append_assoc]
    · rw [upto_ok, Nat.sub_eq_zero_of_le (Nat.le_of_not_lt hge), List.take_zero, List.append_nil]

/-- `gabs_pbuf_copy` from the fragment `f` on, where `buf_seek` has stopped. -/
theorem copy_from (hs : h.Sound) {k offset : Nat} {lp : Link ι} (hseek : bufSeek h p offset = .ok (⟨some f, lp⟩, k))
    (hp : gabsPbufOkay p = true) (hc : h.Chain (some f) (f :: l)) (hlo : k ≤ offset) (hhi : offset ≤ k + h.size f)
    (ha : h.Touchable ok (f :: l)) (maxSize : Nat) : Upto ok (gabsPbufCopy h p offset maxSize) fun b =>
      b = ((h.content (f :: l)).drop (offset - k)).take maxSize := by
  obtain ⟨x, hx⟩ := hc.live f List.mem_cons_self
  rw [size_of hx] at hhi
  have hoff : sub offset k = offset - k := sub_of_le hlo
  have hleft : sub x.size (offset - k) = x.size - (offset - k) := sub_of_le (by omega)
  simp only [gabsPbufCopy, hseek, bind, Except.bind, hp, Bool.not_true, ciEoi, Option.isNone_some, Bool.or_false,
    Bool.false_eq_true, if_false, ciSize_of hx, ciData_of hx, hoff, hleft]
  refine (ha f List.mem_cons_self x hx (offset - k) _ (by omega)).bind fun _ _ => ?_
  have hload := load_eq (x := x) (j := offset - k) (k := min (x.size - (offset - k)) maxSize) (by omega) h
  have hfuel : l.length < h.fuel := Nat.lt_of_succ_lt (hc.length_lt hs)
  refine (copyLoop_upto hc hfuel (fun g hg => ha g (List.mem_cons_of_mem _ hg)) _ _ _).mono fun b hb => ?_
  have hx_len : (x.addrs.map h.byte).length = x.size := by rw [List.length_map, addrs_length]
  have hlen : (h.load (x.data.add (offset - k)) (min (x.size - (offset - k)) maxSize)).length =
      min (x.size - (offset - k)) maxSize := by rw [Heap.load, List.length_map, List.length_range]
  rw [hb, hlen, hload, content_cons hx, take_drop_append (by rw [hx_len]; omega), hx_len]

theorem Heap.Chain.okay (hc : h.Chain p l) (hf : f ∈ l) : gabsPbufOkay p = true := by
  rw [gabsPbufOkay, hc.head]
  cases l with
  | nil => cases hf
  | cons g l => rfl

/-- `gabs_pbuf_copy` from an offset behind the end. -/
theorem copy_behind {k offset : Nat} {lp : Link ι} (hseek : bufSeek h p offset = .ok (⟨none, lp⟩, k)) (maxSize : Nat) :
    gabsPbufCopy h p offset maxSize = .ok [] := by
  simp only [gabsPbufCopy, hseek, bind, Except.bind, ciEoi, Option.isNone_none, Bool.or_true, if_true]

/-- **`gabs_pbuf_copy`** writes the slice asked for. -/
theorem gabsPbufCopy_upto (hs : h.Sound) (hc : h.Chain p l) (ht : h.total l < 2 ^ 64) (ha : h.Touchable ok l)
    (offset maxSize : Nat) : Upto ok (gabsPbufCopy h p offset maxSize) fun b =>
      b = ((h.content l).drop offset).take maxSize := by
  obtain ⟨l₁, l₂, lp, rfl, hseek, hlo, hhi⟩ :=
    seekLoop_eq hc (hc.length_lt hs) (Nat.zero_le offset) (by omega) (.param : Link ι)
  rw [Nat.zero_add] at hseek hlo hhi
  rw [content_drop (fun f hf => hc.live f (List.mem_append_left _ hf)) hlo]
  cases l₂ with
  | nil => rw [copy_behind hseek, upto_ok, Heap.content, addrs_nil, List.map_nil, List.drop_nil, List.take_nil]
  | cons f t =>
    exact copy_from hs hseek (hc.okay (f := f) (by simp)) hc.behind hlo (hhi f rfl)
      (fun g hg => ha g (List.mem_append_right _ hg)) maxSize

end Gabs.Pbuf
