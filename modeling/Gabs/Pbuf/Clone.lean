import Gabs.Pbuf.Made

/-!
# Packet buffers: copies and clones are slices

- `Heap.Readable`: the bytes of a chain are in accessible memory;
- `copyToLoop_eq`, `gabsPbufCopyTo_eq`: `gabs_pbuf_copy` stores the slice asked for;
- `Cloned`, `gabsPbufClone_eq`, `gabsPbufClone_overrun`: `gabs_pbuf_clone`, and what becomes of it when the size of its
  block does not fit into a `size_t`;
- `copy_clone_slice`: both.
-/

namespace Gabs.Pbuf

open Gabs.Lib

variable {ι : Type} {h : Heap ι} {p : Option Nat} {mem : Ptr} {f n : Nat} {x : Frag} {l : List Nat} {a b : List UInt8}

/-! ## Reading a chain -/

/-- The bytes in use of the fragments `l` are in accessible memory. -/
def Heap.Readable (h : Heap ι) (l : List Nat) : Prop :=
  ∀ f ∈ l, ∀ x, h.frags f = some x → h.touch x.data x.size = .ok ()

theorem Heap.Readable.touchable (hr : h.Readable l) (ok : Fault → Prop) : h.Touchable ok l := by
  intro f hf x hx j k hjk
  rw [touch_part (hr f hf x hx) hjk]
  exact trivial

/-- **`gabs_pbuf_copy`** of accessible bytes. -/
theorem gabsPbufCopy_eq (hs : h.Sound) (hc : h.Chain p l) (ht : h.total l < 2 ^ 64) (hr : h.Readable l)
    (offset maxSize : Nat) : gabsPbufCopy h p offset maxSize = .ok (((h.content l).drop offset).take maxSize) := by
  have hcopy := gabsPbufCopy_upto hs hc ht (hr.touchable fun _ => False) offset maxSize
  cases hrun : gabsPbufCopy h p offset maxSize with
  | error e => exact (hcopy.error_ok hrun).elim
  | ok b => rw [hcopy.of_ok hrun]

/-! ## Storing the copy -/

/-- The memory that is written has no byte of the chain. -/
def Heap.Apart (h : Heap ι) (l : List Nat) (mem : Ptr) (n : Nat) : Prop := ∀ q ∈ h.addrs l, ¬ mem.Spans n q

/-- A part of a fragment is read as it was before a store apart from it. -/
theorem load_apart (hx : h.frags f = some x) (ha : h.Apart (f :: l) mem b.length) {j k : Nat} (hjk : j + k ≤ x.size)
    (hle : a.length ≤ b.length) : (h.store mem a).load (x.data.add j) k = h.load (x.data.add j) k := by
  refine List.map_congr_left fun i hi => ?_
  have hmem : (x.data.add j).add i ∈ h.addrs (f :: l) := by
    rw [addrs_cons hx]
    have hi := List.mem_range.mp hi
    refine List.mem_append_left _ (List.mem_map.mpr ⟨j + i, List.mem_range.mpr (by omega), ?_⟩)
    simp [Ptr.add, Nat.add_assoc]
  exact store_byte_of_notMem fun hs => ha _ hmem (hs.mono hle)

/-- One `memcpy` of a copy that stores `b` altogether. -/
theorem memcpy_eq (hx : h.frags f = some x) (hr : h.touch x.data x.size = .ok ())
    (hw : h.touch mem b.length = .ok ()) (ha : h.Apart (f :: l) mem b.length) {j k : Nat} (hjk : j + k ≤ x.size)
    (hle : a.length + k ≤ b.length) : (h.store mem a).memcpy (mem.add a.length) (x.data.add j) k =
      .ok (h.store mem (a ++ h.load (x.data.add j) k)) := by
  have hread : (h.store mem a).touch (x.data.add j) k = .ok () := touch_part hr hjk
  have hwrite : (h.store mem a).touch (mem.add a.length) k = .ok () := touch_part hw hle
  simp only [Heap.memcpy, hread, hwrite, bind, Except.bind, load_apart hx ha hjk (Nat.le_of_add_right_le hle),
    store_append]

theorem load_length (h : Heap ι) (q : Ptr) (n : Nat) : (h.load q n).length = n := by
  rw [Heap.load, List.length_map, List.length_range]

theorem Heap.Apart.tail (ha : h.Apart (f :: l) mem n) (hx : h.frags f = some x) : h.Apart l mem n := fun q hq =>
  ha q (by rw [addrs_cons hx]; exact List.mem_append_right _ hq)

/-- **The loop of `gabs_pbuf_copy`**, with its stores. -/
theorem copyToLoop_eq (hc : h.Chain (some f) (f :: l)) (hn : l.length < n) (hr : h.Readable l) {maxSize : Nat}
    (hb : b = a ++ (h.content l).take (maxSize - a.length)) (hw : h.touch mem b.length = .ok ())
    (ha : h.Apart l mem b.length) (lp : Link ι) :
    copyToLoop maxSize n (h.store mem a) ⟨some f, lp⟩ (mem.add a.length) a.length = .ok (h.store mem b, b.length) := by
  induction l generalizing f n lp a with
  | nil =>
    obtain ⟨n, rfl⟩ := exists_fuel hn
    obtain ⟨x, hx⟩ := hc.live f List.mem_cons_self
    have hnext : x.next = none := (hc.tail hx).head
    have hx' : (h.store mem a).frags f = some x := hx
    obtain rfl : b = a := by rw [hb, Heap.content, addrs_nil, List.map_nil, List.take_nil, List.append_nil]
    rw [copyToLoop]
    split
    · simp only [ciNext_of hx', hnext, bind, Except.bind, ciEoi, Option.isNone_none, if_true]
    · rfl
  | cons g l ih =>
    obtain ⟨n, rfl⟩ := exists_fuel hn
    obtain ⟨x, hx⟩ := hc.live f List.mem_cons_self
    obtain ⟨y, hy⟩ := hc.live g (by simp)
    have hnext : x.next = some g := (hc.tail hx).head
    have htail : h.Chain (some g) (g :: l) := hnext ▸ hc.tail hx
    have hx' : (h.store mem a).frags f = some x := hx
    have hy' : (h.store mem a).frags g = some y := hy
    rw [copyToLoop]
    split
    · rename_i hlt
      have hlen : (y.addrs.map h.byte).length = y.size := by rw [List.length_map, addrs_length]
      have hload : h.load (y.data.add 0) (min y.size (maxSize - a.length)) =
          (y.addrs.map h.byte).take (min y.size (maxSize - a.length)) := load_eq (j := 0) (by omega) h
      have hpiece : (y.addrs.map h.byte).take (min y.size (maxSize - a.length)) =
          (y.addrs.map h.byte).take (maxSize - a.length) := List.take_eq_take_iff.mpr (by rw [hlen]; omega)
      -- What is stored after this piece is the rest of `b`.
      have hb' : b = a ++ h.load (y.data.add 0) (min y.size (maxSize - a.length)) ++
          (h.content l).take (maxSize - (a ++ h.load (y.data.add 0) (min y.size (maxSize - a.length))).length) := by
        rw [hb, content_cons hy, List.take_append, hload, hpiece, List.append_assoc, List.length_append,
          List.length_take, hlen]
        congr 3
        omega
      have hle : a.length + min y.size (maxSize - a.length) ≤ b.length := by
        rw [hb', List.length_append, List.length_append, load_length]
        exact Nat.le_add_right _ _
      have hcopy := memcpy_eq hy (hr g List.mem_cons_self y hy) hw ha (j := 0)
        (k := min y.size (maxSize - a.length)) (by omega) hle
      have hzero : y.data.add 0 = y.data := rfl
      have hstep : ciEoi (⟨some g, .next f⟩ : Ci ι) = false := rfl
      rw [hzero] at hcopy hb'
      simp only [ciNext_of hx', hnext, bind, Except.bind, hstep, Bool.false_eq_true, if_false, ciSize_of hy',
        ciData_of hy', hcopy]
      have hrest := ih htail (Nat.lt_of_succ_lt_succ hn) (fun c hc => hr c (List.mem_cons_of_mem _ hc)) hb'
        (ha.tail hy) (.next f)
      rw [List.length_append, load_length] at hrest
      have hnextmem : (mem.add a.length).add (min y.size (maxSize - a.length)) =
          mem.add (a.length + min y.size (maxSize - a.length)) := by simp [Ptr.add, Nat.add_assoc]
      rw [hnextmem]
      exact hrest
    · rename_i hge
      obtain rfl : b = a := by
        rw [hb, Nat.sub_eq_zero_of_le (Nat.le_of_not_lt hge), List.take_zero, List.append_nil]
      rfl

theorem Heap.Apart.mono {m : List Nat} (ha : h.Apart l mem n) (hm : ∀ q ∈ h.addrs m, q ∈ h.addrs l) : h.Apart m mem n :=
  fun q hq => ha q (hm q hq)

/-- `gabs_pbuf_copy`, with its stores, from the fragment `f` on, where `buf_seek` has stopped. -/
theorem copyTo_from (hs : h.Sound) {k offset : Nat} {lp : Link ι} (hseek : bufSeek h p offset = .ok (⟨some f, lp⟩, k))
    (hp : gabsPbufOkay p = true) (hc : h.Chain (some f) (f :: l)) (hlo : k ≤ offset) (hhi : offset ≤ k + h.size f)
    (hr : h.Readable (f :: l)) {maxSize : Nat} (hb : b = ((h.content (f :: l)).drop (offset - k)).take maxSize)
    (hw : h.touch mem b.length = .ok ()) (ha : h.Apart (f :: l) mem b.length) :
    gabsPbufCopyTo h p mem offset maxSize = .ok (h.store mem b, b.length) := by
  obtain ⟨x, hx⟩ := hc.live f List.mem_cons_self
  rw [size_of hx] at hhi
  have hoff : sub offset k = offset - k := sub_of_le hlo
  have hleft : sub x.size (offset - k) = x.size - (offset - k) := sub_of_le (by omega)
  have hlen : (x.addrs.map h.byte).length = x.size := by rw [List.length_map, addrs_length]
  have hload := load_eq (x := x) (j := offset - k) (k := min (x.size - (offset - k)) maxSize) (by omega) h
  -- The first piece, and what is stored by the loop.
  have hb' : b = h.load (x.data.add (offset - k)) (min (x.size - (offset - k)) maxSize) ++
      (h.content l).take
        (maxSize - (h.load (x.data.add (offset - k)) (min (x.size - (offset - k)) maxSize)).length) := by
    rw [hb, load_length, hload, content_cons hx, take_drop_append (by rw [hlen]; omega), hlen]
  have hle : min (x.size - (offset - k)) maxSize ≤ b.length := by
    rw [hb', List.length_append, load_length]
    exact Nat.le_add_right _ _
  have hcopy : h.memcpy mem (x.data.add (offset - k)) (min (x.size - (offset - k)) maxSize) =
      .ok (h.store mem (h.load (x.data.add (offset - k)) (min (x.size - (offset - k)) maxSize))) := by
    have hfirst := memcpy_eq (a := []) hx (hr f List.mem_cons_self x hx) hw ha (j := offset - k)
      (k := min (x.size - (offset - k)) maxSize) (by omega) (by rw [List.length_nil, Nat.zero_add]; exact hle)
    rwa [store_nil] at hfirst
  simp only [gabsPbufCopyTo, hseek, bind, Except.bind, hp, Bool.not_true, ciEoi, Option.isNone_some, Bool.or_false,
    Bool.false_eq_true, if_false, ciSize_of hx, ciData_of hx, hoff, hleft, hcopy]
  have hfuel : l.length < h.fuel := Nat.lt_of_succ_lt (hc.length_lt hs)
  have hloop := copyToLoop_eq hc hfuel (fun g hg => hr g (List.mem_cons_of_mem _ hg)) hb' hw (ha.tail hx) lp
  rw [load_length] at hloop
  exact hloop

/-- **`gabs_pbuf_copy`** stores the slice asked for. -/
theorem gabsPbufCopyTo_eq (hs : h.Sound) (hc : h.Chain p l) (ht : h.total l < 2 ^ 64) (hr : h.Readable l)
    {offset maxSize : Nat} (hb : b = ((h.content l).drop offset).take maxSize) (hw : h.touch mem b.length = .ok ())
    (ha : h.Apart l mem b.length) : gabsPbufCopyTo h p mem offset maxSize = .ok (h.store mem b, b.length) := by
  obtain ⟨l₁, l₂, lp, rfl, hseek, hlo, hhi⟩ :=
    seekLoop_eq hc (hc.length_lt hs) (Nat.zero_le offset) (by omega) (.param : Link ι)
  rw [Nat.zero_add] at hseek hlo hhi
  have hseek' : bufSeek h p offset = .ok (⟨l₂.head?, lp⟩, h.total l₁) := hseek
  rw [content_drop (fun f hf => hc.live f (List.mem_append_left _ hf)) hlo] at hb
  cases l₂ with
  | nil =>
    rw [Heap.content, addrs_nil, List.map_nil, List.drop_nil, List.take_nil] at hb
    simp only [gabsPbufCopyTo, hseek', bind, Except.bind, List.head?_nil, ciEoi, Option.isNone_none, Bool.or_true,
      if_true, hb, store_nil, List.length_nil]
  | cons f t =>
    have hmem : ∀ q ∈ h.addrs (f :: t), q ∈ h.addrs (l₁ ++ f :: t) := fun q hq => by
      rw [addrs_append]
      exact List.mem_append_right _ hq
    exact copyTo_from hs hseek' (hc.okay (f := f) (by simp)) hc.behind hlo (hhi f rfl)
      (fun g hg => hr g (List.mem_append_right _ hg)) hb hw (ha.mono hmem)

/-! ## The clone -/

/-- **A clone**: the buffer `v` is one new fragment that holds the bytes `b` in its own block; the other fragments and
the rest of memory are as before. -/
structure Cloned (h h' : Heap ι) (v : Option Nat) (b : List UInt8) (alloc : Nat) : Prop where
  buf : v = some h.asked
  frag : h'.frags h.asked = some (.filled h.asked b.length alloc)
  chain : h'.Chain v [h.asked]
  content : h'.content [h.asked] = b
  block : sizeofFrag + b.length ≤ h'.requests h.asked
  frags : ∀ f, f ≠ h.asked → h'.frags f = h.frags f
  byte : ∀ q, q.block ≠ .own h.asked → h'.byte q = h.byte q
  slots : h'.slots = h.slots

/-- Accessible memory is in no block that is still to be allocated. -/
theorem touch_fresh (hs : h.Sound) {q : Ptr} (ht : h.touch q n = .ok ()) (m : Nat) (x y : Frag) :
    ((h.fresh m x).put h.asked y).touch q n = .ok () := by
  have hdead : h.frags h.asked = none := by
    cases hx : h.frags h.asked with
    | none => rfl
    | some x => exact absurd (hs _ x hx) (Nat.lt_irrefl _)
  unfold Heap.touch at ht ⊢
  split
  · rfl
  · rename_i hn
    rw [if_neg hn] at ht
    cases hb : q.block with
    | null => rw [hb] at ht; cases ht
    | user k => rw [hb] at ht; exact ht
    | own f =>
      rw [hb] at ht
      have hf : f ≠ h.asked := by
        rintro rfl
        simp only [hdead, if_true] at ht
        cases ht
      have hfrags : ((h.fresh m x).put h.asked y).frags f = h.frags f := by
        rw [put_frags, Function.update_of_ne hf, fresh_frags_of_ne hf]
      have hreq : ((h.fresh m x).put h.asked y).requests f = h.requests f := Function.update_of_ne hf ..
      simp only [hfrags, hreq]
      exact ht

/-- The heap in which `gabs_pbuf_clone` copies: a new fragment, with all its bytes reserved. -/
def Heap.reserved (h : Heap ι) (size alloc : Nat) : Heap ι :=
  (h.fresh (wrap (sizeofFrag + size)) (.blank h.asked size alloc)).put h.asked (.filled h.asked size alloc)

theorem reserved_frags_of_ne (hf : f ≠ h.asked) (size alloc : Nat) : (h.reserved size alloc).frags f = h.frags f := by
  rw [Heap.reserved, put_frags, Function.update_of_ne hf, fresh_frags_of_ne hf]

theorem reserved_frags (h : Heap ι) (size alloc : Nat) :
    (h.reserved size alloc).frags h.asked = some (.filled h.asked size alloc) := Function.update_self ..

theorem Heap.Sound.reserved (hs : h.Sound) (size alloc : Nat) : (h.reserved size alloc).Sound := by
  intro f y hy
  by_cases e : f = h.asked
  · rw [e]
    exact Nat.lt_succ_self _
  · rw [reserved_frags_of_ne e] at hy
    exact Nat.lt_succ_of_lt (hs f y hy)

/-- The block of the new fragment has room for its bytes exactly when its size has not wrapped. -/
theorem touch_reserved (h : Heap ι) {size : Nat} (hsize : size < 2 ^ 64) (alloc : Nat) :
    (h.reserved size alloc).touch ⟨.own h.asked, 0⟩ size =
      if sizeofFrag + size < 2 ^ 64 then .ok () else .error .overrun := by
  have hreq : (h.reserved size alloc).requests h.asked = wrap (sizeofFrag + size) := Function.update_self ..
  unfold Heap.touch
  simp only [reserved_frags, hreq, reduceCtorEq, if_false, Nat.add_zero]
  by_cases hover : sizeofFrag + size < 2 ^ 64
  · rw [wrap_of_lt hover, if_pos (Nat.le_refl _), if_pos hover, ite_self]
  · have hzero : size ≠ 0 := by
      rintro rfl
      exact hover (by decide)
    have hshort : ¬ sizeofFrag + size ≤ wrap (sizeofFrag + size) := by
      have hwrap : wrap (sizeofFrag + size) < 2 ^ 64 := Nat.mod_lt _ (by decide)
      omega
    rw [if_neg hzero, if_neg hshort, if_neg hover]

/-- `gabs_pbuf_clone` of bytes that are there. -/
theorem gabsPbufClone_of (hg : h.grants h.asked = true) {offset size alloc : Nat} (hsize : size < 2 ^ 64)
    (hcopy : gabsPbufCopy (h.reserved size alloc) p offset size = .ok b) (hb : b.length = size) :
    gabsPbufClone h p offset size alloc = if sizeofFrag + size < 2 ^ 64
      then .ok ((h.reserved size alloc).store ⟨.own h.asked, 0⟩ b, some h.asked) else .error .overrun := by
  have hnew : gabsPbufNew h alloc size =
      .ok (h.fresh (wrap (sizeofFrag + size)) (.blank h.asked size alloc), some h.asked) := by
    simp only [gabsPbufNew, hg, if_true, Heap.put, Heap.fresh, Frag.blank]
  have hres : ciReserveTail (h.fresh (wrap (sizeofFrag + size)) (.blank h.asked size alloc))
      (ciInit (h.fresh (wrap (sizeofFrag + size)) (.blank h.asked size alloc)) (.param (some h.asked))) size =
        .ok (h.reserved size alloc, ⟨.own h.asked, 0⟩) := reserve_blank alloc hsize (fresh_frags_self ..)
  simp only [gabsPbufClone, hnew, bind, Except.bind, gabsPbufOkay, Option.isSome_some, Bool.not_true,
    Bool.false_eq_true, if_false, hres, hcopy]
  rw [hb, touch_reserved h hsize]
  by_cases hover : sizeofFrag + size < 2 ^ 64
  · simp only [if_pos hover, Heap.assert, decide_true, Bool.or_true, if_true]
  · simp only [if_neg hover]

/-- What that clone is. -/
theorem cloned_of (h : Heap ι) (alloc : Nat) (hover : sizeofFrag + b.length < 2 ^ 64) :
    Cloned h ((h.reserved b.length alloc).store ⟨.own h.asked, 0⟩ b) (some h.asked) b alloc := by
  have hfrag := reserved_frags h b.length alloc
  have hstored : ((h.reserved b.length alloc).store ⟨.own h.asked, 0⟩ b).frags h.asked =
      some (.filled h.asked b.length alloc) := hfrag
  have hcontent : ((h.reserved b.length alloc).store ⟨.own h.asked, 0⟩ b).content [h.asked] = b := by
    refine Eq.trans ?_ (load_store (h.reserved b.length alloc) ⟨.own h.asked, 0⟩ b)
    rw [content_cons hstored, Heap.content, addrs_nil, List.map_nil, List.append_nil, Frag.addrs, List.map_map]
    rfl
  refine ⟨rfl, hstored, ⟨⟨rfl, next_of hstored⟩, fun f hf => ?_⟩, hcontent, ?_, fun f hf => reserved_frags_of_ne hf _ _,
    fun q hq => store_byte_of_notMem fun hs => hq hs.1, rfl⟩
  · rw [List.mem_singleton.mp hf]
    exact ⟨_, hstored⟩
  · have hreq : (h.reserved b.length alloc).requests h.asked = wrap (sizeofFrag + b.length) := Function.update_self ..
    show sizeofFrag + b.length ≤ (h.reserved b.length alloc).requests h.asked
    exact Nat.le_of_eq (hreq.trans (wrap_of_lt hover)).symm

/-- The new fragment leaves a chain as it is. -/
theorem reserved_chain (hs : h.Sound) (hc : h.Chain p l) (size alloc : Nat) :
    (h.reserved size alloc).Chain p l ∧ (h.reserved size alloc).total l = h.total l ∧
      (h.reserved size alloc).content l = h.content l := by
  obtain ⟨hc', hsame⟩ := hc.put_fresh hs (wrap (sizeofFrag + size)) (.blank h.asked size alloc)
    (.filled h.asked size alloc)
  have haddrs : (h.reserved size alloc).addrs l = h.addrs l := addrs_congr hsame
  have hcontent : (h.reserved size alloc).content l = h.content l := congrArg (List.map h.byte) haddrs
  exact ⟨hc', total_congr hsame, hcontent⟩

theorem Heap.Readable.reserved (hr : h.Readable l) (hs : h.Sound) (hc : h.Chain p l) (size alloc : Nat) :
    (h.reserved size alloc).Readable l := by
  intro f hf x hx
  rw [reserved_frags_of_ne (hc.ne_asked hs hf)] at hx
  exact touch_fresh hs (hr f hf x hx) _ _ _

/-- **`gabs_pbuf_clone`** of a range inside the buffer. -/
theorem gabsPbufClone_eq (hs : h.Sound) (hc : h.Chain p l) (ht : h.total l < 2 ^ 64) (hr : h.Readable l)
    (hg : h.grants h.asked = true) {offset size : Nat} (hle : offset + size ≤ h.total l) (alloc : Nat) :
    gabsPbufClone h p offset size alloc = if sizeofFrag + size < 2 ^ 64
      then .ok ((h.reserved size alloc).store ⟨.own h.asked, 0⟩ (((h.content l).drop offset).take size), some h.asked)
      else .error .overrun := by
  obtain ⟨hc', ht', hcontent⟩ := reserved_chain hs hc size alloc
  have hcopy := gabsPbufCopy_eq (hs.reserved size alloc) hc' (by rw [ht']; exact ht) (hr.reserved hs hc size alloc)
    offset size
  rw [hcontent] at hcopy
  refine gabsPbufClone_of hg (Nat.lt_of_le_of_lt (Nat.le_trans (Nat.le_add_left _ _) hle) ht) hcopy ?_
  rw [List.length_take, List.length_drop, content_length hc.live]
  omega

/-! ## The slice -/

/-- **Copies and clones are slices**; a clone is one exactly when the size of its block fits into a `size_t`. -/
theorem copy_clone_slice (hs : h.Sound) (hc : h.Chain p l) (ht : h.total l < 2 ^ 64) (hr : h.Readable l) :
    (∀ offset maxSize mem, h.touch mem (min maxSize (h.total l - offset)) = .ok () →
      h.Apart l mem (min maxSize (h.total l - offset)) → ∃ h', gabsPbufCopyTo h p mem offset maxSize =
        .ok (h', if offset < h.total l then min maxSize (h.total l - offset) else 0) ∧
      h'.load mem (min maxSize (h.total l - offset)) = ((h.content l).drop offset).take maxSize ∧
      (∀ q, ¬ mem.Spans (min maxSize (h.total l - offset)) q → h'.byte q = h.byte q) ∧
      h'.frags = h.frags ∧ h'.slots = h.slots ∧ h'.content l = h.content l) ∧
    ∀ offset size alloc, offset + size ≤ h.total l → h.grants h.asked = true →
      ((∃ h' v, gabsPbufClone h p offset size alloc = .ok (h', v) ∧
        Cloned h h' v (((h.content l).drop offset).take size) alloc) ↔ sizeofFrag + size < 2 ^ 64) := by
  constructor
  · intro offset maxSize mem hw ha
    have hlen : (((h.content l).drop offset).take maxSize).length = min maxSize (h.total l - offset) := by
      rw [List.length_take, List.length_drop, content_length hc.live]
    rw [← hlen] at hw ha ⊢
    have hcopy := gabsPbufCopyTo_eq hs hc ht hr rfl hw ha
    refine ⟨_, ?_, load_store h mem _, fun q hq => store_byte_of_notMem hq, rfl, rfl, store_content ha⟩
    rw [hcopy]
    split
    · rfl
    · rename_i hge
      rw [hlen, Nat.sub_eq_zero_of_le (Nat.le_of_not_lt hge), Nat.min_zero]
  · intro offset size alloc hle hg
    have hlen : (((h.content l).drop offset).take size).length = size := by
      rw [List.length_take, List.length_drop, content_length hc.live]
      omega
    have hclone := gabsPbufClone_eq hs hc ht hr hg hle alloc
    constructor
    · rintro ⟨h', v, hrun, -⟩
      by_contra hover
      rw [hclone, if_neg hover] at hrun
      cases hrun
    · intro hover
      have hcloned := cloned_of (b := ((h.content l).drop offset).take size) h alloc (by rw [hlen]; exact hover)
      rw [hlen] at hcloned
      refine ⟨_, _, ?_, hcloned⟩
      rw [hclone, if_pos hover]

/-- Copies and clones of a buffer of several fragments. -/
theorem copy_clone_slice_across :
    (∀ offset maxSize mem, sevenBytes.touch mem (min maxSize (sevenBytes.total [0, 1, 2] - offset)) = .ok () →
      sevenBytes.Apart [0, 1, 2] mem (min maxSize (sevenBytes.total [0, 1, 2] - offset)) →
      ∃ h', gabsPbufCopyTo sevenBytes (some 0) mem offset maxSize = .ok (h', if offset < sevenBytes.total [0, 1, 2]
        then min maxSize (sevenBytes.total [0, 1, 2] - offset) else 0) ∧
      h'.load mem (min maxSize (sevenBytes.total [0, 1, 2] - offset)) =
        ((sevenBytes.content [0, 1, 2]).drop offset).take maxSize ∧
      (∀ q, ¬ mem.Spans (min maxSize (sevenBytes.total [0, 1, 2] - offset)) q → h'.byte q = sevenBytes.byte q) ∧
      h'.frags = sevenBytes.frags ∧ h'.slots = sevenBytes.slots ∧
      h'.content [0, 1, 2] = sevenBytes.content [0, 1, 2]) ∧
    ∀ offset size alloc, offset + size ≤ sevenBytes.total [0, 1, 2] → sevenBytes.grants sevenBytes.asked = true →
      ((∃ h' v, gabsPbufClone sevenBytes (some 0) offset size alloc = .ok (h', v) ∧
        Cloned sevenBytes h' v (((sevenBytes.content [0, 1, 2]).drop offset).take size) alloc) ↔
          sizeofFrag + size < 2 ^ 64) := by
  refine copy_clone_slice (heapOf_sound _ _) sevenBytes_chain (by decide) fun f hf x hx => ?_
  obtain rfl | rfl | rfl : f = 0 ∨ f = 1 ∨ f = 2 := by simpa using hf
  · cases hx
    rfl
  · cases hx
    rfl
  · cases hx
    rfl

/-- Four views of one object, of `2 ^ 64 - 1` bytes altogether. -/
def manyBytes : Heap (Fin 1) :=
  { heapOf (fun _ => some 0) [⟨⟨.user 0, 0⟩, ⟨.user 0, 0⟩, 2 ^ 62, 2 ^ 62, true, 1, some 1, 0⟩,
      ⟨⟨.user 0, 0⟩, ⟨.user 0, 0⟩, 2 ^ 62, 2 ^ 62, true, 1, some 2, 0⟩,
      ⟨⟨.user 0, 0⟩, ⟨.user 0, 0⟩, 2 ^ 62, 2 ^ 62, true, 1, some 3, 0⟩,
      ⟨⟨.user 0, 0⟩, ⟨.user 0, 0⟩, 2 ^ 62 - 1, 2 ^ 62 - 1, true, 1, none, 0⟩] with
    extent := fun _ => 2 ^ 62 }

/-- **A clone that overruns its block**: its size and that of the header do not fit into a `size_t`. -/
theorem clone_overruns : manyBytes.Sound ∧ manyBytes.Chain (some 0) [0, 1, 2, 3] ∧
    manyBytes.total [0, 1, 2, 3] < 2 ^ 64 ∧ manyBytes.Readable [0, 1, 2, 3] ∧
    0 + (2 ^ 64 - 1) ≤ manyBytes.total [0, 1, 2, 3] ∧ manyBytes.grants manyBytes.asked = true ∧
    gabsPbufClone manyBytes (some 0) 0 (2 ^ 64 - 1) 0 = .error .overrun := by
  have hs : manyBytes.Sound := fun _ _ hx => (List.getElem?_eq_some_iff.mp hx).1
  have hc : manyBytes.Chain (some 0) [0, 1, 2, 3] := chain_of_walk (n := 4) (by decide)
  have hr : manyBytes.Readable [0, 1, 2, 3] := fun f hf x hx => by
    obtain rfl | rfl | rfl | rfl : f = 0 ∨ f = 1 ∨ f = 2 ∨ f = 3 := by simpa using hf
    · cases hx
      rfl
    · cases hx
      rfl
    · cases hx
      rfl
    · cases hx
      rfl
  refine ⟨hs, hc, by decide, hr, by decide, rfl, ?_⟩
  rw [gabsPbufClone_eq hs hc (by decide) hr rfl (by decide) 0, if_neg (by decide)]

end Gabs.Pbuf
