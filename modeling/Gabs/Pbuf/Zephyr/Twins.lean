import Gabs.Lib.Tandem
import Gabs.Pbuf.Owned
import Gabs.Pbuf.Promised
import Gabs.Pbuf.Zephyr.Buffers
import Gabs.Pbuf.Zephyr.Cursor

/-!
# Packet buffers: fragments and network buffers that are twins

- `Frag.simple`, `Net.Is`: the network buffer that is a fragment; `Twin`: the two implementations are in the same state;
- `AbreastAt`, `Abreast`: their iterators are at the same position of a chain;
- `Twin.touch` … `Twin.put`: memory, and the data of one fragment;
- `Twin.deref`, `Twin.next`, `Twin.room`: reading, moving on, and the calls that reserve and release bytes.
-/

namespace Gabs.Pbuf

open Gabs.Lib

variable {ι : Type} {h h' : Heap ι} {z : Net ι} {p : Option Nat} {f n : Nat} {x y : Frag} {l l₁ l₂ : List Nat}
  {b : Buf ι} {it : Ci ι} {zt : NetCi ι} {op : RoomOp} {api : NetApi ι}

/-! ## Twins -/

/-- The data of a fragment, as that of a network buffer. -/
def Frag.simple (x : Frag) : NetBufSimple := ⟨x.data, x.size, x.cap, x.base⟩

/-- Network buffer `f` is the fragment `x`, for which `n` bytes have been asked. -/
structure Net.Is (z : Net ι) (f : Nat) (x : Frag) (n : Nat) : Prop where
  simple : z.simple f = x.simple
  external : z.external f = x.readonly
  fits : x.Fits
  cap : x.cap < 2 ^ 16
  block : n = sizeofFrag + z.blocks f

/-- **The two implementations are in the same state**: the same buffers are linked in the same way, with the same
references, data and memory. -/
structure Twin (h : Heap ι) (z : Net ι) : Prop where
  sound : h.Sound
  counted : h.Counted
  links : z.links = h.shape
  frag : ∀ f x, h.frags f = some x → z.Is f x (h.requests f)
  grants : z.grants = h.grants
  bytes : z.bytes = h.bytes
  extent : z.extent = h.extent
  ndebug : z.ndebug = h.ndebug

theorem Twin.slots (ht : Twin h z) : z.links.slots = h.slots := by rw [ht.links]; rfl

theorem Twin.fuel (ht : Twin h z) : z.fuel = h.fuel := by
  rw [Net.fuel, ht.links]
  rfl

theorem Twin.assert (ht : Twin h z) (c : Bool) : z.assert c = h.assert c := by
  rw [Net.assert, Heap.assert, ht.ndebug]

theorem shape_bufs (hx : h.frags f = some x) : h.shape.bufs f = some ⟨x.next, x.refcnt⟩ := by
  simp only [Heap.shape, hx, Option.map_some]

/-- **The same memory may be accessed.** -/
theorem Twin.touch (ht : Twin h z) (q : Ptr) (n : Nat) : z.touch q n = h.touch q n := by
  obtain ⟨block, off⟩ := q
  cases block with
  | null => rfl
  | user k => rw [Net.touch, Heap.touch, ht.extent]
  | own f =>
    simp only [Net.touch, Heap.touch, ht.links]
    cases hx : h.frags f with
    | none =>
      have hbuf : h.shape.bufs f = none := by simp only [Heap.shape, hx, Option.map_none]
      rw [if_pos hbuf, if_pos rfl]
    | some x =>
      have hbuf : h.shape.bufs f ≠ none := by simp [shape_bufs hx]
      have hroom : off + n ≤ z.blocks f ↔ sizeofFrag + off + n ≤ h.requests f := by
        rw [(ht.frag f x hx).block]
        omega
      rw [if_neg hbuf, if_neg (Option.some_ne_none x)]
      simp only [hroom]

theorem Twin.load (ht : Twin h z) (q : Ptr) (n : Nat) : z.load q n = h.load q n := by
  rw [Net.load, Heap.load, ht.bytes]

theorem Twin.store (ht : Twin h z) (q : Ptr) (data : List UInt8) : Twin (h.store q data) (z.store q data) where
  sound := ht.sound
  counted := ht.counted
  links := ht.links
  frag f x hx := by
    obtain ⟨hsimple, hext, hfits, hcap, hblock⟩ := ht.frag f x hx
    exact ⟨hsimple, hext, hfits, hcap, hblock⟩
  grants := ht.grants
  bytes := by
    rw [Net.store, ht.bytes]
    rfl
  extent := ht.extent
  ndebug := ht.ndebug

/-- The links and references of a heap in which the data of a fragment changes. -/
theorem shape_put (hx : h.frags f = some x) (hnext : y.next = x.next) (hrefs : y.refcnt = x.refcnt) :
    (h.put f y).shape = h.shape := by
  refine NetHeap.ext rfl (funext fun g => ?_) rfl rfl
  by_cases e : g = f
  · subst e
    rw [shape_bufs hx, shape_bufs (Function.update_self ..), hnext, hrefs]
  · simp only [Heap.shape, put_frags, Function.update_of_ne e]

/-- **The data of a fragment changes.** -/
theorem Twin.put (ht : Twin h z) (hx : h.frags f = some x) (hnext : y.next = x.next) (hrefs : y.refcnt = x.refcnt)
    (hro : y.readonly = x.readonly) (hcap : y.cap = x.cap) (hfits : y.Fits) : Twin (h.put f y) (z.put f y.simple) := by
  have hshape := shape_put hx hnext hrefs
  refine ⟨fun g w hw => ?_, fun g w hw => ?_, ht.links.trans hshape.symm, fun g w hw => ?_, ht.grants,
    ht.bytes, ht.extent, ht.ndebug⟩
  · by_cases e : g = f
    · subst e
      exact ht.sound g x hx
    · rw [put_frags, Function.update_of_ne e] at hw
      exact ht.sound g w hw
  · by_cases e : g = f
    · subst e
      rw [put_frags, Function.update_self] at hw
      cases hw
      rw [hrefs]
      exact ht.counted g x hx
    · rw [put_frags, Function.update_of_ne e] at hw
      exact ht.counted g w hw
  · by_cases e : g = f
    · subst e
      rw [put_frags, Function.update_self] at hw
      cases hw
      obtain ⟨-, hext, -, hlt, hblock⟩ := ht.frag g x hx
      exact ⟨Function.update_self .., hext.trans hro.symm, hfits, by rw [hcap]; exact hlt, hblock⟩
    · rw [put_frags, Function.update_of_ne e] at hw
      obtain ⟨hsimple, hext, hfit, hlt, hblock⟩ := ht.frag g w hw
      exact ⟨(Function.update_of_ne e ..).trans hsimple, hext, hfit, hlt, hblock⟩

/-! ## Iterators -/

/-- The first fragment of a buffer. -/
def Heap.value (h : Heap ι) : Buf ι → Option Nat
  | .slot i => h.slots i
  | .param frags => frags

/-- The address of a buffer's `frags`. -/
def Buf.start : Buf ι → Link ι
  | .slot i => .slot i
  | .param _ => .param

/-- The pointer that leads to the position after the fragments `l` of a buffer. -/
def Buf.link (b : Buf ι) (l : List Nat) : Link ι :=
  match l.getLast? with
  | none => b.start
  | some f => .next f

/-- **The iterators of both implementations are at one position** of the buffer `b`: behind the fragments `l₁`, and
before the fragments `l₂`. -/
structure AbreastAt (h : Heap ι) (b : Buf ι) (l₁ l₂ : List Nat) (it : Ci ι) (zt : NetCi ι) : Prop where
  chain : h.Chain (h.value b) (l₁ ++ l₂)
  basic : it = ⟨l₂.head?, b.link l₁⟩
  zephyr : zt = ⟨b, l₁.getLast?, l₂.head?⟩

/-- The iterators are at one position of the buffer `b`. -/
def Abreast (h : Heap ι) (b : Buf ι) (it : Ci ι) (zt : NetCi ι) : Prop := ∃ l₁ l₂, AbreastAt h b l₁ l₂ it zt

/-- An iterator of a handle variable. -/
theorem AbreastAt.at {i : ι} (ha : AbreastAt h (.slot i) l₁ l₂ it zt) : h.At i l₁ l₂ it := by
  refine ⟨ha.chain, by rw [ha.basic], ?_⟩
  rw [ha.basic]
  rfl

theorem Abreast.eoi (ha : Abreast h b it zt) : ciEoi it = Net.ciEoi zt := by
  obtain ⟨l₁, l₂, ha⟩ := ha
  rw [ciEoi, Net.ciEoi, ha.basic, ha.zephyr]

/-- The end, or a fragment. -/
theorem Abreast.cases (ha : Abreast h b it zt) : (it.cur = none ∧ zt.cur = none) ∨
    ∃ f x l₁ l₂, h.frags f = some x ∧ AbreastAt h b l₁ (f :: l₂) it zt := by
  obtain ⟨l₁, l₂, ha⟩ := ha
  cases l₂ with
  | nil => exact .inl ⟨by rw [ha.basic]; rfl, by rw [ha.zephyr]; rfl⟩
  | cons f l₂ =>
    obtain ⟨x, hx⟩ := ha.chain.live f (by simp)
    exact .inr ⟨f, x, l₁, l₂, hx, ha⟩

/-- The iterators stay where the links do. -/
theorem AbreastAt.congr (ha : AbreastAt h b l₁ l₂ it zt) (hslots : h'.slots = h.slots) (hnext : h'.next = h.next)
    (hlive : ∀ f, (∃ x, h.frags f = some x) → ∃ x, h'.frags f = some x) : AbreastAt h' b l₁ l₂ it zt := by
  have hvalue : h'.value b = h.value b := by
    cases b with
    | slot i => exact congrFun hslots i
    | param frags => rfl
  refine ⟨?_, ha.basic, ha.zephyr⟩
  rw [hvalue]
  exact ha.chain.congr (fun f _ => congrFun hnext f) fun f hf => hlive f (ha.chain.live f hf)

theorem put_live (y : Frag) (hg : ∃ x, h.frags n = some x) : ∃ x, (h.put f y).frags n = some x := by
  by_cases e : n = f
  · subst e
    exact ⟨y, Function.update_self ..⟩
  · rw [put_frags, Function.update_of_ne e]
    exact hg

theorem AbreastAt.put (ha : AbreastAt h b l₁ l₂ it zt) (hx : h.frags f = some x) (hnext : y.next = x.next) :
    AbreastAt (h.put f y) b l₁ l₂ it zt :=
  ha.congr rfl (put_next hx hnext) fun _ hg => put_live y hg

/-- `gabs_pbuf_ci_init`. -/
theorem Twin.init (ht : Twin h z) (hc : h.Chain (h.value b) l) : AbreastAt h b [] l (ciInit h b) (Net.ciInit z b) := by
  have hhead := hc.head
  refine ⟨hc, ?_, ?_⟩
  · rw [← hhead]
    cases b <;> rfl
  · rw [← hhead, Net.ciInit, Net.value.eq_def]
    cases b with
    | slot i =>
      rw [ht.slots]
      rfl
    | param frags => rfl

/-- **The fragment at the iterators is read.** -/
theorem Twin.deref (ht : Twin h z) (ha : Abreast h b it zt) :
    Tandem (fun x r => ∃ f, h.frags f = some x ∧ it.cur = some f ∧ r = (f, x.simple)) (h.deref it.cur)
    (z.deref zt.cur) := by
  rcases ha.cases with ⟨hit, hzt⟩ | ⟨f, x, l₁, l₂, hx, ha⟩
  · rw [hit, hzt]
    exact rfl
  · have hbuf : (z.links.bufs f).isSome = true := by
      rw [ht.links, shape_bufs hx]
      rfl
    rw [ha.basic, ha.zephyr]
    simp only [List.head?_cons]
    rw [deref_of hx, Net.deref, if_pos hbuf, tandem_ok, (ht.frag f x hx).simple]
    exact ⟨f, hx, rfl, rfl⟩

/-- What is read of it. -/
theorem Twin.read {α : Type} (ht : Twin h z) (ha : Abreast h b it zt) (k : Frag → α) (k' : NetBufSimple → α)
    (hk : ∀ x : Frag, x.Fits → x.cap < 2 ^ 16 → k x = k' x.simple) :
    Tandem Eq (do let x ← h.deref it.cur; .ok (k x)) (do let r ← z.deref zt.cur; .ok (k' r.2)) := by
  refine (ht.deref ha).bind ?_
  rintro x r ⟨f, hx, -, rfl⟩
  have his := ht.frag f x hx
  exact hk x his.fits his.cap

/-- The data of a fragment fits into the network buffer. -/
theorem Frag.Fits.simple (hx : x.Fits) (hc : x.cap < 2 ^ 16) : x.simple.Fits := ⟨hx.block, hx.le, hx.room, hc⟩

/-- `gabs_pbuf_ci_data`. -/
theorem Twin.data (ht : Twin h z) (ha : Abreast h b it zt) : Tandem Eq (ciData h it) (Net.ciData z zt) :=
  ht.read ha Frag.data NetBufSimple.data fun _ _ _ => rfl

/-- `gabs_pbuf_ci_size`. -/
theorem Twin.size (ht : Twin h z) (ha : Abreast h b it zt) : Tandem Eq (ciSize h it) (Net.ciSize z zt) :=
  ht.read ha Frag.size NetBufSimple.len fun _ _ _ => rfl

/-- `gabs_pbuf_ci_cap`. -/
theorem Twin.cap (ht : Twin h z) (ha : Abreast h b it zt) : Tandem Eq (ciCap h it) (Net.ciCap z zt) :=
  ht.read ha Frag.cap NetBufSimple.size fun _ _ _ => rfl

/-- `gabs_pbuf_ci_headroom`. -/
theorem Twin.headroom (doc : api.Documented) (ht : Twin h z) (ha : Abreast h b it zt) :
    Tandem Eq (ciHeadroom h it) (Net.ciHeadroom api z zt) := by
  refine ht.read ha Frag.headroom api.headroom fun x hx hc => ?_
  rw [hx.headroom, doc.headroom _ (hx.simple hc)]
  rfl

/-- `gabs_pbuf_ci_tailroom`. -/
theorem Twin.tailroom (doc : api.Documented) (ht : Twin h z) (ha : Abreast h b it zt) :
    Tandem Eq (ciTailroom h it) (Net.ciTailroom api z zt) := by
  refine ht.read ha Frag.tailroom api.tailroom fun x hx hc => ?_
  have hroom := hx.tailroom
  rw [hx.headroom] at hroom
  rw [doc.tailroom _ (hx.simple hc)]
  show x.tailroom = x.cap - (x.data.off - x.base.off) - x.size
  omega

/-- **`gabs_pbuf_ci_next`.** -/
theorem Twin.next_at (ht : Twin h z) (ha : AbreastAt h b l₁ l₂ it zt) :
    Tandem (fun it zt => ∃ f l, AbreastAt h b (l₁ ++ [f]) l it zt) (ciNext h it) (Net.ciNext z zt) := by
  cases l₂ with
  | nil =>
    rw [ha.basic, ha.zephyr]
    exact rfl
  | cons f l₂ =>
    obtain ⟨x, hx⟩ := ha.chain.live f (by simp)
    have hnext : x.next = l₂.head? := (ha.chain.behind.tail hx).head
    have hbuf : z.links.deref (some f) = .ok ⟨x.next, x.refcnt⟩ := by
      rw [ht.links, NetHeap.deref, shape_bufs hx]
    rw [ha.basic, ha.zephyr, List.head?_cons, ciNext_of hx, Net.ciNext, hbuf, hnext]
    refine ⟨f, l₂, ?_, ?_, ?_⟩
    · rw [List.append_assoc]
      exact ha.chain
    · simp only [Buf.link, List.getLast?_concat]
    · simp only [List.getLast?_concat]

theorem Twin.next (ht : Twin h z) (ha : Abreast h b it zt) : Tandem (Abreast h b) (ciNext h it) (Net.ciNext z zt) := by
  obtain ⟨l₁, l₂, ha⟩ := ha
  refine (ht.next_at ha).mono fun it zt hn => ?_
  obtain ⟨f, l, hat⟩ := hn
  exact ⟨_, _, hat⟩

/-! ## Room -/

/-- What a call that reserves or releases bytes makes of a fragment. -/
def RoomOp.frag (x : Frag) : RoomOp → Frag
  | .reserveHead n => { x with data := ⟨x.data.block, sub x.data.off n⟩, size := wrap (x.size + n) }
  | .releaseHead n => { x with size := sub x.size n, data := x.data.add n }
  | .reserveTail n => { x with size := wrap (x.size + n) }
  | .releaseTail n => { x with size := sub x.size n }

/-- The memory that it returns. -/
def RoomOp.mem (x : Frag) : RoomOp → Ptr
  | .reserveHead n => ⟨x.data.block, sub x.data.off n⟩
  | .releaseHead _ => x.data
  | .reserveTail _ => x.data.add x.size
  | .releaseTail n => x.data.add (sub x.size n)

/-- The function of `net_buf` for it. -/
def RoomOp.net (api : NetApi ι) : RoomOp → NetBufSimple → Nat → NetBufSimple × Ptr
  | .reserveHead _ => api.push
  | .releaseHead _ => api.pullMem
  | .reserveTail _ => api.add
  | .releaseTail _ => api.removeMem

/-- What a call answers, when its assertion holds. -/
theorem RoomOp.call_of (hx : h.frags f = some x) (ho : op.Holds x) (lp : Link ι) :
    op.call h ⟨some f, lp⟩ = .ok (h.put f (op.frag x), op.mem x) := by
  cases op with
  | reserveHead n =>
    have hn : n ≤ x.headroom := ho
    simp only [RoomOp.call, ciReserveHead, deref_of hx, bind, Except.bind, assert_of hn, modify_of hx,
      RoomOp.frag, RoomOp.mem]
  | reserveTail n =>
    have hn : n ≤ x.tailroom := ho
    simp only [RoomOp.call, ciReserveTail, deref_of hx, bind, Except.bind, assert_of hn, modify_of hx,
      RoomOp.frag, RoomOp.mem]
  | releaseHead n =>
    have hn : n ≤ x.size := ho
    simp only [RoomOp.call, ciReleaseHead, deref_of hx, bind, Except.bind, assert_of hn, modify_of hx,
      RoomOp.frag, RoomOp.mem]
  | releaseTail n =>
    have hn : n ≤ x.size := ho
    simp only [RoomOp.call, ciReleaseTail, deref_of hx, bind, Except.bind, assert_of hn, modify_of hx,
      RoomOp.frag, RoomOp.mem]

/-- The bytes in use still fit. -/
theorem RoomOp.fits (hx : x.Fits) (ho : op.Holds x) : (op.frag x).Fits := by
  cases op with
  | reserveHead => exact hx.reserve_head ho
  | releaseHead => exact hx.release_head ho
  | reserveTail => exact hx.reserve_tail ho
  | releaseTail => exact hx.release_tail ho

/-- The call does not change how the fragment is linked, and how large it is. -/
theorem RoomOp.frame (op : RoomOp) (x : Frag) : (op.frag x).next = x.next ∧ (op.frag x).refcnt = x.refcnt ∧
    (op.frag x).readonly = x.readonly ∧ (op.frag x).cap = x.cap := by
  cases op with
  | reserveHead | releaseHead | reserveTail | releaseTail => exact ⟨rfl, rfl, rfl, rfl⟩

/-- **The function of `net_buf` does the same.** -/
theorem RoomOp.net_of (doc : api.Documented) (hx : x.Fits) (hc : x.cap < 2 ^ 16) (ho : op.Holds x) :
    op.net api x.simple op.bytes = ((op.frag x).simple, op.mem x) := by
  have hfits := hx.simple hc
  have hroom := hx.room
  have htail := hx.tailroom
  have hle := hx.le
  rw [hx.headroom] at htail
  cases op with
  | reserveHead n =>
    have hn : n ≤ x.headroom := ho
    rw [hx.headroom] at hn
    have hoff : sub x.data.off n = x.data.off - n := sub_of_le (by omega)
    have hsize : wrap (x.size + n) = x.size + n := wrap_of_lt (by omega)
    refine (doc.push x.simple n hfits hn).trans ?_
    simp only [RoomOp.frag, RoomOp.mem, hoff, hsize]
    rfl
  | releaseHead n =>
    have hn : n ≤ x.size := ho
    refine (doc.pullMem x.simple n hfits hn).trans ?_
    simp only [RoomOp.frag, RoomOp.mem, sub_of_le hn]
    rfl
  | reserveTail n =>
    have hn : n ≤ x.tailroom := ho
    have hsize : wrap (x.size + n) = x.size + n := wrap_of_lt (by omega)
    have hle : n ≤ x.cap - (x.data.off - x.base.off) - x.size := by omega
    refine (doc.add x.simple n hfits hle).trans ?_
    simp only [RoomOp.frag, RoomOp.mem, hsize]
    rfl
  | releaseTail n =>
    have hn : n ≤ x.size := ho
    refine (doc.removeMem x.simple n hfits hn).trans ?_
    simp only [RoomOp.frag, RoomOp.mem, sub_of_le hn]
    rfl

/-- What follows from a change of the data of one fragment. -/
structure Adjusted (h h' : Heap ι) : Prop where
  shape : h'.shape = h.shape
  grants : h'.grants = h.grants

theorem Adjusted.next (ha : Adjusted h h') : h'.next = h.next := by
  funext f
  rw [← shape_next, ha.shape, shape_next]

theorem Adjusted.live (ha : Adjusted h h') (hf : ∃ x, h.frags f = some x) : ∃ x, h'.frags f = some x := by
  obtain ⟨x, hx⟩ := hf
  have hbuf := shape_bufs hx
  rw [← ha.shape] at hbuf
  obtain ⟨y, hy, -⟩ := Option.map_eq_some_iff.mp hbuf
  exact ⟨y, hy⟩

theorem AbreastAt.adjusted (hat : AbreastAt h b l₁ l₂ it zt) (ha : Adjusted h h') : AbreastAt h' b l₁ l₂ it zt :=
  hat.congr (congrArg NetHeap.slots ha.shape) ha.next fun _ => ha.live

/-- **A call that reserves or releases bytes**, in both implementations. -/
theorem Twin.room (doc : api.Documented) (ht : Twin h z) (ha : AbreastAt h b l₁ (f :: l₂) it zt)
    (hx : h.frags f = some x)
    (ho : op.Holds x) : Tandem (fun r r' => Twin r.1 r'.1 ∧ r.2 = r'.2 ∧ Adjusted h r.1) (op.call h it)
      (Net.change (op.net api) z zt op.bytes) := by
  have his := ht.frag f x hx
  obtain ⟨hnext, hrefs, hro, hcap⟩ := op.frame x
  have hbuf : (z.links.bufs f).isSome = true := by
    rw [ht.links, shape_bufs hx]
    rfl
  have hnet : Net.change (op.net api) z zt op.bytes = .ok (z.put f (op.frag x).simple, op.mem x) := by
    rw [ha.zephyr, List.head?_cons]
    simp only [Net.change, Net.deref, if_pos hbuf, bind, Except.bind, his.simple, RoomOp.net_of doc his.fits his.cap ho]
  rw [ha.basic, List.head?_cons, RoomOp.call_of hx ho, hnet, tandem_ok]
  exact ⟨ht.put hx hnext hrefs hro hcap (RoomOp.fits his.fits ho), rfl, shape_put hx hnext hrefs, rfl⟩

end Gabs.Pbuf
