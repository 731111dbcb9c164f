import Gabs.Pbuf.Ops

/-!
# Packet buffers: `buf.c` over any implementation

`buf.c` is one text, compiled with the implementation that is configured.

- `Impl`: what an implementation has: its own functions of `pbuf.h`, and the memory they work on;
- `Impl.gabsPbufSize` … `Impl.gabsPbufPut`: the functions of `buf.c`, which call nothing else;
- `Use`, `Impl.use`, `Impl.run`: a client of all of it, which may share its buffers;
- `ReadAlike`: two implementations that read the same;
- `basic`: the implementation of `basic.c`; the functions over it are those of the model (`basic_op`).
-/

namespace Gabs.Pbuf

open Gabs.Lib

variable {ι σ τ κ μ : Type}

/-- **An implementation of packet buffers**, with the state `σ` and the iterators `κ`. -/
structure Impl (ι σ κ : Type) where
  gabsPbufNew : σ → Nat → Nat → Except Fault (σ × Option Nat)
  gabsPbufNewRo : σ → Nat → Ptr → Nat → Except Fault (σ × Option Nat)
  gabsPbufIncref : σ → Option Nat → Except Fault σ
  gabsPbufDecref : σ → Option Nat → Except Fault σ
  ciInit : σ → Buf ι → κ
  ciNext : σ → κ → Except Fault κ
  ciEoi : κ → Bool
  ciData : σ → κ → Except Fault Ptr
  ciSize : σ → κ → Except Fault Nat
  ciCap : σ → κ → Except Fault Nat
  ciHeadroom : σ → κ → Except Fault Nat
  ciTailroom : σ → κ → Except Fault Nat
  ciReserveHead : σ → κ → Nat → Except Fault (σ × Ptr)
  ciReleaseHead : σ → κ → Nat → Except Fault (σ × Ptr)
  ciReserveTail : σ → κ → Nat → Except Fault (σ × Ptr)
  ciReleaseTail : σ → κ → Nat → Except Fault (σ × Ptr)
  ciInsert : σ → κ → Option Nat → Except Fault (σ × κ)
  ciRemove : σ → κ → Except Fault (σ × κ)
  ciDetach : σ → κ → Except Fault σ
  slots : σ → ι → Option Nat
  hold : σ → ι → Option Nat → σ
  fuel : σ → Nat
  assert : σ → Bool → Except Fault Unit
  touch : σ → Ptr → Nat → Except Fault Unit
  load : σ → Ptr → Nat → List UInt8
  store : σ → Ptr → List UInt8 → σ

namespace Impl

variable (M : Impl ι σ κ)

/-! ## Size and room -/

/-- The loop of `gabs_pbuf_size`. -/
def sizeLoop (h : σ) : Nat → κ → Nat → Except Fault Nat
  | 0, _, _ => .error .diverges
  | n + 1, it, size =>
    if M.ciEoi it then .ok size
    else do
      let s ← M.ciSize h it
      let it ← M.ciNext h it
      sizeLoop h n it (wrap (size + s))

/-- `gabs_pbuf_size`. -/
def gabsPbufSize (h : σ) (buf : Option Nat) : Except Fault Nat :=
  M.sizeLoop h (M.fuel h) (M.ciInit h (.param buf)) 0

/-- The loop of `gabs_pbuf_tailroom`. -/
def tailLoop (h : σ) : Nat → κ → Except Fault κ
  | 0, _ => .error .diverges
  | n + 1, it =>
    if M.ciEoi it then .ok it
    else do
      let next ← M.ciNext h it
      if M.ciEoi next then .ok it else tailLoop h n next

/-- `gabs_pbuf_tailroom`. -/
def gabsPbufTailroom (h : σ) (buf : Option Nat) : Except Fault Nat := do
  let it ← M.tailLoop h (M.fuel h) (M.ciInit h (.param buf))
  if M.ciEoi it then .ok 0 else M.ciTailroom h it

/-- `gabs_pbuf_headroom`. -/
def gabsPbufHeadroom (h : σ) (buf : Option Nat) : Except Fault Nat :=
  let it := M.ciInit h (.param buf)
  if M.ciEoi it then .ok 0 else M.ciHeadroom h it

/-! ## Chaining -/

/-- `gabs_pbuf_chain_front`. -/
def gabsPbufChainFront (h : σ) (i : ι) (front : Option Nat) : Except Fault σ := do
  let (h, _) ← M.ciInsert h (M.ciInit h (.slot i)) front
  .ok h

/-- The loop of `gabs_pbuf_chain_back`. -/
def backLoop (h : σ) : Nat → κ → Except Fault κ
  | 0, _ => .error .diverges
  | n + 1, it =>
    if M.ciEoi it then .ok it
    else do
      let it ← M.ciNext h it
      backLoop h n it

/-- `gabs_pbuf_chain_back`. -/
def gabsPbufChainBack (h : σ) (i : ι) (back : Option Nat) : Except Fault σ := do
  let it ← M.backLoop h (M.fuel h) (M.ciInit h (.slot i))
  let (h, _) ← M.ciInsert h it back
  .ok h

/-- The loop of `gabs_pbuf_chain_at`. -/
def atLoop (h : σ) (offset : Nat) : Nat → κ → Nat → Except Fault (κ × Nat)
  | 0, _, _ => .error .diverges
  | n + 1, it, bytes =>
    if M.ciEoi it then .ok (it, bytes)
    else do
      let s ← M.ciSize h it
      if offset < wrap (bytes + s) then .ok (it, bytes)
      else
        let it ← M.ciNext h it
        atLoop h offset n it (wrap (bytes + s))

/-- `gabs_pbuf_chain_at`. -/
def gabsPbufChainAt (h : σ) (i : ι) (next : Option Nat) (offset : Nat) : Except Fault σ :=
  if offset = 0 then M.gabsPbufChainFront h i next
  else do
    let (it, bytes) ← M.atLoop h offset (M.fuel h) (M.ciInit h (.slot i)) 0
    M.assert h (decide (bytes = offset))
    let (h, _) ← M.ciInsert h it next
    .ok h

/-! ## Views and copies -/

/-- The loop of `buf_seek`. -/
def seekLoop (h : σ) (offset : Nat) : Nat → κ → Nat → Except Fault (κ × Nat)
  | 0, _, _ => .error .diverges
  | n + 1, it, bytes =>
    if M.ciEoi it then .ok (it, bytes)
    else do
      let s ← M.ciSize h it
      if offset = 0 ∨ offset < wrap (bytes + s) then .ok (it, bytes)
      else
        let it ← M.ciNext h it
        seekLoop h offset n it (wrap (bytes + s))

/-- `buf_seek`. -/
def bufSeek (h : σ) (buf : Option Nat) (offset : Nat) : Except Fault (κ × Nat) :=
  M.seekLoop h offset (M.fuel h) (M.ciInit h (.param buf)) 0

/-- The loop of `gabs_pbuf_view`. -/
def viewLoop (alloc : Nat) : Nat → σ → κ → κ → Nat → Except Fault σ
  | 0, _, _, _, _ => .error .diverges
  | n + 1, h, it, inserter, size =>
    if size = 0 then .ok h
    else do
      let it ← M.ciNext h it
      let s ← M.ciSize h it
      let curSize := min s size
      let data ← M.ciData h it
      let (h, cur) ← M.gabsPbufNewRo h alloc data curSize
      if !gabsPbufOkay cur then
        M.assert h false
        .ok h
      else
        let inserter ← M.ciNext h inserter
        let (h, inserter) ← M.ciInsert h inserter cur
        viewLoop alloc n h it inserter (sub size curSize)

/-- `gabs_pbuf_view`. -/
def gabsPbufView (h : σ) (buf : Option Nat) (offset size alloc : Nat) : Except Fault (σ × Option Nat) := do
  let (it, boundary) ← M.bufSeek h buf offset
  let curOffset := sub offset boundary
  let s ← M.ciSize h it
  let curSize := min (sub s curOffset) size
  let data ← M.ciData h it
  let fuel := M.fuel h
  let (h, view) ← M.gabsPbufNewRo h alloc (data.add curOffset) curSize
  if !gabsPbufOkay view then .ok (h, view)
  else
    let h ← M.viewLoop alloc fuel h it (M.ciInit h (.param view)) (sub size curSize)
    .ok (h, view)

/-- The loop of `gabs_pbuf_copy`, with the bytes written so far. -/
def copyLoop (h : σ) (maxSize : Nat) : Nat → κ → List UInt8 → Except Fault (List UInt8)
  | 0, _, _ => .error .diverges
  | n + 1, it, mem =>
    if mem.length < maxSize then do
      let it ← M.ciNext h it
      if M.ciEoi it then .ok mem
      else
        let s ← M.ciSize h it
        let curSize := min s (maxSize - mem.length)
        let data ← M.ciData h it
        M.touch h data curSize
        copyLoop h maxSize n it (mem ++ M.load h data curSize)
    else .ok mem

/-- `gabs_pbuf_copy`: the bytes it writes. -/
def gabsPbufCopy (h : σ) (buf : Option Nat) (offset maxSize : Nat) : Except Fault (List UInt8) := do
  let (it, boundary) ← M.bufSeek h buf offset
  if !gabsPbufOkay buf || M.ciEoi it then .ok []
  else
    let curOffset := sub offset boundary
    let s ← M.ciSize h it
    let curSize := min (sub s curOffset) maxSize
    let data ← M.ciData h it
    M.touch h (data.add curOffset) curSize
    M.copyLoop h maxSize (M.fuel h) it (M.load h (data.add curOffset) curSize)

/-- `gabs_pbuf_clone`. -/
def gabsPbufClone (h : σ) (buf : Option Nat) (offset size alloc : Nat) : Except Fault (σ × Option Nat) := do
  let (h, ret) ← M.gabsPbufNew h alloc size
  if !gabsPbufOkay ret then .ok (h, ret)
  else
    let (h, mem) ← M.ciReserveTail h (M.ciInit h (.param ret)) size
    let bytes ← M.gabsPbufCopy h buf offset size
    M.touch h mem bytes.length
    let h := M.store h mem bytes
    M.assert h (decide (bytes.length = size))
    .ok (h, ret)

/-! ## Shrinking -/

/-- The loop of `gabs_pbuf_shrink` that removes fragments from the front. -/
def dropLoop (offset : Nat) : Nat → σ → κ → Nat → Except Fault (σ × κ × Nat)
  | 0, _, _, _ => .error .diverges
  | n + 1, h, it, bytes =>
    if M.ciEoi it then .ok (h, it, bytes)
    else do
      let s ← M.ciSize h it
      if offset < wrap (bytes + s) then .ok (h, it, bytes)
      else
        let (h, it) ← M.ciRemove h it
        dropLoop offset n h it (wrap (bytes + s))

/-- The loop of `gabs_pbuf_shrink` over the bytes that are kept. -/
def keepLoop (h : σ) : Nat → κ → Nat → Nat → Except Fault (κ × Nat)
  | 0, _, _, _ => .error .diverges
  | n + 1, it, bytes, rem =>
    if M.ciEoi it then .ok (it, bytes)
    else do
      let s ← M.ciSize h it
      let bytes := min s rem
      let rem := sub rem bytes
      if rem = 0 then .ok (it, bytes)
      else
        let it ← M.ciNext h it
        keepLoop h n it bytes rem

/-- The part of `gabs_pbuf_shrink` after the front has been removed. -/
def keep (h : σ) (it : κ) (size : Nat) : Except Fault σ := do
  let (it, bytes) ← M.keepLoop h (M.fuel h) it 0 size
  if M.ciEoi it then .ok h
  else
    let s ← M.ciSize h it
    let h ← if bytes < s then (do
        let (h, _) ← M.ciReleaseTail h it (sub s bytes)
        .ok h)
      else .ok h
    let it ← M.ciNext h it
    if M.ciEoi it then .ok h else M.ciDetach h it

/-- `gabs_pbuf_shrink`. -/
def gabsPbufShrink (h : σ) (i : ι) (offset size : Nat) : Except Fault σ := do
  let it := M.ciInit h (.slot i)
  if 0 < offset then
    let (h, it, bytes) ← M.dropLoop offset (M.fuel h) h it 0
    if M.ciEoi it then .ok h
    else if bytes < offset then
      let (h, _) ← M.ciReleaseHead h it (sub offset bytes)
      M.keep h it size
    else M.keep h it size
  else M.keep h it size

/-- `gabs_pbuf_strip_head`. -/
def gabsPbufStripHead (h : σ) (i : ι) (size : Nat) : Except Fault σ := do
  let total ← M.gabsPbufSize h (M.slots h i)
  M.gabsPbufShrink h i size (sub total size)

/-- `gabs_pbuf_strip_tail`. -/
def gabsPbufStripTail (h : σ) (i : ι) (size : Nat) : Except Fault σ := do
  let total ← M.gabsPbufSize h (M.slots h i)
  M.gabsPbufShrink h i 0 (sub total size)

/-! ## Appending -/

/-- The loop of `gabs_pbuf_put`. -/
def putLoop : Nat → σ → κ → List UInt8 → Except Fault σ
  | 0, _, _, _ => .error .diverges
  | n + 1, h, it, data =>
    if data = [] ∨ M.ciEoi it = true then .ok h
    else do
      let room ← M.ciTailroom h it
      let bytes := min room data.length
      let (h, mem) ← M.ciReserveTail h it bytes
      M.assert h (decide (mem.block ≠ .null))
      M.touch h mem bytes
      let h := M.store h mem (data.take bytes)
      let it ← M.ciNext h it
      putLoop n h it (data.drop bytes)

/-- `gabs_pbuf_put`. -/
def gabsPbufPut (h : σ) (i : ι) (data : List UInt8) : Except Fault σ :=
  M.putLoop (M.fuel h) h (M.ciInit h (.slot i)) data

end Impl

/-! ## Clients -/

/-- What a client does: an operation, or one of the calls after which two buffers have memory or fragments in common. -/
inductive Use (ι : Type)
  | op (o : Op ι)
  | newRo (i : ι) (alloc : Nat) (data : Ptr) (size : Nat)
  | view (i j : ι) (offset size alloc : Nat)
  | incref (i j : ι)

namespace Impl

variable (M : Impl ι σ κ)

/-- An iterator is moved `k` fragments on. -/
def ciSteps (h : σ) : Nat → κ → Except Fault κ
  | 0, it => .ok it
  | k + 1, it => do
    let it ← M.ciNext h it
    ciSteps h k it

/-- An iterator at the `k`-th fragment of buffer `i`. -/
def seek (h : σ) (i : ι) (k : Nat) : Except Fault κ := M.ciSteps h k (M.ciInit h (.slot i))

/-- The client writes to the memory that it has reserved. -/
def write (h : σ) (mem : Ptr) (data : List UInt8) : Except Fault σ := do
  M.touch h mem data.length
  .ok (M.store h mem data)

/-- **What an operation does.** -/
def op (h : σ) : Op ι → Except Fault σ
  | .new i alloc size => do
    let (h, buf) ← M.gabsPbufNew h alloc size
    .ok (M.hold h i buf)
  | .clone i j offset size alloc => do
    let (h, buf) ← M.gabsPbufClone h (M.slots h j) offset size alloc
    .ok (M.hold h i buf)
  | .decref i => do
    let h ← M.gabsPbufDecref h (M.slots h i)
    .ok (M.hold h i none)
  | .chainFront i j => do
    let h ← M.gabsPbufChainFront h i (M.slots h j)
    .ok (M.hold h j none)
  | .chainBack i j => do
    let h ← M.gabsPbufChainBack h i (M.slots h j)
    .ok (M.hold h j none)
  | .chainAt i j offset => do
    let h ← M.gabsPbufChainAt h i (M.slots h j) offset
    .ok (M.hold h j none)
  | .stripHead i size => M.gabsPbufStripHead h i size
  | .stripTail i size => M.gabsPbufStripTail h i size
  | .put i data => M.gabsPbufPut h i data
  | .insert i j k => do
    let it ← M.seek h i k
    let (h, _) ← M.ciInsert h it (M.slots h j)
    .ok (M.hold h j none)
  | .remove i k => do
    let it ← M.seek h i k
    let (h, _) ← M.ciRemove h it
    .ok h
  | .detach i k => do
    let it ← M.seek h i k
    M.ciDetach h it
  | .reserveHead i k data => do
    let it ← M.seek h i k
    let (h, mem) ← M.ciReserveHead h it data.length
    M.write h mem data
  | .reserveTail i k data => do
    let it ← M.seek h i k
    let (h, mem) ← M.ciReserveTail h it data.length
    M.write h mem data
  | .releaseHead i k n => do
    let it ← M.seek h i k
    let (h, _) ← M.ciReleaseHead h it n
    .ok h
  | .releaseTail i k n => do
    let it ← M.seek h i k
    let (h, _) ← M.ciReleaseTail h it n
    .ok h

/-- **What a client does to the state.** -/
def use (h : σ) : Use ι → Except Fault σ
  | .op o => M.op h o
  | .newRo i alloc data size => do
    let (h, buf) ← M.gabsPbufNewRo h alloc data size
    .ok (M.hold h i buf)
  | .view i j offset size alloc => do
    let (h, buf) ← M.gabsPbufView h (M.slots h j) offset size alloc
    .ok (M.hold h i buf)
  | .incref i j => do
    let buf := M.slots h j
    let h ← M.gabsPbufIncref h buf
    .ok (M.hold h i buf)

/-- **What a client does**, call after call. -/
def run (h : σ) : List (Use ι) → Except Fault σ
  | [] => .ok h
  | u :: us => do
    let h ← M.use h u
    run h us

/-- What an iterator at the `k`-th fragment of buffer `i` reads: its data, size, capacity and room. -/
def look (h : σ) (i : ι) (k : Nat) : Except Fault (Ptr × Nat × Nat × Nat × Nat) := do
  let it ← M.seek h i k
  let data ← M.ciData h it
  let size ← M.ciSize h it
  let cap ← M.ciCap h it
  let head ← M.ciHeadroom h it
  let tail ← M.ciTailroom h it
  .ok (data, size, cap, head, tail)

end Impl

/-- **A client reads the same** in the states of two implementations. -/
structure ReadAlike (M : Impl ι σ κ) (N : Impl ι τ μ) (h : σ) (z : τ) : Prop where
  okay : ∀ i, gabsPbufOkay (M.slots h i) = gabsPbufOkay (N.slots z i)
  size : ∀ i, M.gabsPbufSize h (M.slots h i) = N.gabsPbufSize z (N.slots z i)
  headroom : ∀ i, M.gabsPbufHeadroom h (M.slots h i) = N.gabsPbufHeadroom z (N.slots z i)
  tailroom : ∀ i, M.gabsPbufTailroom h (M.slots h i) = N.gabsPbufTailroom z (N.slots z i)
  copy : ∀ i offset n, M.gabsPbufCopy h (M.slots h i) offset n = N.gabsPbufCopy z (N.slots z i) offset n
  look : ∀ i k, M.look h i k = N.look z i k
  touch : ∀ q n, M.touch h q n = N.touch z q n
  load : ∀ q n, M.load h q n = N.load z q n

/-! ## The basic implementation -/

variable [DecidableEq ι]

/-- The implementation of `basic.c`. -/
def basic (ι : Type) [DecidableEq ι] : Impl ι (Heap ι) (Ci ι) where
  gabsPbufNew := gabsPbufNew
  gabsPbufNewRo := gabsPbufNewRo
  gabsPbufIncref := gabsPbufIncref
  gabsPbufDecref := gabsPbufDecref
  ciInit := ciInit
  ciNext := ciNext
  ciEoi := ciEoi
  ciData := ciData
  ciSize := ciSize
  ciCap := ciCap
  ciHeadroom := ciHeadroom
  ciTailroom := ciTailroom
  ciReserveHead := ciReserveHead
  ciReleaseHead := ciReleaseHead
  ciReserveTail := ciReserveTail
  ciReleaseTail := ciReleaseTail
  ciInsert := ciInsert
  ciRemove := ciRemove
  ciDetach := ciDetach
  slots := Heap.slots
  hold := Heap.hold
  fuel := Heap.fuel
  assert := Heap.assert
  touch := Heap.touch
  load := Heap.load
  store := Heap.store

theorem basic_sizeLoop : (basic ι).sizeLoop = sizeLoop (ι := ι) := by
  funext h n it size
  induction n generalizing it size with
  | zero => rfl
  | succ n ih =>
    simp only [Impl.sizeLoop, sizeLoop, ih]
    rfl

theorem basic_tailLoop : (basic ι).tailLoop = tailLoop (ι := ι) := by
  funext h n it
  induction n generalizing it with
  | zero => rfl
  | succ n ih =>
    simp only [Impl.tailLoop, tailLoop, ih]
    rfl

theorem basic_backLoop : (basic ι).backLoop = backLoop (ι := ι) := by
  funext h n it
  induction n generalizing it with
  | zero => rfl
  | succ n ih =>
    simp only [Impl.backLoop, backLoop, ih]
    rfl

theorem basic_atLoop : (basic ι).atLoop = atLoop (ι := ι) := by
  funext h offset n it bytes
  induction n generalizing it bytes with
  | zero => rfl
  | succ n ih =>
    simp only [Impl.atLoop, atLoop, ih]
    rfl

theorem basic_seekLoop : (basic ι).seekLoop = seekLoop (ι := ι) := by
  funext h offset n it bytes
  induction n generalizing it bytes with
  | zero => rfl
  | succ n ih =>
    simp only [Impl.seekLoop, seekLoop, ih]
    rfl

theorem basic_viewLoop : (basic ι).viewLoop = viewLoop (ι := ι) := by
  funext alloc n h it inserter size
  induction n generalizing h it inserter size with
  | zero => rfl
  | succ n ih =>
    simp only [Impl.viewLoop, viewLoop, ih]
    rfl

theorem basic_copyLoop : (basic ι).copyLoop = copyLoop (ι := ι) := by
  funext h maxSize n it mem
  induction n generalizing it mem with
  | zero => rfl
  | succ n ih =>
    simp only [Impl.copyLoop, copyLoop, ih]
    rfl

theorem basic_dropLoop : (basic ι).dropLoop = dropLoop (ι := ι) := by
  funext offset n h it bytes
  induction n generalizing h it bytes with
  | zero => rfl
  | succ n ih =>
    simp only [Impl.dropLoop, dropLoop, ih]
    rfl

theorem basic_keepLoop : (basic ι).keepLoop = keepLoop (ι := ι) := by
  funext h n it bytes rem
  induction n generalizing it bytes rem with
  | zero => rfl
  | succ n ih =>
    simp only [Impl.keepLoop, keepLoop, ih]
    rfl

theorem basic_putLoop : (basic ι).putLoop = putLoop (ι := ι) := by
  funext n h it data
  induction n generalizing h it data with
  | zero => rfl
  | succ n ih =>
    simp only [Impl.putLoop, putLoop, ih]
    rfl

theorem basic_ciSteps : (basic ι).ciSteps = ciSteps (ι := ι) := by
  funext h k it
  induction k generalizing it with
  | zero => rfl
  | succ k ih =>
    simp only [Impl.ciSteps, ciSteps, ih]
    rfl

theorem basic_size : (basic ι).gabsPbufSize = gabsPbufSize (ι := ι) := by
  funext h buf
  rw [Impl.gabsPbufSize, basic_sizeLoop]
  rfl

theorem basic_tailroom : (basic ι).gabsPbufTailroom = gabsPbufTailroom (ι := ι) := by
  funext h buf
  rw [Impl.gabsPbufTailroom, basic_tailLoop]
  rfl

theorem basic_copy : (basic ι).gabsPbufCopy = gabsPbufCopy (ι := ι) := by
  funext h buf offset maxSize
  rw [Impl.gabsPbufCopy, Impl.bufSeek, basic_seekLoop, basic_copyLoop]
  rfl

theorem basic_keep : (basic ι).keep = keep (ι := ι) := by
  funext h it size
  rw [Impl.keep, basic_keepLoop]
  rfl

theorem basic_shrink : (basic ι).gabsPbufShrink = gabsPbufShrink (ι := ι) := by
  funext h i offset size
  rw [Impl.gabsPbufShrink, basic_dropLoop, basic_keep]
  rfl

/-- **The operations over the basic implementation** are those of the model. -/
theorem basic_op (h : Heap ι) (o : Op ι) : (basic ι).op h o = h.op o := by
  cases o with
  | new | decref | chainFront => rfl
  | clone =>
    rw [Impl.op, Impl.gabsPbufClone, basic_copy]
    rfl
  | chainBack =>
    rw [Impl.op, Impl.gabsPbufChainBack, basic_backLoop]
    rfl
  | chainAt =>
    rw [Impl.op, Impl.gabsPbufChainAt, basic_atLoop]
    rfl
  | stripHead =>
    rw [Impl.op, Impl.gabsPbufStripHead, basic_size, basic_shrink]
    rfl
  | stripTail =>
    rw [Impl.op, Impl.gabsPbufStripTail, basic_size, basic_shrink]
    rfl
  | put =>
    rw [Impl.op, Impl.gabsPbufPut, basic_putLoop]
    rfl
  | insert | remove | detach | reserveHead | reserveTail | releaseHead | releaseTail =>
    rw [Impl.op, Impl.seek, basic_ciSteps]
    rfl

/-- The call of the model that a use is. -/
theorem basic_view (h : Heap ι) (i j : ι) (offset size alloc : Nat) :
    (basic ι).use h (.view i j offset size alloc) = h.call (.view i j offset size alloc) := by
  rw [Impl.use, Impl.gabsPbufView, Impl.bufSeek, basic_seekLoop, basic_viewLoop]
  rfl

end Gabs.Pbuf
