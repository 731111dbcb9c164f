import Gabs.Pbuf.Model

/-!
# Packet buffers: the operations on chains

The functions of `buf.c`, over the basic implementation. Each loop is a function of its own, with the variables it
changes as arguments; it is given the fuel of the heap.
-/

namespace Gabs.Pbuf

variable {ι : Type} [DecidableEq ι]

/-! ## Size and room -/

/-- The loop of `gabs_pbuf_size`. -/
def sizeLoop (h : Heap ι) : Nat → Ci ι → Nat → Except Fault Nat
  | 0, _, _ => .error .diverges
  | n + 1, it, size =>
    if ciEoi it then .ok size
    else do
      let s ← ciSize h it
      let it ← ciNext h it
      sizeLoop h n it (wrap (size + s))

/-- `gabs_pbuf_size`. -/
def gabsPbufSize (h : Heap ι) (buf : Option Nat) : Except Fault Nat := sizeLoop h h.fuel (ciInit h (.param buf)) 0

/-- The loop of `gabs_pbuf_tailroom`: it stops at the last fragment. -/
def tailLoop (h : Heap ι) : Nat → Ci ι → Except Fault (Ci ι)
  | 0, _ => .error .diverges
  | n + 1, it =>
    if ciEoi it then .ok it
    else do
      let next ← ciNext h it
      if ciEoi next then .ok it else tailLoop h n next

/-- `gabs_pbuf_tailroom`. -/
def gabsPbufTailroom (h : Heap ι) (buf : Option Nat) : Except Fault Nat := do
  let it ← tailLoop h h.fuel (ciInit h (.param buf))
  if ciEoi it then .ok 0 else ciTailroom h it

/-- `gabs_pbuf_headroom`. -/
def gabsPbufHeadroom (h : Heap ι) (buf : Option Nat) : Except Fault Nat :=
  let it := ciInit h (.param buf)
  if ciEoi it then .ok 0 else ciHeadroom h it

/-! ## Chaining -/

/-- `gabs_pbuf_chain_front`. -/
def gabsPbufChainFront (h : Heap ι) (i : ι) (front : Option Nat) : Except Fault (Heap ι) := do
  let (h, _) ← ciInsert h (ciInit h (.slot i)) front
  .ok h

/-- The loop of `gabs_pbuf_chain_back`. -/
def backLoop (h : Heap ι) : Nat → Ci ι → Except Fault (Ci ι)
  | 0, _ => .error .diverges
  | n + 1, it =>
    if ciEoi it then .ok it
    else do
      let it ← ciNext h it
      backLoop h n it

/-- `gabs_pbuf_chain_back`. -/
def gabsPbufChainBack (h : Heap ι) (i : ι) (back : Option Nat) : Except Fault (Heap ι) := do
  let it ← backLoop h h.fuel (ciInit h (.slot i))
  let (h, _) ← ciInsert h it back
  .ok h

/-- The loop of `gabs_pbuf_chain_at`. -/
def atLoop (h : Heap ι) (offset : Nat) : Nat → Ci ι → Nat → Except Fault (Ci ι × Nat)
  | 0, _, _ => .error .diverges
  | n + 1, it, bytes =>
    if ciEoi it then .ok (it, bytes)
    else do
      let s ← ciSize h it
      if offset < wrap (bytes + s) then .ok (it, bytes)
      else
        let it ← ciNext h it
        atLoop h offset n it (wrap (bytes + s))

/-- `gabs_pbuf_chain_at`. -/
def gabsPbufChainAt (h : Heap ι) (i : ι) (next : Option Nat) (offset : Nat) : Except Fault (Heap ι) :=
  if offset = 0 then gabsPbufChainFront h i next
  else do
    let (it, bytes) ← atLoop h offset h.fuel (ciInit h (.slot i)) 0
    h.assert (decide (bytes = offset))
    let (h, _) ← ciInsert h it next
    .ok h

/-! ## Views and copies -/

/-- The loop of `buf_seek`. -/
def seekLoop (h : Heap ι) (offset : Nat) : Nat → Ci ι → Nat → Except Fault (Ci ι × Nat)
  | 0, _, _ => .error .diverges
  | n + 1, it, bytes =>
    if ciEoi it then .ok (it, bytes)
    else do
      let s ← ciSize h it
      if offset = 0 ∨ offset < wrap (bytes + s) then .ok (it, bytes)
      else
        let it ← ciNext h it
        seekLoop h offset n it (wrap (bytes + s))

/-- `buf_seek`: the iterator, and the boundary. -/
def bufSeek (h : Heap ι) (buf : Option Nat) (offset : Nat) : Except Fault (Ci ι × Nat) :=
  seekLoop h offset h.fuel (ciInit h (.param buf)) 0

/-- The loop of `gabs_pbuf_view`. An allocation that fails ends it. -/
def viewLoop (alloc : Nat) : Nat → Heap ι → Ci ι → Ci ι → Nat → Except Fault (Heap ι)
  | 0, _, _, _, _ => .error .diverges
  | n + 1, h, it, inserter, size =>
    if size = 0 then .ok h
    else do
      let it ← ciNext h it
      let s ← ciSize h it
      let curSize := min s size
      let data ← ciData h it
      let (h, cur) ← gabsPbufNewRo h alloc data curSize
      if !gabsPbufOkay cur then
        h.assert false
        .ok h
      else
        let inserter ← ciNext h inserter
        let (h, inserter) ← ciInsert h inserter cur
        viewLoop alloc n h it inserter (sub size curSize)

/-- `gabs_pbuf_view`. -/
def gabsPbufView (h : Heap ι) (buf : Option Nat) (offset size alloc : Nat) : Except Fault (Heap ι × Option Nat) := do
  let (it, boundary) ← bufSeek h buf offset
  let curOffset := sub offset boundary
  let s ← ciSize h it
  let curSize := min (sub s curOffset) size
  let data ← ciData h it
  let fuel := h.fuel
  let (h, view) ← gabsPbufNewRo h alloc (data.add curOffset) curSize
  if !gabsPbufOkay view then .ok (h, view)
  else
    let h ← viewLoop alloc fuel h it (ciInit h (.param view)) (sub size curSize)
    .ok (h, view)

/-- The loop of `gabs_pbuf_copy`, with the bytes written to `mem` so far. -/
def copyLoop (h : Heap ι) (maxSize : Nat) : Nat → Ci ι → List UInt8 → Except Fault (List UInt8)
  | 0, _, _ => .error .diverges
  | n + 1, it, mem =>
    if mem.length < maxSize then do
      let it ← ciNext h it
      if ciEoi it then .ok mem
      else
        let s ← ciSize h it
        let curSize := min s (maxSize - mem.length)
        let data ← ciData h it
        h.touch data curSize
        copyLoop h maxSize n it (mem ++ h.load data curSize)
    else .ok mem

/-- `gabs_pbuf_copy`: the bytes it writes from `mem` on, the number of which it returns. -/
def gabsPbufCopy (h : Heap ι) (buf : Option Nat) (offset maxSize : Nat) : Except Fault (List UInt8) := do
  let (it, boundary) ← bufSeek h buf offset
  if !gabsPbufOkay buf || ciEoi it then .ok []
  else
    let curOffset := sub offset boundary
    let s ← ciSize h it
    let curSize := min (sub s curOffset) maxSize
    let data ← ciData h it
    h.touch (data.add curOffset) curSize
    copyLoop h maxSize h.fuel it (h.load (data.add curOffset) curSize)

/-- `memcpy` of `n` bytes. -/
def Heap.memcpy (h : Heap ι) (mem data : Ptr) (n : Nat) : Except Fault (Heap ι) := do
  h.touch data n
  h.touch mem n
  .ok (h.store mem (h.load data n))

/-- The loop of `gabs_pbuf_copy`, with its stores. -/
def copyToLoop (maxSize : Nat) : Nat → Heap ι → Ci ι → Ptr → Nat → Except Fault (Heap ι × Nat)
  | 0, _, _, _, _ => .error .diverges
  | n + 1, h, it, mem, size =>
    if size < maxSize then do
      let it ← ciNext h it
      if ciEoi it then .ok (h, size)
      else
        let s ← ciSize h it
        let curSize := min s (maxSize - size)
        let data ← ciData h it
        let h ← h.memcpy mem data curSize
        copyToLoop maxSize n h it (mem.add curSize) (size + curSize)
    else .ok (h, size)

/-- `gabs_pbuf_copy`, with its stores: memory afterwards, and the bytes copied. -/
def gabsPbufCopyTo (h : Heap ι) (buf : Option Nat) (mem : Ptr) (offset maxSize : Nat) :
    Except Fault (Heap ι × Nat) := do
  let (it, boundary) ← bufSeek h buf offset
  if !gabsPbufOkay buf || ciEoi it then .ok (h, 0)
  else
    let curOffset := sub offset boundary
    let s ← ciSize h it
    let curSize := min (sub s curOffset) maxSize
    let data ← ciData h it
    let h ← h.memcpy mem (data.add curOffset) curSize
    copyToLoop maxSize h.fuel h it (mem.add curSize) curSize

/-- `gabs_pbuf_clone`. -/
def gabsPbufClone (h : Heap ι) (buf : Option Nat) (offset size alloc : Nat) : Except Fault (Heap ι × Option Nat) := do
  let (h, ret) ← gabsPbufNew h alloc size
  if !gabsPbufOkay ret then .ok (h, ret)
  else
    let (h, mem) ← ciReserveTail h (ciInit h (.param ret)) size
    let bytes ← gabsPbufCopy h buf offset size
    h.touch mem bytes.length
    let h := h.store mem bytes
    h.assert (decide (bytes.length = size))
    .ok (h, ret)

/-! ## Shrinking -/

/-- The loop of `gabs_pbuf_shrink` that removes fragments from the front. -/
def dropLoop (offset : Nat) : Nat → Heap ι → Ci ι → Nat → Except Fault (Heap ι × Ci ι × Nat)
  | 0, _, _, _ => .error .diverges
  | n + 1, h, it, bytes =>
    if ciEoi it then .ok (h, it, bytes)
    else do
      let s ← ciSize h it
      if offset < wrap (bytes + s) then .ok (h, it, bytes)
      else
        let (h, it) ← ciRemove h it
        dropLoop offset n h it (wrap (bytes + s))

/-- The loop of `gabs_pbuf_shrink` over the bytes that are kept: where it stops, and how many are kept there. -/
def keepLoop (h : Heap ι) : Nat → Ci ι → Nat → Nat → Except Fault (Ci ι × Nat)
  | 0, _, _, _ => .error .diverges
  | n + 1, it, bytes, rem =>
    if ciEoi it then .ok (it, bytes)
    else do
      let s ← ciSize h it
      let bytes := min s rem
      let rem := sub rem bytes
      if rem = 0 then .ok (it, bytes)
      else
        let it ← ciNext h it
        keepLoop h n it bytes rem

/-- The part of `gabs_pbuf_shrink` after the front has been removed. -/
def keep (h : Heap ι) (it : Ci ι) (size : Nat) : Except Fault (Heap ι) := do
  let (it, bytes) ← keepLoop h h.fuel it 0 size
  if ciEoi it then .ok h
  else
    let s ← ciSize h it
    let h ← if bytes < s then (do
        let (h, _) ← ciReleaseTail h it (sub s bytes)
        .ok h)
      else .ok h
    let it ← ciNext h it
    if ciEoi it then .ok h else ciDetach h it

/-- `gabs_pbuf_shrink`. -/
def gabsPbufShrink (h : Heap ι) (i : ι) (offset size : Nat) : Except Fault (Heap ι) := do
  let it := ciInit h (.slot i)
  if 0 < offset then
    let (h, it, bytes) ← dropLoop offset h.fuel h it 0
    if ciEoi it then .ok h
    else if bytes < offset then
      let (h, _) ← ciReleaseHead h it (sub offset bytes)
      keep h it size
    else keep h it size
  else keep h it size

/-- `gabs_pbuf_strip_head`. -/
def gabsPbufStripHead (h : Heap ι) (i : ι) (size : Nat) : Except Fault (Heap ι) := do
  let total ← gabsPbufSize h (h.slots i)
  gabsPbufShrink h i size (sub total size)

/-- `gabs_pbuf_strip_tail`. -/
def gabsPbufStripTail (h : Heap ι) (i : ι) (size : Nat) : Except Fault (Heap ι) := do
  let total ← gabsPbufSize h (h.slots i)
  gabsPbufShrink h i 0 (sub total size)

/-! ## Appending -/

/-- The loop of `gabs_pbuf_put`: `data` is what is left of the bytes. -/
def putLoop : Nat → Heap ι → Ci ι → List UInt8 → Except Fault (Heap ι)
  | 0, _, _, _ => .error .diverges
  | n + 1, h, it, data =>
    if data = [] ∨ ciEoi it = true then .ok h
    else do
      let room ← ciTailroom h it
      let bytes := min room data.length
      let (h, mem) ← ciReserveTail h it bytes
      h.assert (decide (mem.block ≠ .null))
      h.touch mem bytes
      let h := h.store mem (data.take bytes)
      let it ← ciNext h it
      putLoop n h it (data.drop bytes)

/-- `gabs_pbuf_put` of the bytes `data`. -/
def gabsPbufPut (h : Heap ι) (i : ι) (data : List UInt8) : Except Fault (Heap ι) :=
  putLoop h.fuel h (ciInit h (.slot i)) data

end Gabs.Pbuf
