import Gabs.Pbuf.Interface
import Gabs.Pbuf.Zephyr.Model

/-!
# Packet buffers: the Zephyr implementation and its data

- `NetBufSimple`, `Net`: the data of network buffers, and the memory it is in;
- `NetApi`: the functions of `net_buf` that `net_buf.c` and `netbuf_alloc.c` call; `NetApi.Documented`: what they do;
- `Net.gabsPbufNew` … `Net.ciRemove`: the functions of `net_buf.c`; `zephyr`: the implementation they are.

The lengths and sizes of network buffers have 16 bits, and their reference counters 8. A buffer for which no memory is
asked has no data.
-/

namespace Gabs.Pbuf

open Gabs.Lib

variable {ι : Type}

/-! ## Network buffers with their data -/

/-- `struct net_buf_simple`. -/
structure NetBufSimple where
  data : Ptr
  len : Nat
  size : Nat
  buf : Ptr
  deriving DecidableEq

/-- The network buffers: how they are linked, and their data; `external`: the flag `NET_BUF_EXTERNAL_DATA`. `blocks`:
the size of the memory that the pool has found for each buffer. The rest is that of a `Heap`. -/
structure Net (ι : Type) where
  links : NetHeap ι
  simple : Nat → NetBufSimple
  external : Nat → Bool
  blocks : Nat → Nat
  grants : Nat → Bool
  bytes : Block → Nat → UInt8
  extent : Nat → Nat
  ndebug : Bool

namespace Net

/-- The data of buffer `f` is `b`. -/
def put (z : Net ι) (f : Nat) (b : NetBufSimple) : Net ι := { z with simple := Function.update z.simple f b }

/-- The memory of a new buffer: none, when none has been asked for. -/
def room (f size : Nat) : Ptr := if size = 0 then ⟨.null, 0⟩ else ⟨.own f, 0⟩

/-- A new buffer, with memory for `size` bytes. -/
def fresh (z : Net ι) (size : Nat) : Net ι :=
  let f := z.links.count
  { z with
    links := { z.links with bufs := Function.update z.links.bufs f (some ⟨none, 1⟩), count := f + 1 }
    simple := Function.update z.simple f ⟨room f size, 0, size, room f size⟩
    external := Function.update z.external f false
    blocks := Function.update z.blocks f size }

/-- The pool has no buffer. -/
def refused (z : Net ι) : Net ι := { z with links := { z.links with count := z.links.count + 1 } }

/-- `assert`. -/
def assert (z : Net ι) (b : Bool) : Except Fault Unit := if z.ndebug || b then .ok () else .error .assertion

/-- `n` bytes from `p` on may be accessed. -/
def touch (z : Net ι) (p : Ptr) (n : Nat) : Except Fault Unit :=
  if n = 0 then .ok ()
  else match p.block with
    | .null => .error .null
    | .own f =>
      if z.links.bufs f = none then .error .freed
      else if p.off + n ≤ z.blocks f then .ok () else .error .overrun
    | .user k => if p.off + n ≤ z.extent k then .ok () else .error .overrun

/-- The `n` bytes from `p` on. -/
def load (z : Net ι) (p : Ptr) (n : Nat) : List UInt8 := (List.range n).map fun i => z.bytes p.block (p.off + i)

/-- The bytes from `p` on are those of `l`. -/
def store (z : Net ι) (p : Ptr) (l : List UInt8) : Net ι :=
  { z with bytes := fun b o =>
      if b = p.block ∧ p.off ≤ o ∧ o < p.off + l.length then l.getD (o - p.off) 0 else z.bytes b o }

/-- The fuel of a loop over a chain. -/
def fuel (z : Net ι) : Nat := z.links.count + 1

end Net

/-! ## The functions of `net_buf` -/

/-- The bytes in use are in the memory of the buffer. -/
structure NetBufSimple.Fits (b : NetBufSimple) : Prop where
  block : b.data.block = b.buf.block
  le : b.buf.off ≤ b.data.off
  room : b.data.off - b.buf.off + b.len ≤ b.size
  size : b.size < 2 ^ 16

/-- `net_buf_alloc_len` from the pool of an allocator, without waiting, `net_buf_ref`, and those that work on the data
of a buffer: `net_buf_push`, `net_buf_pull_mem`, `net_buf_add`, `net_buf_remove_mem`, `net_buf_headroom`,
`net_buf_tailroom` and `net_buf_simple_init_with_data`. -/
structure NetApi (ι : Type) extends NetBufApi ι where
  allocLen : Net ι → Nat → Nat → Net ι × Option Nat
  ref : NetHeap ι → Option Nat → Except Fault (NetHeap ι × Option Nat)
  push : NetBufSimple → Nat → NetBufSimple × Ptr
  pullMem : NetBufSimple → Nat → NetBufSimple × Ptr
  add : NetBufSimple → Nat → NetBufSimple × Ptr
  removeMem : NetBufSimple → Nat → NetBufSimple × Ptr
  headroom : NetBufSimple → Nat
  tailroom : NetBufSimple → Nat
  initWithData : NetBufSimple → Ptr → Nat → NetBufSimple

/-- **What the functions of `net_buf` do**, where their assertions hold. The pools are of variable-size data, with
memory of any size: a buffer has what was asked for, and no more, as one from a pool of fixed-size data would have. -/
structure NetApi.Documented (api : NetApi ι) : Prop extends api.toNetBufApi.Documented where
  allocLen : ∀ (z : Net ι) (alloc size : Nat), size < 2 ^ 16 → api.allocLen z alloc size =
    if z.grants z.links.count then (z.fresh size, some z.links.count) else (z.refused, none)
  ref : ∀ (z : NetHeap ι) (f : Nat) (x : NetBuf), z.bufs f = some x → x.ref + 1 < 2 ^ 8 →
    api.ref z (some f) = .ok ({ z with bufs := Function.update z.bufs f (some { x with ref := x.ref + 1 }) }, some f)
  push : ∀ (b : NetBufSimple) (n : Nat), b.Fits → n ≤ b.data.off - b.buf.off →
    api.push b n = ({ b with data := ⟨b.data.block, b.data.off - n⟩, len := b.len + n }, ⟨b.data.block, b.data.off - n⟩)
  pullMem : ∀ (b : NetBufSimple) (n : Nat), b.Fits → n ≤ b.len →
    api.pullMem b n = ({ b with data := b.data.add n, len := b.len - n }, b.data)
  add : ∀ (b : NetBufSimple) (n : Nat), b.Fits → n ≤ b.size - (b.data.off - b.buf.off) - b.len →
    api.add b n = ({ b with len := b.len + n }, b.data.add b.len)
  removeMem : ∀ (b : NetBufSimple) (n : Nat), b.Fits → n ≤ b.len →
    api.removeMem b n = ({ b with len := b.len - n }, b.data.add (b.len - n))
  headroom : ∀ b : NetBufSimple, b.Fits → api.headroom b = b.data.off - b.buf.off
  tailroom : ∀ b : NetBufSimple, b.Fits → api.tailroom b = b.size - (b.data.off - b.buf.off) - b.len
  initWithData : ∀ (b : NetBufSimple) (data : Ptr) (size : Nat), size < 2 ^ 16 →
    api.initWithData b data size = ⟨data, size, size, data⟩

/-! ## Buffers -/

/-- `ENOMEM`. -/
def enomem : Int := 12

/-- `netbuf_alloc`: the status, and `*mem`. -/
def netbufAlloc (api : NetApi ι) (z : Net ι) (alloc size : Nat) : Net ι × Int × Option Nat :=
  let (z, buf) := api.allocLen z alloc size
  if buf.isNone then (z, -enomem, none) else (z, 0, buf)

namespace Net

/-- `gabs_pbuf_new`; `netbuf`: the allocators for which `gabs_allocator_is` finds the interface of `netbuf_alloc.c`. -/
def gabsPbufNew (api : NetApi ι) (netbuf : Nat → Bool) (z : Net ι) (alloc size : Nat) :
    Except Fault (Net ι × Option Nat) :=
  if !netbuf alloc then do
    z.assert false
    .ok (z, none)
  else
    let (z, status, buf) := netbufAlloc api z alloc size
    if status ≠ 0 then do
      z.assert false
      .ok (z, none)
    else .ok (z, buf)

/-- `gabs_pbuf_new_ro`. -/
def gabsPbufNewRo (api : NetApi ι) (netbuf : Nat → Bool) (z : Net ι) (alloc : Nat) (data : Ptr) (size : Nat) :
    Except Fault (Net ι × Option Nat) := do
  let (z, buf) ← Net.gabsPbufNew api netbuf z alloc 0
  match buf with
  | none =>
    z.assert false
    .ok (z, none)
  | some f =>
    let z := z.put f (api.initWithData (z.simple f) data size)
    .ok ({ z with external := Function.update z.external f true }, buf)

/-- `gabs_pbuf_incref`. -/
def gabsPbufIncref (api : NetApi ι) (z : Net ι) (buf : Option Nat) : Except Fault (Net ι) := do
  let (links, _) ← api.ref z.links buf
  .ok { z with links := links }

/-- `gabs_pbuf_decref`. -/
def gabsPbufDecref (api : NetApi ι) (z : Net ι) (buf : Option Nat) : Except Fault (Net ι) :=
  if buf.isSome then do
    let links ← api.unref z.links buf
    .ok { z with links := links }
  else .ok z

end Net

/-! ## Iterators -/

/-- `struct gabs_pbuf_zephyr_ci`, at a handle variable, or at a parameter or local variable. -/
structure NetCi (ι : Type) where
  head : Buf ι
  prev : Option Nat
  cur : Option Nat

namespace Net

/-- `*head`. -/
def value (z : Net ι) : Buf ι → Option Nat
  | .slot i => z.links.slots i
  | .param frags => frags

/-- A buffer, and its data. -/
def deref (z : Net ι) : Option Nat → Except Fault (Nat × NetBufSimple)
  | none => .error .null
  | some f => if (z.links.bufs f).isSome then .ok (f, z.simple f) else .error .freed

/-- `gabs_pbuf_ci_init`. -/
def ciInit (z : Net ι) (buf : Buf ι) : NetCi ι := ⟨buf, none, z.value buf⟩

/-- `gabs_pbuf_ci_next`. -/
def ciNext (z : Net ι) (it : NetCi ι) : Except Fault (NetCi ι) := do
  let x ← z.links.deref it.cur
  .ok ⟨it.head, it.cur, x.frags⟩

/-- `gabs_pbuf_ci_eoi`. -/
def ciEoi (it : NetCi ι) : Bool := it.cur.isNone

/-- `gabs_pbuf_ci_data`. -/
def ciData (z : Net ι) (it : NetCi ι) : Except Fault Ptr := do
  let (_, b) ← z.deref it.cur
  .ok b.data

/-- `gabs_pbuf_ci_size`. -/
def ciSize (z : Net ι) (it : NetCi ι) : Except Fault Nat := do
  let (_, b) ← z.deref it.cur
  .ok b.len

/-- `gabs_pbuf_ci_cap`. -/
def ciCap (z : Net ι) (it : NetCi ι) : Except Fault Nat := do
  let (_, b) ← z.deref it.cur
  .ok b.size

/-- `gabs_pbuf_ci_headroom`. -/
def ciHeadroom (api : NetApi ι) (z : Net ι) (it : NetCi ι) : Except Fault Nat := do
  let (_, b) ← z.deref it.cur
  .ok (api.headroom b)

/-- `gabs_pbuf_ci_tailroom`. -/
def ciTailroom (api : NetApi ι) (z : Net ι) (it : NetCi ι) : Except Fault Nat := do
  let (_, b) ← z.deref it.cur
  .ok (api.tailroom b)

/-- The data of the buffer at an iterator is changed by one of the functions of `net_buf`. -/
def change (g : NetBufSimple → Nat → NetBufSimple × Ptr) (z : Net ι) (it : NetCi ι) (bytes : Nat) :
    Except Fault (Net ι × Ptr) := do
  let (f, b) ← z.deref it.cur
  let (b, mem) := g b bytes
  .ok (z.put f b, mem)

/-- `gabs_pbuf_ci_reserve_head`. -/
def ciReserveHead (api : NetApi ι) : Net ι → NetCi ι → Nat → Except Fault (Net ι × Ptr) := change api.push

/-- `gabs_pbuf_ci_release_head`. -/
def ciReleaseHead (api : NetApi ι) : Net ι → NetCi ι → Nat → Except Fault (Net ι × Ptr) := change api.pullMem

/-- `gabs_pbuf_ci_reserve_tail`. -/
def ciReserveTail (api : NetApi ι) : Net ι → NetCi ι → Nat → Except Fault (Net ι × Ptr) := change api.add

/-- `gabs_pbuf_ci_release_tail`. -/
def ciReleaseTail (api : NetApi ι) : Net ι → NetCi ι → Nat → Except Fault (Net ι × Ptr) := change api.removeMem

variable [DecidableEq ι]

/-- Handle variable `i` is set. -/
def hold (z : Net ι) (i : ι) (v : Option Nat) : Net ι := { z with links := z.links.setHead i v }

/-- `*head = v`. -/
def setHead (z : Net ι) (head : Buf ι) (v : Option Nat) : Net ι :=
  match head with
  | .slot i => z.hold i v
  | .param _ => z

/-- `gabs_pbuf_ci_insert`. -/
def ciInsert (api : NetApi ι) (z : Net ι) (it : NetCi ι) (buf : Option Nat) : Except Fault (Net ι × NetCi ι) :=
  match it.prev with
  | some prev => do
    let links ← api.fragInsert z.links (some prev) buf
    .ok ({ z with links := links }, { it with cur := buf })
  | none => do
    let (links, cur) ← if it.cur.isSome then api.fragAdd z.links buf it.cur else .ok (z.links, buf)
    .ok (setHead { z with links := links } it.head cur, { it with cur := buf })

/-- `gabs_pbuf_ci_detach`. -/
def ciDetach (api : NetApi ι) (z : Net ι) (it : NetCi ι) : Except Fault (Net ι) :=
  if z.value it.head = it.cur then do
    let z := z.setHead it.head none
    let links ← api.unref z.links it.cur
    .ok { z with links := links }
  else match it.prev with
    | none => .error .null
    | some prev => do
      let _ ← z.links.deref (some prev)
      let links ← api.unref (z.links.link prev none) it.cur
      .ok { z with links := links }

/-- `gabs_pbuf_ci_remove`. -/
def ciRemove (api : NetApi ι) (z : Net ι) (it : NetCi ι) : Except Fault (Net ι × NetCi ι) := do
  let isHead := decide (z.value it.head = it.cur)
  let (links, cur) ← api.fragDel z.links it.prev it.cur
  let z : Net ι := { z with links := links }
  let z := if isHead then z.setHead it.head cur else z
  .ok (z, { it with cur := cur })

end Net

/-- **The implementation of `net_buf.c`.** -/
def zephyr [DecidableEq ι] (api : NetApi ι) (netbuf : Nat → Bool) : Impl ι (Net ι) (NetCi ι) where
  gabsPbufNew := Net.gabsPbufNew api netbuf
  gabsPbufNewRo := Net.gabsPbufNewRo api netbuf
  gabsPbufIncref := Net.gabsPbufIncref api
  gabsPbufDecref := Net.gabsPbufDecref api
  ciInit := Net.ciInit
  ciNext := Net.ciNext
  ciEoi := Net.ciEoi
  ciData := Net.ciData
  ciSize := Net.ciSize
  ciCap := Net.ciCap
  ciHeadroom := Net.ciHeadroom api
  ciTailroom := Net.ciTailroom api
  ciReserveHead := Net.ciReserveHead api
  ciReleaseHead := Net.ciReleaseHead api
  ciReserveTail := Net.ciReserveTail api
  ciReleaseTail := Net.ciReleaseTail api
  ciInsert := Net.ciInsert api
  ciRemove := Net.ciRemove api
  ciDetach := Net.ciDetach api
  slots z := z.links.slots
  hold := Net.hold
  fuel := Net.fuel
  assert := Net.assert
  touch := Net.touch
  load := Net.load
  store := Net.store

end Gabs.Pbuf
