import Gabs.Pbuf.Model

/-!
# Packet buffers: the iterators of the Zephyr implementation

- `NetBuf`, `NetHeap`: what the iterators use of `struct net_buf`, and the handles of the client;
- `NetBufApi`: the functions of `net_buf`, which are not part of the repository; `Documented`: what they do;
- `zephyrCiInit` … `zephyrCiRemove`: the iterators of `net_buf.c`.
-/

namespace Gabs.Pbuf

open Gabs.Lib

variable {ι : Type}

/-! ## Network buffers -/

/-- `struct net_buf`. -/
structure NetBuf where
  frags : Option Nat
  ref : Nat
  deriving DecidableEq

/-- The buffers in use, and the handles of the client. `count`: a bound of their addresses. -/
@[ext] structure NetHeap (ι : Type) where
  slots : ι → Option Nat
  bufs : Nat → Option NetBuf
  count : Nat
  released : List Nat

namespace NetHeap

/-- The `frags` of a buffer. -/
def next (z : NetHeap ι) (f : Nat) : Option Nat := (z.bufs f).bind NetBuf.frags

/-- **The buffers from `p` on**, all of them in use. -/
structure Chain (z : NetHeap ι) (p : Option Nat) (l : List Nat) : Prop where
  path : Path z.next p l none
  live : ∀ f ∈ l, f < z.count ∧ ∃ x, z.bufs f = some x

/-- `f->frags = v`. -/
def link (z : NetHeap ι) (f : Nat) (v : Option Nat) : NetHeap ι :=
  { z with bufs := Function.update z.bufs f ((z.bufs f).map fun x => { x with frags := v }) }

/-- Buffer `f` loses one reference, and is released with the last one. -/
def drop (z : NetHeap ι) (f : Nat) : NetHeap ι :=
  match z.bufs f with
  | none => z
  | some x =>
    if 0 < x.ref - 1 then { z with bufs := Function.update z.bufs f (some { x with ref := x.ref - 1 }) }
    else { z with bufs := Function.update z.bufs f none, released := f :: z.released }

/-- The first of the buffers loses one reference; when it is released the rest of them do so, too. -/
def unref (z : NetHeap ι) : List Nat → NetHeap ι
  | [] => z
  | f :: l =>
    match z.bufs f with
    | none => z
    | some x => if 0 < x.ref - 1 then z.drop f else (z.drop f).unref l

end NetHeap

/-- `net_buf_frag_insert`, `net_buf_frag_add`, `net_buf_frag_del` and `net_buf_unref`. -/
structure NetBufApi (ι : Type) where
  fragInsert : NetHeap ι → Option Nat → Option Nat → Except Fault (NetHeap ι)
  fragAdd : NetHeap ι → Option Nat → Option Nat → Except Fault (NetHeap ι × Option Nat)
  fragDel : NetHeap ι → Option Nat → Option Nat → Except Fault (NetHeap ι × Option Nat)
  unref : NetHeap ι → Option Nat → Except Fault (NetHeap ι)

/-- **What the functions of `net_buf` do**: they splice a chain after its parent; append at the end of a chain; unlink a
buffer, drop one reference and return its successor; drop a reference and cascade down the chain. -/
structure NetBufApi.Documented (api : NetBufApi ι) : Prop where
  fragInsert : ∀ (z : NetHeap ι) (p f : Nat) (m : List Nat) (last : Nat), z.Chain (some f) (m ++ [last]) →
    (∃ x, z.bufs p = some x) → p ∉ m ++ [last] →
    api.fragInsert z (some p) (some f) = .ok ((z.link last (z.next p)).link p (some f))
  fragAdd : ∀ (z : NetHeap ι) (head : Nat) (frag : Option Nat) (m : List Nat) (last : Nat),
    z.Chain (some head) (m ++ [last]) → api.fragAdd z (some head) frag = .ok (z.link last frag, some head)
  fragDel : ∀ (z : NetHeap ι) (parent : Option Nat) (f : Nat), (∃ x, z.bufs f = some x) →
    (∀ p, parent = some p → z.next p = some f ∧ p ≠ f) →
    api.fragDel z parent (some f) =
      .ok ((((parent.elim z fun p => z.link p (z.next f)).link f none).drop f), z.next f)
  unref : ∀ (z : NetHeap ι) (p : Option Nat) (l : List Nat), z.Chain p l → api.unref z p = .ok (z.unref l)

/-! ## The iterators -/

/-- `struct gabs_pbuf_zephyr_ci`. -/
structure ZephyrCi (ι : Type) where
  head : ι
  prev : Option Nat
  cur : Option Nat
  deriving DecidableEq

/-- A buffer is read. -/
def NetHeap.deref (z : NetHeap ι) : Option Nat → Except Fault NetBuf
  | none => .error .null
  | some f => match z.bufs f with
    | none => .error .freed
    | some x => .ok x

/-- `gabs_pbuf_ci_init`. -/
def zephyrCiInit (z : NetHeap ι) (i : ι) : ZephyrCi ι := ⟨i, none, z.slots i⟩

/-- `gabs_pbuf_ci_next`. -/
def zephyrCiNext (z : NetHeap ι) (it : ZephyrCi ι) : Except Fault (ZephyrCi ι) := do
  let x ← z.deref it.cur
  .ok ⟨it.head, it.cur, x.frags⟩

/-- `gabs_pbuf_ci_eoi`. -/
def zephyrCiEoi (it : ZephyrCi ι) : Bool := it.cur.isNone

variable [DecidableEq ι]

/-- `*head = v`. -/
def NetHeap.setHead (z : NetHeap ι) (i : ι) (v : Option Nat) : NetHeap ι :=
  { z with slots := Function.update z.slots i v }

/-- `gabs_pbuf_ci_insert`. -/
def zephyrCiInsert (api : NetBufApi ι) (z : NetHeap ι) (it : ZephyrCi ι) (buf : Option Nat) :
    Except Fault (NetHeap ι × ZephyrCi ι) :=
  match it.prev with
  | some prev => do
    let z ← api.fragInsert z (some prev) buf
    .ok (z, { it with cur := buf })
  | none => do
    let (z, cur) ← if it.cur.isSome then api.fragAdd z buf it.cur else .ok (z, buf)
    .ok (z.setHead it.head cur, { it with cur := buf })

/-- `gabs_pbuf_ci_detach`. -/
def zephyrCiDetach (api : NetBufApi ι) (z : NetHeap ι) (it : ZephyrCi ι) : Except Fault (NetHeap ι) :=
  if z.slots it.head = it.cur then api.unref (z.setHead it.head none) it.cur
  else match it.prev with
    | none => .error .null
    | some prev => do
      let _ ← z.deref (some prev)
      api.unref (z.link prev none) it.cur

/-- `gabs_pbuf_ci_remove`. -/
def zephyrCiRemove (api : NetBufApi ι) (z : NetHeap ι) (it : ZephyrCi ι) : Except Fault (NetHeap ι × ZephyrCi ι) := do
  let isHead := decide (z.slots it.head = it.cur)
  let (z, cur) ← api.fragDel z it.prev it.cur
  let z := if isHead then z.setHead it.head cur else z
  .ok (z, { it with cur := cur })

end Gabs.Pbuf
