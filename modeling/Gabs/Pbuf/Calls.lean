import Gabs.Lib.Lts
import Gabs.Pbuf.Buf

/-!
# Packet buffers: the client's calls

- `Call`: the calls of the client, on its handle variables; `Heap.call`: what each of them does;
- `calls`: the transition system of a client, from a heap without fragments on.

A variable that holds no handle is `none`. A handle that a call consumes is taken out of its variable, a handle that a
call returns is put into one.
-/

namespace Gabs.Pbuf

open Gabs.Lib

variable {ι : Type} [DecidableEq ι]

/-- A call of the client: `i` is the buffer that is changed or made, `j` another one. -/
inductive Call (ι : Type)
  | new (i : ι) (alloc size : Nat)
  | newRo (i : ι) (alloc : Nat) (data : Ptr) (size : Nat)
  | view (i j : ι) (offset size alloc : Nat)
  | clone (i j : ι) (offset size alloc : Nat)
  | incref (i j : ι)
  | decref (i : ι)
  | chainFront (i j : ι)
  | chainBack (i j : ι)
  | chainAt (i j : ι) (offset : Nat)
  | stripHead (i : ι) (size : Nat)
  | stripTail (i : ι) (size : Nat)
  | put (i : ι) (data : List UInt8)
  | insert (i j : ι) (it : Ci ι)
  | remove (i : ι) (it : Ci ι)
  | detach (i : ι) (it : Ci ι)
  | copy (i : ι) (offset maxSize : Nat)
  | size (i : ι)
  | tailroom (i : ι)
  | headroom (i : ι)

/-- Handle variable `i` is set. -/
def Heap.hold (h : Heap ι) (i : ι) (v : Option Nat) : Heap ι := { h with slots := Function.update h.slots i v }

/-- **What a call does.** -/
def Heap.call (h : Heap ι) : Call ι → Except Fault (Heap ι)
  | .new i alloc size => do
    let (h, buf) ← gabsPbufNew h alloc size
    .ok (h.hold i buf)
  | .newRo i alloc data size => do
    let (h, buf) ← gabsPbufNewRo h alloc data size
    .ok (h.hold i buf)
  | .view i j offset size alloc => do
    let (h, buf) ← gabsPbufView h (h.slots j) offset size alloc
    .ok (h.hold i buf)
  | .clone i j offset size alloc => do
    let (h, buf) ← gabsPbufClone h (h.slots j) offset size alloc
    .ok (h.hold i buf)
  | .incref i j => do
    let h ← gabsPbufIncref h (h.slots j)
    .ok (h.hold i (h.slots j))
  | .decref i => do
    let h ← gabsPbufDecref h (h.slots i)
    .ok (h.hold i none)
  | .chainFront i j => do
    let h ← gabsPbufChainFront h i (h.slots j)
    .ok (h.hold j none)
  | .chainBack i j => do
    let h ← gabsPbufChainBack h i (h.slots j)
    .ok (h.hold j none)
  | .chainAt i j offset => do
    let h ← gabsPbufChainAt h i (h.slots j) offset
    .ok (h.hold j none)
  | .stripHead i size => gabsPbufStripHead h i size
  | .stripTail i size => gabsPbufStripTail h i size
  | .put i data => gabsPbufPut h i data
  | .insert _ j it => do
    let (h, _) ← ciInsert h it (h.slots j)
    .ok (h.hold j none)
  | .remove _ it => do
    let (h, _) ← ciRemove h it
    .ok h
  | .detach _ it => ciDetach h it
  | .copy i offset maxSize => do
    let _ ← gabsPbufCopy h (h.slots i) offset maxSize
    .ok h
  | .size i => do
    let _ ← gabsPbufSize h (h.slots i)
    .ok h
  | .tailroom i => do
    let _ ← gabsPbufTailroom h (h.slots i)
    .ok h
  | .headroom i => do
    let _ ← gabsPbufHeadroom h (h.slots i)
    .ok h

/-- **The calls of a client**, from a heap without fragments on. A call that goes wrong leads nowhere. -/
def calls (ι : Type) [DecidableEq ι] : Lts (Heap ι) (Call ι) where
  init h := (∀ i, h.slots i = none) ∧ (∀ f, h.frags f = none) ∧ h.asked = 0 ∧ h.released = []
  step h c := (h.call c).toOption

theorem calls_step {h h' : Heap ι} {c : Call ι} (hst : (calls ι).step h c = some h') : h.call c = .ok h' := by
  simp only [calls] at hst
  cases hcall : h.call c with
  | error e => rw [hcall] at hst; cases hst
  | ok h₁ => rw [hcall] at hst; cases hst; rfl

end Gabs.Pbuf
