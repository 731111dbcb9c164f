import Gabs.Lib.Rope
import Gabs.Pbuf.Calls

/-!
# Packet buffers: clients that share nothing

- `Op`: what such a client does with its buffers: the calls that make, chain, strip and fill them, and work at the
  `k`-th fragment of one, to which it moves an iterator;
- `Heap.op`, `ops`: what the code makes of it;
- `ropeOps`: what it means. A buffer is a rope of bytes, and each operation one on ropes.

There is no memory in `ropeOps`, no reference counter and no iterator. Its step is `none` where the operation is not
allowed.
-/

namespace Gabs.Pbuf

open Gabs.Lib

variable {ι : Type} [DecidableEq ι]

/-- An operation of the client: `i` is the buffer that is changed or made, `j` another one, which a chaining consumes.
-/
inductive Op (ι : Type)
  | new (i : ι) (alloc size : Nat)
  | clone (i j : ι) (offset size alloc : Nat)
  | decref (i : ι)
  | chainFront (i j : ι)
  | chainBack (i j : ι)
  | chainAt (i j : ι) (offset : Nat)
  | stripHead (i : ι) (size : Nat)
  | stripTail (i : ι) (size : Nat)
  | put (i : ι) (data : List UInt8)
  | insert (i j : ι) (k : Nat)
  | remove (i : ι) (k : Nat)
  | detach (i : ι) (k : Nat)
  | reserveHead (i : ι) (k : Nat) (data : List UInt8)
  | reserveTail (i : ι) (k : Nat) (data : List UInt8)
  | releaseHead (i : ι) (k n : Nat)
  | releaseTail (i : ι) (k n : Nat)

/-- The operation asks for memory. -/
def Op.allocates : Op ι → Bool
  | .new .. | .clone .. => true
  | _ => false

/-! ## The code -/

/-- An iterator is moved `k` fragments on. -/
def ciSteps (h : Heap ι) : Nat → Ci ι → Except Fault (Ci ι)
  | 0, it => .ok it
  | k + 1, it => do
    let it ← ciNext h it
    ciSteps h k it

/-- An iterator at the `k`-th fragment of buffer `i`. -/
def Heap.seek (h : Heap ι) (i : ι) (k : Nat) : Except Fault (Ci ι) := ciSteps h k (ciInit h (.slot i))

/-- The client writes the bytes `data` to the memory that it has reserved. -/
def Heap.write (h : Heap ι) (mem : Ptr) (data : List UInt8) : Except Fault (Heap ι) := do
  h.touch mem data.length
  .ok (h.store mem data)

/-- **What an operation does.** -/
def Heap.op (h : Heap ι) : Op ι → Except Fault (Heap ι)
  | .new i alloc size => h.call (.new i alloc size)
  | .clone i j offset size alloc => h.call (.clone i j offset size alloc)
  | .decref i => h.call (.decref i)
  | .chainFront i j => h.call (.chainFront i j)
  | .chainBack i j => h.call (.chainBack i j)
  | .chainAt i j offset => h.call (.chainAt i j offset)
  | .stripHead i size => h.call (.stripHead i size)
  | .stripTail i size => h.call (.stripTail i size)
  | .put i data => h.call (.put i data)
  | .insert i j k => do
    let it ← h.seek i k
    h.call (.insert i j it)
  | .remove i k => do
    let it ← h.seek i k
    h.call (.remove i it)
  | .detach i k => do
    let it ← h.seek i k
    h.call (.detach i it)
  | .reserveHead i k data => do
    let it ← h.seek i k
    let (h, mem) ← ciReserveHead h it data.length
    h.write mem data
  | .reserveTail i k data => do
    let it ← h.seek i k
    let (h, mem) ← ciReserveTail h it data.length
    h.write mem data
  | .releaseHead i k n => do
    let it ← h.seek i k
    let (h, _) ← ciReleaseHead h it n
    .ok h
  | .releaseTail i k n => do
    let it ← h.seek i k
    let (h, _) ← ciReleaseTail h it n
    .ok h

/-- **The operations of a client**, from a heap without fragments on. -/
def ops (ι : Type) [DecidableEq ι] : Lts (Heap ι) (Op ι) where
  init := (calls ι).init
  step h o := (h.op o).toOption

theorem ops_step {h h' : Heap ι} {o : Op ι} (hst : (ops ι).step h o = some h') : h.op o = .ok h' := by
  simp only [ops] at hst
  cases hop : h.op o with
  | error e => rw [hop] at hst; cases hst
  | ok h₁ => rw [hop] at hst; cases hst; rfl

/-! ## What it means -/

/-- The buffers of a client, as ropes. One without pieces is not okay. -/
abbrev Ropes (ι : Type) : Type := ι → Rope UInt8

/-- Buffer `i` becomes `r`, if its size is a `size_t`. -/
def Ropes.become (a : Ropes ι) (i : ι) (r : Rope UInt8) : Option (Ropes ι) :=
  if r.size < 2 ^ 64 then some (Function.update a i r) else none

/-- Buffer `i` becomes `r`, and buffer `j`, another one, is consumed. -/
def Ropes.join (a : Ropes ι) (i j : ι) (r : Rope UInt8) : Option (Ropes ι) :=
  if i ≠ j then Ropes.become (Function.update a j []) i r else none

/-- The `k`-th piece of buffer `i` is changed by `g`, if it satisfies `ok`. -/
def Ropes.edit (a : Ropes ι) (i : ι) (k : Nat) (ok : Piece UInt8 → Bool) (g : Piece UInt8 → Piece UInt8) :
    Option (Ropes ι) :=
  (a i)[k]?.bind fun p => if ok p then a.become i ((a i).set k (g p)) else none

/-- **What an operation means**; `granted` tells whether memory is there for it. -/
def Ropes.step (a : Ropes ι) (granted : Bool) : Op ι → Option (Ropes ι)
  | .new i _ size =>
    if a i = [] ∧ sizeofFrag + size < 2 ^ 64 then a.become i (if granted then [.blank size] else []) else none
  | .clone i j offset size _ =>
    if a i = [] ∧ sizeofFrag + size < 2 ^ 64 ∧ offset + size ≤ (a j).size then
      a.become i (if granted then [.full (((a j).elems.drop offset).take size)] else [])
    else none
  | .decref i => a.become i []
  | .chainFront i j => a.join i j (a j ++ a i)
  | .chainBack i j => a.join i j (a i ++ a j)
  | .chainAt i j offset => ((a i).cut offset).bind fun c =>
    a.join i j (if offset = 0 then a j ++ a i else c.1 ++ (a j ++ c.2))
  | .stripHead i n => a.become i ((a i).slice n ((a i).size - n))
  | .stripTail i n =>
    if n < 2 ^ 64 then a.become i (if n ≤ (a i).size then (a i).slice 0 ((a i).size - n) else a i) else none
  | .put i data => a.become i (.fill data (a i))
  | .insert i j k => if k ≤ (a i).length then a.join i j ((a i).take k ++ (a j ++ (a i).drop k)) else none
  | .remove i k => if k < (a i).length then a.become i ((a i).take k ++ (a i).drop (k + 1)) else none
  | .detach i k => if k ≤ (a i).length then a.become i ((a i).take k) else none
  | .reserveHead i k data => a.edit i k (fun p => data.length ≤ p.head) fun p => p.push data
  | .reserveTail i k data => a.edit i k (fun p => data.length ≤ p.room) fun p => p.append data
  | .releaseHead i k n => a.edit i k (fun p => n ≤ p.elems.length) fun p => p.advance n
  | .releaseTail i k n => a.edit i k (fun p => n ≤ p.elems.length) fun p => p.resize (p.elems.length - n)

/-- **The buffers as ropes.** An action is an operation, and whether the memory it asks for is there. -/
def ropeOps (ι : Type) [DecidableEq ι] : Lts (Ropes ι) (Op ι × Bool) where
  init a := ∀ i, a i = []
  step a o := a.step o.2 o.1

end Gabs.Pbuf
