import Gabs.Lib.Path
import Gabs.Lib.Sizes

/-!
# Packet buffers: fragments and their iterators

- `Ptr`, `Frag`, `Heap`: memory, the fragments, and the handles of the client;
- `Fault`: how a call goes wrong: a null or freed fragment, an access outside a block, a failed assertion, or a loop
  that does not end;
- `gabsPbufNew` … `ciRemove`: the basic implementation, `basic.c`.

`ι` names the client's handle variables, of type `gabs_pbuf`. A fragment is known by the number of the call of
`gabs_alloc` that has returned it: no address is used twice. `size_t` is `Nat` below `2 ^ 64` with explicit wrapping.
-/

namespace Gabs.Pbuf

variable {ι : Type} [DecidableEq ι]

/-! ## Machine integers -/

/-- A `size_t`. -/
def wrap (x : Nat) : Nat := x % 2 ^ 64

/-- The difference of two `size_t`. -/
def sub (x y : Nat) : Nat := if y ≤ x then x - y else x + 2 ^ 64 - y

theorem wrap_of_lt {x : Nat} (h : x < 2 ^ 64) : wrap x = x := Nat.mod_eq_of_lt h

theorem wrap_lt (x : Nat) : wrap x < 2 ^ 64 := Nat.mod_lt _ (by decide)

theorem wrap_le (x : Nat) : wrap x ≤ x := Nat.mod_le _ _

@[simp] theorem wrap_add_left (x y : Nat) : wrap (wrap x + y) = wrap (x + y) := Nat.mod_add_mod ..

theorem sub_of_le {x y : Nat} (h : y ≤ x) : sub x y = x - y := if_pos h

/-- An `unsigned int` plus one. -/
def inc (x : Nat) : Nat := if x + 1 = 2 ^ 32 then 0 else x + 1

/-- An `unsigned int` minus one. -/
def dec (x : Nat) : Nat := if x = 0 then 2 ^ 32 - 1 else x - 1

/-! ## Memory -/

/-- A block of memory: what follows the header of a fragment, an object of the user, or none. -/
inductive Block
  | null
  | own (f : Nat)
  | user (k : Nat)
  deriving DecidableEq

/-- `uint8_t *`. -/
structure Ptr where
  block : Block
  off : Nat
  deriving DecidableEq

def Ptr.add (p : Ptr) (n : Nat) : Ptr := ⟨p.block, p.off + n⟩

/-- `struct gabs_pbuf_basic_frag`. -/
structure Frag where
  base : Ptr
  data : Ptr
  size : Nat
  cap : Nat
  readonly : Bool
  refcnt : Nat
  next : Option Nat
  alloc : Nat
  deriving DecidableEq

/-- `sizeof(struct gabs_pbuf_basic_frag)`. -/
def sizeofFrag : Nat := 56

/-- How a call goes wrong. -/
inductive Fault
  | null | freed | overrun | assertion | diverges
  deriving DecidableEq

/-- The fragments, the handles of the client, and memory. `requests`: the bytes asked for each fragment. `grants`:
whether each call of `gabs_alloc` succeeds, `asked` of which have been made. `released`: the calls of `gabs_dealloc`,
the last one first. `extent`: the sizes of the user's objects. `ndebug`: assertions are compiled out. -/
@[ext] structure Heap (ι : Type) where
  slots : ι → Option Nat
  frags : Nat → Option Frag
  asked : Nat
  requests : Nat → Nat
  grants : Nat → Bool
  released : List (Nat × Nat)
  bytes : Block → Nat → UInt8
  extent : Nat → Nat
  ndebug : Bool

namespace Heap

/-- A fragment is read. -/
def deref (h : Heap ι) : Option Nat → Except Fault Frag
  | none => .error .null
  | some f => match h.frags f with
    | none => .error .freed
    | some x => .ok x

/-- Fragment `f` is `x`. -/
def put (h : Heap ι) (f : Nat) (x : Frag) : Heap ι := { h with frags := Function.update h.frags f (some x) }

/-- Fragment `f` is written. -/
def modify (h : Heap ι) (f : Option Nat) (g : Frag → Frag) : Except Fault (Heap ι) := do
  let x ← h.deref f
  match f with
  | none => .error .null
  | some f => .ok (h.put f (g x))

/-- `gabs_dealloc`. -/
def dealloc (h : Heap ι) (alloc f : Nat) : Heap ι :=
  { h with frags := Function.update h.frags f none, released := (alloc, f) :: h.released }

/-- `assert`. -/
def assert (h : Heap ι) (b : Bool) : Except Fault Unit := if h.ndebug || b then .ok () else .error .assertion

/-- `n` bytes from `p` on may be accessed. -/
def touch (h : Heap ι) (p : Ptr) (n : Nat) : Except Fault Unit :=
  if n = 0 then .ok ()
  else match p.block with
    | .null => .error .null
    | .own f =>
      if h.frags f = none then .error .freed
      else if sizeofFrag + p.off + n ≤ h.requests f then .ok () else .error .overrun
    | .user k => if p.off + n ≤ h.extent k then .ok () else .error .overrun

/-- The `n` bytes from `p` on. -/
def load (h : Heap ι) (p : Ptr) (n : Nat) : List UInt8 := (List.range n).map fun i => h.bytes p.block (p.off + i)

/-- The bytes from `p` on are those of `l`. -/
def store (h : Heap ι) (p : Ptr) (l : List UInt8) : Heap ι :=
  { h with bytes := fun b o =>
      if b = p.block ∧ p.off ≤ o ∧ o < p.off + l.length then l.getD (o - p.off) 0 else h.bytes b o }

/-- The fuel of a loop over a chain: no chain has more fragments. -/
def fuel (h : Heap ι) : Nat := h.asked + 1

end Heap

/-! ## Buffers -/

/-- `gabs_pbuf_new`. The stores to the header are not checked against the block: where `sizeof(*buf) + size` has wrapped
it may be smaller. -/
def gabsPbufNew (h : Heap ι) (alloc size : Nat) : Except Fault (Heap ι × Option Nat) :=
  let f := h.asked
  let h := { h with asked := f + 1, requests := Function.update h.requests f (wrap (sizeofFrag + size)) }
  if h.grants f then
    .ok (h.put f ⟨⟨.own f, 0⟩, ⟨.own f, 0⟩, 0, size, false, 1, none, alloc⟩, some f)
  else do
    h.assert false
    .ok (h, none)

/-- `gabs_pbuf_okay`. -/
def gabsPbufOkay (buf : Option Nat) : Bool := buf.isSome

/-- `gabs_pbuf_new_ro`. -/
def gabsPbufNewRo (h : Heap ι) (alloc : Nat) (data : Ptr) (size : Nat) : Except Fault (Heap ι × Option Nat) := do
  let (h, buf) ← gabsPbufNew h alloc 0
  if !gabsPbufOkay buf then
    h.assert false
    .ok (h, none)
  else
    let h ← h.modify buf fun x => { x with readonly := true, base := data, data := data, size := size, cap := size }
    .ok (h, buf)

/-- `gabs_pbuf_incref`. -/
def gabsPbufIncref (h : Heap ι) (buf : Option Nat) : Except Fault (Heap ι) :=
  h.modify buf fun x => { x with refcnt := inc x.refcnt }

/-- The loop of `gabs_pbuf_decref`. -/
def decrefLoop : Nat → Heap ι → Option Nat → Except Fault (Heap ι)
  | 0, _, _ => .error .diverges
  | _ + 1, h, none => .ok h
  | n + 1, h, some cur => do
    let x ← h.deref (some cur)
    let h := h.put cur { x with refcnt := dec x.refcnt }
    if 0 < dec x.refcnt then .ok h else decrefLoop n (h.dealloc x.alloc cur) x.next

/-- `gabs_pbuf_decref`. -/
def gabsPbufDecref (h : Heap ι) (buf : Option Nat) : Except Fault (Heap ι) := decrefLoop h.fuel h buf

/-! ## Iterators -/

/-- `struct gabs_pbuf_basic_frag **`: the address of a handle variable's `frags`, of a fragment's `next`, or of the
`frags` of a parameter or local variable. -/
inductive Link (ι : Type)
  | slot (i : ι)
  | next (f : Nat)
  | param
  deriving DecidableEq

/-- `gabs_pbuf *`: a handle variable, or a parameter or local variable with its value. -/
inductive Buf (ι : Type)
  | slot (i : ι)
  | param (frags : Option Nat)

/-- `struct gabs_pbuf_basic_ci`. -/
structure Ci (ι : Type) where
  cur : Option Nat
  lastp : Link ι
  deriving DecidableEq

/-- `*lastp = v`. -/
def Heap.assign (h : Heap ι) (lastp : Link ι) (v : Option Nat) : Except Fault (Heap ι) :=
  match lastp with
  | .slot i => .ok { h with slots := Function.update h.slots i v }
  | .next f => h.modify (some f) fun x => { x with next := v }
  | .param => .ok h

/-- `gabs_pbuf_ci_init`. -/
def ciInit (h : Heap ι) : Buf ι → Ci ι
  | .slot i => ⟨h.slots i, .slot i⟩
  | .param frags => ⟨frags, .param⟩

/-- `gabs_pbuf_ci_next`. -/
def ciNext (h : Heap ι) (it : Ci ι) : Except Fault (Ci ι) :=
  match it.cur with
  | none => .error .null
  | some f => do
    let x ← h.deref (some f)
    .ok ⟨x.next, .next f⟩

/-- `gabs_pbuf_ci_eoi`. -/
def ciEoi (it : Ci ι) : Bool := it.cur.isNone

/-- `gabs_pbuf_ci_data`. -/
def ciData (h : Heap ι) (it : Ci ι) : Except Fault Ptr := do
  let x ← h.deref it.cur
  .ok x.data

/-- `gabs_pbuf_ci_size`. -/
def ciSize (h : Heap ι) (it : Ci ι) : Except Fault Nat := do
  let x ← h.deref it.cur
  .ok x.size

/-- `gabs_pbuf_ci_cap`. -/
def ciCap (h : Heap ι) (it : Ci ι) : Except Fault Nat := do
  let x ← h.deref it.cur
  .ok x.cap

/-- `gabs_pbuf_ci_headroom`: the difference of two pointers. -/
def Frag.headroom (x : Frag) : Nat := sub x.data.off x.base.off

/-- `gabs_pbuf_ci_tailroom`. -/
def Frag.tailroom (x : Frag) : Nat := sub (sub x.cap x.size) x.headroom

/-- `gabs_pbuf_ci_headroom`. -/
def ciHeadroom (h : Heap ι) (it : Ci ι) : Except Fault Nat := do
  let x ← h.deref it.cur
  .ok x.headroom

/-- `gabs_pbuf_ci_tailroom`. -/
def ciTailroom (h : Heap ι) (it : Ci ι) : Except Fault Nat := do
  let x ← h.deref it.cur
  .ok x.tailroom

/-- `gabs_pbuf_ci_reserve_head`. -/
def ciReserveHead (h : Heap ι) (it : Ci ι) (bytes : Nat) : Except Fault (Heap ι × Ptr) := do
  let x ← h.deref it.cur
  h.assert (decide (bytes ≤ x.headroom))
  let data : Ptr := ⟨x.data.block, sub x.data.off bytes⟩
  let h ← h.modify it.cur fun x => { x with data := data, size := wrap (x.size + bytes) }
  .ok (h, data)

/-- `gabs_pbuf_ci_release_head`. -/
def ciReleaseHead (h : Heap ι) (it : Ci ι) (bytes : Nat) : Except Fault (Heap ι × Ptr) := do
  let x ← h.deref it.cur
  h.assert (decide (bytes ≤ x.size))
  let h ← h.modify it.cur fun x => { x with size := sub x.size bytes, data := x.data.add bytes }
  .ok (h, x.data)

/-- `gabs_pbuf_ci_reserve_tail`. -/
def ciReserveTail (h : Heap ι) (it : Ci ι) (bytes : Nat) : Except Fault (Heap ι × Ptr) := do
  let x ← h.deref it.cur
  h.assert (decide (bytes ≤ x.tailroom))
  let h ← h.modify it.cur fun x => { x with size := wrap (x.size + bytes) }
  .ok (h, x.data.add x.size)

/-- `gabs_pbuf_ci_release_tail`. -/
def ciReleaseTail (h : Heap ι) (it : Ci ι) (bytes : Nat) : Except Fault (Heap ι × Ptr) := do
  let x ← h.deref it.cur
  h.assert (decide (bytes ≤ x.size))
  let h ← h.modify it.cur fun x => { x with size := sub x.size bytes }
  .ok (h, x.data.add (sub x.size bytes))

/-- The loop of `gabs_pbuf_ci_insert`: the last fragment from `cur` on, or `last`. -/
def lastLoop : Nat → Heap ι → Option Nat → Option Nat → Except Fault (Option Nat)
  | 0, _, _, _ => .error .diverges
  | _ + 1, _, last, none => .ok last
  | n + 1, h, _, some cur => do
    let x ← h.deref (some cur)
    lastLoop n h (some cur) x.next

/-- `gabs_pbuf_ci_insert`. Where `buf` has no fragment, `*lastp` is `buf.frags` itself. -/
def ciInsert (h : Heap ι) (it : Ci ι) (buf : Option Nat) : Except Fault (Heap ι × Ci ι) := do
  match ← lastLoop h.fuel h none buf with
  | none =>
    let h ← h.assign it.lastp it.cur
    .ok (h, ⟨it.cur, it.lastp⟩)
  | some last =>
    let h ← h.assign (.next last) it.cur
    let h ← h.assign it.lastp buf
    .ok (h, ⟨buf, it.lastp⟩)

/-- `gabs_pbuf_ci_detach`. -/
def ciDetach (h : Heap ι) (it : Ci ι) : Except Fault (Heap ι) := do
  let h ← h.assign it.lastp none
  gabsPbufDecref h it.cur

/-- `gabs_pbuf_ci_remove`. -/
def ciRemove (h : Heap ι) (it : Ci ι) : Except Fault (Heap ι × Ci ι) := do
  let x ← h.deref it.cur
  let h ← h.assign it.lastp x.next
  let h ← h.modify it.cur fun x => { x with next := none }
  let h ← gabsPbufDecref h it.cur
  .ok (h, ⟨x.next, it.lastp⟩)

end Gabs.Pbuf
