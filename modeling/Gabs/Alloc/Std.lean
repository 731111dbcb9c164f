import Gabs.Pbuf.Model

/-!
# The C++ allocator

- `Arena`: the underlying allocator, and the blocks it has handed out;
- `doAlloc`, `doDealloc`: the two functions of `std.hh`, which keep the size of a block in front of it;
- `doAlloc_requests`: the bytes asked for; `doDealloc_same`: as many are given back.
-/

namespace Gabs.Alloc

open Gabs.Pbuf (wrap)

variable {a a' : Arena} {size : Nat}

/-- The underlying allocator, of which `asked` blocks have been asked. `grants`: whether a call of `allocate` returns,
or throws. `headers`: the `std::size_t` at the start of each block. `released`: the calls of `deallocate`, the last one
first. -/
structure Arena where
  asked : Nat
  requests : Nat → Nat
  grants : Nat → Nat → Bool
  headers : Nat → Nat
  released : List (Nat × Nat)

/-- `sizeof(size)`. -/
def sizeofSize : Nat := 8

/-- `void *`: an offset into a block. -/
structure Mem where
  block : Nat
  off : Nat
  deriving DecidableEq

/-- `allocate`. -/
def Arena.allocate (a : Arena) (n : Nat) : Option (Arena × Nat) :=
  if a.grants a.asked n then
    some ({ a with asked := a.asked + 1, requests := Function.update a.requests a.asked n }, a.asked)
  else none

/-- `do_alloc`: the status, and `*mem`. -/
def doAlloc (a : Arena) (size : Nat) : Option (Arena × Int × Mem) := do
  let (a, ptr) ← a.allocate (wrap (sizeofSize + size))
  let a := { a with headers := Function.update a.headers ptr size }
  some (a, 0, ⟨ptr, sizeofSize⟩)

/-- `do_dealloc` of what `do_alloc` has returned. -/
def doDealloc (a : Arena) (mem : Mem) : Arena × Int :=
  let size := a.headers mem.block
  ({ a with released := (mem.block, wrap (sizeofSize + size)) :: a.released }, 0)

/-- What a call of `do_alloc` that returns has done. -/
theorem doAlloc_eq {status : Int} {mem : Mem} (hrun : doAlloc a size = some (a', status, mem)) :
    status = 0 ∧ mem = ⟨a.asked, sizeofSize⟩ ∧ a'.requests a.asked = wrap (sizeofSize + size) ∧
      a'.headers a.asked = size ∧ a'.released = a.released := by
  unfold doAlloc Arena.allocate at hrun
  split at hrun
  · cases hrun
    exact ⟨rfl, rfl, Function.update_self .., Function.update_self .., rfl⟩
  · cases hrun

/-- The bytes that `do_alloc` asks for. -/
theorem doAlloc_requests {status : Int} {mem : Mem} (hrun : doAlloc a size = some (a', status, mem)) :
    a'.requests mem.block = wrap (sizeofSize + size) := by
  obtain ⟨-, rfl, hreq, -, -⟩ := doAlloc_eq hrun
  exact hreq

/-- **`do_dealloc`** gives back as many bytes as `do_alloc` has asked for. -/
theorem doDealloc_same {status : Int} {mem : Mem} (hrun : doAlloc a size = some (a', status, mem)) :
    (doDealloc a' mem).1.released = (mem.block, a'.requests mem.block) :: a.released := by
  obtain ⟨-, rfl, hreq, hheader, hreleased⟩ := doAlloc_eq hrun
  simp only [doDealloc, hheader, hreleased, hreq]

end Gabs.Alloc
