import Gabs.Pbuf.Chain

/-!
# Packet buffers: what a chain holds

- `Heap.size`, `Heap.total`: the bytes in use of a fragment, and of a chain;
- `Heap.addrs`, `Heap.content`: the addresses of the bytes of a chain, and the bytes;
- `Heap.refs`: the references of a fragment.
-/

namespace Gabs.Pbuf

open Gabs.Lib

variable {ι : Type} {h h' : Heap ι} {p : Option Nat} {f : Nat} {x : Frag} {l m : List Nat}

/-- The addresses of the bytes in use. -/
def Frag.addrs (x : Frag) : List Ptr := (List.range x.size).map x.data.add

/-- The bytes in use of fragment `f`. -/
def Heap.size (h : Heap ι) (f : Nat) : Nat := (h.frags f).elim 0 Frag.size

/-- The size of a chain. -/
def Heap.total (h : Heap ι) (l : List Nat) : Nat := (l.map h.size).sum

/-- The addresses of the bytes of a chain. -/
def Heap.addrs (h : Heap ι) (l : List Nat) : List Ptr := l.flatMap fun f => (h.frags f).elim [] Frag.addrs

/-- The byte at an address. -/
def Heap.byte (h : Heap ι) (p : Ptr) : UInt8 := h.bytes p.block p.off

/-- **The content of a chain.** -/
def Heap.content (h : Heap ι) (l : List Nat) : List UInt8 := (h.addrs l).map h.byte

/-- The references of fragment `f`; none when it is not live. -/
def Heap.refs (h : Heap ι) (f : Nat) : Nat := (h.frags f).elim 0 Frag.refcnt

@[simp] theorem addrs_length (x : Frag) : x.addrs.length = x.size := by simp [Frag.addrs]

theorem size_of (hx : h.frags f = some x) : h.size f = x.size := by rw [Heap.size, hx]; rfl

theorem refs_of (hx : h.frags f = some x) : h.refs f = x.refcnt := by rw [Heap.refs, hx]; rfl

@[simp] theorem total_nil (h : Heap ι) : h.total [] = 0 := rfl

@[simp] theorem total_cons (h : Heap ι) (f : Nat) (l : List Nat) : h.total (f :: l) = h.size f + h.total l := rfl

@[simp] theorem total_append (h : Heap ι) (l m : List Nat) : h.total (l ++ m) = h.total l + h.total m := by
  simp [Heap.total]

@[simp] theorem addrs_nil (h : Heap ι) : h.addrs [] = [] := rfl

theorem addrs_cons (hx : h.frags f = some x) (l : List Nat) : h.addrs (f :: l) = x.addrs ++ h.addrs l := by
  simp [Heap.addrs, hx]

@[simp] theorem addrs_append (h : Heap ι) (l m : List Nat) : h.addrs (l ++ m) = h.addrs l ++ h.addrs m := by
  simp [Heap.addrs]

/-- A chain has as many addresses as its size tells. -/
theorem length_addrs (hl : ∀ f ∈ l, ∃ x, h.frags f = some x) : (h.addrs l).length = h.total l := by
  induction l with
  | nil => rfl
  | cons f l ih =>
    obtain ⟨x, hx⟩ := hl f List.mem_cons_self
    rw [addrs_cons hx, List.length_append, addrs_length, total_cons, size_of hx,
      ih fun g hg => hl g (List.mem_cons_of_mem _ hg)]

/-- The addresses from an offset behind the fragments `l` on. -/
theorem addrs_drop (hl : ∀ f ∈ l, ∃ x, h.frags f = some x) {offset : Nat} (ho : h.total l ≤ offset) :
    (h.addrs (l ++ m)).drop offset = (h.addrs m).drop (offset - h.total l) := by
  have hlen := length_addrs hl
  rw [addrs_append, List.drop_append, List.drop_eq_nil_of_le (by rw [hlen]; exact ho), hlen]
  rfl

theorem content_length (hl : ∀ f ∈ l, ∃ x, h.frags f = some x) : (h.content l).length = h.total l := by
  rw [Heap.content, List.length_map, length_addrs hl]

theorem content_drop (hl : ∀ f ∈ l, ∃ x, h.frags f = some x) {offset : Nat} (ho : h.total l ≤ offset) :
    (h.content (l ++ m)).drop offset = (h.content m).drop (offset - h.total l) := by
  rw [Heap.content, ← List.map_drop, addrs_drop hl ho, List.map_drop, Heap.content]

theorem size_congr (hf : h'.frags f = h.frags f) : h'.size f = h.size f := by rw [Heap.size, hf, Heap.size]

theorem total_congr (hl : ∀ f ∈ l, h'.frags f = h.frags f) : h'.total l = h.total l :=
  congrArg List.sum (List.map_congr_left fun f hf => size_congr (hl f hf))

theorem addrs_congr (hl : ∀ f ∈ l, h'.frags f = h.frags f) : h'.addrs l = h.addrs l := by
  induction l with
  | nil => rfl
  | cons f l ih =>
    simp only [Heap.addrs, List.flatMap_cons, hl f List.mem_cons_self]
    exact congrArg _ (ih fun g hg => hl g (List.mem_cons_of_mem _ hg))

theorem content_of_addrs (hb : h'.bytes = h.bytes) {l' : List Nat} (ha : h'.addrs l' = h.addrs l) :
    h'.content l' = h.content l := by
  rw [Heap.content, ha, Heap.content]
  exact List.map_congr_left fun p _ => by rw [Heap.byte, hb, Heap.byte]

/-- A fragment whose first `k` bytes have been released. -/
theorem addrs_release_head (x : Frag) (k : Nat) :
    Frag.addrs { x with size := x.size - k, data := x.data.add k } = x.addrs.drop k := by
  refine List.ext_getElem (by simp) fun j h₁ h₂ => ?_
  simp [Frag.addrs, Ptr.add, Nat.add_assoc]

/-- A fragment of which the first `k` bytes are kept. -/
theorem addrs_release_tail {k : Nat} (hk : k ≤ x.size) : Frag.addrs { x with size := k } = x.addrs.take k := by
  refine List.ext_getElem (by simp [hk]) fun j h₁ h₂ => ?_
  simp [Frag.addrs]

/-! ## The size of a chain -/

/-- The loop of `gabs_pbuf_size`. -/
theorem sizeLoop_eq (hc : h.Chain p l) {n : Nat} (hn : l.length < n) {lastp : Link ι} {size : Nat}
    (hs : size < 2 ^ 64) : sizeLoop h n ⟨p, lastp⟩ size = .ok (wrap (size + h.total l)) := by
  induction l generalizing p n lastp size with
  | nil =>
    cases hc.path
    obtain ⟨n, rfl⟩ := exists_fuel hn
    rw [total_nil, Nat.add_zero size, wrap_of_lt hs]
    rfl
  | cons f l ih =>
    obtain ⟨x, hx⟩ := hc.live f List.mem_cons_self
    obtain ⟨n, rfl⟩ := exists_fuel hn
    have hp : p = some f := hc.head
    subst hp
    have heoi : ciEoi (⟨some f, lastp⟩ : Ci ι) = false := rfl
    simp only [sizeLoop, heoi, Bool.false_eq_true, if_false, ciSize_of hx, ciNext_of hx, bind, Except.bind]
    rw [ih (hc.tail hx) (Nat.lt_of_succ_lt_succ hn) (wrap_lt _), wrap_add_left, total_cons, size_of hx, Nat.add_assoc]

/-- **`gabs_pbuf_size`** is the size of the chain, as a `size_t`. -/
theorem gabsPbufSize_wrap (hs : h.Sound) (hc : h.Chain p l) : gabsPbufSize h p = .ok (wrap (h.total l)) := by
  rw [gabsPbufSize, ciInit, sizeLoop_eq hc (hc.length_lt hs) (by decide), Nat.zero_add]

theorem gabsPbufSize_eq (hs : h.Sound) (hc : h.Chain p l) (ht : h.total l < 2 ^ 64) :
    gabsPbufSize h p = .ok (h.total l) := by rw [gabsPbufSize_wrap hs hc, wrap_of_lt ht]

end Gabs.Pbuf
