import Gabs.Pbuf.Calls
import Gabs.Pbuf.Made

/-!
# Packet buffers: the representation invariant

- `Gentle`: the calls that leave alone what `Kept` says; `call_kept`: every one of them, as one step;
- `Roomy`: the calls of a run; `rep_of_reach`: the invariant in every reachable state;
- `rooms_kept`: no assertion of the calls fails, and what is put stays in the room of the buffer.
-/

namespace Gabs.Pbuf

open Gabs.Lib

variable {ι : Type} [DecidableEq ι] {S : Prop} {h₀ h : Heap ι} {N : Nat} {A : Ptr → Prop} {v p : Option Nat}

/-! ## One step -/

/-- The call changes no fragment below `N` and no byte at the addresses `A`; under the condition `S` its assertions
pass. -/
def Gentle (S : Prop) (N : Nat) (A : Ptr → Prop) (h : Heap ι) : Call ι → Prop
  | .new _ _ size => size < 2 ^ 64
  | .newRo _ _ data size => (S → data.block ≠ .null) ∧ (∀ g, data.block = .own g → g < h.asked) ∧ size < 2 ^ 64
  | .view .. => True
  | .clone _ j offset size _ => size < 2 ^ 64 ∧
    (S → ∃ l, h.Chain (h.slots j) l ∧ h.total l < 2 ^ 64 ∧ offset + size ≤ h.total l)
  | .incref _ j => Above N (h.slots j)
  | .decref i | .stripHead i _ | .stripTail i _ => Above N (h.slots i)
  | .chainFront i j | .chainBack i j => Above N (h.slots i) ∧ Above N (h.slots j)
  | .chainAt i j offset => Above N (h.slots i) ∧ Above N (h.slots j) ∧
    (S → ∃ l₁ l₂, h.Chain (h.slots i) (l₁ ++ l₂) ∧ h.total (l₁ ++ l₂) < 2 ^ 64 ∧ offset = h.total l₁)
  | .put i data => Above N (h.slots i) ∧ (data ≠ [] → ∀ q, h.Free (h.slots i) q → ¬ A q)
  | .insert _ j it => Above N it.cur ∧ it.lastp.Above N ∧ Above N (h.slots j)
  | .remove _ it | .detach _ it => Above N it.cur ∧ it.lastp.Above N
  | .copy .. | .size .. | .tailroom .. | .headroom .. => ¬ S

theorem Kept.hold (hk : Kept S h₀ N A h) (i : ι) (hv : Above N v) : Kept S h₀ N A (h.hold i v) := by
  refine { hk with own := fun j hj f hf => ?_ }
  by_cases e : j = i
  · subst e
    exact hv f (by simpa [Heap.hold] using hf)
  · exact hk.own j hj f (by simpa [Heap.hold, e] using hf)

omit [DecidableEq ι] in
theorem gabsPbufIncref_kept (hk : Kept S h₀ N A h) (hp : Above N p) :
    Passes S (gabsPbufIncref h p) fun h' => Kept S h₀ N A h' ∧ h'.slots = h.slots := by
  refine (modify_passes h p _).mono fun h' hh' => ?_
  obtain ⟨f, x, hf, hx, rfl⟩ := hh'
  exact ⟨hk.relink (hp f hf) hx (inc x.refcnt) (hk.next_above (hp f hf) hx), rfl⟩

omit [DecidableEq ι] in
/-- A call that only reads. -/
theorem reads_kept {α : Type} (hk : Kept S h₀ N A h) (hs : ¬ S) (e : Except Fault α) :
    Passes S (do let _ ← e; .ok h) (Kept S h₀ N A) :=
  (passes_of_not hs e).bind fun _ _ => hk

/-- **What one call leaves alone.** -/
theorem call_kept (hk : Kept S h₀ N A h) (hg : S → ∀ k, h₀.grants k = true)
    (hA : ∀ q f, A q → q.block = .own f → f < N) {c : Call ι} (hc : Gentle S N A h c) :
    Passes S (h.call c) (Kept S h₀ N A) := by
  have hg' : S → h.grants h.asked = true := fun hs => by rw [hk.grants]; exact hg hs _
  cases c with
  | new i alloc size => exact (gabsPbufNew_kept hk hg' alloc hc).bind fun r ⟨hk', hr⟩ => hk'.hold i hr
  | newRo i alloc data size =>
    exact (gabsPbufNewRo_kept hk hg' alloc hc.1 hc.2.1 hc.2.2).bind fun r ⟨hk', hr⟩ => hk'.hold i hr
  | view i j offset size alloc =>
    exact (gabsPbufView_kept hk hg _ offset size alloc).bind fun r ⟨hk', hr⟩ => hk'.hold i hr
  | clone i j offset size alloc =>
    exact (gabsPbufClone_kept hk hg hA hc.1 hc.2 alloc).bind fun r ⟨hk', hr⟩ => hk'.hold i hr
  | incref i j =>
    exact (gabsPbufIncref_kept hk hc).bind fun h' ⟨hk', hs⟩ => hk'.hold i (by rw [hs]; exact hc)
  | decref i => exact (decrefLoop_kept hk h.fuel hc).bind fun h' hk' => hk'.hold i (above_none N)
  | chainFront i j => exact (gabsPbufChainFront_kept hk i hc.1 hc.2).bind fun h' hk' => hk'.hold j (above_none N)
  | chainBack i j => exact (gabsPbufChainBack_kept hk i hc.1 hc.2).bind fun h' hk' => hk'.hold j (above_none N)
  | chainAt i j offset =>
    exact (gabsPbufChainAt_kept hk i hc.1 hc.2.1 hc.2.2).bind fun h' hk' => hk'.hold j (above_none N)
  | stripHead i size => exact gabsPbufStripHead_kept hk i hc size
  | stripTail i size => exact gabsPbufStripTail_kept hk i hc size
  | put i data =>
    cases data with
    | nil => exact hk
    | cons b data =>
      exact (gabsPbufPut_kept hk i hc.1 (hc.2 (List.cons_ne_nil b data)) (b :: data)).mono fun h' hh' => hh'.1
  | insert i j it =>
    exact (ciInsert_kept hk hc.1 hc.2.1 hc.2.2).bind fun r hr => hr.1.hold j (above_none N)
  | remove i it => exact (ciRemove_kept hk hc.1 hc.2).bind fun r hr => hr.1
  | detach i it => exact ciDetach_kept hk hc.1 hc.2
  | copy | size | tailroom | headroom => exact reads_kept hk hc _

/-! ## Runs -/

/-- **The representation invariant**: nothing is left alone. -/
def Heap.Rep (S : Prop) (h : Heap ι) : Prop := Kept S h 0 (fun _ => False) h

/-- **Every call** keeps the invariant, and its assertions pass. -/
theorem Heap.Rep.call (hk : h.Rep S) (hg : S → ∀ k, h.grants k = true) {c : Call ι}
    (hc : Gentle S 0 (fun _ => False) h c) : Passes S (h.call c) (Heap.Rep S) :=
  (call_kept hk hg (fun _ _ hq => hq.elim) hc).mono fun _ hk' =>
    { hk' with below := nofun, own := fun _ _ _ _ => Nat.zero_le _, mem := fun _ hq => hq.elim, grants := rfl }

/-- **The representation invariant holds in every reachable state.** -/
theorem rep_of_reach {P : Heap ι → Call ι → Prop}
    (hP : ∀ h c, P h c → (S → ∀ k, h.grants k = true) ∧ Gentle S 0 (fun _ => False) h c) (hr : (calls ι).Reach P h) :
    h.Rep S := by
  refine hr.invariant (I := Heap.Rep S) ?_ fun h c h' _ hk hc hst => ?_
  · rintro h ⟨-, hnone, -, -⟩
    have hno : ∀ f x, h.frags f ≠ some x := fun f x hx => by
      rw [hnone f] at hx
      cases hx
    exact ⟨fun f x hx => absurd hx (hno f x), fun _ f x hx => absurd hx (hno f x), Nat.zero_le _, nofun,
      fun f x _ _ hx => absurd hx (hno f x), fun f x _ hx => absurd hx (hno f x), fun f x _ hx => absurd hx (hno f x),
      fun _ _ _ _ => Nat.zero_le _, fun _ hq => hq.elim, rfl⟩
  · obtain ⟨hg, hgentle⟩ := hP h c hc
    exact (hk.call hg hgentle).of_ok (calls_step hst)

/-- The calls of a run: every allocation succeeds, sizes are `size_t`, foreign bytes are at an address that exists, and
the offset of `gabs_pbuf_chain_at` and the range of `gabs_pbuf_clone` are those of a chain whose size is a `size_t`. -/
def Roomy (h : Heap ι) (c : Call ι) : Prop :=
  (∀ k, h.grants k = true) ∧ match c with
    | .new _ _ size => sizeofFrag + size < 2 ^ 64
    | .newRo _ _ data size => data.block ≠ .null ∧ (∀ g, data.block = .own g → g < h.asked) ∧ size < 2 ^ 64
    | .clone _ j offset size _ => ∃ l, h.Chain (h.slots j) l ∧ h.total l < 2 ^ 64 ∧ offset + size ≤ h.total l
    | .chainAt i _ offset => ∃ l₁ l₂, h.Chain (h.slots i) (l₁ ++ l₂) ∧ h.total (l₁ ++ l₂) < 2 ^ 64 ∧
      offset = h.total l₁
    | .copy .. | .size .. | .tailroom .. | .headroom .. => False
    | _ => True

omit [DecidableEq ι] in
theorem Roomy.gentle {c : Call ι} (hc : Roomy h c) : Gentle True 0 (fun _ => False) h c := by
  obtain ⟨-, hc⟩ := hc
  have above : ∀ q : Option Nat, Above 0 q := fun _ _ _ => Nat.zero_le _
  cases c with
  | new i alloc size => exact Nat.lt_of_le_of_lt (Nat.le_add_left _ _) hc
  | newRo i alloc data size => exact ⟨fun _ => hc.1, hc.2.1, hc.2.2⟩
  | view => trivial
  | clone i j offset size alloc =>
    obtain ⟨l, hl, ht, hle⟩ := hc
    exact ⟨by omega, fun _ => ⟨l, hl, ht, hle⟩⟩
  | incref | decref | stripHead | stripTail => exact above _
  | chainFront | chainBack => exact ⟨above _, above _⟩
  | chainAt i j offset => exact ⟨above _, above _, fun _ => hc⟩
  | put i data => exact ⟨above _, fun _ _ _ => not_false⟩
  | insert i j it => exact ⟨above _, fun _ _ => Nat.zero_le _, above _⟩
  | remove i it | detach i it => exact ⟨above _, fun _ _ => Nat.zero_le _⟩
  | copy | size | tailroom | headroom => exact hc.elim

/-- The address is among those that a fragment of the buffer has. -/
def Heap.Room (h : Heap ι) (p : Option Nat) (q : Ptr) : Prop :=
  ∃ f x, h.Leads p f ∧ h.frags f = some x ∧ q.block = x.base.block ∧ x.base.off ≤ q.off ∧ q.off < x.base.off + x.cap

/-- **The representation invariant**, and what follows from it: the tailroom does not wrap, no assertion fails, and
every byte that `gabs_pbuf_put` stores, whatever becomes of the call, is where a fragment of its own buffer has room; no
other byte changes. -/
theorem rooms_kept (hr : (calls ι).Reach Roomy h) :
    (∀ f x, h.frags f = some x → x.data.block = x.base.block ∧ x.base.off ≤ x.data.off ∧
      x.data.off - x.base.off + x.size ≤ x.cap ∧ x.tailroom = x.cap - x.size - (x.data.off - x.base.off)) ∧
    (∀ c, Roomy h c → h.call c ≠ .error .assertion) ∧
    ∀ i data, (gabsPbufPutLogged h i data).result = h.call (.put i data) ∧
      (∀ w ∈ (gabsPbufPutLogged h i data).log, ∀ q, w.Covers q → h.Room (h.slots i) q) ∧
      ∀ h', h.call (.put i data) = .ok h' → ∀ q, ¬ h.Room (h.slots i) q → h'.byte q = h.byte q := by
  have hk : h.Rep True := rep_of_reach (fun h c hc => ⟨fun _ => hc.1, hc.gentle⟩) hr
  have hroom : ∀ i q, h.Free (h.slots i) q → h.Room (h.slots i) q := fun i q hfree => by
    obtain ⟨f, x, hl, hx, hb, hlo, hhi⟩ := hfree
    exact ⟨f, x, hl, hx, hb, Nat.le_trans (hk.fits.frag hx).le (Nat.le_trans (Nat.le_add_right _ _) hlo), hhi⟩
  refine ⟨fun f x hx => ?_, fun c hc he => ?_, fun i data => ?_⟩
  · have hfits := hk.fits.frag hx
    have htail := hfits.tailroom
    rw [hfits.headroom] at htail
    exact ⟨hfits.block, hfits.le, hfits.room, by omega⟩
  · exact (hk.call (fun _ => hc.1) hc.gentle).error_ok he rfl trivial
  · have hresult := gabsPbufPutLogged_result h i data
    obtain ⟨hlog, hput⟩ := gabsPbufPutLogged_kept hk i (fun _ _ => Nat.zero_le _) (fun _ _ => not_false) data
    rw [hresult] at hput
    refine ⟨hresult, fun w hw q hq => hroom i q (hlog w hw q hq), fun h' hh' q hq => ?_⟩
    exact (hput.of_ok hh').2.2 q fun hfree => hq (hroom i q hfree)

/-- **Assertions that fail**: `gabs_pbuf_put` into a buffer over no bytes at the null address, and `gabs_pbuf_chain_at`
at a boundary of fragments when the sizes, here those of four buffers over one object, add up to more than a `size_t`.
-/
theorem assertions_fail :
    [.newRo 0 0 ⟨.null, 0⟩ 0, .put 0 [1]].foldlM Heap.call (heapOf (fun _ => none) [] : Heap (Fin 2)) =
      .error .assertion ∧
    [.newRo 0 0 ⟨.user 0, 0⟩ (2 ^ 62), .newRo 1 0 ⟨.user 0, 0⟩ (2 ^ 62), .chainBack 0 1,
      .newRo 1 0 ⟨.user 0, 0⟩ (2 ^ 62), .chainBack 0 1, .newRo 1 0 ⟨.user 0, 0⟩ (2 ^ 62), .chainBack 0 1,
      .new 1 0 8, .chainAt 0 1 (3 * 2 ^ 62)].foldlM Heap.call (heapOf (fun _ => none) [] : Heap (Fin 2)) =
      .error .assertion :=
  ⟨rfl, rfl⟩

/-- A buffer of eight bytes after a put and a strip; the next put stores behind what is left. -/
theorem rooms_kept_run : ∃ h : Heap (Fin 2), (calls (Fin 2)).Reach Roomy h ∧ h.chain (h.slots 0) = some [0] ∧
    (∀ f x, h.frags f = some x → x.data.block = x.base.block ∧ x.base.off ≤ x.data.off ∧
      x.data.off - x.base.off + x.size ≤ x.cap ∧ x.tailroom = x.cap - x.size - (x.data.off - x.base.off)) ∧
    (∀ c, Roomy h c → h.call c ≠ .error .assertion) ∧
    (gabsPbufPutLogged h 0 [4, 5]).log = [⟨⟨.own 0, 3⟩, 2⟩] ∧ h.Room (h.slots 0) ⟨.own 0, 4⟩ := by
  have h₀ : (calls (Fin 2)).Reach Roomy (heapOf (fun _ => none) []) := .init ⟨fun _ => rfl, fun _ => rfl, rfl, rfl⟩
  have h₁ := h₀.step (a := .new 0 0 8) ⟨fun _ => rfl, by decide⟩ rfl
  have h₂ := h₁.step (a := .put 0 [1, 2, 3]) ⟨fun _ => rfl, trivial⟩ rfl
  have h₃ := h₂.step (a := .stripHead 0 1) ⟨fun _ => rfl, trivial⟩ rfl
  obtain ⟨hrep, hpass, hput⟩ := rooms_kept h₃
  refine ⟨_, h₃, by decide, hrep, hpass, rfl, ?_⟩
  exact (hput 0 [4, 5]).2.1 _ (List.mem_singleton_self _) ⟨.own 0, 4⟩ ⟨rfl, by decide, by decide⟩

end Gabs.Pbuf
