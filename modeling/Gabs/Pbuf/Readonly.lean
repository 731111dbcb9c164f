import Gabs.Pbuf.Rooms

/-!
# Packet buffers: writing through a view

- `Sane`, `kept_of_sane`: what every state satisfies, whatever the client calls;
- `callsFrom`, `Derived`: calls on a view, and on views and clones made from it;
- `Unwritten`: no byte is put into a readonly fragment over the original;
- `view_unwritten`: under that condition the original stays as it is; `view_written`: without it, it does not.

The readonly flag is written by `gabs_pbuf_new_ro` and read nowhere.
-/

namespace Gabs.Pbuf

open Gabs.Lib

variable {ι : Type} {S : Prop} {h₀ h₁ h : Heap ι} {N : Nat} {A : Ptr → Prop} {p : Option Nat} {f : Nat} {x : Frag}
  {l : List Nat}

/-! ## Fragments from a handle on -/

/-- The fragments of a buffer above `N` are above it. -/
theorem Kept.leads (hk : Kept S h₀ N A h) (hp : Above N p) (hl : h.Leads p f) : N ≤ f := by
  obtain ⟨l, hl⟩ := hl
  induction l generalizing p with
  | nil => exact hp f hl.1
  | cons g l ih =>
    obtain ⟨hg, hl⟩ := hl
    refine ih (fun c hc => ?_) hl
    cases hy : h.frags g with
    | none =>
      rw [Heap.next, hy] at hc
      cases hc
    | some y =>
      rw [next_of hy] at hc
      exact hk.above g y c (hp g hg) hy hc

/-- The block of an address of a chain. -/
theorem mem_addrs {q : Ptr} (hq : q ∈ h.addrs l) : ∃ f ∈ l, ∃ x, h.frags f = some x ∧ q.block = x.data.block := by
  obtain ⟨f, hf, hq⟩ := List.mem_flatMap.mp hq
  cases hx : h.frags f with
  | none =>
    rw [hx] at hq
    cases hq
  | some x =>
    rw [hx] at hq
    obtain ⟨k, -, rfl⟩ := List.mem_map.mp hq
    exact ⟨f, hf, x, hx, rfl⟩

/-! ## Every state -/

variable [DecidableEq ι]

/-- The sizes are `size_t`, and foreign bytes are at an address that exists. -/
def Sane (h : Heap ι) : Call ι → Prop
  | .new _ _ size | .clone _ _ _ size _ => size < 2 ^ 64
  | .newRo _ _ data size => (∀ g, data.block = .own g → g < h.asked) ∧ size < 2 ^ 64
  | _ => True

omit [DecidableEq ι] in
theorem Sane.gentle {c : Call ι} (hc : Sane h c) : Gentle False 0 (fun _ => False) h c := by
  have above : ∀ q : Option Nat, Above 0 q := fun _ _ _ => Nat.zero_le _
  cases c with
  | new => exact hc
  | newRo => exact ⟨False.elim, hc⟩
  | view => trivial
  | clone => exact ⟨hc, False.elim⟩
  | incref | decref | stripHead | stripTail => exact above _
  | chainFront | chainBack => exact ⟨above _, above _⟩
  | chainAt => exact ⟨above _, above _, False.elim⟩
  | put => exact ⟨above _, fun _ _ _ => not_false⟩
  | insert => exact ⟨above _, fun _ _ => Nat.zero_le _, above _⟩
  | remove | detach => exact ⟨above _, fun _ _ => Nat.zero_le _⟩
  | copy | size | tailroom | headroom => exact not_false

/-- What every state satisfies. -/
theorem rep_of_sane (hr : (calls ι).Reach Sane h) : h.Rep False :=
  rep_of_reach (fun _ _ hc => ⟨False.elim, hc.gentle⟩) hr

omit [DecidableEq ι] in
/-- The fragments there are, and the bytes of one chain, as something to be left alone. -/
theorem Heap.Rep.start (hk : h.Rep S) (l : List Nat) : Kept S h h.asked (· ∈ h.addrs l) h :=
  { hk with
    asked := Nat.le_refl _
    below := fun _ _ => rfl
    above := fun f x _ hf hx => absurd (hk.fits.sound f x hx) (Nat.not_lt_of_le hf)
    plain := fun f x hf hx => absurd (hk.fits.sound f x hx) (Nat.not_lt_of_le hf)
    own := fun i hi f hf => by rw [hi] at hf; cases hf
    mem := fun _ _ => rfl }

/-! ## Calls on a view -/

/-- The calls of a client from the heap `h₁` on. -/
def callsFrom (h₁ : Heap ι) : Lts (Heap ι) (Call ι) where
  init h := h = h₁
  step := (calls ι).step

/-- The call is one of those that the client makes on a view, and on views and clones made from it: on handle variables
that were empty before, in `h₀`. -/
def Derived (h₀ : Heap ι) : Call ι → Prop
  | .stripHead i _ | .stripTail i _ | .put i _ | .copy i _ _ | .size i | .tailroom i | .headroom i => h₀.slots i = none
  | .view i j _ _ _ => h₀.slots i = none ∧ h₀.slots j = none
  | .clone i j _ size _ => h₀.slots i = none ∧ h₀.slots j = none ∧ size < 2 ^ 64
  | _ => False

/-- **No byte is put into a readonly fragment over the original**, the chain `l` of `h₀`: no readonly fragment of the
buffer in a block of the original has tailroom. -/
def Unwritten (h₀ : Heap ι) (l : List Nat) (h : Heap ι) : Call ι → Prop
  | .put i data => data ≠ [] → ∀ f x, h.Leads (h.slots i) f → h.frags f = some x → x.readonly = true →
    (∃ q ∈ h₀.addrs l, q.block = x.base.block) → x.tailroom = 0
  | _ => True

omit [DecidableEq ι] in
/-- Such a call leaves the original alone. -/
theorem Derived.gentle (hk : Kept False h₀ h₀.asked (· ∈ h₀.addrs l) h)
    (hA : ∀ q f, q ∈ h₀.addrs l → q.block = .own f → f < h₀.asked) {c : Call ι} (hd : Derived h₀ c)
    (hu : Unwritten h₀ l h c) : Gentle False h₀.asked (· ∈ h₀.addrs l) h c := by
  cases c with
  | stripHead i | stripTail i => exact hk.own i hd
  | view => trivial
  | clone i j offset size => exact ⟨hd.2.2, False.elim⟩
  | copy | size | tailroom | headroom => exact not_false
  | put i data =>
    refine ⟨hk.own i hd, fun hne q hfree hq => ?_⟩
    obtain ⟨f, x, hl, hx, hb, hlo, hhi⟩ := hfree
    cases hro : x.readonly with
    | true =>
      -- There is room where the address is, in a block of the original.
      have hroom := hu hne f x hl hx hro ⟨q, hq, hb⟩
      have htail := (hk.fits.frag hx).tailroom
      rw [(hk.fits.frag hx).headroom] at htail
      have hle := (hk.fits.frag hx).le
      omega
    | false =>
      have hf : h₀.asked ≤ f := hk.leads (hk.own i hd) hl
      have hown := hk.plain f x hf hx hro
      exact absurd (hA q f hq (hb.trans hown)) (Nat.not_lt_of_le hf)
  | new | newRo | incref | decref | chainFront | chainBack | chainAt | insert | remove | detach => exact hd.elim

/-- **A view through which nothing is put leaves the original alone.** -/
theorem view_unwritten {i j : ι} {offset size alloc : Nat} (hr₀ : (calls ι).Reach Sane h₀)
    (hc : h₀.Chain (h₀.slots j) l) (hv : h₀.call (.view i j offset size alloc) = .ok h₁)
    (hr : (callsFrom h₁).Reach (fun h c => Derived h₀ c ∧ Unwritten h₀ l h c) h) :
    (∀ f ∈ l, h.frags f = h₀.frags f) ∧ h.content l = h₀.content l := by
  have hk₀ : Kept False h₀ h₀.asked (· ∈ h₀.addrs l) h₀ := (rep_of_sane hr₀).start l
  have hA : ∀ q f, q ∈ h₀.addrs l → q.block = .own f → f < h₀.asked := fun q f hq hb => by
    obtain ⟨g, -, x, hx, hblock⟩ := mem_addrs hq
    exact hk₀.data_known hx (hblock.symm.trans hb)
  have hk : Kept False h₀ h₀.asked (· ∈ h₀.addrs l) h := by
    refine hr.invariant (I := Kept False h₀ h₀.asked (· ∈ h₀.addrs l)) ?_ fun h c h' _ hk ⟨hd, hu⟩ hst => ?_
    · rintro h rfl
      exact (call_kept hk₀ False.elim hA (c := .view i j offset size alloc) trivial).of_ok hv
    · exact (call_kept hk False.elim hA (hd.gentle hk hA hu)).of_ok (calls_step hst)
  have hsame : ∀ f ∈ l, h.frags f = h₀.frags f := fun f hf => by
    obtain ⟨x, hx⟩ := hc.live f hf
    exact hk.below f (hk₀.fits.sound f x hx)
  refine ⟨hsame, ?_⟩
  rw [Heap.content, addrs_congr hsame, Heap.content]
  exact List.map_congr_left fun q hq => hk.mem q hq

/-- A buffer of four bytes, before and after calls on a view of it. -/
theorem view_unwritten_run : ∃ h₀ h₁ h : Heap (Fin 2), (calls (Fin 2)).Reach Sane h₀ ∧ h₀.content [0] = [1, 2, 3, 4] ∧
    h₀.call (.view 1 0 1 3 0) = .ok h₁ ∧
    (callsFrom h₁).Reach (fun h c => Derived h₀ c ∧ Unwritten h₀ [0] h c) h ∧ h.chain (h.slots 1) = some [1] ∧
    (∀ f ∈ [0], h.frags f = h₀.frags f) ∧ h.content [0] = h₀.content [0] := by
  have r₀ : (calls (Fin 2)).Reach Sane (heapOf (fun _ => none) []) := .init ⟨fun _ => rfl, fun _ => rfl, rfl, rfl⟩
  have r₁ := r₀.step (a := Call.new 0 0 8) (by decide : 8 < 2 ^ 64) rfl
  have r₂ := r₁.step (a := Call.put 0 [1, 2, 3, 4]) trivial rfl
  refine ⟨_, _, _, r₂, by decide, rfl, .step (a := Call.stripTail 1 1) (.init rfl) ⟨rfl, trivial⟩ rfl, by decide, ?_⟩
  apply view_unwritten r₂
  case hv =>
    show Heap.call _ (.view 1 0 1 3 0) = .ok _
    rfl
  case hc => exact chain_of_walk (n := 1) (by decide)
  case hr => exact .step (a := Call.stripTail 1 1) (.init rfl) ⟨rfl, trivial⟩ rfl

/-- **A view that is written through**: a byte is stripped off its tail, and another one put in its place. -/
theorem view_written : ∃ h₀ h : Heap (Fin 2),
    [.new 0 0 8, .put 0 [1, 2, 3, 4]].foldlM Heap.call (heapOf (fun _ => none) []) = .ok h₀ ∧
    [.view 1 0 0 4 0, .stripTail 1 1, .put 1 [9]].foldlM Heap.call h₀ = .ok h ∧
    h₀.chain (h₀.slots 0) = some [0] ∧ h₀.content [0] = [1, 2, 3, 4] ∧ h.content [0] = [1, 2, 3, 9] := by
  refine ⟨_, _, rfl, rfl, ?_, ?_, ?_⟩
  · decide
  · decide
  · decide

end Gabs.Pbuf
