import Gabs.Pbuf.Append
import Gabs.Pbuf.Clone
import Gabs.Pbuf.Ops
import Gabs.Pbuf.Owned
import Gabs.Pbuf.Splice

/-!
# Packet buffers: the rope in a heap

- `Heap.piece`, `Heap.ropes`: what the buffers of a heap are, read off its fragments;
- `Heap.Whole`: a fragment with its bytes in its own block; `Alike`: a fragment of which at most the `next` has changed;
- `Heap.Shows`: the heap shows the ropes `a`, with the fragments `c i` in buffer `i`;
- `Shows.set`, `Shows.forget`, `Shows.write`: one buffer becomes another one, is consumed, or is changed in one piece;
- `Shows.insert`, `Shows.remove`, `Shows.detach`: the writes of the iterators.
-/

namespace Gabs.Pbuf

open Gabs.Lib

variable {ι : Type} {h h' h'' : Heap ι} {i j : ι} {p : Option Nat} {f g : Nat} {x y : Frag} {l l₁ l₂ m : List Nat}
  {c : ι → List Nat} {it : Ci ι}

/-! ## What is read off -/

/-- The piece that a fragment is, in memory. -/
def Frag.held (x : Frag) (byte : Ptr → UInt8) : Piece UInt8 := ⟨x.headroom, x.addrs.map byte, x.tailroom⟩

/-- The piece that fragment `f` is. -/
def Heap.piece (h : Heap ι) (f : Nat) : Piece UInt8 := (h.frags f).elim (.blank 0) fun x => x.held h.byte

/-- The rope that a chain is. -/
def Heap.rope (h : Heap ι) (l : List Nat) : Rope UInt8 := l.map h.piece

/-- **The buffers of a heap, as ropes.** -/
def Heap.ropes (h : Heap ι) : Ropes ι := fun i => h.rope ((h.chain (h.slots i)).getD [])

theorem piece_of (hx : h.frags f = some x) : h.piece f = x.held h.byte := by rw [Heap.piece, hx]; rfl

@[simp] theorem rope_nil (h : Heap ι) : h.rope [] = [] := rfl

@[simp] theorem rope_cons (h : Heap ι) (f : Nat) (l : List Nat) : h.rope (f :: l) = h.piece f :: h.rope l := rfl

@[simp] theorem rope_append (h : Heap ι) (l m : List Nat) : h.rope (l ++ m) = h.rope l ++ h.rope m := List.map_append

theorem piece_elems (hx : h.frags f = some x) : (h.piece f).elems = x.addrs.map h.byte := by rw [piece_of hx]; rfl

/-- The bytes of the rope are the content of the chain. -/
theorem rope_elems (hl : ∀ f ∈ l, ∃ x, h.frags f = some x) : (h.rope l).elems = h.content l := by
  induction l with
  | nil => rfl
  | cons f l ih =>
    obtain ⟨x, hx⟩ := hl f List.mem_cons_self
    rw [rope_cons, Rope.elems_cons, piece_elems hx, ih fun g hg => hl g (List.mem_cons_of_mem _ hg), content_cons hx]

theorem rope_size (hl : ∀ f ∈ l, ∃ x, h.frags f = some x) : (h.rope l).size = h.total l := by
  rw [Rope.size, rope_elems hl, content_length hl]

/-! ## Fragments with a block of their own -/

/-- **Fragment `f` is `x`, and its bytes are in its own block.** -/
structure Heap.Whole (h : Heap ι) (f : Nat) (x : Frag) : Prop where
  frag : h.frags f = some x
  base : x.base = ⟨.own f, 0⟩
  fits : x.Fits
  block : sizeofFrag + x.cap ≤ h.requests f

/-- Of fragment `f` at most the `next` has changed, and nothing in its block. -/
structure Alike (h h' : Heap ι) (f : Nat) : Prop where
  frag : ∀ x, h.frags f = some x → ∃ v, h'.frags f = some { x with next := v }
  block : h'.requests f = h.requests f
  bytes : h'.bytes (.own f) = h.bytes (.own f)

theorem Heap.Whole.data (hw : h.Whole f x) : x.data = ⟨.own f, x.data.off⟩ := by
  have hblock : x.data.block = .own f := hw.fits.block.trans (congrArg Ptr.block hw.base)
  rw [← hblock]

/-- The bytes of a fragment are in its block. -/
theorem Heap.Whole.mem_addrs (hw : h.Whole f x) {q : Ptr} (hq : q ∈ x.addrs) : q.block = .own f := by
  obtain ⟨k, -, rfl⟩ := List.mem_map.mp hq
  rw [Ptr.add, hw.data]

theorem Heap.Whole.headroom (hw : h.Whole f x) : x.headroom = x.data.off := by
  rw [hw.fits.headroom, hw.base]
  exact Nat.sub_zero _

theorem Heap.Whole.cap_eq (hw : h.Whole f x) : x.data.off + x.size + x.tailroom = x.cap := by
  rw [← hw.headroom]
  exact hw.fits.tailroom

/-- The block of the fragment is accessible. -/
theorem Heap.Whole.touch (hw : h.Whole f x) {k n : Nat} (hk : k + n ≤ x.cap) : h.touch ⟨.own f, k⟩ n = .ok () := by
  have hblock := hw.block
  unfold Heap.touch
  split
  · rfl
  · simp only [hw.frag, reduceCtorEq, if_false]
    rw [if_pos (by omega)]

/-- A part of it, as it is reached from the bytes in use. -/
theorem Heap.Whole.touch_add (hw : h.Whole f x) {k n : Nat} (hk : x.data.off + k + n ≤ x.cap) :
    h.touch (x.data.add k) n = .ok () := by
  rw [Ptr.add, hw.data]
  exact hw.touch hk

theorem Alike.refl (h : Heap ι) (f : Nat) : Alike h h f := ⟨fun x hx => ⟨x.next, hx⟩, rfl, rfl⟩

theorem Alike.trans (ha : Alike h h' f) (hb : Alike h' h'' f) : Alike h h'' f := by
  refine ⟨fun x hx => ?_, hb.block.trans ha.block, hb.bytes.trans ha.bytes⟩
  obtain ⟨v, hv⟩ := ha.frag x hx
  exact hb.frag { x with next := v } hv

/-- A fragment that is written neither itself nor in its block. -/
theorem alike_of (hf : h'.frags f = h.frags f) (hr : h'.requests f = h.requests f)
    (hb : h'.bytes (.own f) = h.bytes (.own f)) : Alike h h' f := by
  refine ⟨fun x hx => ?_, hr, hb⟩
  rw [hf]
  exact ⟨x.next, hx⟩

theorem Alike.whole (ha : Alike h h' f) (hw : h.Whole f x) : ∃ v, h'.Whole f { x with next := v } := by
  obtain ⟨v, hv⟩ := ha.frag x hw.frag
  refine ⟨v, hv, hw.base, ⟨hw.fits.block, hw.fits.le, hw.fits.room, hw.fits.cap⟩, ?_⟩
  rw [ha.block]
  exact hw.block

/-- Such a fragment is the same piece. -/
theorem Alike.piece (ha : Alike h h' f) (hw : h.Whole f x) : h'.piece f = h.piece f := by
  obtain ⟨v, hv⟩ := ha.frag x hw.frag
  have hbytes : x.addrs.map h'.byte = x.addrs.map h.byte := by
    apply List.map_congr_left
    intro q hq
    rw [Heap.byte, hw.mem_addrs hq, ha.bytes, Heap.byte, hw.mem_addrs hq]
  rw [piece_of hv, piece_of hw.frag]
  show Piece.mk x.headroom (x.addrs.map h'.byte) x.tailroom = Piece.mk x.headroom (x.addrs.map h.byte) x.tailroom
  rw [hbytes]

/-! ## Heaps that show ropes -/

/-- **The heap shows the ropes `a`**: buffer `i` has the fragments `c i`, which no other one has. -/
structure Heap.Shows (h : Heap ι) (c : ι → List Nat) (a : Ropes ι) : Prop where
  sound : h.Sound
  chain : ∀ i, h.Chain (h.slots i) (c i)
  apart : ∀ i j, i ≠ j → ∀ f ∈ c i, f ∉ c j
  whole : ∀ i, ∀ f ∈ c i, ∃ x, h.Whole f x
  rope : ∀ i, h.rope (c i) = a i

variable {a : Ropes ι}

theorem Heap.Shows.chain_eq (hs : h.Shows c a) (i : ι) : h.chain (h.slots i) = some (c i) :=
  (chain_eq_iff hs.sound).mpr (hs.chain i)

/-- The ropes are those that are read off. -/
theorem Heap.Shows.ropes (hs : h.Shows c a) : h.ropes = a := by
  funext i
  rw [Heap.ropes, hs.chain_eq i, Option.getD_some, hs.rope i]

/-- A rope of fragments that are alike. -/
theorem Heap.Shows.rope_alike (hs : h.Shows c a) (hl : ∀ f ∈ l, f ∈ c i) (ha : ∀ f ∈ l, Alike h h' f) :
    h'.rope l = h.rope l := by
  apply List.map_congr_left
  intro f hf
  obtain ⟨x, hx⟩ := hs.whole i f (hl f hf)
  exact (ha f hf).piece hx

theorem Heap.Shows.size (hs : h.Shows c a) (i : ι) : h.total (c i) = (a i).size := by
  rw [← hs.rope i, rope_size (hs.chain i).live]

theorem Heap.Shows.length (hs : h.Shows c a) (i : ι) : (c i).length = (a i).length := by
  rw [← hs.rope i, Heap.rope, List.length_map]

variable [DecidableEq ι]

/-- **Buffer `i` becomes another one**, of the fragments `l`, and the other buffers stay. -/
theorem Heap.Shows.set (hs : h.Shows c a) {r : Rope UInt8} (hsound : h'.Sound)
    (hchain : ∀ k, k ≠ i → h'.Chain (h'.slots k) (c k)) (halike : ∀ k, k ≠ i → ∀ f ∈ c k, Alike h h' f)
    (hl : h'.Chain (h'.slots i) l) (hd : ∀ k, k ≠ i → ∀ f ∈ c k, f ∉ l) (hw : ∀ f ∈ l, ∃ x, h'.Whole f x)
    (hr : h'.rope l = r) : h'.Shows (Function.update c i l) (Function.update a i r) := by
  refine ⟨hsound, fun k => ?_, fun k j hkj f hf => ?_, fun k f hf => ?_, fun k => ?_⟩
  · by_cases hk : k = i
    · subst hk
      rwa [Function.update_self]
    · rw [Function.update_of_ne hk]
      exact hchain k hk
  · by_cases hk : k = i
    · subst hk
      rw [Function.update_self] at hf
      rw [Function.update_of_ne (Ne.symm hkj)]
      intro hfj
      exact hd j (Ne.symm hkj) f hfj hf
    · rw [Function.update_of_ne hk] at hf
      by_cases hj : j = i
      · subst hj
        rw [Function.update_self]
        exact hd k hk f hf
      · rw [Function.update_of_ne hj]
        exact hs.apart k j hkj f hf
  · by_cases hk : k = i
    · subst hk
      rw [Function.update_self] at hf
      exact hw f hf
    · rw [Function.update_of_ne hk] at hf
      obtain ⟨x, hx⟩ := hs.whole k f hf
      obtain ⟨v, hv⟩ := (halike k hk f hf).whole hx
      exact ⟨_, hv⟩
  · by_cases hk : k = i
    · subst hk
      rw [Function.update_self, Function.update_self, hr]
    · rw [Function.update_of_ne hk, Function.update_of_ne hk, hs.rope_alike (fun _ hf => hf) (halike k hk), hs.rope k]

/-- **A buffer is consumed.** -/
theorem Heap.Shows.forget (hs : h.Shows c a) (j : ι) :
    (h.hold j none).Shows (Function.update c j []) (Function.update a j []) := by
  refine hs.set hs.sound (fun k hk => ?_) (fun k _ f _ => alike_of rfl rfl rfl) ?_ (by simp) (by simp) rfl
  · have hslot : (h.hold j none).slots k = h.slots k := Function.update_of_ne hk ..
    rw [hslot]
    exact ⟨(hs.chain k).path, (hs.chain k).live⟩
  · have hslot : (h.hold j none).slots j = none := Function.update_self ..
    rw [hslot]
    exact chain_nil

/-! ## One piece -/

omit [DecidableEq ι] in
theorem put_store_alike {q : Ptr} (hq : q.block = .own f) (hg : g ≠ f) (data : List UInt8) :
    Alike h ((h.put f y).store q data) g := by
  apply alike_of
  · exact Function.update_of_ne hg ..
  · rfl
  · funext o
    apply if_neg
    rintro ⟨hb, -, -⟩
    rw [hq] at hb
    exact hg (Block.own.inj hb)

/-- **One piece is changed**: the fragment keeps its block, and bytes are written there alone. -/
theorem Heap.Shows.write (hs : h.Shows c a) (e : c i = l₁ ++ f :: l₂) (hx : h.Whole f x) (hbase : y.base = x.base)
    (hnext : y.next = x.next) (hcap : y.cap = x.cap) (hfits : y.Fits) {q : Ptr} (hq : q.block = .own f)
    {data : List UInt8} {b : Piece UInt8} (hb : ((h.put f y).store q data).piece f = b) :
    ((h.put f y).store q data).Shows c (Function.update a i (h.rope l₁ ++ b :: h.rope l₂)) := by
  have hself : ((h.put f y).store q data).frags f = some y := Function.update_self ..
  have halike : ∀ g, g ≠ f → Alike h ((h.put f y).store q data) g := fun g hg => put_store_alike hq hg data
  have hmem : f ∈ c i := by simp [e]
  have hne : ∀ k, k ≠ i → ∀ g ∈ c k, g ≠ f := by
    rintro k hk g hg rfl
    exact hs.apart k i hk g hg hmem
  have hlinks : ((h.put f y).store q data).next = h.next := put_next hx.frag hnext
  have hchain : ∀ k, ((h.put f y).store q data).Chain (h.slots k) (c k) := by
    intro k
    refine (hs.chain k).congr (fun g _ => congrFun hlinks g) fun g hg => ?_
    by_cases hgf : g = f
    · subst hgf
      exact ⟨y, hself⟩
    · obtain ⟨z, hz⟩ := (hs.chain k).live g hg
      exact ⟨z, (Function.update_of_ne hgf ..).trans hz⟩
  have hnd := (hs.chain i).path.nodup
  rw [e] at hnd
  obtain ⟨-, hnd₂, hdisj⟩ := List.nodup_append.mp hnd
  have h₁ : f ∉ l₁ := fun hf => hdisj f hf f List.mem_cons_self rfl
  have h₂ : f ∉ l₂ := (List.nodup_cons.mp hnd₂).1
  have hside : ∀ m : List Nat, f ∉ m → (∀ g ∈ m, g ∈ c i) → ((h.put f y).store q data).rope m = h.rope m := by
    intro m hm hsub
    refine hs.rope_alike hsub fun g hg => halike g ?_
    rintro rfl
    exact hm hg
  suffices hset : ((h.put f y).store q data).Shows (Function.update c i (c i))
      (Function.update a i (h.rope l₁ ++ b :: h.rope l₂)) by
    rwa [Function.update_eq_self] at hset
  refine hs.set ?_ (fun k _ => hchain k) (fun k hk g hg => halike g (hne k hk g hg)) (hchain i)
    (fun k hk g hg => hs.apart k i hk g hg) ?_ ?_
  · intro g z hz
    by_cases hgf : g = f
    · subst hgf
      exact hs.sound g x hx.frag
    · exact hs.sound g z ((Function.update_of_ne hgf ..).symm.trans hz)
  · intro g hg
    by_cases hgf : g = f
    · subst hgf
      exact ⟨y, hself, hbase.trans hx.base, hfits, by rw [hcap]; exact hx.block⟩
    · obtain ⟨z, hz⟩ := hs.whole i g hg
      obtain ⟨v, hv⟩ := (halike g hgf).whole hz
      exact ⟨_, hv⟩
  · rw [e, rope_append, rope_cons, hb, hside l₁ h₁ fun g hg => by simp [e, hg], hside l₂ h₂ fun g hg => by simp [e, hg]]

/-! ## The iterators -/

omit [DecidableEq ι] in
theorem drop_alike (h : Heap ι) (hg : g ≠ f) : Alike h (h.drop f) g := by
  have hrequests : (h.drop f).requests = h.requests := by
    unfold Heap.drop
    split
    · rfl
    · split
      · rfl
      · rfl
  exact alike_of (drop_frags_of_ne hg) (congrFun hrequests g) (by rw [drop_bytes])

omit [DecidableEq ι] in
theorem unref_alike (h : Heap ι) (hg : g ∉ l) : Alike h (h.unref l) g := by
  induction l generalizing h with
  | nil => exact .refl h g
  | cons f l ih =>
    rw [List.mem_cons, not_or] at hg
    have hdrop := drop_alike h hg.1
    rw [Heap.unref]
    split
    · exact .refl h g
    · split
      · exact hdrop
      · exact hdrop.trans (ih (h.drop f) hg.2)

theorem link_alike (h : Heap ι) (q : Link ι) (v : Option Nat) (f : Nat) : Alike h (h.link q v) f := by
  refine ⟨fun x hx => link_frags_next h q v hx, ?_, by rw [link_bytes]⟩
  cases q with
  | slot | next | param => rfl

omit [DecidableEq ι] in
theorem Heap.Shows.at_eq (hs : h.Shows c a) (ha : h.At i l₁ l₂ it) : c i = l₁ ++ l₂ := (hs.chain i).unique ha.chain

/-- The pointer of a position in one buffer is none of a fragment of another one. -/
theorem Heap.Shows.chain_link (hs : h.Shows c a) (hl : ∀ f ∈ l, f ∈ c i) {k : ι} (hk : k ≠ i) (v : Option Nat) :
    (h.link (lastp i l) v).Chain ((h.link (lastp i l) v).slots k) (c k) := by
  rw [link_slots_of_ne _ (lastp_slot_ne hk l)]
  apply (hs.chain k).link
  intro f hf
  apply lastp_ne
  intro hfl
  exact hs.apart k i hk f hf (hl f hfl)

/-- **Buffer `i` keeps the fragments `l`** of those it has. -/
theorem Heap.Shows.keep (hs : h.Shows c a) (hl : ∀ f ∈ l, f ∈ c i) (hsound : h'.Sound)
    (hchain : ∀ k, k ≠ i → h'.Chain (h'.slots k) (c k)) (hself : h'.Chain (h'.slots i) l)
    (halike : ∀ f, f ∉ c i ∨ f ∈ l → Alike h h' f) :
    h'.Shows (Function.update c i l) (Function.update a i (h.rope l)) := by
  refine hs.set hsound hchain (fun k hk f hf => halike f (.inl (hs.apart k i hk f hf))) hself
    (fun k hk f hf hfl => hs.apart k i hk f hf (hl f hfl)) (fun f hf => ?_)
    (hs.rope_alike hl fun f hf => halike f (.inr hf))
  obtain ⟨x, hx⟩ := hs.whole i f (hl f hf)
  obtain ⟨v, hv⟩ := (halike f (.inr hf)).whole hx
  exact ⟨_, hv⟩

/-- **A fragment is taken out.** -/
theorem Heap.Shows.remove (hs : h.Shows c a) (ha : h.At i l₁ (f :: l₂) it) :
    ((h.link (lastp i l₁) l₂.head?).cut f).Shows (Function.update c i (l₁ ++ l₂))
      (Function.update a i (h.rope l₁ ++ h.rope l₂)) := by
  have e := hs.at_eq ha
  have hnd := ha.chain.path.nodup
  obtain ⟨-, hnd₂, hdisj⟩ := List.nodup_append.mp hnd
  have hf₁ : f ∉ l₁ := fun hf => hdisj f hf f List.mem_cons_self rfl
  have hf₂ : f ∉ l₂ := (List.nodup_cons.mp hnd₂).1
  have halike : ∀ g, g ≠ f → Alike h ((h.link (lastp i l₁) l₂.head?).cut f) g := fun g hg =>
    ((link_alike h _ _ g).trans (link_alike _ _ _ g)).trans (drop_alike _ hg)
  obtain ⟨it', hrun, ha'⟩ := ciRemove_at hs.sound ha
  rw [← rope_append]
  refine hs.keep (fun g hg => ?_) (((hs.sound.link _ _).link _ _).drop f) (fun k hk => ?_) ha'.chain fun g hg => ?_
  · rw [e]
    simp only [List.mem_append, List.mem_cons] at hg ⊢
    tauto
  · have hk₁ := hs.chain_link (fun g hg => by rw [e]; exact List.mem_append_left _ hg) hk l₂.head?
    have hout : f ∉ c k := fun hf => hs.apart k i hk f hf (by simp [e])
    rw [Heap.cut, drop_slots]
    exact (hk₁.link fun g hg => by rintro ⟨⟩; exact hout hg).drop hout
  · apply halike
    rintro rfl
    rcases hg with hg | hg
    · exact hg (by simp [e])
    · exact (List.mem_append.mp hg).elim hf₁ hf₂

/-- **The rest of a buffer is cut off.** -/
theorem Heap.Shows.detach (hs : h.Shows c a) (ha : h.At i l₁ l₂ it) :
    ((h.link (lastp i l₁) none).unref l₂).Shows (Function.update c i l₁) (Function.update a i (h.rope l₁)) := by
  have e := hs.at_eq ha
  have hdisj := (List.nodup_append.mp ha.chain.path.nodup).2.2
  obtain ⟨-, hself⟩ := ciDetach_at hs.sound ha
  refine hs.keep (fun g hg => ?_) ((hs.sound.link _ _).unref l₂) (fun k hk => ?_) hself fun g hg => ?_
  · rw [e]
    exact List.mem_append_left _ hg
  · rw [unref_slots]
    apply (hs.chain_link (fun g hg => by rw [e]; exact List.mem_append_left _ hg) hk none).unref
    intro f hf hfk
    exact hs.apart k i hk f hfk (by rw [e]; exact List.mem_append_right _ hf)
  · refine (link_alike h _ _ g).trans (unref_alike _ fun hg₂ => ?_)
    rcases hg with hg | hg
    · exact hg (by rw [e]; exact List.mem_append_right _ hg₂)
    · exact hdisj g hg g hg₂ rfl

/-- **A buffer is inserted into another one**, and consumed. -/
theorem Heap.Shows.insert (hs : h.Shows c a) (hij : i ≠ j) (ha : h.At i l₁ l₂ it) :
    ∃ h' it', ciInsert h it (h.slots j) = .ok (h', it') ∧
      (h'.hold j none).Shows (Function.update (Function.update c j []) i (l₁ ++ (c j ++ l₂)))
        (Function.update (Function.update a j []) i (h.rope l₁ ++ (a j ++ h.rope l₂))) := by
  have e := hs.at_eq ha
  have hforget := hs.forget j
  have hd : ∀ f ∈ c j, f ∉ l₁ ++ l₂ := fun f hf => by
    rw [← e]
    exact hs.apart j i (Ne.symm hij) f hf
  by_cases hnil : c j = []
  · -- There is nothing to insert.
    have hnone : h.slots j = none := by
      rw [(hs.chain j).head, hnil]
      rfl
    have hrope : a j = [] := by rw [← hs.rope j, hnil, rope_nil]
    obtain ⟨it', hrun⟩ := ciInsert_none ha
    refine ⟨h, it', by rw [hnone, hrun], ?_⟩
    have hc : Function.update c j [] i = l₁ ++ l₂ := by rw [Function.update_of_ne hij, e]
    have hr : Function.update a j [] i = h.rope l₁ ++ h.rope l₂ := by
      rw [Function.update_of_ne hij, ← hs.rope i, e, rope_append]
    rw [hnil, hrope, List.nil_append, List.nil_append, ← hc, ← hr, Function.update_eq_self, Function.update_eq_self]
    exact hforget
  · obtain ⟨it', hrun, ha'⟩ := ciInsert_at hs.sound ha (hs.chain j) hnil hd
    refine ⟨_, it', hrun, ?_⟩
    have halike : ∀ f, Alike h (h.spliced i l₁ l₂ (c j)) f := fun f => (link_alike h _ _ f).trans (link_alike _ _ _ f)
    have hmem : ∀ f ∈ l₁ ++ (c j ++ l₂), f ∈ c i ∨ f ∈ c j := fun f hf => by
      rw [e]
      simp only [List.mem_append] at hf ⊢
      tauto
    refine hforget.set (((hs.sound.link _ _).link _ _)) (fun k hk => ?_)
      (fun k _ f _ => ⟨(halike f).frag, (halike f).block, (halike f).bytes⟩) ?_ (fun k hk f hf hfl => ?_)
      (fun f hf => ?_) ?_
    · by_cases hkj : k = j
      · subst hkj
        rw [Function.update_self]
        have hslot : ((h.spliced i l₁ l₂ (c k)).hold k none).slots k = none := Function.update_self ..
        rw [hslot]
        exact chain_nil
      · have hslot : ((h.spliced i l₁ l₂ (c j)).hold j none).slots k = (h.spliced i l₁ l₂ (c j)).slots k :=
          Function.update_of_ne hkj ..
        rw [hslot, Function.update_of_ne hkj, Heap.spliced, link_slots_of_ne _ (lastp_slot_ne hk l₁),
          link_slots_of_ne _ (lastp_slot_ne hk (c j))]
        have hout₁ : ∀ f ∈ c k, f ∉ l₁ := fun f hf hfl =>
          hs.apart k i hk f hf (by rw [e]; exact List.mem_append_left _ hfl)
        have hchain := ((hs.chain k).link (q := lastp i (c j)) (v := l₂.head?) fun f hf =>
          lastp_ne (hs.apart k j hkj f hf)).link (q := lastp i l₁) (v := (c j).head?) fun f hf => lastp_ne (hout₁ f hf)
        exact ⟨hchain.path, hchain.live⟩
    · have hslot : ((h.spliced i l₁ l₂ (c j)).hold j none).slots i = (h.spliced i l₁ l₂ (c j)).slots i :=
        Function.update_of_ne hij ..
      rw [hslot]
      exact ⟨ha'.chain.path, ha'.chain.live⟩
    · by_cases hkj : k = j
      · subst hkj
        rw [Function.update_self] at hf
        cases hf
      · rw [Function.update_of_ne hkj] at hf
        rcases hmem f hfl with hfi | hfj
        · exact hs.apart k i hk f hf hfi
        · exact hs.apart k j hkj f hf hfj
    · obtain ⟨x, hx⟩ := (hmem f hf).elim (hs.whole i f) (hs.whole j f)
      obtain ⟨v, hv⟩ := (halike f).whole hx
      exact ⟨_, hv.frag, hv.base, hv.fits, hv.block⟩
    · have hrope : ∀ m : List Nat, (∀ f ∈ m, f ∈ c i ∨ f ∈ c j) → (h.spliced i l₁ l₂ (c j)).rope m = h.rope m := by
        intro m hm
        apply List.map_congr_left
        intro f hf
        obtain ⟨x, hx⟩ := (hm f hf).elim (hs.whole i f) (hs.whole j f)
        exact (halike f).piece hx
      have hj := hs.rope j
      rw [← hj, ← rope_append, ← rope_append]
      exact hrope _ hmem

end Gabs.Pbuf
