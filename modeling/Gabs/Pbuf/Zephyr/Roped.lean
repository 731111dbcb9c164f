import Gabs.Pbuf.Refined
import Gabs.Pbuf.Zephyr.Interchange

/-!
# Packet buffers: network buffers are ropes of bytes

- `Net.ropes`: what the buffers are, read off the data of the network buffers; `Twin.ropes`: the same as off the
  fragments;
- `Fitting`: what `net_buf` asks for of an operation; `portable_of_step`: it is then portable, where the ropes allow it;
- `netOps`, `net_ropes_refine`: in every run the network buffers show what the ropes are, as the fragments do.
-/

namespace Gabs.Pbuf

open Gabs.Lib

variable {ι σ τ κ μ : Type} [DecidableEq ι] {h : Heap ι} {z : Net ι} {i j : ι} {f k : Nat} {x : Frag} {c : ι → List Nat}
  {a a' : Ropes ι} {o : Op ι} {op : RoomOp} {granted : Bool} {api : NetApi ι} {netbuf : Nat → Bool}

/-! ## What is read off -/

/-- The piece that network buffer `f` is. -/
def Net.piece (z : Net ι) (f : Nat) : Piece UInt8 :=
  let b := z.simple f
  ⟨b.data.off - b.buf.off, z.load b.data b.len, b.size - (b.data.off - b.buf.off) - b.len⟩

/-- **The network buffers, as ropes.** -/
def Net.ropes (z : Net ι) : Ropes ι := fun i => (z.links.chain (z.links.slots i)).map z.piece

omit [DecidableEq ι] in
theorem Twin.piece (ht : Twin h z) (hx : h.frags f = some x) : z.piece f = h.piece f := by
  have his := ht.frag f x hx
  have hhead := his.fits.headroom
  have htail := his.fits.tailroom
  have hroom : x.cap - (x.data.off - x.base.off) - x.size = x.tailroom := by omega
  have hload : z.load x.data x.size = x.addrs.map h.byte := by
    rw [ht.load, Heap.load, Frag.addrs, List.map_map]
    rfl
  rw [Net.piece, his.simple, piece_of hx, Frag.held, hhead, ← hload, ← hroom]
  rfl

omit [DecidableEq ι] in
/-- **They are the ropes of the fragments.** -/
theorem Twin.ropes (ho : h.Owned []) (ht : Twin h z) : z.ropes = h.ropes := by
  funext i
  obtain ⟨l, hl⟩ := ho.slot i
  have hchain : z.links.chain (z.links.slots i) = l := by
    rw [ht.links]
    exact (shape_chain ht.sound hl).chain_eq
  have hwalk : h.chain (h.slots i) = some l := (chain_eq_iff ht.sound).mpr hl
  rw [Net.ropes, Heap.ropes, hchain, hwalk, Option.getD_some, Heap.rope]
  apply List.map_congr_left
  intro f hf
  obtain ⟨x, hx⟩ := hl.live f hf
  exact ht.piece hx

/-- What a client reads of its buffers in an implementation. -/
structure Impl.Reads (M : Impl ι σ κ) (h : σ) (a : Ropes ι) : Prop where
  okay : ∀ i, gabsPbufOkay (M.slots h i) = !(a i).isEmpty
  size : ∀ i, M.gabsPbufSize h (M.slots h i) = .ok (a i).size
  copy : ∀ i offset maxSize, M.gabsPbufCopy h (M.slots h i) offset maxSize =
    .ok (((a i).elems.drop offset).take maxSize)
  headroom : ∀ i, M.gabsPbufHeadroom h (M.slots h i) = .ok ((a i).head?.elim 0 Piece.head)
  tailroom : ∀ i, M.gabsPbufTailroom h (M.slots h i) = .ok (a i).tail

/-- It reads the same in the one that is alike. -/
theorem Heap.Reads.net (hr : h.Reads a) {N : Impl ι τ μ} {t : τ} (ha : ReadAlike (basic ι) N h t) : N.Reads t a := by
  refine ⟨fun i => ?_, fun i => ?_, fun i offset n => ?_, fun i => ?_, fun i => ?_⟩
  · exact (ha.okay i).symm.trans (hr.okay i)
  · rw [← ha.size i, basic_size]
    exact hr.size i
  · rw [← ha.copy i, basic_copy]
    exact hr.copy i offset n
  · exact (ha.headroom i).symm.trans (hr.headroom i)
  · rw [← ha.tailroom i, basic_tailroom]
    exact hr.tailroom i

/-! ## What the ropes allow is portable -/

/-- What `net_buf` asks for: buffers of 1 to 65535 bytes of its own pools, nothing chained that is not there, and
nothing detached at the end. -/
def Fitting (netbuf : Nat → Bool) (a : Ropes ι) : Op ι → Prop
  | .new _ alloc size | .clone _ _ _ size alloc => netbuf alloc = true ∧ 0 < size ∧ size < 2 ^ 16
  | .chainFront _ j | .chainBack _ j | .chainAt _ j _ | .insert _ j _ => (a j).isEmpty = false
  | .detach i k => k ≠ (a i).length
  | .decref .. | .stripHead .. | .stripTail .. | .put .. | .remove .. | .reserveHead .. | .reserveTail ..
  | .releaseHead .. | .releaseTail .. => True

instance (netbuf : Nat → Bool) (a : Ropes ι) (o : Op ι) : Decidable (Fitting netbuf a o) :=
  match o with
  | .new _ alloc size | .clone _ _ _ size alloc =>
    inferInstanceAs (Decidable (netbuf alloc = true ∧ 0 < size ∧ size < 2 ^ 16))
  | .chainFront _ j | .chainBack _ j | .chainAt _ j _ | .insert _ j _ =>
    inferInstanceAs (Decidable ((a j).isEmpty = false))
  | .detach i k => inferInstanceAs (Decidable (k ≠ (a i).length))
  | .decref .. | .stripHead .. | .stripTail .. | .put .. | .remove .. | .reserveHead .. | .reserveTail ..
  | .releaseHead .. | .releaseTail .. => inferInstanceAs (Decidable True)

omit [DecidableEq ι] in
theorem Heap.Shows.slots_none (hs : h.Shows c a) : h.slots i = none ↔ a i = [] := by
  have hlen := hs.length i
  have hhead := (hs.chain i).head
  cases hc : c i with
  | nil =>
    rw [hc] at hhead hlen
    exact ⟨fun _ => List.length_eq_zero_iff.mp hlen.symm, fun _ => hhead⟩
  | cons f l =>
    rw [hc] at hhead hlen
    constructor
    · intro hi
      rw [hhead] at hi
      cases hi
    · intro ha
      rw [ha] at hlen
      cases hlen

omit [DecidableEq ι] in
theorem Heap.Shows.slots_some (hs : h.Shows c a) (hi : (a i).isEmpty = false) : h.slots i ≠ none := by
  intro hslot
  rw [hs.slots_none.mp hslot] at hi
  cases hi

omit [DecidableEq ι] in
theorem Heap.Shows.separate (hs : h.Shows c a) (hij : i ≠ j) : h.Separate i j := by
  refine ⟨Ne.symm hij, fun l hl m hm f hfm hfl => ?_⟩
  obtain rfl : c i = l := Option.some.inj ((hs.chain_eq i).symm.trans hl)
  obtain rfl : c j = m := Option.some.inj ((hs.chain_eq j).symm.trans hm)
  exact hs.apart i j hij f hfl hfm

omit [DecidableEq ι] in
/-- The bytes of a fragment that shows a piece are in its own block. -/
theorem Heap.Shows.backed (hs : h.Shows c a) (i : ι) : ∀ l ∈ h.chain (h.slots i), h.Backed l := by
  rintro l hl f hf y hy hgone
  obtain rfl : c i = l := Option.some.inj ((hs.chain_eq i).symm.trans hl)
  obtain ⟨x, hx⟩ := hs.whole i f hf
  obtain rfl : x = y := Option.some.inj (hx.frag.symm.trans hy)
  rw [hx.fits.block, hx.base] at hgone
  exact Option.some_ne_none x (hx.frag.symm.trans hgone)

/-- The piece that is edited has the room. -/
theorem Heap.Shows.roomy (hs : h.Shows c a) {ok : Piece UInt8 → Bool} {g : Piece UInt8 → Piece UInt8}
    (he : a.edit i k ok g = some a') (hok : ∀ x : Frag, ok (x.held h.byte) = true → op.Holds x) : h.Roomy i k op := by
  intro l hl f hf x hx
  obtain rfl : c i = l := Option.some.inj ((hs.chain_eq i).symm.trans hl)
  obtain ⟨p, hp, he⟩ := Option.bind_eq_some_iff.mp he
  obtain ⟨hpok, -⟩ := Option.ite_none_right_eq_some.mp he
  have hget : (a i)[k]? = some (h.piece f) := by
    have hfk : (c i)[k]? = some f := hf
    rw [← hs.rope i, Heap.rope, List.getElem?_map, hfk, Option.map_some]
  obtain rfl : h.piece f = p := Option.some.inj (hget.symm.trans hp)
  rw [piece_of hx] at hpok
  exact hok x hpok

/-- **An operation that the ropes allow is portable**, if it is one for `net_buf`. -/
theorem portable_of_step (hs : h.Shows c a) (ha : a.step granted o = some a') (hf : Fitting netbuf a o) :
    Portable netbuf h (.op o) := by
  cases o with
  | new i alloc size =>
    obtain ⟨hi, -⟩ := (Option.ite_none_right_eq_some.mp ha).1
    exact ⟨hs.slots_none.mpr hi, hf⟩
  | clone i j offset size alloc =>
    obtain ⟨hi, -⟩ := (Option.ite_none_right_eq_some.mp ha).1
    exact ⟨hs.slots_none.mpr hi, hf.1, hf.2.1, hf.2.2, hs.backed j⟩
  | chainFront i j | chainBack i j =>
    obtain ⟨hij, -⟩ := join_eq ha
    exact ⟨hs.slots_some hf, hs.separate hij⟩
  | chainAt i j offset =>
    obtain ⟨p, -, hj⟩ := Option.bind_eq_some_iff.mp ha
    exact ⟨hs.slots_some hf, hs.separate (join_eq hj).1⟩
  | insert i j k =>
    obtain ⟨-, hj⟩ := Option.ite_none_right_eq_some.mp ha
    exact ⟨hs.slots_some hf, hs.separate (join_eq hj).1⟩
  | remove i k =>
    obtain ⟨hk, -⟩ := Option.ite_none_right_eq_some.mp ha
    intro l hl
    obtain rfl : c i = l := Option.some.inj ((hs.chain_eq i).symm.trans hl)
    rw [hs.length i]
    exact Nat.ne_of_lt hk
  | detach i k =>
    intro l hl
    obtain rfl : c i = l := Option.some.inj ((hs.chain_eq i).symm.trans hl)
    rw [hs.length i]
    exact hf
  | reserveHead i k data => exact hs.roomy ha fun x hx => of_decide_eq_true hx
  | reserveTail i k data => exact hs.roomy ha fun x hx => of_decide_eq_true hx
  | releaseHead i k n =>
    refine hs.roomy ha fun x hx => ?_
    have hn : n ≤ (x.addrs.map h.byte).length := of_decide_eq_true hx
    rwa [List.length_map, addrs_length] at hn
  | releaseTail i k n =>
    refine hs.roomy ha fun x hx => ?_
    have hn : n ≤ (x.addrs.map h.byte).length := of_decide_eq_true hx
    rwa [List.length_map, addrs_length] at hn
  | decref | stripHead | stripTail | put => exact trivial

/-! ## Every run -/

/-- **The operations of a client** of network buffers, from none on. -/
def netOps (api : NetApi ι) (netbuf : Nat → Bool) : Lts (Net ι) (Op ι) where
  init z := (∀ i, z.links.slots i = none) ∧ (∀ f, z.links.bufs f = none) ∧ z.links.count = 0 ∧ z.links.released = []
  step z o := ((zephyr api netbuf).op z o).toOption

/-- **The ropes allow the operation**, and `net_buf` does; where it asks for memory, that is there, or assertions are
compiled out. -/
def Net.Permitted (netbuf : Nat → Bool) (z : Net ι) (o : Op ι) : Prop :=
  Fitting netbuf z.ropes o ∧ (o.allocates = true → z.grants z.links.count = true ∨ z.ndebug = true) ∧
    (z.ropes.step (z.grants z.links.count) o).isSome = true

instance (netbuf : Nat → Bool) (z : Net ι) (o : Op ι) : Decidable (Net.Permitted netbuf z o) :=
  inferInstanceAs (Decidable (_ ∧ _))

/-- **The network buffers are a refinement of the ropes**, as a heap of fragments is one (`Heap.Refines`). -/
structure Net.Refines (api : NetApi ι) (netbuf : Nat → Bool) (z : Net ι) : Prop where
  reach : (ropeOps ι).Reach (fun _ _ => True) z.ropes
  reads : (zephyr api netbuf).Reads z z.ropes
  step : ∀ o, z.Permitted netbuf o → ∃ z', (zephyr api netbuf).op z o = .ok z' ∧
    (ropeOps ι).step z.ropes (o, z.grants z.links.count) = some z'.ropes

/-- The heap of a run, which is the twin of the network buffers. -/
structure Shadow (h : Heap ι) (z : Net ι) : Prop where
  reach : (ops ι).Reach Permitted h
  owned : h.Owned []
  twin : Twin h z

theorem Shadow.permitted (hs : Shadow h z) (hp : z.Permitted netbuf o) : Permitted h o := by
  obtain ⟨-, hok, hsome⟩ := hp
  have hcount : z.links.count = h.asked := by rw [hs.twin.links]; rfl
  rw [hs.twin.ropes hs.owned, hs.twin.grants, hcount] at hsome
  rw [hs.twin.grants, hs.twin.ndebug, hcount] at hok
  exact ⟨hok, hsome⟩

/-- The heap shows its ropes, which have come about as it has. -/
theorem Shadow.shows (hs : Shadow h z) :
    (ropeOps ι).Reach (fun _ _ => True) h.ropes ∧ h.ropes.Sized ∧ ∃ c, h.Shows c h.ropes := by
  have hall := hs.reach.mono (Q := fun h o => Permitted h o ∧ True) fun _ _ ho => ⟨ho, trivial⟩
  obtain ⟨a, ha, hz, c, hshows⟩ := shows_of_reach (Q := fun _ _ => True) hall
  obtain rfl := hshows.ropes
  exact ⟨ha, hz, c, hshows⟩

/-- **One operation** succeeds on both, and does what it does to the ropes. -/
theorem Shadow.step (doc : api.Documented) (hs : Shadow h z) (hp : z.Permitted netbuf o) :
    ∃ h' z', (zephyr api netbuf).op z o = .ok z' ∧ Shadow h' z' ∧
      (ropeOps ι).step z.ropes (o, z.grants z.links.count) = some z'.ropes := by
  obtain ⟨-, hz, c, hshows⟩ := hs.shows
  have hok := hs.permitted hp
  have hropes := hs.twin.ropes hs.owned
  have hcount : z.links.count = h.asked := by rw [hs.twin.links]; rfl
  obtain ⟨a', ha'⟩ := Option.isSome_iff_exists.mp hok.2
  have hf : Fitting netbuf h.ropes o := by rw [← hropes]; exact hp.1
  have hport := portable_of_step hshows ha' hf
  -- The fragments do what the ropes do, and the network buffers what the fragments do.
  obtain ⟨h', c', hop, hshows'⟩ := op_gives hshows hz hok.1 ha'
  have huse : (basic ι).use h (.op o) = .ok h' := (basic_op h o).trans hop
  obtain ⟨z', hrun, ht'⟩ := (use_tandem doc hs.owned hs.twin hport).of_ok huse
  have ho' := use_owned doc hs.owned hs.twin hport huse
  have hreach : (ops ι).Reach Permitted h' := hs.reach.step hok (by simp only [ops, hop, Except.toOption])
  refine ⟨h', z', hrun, ⟨hreach, ho', ht'⟩, ?_⟩
  rw [hropes, ht'.ropes ho', hshows'.ropes, hs.twin.grants, hcount]
  exact ha'

/-- The heap without fragments that goes with no network buffers. -/
def Net.heap (z : Net ι) : Heap ι where
  slots := z.links.slots
  frags _ := none
  asked := 0
  requests _ := 0
  grants := z.grants
  released := []
  bytes := z.bytes
  extent := z.extent
  ndebug := z.ndebug

theorem Shadow.init (hi : (netOps api netbuf).init z) : Shadow z.heap z := by
  obtain ⟨hslots, hbufs, hcount, hreleased⟩ := hi
  have hinit : (calls ι).init z.heap := ⟨hslots, fun _ => rfl, rfl, rfl⟩
  refine ⟨.init hinit, initial_owned hinit, ⟨by rintro f x ⟨⟩, by rintro f x ⟨⟩, ?_,
    by rintro f x ⟨⟩, rfl, rfl, rfl, rfl⟩⟩
  exact NetHeap.ext rfl (funext hbufs) hcount hreleased

theorem shadow_of_reach (doc : api.Documented) (hr : (netOps api netbuf).Reach (Net.Permitted netbuf) z) :
    ∃ h, Shadow h z := by
  refine hr.invariant (I := fun z => ∃ h, Shadow h z) (fun z hi => ⟨z.heap, .init hi⟩) fun z o z' _ hI hp hst => ?_
  obtain ⟨h, hs⟩ := hI
  obtain ⟨h', z₁, hrun, hs', -⟩ := hs.step doc hp
  have e : (netOps api netbuf).step z o = some z₁ := by simp only [netOps, hrun, Except.toOption]
  obtain rfl : z₁ = z' := Option.some.inj (e.symm.trans hst)
  exact ⟨h', hs'⟩

/-- **Network buffers are ropes of bytes**, in every run. -/
theorem net_ropes_refine (doc : api.Documented) (hr : (netOps api netbuf).Reach (Net.Permitted netbuf) z) :
    z.Refines api netbuf := by
  obtain ⟨h, hs⟩ := shadow_of_reach doc hr
  obtain ⟨hreach, hz, c, hshows⟩ := hs.shows
  have hropes := hs.twin.ropes hs.owned
  refine ⟨?_, ?_, fun o hp => ?_⟩
  · rw [hropes]
    exact hreach
  · rw [hropes]
    exact (hshows.reads hz).net (hs.twin.alike doc hs.owned)
  · obtain ⟨h', z', hrun, -, hstep⟩ := hs.step doc hp
    exact ⟨z', hrun, hstep⟩

/-- Two buffers: a header is put before a clone, which is put behind what is left of its source. -/
theorem net_ropes_refine_run : ∃ z : Net (Fin 2),
    (netOps netBufs fun _ => true).Reach (Net.Permitted fun _ => true) z ∧
    z.ropes 0 = [⟨2, [3, 4, 5], 0⟩, ⟨0, [9, 4, 5], 0⟩] ∧ z.Refines netBufs fun _ => true := by
  have r₀ : (netOps netBufs fun _ => true).Reach (Net.Permitted fun _ => true)
      (Net.boot (heapOf (fun _ : Fin 2 => none) [])) := .init ⟨fun _ => rfl, fun _ => rfl, rfl, rfl⟩
  have r₁ := r₀.step (a := Op.new 0 0 5) (by decide) rfl
  have r₂ := r₁.step (a := Op.put 0 [1, 2, 3, 4, 5]) (by decide) rfl
  have r₃ := r₂.step (a := Op.clone 1 0 2 3 0) (by decide) rfl
  have r₄ := r₃.step (a := Op.releaseHead 1 0 1) (by decide) rfl
  have r₅ := r₄.step (a := Op.reserveHead 1 0 [9]) (by decide) rfl
  have r₆ := r₅.step (a := Op.chainBack 0 1) (by decide) rfl
  have r₇ := r₆.step (a := Op.stripHead 0 2) (by decide) rfl
  exact ⟨_, r₇, by decide, net_ropes_refine netBufs_documented r₇⟩

end Gabs.Pbuf
