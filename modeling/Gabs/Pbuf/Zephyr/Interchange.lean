import Gabs.Pbuf.Zephyr.Portable

/-!
# Packet buffers: the two implementations are interchangeable

- `use_owned`: a portable call keeps every reference counted;
- `PortableRun`: a client of both implementations; `Net.boot`: the network buffers from which it starts;
- `Twin.alike`: what it reads of twins; `interchangeable`: so it is in every run.
-/

namespace Gabs.Pbuf

open Gabs.Lib

variable {ι : Type} [DecidableEq ι] {h h' h₀ : Heap ι} {z : Net ι} {i : ι} {f : Nat} {x : Frag} {l₁ l₂ T : List Nat}
  {it : Ci ι} {api : NetApi ι} {netbuf : Nat → Bool} {u : Use ι} {us : List (Use ι)}

/-! ## Every reference stays counted -/

omit [DecidableEq ι] in
theorem Adjusted.symm (ha : Adjusted h h') : Adjusted h' h := ⟨ha.shape.symm, ha.grants.symm⟩

omit [DecidableEq ι] in
/-- The links and the references of a fragment stay. -/
theorem Adjusted.frag (ha : Adjusted h h') (hx : h'.frags f = some x) :
    ∃ y, h.frags f = some y ∧ y.next = x.next ∧ y.refcnt = x.refcnt := by
  have hbuf := shape_bufs hx
  rw [ha.shape] at hbuf
  obtain ⟨y, hy, e⟩ := Option.map_eq_some_iff.mp hbuf
  injection e with hnext hrefs
  exact ⟨y, hy, hnext, hrefs⟩

omit [DecidableEq ι] in
theorem Adjusted.refs (ha : Adjusted h h') (f : Nat) : h'.refs f = h.refs f := by
  cases hx : h'.frags f with
  | some x =>
    obtain ⟨y, hy, -, hrefs⟩ := ha.frag hx
    rw [refs_of hx, refs_of hy, hrefs]
  | none =>
    cases hy : h.frags f with
    | none => rw [Heap.refs, Heap.refs, hx, hy]
    | some y =>
      obtain ⟨x, hx', -⟩ := ha.symm.frag hy
      rw [hx] at hx'
      cases hx'

omit [DecidableEq ι] in
/-- A change of data does not change the references. -/
theorem Heap.Owned.adjusted (ho : h.Owned T) (ha : Adjusted h h') : h'.Owned T := by
  have hslots : h'.slots = h.slots := congrArg NetHeap.slots ha.shape
  have hasked : h'.asked = h.asked := congrArg NetHeap.count ha.shape
  have hreleased : h'.released.map Prod.snd = h.released.map Prod.snd := congrArg NetHeap.released ha.shape
  refine ⟨?_, fun f => ?_, fun f => ?_, fun f x hx => ?_, fun f x hx => ?_⟩
  · rw [hslots]
    exact ho.handles
  · have hsome : (h'.frags f).isSome = (h.frags f).isSome := by
      have hbuf := congrArg Option.isSome (congrFun (congrArg NetHeap.bufs ha.shape) f)
      simpa only [Heap.shape, Option.isSome_map] using hbuf
    have hsettled := ho.settled f
    simp only [Heap.deallocs, Heap.Made, hreleased, hasked, hsome, ha.grants] at hsettled ⊢
    exact hsettled
  · rw [hslots, ha.next, ha.refs]
    exact ho.tallied f
  · obtain ⟨y, hy, -, hrefs⟩ := ha.frag hx
    rw [← hrefs]
    exact ho.counted f y hy
  · obtain ⟨y, hy, -⟩ := ha.frag hx
    obtain ⟨l, hl⟩ := ho.grounded f y hy
    exact ⟨l, ha.chain hl⟩

omit [DecidableEq ι] in
theorem ciSteps_placed (ha : h.At i l₁ l₂ it) (k : Nat) :
    Upto Tame (ciSteps h k it) fun it => ∃ l₁ l₂, h.At i l₁ l₂ it := by
  induction k generalizing l₁ l₂ it with
  | zero => exact ⟨l₁, l₂, ha⟩
  | succ k ih =>
    rw [ciSteps]
    cases l₂ with
    | nil =>
      have hcur : it.cur = none := ha.cur
      simp only [ciNext, hcur]
      exact tame_null
    | cons f l₂ =>
      obtain ⟨it', hrun, ha'⟩ := ciNext_at ha
      rw [hrun]
      exact ih ha'

omit [DecidableEq ι] in
/-- An iterator that is moved on is at a position of its buffer. -/
theorem seek_placed (ho : h.Owned []) (i : ι) (k : Nat) : Upto Tame (h.seek i k) (h.Placed i) := by
  obtain ⟨l, hl⟩ := ho.slot i
  exact (ciSteps_placed (ciInit_at hl) k).mono fun it ha => (placed_iff ho.sound).mpr ha

/-- **A portable call** keeps every reference counted. -/
theorem use_owned (doc : api.Documented) (ho : h.Owned []) (ht : Twin h z) (hp : Portable netbuf h u)
    (hrun : (basic ι).use h u = .ok h') : h'.Owned [] := by
  cases u with
  | newRo i alloc data size =>
    exact (call_owned ho (c := .newRo i alloc data size) hp.1 trivial).of_ok hrun
  | view i j offset size alloc =>
    obtain ⟨l, hl⟩ := ho.slot j
    have hview : Upto Tame (h.call (.view i j offset size alloc)) (Heap.Owned · []) :=
      (gabsPbufView_owned ho hl offset size alloc).bind fun r hr => hr.hold hp.1
    rw [basic_view] at hrun
    exact hview.of_ok hrun
  | incref i j =>
    obtain ⟨hi, f, hj, x, hx, hr⟩ := hp
    have hslot : h.slots j = some f := hj
    have hcount : h.Countable j := ⟨f, hj, x, hx, by omega⟩
    refine (call_owned ho (c := .incref i j) ⟨hi, hcount⟩ trivial).of_ok (Eq.trans ?_ hrun)
    simp only [Heap.call, gabsPbufIncref, Impl.use, basic, hslot, modify_of hx, bind, Except.bind, put_slots]
  | op o =>
    have hop : h.op o = .ok h' := (basic_op h o).symm.trans hrun
    cases o with
    | new i alloc size =>
      have hnew : Upto Tame (h.op (.new i alloc size)) (Heap.Owned · []) :=
        (gabsPbufNew_owned ho alloc size).bind fun r hr => hr.hold hp.1
      exact hnew.of_ok hop
    | clone i j offset size alloc =>
      obtain ⟨l, hl⟩ := ho.slot j
      have hb : h.Backed l := hp.2.2.2.2 l ((chain_eq_iff ho.sound).mpr hl)
      have hb' : h.Backed (h.reached offset size l 0) := hb.mono (reached_subset offset size 0)
      have hclone : Upto Tame (h.op (.clone i j offset size alloc)) (Heap.Owned · []) :=
        (gabsPbufClone_owned ho hl (fun _ => hb') alloc).bind fun r hr => hr.hold hp.1
      exact hclone.of_ok hop
    | decref i =>
      cases hi : h.slots i with
      | some f =>
        have hc : Linear h (.decref i) := by rw [Linear, hi]; exact Option.some_ne_none f
        exact (call_owned ho hc trivial).of_ok hop
      | none =>
        have hheld := Heap.Owned.hold (v := none) ho i
        have hnone : h.op (.decref i) = .ok (h.hold i none) := by simp only [Heap.op, Heap.call, hi]; rfl
        rw [hi] at hheld
        obtain rfl : h.hold i none = h' := Except.ok.inj (hnone.symm.trans hop)
        exact hheld
    | chainFront i j => exact (call_owned ho (c := .chainFront i j) hp.2 trivial).of_ok hop
    | chainBack i j => exact (call_owned ho (c := .chainBack i j) hp.2 trivial).of_ok hop
    | chainAt i j offset => exact (call_owned ho (c := .chainAt i j offset) hp.2 trivial).of_ok hop
    | stripHead i size => exact (call_owned ho (c := .stripHead i size) trivial trivial).of_ok hop
    | stripTail i size => exact (call_owned ho (c := .stripTail i size) trivial trivial).of_ok hop
    | insert i j k =>
      have hinsert : Upto Tame (h.op (.insert i j k)) (Heap.Owned · []) :=
        (seek_placed ho i k).bind fun it hit => call_owned ho (c := .insert i j it) ⟨hit, hp.2⟩ trivial
      exact hinsert.of_ok hop
    | remove i k =>
      have hremove : Upto Tame (h.op (.remove i k)) (Heap.Owned · []) :=
        (seek_placed ho i k).bind fun it hit => call_owned ho (c := .remove i it) hit trivial
      exact hremove.of_ok hop
    | detach i k =>
      have hdetach : Upto Tame (h.op (.detach i k)) (Heap.Owned · []) :=
        (seek_placed ho i k).bind fun it hit => call_owned ho (c := .detach i it) hit trivial
      exact hdetach.of_ok hop
    | put | reserveHead | reserveTail | releaseHead | releaseTail =>
      obtain ⟨z', -, -, ha⟩ := (adjusts_tandem doc ho ht hp trivial).of_ok hrun
      exact ho.adjusted ha

/-! ## Reading -/

/-- **A client reads the same** of twins. -/
theorem Twin.alike (doc : api.Documented) (ho : h.Owned []) (ht : Twin h z) :
    ReadAlike (basic ι) (zephyr api netbuf) h z := by
  have hslots : (zephyr api netbuf).slots z = (basic ι).slots h := ht.slots
  refine ⟨fun i => ?_, fun i => ?_, fun i => ?_, fun i => ?_, fun i offset n => ?_, fun i k => ?_, fun q n => ?_,
    fun q n => ?_⟩
  · rw [hslots]
  · obtain ⟨l, hl⟩ := ho.slot i
    rw [hslots]
    exact tandem_eq.mp (gabsPbufSize_tandem ht hl)
  · obtain ⟨l, hl⟩ := ho.slot i
    rw [hslots]
    exact tandem_eq.mp (gabsPbufHeadroom_tandem doc ht hl)
  · obtain ⟨l, hl⟩ := ho.slot i
    rw [hslots]
    exact tandem_eq.mp (gabsPbufTailroom_tandem doc ht hl)
  · obtain ⟨l, hl⟩ := ho.slot i
    rw [hslots]
    exact tandem_eq.mp (gabsPbufCopy_tandem ht hl offset n)
  · obtain ⟨l, hl⟩ := ho.slot i
    refine tandem_eq.mp ((seek_tandem ht hl k).bind fun it zt hat => ?_)
    obtain ⟨a, c, hat, -⟩ := hat
    have ha := hat.abreast
    refine (ht.data ha).bind ?_
    rintro q _ rfl
    refine (ht.size ha).bind ?_
    rintro size _ rfl
    refine (ht.cap ha).bind ?_
    rintro cap _ rfl
    refine (ht.headroom doc ha).bind ?_
    rintro head _ rfl
    refine (ht.tailroom doc ha).bind ?_
    rintro tail _ rfl
    exact rfl
  · exact (ht.touch q n).symm
  · exact (ht.load q n).symm

/-! ## Every run -/

/-- The calls of a client of both implementations. -/
def PortableRun (netbuf : Nat → Bool) : Heap ι → List (Use ι) → Prop
  | _, [] => True
  | h, u :: us => Portable netbuf h u ∧ ∀ h' ∈ ((basic ι).use h u).toOption, PortableRun netbuf h' us

instance decidablePortableRun (netbuf : Nat → Bool) :
    ∀ (h : Heap ι) (us : List (Use ι)), Decidable (PortableRun netbuf h us)
  | _, [] => inferInstanceAs (Decidable True)
  | h, u :: us =>
    have : ∀ h', Decidable (PortableRun netbuf h' us) := fun h' => decidablePortableRun netbuf h' us
    inferInstanceAs (Decidable (Portable netbuf h u ∧ ∀ h' ∈ ((basic ι).use h u).toOption, PortableRun netbuf h' us))

/-- No network buffer is there yet, and the pools and the memory of the client are those of `h`. -/
def Net.boot (h : Heap ι) : Net ι where
  links := ⟨h.slots, fun _ => none, 0, []⟩
  simple _ := ⟨⟨.null, 0⟩, 0, 0, ⟨.null, 0⟩⟩
  external _ := false
  blocks _ := 0
  grants := h.grants
  bytes := h.bytes
  extent := h.extent
  ndebug := h.ndebug

theorem boot_twin (hi : (calls ι).init h₀) : Twin h₀ (Net.boot h₀) := by
  obtain ⟨-, hfrags, hasked, hreleased⟩ := hi
  have hnone : ∀ f x, h₀.frags f ≠ some x := fun f x hx => by
    rw [hfrags f] at hx
    cases hx
  refine ⟨fun f x hx => absurd hx (hnone f x), fun f x hx => absurd hx (hnone f x), ?_,
    fun f x hx => absurd hx (hnone f x), rfl, rfl, rfl, rfl⟩
  refine NetHeap.ext rfl (funext fun f => ?_) hasked.symm ?_
  · simp only [Net.boot, Heap.shape, hfrags f, Option.map_none]
  · simp only [Net.boot, Heap.shape, hreleased, List.map_nil]

/-- **A run** has the same outcome in both implementations. -/
theorem run_tandem (doc : api.Documented) (ho : h.Owned []) (ht : Twin h z) (hp : PortableRun netbuf h us) :
    Tandem (fun h z => h.Owned [] ∧ Twin h z) ((basic ι).run h us) ((zephyr api netbuf).run z us) := by
  induction us generalizing h z with
  | nil => exact ⟨ho, ht⟩
  | cons u us ih =>
    obtain ⟨hu, hrest⟩ := hp
    have hone : Tandem (fun h' z' => h'.Owned [] ∧ Twin h' z' ∧ PortableRun netbuf h' us) ((basic ι).use h u)
        ((zephyr api netbuf).use z u) := by
      refine (use_tandem doc ho ht hu).mono_of_ok fun h' z' hrun ht' => ?_
      exact ⟨use_owned doc ho ht hu hrun, ht', hrest h' (by rw [hrun]; rfl)⟩
    refine hone.bind ?_
    rintro h' z' ⟨ho', ht', hp'⟩
    exact ih ho' ht' hp'

/-- **The implementations are interchangeable**: a client that keeps to what both of them offer has the same runs on
both, and reads the same after each of them. -/
theorem interchangeable (doc : api.Documented) (hi : (calls ι).init h₀) (hp : PortableRun netbuf h₀ us) :
    Tandem (fun h z => Twin h z ∧ ReadAlike (basic ι) (zephyr api netbuf) h z) ((basic ι).run h₀ us)
      ((zephyr api netbuf).run (Net.boot h₀) us) := by
  refine (run_tandem doc (initial_owned hi) (boot_twin hi) hp).mono ?_
  rintro h z ⟨ho, ht⟩
  exact ⟨ht, ht.alike doc ho⟩

/-- Functions of `net_buf` that do so. -/
def netBufs : NetApi ι where
  toNetBufApi := netBuf
  allocLen z _ size := if z.grants z.links.count then (z.fresh size, some z.links.count) else (z.refused, none)
  ref z buf :=
    match buf with
    | none => .error .null
    | some f => match z.bufs f with
      | none => .error .freed
      | some x => .ok ({ z with bufs := Function.update z.bufs f (some { x with ref := x.ref + 1 }) }, some f)
  push b n := ({ b with data := ⟨b.data.block, b.data.off - n⟩, len := b.len + n }, ⟨b.data.block, b.data.off - n⟩)
  pullMem b n := ({ b with data := b.data.add n, len := b.len - n }, b.data)
  add b n := ({ b with len := b.len + n }, b.data.add b.len)
  removeMem b n := ({ b with len := b.len - n }, b.data.add (b.len - n))
  headroom b := b.data.off - b.buf.off
  tailroom b := b.size - (b.data.off - b.buf.off) - b.len
  initWithData _ data size := ⟨data, size, size, data⟩

omit [DecidableEq ι] in
theorem netBufs_documented : (netBufs : NetApi ι).Documented where
  toDocumented := netBuf_documented
  allocLen _ _ _ _ := rfl
  ref z f x hx _ := by simp only [netBufs, hx]
  push _ _ _ _ := rfl
  pullMem _ _ _ _ := rfl
  add _ _ _ _ := rfl
  removeMem _ _ _ _ := rfl
  headroom _ _ := rfl
  tailroom _ _ := rfl
  initWithData _ _ _ _ := rfl

/-- A clone with a header of its own is put behind its source, which is then stripped; a second handle keeps it. -/
def sharedUses : List (Use (Fin 3)) :=
  [.op (.new 0 0 8), .op (.put 0 [1, 2, 3, 4, 5]), .op (.clone 1 0 1 3 0), .op (.releaseHead 1 0 1),
    .op (.reserveHead 1 0 [9]), .incref 2 1, .op (.chainBack 0 1), .view 1 0 1 6 0, .op (.stripHead 0 2),
    .op (.decref 2)]

/-- It runs on both, to the same bytes. -/
theorem interchangeable_run : ∃ (h : Heap (Fin 3)) (z : Net (Fin 3)),
    (basic (Fin 3)).run (heapOf (fun _ => none) []) sharedUses = .ok h ∧
    (zephyr netBufs fun _ => true).run (Net.boot (heapOf (fun _ => none) [])) sharedUses = .ok z ∧
    (zephyr netBufs fun _ => true).gabsPbufCopy z (z.links.slots 0) 0 8 = .ok [3, 4, 5, 9, 3, 4] := by
  have hi : (calls (Fin 3)).init (heapOf (fun _ => none) []) := ⟨fun _ => rfl, fun _ => rfl, rfl, rfl⟩
  have hp : PortableRun (fun _ => true) (heapOf (fun _ => none) []) sharedUses := by decide
  have htandem := interchangeable netBufs_documented hi hp
  obtain ⟨z, hz, -, halike⟩ := htandem.of_ok rfl
  exact ⟨_, z, rfl, hz, (halike.copy 0 0 8).symm.trans rfl⟩

end Gabs.Pbuf
