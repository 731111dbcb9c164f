import Gabs.Pbuf.Seek

/-!
# Packet buffers: a view is an aliasing slice

- `Heap.fresh`: the heap with a fragment more; `Frag.over`: a fragment over bytes that are there already; `newRo_eq`;
- `viewLoop_eq`: the loop of `gabs_pbuf_view` appends one such fragment for each fragment of the range;
- `gabsPbufView_eq`, `view_from`: what comes before the loop, and the whole of it;
- `view_slice`: the addresses of the view are those of the range.
-/

namespace Gabs.Pbuf

open Gabs.Lib

variable {ι : Type} {h : Heap ι} {p v : Option Nat} {f g c k n : Nat} {x : Frag} {l m : List Nat}

/-! ## New fragments -/

/-- The heap with the fragment `x` more, for which `n` bytes have been asked. -/
def Heap.fresh (h : Heap ι) (n : Nat) (x : Frag) : Heap ι :=
  { h with
    asked := h.asked + 1
    requests := Function.update h.requests h.asked n
    frags := Function.update h.frags h.asked (some x) }

/-- A readonly fragment over the `size` bytes from `data` on. -/
def Frag.over (data : Ptr) (size alloc : Nat) : Frag := ⟨data, data, size, size, true, 1, none, alloc⟩

/-- `gabs_pbuf_new_ro`, when its allocation succeeds. -/
theorem newRo_eq (hg : h.grants h.asked = true) (alloc : Nat) (data : Ptr) (size : Nat) :
    gabsPbufNewRo h alloc data size = .ok (h.fresh sizeofFrag (.over data size alloc), some h.asked) := by
  simp only [gabsPbufNewRo, gabsPbufNew, hg, if_true, bind, Except.bind, gabsPbufOkay, Option.isSome_some,
    Bool.not_true, Bool.false_eq_true, if_false]
  rw [modify_of (Function.update_self ..)]
  simp only [Heap.put, Heap.fresh, Function.update_idem]
  rfl

theorem fresh_frags_self (h : Heap ι) (n : Nat) (x : Frag) : (h.fresh n x).frags h.asked = some x :=
  Function.update_self ..

theorem fresh_frags_of_ne (hf : f ≠ h.asked) (n : Nat) (x : Frag) : (h.fresh n x).frags f = h.frags f :=
  Function.update_of_ne hf ..

theorem Heap.Sound.fresh (hs : h.Sound) (n : Nat) (x : Frag) : (h.fresh n x).Sound := by
  intro f y hy
  by_cases e : f = h.asked
  · rw [e]
    exact Nat.lt_succ_self _
  · rw [fresh_frags_of_ne e] at hy
    exact Nat.lt_succ_of_lt (hs f y hy)

theorem Heap.Chain.ne_asked (hs : h.Sound) (hc : h.Chain p l) (hf : f ∈ l) : f ≠ h.asked := by
  obtain ⟨y, hy⟩ := hc.live f hf
  exact Nat.ne_of_lt (hs f y hy)

/-- Chains that are there stay. -/
theorem Heap.Chain.fresh (hs : h.Sound) (hc : h.Chain p l) (n : Nat) (x : Frag) : (h.fresh n x).Chain p l := by
  have hsame : ∀ f ∈ l, (h.fresh n x).frags f = h.frags f := fun f hf => fresh_frags_of_ne (hc.ne_asked hs hf) n x
  refine hc.congr (fun f hf => by rw [Heap.next, hsame f hf, Heap.next]) fun f hf => ?_
  rw [hsame f hf]
  exact hc.live f hf

/-! ## The loop of the view -/

variable [DecidableEq ι]

/-- A new readonly fragment is appended to the fragment `g`. -/
def Heap.extended (h : Heap ι) (g : Nat) (x : Frag) : Heap ι :=
  (h.fresh sizeofFrag x).link (.next g) (some h.asked)

theorem extended_frags_of_ne (hf : f ≠ h.asked) (hg : f ≠ g) (x : Frag) : (h.extended g x).frags f = h.frags f := by
  rw [Heap.extended, link_frags_of_ne (by rintro ⟨⟩; exact hg rfl), fresh_frags_of_ne hf]

theorem extended_frags_asked (hg : g ≠ h.asked) (x : Frag) : (h.extended g x).frags h.asked = some x := by
  rw [Heap.extended, link_frags_of_ne (by rintro ⟨⟩; exact hg rfl), fresh_frags_self]

theorem extended_frags {y : Frag} (hg : g ≠ h.asked) (hy : h.frags g = some y) (x : Frag) :
    (h.extended g x).frags g = some { y with next := some h.asked } := by
  rw [Heap.extended, link_frags, if_pos rfl, fresh_frags_of_ne hg, hy, Option.map_some]

theorem Heap.Sound.extended (hs : h.Sound) (g : Nat) (x : Frag) : (h.extended g x).Sound := (hs.fresh _ x).link _ _

/-- What `gabs_pbuf_ci_insert` does at the end of the view. -/
theorem ciInsert_extended {y : Frag} (hg : g ≠ h.asked) (hy : h.frags g = some y) {x : Frag} (hx : x.next = none) :
    ciInsert (h.fresh sizeofFrag x) ⟨none, .next g⟩ (some h.asked) =
      .ok (h.extended g x, ⟨some h.asked, .next g⟩) := by
  have hc : (h.fresh sizeofFrag x).frags h.asked = some x := fresh_frags_self h _ x
  have hself : (h.fresh sizeofFrag x).Chain (some h.asked) [h.asked] :=
    ⟨⟨rfl, (next_of hc).trans hx⟩, fun f hf => by rw [List.mem_singleton.mp hf]; exact ⟨x, hc⟩⟩
  have hlast := lastLoop_eq hself (n := (h.fresh sizeofFrag x).fuel) (Nat.succ_lt_succ (Nat.succ_pos h.asked)) none
  have hstay : (h.fresh sizeofFrag x).assign (.next h.asked) none = .ok (h.fresh sizeofFrag x) := by
    rw [assign_of (p := .next h.asked) ⟨x, hc⟩, link_eq_self hc hx]
  have hlink : (h.fresh sizeofFrag x).assign (.next g) (some h.asked) = .ok (h.extended g x) :=
    assign_of (p := .next g) ⟨y, by rw [fresh_frags_of_ne hg, hy]⟩ _
  simp only [ciInsert, hlast, bind, Except.bind, List.getLast?_singleton, Option.some_or, hstay, hlink]

/-- The view goes on with the new fragment. -/
theorem Heap.Chain.extended (hs : h.Sound) (hv : h.Chain v (m ++ [g])) {x : Frag} (hx : x.next = none) :
    (h.extended g x).Chain v (m ++ [g] ++ [h.asked]) := by
  have hne : ∀ f ∈ m ++ [g], f ≠ h.asked := fun f hf => hv.ne_asked hs hf
  obtain ⟨y, hy⟩ := hv.live g (by simp)
  have hgm : g ∉ m := fun hm => (List.nodup_append.mp hv.path.nodup).2.2 g hm g (by simp) rfl
  have hv' := hv.fresh hs sizeofFrag x
  have hy' : (h.fresh sizeofFrag x).frags g = some y := by rw [fresh_frags_of_ne (hne g (by simp)), hy]
  refine ⟨path_append.mpr ⟨some h.asked, ?_, ?_⟩, fun f hf => ?_⟩
  · rw [Heap.extended, link_next hy']
    exact hv'.path.redirect hgm _
  · exact ⟨rfl, by rw [path_nil, next_of (extended_frags_asked (hne g (by simp)) x), hx]⟩
  · rcases List.mem_append.mp hf with hf | hf
    · exact link_live (hv'.live f hf)
    · rw [List.mem_singleton.mp hf]
      exact ⟨x, extended_frags_asked (hne g (by simp)) x⟩

theorem extended_addrs (hs : h.Sound) (hv : h.Chain v (m ++ [g])) (x : Frag) :
    (h.extended g x).addrs (m ++ [g] ++ [h.asked]) = h.addrs (m ++ [g]) ++ x.addrs := by
  obtain ⟨y, hy⟩ := hv.live g (by simp)
  have hgne : g ≠ h.asked := hv.ne_asked hs (by simp)
  have hm : (h.extended g x).addrs m = h.addrs m := addrs_congr fun c hc =>
    extended_frags_of_ne (hv.ne_asked hs (by simp [hc]))
      (fun e => (List.nodup_append.mp hv.path.nodup).2.2 c hc g (by simp) e) x
  rw [addrs_append, addrs_append, hm, addrs_cons (extended_frags hgne hy x), addrs_append, addrs_cons hy,
    addrs_cons (extended_frags_asked hgne x), addrs_nil, addrs_nil, List.append_nil, List.append_nil, List.append_nil]
  rfl

/-- The addresses of a readonly fragment over the first `k` bytes of another one. -/
theorem addrs_over {y : Frag} (hk : k ≤ y.size) (alloc : Nat) : (Frag.over y.data k alloc).addrs = y.addrs.take k :=
  addrs_release_tail (x := y) hk

theorem addrs_over_from {y : Frag} {j : Nat} (hk : j + k ≤ y.size) (alloc : Nat) :
    (Frag.over (y.data.add j) k alloc).addrs = (y.addrs.drop j).take k := by
  rw [← addrs_release_head]
  exact addrs_over (y := { y with size := y.size - j, data := y.data.add j }) (by simp only; omega) alloc

/-- The loop of `gabs_pbuf_view` is at the fragment `f`, with the chain `l` behind it; the view ends with `g`. -/
structure Heap.Viewing (h : Heap ι) (f : Nat) (l : List Nat) (v : Option Nat) (m : List Nat) (g : Nat) : Prop where
  sound : h.Sound
  source : h.Chain (some f) (f :: l)
  view : h.Chain v (m ++ [g])
  apart : ∀ c ∈ m ++ [g], c ∉ l

/-- One turn of the loop, whose allocation succeeds. -/
theorem viewLoop_step {f' size : Nat} {y : Frag} (hw : h.Viewing f (f' :: l) v m g) (hy : h.frags f' = some y)
    (hpos : size ≠ 0) (hg : h.grants h.asked = true) (alloc : Nat) (lp lp' : Link ι) :
    viewLoop alloc (n + 1) h ⟨some f, lp⟩ ⟨some g, lp'⟩ size =
      viewLoop alloc n (h.extended g (.over y.data (min y.size size) alloc)) ⟨some f', .next f⟩ ⟨some h.asked, .next g⟩
        (size - min y.size size) := by
  obtain ⟨x, hx⟩ := hw.source.live f List.mem_cons_self
  obtain ⟨z, hz⟩ := hw.view.live g (by simp)
  have hgne : g ≠ h.asked := hw.view.ne_asked hw.sound (by simp)
  have hnext : x.next = some f' := (hw.source.tail hx).head
  have hend : z.next = none := hw.view.next_last hz
  have hz' : (h.fresh sizeofFrag (.over y.data (min y.size size) alloc)).frags g = some z := by
    rw [fresh_frags_of_ne hgne, hz]
  have hins := ciInsert_extended hgne hz (x := .over y.data (min y.size size) alloc) rfl
  simp only [viewLoop, if_neg hpos, ciNext_of hx, hnext, ciSize_of hy, ciData_of hy, bind, Except.bind, newRo_eq hg,
    gabsPbufOkay, Option.isSome_some, Bool.not_true, Bool.false_eq_true, if_false, ciNext_of hz', hend, hins,
    sub_of_le (Nat.min_le_right _ _)]

/-- The turn leaves the source alone. -/
theorem Heap.Viewing.same {f' : Nat} (hw : h.Viewing f (f' :: l) v m g) (x : Frag) {c : Nat} (hc : c ∈ f' :: l) :
    (h.extended g x).frags c = h.frags c :=
  extended_frags_of_ne (hw.source.ne_asked hw.sound (List.mem_cons_of_mem _ hc))
    (fun e => hw.apart g (by simp) (by rwa [← e])) x

/-- The loop is at the next fragment, and the view has one fragment more. -/
theorem Heap.Viewing.step {f' : Nat} (hw : h.Viewing f (f' :: l) v m g) {x : Frag} (hx : x.next = none) :
    (h.extended g x).Viewing f' l v (m ++ [g]) h.asked := by
  obtain ⟨y, hy⟩ := hw.source.live f List.mem_cons_self
  have hnext : y.next = some f' := (hw.source.tail hy).head
  have htail : h.Chain (some f') (f' :: l) := hnext ▸ hw.source.tail hy
  refine ⟨hw.sound.extended g x, ?_, hw.view.extended hw.sound hx, ?_⟩
  · apply htail.congr
    · intro c hc
      rw [Heap.next, hw.same x hc, Heap.next]
    · intro c hc
      rw [hw.same x hc]
      exact htail.live c hc
  · intro c hc hl
    rcases List.mem_append.mp hc with hc | hc
    · exact hw.apart c hc (List.mem_cons_of_mem _ hl)
    · exact htail.ne_asked hw.sound (List.mem_cons_of_mem _ hl) (List.mem_singleton.mp hc)

/-- **The loop of `gabs_pbuf_view`** appends the addresses of the next `size` bytes of the source. -/
theorem viewLoop_eq (hw : h.Viewing f l v m g) (alloc size : Nat) (hg : ∀ k < l.length, h.grants (h.asked + k) = true)
    (hn : l.length < n) (hle : size ≤ h.total l) (lp lp' : Link ι) :
    ∃ h' t, viewLoop alloc n h ⟨some f, lp⟩ ⟨some g, lp'⟩ size = .ok h' ∧ h'.Chain v (m ++ [g] ++ t) ∧
      h'.addrs (m ++ [g] ++ t) = h.addrs (m ++ [g]) ++ (h.addrs l).take size ∧ h'.slots = h.slots ∧ h'.bytes = h.bytes ∧
      (∀ c < h.asked, c ≠ g → h'.frags c = h.frags c) ∧ ∀ c ∈ t, h.asked ≤ c := by
  induction l generalizing h f m g n size lp lp' with
  | nil =>
    obtain ⟨n, rfl⟩ := exists_fuel hn
    obtain rfl : size = 0 := Nat.le_zero.mp hle
    exact ⟨h, [], rfl, by rw [List.append_nil]; exact hw.view, by simp, rfl, rfl, fun _ _ _ => rfl, nofun⟩
  | cons f' l ih =>
    obtain ⟨n, rfl⟩ := exists_fuel hn
    rcases Nat.eq_zero_or_pos size with rfl | hpos
    · exact ⟨h, [], rfl, by rw [List.append_nil]; exact hw.view, by simp, rfl, rfl, fun _ _ _ => rfl, nofun⟩
    · obtain ⟨y, hy⟩ := hw.source.live f' (by simp)
      have hstep := viewLoop_step (n := n) hw hy (Nat.ne_of_gt hpos) (by simpa using hg 0 (by simp)) alloc lp lp'
      -- The piece of the next fragment that is in the range.
      have hpiece := addrs_over (y := y) (Nat.min_le_left y.size size) alloc
      set x := Frag.over y.data (min y.size size) alloc with hx
      have hsame : ∀ c ∈ l, (h.extended g x).frags c = h.frags c := fun c hc => hw.same x (List.mem_cons_of_mem _ hc)
      have hgrants : ∀ k < l.length, (h.extended g x).grants ((h.extended g x).asked + k) = true := fun k hk => by
        have := hg (k + 1) (Nat.succ_lt_succ hk)
        rwa [show h.asked + (k + 1) = h.asked + 1 + k by omega] at this
      have hrest : size - min y.size size ≤ (h.extended g x).total l := by
        rw [total_cons, size_of hy] at hle
        rw [total_congr hsame]
        omega
      obtain ⟨h', t, hloop, hchain, haddrs, hslots, hbytes, hframe, hnew⟩ :=
        ih (hw.step rfl) (size - min y.size size) hgrants (Nat.lt_of_succ_lt_succ hn) hrest (.next f) (.next g)
      refine ⟨h', h.asked :: t, hstep.trans hloop, ?_, ?_, hslots, hbytes, fun c hc hcg => ?_, fun c hc => ?_⟩
      · rwa [List.append_assoc (m ++ [g])] at hchain
      · rw [List.append_assoc (m ++ [g])] at haddrs
        rw [List.singleton_append] at haddrs
        have hcut : size - min y.size size = size - y.addrs.length := by rw [addrs_length]; omega
        have hfirst : y.addrs.take (min y.size size) = y.addrs.take size :=
          List.take_eq_take_iff.mpr (by rw [addrs_length]; omega)
        rw [haddrs, extended_addrs hw.sound hw.view, hpiece, addrs_congr hsame, hfirst, addrs_cons hy, List.take_append,
          hcut, List.append_assoc]
      · rw [hframe c (Nat.lt_succ_of_lt hc) (Nat.ne_of_lt hc), extended_frags_of_ne (Nat.ne_of_lt hc) hcg]
      · rcases List.mem_cons.mp hc with rfl | hc
        · exact Nat.le_refl _
        · exact Nat.le_of_succ_le (hnew c hc)

/-! ## The view -/

omit [DecidableEq ι] in
/-- A list cut after `j` bytes of its first part, then after `k` bytes: the first part of it and the rest. -/
theorem take_drop_append {α : Type*} {a b : List α} {j k : Nat} (hj : j ≤ a.length) :
    ((a ++ b).drop j).take k = (a.drop j).take (min (a.length - j) k) ++ b.take (k - min (a.length - j) k) := by
  rw [List.drop_append_of_le_length hj, List.take_append, List.length_drop]
  congr 1
  · exact List.take_eq_take_iff.mpr (by rw [List.length_drop]; omega)
  · congr 1
    omega

/-- The first piece of a view: what is left of fragment `x` from its byte `j` on. -/
def Frag.piece (x : Frag) (j size alloc : Nat) : Frag := .over (x.data.add j) (min (x.size - j) size) alloc

/-- `gabs_pbuf_view` up to its loop. -/
theorem gabsPbufView_eq {offset : Nat} {lp : Link ι} (hseek : bufSeek h p offset = .ok (⟨some f, lp⟩, k))
    (hx : h.frags f = some x) (hlo : k ≤ offset) (hhi : offset ≤ k + x.size) (hg : h.grants h.asked = true)
    (size alloc : Nat) : gabsPbufView h p offset size alloc = (do
      let h' ← viewLoop alloc h.fuel (h.fresh sizeofFrag (x.piece (offset - k) size alloc)) ⟨some f, lp⟩
        ⟨some h.asked, .param⟩ (size - min (x.size - (offset - k)) size)
      .ok (h', some h.asked)) := by
  have hoff : sub offset k = offset - k := sub_of_le hlo
  have hleft : sub x.size (offset - k) = x.size - (offset - k) := sub_of_le (by omega)
  have hrest : sub size (min (x.size - (offset - k)) size) = size - min (x.size - (offset - k)) size :=
    sub_of_le (Nat.min_le_right ..)
  have hinit : ∀ h' : Heap ι, ciInit h' (.param (some h.asked)) = (⟨some h.asked, .param⟩ : Ci ι) := fun _ => rfl
  simp only [gabsPbufView, hseek, bind, Except.bind, ciSize_of hx, ciData_of hx, hoff, hleft, newRo_eq hg, gabsPbufOkay,
    Option.isSome_some, Bool.not_true, Bool.false_eq_true, if_false, hinit, hrest, Frag.piece]

omit [DecidableEq ι] in
/-- The slice begins with the first piece. -/
theorem addrs_piece (hx : h.frags f = some x) {j : Nat} (hj : j ≤ x.size) (size alloc : Nat) :
    ((h.addrs (f :: m)).drop j).take size =
      (x.piece j size alloc).addrs ++ (h.addrs m).take (size - min (x.size - j) size) := by
  rw [addrs_cons hx, take_drop_append (by rw [addrs_length]; exact hj), addrs_length, Frag.piece,
    addrs_over_from (by omega)]

omit [DecidableEq ι] in
/-- The loop starts at the fragment of the first piece, with the new buffer of that piece alone. -/
theorem viewing_start (hs : h.Sound) (hc : h.Chain (some f) (f :: l)) {y : Frag} (hy : y.next = none) :
    (h.fresh sizeofFrag y).Viewing f l (some h.asked) [] h.asked := by
  refine ⟨hs.fresh _ y, hc.fresh hs _ y, ⟨⟨rfl, ?_⟩, ?_⟩, ?_⟩
  · exact (next_of (fresh_frags_self h _ y)).trans hy
  · intro c hm
    rw [List.mem_singleton.mp hm]
    exact ⟨y, fresh_frags_self h _ y⟩
  · intro c hm hl
    exact hc.ne_asked hs (List.mem_cons_of_mem _ hl) (List.mem_singleton.mp hm)

/-- **`gabs_pbuf_view`** from the fragment `f` on, where `buf_seek` has stopped. -/
theorem view_from (hs : h.Sound) {offset : Nat} {lp : Link ι} (hseek : bufSeek h p offset = .ok (⟨some f, lp⟩, k))
    (hc : h.Chain (some f) (f :: l)) (hlo : k ≤ offset) (hhi : offset ≤ k + h.size f) {size : Nat}
    (hle : offset - k + size ≤ h.total (f :: l)) (alloc : Nat)
    (hg : ∀ k < (f :: l).length, h.grants (h.asked + k) = true) :
    ∃ h' v m, gabsPbufView h p offset size alloc = .ok (h', v) ∧ gabsPbufOkay v = true ∧ h'.Chain v m ∧
      h'.addrs m = ((h.addrs (f :: l)).drop (offset - k)).take size ∧ (∀ c < h.asked, h'.frags c = h.frags c) ∧
      h'.slots = h.slots ∧ h'.bytes = h.bytes ∧ ∀ c ∈ m, h.asked ≤ c := by
  obtain ⟨x, hx⟩ := hc.live f List.mem_cons_self
  rw [total_cons, size_of hx] at hle
  rw [size_of hx] at hhi
  have hrun := gabsPbufView_eq hseek hx hlo hhi (hg 0 (Nat.succ_pos _)) size alloc
  have haddrs := addrs_piece (m := l) hx (show offset - k ≤ x.size by omega) size alloc
  set y := x.piece (offset - k) size alloc
  have hw : (h.fresh sizeofFrag y).Viewing f l (some h.asked) [] h.asked := viewing_start hs hc rfl
  have hold : ∀ c ∈ l, (h.fresh sizeofFrag y).frags c = h.frags c := fun c hl =>
    fresh_frags_of_ne (hc.ne_asked hs (List.mem_cons_of_mem _ hl)) _ y
  have hgrants : ∀ k < l.length, (h.fresh sizeofFrag y).grants ((h.fresh sizeofFrag y).asked + k) = true := by
    intro k hk
    have hgk := hg (k + 1) (Nat.succ_lt_succ hk)
    rwa [show h.asked + (k + 1) = h.asked + 1 + k by omega] at hgk
  obtain ⟨h', u, hloop, hchain, haddrs', hslots, hbytes, hframe, hnew⟩ :=
    viewLoop_eq hw alloc (size - min (x.size - (offset - k)) size) hgrants (Nat.lt_of_succ_lt (hc.length_lt hs))
      (by rw [total_congr hold]; omega) lp .param
  refine ⟨h', some h.asked, [] ++ [h.asked] ++ u, ?_, rfl, hchain, ?_, fun c hlt => ?_, hslots, hbytes, fun c hcu => ?_⟩
  · rw [hrun, hloop]
    rfl
  · rw [haddrs, haddrs', addrs_congr hold, List.nil_append, addrs_cons (fresh_frags_self h _ y), addrs_nil,
      List.append_nil]
  · rw [hframe c (Nat.lt_succ_of_lt hlt) (Nat.ne_of_lt hlt), fresh_frags_of_ne (Nat.ne_of_lt hlt)]
  · rcases List.mem_cons.mp hcu with rfl | hcu
    · exact Nat.le_refl _
    · exact Nat.le_of_succ_le (hnew c hcu)

/-- **A view is an aliasing slice**: whatever memory holds afterwards, the view holds a slice of the source. -/
theorem view_slice (hs : h.Sound) (hc : h.Chain p l) (ht : h.total l < 2 ^ 64) {offset size : Nat}
    (ho : offset < h.total l) (hle : size ≤ h.total l - offset) (alloc : Nat)
    (hg : ∀ k < l.length, h.grants (h.asked + k) = true) : ∃ h' v m, gabsPbufView h p offset size alloc = .ok (h', v) ∧
      gabsPbufOkay v = true ∧ h'.Chain v m ∧ h'.Chain p l ∧ h'.addrs m = ((h.addrs l).drop offset).take size ∧
      (∀ b, { h' with bytes := b }.content m = (({ h' with bytes := b }.content l).drop offset).take size) ∧
      (∀ f ∈ l, h'.frags f = h.frags f) ∧ h'.slots = h.slots ∧ h'.bytes = h.bytes ∧ ∀ c ∈ m, c ∉ l := by
  obtain ⟨l₁, l₂, lp, rfl, hseek, hlo, hhi⟩ :=
    seekLoop_eq hc (hc.length_lt hs) (Nat.zero_le offset) (by omega) (.param : Link ι)
  rw [Nat.zero_add] at hseek hlo hhi
  rw [total_append] at ho hle
  cases l₂ with
  | nil =>
    rw [total_nil] at ho
    omega
  | cons f t =>
    have hlen : (l₁ ++ f :: t).length = l₁.length + (f :: t).length := List.length_append
    have hdrop := addrs_drop (m := f :: t) (fun c hcl => hc.live c (List.mem_append_left _ hcl)) hlo
    obtain ⟨h', v, m, hrun, hv, hchain, haddrs, hframe, hslots, hbytes, hnew⟩ := view_from hs hseek hc.behind hlo
      (hhi f rfl) (show offset - h.total l₁ + size ≤ h.total (f :: t) by omega) alloc fun k hk => hg k (by omega)
    have hsame : ∀ c ∈ l₁ ++ f :: t, h'.frags c = h.frags c := fun c hcl => by
      obtain ⟨z, hz⟩ := hc.live c hcl
      exact hframe c (hs c z hz)
    have hslice : h'.addrs m = ((h.addrs (l₁ ++ f :: t)).drop offset).take size := by rw [hdrop, haddrs]
    refine ⟨h', v, m, hrun, hv, hchain, ?_, hslice, fun b => ?_, hsame, hslots, hbytes, fun c hcm hcl => ?_⟩
    · exact hc.congr (fun c hcl => by rw [Heap.next, hsame c hcl, Heap.next]) fun c hcl => by
        rw [hsame c hcl]; exact hc.live c hcl
    · have hsource : Heap.addrs { h' with bytes := b } (l₁ ++ f :: t) = h.addrs (l₁ ++ f :: t) := addrs_congr hsame
      have hview : Heap.addrs { h' with bytes := b } m = ((h.addrs (l₁ ++ f :: t)).drop offset).take size := hslice
      rw [Heap.content, hview, Heap.content, hsource, List.map_take, List.map_drop]
    · obtain ⟨z, hz⟩ := hc.live c hcl
      exact Nat.not_lt_of_le (hnew c hcm) (hs c z hz)

/-- A buffer of three bytes, none, and four more. -/
def sevenBytes : Heap (Fin 1) := heapOf (fun _ => some 0)
  [⟨⟨.own 0, 0⟩, ⟨.own 0, 0⟩, 3, 8, false, 1, some 1, 0⟩, ⟨⟨.own 1, 0⟩, ⟨.own 1, 0⟩, 0, 8, false, 1, some 2, 0⟩,
    ⟨⟨.own 2, 0⟩, ⟨.own 2, 2⟩, 4, 8, false, 1, none, 0⟩]

theorem sevenBytes_chain : sevenBytes.Chain (some 0) [0, 1, 2] := chain_of_walk (n := 3) (by decide)

/-- A view across the fragments. -/
theorem view_slice_across : ∃ h' v m, gabsPbufView sevenBytes (some 0) 2 3 0 = .ok (h', v) ∧ gabsPbufOkay v = true ∧
    h'.Chain v m ∧ h'.Chain (some 0) [0, 1, 2] ∧ h'.addrs m = ((sevenBytes.addrs [0, 1, 2]).drop 2).take 3 ∧
    (∀ b, { h' with bytes := b }.content m = (({ h' with bytes := b }.content [0, 1, 2]).drop 2).take 3) ∧
    (∀ f ∈ [0, 1, 2], h'.frags f = sevenBytes.frags f) ∧ h'.slots = sevenBytes.slots ∧ h'.bytes = sevenBytes.bytes ∧
    ∀ c ∈ m, c ∉ [0, 1, 2] :=
  view_slice (heapOf_sound _ _) sevenBytes_chain (by decide) (by decide) (by decide) 0 fun _ _ => rfl

end Gabs.Pbuf
