import Gabs.Pbuf.Seek

/-!
# Packet buffers: chaining splices the content

- `Spliced`: the fragments of a buffer around those of another one;
- `insert_spliced`: `gabs_pbuf_ci_insert` at a position, also of a buffer without fragments;
- `atLoop_boundary`: where `gabs_pbuf_chain_at` stops, at a boundary of fragments;
- `chain_splices`: `gabs_pbuf_chain_front`, `gabs_pbuf_chain_back` and `gabs_pbuf_chain_at`.
-/

namespace Gabs.Pbuf

open Gabs.Lib

variable {ι : Type} [DecidableEq ι] {h : Heap ι} {i : ι} {p v : Option Nat} {f n : Nat} {l l₁ l₂ m : List Nat}
  {it : Ci ι}

/-- **The fragments `m` are spliced in** between `a` and `b`: each of them is there once, with its data and references
as before. -/
structure Spliced (h h' : Heap ι) (i : ι) (a m b : List Nat) : Prop where
  chain : h'.Chain (h'.slots i) (a ++ (m ++ b))
  nodup : (a ++ (m ++ b)).Nodup
  frags : ∀ f x, h.frags f = some x → ∃ v, h'.frags f = some { x with next := v }
  content : h'.content (a ++ (m ++ b)) = h.content a ++ (h.content m ++ h.content b)
  slots : ∀ j, j ≠ i → h'.slots j = h.slots j
  bytes : h'.bytes = h.bytes
  released : h'.released = h.released

/-! ## Links -/

theorem link_frags_next (h : Heap ι) (q : Link ι) (v : Option Nat) {x : Frag} (hx : h.frags f = some x) :
    ∃ w, (h.link q v).frags f = some { x with next := w } := by
  rw [link_frags, hx]
  split
  · exact ⟨v, rfl⟩
  · exact ⟨x.next, rfl⟩

/-- A link does not change where the bytes are. -/
theorem link_addrs (h : Heap ι) (q : Link ι) (v : Option Nat) (l : List Nat) : (h.link q v).addrs l = h.addrs l := by
  induction l with
  | nil => rfl
  | cons f l ih =>
    simp only [Heap.addrs, List.flatMap_cons] at ih ⊢
    rw [ih, link_frags]
    congr 1
    cases h.frags f with
    | none => rw [Option.map_none, ite_self]
    | some x => split <;> rfl

theorem link_released (h : Heap ι) (q : Link ι) (v : Option Nat) : (h.link q v).released = h.released := by
  cases q <;> rfl

theorem link_slots_of_ne {j : ι} (q : Link ι) (hj : q ≠ .slot j) (v : Option Nat) :
    (h.link q v).slots j = h.slots j := by
  cases q with
  | slot k => exact Function.update_of_ne (fun e => hj (by rw [e])) ..
  | next | param => rfl

/-- The link of a position, as it is. -/
theorem link_position (ha : h.At i l₁ l₂ it) : h.link (lastp i l₁) l₂.head? = h := by
  rcases List.eq_nil_or_concat l₁ with rfl | ⟨l', g, rfl⟩
  · have hhead : h.slots i = l₂.head? := ha.chain.head
    show { h with slots := Function.update h.slots i l₂.head? } = h
    rw [← hhead, Function.update_eq_self]
  · rw [List.concat_eq_append] at ha ⊢
    obtain ⟨⟨x, hx⟩, hnext⟩ := ha.leads
    rw [lastp_concat]
    exact link_eq_self hx ((next_of hx).symm.trans hnext)

/-! ## Inserting -/

/-- `gabs_pbuf_ci_insert` of a buffer without fragments. -/
theorem ciInsert_none (ha : h.At i l₁ l₂ it) : ∃ it', ciInsert h it none = .ok (h, it') := by
  have hlink := link_position ha
  obtain ⟨cur, lp⟩ := it
  obtain ⟨hc, rfl, rfl⟩ := ha
  have hlast : lastLoop h.fuel h none none = .ok none := rfl
  refine ⟨⟨l₂.head?, lastp i l₁⟩, ?_⟩
  simp only [ciInsert, hlast, bind, Except.bind, assign_of (hc.writable i), hlink]

omit [DecidableEq ι] in
theorem lastp_slot_ne {j : ι} (hj : j ≠ i) (l : List Nat) : lastp i l ≠ .slot j := by
  rcases List.eq_nil_or_concat l with rfl | ⟨l', g, rfl⟩
  · rw [lastp_nil]
    rintro ⟨⟩
    exact hj rfl
  · rw [List.concat_eq_append, lastp_concat]
    nofun

omit [DecidableEq ι] in
theorem content_split (h : Heap ι) (a m b : List Nat) :
    h.content (a ++ (m ++ b)) = h.content a ++ (h.content m ++ h.content b) := by
  simp only [Heap.content, addrs_append, List.map_append]

/-- **`gabs_pbuf_ci_insert`** splices a buffer in. -/
theorem insert_spliced (hs : h.Sound) (ha : h.At i l₁ l₂ it) (hm : h.Chain p m) (hd : ∀ f ∈ m, f ∉ l₁ ++ l₂) :
    ∃ h' it', ciInsert h it p = .ok (h', it') ∧ Spliced h h' i l₁ m l₂ := by
  cases m with
  | nil =>
    obtain rfl : p = none := hm.head
    obtain ⟨it', hrun⟩ := ciInsert_none ha
    exact ⟨h, it', hrun, ha.chain, ha.chain.path.nodup, fun f x hx => ⟨x.next, hx⟩, content_split h l₁ [] l₂,
      fun _ _ => rfl, rfl, rfl⟩
  | cons g m =>
    obtain ⟨it', hrun, ha'⟩ := ciInsert_at hs ha hm nofun hd
    have haddrs : (h.spliced i l₁ l₂ (g :: m)).addrs (l₁ ++ (g :: m ++ l₂)) = h.addrs (l₁ ++ (g :: m ++ l₂)) := by
      rw [Heap.spliced, link_addrs, link_addrs]
    have hbytes : (h.spliced i l₁ l₂ (g :: m)).bytes = h.bytes := by
      rw [Heap.spliced]
      cases lastp i l₁ <;> cases lastp i (g :: m) <;> rfl
    refine ⟨_, it', hrun, ha'.chain, ha'.chain.path.nodup, fun f x hx => ?_, ?_, fun j hj => ?_, hbytes, ?_⟩
    · obtain ⟨w, hw⟩ := link_frags_next h (lastp i (g :: m)) l₂.head? hx
      obtain ⟨w', hw'⟩ := link_frags_next _ (lastp i l₁) (g :: m).head? hw
      exact ⟨w', hw'⟩
    · rw [← content_split]
      exact content_of_addrs hbytes haddrs
    · rw [Heap.spliced, link_slots_of_ne _ (lastp_slot_ne hj l₁), link_slots_of_ne _ (lastp_slot_ne hj (g :: m))]
    · rw [Heap.spliced, link_released, link_released]

/-! ## Where the buffer is inserted -/

omit [DecidableEq ι] in
/-- The running sum of `gabs_pbuf_chain_at` does not wrap at the end of the next fragment that has bytes. -/
def Heap.Reaches (h : Heap ι) (offset : Nat) (l : List Nat) : Prop :=
  offset < 2 ^ 64 ∧ ∀ z f t, l = z ++ f :: t → h.total z = 0 → offset + h.size f < 2 ^ 64

omit [DecidableEq ι] in
theorem Heap.At.size (ha : h.At i l₁ (f :: l₂) it) : ciSize h it = .ok (h.size f) := by
  obtain ⟨x, hx⟩ := ha.chain.live f (by simp)
  rw [ciSize_at ha hx, size_of hx]

omit [DecidableEq ι] in
/-- At the offset, fragments without bytes are passed. -/
theorem atLoop_here {offset : Nat} (ha : h.At i l₁ l₂ it) (hn : l₂.length < n) (hr : h.Reaches offset l₂) :
    ∃ z b it', l₂ = z ++ b ∧ h.total z = 0 ∧ atLoop h offset n it offset = .ok (it', offset) ∧
      h.At i (l₁ ++ z) b it' := by
  induction l₂ generalizing l₁ it n with
  | nil =>
    obtain ⟨n, rfl⟩ := exists_fuel hn
    exact ⟨[], [], it, rfl, rfl, by rw [atLoop, if_pos ha.eoi], by rwa [List.append_nil]⟩
  | cons f l₂ ih =>
    obtain ⟨n, rfl⟩ := exists_fuel hn
    have hwrap : wrap (offset + h.size f) = offset + h.size f := wrap_of_lt (hr.2 [] f l₂ rfl rfl)
    rw [atLoop, if_neg ha.not_eoi, ha.size]
    simp only [bind, Except.bind, hwrap]
    rcases Nat.eq_zero_or_pos (h.size f) with hzero | hpos
    · obtain ⟨it₁, hnext, ha₁⟩ := ciNext_at ha
      have hr' : h.Reaches offset l₂ := ⟨hr.1, fun z g t hl hz => hr.2 (f :: z) g t (by rw [hl]; rfl) (by
        rw [total_cons, hzero, hz])⟩
      obtain ⟨z, b, it', rfl, hz, hloop, ha'⟩ := ih ha₁ (Nat.lt_of_succ_lt_succ hn) hr'
      refine ⟨f :: z, b, it', rfl, by rw [total_cons, hzero, hz], ?_, by rwa [List.append_assoc] at ha'⟩
      rw [if_neg (by omega), hnext, hzero, Nat.add_zero]
      exact hloop
    · refine ⟨[], f :: l₂, it, rfl, rfl, ?_, by rwa [List.append_nil]⟩
      rw [if_pos (by omega)]

omit [DecidableEq ι] in
/-- **The loop of `gabs_pbuf_chain_at`** stops at the boundary behind the fragments `l₂`, or behind fragments without
bytes that follow. -/
theorem atLoop_boundary {bytes : Nat} (ha : h.At i l₁ (l₂ ++ l) it) (hn : (l₂ ++ l).length < n)
    (hr : h.Reaches (bytes + h.total l₂) l) : ∃ a b it', l₂ ++ l = a ++ b ∧ h.total a = h.total l₂ ∧
      atLoop h (bytes + h.total l₂) n it bytes = .ok (it', bytes + h.total l₂) ∧ h.At i (l₁ ++ a) b it' := by
  induction l₂ generalizing l₁ it n bytes with
  | nil => exact atLoop_here ha hn hr
  | cons f l₂ ih =>
    obtain ⟨n, rfl⟩ := exists_fuel hn
    rw [total_cons, ← Nat.add_assoc] at hr ⊢
    have hwrap : wrap (bytes + h.size f) = bytes + h.size f :=
      wrap_of_lt (Nat.lt_of_le_of_lt (Nat.le_add_right _ _) hr.1)
    obtain ⟨it₁, hnext, ha₁⟩ := ciNext_at ha
    obtain ⟨a, b, it', hab, htotal, hloop, ha'⟩ := ih ha₁ (Nat.lt_of_succ_lt_succ hn) hr
    refine ⟨f :: a, b, it', by rw [List.cons_append, hab]; rfl, by rw [total_cons, htotal], ?_,
      by rwa [List.append_assoc] at ha'⟩
    rw [atLoop, if_neg ha.not_eoi, ha.size]
    simp only [bind, Except.bind, hwrap]
    rw [if_neg (by omega), hnext]
    exact hloop

omit [DecidableEq ι] in
/-- The content before and behind a boundary. -/
theorem content_cut {a b : List Nat} (hl : ∀ f ∈ a ++ b, ∃ x, h.frags f = some x) :
    (h.content (a ++ b)).take (h.total a) = h.content a ∧ (h.content (a ++ b)).drop (h.total a) = h.content b := by
  have hlen := content_length fun f hf => hl f (List.mem_append_left b hf)
  have happ : h.content (a ++ b) = h.content a ++ h.content b := by
    rw [Heap.content, addrs_append, List.map_append]; rfl
  rw [happ, ← hlen]
  exact ⟨List.take_left, List.drop_left⟩

/-! ## Chaining -/

/-- **Chaining splices the content**: `gabs_pbuf_chain_front`, `gabs_pbuf_chain_back`, and `gabs_pbuf_chain_at` behind
the fragments `l₁`, when the running sum of the sizes does not wrap at the next fragment that has bytes. -/
theorem chain_splices (hs : h.Sound) (hc : h.Chain (h.slots i) (l₁ ++ l₂)) (hm : h.Chain p m)
    (hd : ∀ f ∈ m, f ∉ l₁ ++ l₂) (hr : h.total l₁ < 2 ^ 64 ∧
      ∀ z f t, l₂ = z ++ f :: t → h.total z = 0 → h.total l₁ + h.size f < 2 ^ 64) :
    (∃ h' a b, gabsPbufChainAt h i p (h.total l₁) = .ok h' ∧ a ++ b = l₁ ++ l₂ ∧ Spliced h h' i a m b ∧
      h'.content (a ++ (m ++ b)) = (h.content (l₁ ++ l₂)).take (h.total l₁) ++
        (h.content m ++ (h.content (l₁ ++ l₂)).drop (h.total l₁))) ∧
    (∃ h', gabsPbufChainFront h i p = .ok h' ∧ Spliced h h' i [] m (l₁ ++ l₂)) ∧
    ∃ h', gabsPbufChainBack h i p = .ok h' ∧ Spliced h h' i (l₁ ++ l₂) m [] := by
  obtain ⟨hf, itf, hfront, hsplice⟩ := insert_spliced hs (ciInit_at hc) hm hd
  have hfront' : gabsPbufChainFront h i p = .ok hf := by simp only [gabsPbufChainFront, hfront, bind, Except.bind]
  refine ⟨?_, ⟨hf, hfront', hsplice⟩, ?_⟩
  · rcases Nat.eq_zero_or_pos (h.total l₁) with hzero | hpos
    · refine ⟨hf, [], l₁ ++ l₂, by rw [hzero, gabsPbufChainAt, if_pos rfl, hfront'], rfl, hsplice, ?_⟩
      have hnil : h.content [] = [] := rfl
      rw [hsplice.content, hzero, List.take_zero, List.drop_zero, hnil]
    · have hreach : h.Reaches (0 + h.total l₁) l₂ := by rwa [Nat.zero_add]
      obtain ⟨a, b, it, hab, htotal, hloop, hat⟩ := atLoop_boundary (ciInit_at hc) (hc.length_lt hs) hreach
      rw [Nat.zero_add] at hloop
      rw [List.nil_append] at hat
      obtain ⟨h', it', hins, hsp⟩ := insert_spliced hs hat hm (by rwa [← hab])
      refine ⟨h', a, b, ?_, hab.symm, hsp, ?_⟩
      · rw [gabsPbufChainAt, if_neg (Nat.ne_of_gt hpos), hloop]
        simp only [bind, Except.bind, Heap.assert, decide_true, Bool.or_true, if_true, hins]
      · obtain ⟨htake, hdrop⟩ := content_cut (a := a) (b := b) (fun f hf => hc.live f (by rwa [hab]))
        rw [hsp.content, hab, ← htotal, htake, hdrop]
  · obtain ⟨it, hloop, hat⟩ := backLoop_eq (ciInit_at hc) (hc.length_lt hs)
    obtain ⟨h', it', hins, hsp⟩ := insert_spliced hs hat hm (by rwa [List.nil_append, List.append_nil])
    exact ⟨h', by simp only [gabsPbufChainBack, hloop, bind, Except.bind, hins], hsp⟩

/-- A buffer of three bytes, none, and four more, and one of two bytes and none. -/
def twoBuffers : Heap (Fin 2) := heapOf (fun i => if i = 0 then some 0 else some 3)
  [⟨⟨.own 0, 0⟩, ⟨.own 0, 0⟩, 3, 8, false, 1, some 1, 0⟩, ⟨⟨.own 1, 0⟩, ⟨.own 1, 0⟩, 0, 8, false, 1, some 2, 0⟩,
    ⟨⟨.own 2, 0⟩, ⟨.own 2, 2⟩, 4, 8, false, 1, none, 0⟩, ⟨⟨.own 3, 0⟩, ⟨.own 3, 0⟩, 2, 8, false, 1, some 4, 0⟩,
    ⟨⟨.own 4, 0⟩, ⟨.own 4, 0⟩, 0, 8, false, 1, none, 0⟩]

/-- The one is spliced into the other, at the boundary behind three bytes. -/
theorem chain_splices_middle :
    (∃ h' a b, gabsPbufChainAt twoBuffers 0 (some 3) (twoBuffers.total [0]) = .ok h' ∧ a ++ b = [0] ++ [1, 2] ∧
      Spliced twoBuffers h' 0 a [3, 4] b ∧
      h'.content (a ++ ([3, 4] ++ b)) = (twoBuffers.content ([0] ++ [1, 2])).take (twoBuffers.total [0]) ++
        (twoBuffers.content [3, 4] ++ (twoBuffers.content ([0] ++ [1, 2])).drop (twoBuffers.total [0]))) ∧
    (∃ h', gabsPbufChainFront twoBuffers 0 (some 3) = .ok h' ∧ Spliced twoBuffers h' 0 [] [3, 4] ([0] ++ [1, 2])) ∧
    ∃ h', gabsPbufChainBack twoBuffers 0 (some 3) = .ok h' ∧ Spliced twoBuffers h' 0 ([0] ++ [1, 2]) [3, 4] [] := by
  refine chain_splices (heapOf_sound _ _) (chain_of_walk (n := 3) (by decide)) (chain_of_walk (n := 2) (by decide))
    (by decide) ⟨by decide, fun z f t hl _ => ?_⟩
  have hf : f = 1 ∨ f = 2 := by
    have hmem : f ∈ z ++ f :: t := by simp
    rw [← hl] at hmem
    simpa using hmem
  rcases hf with rfl | rfl
  · decide
  · decide

/-- **A boundary that is missed**: the running sum wraps at the end of the second of two views of one object. -/
theorem boundary_missed : ∃ h : Heap (Fin 2), h.Sound ∧ h.Chain (h.slots 0) ([0] ++ [1]) ∧ h.Chain (some 2) [2] ∧
    h.total [0] = 2 ^ 63 ∧ gabsPbufChainAt h 0 (some 2) (2 ^ 63) = .error .assertion := by
  refine ⟨{ heapOf (fun i => if i = 0 then some 0 else some 2)
    [⟨⟨.user 0, 0⟩, ⟨.user 0, 0⟩, 2 ^ 63, 2 ^ 63, true, 1, some 1, 0⟩,
      ⟨⟨.user 0, 0⟩, ⟨.user 0, 0⟩, 2 ^ 63, 2 ^ 63, true, 1, none, 0⟩,
      ⟨⟨.own 2, 0⟩, ⟨.own 2, 0⟩, 2, 8, false, 1, none, 0⟩] with extent := fun _ => 2 ^ 63 },
    fun _ _ hx => (List.getElem?_eq_some_iff.mp hx).1, ?_, ?_, by decide, rfl⟩
  · exact chain_of_walk (n := 2) (by decide)
  · exact chain_of_walk (n := 1) (by decide)

end Gabs.Pbuf
