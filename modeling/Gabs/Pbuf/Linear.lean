import Gabs.Pbuf.Tame

/-!
# Packet buffers: ownership

- `Linear`: the calls of a client that uses each handle once; `Founded`: sizes for which there are blocks, and clones of
  ranges whose memory is there;
- `call_owned`: such a call keeps every reference counted;
- `ownership`: what follows for every run; `clone_freed`: a clone of a view that has outlived its source, and a fragment
  whose block is too small.
-/

namespace Gabs.Pbuf

open Gabs.Lib

variable {ι : Type} [DecidableEq ι] {h : Heap ι} {i j : ι} {l m : List Nat} {it : Ci ι}

/-! ## The calls of a client -/

/-- The iterator is at a position of the buffer in slot `i`. -/
def Heap.Placed (h : Heap ι) (i : ι) (it : Ci ι) : Prop :=
  ∃ l ∈ h.chain (h.slots i), ∃ k ∈ List.range (l.length + 1), it = ⟨(l.drop k).head?, lastp i (l.take k)⟩

/-- Two buffers, which share no fragment. -/
def Heap.Separate (h : Heap ι) (i j : ι) : Prop :=
  j ≠ i ∧ ∀ l ∈ h.chain (h.slots i), ∀ m ∈ h.chain (h.slots j), ∀ f ∈ m, f ∉ l

/-- The range lies inside the buffer in slot `j`, and is not empty. -/
def Heap.Within (h : Heap ι) (j : ι) (offset size : Nat) : Prop :=
  0 < size ∧ ∃ l ∈ h.chain (h.slots j), offset + size ≤ h.total l

/-- The buffer in slot `j` is okay, and its head may be referenced once more. -/
def Heap.Countable (h : Heap ι) (j : ι) : Prop := ∃ f ∈ h.slots j, ∃ x ∈ h.frags f, x.refcnt + 1 < 2 ^ 32

/-- **Each handle is used linearly**: a buffer is made where no handle is, the one that is consumed shares no fragment
with the target, and iterators are at a position of their buffer. -/
def Linear (h : Heap ι) : Call ι → Prop
  | .new i _ _ | .newRo i _ _ _ => h.slots i = none
  | .view i j offset size _ | .clone i j offset size _ => h.slots i = none ∧ h.Within j offset size
  | .incref i j => h.slots i = none ∧ h.Countable j
  | .decref i => h.slots i ≠ none
  | .chainFront i j | .chainBack i j | .chainAt i j _ => h.Separate i j
  | .stripHead _ _ | .stripTail _ _ => True
  | .insert i j it => h.Placed i it ∧ h.Separate i j
  | .remove i it | .detach i it => h.Placed i it
  | .put .. | .copy .. | .size .. | .tailroom .. | .headroom .. => False

/-- **If the allocation succeeds**, its block has room for the header and the bytes of a new fragment, as the sum of
their sizes has not wrapped; and the bytes that a clone reads are not in memory that is gone. -/
def Founded (h : Heap ι) : Call ι → Prop
  | .new _ _ size => h.grants h.asked = true → sizeofFrag + size < 2 ^ 64
  | .clone _ j offset size _ => h.grants h.asked = true → sizeofFrag + size < 2 ^ 64 ∧
      ∀ l ∈ h.chain (h.slots j), h.Backed (h.reached offset size l 0)
  | _ => True

instance (h : Heap ι) (i : ι) (it : Ci ι) : Decidable (h.Placed i it) := inferInstanceAs (Decidable (∃ _ ∈ _, _))

instance (h : Heap ι) (i j : ι) : Decidable (h.Separate i j) := inferInstanceAs (Decidable (_ ∧ ∀ _ ∈ _, _))

instance (h : Heap ι) (j : ι) (offset size : Nat) : Decidable (h.Within j offset size) :=
  inferInstanceAs (Decidable (_ ∧ ∃ _ ∈ _, _))

instance (h : Heap ι) (j : ι) : Decidable (h.Countable j) := inferInstanceAs (Decidable (∃ _ ∈ _, _))

instance (h : Heap ι) (c : Call ι) : Decidable (Linear h c) := by
  unfold Linear; split <;> infer_instance

instance (h : Heap ι) (c : Call ι) : Decidable (Founded h c) := by
  unfold Founded; split <;> infer_instance

omit [DecidableEq ι] in
theorem placed_iff (hs : h.Sound) : h.Placed i it ↔ ∃ l₁ l₂, h.At i l₁ l₂ it := by
  constructor
  · rintro ⟨l, hl, k, -, rfl⟩
    refine ⟨l.take k, l.drop k, ?_, rfl, rfl⟩
    rw [List.take_append_drop]
    exact chain_of_walk hl
  · rintro ⟨l₁, l₂, ha⟩
    refine ⟨l₁ ++ l₂, (chain_eq_iff hs).mpr ha.chain, l₁.length, List.mem_range.mpr (by simp), ?_⟩
    obtain ⟨cur, lp⟩ := it
    obtain rfl : cur = l₂.head? := ha.cur
    obtain rfl : lp = lastp i l₁ := ha.lastp
    rw [List.drop_left, List.take_left]

omit [DecidableEq ι] in
theorem Heap.Separate.disjoint (hs : h.Sound) (hd : h.Separate i j) (hl : h.Chain (h.slots i) l)
    (hm : h.Chain (h.slots j) m) : ∀ f ∈ m, f ∉ l :=
  hd.2 l ((chain_eq_iff hs).mpr hl) m ((chain_eq_iff hs).mpr hm)

/-! ## What one call does -/

/-- A buffer that has been made is put into an empty handle variable. -/
theorem Yields.hold {r : Heap ι × Option Nat} (hr : Yields h [] r) (hi : h.slots i = none) :
    (r.1.hold i r.2).Owned [] := by
  have ho := hr.2.hold i
  rwa [hr.1, hi] at ho

/-- **`gabs_pbuf_chain_front`.** -/
theorem chainFront_owned (ho : h.Owned []) (hd : h.Separate i j) : ∃ h', gabsPbufChainFront h i (h.slots j) = .ok h' ∧
    (h'.hold j none).Owned [] := by
  obtain ⟨l, hl⟩ := ho.slot i
  obtain ⟨m, hm⟩ := ho.slot j
  obtain ⟨h', it', hrun, ho'⟩ := insert_owned ho (ciInit_at hl) hd.1 hm (hd.disjoint ho.sound hl hm)
  refine ⟨h', ?_, ho'⟩
  rw [gabsPbufChainFront, hrun]
  rfl

/-- **`gabs_pbuf_chain_back`.** -/
theorem chainBack_owned (ho : h.Owned []) (hd : h.Separate i j) : ∃ h', gabsPbufChainBack h i (h.slots j) = .ok h' ∧
    (h'.hold j none).Owned [] := by
  obtain ⟨l, hl⟩ := ho.slot i
  obtain ⟨m, hm⟩ := ho.slot j
  obtain ⟨it, hloop, ha⟩ := backLoop_eq (ciInit_at hl) (hl.length_lt ho.sound)
  have hdisjoint := hd.disjoint ho.sound hl hm
  obtain ⟨h', it', hrun, ho'⟩ := insert_owned ho ha hd.1 hm (by simpa using hdisjoint)
  refine ⟨h', ?_, ho'⟩
  simp only [gabsPbufChainBack, hloop, bind, Except.bind, hrun]

/-- **`gabs_pbuf_chain_at`**, also where the offset is no boundary. -/
theorem chainAt_owned (ho : h.Owned []) (hd : h.Separate i j) (offset : Nat) :
    Upto Tame (gabsPbufChainAt h i (h.slots j) offset) fun h' => (h'.hold j none).Owned [] := by
  refine upto_ite (fun _ => ?_) fun _ => ?_
  · obtain ⟨h', hrun, ho'⟩ := chainFront_owned ho hd
    rw [hrun]
    exact ho'
  · obtain ⟨l, hl⟩ := ho.slot i
    obtain ⟨m, hm⟩ := ho.slot j
    obtain ⟨a, b, it, k, rfl, hloop, ha, -⟩ := atLoop_eq (ciInit_at hl) (hl.length_lt ho.sound) offset 0
    rw [List.nil_append] at ha
    obtain ⟨h', it', hrun, ho'⟩ := insert_owned ho ha hd.1 hm (hd.disjoint ho.sound hl hm)
    rw [hloop]
    refine (assert_upto tame_assertion h _).bind fun _ _ => ?_
    rw [hrun]
    exact ho'

/-- **One call** keeps every reference counted, and accesses no freed fragment. -/
theorem call_owned (ho : h.Owned []) {c : Call ι} (hc : Linear h c) (hf : Founded h c) :
    Upto Tame (h.call c) (Heap.Owned · []) := by
  cases c with
  | new i alloc size => exact (gabsPbufNew_owned ho alloc size).bind fun r hr => hr.hold hc
  | newRo i alloc data size => exact (gabsPbufNewRo_owned ho alloc data size).bind fun r hr => hr.hold hc
  | view i j offset size alloc =>
    obtain ⟨l, hl⟩ := ho.slot j
    exact (gabsPbufView_owned ho hl offset size alloc).bind fun r hr => hr.hold hc.1
  | clone i j offset size alloc =>
    obtain ⟨l, hl⟩ := ho.slot j
    have hb : h.grants h.asked = true → h.Backed (h.reached offset size l 0) := fun hg =>
      (hf hg).2 l ((chain_eq_iff ho.sound).mpr hl)
    exact (gabsPbufClone_owned ho hl hb alloc).bind fun r hr => hr.hold hc.1
  | incref i j =>
    obtain ⟨hi, f, hj, x, hx, hr⟩ := hc
    have hslot : h.slots j = some f := hj
    have ho' : (h.put f { x with refcnt := inc x.refcnt }).Owned ((some f).toList ++ []) := ho.incref hx hr
    have hheld := ho'.hold i
    rw [put_slots, hi] at hheld
    simp only [Heap.call, gabsPbufIncref, hslot, modify_of hx, bind, Except.bind]
    rw [upto_ok, put_slots, hslot]
    exact hheld
  | decref i =>
    obtain ⟨l, hl⟩ := ho.slot i
    have ho' := Heap.Owned.hold (v := none) ho i
    have hl' : (h.hold i none).Chain (h.slots i) l := ⟨hl.path, hl.live⟩
    simp only [Heap.call, gabsPbufDecref, decrefLoop_eq hl (hl.length_lt ho.sound), bind, Except.bind]
    rw [upto_ok, hold_unref]
    exact ho'.unref hl'
  | chainFront i j =>
    obtain ⟨h', hrun, ho'⟩ := chainFront_owned ho hc
    simp only [Heap.call, hrun, bind, Except.bind]
    exact ho'
  | chainBack i j =>
    obtain ⟨h', hrun, ho'⟩ := chainBack_owned ho hc
    simp only [Heap.call, hrun, bind, Except.bind]
    exact ho'
  | chainAt i j offset => exact (chainAt_owned ho hc offset).bind fun h' ho' => ho'
  | stripHead i size => exact gabsPbufStripHead_owned ho i size
  | stripTail i size => exact gabsPbufStripTail_owned ho i size
  | insert i j it =>
    obtain ⟨l₁, l₂, ha⟩ := (placed_iff ho.sound).mp hc.1
    obtain ⟨m, hm⟩ := ho.slot j
    obtain ⟨h', it', hrun, ho'⟩ := insert_owned ho ha hc.2.1 hm (hc.2.disjoint ho.sound ha.chain hm)
    simp only [Heap.call, hrun, bind, Except.bind]
    exact ho'
  | remove i it =>
    obtain ⟨l₁, l₂, ha⟩ := (placed_iff ho.sound).mp hc
    cases l₂ with
    | nil =>
      have hcur : it.cur = none := ha.cur
      simp only [Heap.call, ciRemove, hcur]
      exact tame_null
    | cons f l₂ =>
      obtain ⟨it', hrun, -⟩ := ciRemove_at ho.sound ha
      simp only [Heap.call, hrun, bind, Except.bind]
      exact cut_owned ho ha
  | detach i it =>
    obtain ⟨l₁, l₂, ha⟩ := (placed_iff ho.sound).mp hc
    obtain ⟨hrun, -⟩ := ciDetach_at ho.sound ha
    rw [Heap.call, hrun]
    exact detach_owned ho ha
  | put | copy | size | tailroom | headroom => exact absurd hc not_false

/-! ## Every run -/

/-- The handles whose head is fragment `f`. -/
def Heap.holders (h : Heap ι) (f : Nat) : Set ι := {i | h.slots i = some f}

/-- The live fragments whose `next` points to fragment `f`. -/
def Heap.leading (h : Heap ι) (f : Nat) : Set Nat := {g | ∃ x, h.frags g = some x ∧ x.next = some f}

/-- **What ownership promises**: each reference is counted, no linear and founded call accesses a freed fragment, each
fragment is released once, when it dies, and none is left where no handle is. -/
structure Heap.Accounted (h : Heap ι) : Prop where
  refcnt : ∀ f x, h.frags f = some x → (x.refcnt : ENat) = (h.holders f).encard + (h.leading f).encard
  safe : ∀ c, Linear h c → Founded h c → h.call c ≠ .error .freed ∧ h.call c ≠ .error .diverges
  once : ∀ f, h.deallocs f = if h.Made f ∧ h.frags f = none then 1 else 0
  empty : (∀ i, h.slots i = none) → ∀ f, h.frags f = none

omit [DecidableEq ι] in
theorem leading_eq (h : Heap ι) (f : Nat) : h.leading f = {g | h.next g = some f} := by
  ext g
  constructor
  · rintro ⟨x, hx, hn⟩
    exact (next_of hx).trans hn
  · intro hg
    exact Option.bind_eq_some_iff.mp hg

theorem Heap.Owned.accounted (ho : h.Owned []) : h.Accounted where
  refcnt f x hx := by
    have heq := ho.tallied f
    rw [refs_of hx, List.count_nil, Nat.add_zero] at heq
    rw [heq, leading_eq, Nat.cast_add, tally, tally, (ho.handles.leads f).cast_ncard_eq,
      (ho.sound.finitary.leads f).cast_ncard_eq]
    rfl
  safe c hc hf := by
    have hcall := call_owned ho hc hf
    constructor
    · intro e
      exact (hcall.error_ok e).1 rfl
    · intro e
      exact (hcall.error_ok e).2 rfl
  once f := by
    have heq := ho.settled f
    cases hx : h.frags f with
    | none =>
      rw [hx] at heq
      rw [← heq.trans (if_congr (and_iff_left rfl).symm rfl rfl)]
      rfl
    | some x =>
      have hm : h.Made f := by
        by_contra hno
        rw [hx, if_neg hno] at heq
        cases heq
      rw [hx, if_pos hm] at heq
      rw [if_neg fun h => Option.some_ne_none x h.2]
      exact Nat.succ.inj heq
  empty hi f := ho.empty hi f

/-- Nothing has been made yet. -/
theorem initial_owned (hi : (calls ι).init h) : h.Owned [] := by
  obtain ⟨hslots, hfrags, hasked, hreleased⟩ := hi
  have hnext : ∀ f, h.next f = none := fun f => by rw [Heap.next, hfrags f]; rfl
  have hfinitary : Finitary h.slots := by rw [funext hslots]; exact finitary_none
  refine ⟨hfinitary, fun f => ?_, fun f => ?_, fun f x hx => ?_, fun f x hx => ?_⟩
  · have hnot : ¬ h.Made f := fun hm => by
      have hlt := hm.1
      rw [hasked] at hlt
      exact Nat.not_lt_zero f hlt
    rw [if_neg hnot, Heap.deallocs, hreleased, hfrags f]
    rfl
  · rw [Heap.refs, hfrags f, tally_none hslots, tally_none hnext]
    rfl
  · rw [hfrags f] at hx
    cases hx
  · rw [hfrags f] at hx
    cases hx

/-- **Ownership**, in every state. -/
theorem ownership (hr : (calls ι).Reach (fun h c => Linear h c ∧ Founded h c) h) : h.Accounted := by
  suffices ho : h.Owned [] from ho.accounted
  refine hr.invariant (I := (Heap.Owned · [])) (fun h hi => initial_owned hi) fun h c h' _ ho hp hst => ?_
  exact (call_owned ho hp.1 hp.2).of_ok (calls_step hst)

/-- A fragment that a handle and another fragment refer to, and one that has been released. -/
theorem ownership_shared : ∃ h : Heap (Fin 3), (calls (Fin 3)).Reach (fun h c => Linear h c ∧ Founded h c) h ∧
    h.chain (h.slots 0) = some [0, 1] ∧ h.slots 2 = some 1 ∧ h.refs 1 = 2 ∧ h.deallocs 2 = 1 ∧ h.Accounted := by
  have r₀ : (calls (Fin 3)).Reach (fun h c => Linear h c ∧ Founded h c) (heapOf (fun _ => none) []) :=
    .init ⟨fun _ => rfl, fun _ => rfl, rfl, rfl⟩
  have r₁ := r₀.step (a := Call.new 0 0 8) (by decide) rfl
  have r₂ := r₁.step (a := Call.new 1 0 8) (by decide) rfl
  have r₃ := r₂.step (a := Call.incref 2 1) (by decide) rfl
  have r₄ := r₃.step (a := Call.chainBack 0 1) (by decide) rfl
  have r₅ := r₄.step (a := Call.new 1 0 8) (by decide) rfl
  have r₆ := r₅.step (a := Call.insert 0 1 ⟨some 1, .next 0⟩) (by decide) rfl
  have r₇ := r₆.step (a := Call.remove 0 ⟨some 2, .next 0⟩) (by decide) rfl
  exact ⟨_, r₇, by decide, by decide, by decide, by decide, ownership r₇⟩

/-- **A clone that reads a freed fragment**: the view has no reference to its source, which has been released. And a
fragment whose header does not fit into its block, as `sizeof(frag) + size` has wrapped. -/
theorem clone_freed : (∃ h : Heap (Fin 3), (calls (Fin 3)).Reach Linear h ∧
    Linear h (.clone 1 2 0 4 0) ∧ h.call (.clone 1 2 0 4 0) = .error .freed) ∧
    ∃ h : Heap (Fin 1), (calls (Fin 1)).Reach Linear h ∧ h.slots 0 = some 0 ∧ h.requests 0 < sizeofFrag := by
  have r₀ : (calls (Fin 3)).Reach Linear { heapOf (fun _ => none) [] with extent := fun _ => 4 } :=
    .init ⟨fun _ => rfl, fun _ => rfl, rfl, rfl⟩
  have r₁ := r₀.step (a := Call.newRo 0 0 ⟨.user 0, 0⟩ 4) (by decide) rfl
  have r₂ := r₁.step (a := Call.clone 1 0 0 4 0) (by decide) rfl
  have r₃ := r₂.step (a := Call.view 2 1 0 4 0) (by decide) rfl
  have r₄ := r₃.step (a := Call.decref 1) (by decide) rfl
  have s₀ : (calls (Fin 1)).Reach Linear (heapOf (fun _ => none) []) := .init ⟨fun _ => rfl, fun _ => rfl, rfl, rfl⟩
  have s₁ := s₀.step (a := Call.new 0 0 (2 ^ 64 - 1)) (by decide) rfl
  exact ⟨⟨_, r₄, by decide, rfl⟩, _, s₁, by decide, by decide⟩

end Gabs.Pbuf
