import Gabs.Pbuf.Buf
import Mathlib.Data.List.Perm.Subperm

/-!
# Packet buffers: chains and positions

- `Heap.Chain`: the fragments of a buffer; `Heap.At`: an iterator that splits them into visited and remaining ones;
- `Heap.link`, `Heap.cut`, `Heap.unref`: what the writes of the iterators do, when nothing goes wrong;
- `ciNext_at`, `ciInsert_at`, `ciRemove_at`, `ciDetach_at`: the iterators at such a position.
-/

namespace Gabs.Pbuf

open Gabs.Lib

variable {ι : Type} {h : Heap ι} {i : ι} {p v : Option Nat} {f g : Nat} {x : Frag} {l l₁ l₂ m : List Nat}
  {it : Ci ι}

/-! ## Chains -/

/-- The `next` of a fragment. -/
def Heap.next (h : Heap ι) (f : Nat) : Option Nat := (h.frags f).bind Frag.next

/-- **The fragments of the buffer `p`**, all of them live. -/
structure Heap.Chain (h : Heap ι) (p : Option Nat) (l : List Nat) : Prop where
  path : Path h.next p l none
  live : ∀ f ∈ l, ∃ x, h.frags f = some x

/-- Only fragments that have been allocated are live. -/
def Heap.Sound (h : Heap ι) : Prop := ∀ f x, h.frags f = some x → f < h.asked

theorem next_of (hx : h.frags f = some x) : h.next f = x.next := by rw [Heap.next, hx]; rfl

theorem Heap.Chain.head (hc : h.Chain p l) : p = l.head? := by
  cases l with
  | nil => exact hc.path
  | cons f l => exact hc.path.1

theorem Heap.Chain.tail (hc : h.Chain p (f :: l)) (hx : h.frags f = some x) : h.Chain x.next l :=
  ⟨next_of hx ▸ hc.path.2, fun g hg => hc.live g (List.mem_cons_of_mem _ hg)⟩

theorem Heap.Chain.unique (hc : h.Chain p l) (hc' : h.Chain p m) : l = m := hc.path.unique hc'.path

/-- The last fragment leads nowhere. -/
theorem Heap.Chain.next_last (hc : h.Chain p (m ++ [g])) (hx : h.frags g = some x) : x.next = none := by
  obtain ⟨r, -, hr⟩ := path_append.mp hc.path
  rw [← next_of hx]
  exact hr.2

theorem chain_nil : h.Chain none [] := ⟨rfl, nofun⟩

/-- A loop with fuel for more turns than `k` makes one. -/
theorem exists_fuel {k n : Nat} (hn : k < n) : ∃ m, n = m + 1 :=
  Nat.exists_eq_add_one.mpr (Nat.lt_of_le_of_lt (Nat.zero_le k) hn)

/-- The fuel of the heap is enough for a loop over a chain. -/
theorem Heap.Chain.length_lt (hc : h.Chain p l) (hs : h.Sound) : l.length < h.fuel := by
  have hsub : l ⊆ List.range h.asked := fun f hf => by
    obtain ⟨x, hx⟩ := hc.live f hf
    exact List.mem_range.mpr (hs f x hx)
  have hle := (List.Nodup.subperm hc.path.nodup hsub).length_le
  rw [List.length_range] at hle
  exact Nat.lt_succ_of_le hle

/-- The fragments from `p` on, if there are at most `n` of them and they are live. -/
def Heap.walk (h : Heap ι) : Nat → Option Nat → Option (List Nat)
  | _, none => some []
  | 0, some _ => none
  | n + 1, some f =>
    match h.frags f with
    | none => none
    | some x => (h.walk n x.next).map (f :: ·)

/-- **The fragments of a buffer**, computed. -/
def Heap.chain (h : Heap ι) (p : Option Nat) : Option (List Nat) := h.walk h.asked p

theorem chain_of_walk {n : Nat} (hw : h.walk n p = some l) : h.Chain p l := by
  induction n generalizing p l with
  | zero => cases p with
    | none => cases hw; exact chain_nil
    | some f => cases hw
  | succ n ih => cases p with
    | none => cases hw; exact chain_nil
    | some f =>
      rw [Heap.walk] at hw
      split at hw
      · cases hw
      · rename_i x hx
        obtain ⟨l', hl', rfl⟩ := Option.map_eq_some_iff.mp hw
        have ht := ih hl'
        refine ⟨⟨rfl, next_of hx ▸ ht.path⟩, fun g hg => ?_⟩
        rcases List.mem_cons.mp hg with rfl | hg
        · exact ⟨x, hx⟩
        · exact ht.live g hg

theorem Heap.Chain.walk_eq (hc : h.Chain p l) {n : Nat} (hn : l.length ≤ n) : h.walk n p = some l := by
  induction l generalizing p n with
  | nil => cases hc.path; cases n <;> rfl
  | cons f l ih =>
    obtain ⟨x, hx⟩ := hc.live f List.mem_cons_self
    obtain ⟨n, rfl⟩ := exists_fuel hn
    rw [hc.head, List.head?_cons, Heap.walk, hx]
    simp only [ih (hc.tail hx) (Nat.le_of_succ_le_succ hn), Option.map_some]

/-- The chain is found where there is one. -/
theorem chain_eq_iff (hs : h.Sound) : h.chain p = some l ↔ h.Chain p l :=
  ⟨chain_of_walk, fun hc => hc.walk_eq (Nat.le_of_lt_succ (hc.length_lt hs))⟩

/-- The chains of a heap with the same `next` pointers on live fragments. -/
theorem Heap.Chain.congr {h' : Heap ι} (hc : h.Chain p l) (hn : ∀ f ∈ l, h'.next f = h.next f)
    (hl : ∀ f ∈ l, ∃ x, h'.frags f = some x) : h'.Chain p l := ⟨hc.path.congr hn, hl⟩

/-! ## Reading -/

theorem deref_of (hx : h.frags f = some x) : h.deref (some f) = .ok x := by rw [Heap.deref, hx]

theorem modify_of (hx : h.frags f = some x) (k : Frag → Frag) : h.modify (some f) k = .ok (h.put f (k x)) := by
  simp only [Heap.modify, deref_of hx, bind, Except.bind]

theorem ciNext_of (hx : h.frags f = some x) (lastp : Link ι) : ciNext h ⟨some f, lastp⟩ = .ok ⟨x.next, .next f⟩ := by
  simp only [ciNext, deref_of hx, bind, Except.bind]

theorem ciSize_of (hx : h.frags f = some x) (lastp : Link ι) : ciSize h ⟨some f, lastp⟩ = .ok x.size := by
  simp only [ciSize, deref_of hx, bind, Except.bind]

theorem ciData_of (hx : h.frags f = some x) (lastp : Link ι) : ciData h ⟨some f, lastp⟩ = .ok x.data := by
  simp only [ciData, deref_of hx, bind, Except.bind]

theorem ciTailroom_of (hx : h.frags f = some x) (lastp : Link ι) : ciTailroom h ⟨some f, lastp⟩ = .ok x.tailroom := by
  simp only [ciTailroom, deref_of hx, bind, Except.bind]

/-- An assertion that holds. -/
theorem assert_of {c : Prop} [Decidable c] (hc : c) (h : Heap ι) : h.assert (decide c) = .ok () := by
  rw [decide_eq_true hc, Heap.assert, Bool.or_true, if_pos rfl]

/-! ## Writing -/

@[simp] theorem put_frags (h : Heap ι) (f : Nat) (x : Frag) :
    (h.put f x).frags = Function.update h.frags f (some x) := rfl

@[simp] theorem put_slots (h : Heap ι) (f : Nat) (x : Frag) : (h.put f x).slots = h.slots := rfl

@[simp] theorem put_asked (h : Heap ι) (f : Nat) (x : Frag) : (h.put f x).asked = h.asked := rfl

@[simp] theorem dealloc_frags (h : Heap ι) (a f : Nat) : (h.dealloc a f).frags = Function.update h.frags f none := rfl

@[simp] theorem dealloc_slots (h : Heap ι) (a f : Nat) : (h.dealloc a f).slots = h.slots := rfl

@[simp] theorem dealloc_asked (h : Heap ι) (a f : Nat) : (h.dealloc a f).asked = h.asked := rfl

/-! ## References -/

/-- Live fragments have references. -/
def Heap.Counted (h : Heap ι) : Prop := ∀ f x, h.frags f = some x → 0 < x.refcnt

theorem dec_of_pos {r : Nat} (hr : 0 < r) : dec r = r - 1 := if_neg (Nat.ne_of_gt hr)

/-- Fragment `f` loses one reference, and is released with the last one. -/
def Heap.drop (h : Heap ι) (f : Nat) : Heap ι :=
  match h.frags f with
  | none => h
  | some x => if 0 < dec x.refcnt then h.put f { x with refcnt := dec x.refcnt } else h.dealloc x.alloc f

/-- The first fragment of a chain loses one reference; when it is released the rest of the chain does so, too. -/
def Heap.unref (h : Heap ι) : List Nat → Heap ι
  | [] => h
  | f :: l =>
    match h.frags f with
    | none => h
    | some x => if 0 < dec x.refcnt then h.drop f else (h.drop f).unref l

@[simp] theorem drop_slots (h : Heap ι) (f : Nat) : (h.drop f).slots = h.slots := by
  unfold Heap.drop
  split
  · rfl
  · split
    · rfl
    · rfl

@[simp] theorem drop_asked (h : Heap ι) (f : Nat) : (h.drop f).asked = h.asked := by
  unfold Heap.drop
  split
  · rfl
  · split
    · rfl
    · rfl

theorem drop_frags_of_ne (hn : g ≠ f) : (h.drop f).frags g = h.frags g := by
  unfold Heap.drop
  split
  · rfl
  · split <;> exact Function.update_of_ne hn ..

theorem drop_frags (hx : h.frags f = some x) :
    (h.drop f).frags f = if 0 < dec x.refcnt then some { x with refcnt := dec x.refcnt } else none := by
  simp only [Heap.drop, hx]
  split <;> simp

theorem drop_next_of_ne (hn : g ≠ f) : (h.drop f).next g = h.next g := by rw [Heap.next, drop_frags_of_ne hn, Heap.next]

theorem Heap.Chain.drop (hc : h.Chain p l) (hf : f ∉ l) : (h.drop f).Chain p l :=
  have hne : ∀ g ∈ l, g ≠ f := fun g hg e => hf (e ▸ hg)
  hc.congr (fun g hg => drop_next_of_ne (hne g hg)) fun g hg => by rw [drop_frags_of_ne (hne g hg)]; exact hc.live g hg

theorem Heap.Sound.drop (hs : h.Sound) (f : Nat) : (h.drop f).Sound := by
  intro g y hy
  rw [drop_asked]
  by_cases e : g = f
  · subst e
    cases hx : h.frags g with
    | none =>
      rw [Heap.drop, hx] at hy
      rw [hx] at hy
      cases hy
    | some x => exact hs g x hx
  · exact hs g y (by rwa [drop_frags_of_ne e] at hy)

@[simp] theorem unref_slots (h : Heap ι) (l : List Nat) : (h.unref l).slots = h.slots := by
  induction l generalizing h with
  | nil => rfl
  | cons f l ih =>
    rw [Heap.unref]
    split
    · rfl
    · split
      · exact drop_slots h f
      · rw [ih, drop_slots]

theorem Heap.Chain.unref (hc : h.Chain p l) (hd : ∀ f ∈ m, f ∉ l) : (h.unref m).Chain p l := by
  induction m generalizing h with
  | nil => exact hc
  | cons f m ih =>
    have hdrop := hc.drop (hd f List.mem_cons_self)
    cases hx : h.frags f with
    | none => simpa only [Heap.unref, hx] using hc
    | some x =>
      simp only [Heap.unref, hx]
      split
      · exact hdrop
      · exact ih hdrop fun g hg => hd g (List.mem_cons_of_mem _ hg)

theorem Heap.Counted.drop (hn : h.Counted) (f : Nat) : (h.drop f).Counted := by
  intro g y hy
  by_cases e : g = f
  · subst e
    cases hx : h.frags g with
    | none =>
      rw [Heap.drop, hx] at hy
      exact hn g y hy
    | some x =>
      rw [drop_frags hx] at hy
      split at hy <;> cases hy
      assumption
  · exact hn g y (by rwa [drop_frags_of_ne e] at hy)

theorem Heap.Counted.unref (hn : h.Counted) (l : List Nat) : (h.unref l).Counted := by
  induction l generalizing h with
  | nil => exact hn
  | cons f l ih =>
    rw [Heap.unref]
    split
    · exact hn
    · split
      · exact hn.drop f
      · exact ih (hn.drop f)

theorem Heap.Sound.unref (hs : h.Sound) (l : List Nat) : (h.unref l).Sound := by
  induction l generalizing h with
  | nil => exact hs
  | cons f l ih =>
    rw [Heap.unref]
    split
    · exact hs
    · split
      · exact hs.drop f
      · exact ih (hs.drop f)

/-- **`gabs_pbuf_decref`** of a chain. -/
theorem decrefLoop_eq (hc : h.Chain p l) {n : Nat} (hn : l.length < n) : decrefLoop n h p = .ok (h.unref l) := by
  induction l generalizing h p n with
  | nil =>
    cases hc.path
    obtain ⟨n, rfl⟩ := exists_fuel hn
    rfl
  | cons f l ih =>
    obtain ⟨x, hx⟩ := hc.live f List.mem_cons_self
    obtain ⟨n, rfl⟩ := exists_fuel hn
    rw [hc.head, List.head?_cons, decrefLoop, deref_of hx, Heap.unref, hx]
    simp only [bind, Except.bind]
    split
    · rename_i hpos
      simp only [Heap.drop, hx, if_pos hpos]
    · rename_i hpos
      have hnd := (List.nodup_cons.mp hc.path.nodup).1
      have hdrop : (h.put f { x with refcnt := dec x.refcnt }).dealloc x.alloc f = h.drop f := by
        simp only [Heap.drop, hx, if_neg hpos, Heap.put, Heap.dealloc, Function.update_idem]
      rw [hdrop]
      exact ih ((hc.tail hx).drop hnd) (Nat.lt_of_succ_lt_succ hn)

/-! ## Positions -/

/-- The pointer that leads to the position after the fragments `l` of the buffer in slot `i`. -/
def lastp (i : ι) (l : List Nat) : Link ι :=
  match l.getLast? with
  | none => .slot i
  | some f => .next f

/-- **A position of an iterator** in the buffer in slot `i`: the fragments it has visited and those that remain. -/
structure Heap.At (h : Heap ι) (i : ι) (l₁ l₂ : List Nat) (it : Ci ι) : Prop where
  chain : h.Chain (h.slots i) (l₁ ++ l₂)
  cur : it.cur = l₂.head?
  lastp : it.lastp = lastp i l₁

@[simp] theorem lastp_nil (i : ι) : lastp i [] = .slot i := rfl

@[simp] theorem lastp_concat (i : ι) (l : List Nat) (f : Nat) : lastp i (l ++ [f]) = .next f := by
  rw [lastp, List.getLast?_concat]

theorem lastp_ne (hf : f ∉ l) : lastp i l ≠ .next f := by
  rcases List.eq_nil_or_concat l with rfl | ⟨l', g, rfl⟩
  · rw [lastp_nil]; nofun
  · rw [List.concat_eq_append, lastp_concat]
    rintro ⟨⟩
    exact hf (by simp)

/-- The fragments behind a position. -/
theorem Heap.Chain.behind (hc : h.Chain p (l₁ ++ l₂)) : h.Chain l₂.head? l₂ := by
  obtain ⟨r, -, hr⟩ := path_append.mp hc.path
  have hl : h.Chain r l₂ := ⟨hr, fun f hf => hc.live f (List.mem_append_right _ hf)⟩
  exact hl.head ▸ hl

/-- `gabs_pbuf_ci_init`. -/
theorem ciInit_at (hc : h.Chain (h.slots i) l) : h.At i [] l (ciInit h (.slot i)) := ⟨hc, hc.head, rfl⟩

/-- `gabs_pbuf_ci_next`. -/
theorem ciNext_at (ha : h.At i l₁ (f :: l₂) it) : ∃ it', ciNext h it = .ok it' ∧ h.At i (l₁ ++ [f]) l₂ it' := by
  obtain ⟨cur, lp⟩ := it
  obtain ⟨hc, rfl, rfl⟩ := ha
  obtain ⟨x, hx⟩ := hc.live f (by simp)
  refine ⟨_, ciNext_of hx _, ?_, ?_, (lastp_concat ..).symm⟩
  · rw [List.append_assoc]; exact hc
  · exact (hc.behind.tail hx).head

/-- The end of the buffer. -/
theorem Heap.At.eoi (ha : h.At i l₁ [] it) : ciEoi it = true := by
  rw [ciEoi, ha.cur]
  rfl

theorem Heap.At.not_eoi (ha : h.At i l₁ (f :: l₂) it) : ¬ ciEoi it = true := by
  rw [ciEoi, ha.cur]
  nofun

/-- `gabs_pbuf_ci_size`. -/
theorem ciSize_at (ha : h.At i l₁ (f :: l₂) it) (hx : h.frags f = some x) : ciSize h it = .ok x.size := by
  obtain ⟨cur, lp⟩ := it
  obtain rfl : cur = some f := ha.cur
  exact ciSize_of hx lp

/-- The last fragment of a chain. -/
theorem lastLoop_eq (hc : h.Chain p l) {n : Nat} (hn : l.length < n) (q : Option Nat) :
    lastLoop n h q p = .ok (l.getLast?.or q) := by
  induction l generalizing p n q with
  | nil =>
    cases hc.path
    obtain ⟨n, rfl⟩ := exists_fuel hn
    rfl
  | cons f l ih =>
    obtain ⟨x, hx⟩ := hc.live f List.mem_cons_self
    obtain ⟨n, rfl⟩ := exists_fuel hn
    rw [hc.head, List.head?_cons, lastLoop, deref_of hx]
    simp only [bind, Except.bind]
    rw [ih (hc.tail hx) (Nat.lt_of_succ_lt_succ hn), List.getLast?_cons]
    cases l.getLast? <;> rfl

/-- The position is the first one exactly when the iterator is at the head. -/
theorem Heap.At.head_iff {it : Ci ι} (ha : h.At i l₁ (f :: l₂) it) : h.slots i = some f ↔ l₁ = [] := by
  have hnd := ha.chain.path.nodup
  have hhead := ha.chain.head
  cases l₁ with
  | nil => exact iff_of_true hhead rfl
  | cons g l₁ =>
    rw [hhead]
    refine iff_of_false (fun e => ?_) nofun
    cases e
    exact (List.nodup_cons.mp hnd).1 (by simp)

/-- What the last visited fragment leads to. -/
theorem Heap.At.leads {it : Ci ι} (ha : h.At i (l ++ [g]) l₂ it) :
    (∃ x, h.frags g = some x) ∧ h.next g = l₂.head? := by
  refine ⟨ha.chain.live g (by simp), ?_⟩
  obtain ⟨q, hq, hq₂⟩ := path_append.mp ha.chain.path
  obtain ⟨r, -, hr⟩ := path_append.mp hq
  have hq' : h.next g = q := hr.2
  rw [hq']
  exact (⟨hq₂, fun f hf => ha.chain.live f (List.mem_append_right _ hf)⟩ : h.Chain q l₂).head

/-- The pointer may be written: it is none of a freed fragment. -/
def Heap.Writable (h : Heap ι) : Link ι → Prop
  | .next f => ∃ x, h.frags f = some x
  | _ => True

theorem Heap.Chain.writable (hc : h.Chain p (l₁ ++ l₂)) (i : ι) : h.Writable (Gabs.Pbuf.lastp i l₁) := by
  rcases List.eq_nil_or_concat l₁ with rfl | ⟨l', g, rfl⟩
  · exact trivial
  · rw [List.concat_eq_append, lastp_concat]
    exact hc.live g (by simp)

/-! ## Small heaps -/

/-- The heap of the fragments `l`, each in a block of 64 bytes. -/
def heapOf (slots : ι → Option Nat) (l : List Frag) : Heap ι where
  slots := slots
  frags f := l[f]?
  asked := l.length
  requests _ := 64
  grants _ := true
  released := []
  bytes _ _ := 0
  extent _ := 0
  ndebug := false

theorem heapOf_sound (slots : ι → Option Nat) (l : List Frag) : (heapOf slots l).Sound := fun _ _ hx =>
  (List.getElem?_eq_some_iff.mp hx).1

theorem heapOf_counted (slots : ι → Option Nat) {l : List Frag} (hl : ∀ x ∈ l, 0 < x.refcnt) :
    (heapOf slots l).Counted := fun _ _ hx => hl _ (List.mem_of_getElem? hx)

/-! ## Links -/

variable [DecidableEq ι]

/-- `*p = v`, for a `p` that may be written. -/
def Heap.link (h : Heap ι) (p : Link ι) (v : Option Nat) : Heap ι :=
  match p with
  | .slot i => { h with slots := Function.update h.slots i v }
  | .next f => { h with frags := Function.update h.frags f ((h.frags f).map fun x => { x with next := v }) }
  | .param => h

theorem assign_of {p : Link ι} (hw : h.Writable p) (v : Option Nat) : h.assign p v = .ok (h.link p v) := by
  cases p with
  | slot | param => rfl
  | next f =>
    obtain ⟨x, hx⟩ := hw
    rw [Heap.assign, modify_of hx, Heap.link, hx]
    rfl

@[simp] theorem link_asked (h : Heap ι) (p : Link ι) (v : Option Nat) : (h.link p v).asked = h.asked := by
  cases p <;> rfl

/-- The write changes `next` alone. -/
theorem link_frags (h : Heap ι) (p : Link ι) (v : Option Nat) (f : Nat) :
    (h.link p v).frags f = if p = .next f then (h.frags f).map fun x => { x with next := v } else h.frags f := by
  cases p with
  | slot | param => rfl
  | next g =>
    by_cases e : g = f
    · subst e; simp [Heap.link]
    · have hne : (Link.next g : Link ι) ≠ .next f := fun h => e (by cases h; rfl)
      simp only [Heap.link, Function.update_of_ne (Ne.symm e), if_neg hne]

theorem link_frags_of_ne {p : Link ι} (hp : p ≠ .next f) : (h.link p v).frags f = h.frags f := by
  rw [link_frags, if_neg hp]

theorem link_next_self (hx : h.frags f = some x) : (h.link (.next f) v).next f = v := by
  rw [Heap.next, link_frags, if_pos rfl, hx]; rfl

theorem link_next_of_ne {p : Link ι} (hp : p ≠ .next f) : (h.link p v).next f = h.next f := by
  rw [Heap.next, link_frags_of_ne hp, Heap.next]

theorem link_live {p : Link ι} (hx : ∃ x, h.frags f = some x) : ∃ x, (h.link p v).frags f = some x := by
  obtain ⟨x, hx⟩ := hx
  rw [link_frags, hx]
  split <;> exact ⟨_, rfl⟩

theorem Heap.Sound.link (hs : h.Sound) (p : Link ι) (v : Option Nat) : (h.link p v).Sound := by
  intro f x hx
  rw [link_frags] at hx
  rw [link_asked]
  split at hx
  · obtain ⟨y, hy, -⟩ := Option.map_eq_some_iff.mp hx
    exact hs f y hy
  · exact hs f x hx

/-- The fragments of a chain whose links are not written. -/
theorem Heap.Chain.link (hc : h.Chain p l) {q : Link ι} (hq : ∀ f ∈ l, q ≠ .next f) : (h.link q v).Chain p l :=
  hc.congr (fun f hf => link_next_of_ne (hq f hf)) fun f hf => link_live (hc.live f hf)

theorem Heap.Counted.link (hn : h.Counted) (q : Link ι) (v : Option Nat) : (h.link q v).Counted := by
  intro f x hx
  rw [link_frags] at hx
  split at hx
  · obtain ⟨y, hy, rfl⟩ := Option.map_eq_some_iff.mp hx
    exact hn f y hy
  · exact hn f x hx

/-- A link that is there already. -/
theorem link_eq_self (hx : h.frags f = some x) (hv : x.next = v) : h.link (.next f) v = h := by
  have hself : Function.update h.frags f ((h.frags f).map fun x => { x with next := v }) = h.frags := by
    rw [hx, Option.map_some, ← hv]
    exact (congrArg (Function.update h.frags f) hx.symm).trans (Function.update_eq_self f h.frags)
  simp only [Heap.link, hself]

theorem link_next (hx : h.frags f = some x) (v : Option Nat) :
    (h.link (.next f) v).next = Function.update h.next f v := by
  funext g
  by_cases e : f = g
  · subst e; rw [link_next_self hx, Function.update_self]
  · rw [link_next_of_ne fun h => e (by cases h; rfl), Function.update_of_ne (Ne.symm e)]

/-- Fragment `f` is taken out of its chain, and loses one reference. -/
def Heap.cut (h : Heap ι) (f : Nat) : Heap ι := (h.link (.next f) none).drop f

/-! ## Inserting and removing -/

/-- **The `next` of a fragment is redirected** to the chain `m`. -/
theorem Heap.Chain.redirect (hc : h.Chain p (l₁ ++ g :: l₂)) (hm : h.Chain v m) (hg : g ∉ m) :
    (h.link (.next g) v).Chain p (l₁ ++ g :: m) := by
  have hm' := hm.link (q := .next g) (v := v) fun f hf => by rintro ⟨⟩; exact hg hf
  have hnot : g ∉ l₁ := fun h => (List.nodup_append.mp hc.path.nodup).2.2 g h g List.mem_cons_self rfl
  obtain ⟨x, hx⟩ := hc.live g (by simp)
  obtain ⟨r, hr, hr₂⟩ := path_append.mp hc.path
  refine ⟨path_append.mpr ⟨r, ?_, hr₂.1, ?_⟩, fun f hf => ?_⟩
  · rw [link_next hx]
    exact hr.update hnot v
  · rw [link_next_self hx]
    exact hm'.path
  · rcases List.mem_append.mp hf with hf | hf
    · exact link_live (hc.live f (List.mem_append_left _ hf))
    · rcases List.mem_cons.mp hf with rfl | hf
      · exact link_live ⟨x, hx⟩
      · exact hm'.live f hf

/-- **The pointer of a position is redirected** to the chain `m`. -/
theorem Heap.Chain.splice (hc : h.Chain (h.slots i) (l₁ ++ l₂)) (hm : h.Chain p m) (hd : ∀ f ∈ m, f ∉ l₁) :
    (h.link (Gabs.Pbuf.lastp i l₁) p).Chain ((h.link (Gabs.Pbuf.lastp i l₁) p).slots i) (l₁ ++ m) := by
  rcases List.eq_nil_or_concat l₁ with rfl | ⟨l', g, rfl⟩
  · have hself : (h.link (.slot i) p).slots i = p := Function.update_self ..
    rw [lastp_nil, hself]
    exact hm.link fun f _ => nofun
  · rw [List.concat_eq_append] at hc hd ⊢
    have hg : g ∉ m := fun h => hd g h (by simp)
    rw [List.append_assoc] at hc
    rw [lastp_concat, List.append_assoc]
    exact hc.redirect hm hg

/-- The heap after the chain `m` has been inserted at a position. -/
def Heap.spliced (h : Heap ι) (i : ι) (l₁ l₂ m : List Nat) : Heap ι :=
  (h.link (lastp i m) l₂.head?).link (lastp i l₁) m.head?

/-- **`gabs_pbuf_ci_insert`** of a chain that shares no fragment with the target. -/
theorem ciInsert_at (hs : h.Sound) (ha : h.At i l₁ l₂ it) (hm : h.Chain p m) (hne : m ≠ [])
    (hd : ∀ f ∈ m, f ∉ l₁ ++ l₂) : ∃ it', ciInsert h it p = .ok (h.spliced i l₁ l₂ m, it') ∧
    (h.spliced i l₁ l₂ m).At i l₁ (m ++ l₂) it' := by
  obtain ⟨cur, lp⟩ := it
  obtain ⟨hc, rfl, rfl⟩ := ha
  obtain ⟨m', g, rfl⟩ : ∃ m' g, m = m' ++ [g] := by
    rcases List.eq_nil_or_concat m with rfl | ⟨m', g, rfl⟩
    · exact absurd rfl hne
    · exact ⟨m', g, List.concat_eq_append ..⟩
  obtain ⟨x, hx⟩ := hm.live g (by simp)
  have hg : g ∉ l₁ ++ l₂ := hd g (by simp)
  have hgm : g ∉ m' := fun h => (List.nodup_append.mp hm.path.nodup).2.2 g h g (by simp) rfl
  -- The last fragment of the chain leads on to the rest of the target.
  have hc₁ : (h.link (.next g) l₂.head?).Chain (h.slots i) (l₁ ++ l₂) := hc.link fun f hf => by
    rintro ⟨⟩; exact hg hf
  have hm₁ : (h.link (.next g) l₂.head?).Chain p ((m' ++ [g]) ++ l₂) := by
    refine ⟨path_append.mpr ⟨l₂.head?, ?_, hc₁.behind.path⟩, fun f hf => ?_⟩
    · rw [link_next hx]
      exact hm.path.redirect hgm _
    · rcases List.mem_append.mp hf with hf | hf
      · exact link_live (hm.live f hf)
      · exact hc₁.live f (List.mem_append_right _ hf)
  have hd₁ : ∀ f ∈ (m' ++ [g]) ++ l₂, f ∉ l₁ := fun f hf hf₁ => by
    rcases List.mem_append.mp hf with hf | hf
    · exact hd f hf (List.mem_append_left _ hf₁)
    · exact (List.nodup_append.mp hc.path.nodup).2.2 f hf₁ f hf rfl
  have hsp : h.spliced i l₁ l₂ (m' ++ [g]) = (h.link (.next g) l₂.head?).link (lastp i l₁) p := by
    rw [Heap.spliced, lastp_concat, ← hm.head]
  refine ⟨⟨p, lastp i l₁⟩, ?_, ?_⟩
  · rw [ciInsert, lastLoop_eq hm (hm.length_lt hs), List.getLast?_concat]
    simp only [Option.some_or, bind, Except.bind]
    rw [assign_of (p := .next g) ⟨x, hx⟩]
    simp only
    rw [assign_of (hc₁.writable i), hsp]
  · rw [hsp]
    refine ⟨hc₁.splice hm₁ hd₁, ?_, rfl⟩
    exact hm₁.head

/-- **`gabs_pbuf_ci_remove`** takes out the next fragment. -/
theorem ciRemove_at (hs : h.Sound) (ha : h.At i l₁ (f :: l₂) it) : ∃ it',
    ciRemove h it = .ok ((h.link (lastp i l₁) l₂.head?).cut f, it') ∧
    ((h.link (lastp i l₁) l₂.head?).cut f).At i l₁ l₂ it' := by
  obtain ⟨cur, lp⟩ := it
  obtain ⟨hc, rfl, rfl⟩ := ha
  obtain ⟨x, hx⟩ := hc.live f (by simp)
  have hnd := List.nodup_append.mp hc.path.nodup
  have hf₁ : f ∉ l₁ := fun h => hnd.2.2 f h f (by simp) rfl
  have hf₂ : f ∉ l₂ := (List.nodup_cons.mp hnd.2.1).1
  have hbehind := hc.behind.tail hx
  have hnext : x.next = l₂.head? := hbehind.head
  rw [hnext] at hbehind
  have hc₁ := hc.splice hbehind fun g hg h => hnd.2.2 g h g (List.mem_cons_of_mem _ hg) rfl
  have hx₁ : (h.link (lastp i l₁) l₂.head?).frags f = some x := by rw [link_frags_of_ne (lastp_ne hf₁), hx]
  have hfl : f ∉ l₁ ++ l₂ := fun h => (List.mem_append.mp h).elim hf₁ hf₂
  -- The fragment alone is a chain.
  have hself : ((h.link (lastp i l₁) l₂.head?).link (.next f) none).Chain (some f) [f] :=
    ⟨⟨rfl, link_next_self hx₁⟩, fun g hg => by rw [List.mem_singleton.mp hg]; exact link_live ⟨x, hx₁⟩⟩
  have hc₂ := (hc₁.link (v := none) (q := .next f) fun g hg => by rintro ⟨⟩; exact hfl hg).drop hfl
  refine ⟨⟨l₂.head?, lastp i l₁⟩, ?_, ?_⟩
  · simp only [ciRemove, List.head?_cons, deref_of hx, bind, Except.bind]
    rw [hnext, assign_of (hc.writable i)]
    have hmod := assign_of (p := .next f) ⟨x, hx₁⟩ none
    rw [Heap.assign] at hmod
    simp only [hmod]
    rw [gabsPbufDecref, decrefLoop_eq hself (hself.length_lt ((hs.link _ _).link _ _))]
    obtain ⟨y, hy⟩ := hself.live f List.mem_cons_self
    simp only [Heap.unref, hy, ite_self, Heap.cut]
  · have hslots : ((h.link (lastp i l₁) l₂.head?).cut f).slots = (h.link (lastp i l₁) l₂.head?).slots := by
      rw [Heap.cut, drop_slots]; rfl
    exact ⟨by rw [hslots]; exact hc₂, rfl, rfl⟩

/-- **`gabs_pbuf_ci_detach`** cuts off the remaining fragments. -/
theorem ciDetach_at (hs : h.Sound) (ha : h.At i l₁ l₂ it) :
    ciDetach h it = .ok ((h.link (lastp i l₁) none).unref l₂) ∧
    ((h.link (lastp i l₁) none).unref l₂).Chain (((h.link (lastp i l₁) none).unref l₂).slots i) l₁ := by
  obtain ⟨cur, lp⟩ := it
  obtain ⟨hc, rfl, rfl⟩ := ha
  have hnd := List.nodup_append.mp hc.path.nodup
  have hc₁ := hc.splice chain_nil nofun
  have hc₂ : (h.link (lastp i l₁) none).Chain l₂.head? l₂ :=
    hc.behind.link fun g hg => lastp_ne fun h => hnd.2.2 g h g hg rfl
  rw [List.append_nil] at hc₁
  have hc₃ := hc₁.unref fun f hf h => hnd.2.2 f h f hf rfl
  constructor
  · simp only [ciDetach, assign_of (hc.writable i), bind, Except.bind]
    rw [gabsPbufDecref, decrefLoop_eq hc₂ (hc₂.length_lt (hs.link _ _))]
  · rw [unref_slots]
    exact hc₃

end Gabs.Pbuf
