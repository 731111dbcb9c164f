import Gabs.Pbuf.Content

/-!
# Packet buffers: shrinking is slicing

- `Heap.dropped`: the fragments removed from the front; `dropLoop_eq`: the first loop of `gabs_pbuf_shrink`;
- `Heap.resize`, `keepLoop_eq`, `keep_eq`: the second loop, and what is cut off behind;
- `Shrunk`: what becomes of the fragments and their references;
- `shrink_slice`: the content is the slice asked for.
-/

namespace Gabs.Pbuf

open Gabs.Lib

variable {ι : Type} {h h' : Heap ι} {i : ι} {p : Option Nat} {f g k : Nat} {x : Frag} {l l₁ l₂ m : List Nat} {it : Ci ι}

/-! ## References -/

@[simp] theorem drop_bytes (h : Heap ι) (f : Nat) : (h.drop f).bytes = h.bytes := by
  unfold Heap.drop
  split
  · rfl
  · split
    · rfl
    · rfl

@[simp] theorem unref_bytes (h : Heap ι) (l : List Nat) : (h.unref l).bytes = h.bytes := by
  induction l generalizing h with
  | nil => rfl
  | cons f l ih =>
    rw [Heap.unref]
    split
    · rfl
    · split
      · exact drop_bytes h f
      · rw [ih, drop_bytes]

theorem refs_congr (hf : h'.frags f = h.frags f) : h'.refs f = h.refs f := by rw [Heap.refs, hf, Heap.refs]

/-- A fragment loses one reference. -/
theorem drop_refs (hn : h.Counted) (hx : ∃ x, h.frags f = some x) : (h.drop f).refs f + 1 = h.refs f := by
  obtain ⟨x, hx⟩ := hx
  have hpos := hn f x hx
  rw [refs_of hx, Heap.refs, drop_frags hx, dec_of_pos hpos]
  split
  · simp only [Option.elim]
    omega
  · simp only [Option.elim]
    omega

theorem unref_frags_of_notMem (hg : g ∉ l) : (h.unref l).frags g = h.frags g := by
  induction l generalizing h with
  | nil => rfl
  | cons f l ih =>
    rw [List.mem_cons, not_or] at hg
    rw [Heap.unref]
    split
    · rfl
    · split
      · exact drop_frags_of_ne hg.1
      · rw [ih hg.2, drop_frags_of_ne hg.1]

/-- **References along a chain**: a fragment loses one when all those before it lose their only one. -/
theorem unref_refs (hn : h.Counted) (hl : ∀ f ∈ l, ∃ x, h.frags f = some x) (hnd : l.Nodup) {a b : List Nat}
    (e : l = a ++ f :: b) : (h.unref l).refs f + (if ∀ g ∈ a, h.refs g = 1 then 1 else 0) = h.refs f := by
  induction l generalizing h a with
  | nil => simp at e
  | cons g l ih =>
    obtain ⟨x, hx⟩ := hl g List.mem_cons_self
    obtain ⟨hg, hnd⟩ := List.nodup_cons.mp hnd
    have hdec := dec_of_pos (hn g x hx)
    cases a with
    | nil =>
      cases e
      have hdrop := drop_refs hn ⟨x, hx⟩
      simp only [List.not_mem_nil, false_imp_iff, implies_true, if_true]
      simp only [Heap.unref, hx]
      split
      · exact hdrop
      · rwa [refs_congr (unref_frags_of_notMem hg)]
    | cons g' a =>
      cases e
      have hfg : f ≠ g := fun h => hg (by simp [h])
      simp only [Heap.unref, hx, List.forall_mem_cons, refs_of hx]
      split
      · rename_i hpos
        rw [if_neg (by omega), refs_congr (drop_frags_of_ne hfg)]
        rfl
      · rename_i hpos
        have hone : x.refcnt = 1 := by have := hn g x hx; omega
        have hne : ∀ g' ∈ a ++ f :: b, g' ≠ g := fun g' hg' h => hg (h ▸ hg')
        have hih := ih (hn.drop g) (fun g' hg' => by
          rw [drop_frags_of_ne (hne g' hg')]; exact hl g' (List.mem_cons_of_mem _ hg')) hnd rfl
        rw [refs_congr (drop_frags_of_ne hfg)] at hih
        have hall : (∀ g' ∈ a, (h.drop g).refs g' = 1) ↔ x.refcnt = 1 ∧ ∀ g' ∈ a, h.refs g' = 1 := by
          rw [and_iff_right hone]
          exact forall₂_congr fun g' hg' => by
            rw [refs_congr (drop_frags_of_ne (hne g' (List.mem_append_left _ hg')))]
        rwa [if_congr hall rfl rfl] at hih

/-! ## Fragments that are trimmed -/

/-- Fragment `f` is changed by `k`. -/
def Heap.adjust (h : Heap ι) (f : Nat) (k : Frag → Frag) : Heap ι :=
  { h with frags := Function.update h.frags f ((h.frags f).map k) }

/-- The first `n` bytes are released. -/
def Frag.advance (n : Nat) (x : Frag) : Frag := { x with size := x.size - n, data := x.data.add n }

/-- The first `n` bytes are kept. -/
def Frag.resize (n : Nat) (x : Frag) : Frag := { x with size := n }

theorem modify_adjust (hx : h.frags f = some x) (k : Frag → Frag) : h.modify (some f) k = .ok (h.adjust f k) := by
  rw [modify_of hx, Heap.adjust, hx]
  rfl

theorem adjust_frags_of_ne (hg : g ≠ f) (h : Heap ι) (k : Frag → Frag) : (h.adjust f k).frags g = h.frags g :=
  Function.update_of_ne hg ..

theorem adjust_frags_self (h : Heap ι) (f : Nat) (k : Frag → Frag) : (h.adjust f k).frags f = (h.frags f).map k :=
  Function.update_self ..

theorem adjust_frags (hx : h.frags f = some x) (k : Frag → Frag) : (h.adjust f k).frags f = some (k x) := by
  rw [adjust_frags_self, hx, Option.map_some]

/-- A change that does nothing. -/
theorem adjust_eq_self (hx : h.frags f = some x) {k : Frag → Frag} (hk : k x = x) : h.adjust f k = h := by
  have hself : Function.update h.frags f ((h.frags f).map k) = h.frags := by
    rw [hx, Option.map_some, hk]
    exact (congrArg (Function.update h.frags f) hx.symm).trans (Function.update_eq_self f h.frags)
  simp only [Heap.adjust, hself]

theorem Heap.Sound.adjust (hs : h.Sound) (f : Nat) (k : Frag → Frag) : (h.adjust f k).Sound := by
  intro g y hy
  by_cases e : g = f
  · subst e
    rw [adjust_frags_self] at hy
    obtain ⟨x, hx, -⟩ := Option.map_eq_some_iff.mp hy
    exact hs g x hx
  · exact hs g y (by rwa [adjust_frags_of_ne e] at hy)

/-- Chains stay when the `next` of the fragment does. -/
theorem Heap.Chain.adjust (hc : h.Chain p l) (f : Nat) {k : Frag → Frag} (hk : ∀ x, (k x).next = x.next) :
    (h.adjust f k).Chain p l := by
  refine hc.congr (fun g hg => ?_) fun g hg => ?_
  · obtain ⟨x, hx⟩ := hc.live g hg
    by_cases e : g = f
    · subst e
      rw [next_of (adjust_frags hx k), hk, next_of hx]
    · rw [Heap.next, adjust_frags_of_ne e, Heap.next]
  · obtain ⟨x, hx⟩ := hc.live g hg
    by_cases e : g = f
    · subst e
      exact ⟨_, adjust_frags hx k⟩
    · exact ⟨x, by rw [adjust_frags_of_ne e, hx]⟩

theorem adjust_refs (h : Heap ι) (f : Nat) (k : Frag → Frag) (hk : ∀ x, (k x).refcnt = x.refcnt) (g : Nat) :
    (h.adjust f k).refs g = h.refs g := by
  by_cases e : g = f
  · subst e
    rw [Heap.refs, adjust_frags_self, Heap.refs]
    cases h.frags g with
    | none => rfl
    | some x => exact hk x
  · exact refs_congr (adjust_frags_of_ne e h k)

theorem Heap.Counted.adjust (hn : h.Counted) (f : Nat) {k : Frag → Frag} (hk : ∀ x, (k x).refcnt = x.refcnt) :
    (h.adjust f k).Counted := by
  intro g y hy
  by_cases e : g = f
  · subst e
    rw [adjust_frags_self] at hy
    obtain ⟨x, hx, rfl⟩ := Option.map_eq_some_iff.mp hy
    rw [hk]
    exact hn g x hx
  · exact hn g y (by rwa [adjust_frags_of_ne e] at hy)

/-! ## Links and bytes -/

variable [DecidableEq ι]

@[simp] theorem link_bytes (h : Heap ι) (p : Link ι) (v : Option Nat) : (h.link p v).bytes = h.bytes := by
  cases p <;> rfl

theorem link_refs (h : Heap ι) (p : Link ι) (v : Option Nat) (f : Nat) : (h.link p v).refs f = h.refs f := by
  rw [Heap.refs, link_frags, Heap.refs]
  split
  · cases h.frags f <;> rfl
  · rfl

theorem cut_frags_of_ne (hg : g ≠ f) : (h.cut f).frags g = h.frags g := by
  rw [Heap.cut, drop_frags_of_ne hg, link_frags_of_ne (by rintro ⟨⟩; exact hg rfl)]

theorem cut_refs (hn : h.Counted) (hx : ∃ x, h.frags f = some x) : (h.cut f).refs f + 1 = h.refs f := by
  rw [Heap.cut, drop_refs (hn.link _ _) (link_live hx), link_refs]

/-! ## The front -/

/-- The heap after the fragments `l` have been removed from the front of the buffer in slot `i`, which `l₂` follow. -/
def Heap.dropped (h : Heap ι) (i : ι) (l₂ : List Nat) : List Nat → Heap ι
  | [] => h
  | f :: l => ((h.link (.slot i) (l ++ l₂).head?).cut f).dropped i l₂ l

theorem dropped_frags_of_notMem (hg : g ∉ l) : (h.dropped i l₂ l).frags g = h.frags g := by
  induction l generalizing h with
  | nil => rfl
  | cons f l ih =>
    rw [List.mem_cons, not_or] at hg
    rw [Heap.dropped, ih hg.2, cut_frags_of_ne hg.1]
    rfl

@[simp] theorem dropped_bytes (h : Heap ι) (i : ι) (l₂ l : List Nat) : (h.dropped i l₂ l).bytes = h.bytes := by
  induction l generalizing h with
  | nil => rfl
  | cons f l ih => rw [Heap.dropped, ih, Heap.cut, drop_bytes, link_bytes, link_bytes]

theorem dropped_slots_of_ne {j : ι} (hj : j ≠ i) (h : Heap ι) (l₂ l : List Nat) :
    (h.dropped i l₂ l).slots j = h.slots j := by
  induction l generalizing h with
  | nil => rfl
  | cons f l ih =>
    rw [Heap.dropped, ih, Heap.cut, drop_slots]
    exact Function.update_of_ne hj ..

theorem Heap.Counted.dropped (hn : h.Counted) (i : ι) (l₂ l : List Nat) : (h.dropped i l₂ l).Counted := by
  induction l generalizing h with
  | nil => exact hn
  | cons f l ih => exact ih (((hn.link _ _).link _ _).drop f)

theorem Heap.Sound.dropped (hs : h.Sound) (i : ι) (l₂ l : List Nat) : (h.dropped i l₂ l).Sound := by
  induction l generalizing h with
  | nil => exact hs
  | cons f l ih => exact ih (((hs.link _ _).link _ _).drop f)

/-- **Each removed fragment loses one reference.** -/
theorem dropped_refs (hn : h.Counted) (hl : ∀ f ∈ l, ∃ x, h.frags f = some x) (hnd : l.Nodup) (hf : f ∈ l) :
    (h.dropped i l₂ l).refs f + 1 = h.refs f := by
  induction l generalizing h with
  | nil => cases hf
  | cons g l ih =>
    obtain ⟨hg, hnd⟩ := List.nodup_cons.mp hnd
    rw [Heap.dropped]
    rcases List.mem_cons.mp hf with rfl | hf
    · have hlive := hl f List.mem_cons_self
      rw [refs_congr (dropped_frags_of_notMem hg), cut_refs (hn.link _ _) (link_live hlive), link_refs]
    · have hne : ∀ f ∈ l, f ≠ g := fun f hf e => hg (e ▸ hf)
      have hcut : ((h.link (.slot i) (l ++ l₂).head?).cut g).Counted := ((hn.link _ _).link _ _).drop g
      have hlive : ∀ f ∈ l, ∃ x, ((h.link (.slot i) (l ++ l₂).head?).cut g).frags f = some x := fun f hf => by
        rw [cut_frags_of_ne (hne f hf)]
        exact link_live (hl f (List.mem_cons_of_mem _ hf))
      rw [ih hcut hlive hnd hf, refs_congr (cut_frags_of_ne (hne f hf)), link_refs]

/-- **The first loop of `gabs_pbuf_shrink`** removes the fragments that end before the offset. -/
theorem dropLoop_eq (hs : h.Sound) (hc : h.Chain (h.slots i) l) {n offset bytes : Nat} (hn : l.length < n)
    (hb : bytes ≤ offset) (ht : bytes + h.total l < 2 ^ 64) : ∃ l₁ l₂, l = l₁ ++ l₂ ∧
      dropLoop offset n h ⟨h.slots i, .slot i⟩ bytes =
        .ok (h.dropped i l₂ l₁, ⟨l₂.head?, .slot i⟩, bytes + h.total l₁) ∧
      (h.dropped i l₂ l₁).Chain ((h.dropped i l₂ l₁).slots i) l₂ ∧ bytes + h.total l₁ ≤ offset ∧
      ∀ f ∈ l₂.head?, offset < bytes + h.total l₁ + h.size f := by
  induction l generalizing h n bytes with
  | nil =>
    obtain ⟨n, rfl⟩ := exists_fuel hn
    refine ⟨[], [], rfl, ?_, hc, hb, nofun⟩
    rw [hc.head]
    rfl
  | cons f l ih =>
    obtain ⟨x, hx⟩ := hc.live f List.mem_cons_self
    obtain ⟨n, rfl⟩ := exists_fuel hn
    rw [total_cons] at ht
    have hslot : h.slots i = some f := hc.head
    have hwrap : wrap (bytes + x.size) = bytes + x.size := wrap_of_lt (by rw [size_of hx] at ht; omega)
    have heoi : ciEoi (⟨some f, .slot i⟩ : Ci ι) = false := rfl
    rw [hslot]
    simp only [dropLoop, heoi, Bool.false_eq_true, if_false, ciSize_of hx, bind, Except.bind, hwrap]
    by_cases hlt : offset < bytes + x.size
    · refine ⟨[], f :: l, rfl, ?_, hc, hb, fun g hg => ?_⟩
      · rw [if_pos hlt]
        rfl
      · cases hg
        rwa [size_of hx]
    · rw [if_neg hlt]
      obtain ⟨it', hrem, hat⟩ := ciRemove_at hs (ciInit_at hc)
      rw [lastp_nil] at hrem hat
      obtain ⟨cur, lp⟩ := it'
      obtain ⟨hc', hcur, hlp⟩ := hat
      rw [ciInit, hslot] at hrem
      have hf : f ∉ l := (List.nodup_cons.mp hc.path.nodup).1
      have hsame : ∀ g ∈ l, ((h.link (.slot i) l.head?).cut f).frags g = h.frags g := fun g hg =>
        cut_frags_of_ne fun e => hf (e ▸ hg)
      have htot := total_congr hsame
      have hcur' : cur = ((h.link (.slot i) l.head?).cut f).slots i := by
        rw [hc'.head]
        exact hcur
      have hs' : ((h.link (.slot i) l.head?).cut f).Sound := ((hs.link _ _).link _ _).drop f
      obtain ⟨l₁, l₂, rfl, hloop, hchain, hle, hlast⟩ := ih hs' hc'
        (Nat.lt_of_succ_lt_succ hn) (Nat.le_of_not_lt hlt) (by rw [htot]; rw [size_of hx] at ht; omega)
      have htot₁ := total_congr fun g hg => hsame g (List.mem_append_left l₂ hg)
      rw [htot₁] at hloop hle
      refine ⟨f :: l₁, l₂, rfl, ?_, hchain, ?_, fun g hg => ?_⟩
      · simp only [hrem]
        rw [hcur', show lp = Link.slot i from hlp, hloop, total_cons, size_of hx, Nat.add_assoc]
        rfl
      · rw [total_cons, size_of hx]
        omega
      · have hg' : g ∈ l₁ ++ l₂ := List.mem_append_right _ (List.mem_of_mem_head? hg)
        have := hlast g hg
        rw [htot₁, size_congr (hsame g hg')] at this
        rw [total_cons, size_of hx]
        omega

/-! ## The back -/

omit [DecidableEq ι] in
/-- Where the second loop of `gabs_pbuf_shrink` stops, and how many bytes it keeps there. -/
theorem keepLoop_eq (ha : h.At i l₁ l₂ it) {n : Nat} (hn : l₂.length < n) (bytes rem : Nat) :
    ∃ it' b, keepLoop h n it bytes rem = .ok (it', b) ∧
      (h.At i (l₁ ++ l₂) [] it' ∧ (l₂ = [] ∨ h.total l₂ < rem) ∨
      ∃ a f t, l₂ = a ++ f :: t ∧ h.At i (l₁ ++ a) (f :: t) it' ∧ b = rem - h.total a ∧ (a = [] ∨ h.total a < rem) ∧
        rem ≤ h.total a + h.size f) := by
  induction l₂ generalizing l₁ it n bytes rem with
  | nil =>
    obtain ⟨n, rfl⟩ := exists_fuel hn
    exact ⟨it, bytes, by rw [keepLoop, if_pos ha.eoi], .inl ⟨by rwa [List.append_nil], .inl rfl⟩⟩
  | cons f l₂ ih =>
    obtain ⟨n, rfl⟩ := exists_fuel hn
    obtain ⟨x, hx⟩ := ha.chain.live f (by simp)
    rw [keepLoop, if_neg ha.not_eoi, ciSize_at ha hx]
    simp only [bind, Except.bind, sub_of_le (Nat.min_le_right x.size rem)]
    by_cases hle : rem ≤ x.size
    · rw [if_pos (by omega)]
      refine ⟨it, _, rfl, .inr ⟨[], f, l₂, rfl, by rwa [List.append_nil], ?_, .inl rfl, ?_⟩⟩
      · rw [total_nil]
        omega
      · rw [size_of hx, total_nil]
        omega
    · rw [if_neg (by omega)]
      obtain ⟨it₁, hnext, ha₁⟩ := ciNext_at ha
      rw [hnext]
      obtain ⟨it', b, hloop, hend⟩ := ih ha₁ (Nat.lt_of_succ_lt_succ hn) (min x.size rem) (rem - min x.size rem)
      refine ⟨it', b, hloop, ?_⟩
      rcases hend with ⟨ha', hle'⟩ | ⟨a, f', t, rfl, ha', hb, hlo, hhi⟩
      · refine .inl ⟨by rwa [List.append_assoc] at ha', .inr ?_⟩
        rw [total_cons, size_of hx]
        rcases hle' with rfl | hlt
        · rw [total_nil]
          omega
        · omega
      · have hlt : h.total a < rem - min x.size rem := by
          rcases hlo with rfl | hlt
          · rw [total_nil]
            omega
          · exact hlt
        refine .inr ⟨f :: a, f', t, rfl, by rwa [List.append_assoc] at ha', ?_, .inr ?_, ?_⟩
        · rw [total_cons, size_of hx]
          omega
        · rw [total_cons, size_of hx]
          omega
        · rw [total_cons, size_of hx]
          omega

/-- The heap after the first `k` bytes of fragment `f` have been kept, and the fragments `t` behind it cut off. -/
def Heap.kept (h : Heap ι) (f k : Nat) (t : List Nat) : Heap ι :=
  ((h.adjust f (Frag.resize k)).link (.next f) none).unref t

/-- **The second part of `gabs_pbuf_shrink`** keeps everything, or cuts off what is behind the last byte kept. -/
theorem keep_eq (hs : h.Sound) (ha : h.At i [] l it) (size : Nat) :
    keep h it size = .ok h ∧ (l = [] ∨ h.total l < size) ∨
    ∃ a f t, l = a ++ f :: t ∧ keep h it size = .ok (h.kept f (size - h.total a) t) ∧ (a = [] ∨ h.total a < size) ∧
      size ≤ h.total a + h.size f ∧ (h.kept f (size - h.total a) t).Chain ((h.kept f (size - h.total a) t).slots i)
        (a ++ [f]) := by
  obtain ⟨it', b, hloop, hend⟩ := keepLoop_eq ha (ha.chain.length_lt hs) 0 size
  rcases hend with ⟨ha', hle⟩ | ⟨a, f, t, rfl, ha', rfl, hlo, hhi⟩
  · exact .inl ⟨by simp only [keep, hloop, bind, Except.bind, if_pos ha'.eoi], hle⟩
  · refine .inr ⟨a, f, t, rfl, ?_⟩
    obtain ⟨x, hx⟩ := ha'.chain.live f (by simp)
    obtain ⟨cur, lp⟩ := it'
    obtain rfl : cur = some f := ha'.cur
    have hle : size - h.total a ≤ x.size := by rw [size_of hx] at hhi; omega
    -- The bytes behind the last one kept are released, if there are any.
    have hrel : size - h.total a < x.size → ∃ q, ciReleaseTail h ⟨some f, lp⟩ (sub x.size (size - h.total a)) =
        .ok (h.adjust f (Frag.resize (size - h.total a)), q) := by
      intro hlt
      have hsub : sub x.size (sub x.size (size - h.total a)) = size - h.total a := by
        rw [sub_of_le (Nat.le_of_lt hlt), sub_of_le (Nat.sub_le _ _)]
        omega
      have hok : h.assert (decide (sub x.size (size - h.total a) ≤ x.size)) = .ok () :=
        assert_of (by rw [sub_of_le (Nat.le_of_lt hlt)]; exact Nat.sub_le _ _) h
      simp only [ciReleaseTail, deref_of hx, bind, Except.bind, hok, modify_of hx, hsub]
      simp only [Heap.adjust, hx, Option.map_some]
      exact ⟨_, rfl⟩
    have hall : ¬ size - h.total a < x.size → h.adjust f (Frag.resize (size - h.total a)) = h := by
      intro hge
      rw [adjust_eq_self hx]
      rw [Frag.resize, show size - h.total a = x.size by omega]
    have hx' := adjust_frags hx (Frag.resize (size - h.total a))
    have hat : (h.adjust f (Frag.resize (size - h.total a))).At i ([] ++ a) (f :: t) ⟨some f, lp⟩ :=
      ⟨ha'.chain.adjust f fun _ => rfl, rfl, ha'.lastp⟩
    obtain ⟨it₂, hnext, hat₂⟩ := ciNext_at hat
    have hkeep : keep h it size =
        if ciEoi it₂ = true then .ok (h.adjust f (Frag.resize (size - h.total a)))
        else ciDetach (h.adjust f (Frag.resize (size - h.total a))) it₂ := by
      have heoi : ¬ ciEoi (⟨some f, lp⟩ : Ci ι) = true := nofun
      simp only [keep, hloop, bind, Except.bind, if_neg heoi, ciSize_of hx]
      split
      · rename_i hlt
        obtain ⟨q, hq⟩ := hrel hlt
        simp only [hq, hnext]
      · rename_i hge
        rw [hall hge] at hnext ⊢
        simp only [hnext]
    obtain ⟨hdet, hch⟩ := ciDetach_at (hs.adjust f _) hat₂
    rw [List.nil_append, lastp_concat] at hdet hch
    refine ⟨?_, hlo, hhi, hch⟩
    rw [hkeep, hdet, Heap.kept]
    cases t with
    | nil =>
      have hnone : x.next = none := (ha'.chain.behind.tail hx).head
      rw [if_pos hat₂.eoi, link_eq_self hx' hnone]
      rfl
    | cons g t =>
      rw [if_neg hat₂.not_eoi]

/-! ## The slice -/

/-- What the first loop has done: the fragments `l₁` are gone, and `l₂` begins at the offset. -/
structure Front (h h₁ : Heap ι) (i : ι) (offset : Nat) (l₁ l₂ : List Nat) : Prop where
  sound : h₁.Sound
  counted : h₁.Counted
  addrs : h₁.addrs l₂ = (h.addrs (l₁ ++ l₂)).drop offset
  gone : ∀ f ∈ l₁, h₁.refs f + 1 = h.refs f
  same : ∀ f, f ∉ l₁ → h₁.refs f = h.refs f
  others : ∀ f, f ∉ l₁ ++ l₂ → h₁.frags f = h.frags f
  frags : ∀ f ∈ l₂, ∀ x, h.frags f = some x → ∃ n, h₁.frags f = some (x.advance n) ∧ (n = 0 ∨ n < x.size)
  slots : ∀ j, j ≠ i → h₁.slots j = h.slots j
  bytes : h₁.bytes = h.bytes

omit [DecidableEq ι] in
theorem front_refl (hs : h.Sound) (hn : h.Counted) (i : ι) (l : List Nat) : Front h h i 0 [] l :=
  ⟨hs, hn, rfl, nofun, fun _ _ => rfl, fun _ _ => rfl, fun _ _ _ hx => ⟨0, hx, .inl rfl⟩, fun _ _ => rfl, rfl⟩

theorem front_dropped (hs : h.Sound) (hn : h.Counted) (hc : h.Chain p (l₁ ++ l₂)) :
    Front h (h.dropped i l₂ l₁) i (h.total l₁) l₁ l₂ := by
  have hnd := List.nodup_append.mp hc.path.nodup
  have hlive : ∀ f ∈ l₁, ∃ x, h.frags f = some x := fun f hf => hc.live f (List.mem_append_left _ hf)
  have hsame : ∀ f, f ∉ l₁ → (h.dropped i l₂ l₁).frags f = h.frags f := fun f hf => dropped_frags_of_notMem hf
  refine ⟨hs.dropped i l₂ l₁, hn.dropped i l₂ l₁, ?_, fun f hf => dropped_refs hn hlive hnd.1 hf,
    fun f hf => refs_congr (hsame f hf), fun f hf => hsame f fun h => hf (List.mem_append_left _ h),
    fun f hf x hx => ⟨0, (hsame f fun h => hnd.2.2 f h f hf rfl).trans hx, .inl rfl⟩,
    fun j hj => dropped_slots_of_ne hj .., dropped_bytes ..⟩
  rw [addrs_congr fun f hf => hsame f fun h => hnd.2.2 f h f hf rfl, addrs_append, ← length_addrs hlive, List.drop_left]

omit [DecidableEq ι] in
/-- The first fragment that remains is trimmed. -/
theorem Front.trim {h₁ : Heap ι} {n : Nat} (hF : Front h h₁ i k l₁ (f :: l₂)) (hx : h₁.frags f = some x) (hf : f ∉ l₂)
    (hsame : h₁.frags f = h.frags f) (hlt : n < x.size) :
    Front h (h₁.adjust f (Frag.advance n)) i (k + n) l₁ (f :: l₂) := by
  have hne : ∀ g, g ∉ l₁ ++ f :: l₂ → g ≠ f := fun g hg e => hg (by simp [e])
  refine ⟨hF.sound.adjust f _, hF.counted.adjust f fun _ => rfl, ?_, fun g hg => ?_, fun g hg => ?_, fun g hg => ?_,
    fun g hg y hy => ?_, hF.slots, hF.bytes⟩
  · have hsame : ∀ g ∈ l₂, (h₁.adjust f (Frag.advance n)).frags g = h₁.frags g := fun g hg =>
      adjust_frags_of_ne (fun e => hf (by rw [← e]; exact hg)) ..
    rw [addrs_cons (adjust_frags hx _), addrs_congr hsame, Frag.advance, addrs_release_head, ← List.drop_drop,
      ← hF.addrs, addrs_cons hx, List.drop_append_of_le_length (by rw [addrs_length]; exact Nat.le_of_lt hlt)]
  · rw [adjust_refs h₁ f (Frag.advance n) (fun _ => rfl), hF.gone g hg]
  · rw [adjust_refs h₁ f (Frag.advance n) (fun _ => rfl), hF.same g hg]
  · rw [adjust_frags_of_ne (hne g hg), hF.others g hg]
  · by_cases e : g = f
    · subst e
      obtain rfl : x = y := Option.some.inj (hx.symm.trans (hsame.trans hy))
      exact ⟨n, adjust_frags hx _, .inr hlt⟩
    · obtain ⟨m, hm, hm'⟩ := hF.frags g hg y hy
      exact ⟨m, by rw [adjust_frags_of_ne e, hm], hm'⟩

/-- **The first part of `gabs_pbuf_shrink`.** -/
theorem front_eq (hs : h.Sound) (hn : h.Counted) (hc : h.Chain (h.slots i) l) (ht : h.total l < 2 ^ 64)
    (offset size : Nat) : ∃ l₁ l₂ h₁ it, l = l₁ ++ l₂ ∧ gabsPbufShrink h i offset size = keep h₁ it size ∧
      h₁.At i [] l₂ it ∧ Front h h₁ i offset l₁ l₂ := by
  rcases Nat.eq_zero_or_pos offset with rfl | hpos
  · exact ⟨[], l, h, ciInit h (.slot i), rfl, by rw [gabsPbufShrink, if_neg (Nat.lt_irrefl 0)], ciInit_at hc,
      front_refl hs hn i l⟩
  · obtain ⟨l₁, l₂, rfl, hloop, hchain, hle, hlast⟩ :=
      dropLoop_eq hs hc (hc.length_lt hs) (Nat.zero_le offset) (by omega)
    rw [Nat.zero_add] at hloop hle hlast
    have hF : Front h (h.dropped i l₂ l₁) i (h.total l₁) l₁ l₂ := front_dropped hs hn hc
    have hstep : gabsPbufShrink h i offset size = if l₂ = [] then .ok (h.dropped i l₂ l₁) else
        if h.total l₁ < offset then (do
          let r ← ciReleaseHead (h.dropped i l₂ l₁) ⟨l₂.head?, .slot i⟩ (sub offset (h.total l₁))
          keep r.1 ⟨l₂.head?, .slot i⟩ size)
        else keep (h.dropped i l₂ l₁) ⟨l₂.head?, .slot i⟩ size := by
      rw [gabsPbufShrink, if_pos hpos, ciInit, hloop]
      simp only [bind, Except.bind]
      cases l₂ <;> rfl
    cases l₂ with
    | nil =>
      refine ⟨l₁, [], h.dropped i [] l₁, ⟨none, .slot i⟩, rfl, ?_, ⟨hchain, rfl, rfl⟩, { hF with addrs := ?_ }⟩
      · rw [hstep, if_pos rfl]
        rfl
      · rw [List.drop_eq_nil_of_le (by rw [length_addrs hc.live, List.append_nil]; exact hle)]
        rfl
    | cons f t =>
      obtain ⟨x, hx⟩ := hchain.live f List.mem_cons_self
      have hfl : f ∉ l₁ := fun h => (List.nodup_append.mp hc.path.nodup).2.2 f h f (by simp) rfl
      have hsame : (h.dropped i (f :: t) l₁).frags f = h.frags f := dropped_frags_of_notMem hfl
      have hlt : offset - h.total l₁ < x.size := by
        have hf := hlast f rfl
        rw [← size_congr hsame, size_of hx] at hf
        omega
      have hft : f ∉ t := (List.nodup_cons.mp hchain.path.nodup).1
      have hF' := hF.trim hx hft hsame hlt
      rw [Nat.add_sub_of_le hle] at hF'
      refine ⟨l₁, f :: t, _, ⟨some f, .slot i⟩, rfl, ?_,
        ⟨hchain.adjust f (k := Frag.advance _) fun _ => rfl, rfl, rfl⟩, hF'⟩
      rw [hstep, if_neg (List.cons_ne_nil f t), List.head?_cons]
      split
      · have hok : (h.dropped i (f :: t) l₁).assert (decide (offset - h.total l₁ ≤ x.size)) = .ok () :=
          assert_of (Nat.le_of_lt hlt) _
        simp only [ciReleaseHead, sub_of_le hle, deref_of hx, bind, Except.bind, hok, modify_of hx,
          sub_of_le (Nat.le_of_lt hlt)]
        simp only [Heap.adjust, hx, Option.map_some]
        rfl
      · rename_i habove
        rw [adjust_eq_self hx]
        rw [Frag.advance, show offset - h.total l₁ = 0 by omega]
        rfl

/-! ## What is cut off behind -/

@[simp] theorem kept_slots (h : Heap ι) (f k : Nat) (t : List Nat) : (h.kept f k t).slots = h.slots := unref_slots ..

@[simp] theorem kept_bytes (h : Heap ι) (f k : Nat) (t : List Nat) : (h.kept f k t).bytes = h.bytes := unref_bytes ..

theorem Heap.Counted.kept (hn : h.Counted) (f k : Nat) (t : List Nat) : (h.kept f k t).Counted :=
  ((hn.adjust f (k := Frag.resize k) fun _ => rfl).link _ _).unref t

theorem Heap.Sound.kept (hs : h.Sound) (f k : Nat) (t : List Nat) : (h.kept f k t).Sound :=
  ((hs.adjust f _).link _ _).unref t

theorem kept_frags_of_ne (hf : g ≠ f) (hg : g ∉ m) : (h.kept f k m).frags g = h.frags g := by
  rw [Heap.kept, unref_frags_of_notMem hg, link_frags_of_ne (by rintro ⟨⟩; exact hf rfl), adjust_frags_of_ne hf]

theorem kept_frags (hx : h.frags f = some x) (hf : f ∉ m) :
    (h.kept f k m).frags f = some { x.resize k with next := none } := by
  rw [Heap.kept, unref_frags_of_notMem hf, link_frags, if_pos rfl, adjust_frags hx, Option.map_some]

/-- The references of a fragment before those cut off. -/
theorem kept_refs_of_notMem (hg : g ∉ m) : (h.kept f k m).refs g = h.refs g := by
  rw [Heap.kept, refs_congr (unref_frags_of_notMem hg), link_refs, adjust_refs h f (Frag.resize k) fun _ => rfl]

/-- The references of a fragment that is cut off. -/
theorem kept_refs (hn : h.Counted) (hl : ∀ f ∈ m, ∃ x, h.frags f = some x) (hnd : m.Nodup) (hf : f ∉ m)
    {a b : List Nat} (e : m = a ++ g :: b) :
    (h.kept f k m).refs g + (if ∀ g ∈ a, h.refs g = 1 then 1 else 0) = h.refs g := by
  have hn' : ((h.adjust f (Frag.resize k)).link (.next f) none).Counted :=
    (hn.adjust f (k := Frag.resize k) fun _ => rfl).link _ _
  have hrefs : ∀ g, ((h.adjust f (Frag.resize k)).link (.next f) none).refs g = h.refs g := fun g => by
    rw [link_refs, adjust_refs h f (Frag.resize k) fun _ => rfl]
  have hlive : ∀ g ∈ m, ∃ x, ((h.adjust f (Frag.resize k)).link (.next f) none).frags g = some x := fun g hg =>
    link_live (by rw [adjust_frags_of_ne fun e => hf (by rw [← e]; exact hg)]; exact hl g hg)
  have hall := unref_refs hn' hlive hnd e
  simp only [hrefs] at hall
  exact hall

/-- The addresses of what is kept. -/
theorem kept_addrs (hc : h.Chain p (l ++ f :: m)) (hle : h.total l ≤ k) (hk : k ≤ h.total l + h.size f) :
    (h.kept f (k - h.total l) m).addrs (l ++ [f]) = (h.addrs (l ++ f :: m)).take k := by
  obtain ⟨hnl, hnm, hd⟩ := List.nodup_append.mp hc.path.nodup
  have hf : f ∉ m := (List.nodup_cons.mp hnm).1
  obtain ⟨x, hx⟩ := hc.live f (by simp)
  have hlen : (h.addrs l).length = h.total l := length_addrs fun g hg => hc.live g (List.mem_append_left _ hg)
  have hsame : ∀ g ∈ l, (h.kept f (k - h.total l) m).frags g = h.frags g := fun g hg =>
    kept_frags_of_ne (fun e => hd g hg f (by simp) e) fun h => hd g hg g (List.mem_cons_of_mem _ h) rfl
  rw [size_of hx] at hk
  have hle' : k - h.total l ≤ x.size := by omega
  have htrim : Frag.addrs { x.resize (k - h.total l) with next := none } = x.addrs.take (k - h.total l) :=
    addrs_release_tail hle'
  rw [addrs_append, addrs_congr hsame, addrs_cons (kept_frags hx hf), addrs_nil, List.append_nil, htrim,
    addrs_append, addrs_cons hx, List.take_append, hlen, List.take_of_length_le (Nat.le_trans (Nat.le_of_eq hlen) hle),
    List.take_append_of_le_length (by rw [addrs_length]; exact hle')]

/-! ## The slice -/

/-- **What becomes of the fragments** `front ++ kept ++ back` of the buffer in slot `i`. -/
structure Shrunk (h h' : Heap ι) (i : ι) (front kept back : List Nat) : Prop where
  chain : h'.Chain (h'.slots i) kept
  gone : ∀ f ∈ front, h'.refs f + 1 = h.refs f
  same : ∀ f ∈ kept, h'.refs f = h.refs f
  cut : ∀ a f b, back = a ++ f :: b → h'.refs f + (if ∀ g ∈ a, h.refs g = 1 then 1 else 0) = h.refs f
  others : ∀ f, f ∉ front ++ kept ++ back → h'.frags f = h.frags f
  slots : ∀ j, j ≠ i → h'.slots j = h.slots j
  bytes : h'.bytes = h.bytes
  counted : h'.Counted
  sound : h'.Sound

/-- `gabs_pbuf_shrink`, with the addresses of the bytes that are left. -/
theorem shrink_shrunk (hs : h.Sound) (hn : h.Counted) (hc : h.Chain (h.slots i) l) (ht : h.total l < 2 ^ 64)
    (offset size : Nat) : ∃ h' front kept back, gabsPbufShrink h i offset size = .ok h' ∧ l = front ++ kept ++ back ∧
      Shrunk h h' i front kept back ∧ h'.addrs kept = ((h.addrs l).drop offset).take size := by
  obtain ⟨l₁, l₂, h₁, it, rfl, hshrink, hat, hF⟩ := front_eq hs hn hc ht offset size
  have hnd := List.nodup_append.mp hc.path.nodup
  rw [← hF.addrs]
  rcases keep_eq hF.sound hat size with ⟨hkeep, hle⟩ | ⟨a, f, t, rfl, hkeep, hlo, hhi, hchain⟩
  · refine ⟨h₁, l₁, l₂, [], hshrink.trans hkeep, (List.append_nil _).symm,
      ⟨hat.chain, hF.gone, fun f hf => hF.same f fun h => hnd.2.2 f h f hf rfl, fun a f b e => ?_, fun f hf => ?_,
        hF.slots, hF.bytes, hF.counted, hF.sound⟩, ?_⟩
    · simp at e
    · exact hF.others f (by rwa [List.append_nil] at hf)
    · rw [List.take_of_length_le]
      refine Nat.le_trans (Nat.le_of_eq (length_addrs hat.chain.live)) ?_
      rcases hle with rfl | hlt
      · exact Nat.zero_le _
      · exact Nat.le_of_lt hlt
  · have hle : h₁.total a ≤ size := by
      rcases hlo with rfl | hlt
      · exact Nat.zero_le _
      · exact Nat.le_of_lt hlt
    have hc₁ : h₁.Chain (h₁.slots i) (a ++ f :: t) := hat.chain
    obtain ⟨-, hnt, hd⟩ := List.nodup_append.mp hnd.2.1
    obtain ⟨hft, hnt⟩ := List.nodup_cons.mp hnt
    have hgone : ∀ g ∈ l₁, g ∉ a ++ f :: t := fun g hg h => hnd.2.2 g hg g h rfl
    have hkept : ∀ g ∈ a ++ [f], g ∉ t ∧ g ∉ l₁ := fun g hg => by
      have hmem : g ∈ a ++ f :: t := by simp only [List.mem_append, List.mem_cons] at hg ⊢; tauto
      refine ⟨fun h => ?_, fun h => hgone g h hmem⟩
      rcases List.mem_append.mp hg with hg | hg
      · exact hd g hg g (List.mem_cons_of_mem _ h) rfl
      · rw [List.mem_singleton.mp hg] at h
        exact hft h
    refine ⟨_, l₁, a ++ [f], t, hshrink.trans hkeep, by simp, ⟨hchain, fun g hg => ?_, fun g hg => ?_,
      fun u g v e => ?_, fun g hg => ?_, fun j hj => ?_, ?_, ?_, ?_⟩, kept_addrs hc₁ hle hhi⟩
    · rw [kept_refs_of_notMem fun h => hgone g hg (by simp [h]), hF.gone g hg]
    · rw [kept_refs_of_notMem (hkept g hg).1, hF.same g (hkept g hg).2]
    · have hall := kept_refs (k := size - h₁.total a) hF.counted
        (fun g hg => hc₁.live g (List.mem_append_right _ (List.mem_cons_of_mem _ hg))) hnt hft e
      have hrefs : ∀ g ∈ t, h₁.refs g = h.refs g := fun g hg => hF.same g fun h => hgone g h (by simp [hg])
      rw [hrefs g (by simp [e])] at hall
      have hiff : (∀ g ∈ u, h₁.refs g = 1) ↔ ∀ g ∈ u, h.refs g = 1 :=
        forall₂_congr fun g hg => by rw [hrefs g (by simp [e, hg])]
      rwa [if_congr hiff rfl rfl] at hall
    · simp only [List.mem_append, List.mem_singleton, not_or] at hg
      rw [kept_frags_of_ne hg.1.2.2 hg.2]
      refine hF.others g ?_
      simp only [List.mem_append, List.mem_cons, not_or]
      exact ⟨hg.1.1, hg.1.2.1, hg.1.2.2, hg.2⟩
    · rw [kept_slots, hF.slots j hj]
    · rw [kept_bytes, hF.bytes]
    · exact hF.counted.kept _ _ _
    · exact hF.sound.kept _ _ _

omit [DecidableEq ι] in
/-- The bytes at some of the addresses of a chain. -/
theorem Shrunk.content {h' : Heap ι} {front kept back : List Nat} (hS : Shrunk h h' i front kept back)
    {offset size : Nat} (ha : h'.addrs kept = ((h.addrs l).drop offset).take size) :
    h'.content kept = ((h.content l).drop offset).take size := by
  rw [Heap.content, ha, Heap.content, ← List.map_drop, ← List.map_take]
  exact List.map_congr_left fun p _ => by rw [Heap.byte, hS.bytes, Heap.byte]

/-- **Shrinking is slicing.** -/
theorem shrink_slice (hs : h.Sound) (hn : h.Counted) (hc : h.Chain (h.slots i) l) (ht : h.total l < 2 ^ 64)
    (offset size : Nat) : ∃ h' front kept back, gabsPbufShrink h i offset size = .ok h' ∧ l = front ++ kept ++ back ∧
      Shrunk h h' i front kept back ∧ h'.content kept = ((h.content l).drop offset).take size := by
  obtain ⟨h', front, kept, back, hrun, hl, hS, haddrs⟩ := shrink_shrunk hs hn hc ht offset size
  exact ⟨h', front, kept, back, hrun, hl, hS, hS.content haddrs⟩

/-- Two buffers: the one in slot 0 has the fragments 0, 1 and 2 of four bytes each, the one in slot 1 those from 1 on.
-/
def sharedBack : Heap (Fin 2) := heapOf (fun i => if i = 0 then some 0 else some 1)
  [⟨⟨.own 0, 0⟩, ⟨.own 0, 0⟩, 4, 4, false, 1, some 1, 0⟩, ⟨⟨.own 1, 0⟩, ⟨.own 1, 0⟩, 4, 4, false, 2, some 2, 0⟩,
    ⟨⟨.own 2, 0⟩, ⟨.own 2, 0⟩, 4, 4, false, 1, none, 0⟩]

theorem sharedBack_chain : sharedBack.Chain (sharedBack.slots 0) [0, 1, 2] := chain_of_walk (n := 3) (by decide)

/-- The first fragment is removed, the second one trimmed on both sides, the third one detached. -/
theorem shrink_slice_middle : ∃ h' front kept back, gabsPbufShrink sharedBack 0 5 2 = .ok h' ∧
    [0, 1, 2] = front ++ kept ++ back ∧ Shrunk sharedBack h' 0 front kept back ∧
    h'.content kept = ((sharedBack.content [0, 1, 2]).drop 5).take 2 :=
  shrink_slice (heapOf_sound _ _) (heapOf_counted _ (by decide)) sharedBack_chain (by decide) 5 2

/-- **A fragment behind a shared one loses no reference** when both are taken out of the buffer. -/
theorem detached_kept : ∃ h', gabsPbufShrink sharedBack 0 0 4 = .ok h' ∧
    sharedBack.chain (sharedBack.slots 0) = some [0, 1, 2] ∧ h'.chain (h'.slots 0) = some [0] ∧
    h'.refs 1 + 1 = sharedBack.refs 1 ∧ h'.refs 2 = sharedBack.refs 2 := by
  obtain ⟨h', hh⟩ : ∃ h', gabsPbufShrink sharedBack 0 0 4 = .ok h' := ⟨_, rfl⟩
  refine ⟨h', hh, by decide, ?_⟩
  cases hh
  decide

end Gabs.Pbuf
