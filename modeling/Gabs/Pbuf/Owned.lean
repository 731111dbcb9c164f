import Gabs.Lib.Tally
import Gabs.Pbuf.Calls
import Gabs.Pbuf.Made
import Gabs.Pbuf.Shrink

/-!
# Packet buffers: every reference is counted

- `Heap.Owned`: the reference counters are the references there are, and every fragment that has been made is live or
  has been released once;
- `Owned.put`, `Owned.fresh`, `Owned.hold`, `Owned.relink`, `Owned.drop`: the writes of the code;
- `Owned.unref`, `Owned.redirect`: a buffer that is released, a position that is redirected;
- `Owned.empty`: where no handle is left, no fragment is.

The list `T` of `Owned` has the references that are in the hands of the running call: a fragment that is in it twice is
referenced twice.
-/

namespace Gabs.Pbuf

open Gabs.Lib

variable {ι : Type} {h : Heap ι} {i : ι} {p v : Option Nat} {f g : Nat} {x y : Frag} {l l₁ l₂ m T T' : List Nat}
  {it : Ci ι}

/-- Fragment `f` has been allocated. -/
def Heap.Made (h : Heap ι) (f : Nat) : Prop := f < h.asked ∧ h.grants f = true

instance (h : Heap ι) (f : Nat) : Decidable (h.Made f) := inferInstanceAs (Decidable (_ ∧ _))

/-- How often fragment `f` has been passed to `gabs_dealloc`. -/
def Heap.deallocs (h : Heap ι) (f : Nat) : Nat := (h.released.map Prod.snd).count f

/-- **Every reference is counted**: those of the handles, of the fragments, and of the running call. -/
structure Heap.Owned (h : Heap ι) (T : List Nat) : Prop where
  handles : Finitary h.slots
  settled : ∀ f, h.deallocs f + (if (h.frags f).isSome then 1 else 0) = if h.Made f then 1 else 0
  tallied : ∀ f, h.refs f = tally h.slots f + tally h.next f + T.count f
  counted : h.Counted
  grounded : ∀ f x, h.frags f = some x → ∃ l, h.Chain (some f) l

/-! ## What the references tell -/

theorem Heap.Owned.sound (ho : h.Owned T) : h.Sound := by
  intro f x hx
  have hf := ho.settled f
  rw [hx, Option.isSome_some, if_pos rfl] at hf
  by_contra hlt
  rw [if_neg fun hm => hlt hm.1] at hf
  omega

theorem Heap.Sound.finitary (hs : h.Sound) : Finitary h.next := by
  apply Set.Finite.subset (Set.finite_lt_nat h.asked)
  intro f hf
  cases hx : h.frags f with
  | none =>
    refine absurd ?_ hf
    rw [Heap.next, hx]
    rfl
  | some x => exact hs f x hx

/-- A fragment with references is live. -/
theorem live_of_refs (hr : h.refs f ≠ 0) : ∃ x, h.frags f = some x := by
  cases hx : h.frags f with
  | none =>
    refine absurd ?_ hr
    rw [Heap.refs, hx]
    rfl
  | some x => exact ⟨x, rfl⟩

/-- The client may follow its handles. -/
theorem Heap.Owned.slot (ho : h.Owned T) (i : ι) : ∃ l, h.Chain (h.slots i) l := by
  cases hi : h.slots i with
  | none => exact ⟨[], chain_nil⟩
  | some f =>
    have hpos := tally_pos ho.handles hi
    have heq := ho.tallied f
    obtain ⟨x, hx⟩ := live_of_refs (show h.refs f ≠ 0 by omega)
    exact ho.grounded f x hx

/-- **Nothing is left** where no handle is: a live fragment would be referenced by another one, and that one in turn. -/
theorem Heap.Owned.empty (ho : h.Owned []) (hi : ∀ i, h.slots i = none) (f : Nat) : h.frags f = none := by
  by_contra hne
  obtain ⟨x, hx⟩ := Option.ne_none_iff_exists'.mp hne
  -- Chains of any length.
  have hlong : ∀ n, ∃ g l, h.Chain (some g) l ∧ n < l.length := by
    intro n
    induction n with
    | zero =>
      obtain ⟨l, hl⟩ := ho.grounded f x hx
      refine ⟨f, l, hl, ?_⟩
      cases l with
      | nil => cases hl.head
      | cons g l => exact Nat.succ_pos _
    | succ n ih =>
      obtain ⟨g, l, hl, hn⟩ := ih
      obtain ⟨y, hy⟩ : ∃ y, h.frags g = some y := by
        cases l with
        | nil => cases hl.head
        | cons c l =>
          obtain rfl : g = c := Option.some.inj hl.head
          exact hl.live g List.mem_cons_self
      have hpos := ho.counted g y hy
      have heq := ho.tallied g
      rw [refs_of hy, tally_none hi, List.count_nil] at heq
      obtain ⟨c, hc⟩ := exists_of_tally (s := h.next) (a := g) (by omega)
      obtain ⟨z, hz⟩ : ∃ z, h.frags c = some z := by
        cases hz : h.frags c with
        | none =>
          rw [Heap.next, hz] at hc
          cases hc
        | some z => exact ⟨z, rfl⟩
      refine ⟨c, c :: l, ⟨⟨rfl, hc ▸ hl.path⟩, fun k hk => ?_⟩, Nat.succ_lt_succ hn⟩
      rcases List.mem_cons.mp hk with rfl | hk
      · exact ⟨z, hz⟩
      · exact hl.live k hk
  obtain ⟨g, l, hl, hn⟩ := hlong h.fuel
  have hlt := hl.length_lt ho.sound
  omega

/-! ## Writes -/

theorem put_next (hx : h.frags f = some x) (hnext : y.next = x.next) : (h.put f y).next = h.next := by
  funext g
  by_cases e : g = f
  · subst e
    rw [next_of (Function.update_self ..), hnext, next_of hx]
  · rw [Heap.next, put_frags, Function.update_of_ne e, Heap.next]

/-- **A fragment is written** that leads on as before: what its counter gains, the running call gains. -/
theorem Heap.Owned.put (ho : h.Owned T) (hx : h.frags f = some x) (hnext : y.next = x.next) (hpos : 0 < y.refcnt)
    (hself : y.refcnt + T.count f = x.refcnt + T'.count f) (hrest : ∀ g, g ≠ f → T'.count g = T.count g) :
    (h.put f y).Owned T' := by
  have hlinks : (h.put f y).next = h.next := put_next hx hnext
  refine ⟨ho.handles, fun g => ?_, fun g => ?_, fun g z hz => ?_, fun g z hz => ?_⟩
  · have hsame : ((h.put f y).frags g).isSome = (h.frags g).isSome := by
      by_cases e : g = f
      · subst e
        rw [put_frags, Function.update_self, hx]
        rfl
      · rw [put_frags, Function.update_of_ne e]
    rw [hsame]
    exact ho.settled g
  · rw [hlinks]
    have heq := ho.tallied g
    by_cases e : g = f
    · subst e
      rw [refs_of hx] at heq
      rw [refs_of (Function.update_self ..), put_slots]
      omega
    · rw [hrest g e, refs_congr (show (h.put f y).frags g = h.frags g from Function.update_of_ne e ..)]
      exact heq
  · by_cases e : g = f
    · subst e
      rw [put_frags, Function.update_self] at hz
      cases hz
      exact hpos
    · rw [put_frags, Function.update_of_ne e] at hz
      exact ho.counted g z hz
  · have hlive : ∀ c, (∃ z, h.frags c = some z) → ∃ z, (h.put f y).frags c = some z := by
      intro c hc
      by_cases e : c = f
      · subst e
        exact ⟨y, Function.update_self ..⟩
      · rwa [put_frags, Function.update_of_ne e]
    obtain ⟨w, hw⟩ : ∃ w, h.frags g = some w := by
      by_cases e : g = f
      · subst e
        exact ⟨x, hx⟩
      · rw [put_frags, Function.update_of_ne e] at hz
        exact ⟨z, hz⟩
    obtain ⟨l, hl⟩ := ho.grounded g w hw
    exact ⟨l, hl.congr (fun c _ => congrFun hlinks c) fun c hc => hlive c (hl.live c hc)⟩

/-- A fragment changes in neither its references nor where it leads. -/
theorem Heap.Owned.adjust (ho : h.Owned T) (hx : h.frags f = some x) {k : Frag → Frag} (hr : (k x).refcnt = x.refcnt)
    (hn : (k x).next = x.next) : (h.adjust f k).Owned T := by
  have hput : h.adjust f k = h.put f (k x) := by
    rw [Heap.adjust, hx]
    rfl
  rw [hput]
  exact ho.put hx hn (by rw [hr]; exact ho.counted f x hx) (by rw [hr]) fun _ _ => rfl

theorem inc_of_lt {r : Nat} (hr : r + 1 < 2 ^ 32) : inc r = r + 1 := if_neg (Nat.ne_of_lt hr)

/-- A fragment gains a reference. -/
theorem Heap.Owned.incref (ho : h.Owned T) (hx : h.frags f = some x) (hr : x.refcnt + 1 < 2 ^ 32) :
    (h.put f { x with refcnt := inc x.refcnt }).Owned (f :: T) := by
  have hinc := inc_of_lt hr
  apply ho.put (y := { x with refcnt := inc x.refcnt }) hx rfl
  · show 0 < inc x.refcnt
    omega
  · rw [List.count_cons_self]
    show inc x.refcnt + _ = _
    omega
  · intro g hg
    exact List.count_cons_of_ne (Ne.symm hg)

/-- An allocation has failed. -/
theorem Heap.Owned.refused (ho : h.Owned T) (hg : ¬ h.grants h.asked = true) (n : Nat) : (h.refused n).Owned T := by
  refine ⟨ho.handles, fun f => ?_, ho.tallied, ho.counted, fun f x hx => ?_⟩
  · have hmade : (h.refused n).Made f ↔ h.Made f := by
      constructor
      · rintro ⟨hlt, hgrant⟩
        refine ⟨?_, hgrant⟩
        have hne : f ≠ h.asked := fun e => hg (e ▸ hgrant)
        exact Nat.lt_of_le_of_ne (Nat.le_of_lt_succ hlt) hne
      · rintro ⟨hlt, hgrant⟩
        exact ⟨Nat.lt_succ_of_lt hlt, hgrant⟩
    rw [if_congr hmade rfl rfl]
    exact ho.settled f
  · obtain ⟨l, hl⟩ := ho.grounded f x hx
    exact ⟨l, hl.path, hl.live⟩

/-- **A new fragment** is in the hands of the running call. -/
theorem Heap.Owned.fresh (ho : h.Owned T) (hg : h.grants h.asked = true) (hr : x.refcnt = 1) (hn : x.next = none)
    (n : Nat) : (h.fresh n x).Owned (h.asked :: T) := by
  have hnone : h.frags h.asked = none := by
    by_contra hne
    obtain ⟨y, hy⟩ := Option.ne_none_iff_exists'.mp hne
    exact Nat.lt_irrefl _ (ho.sound h.asked y hy)
  have hself : (h.fresh n x).frags h.asked = some x := fresh_frags_self h n x
  have hlinks : (h.fresh n x).next = h.next := by
    funext g
    by_cases e : g = h.asked
    · subst e
      rw [next_of hself, hn, Heap.next, hnone]
      rfl
    · rw [Heap.next, fresh_frags_of_ne e, Heap.next]
  refine ⟨ho.handles, fun g => ?_, fun g => ?_, fun g y hy => ?_, fun g y hy => ?_⟩
  · have heq := ho.settled g
    by_cases e : g = h.asked
    · subst e
      rw [hnone, if_neg (show ¬ h.Made h.asked from fun hm => Nat.lt_irrefl _ hm.1)] at heq
      rw [hself, if_pos (show (h.fresh n x).Made h.asked from ⟨Nat.lt_succ_self _, hg⟩)]
      show h.deallocs h.asked + 1 = 1
      simp only [Option.isSome_none, Bool.false_eq_true, if_false] at heq
      omega
    · have hmade : (h.fresh n x).Made g ↔ h.Made g :=
        and_congr_left fun _ => ⟨fun hlt => Nat.lt_of_le_of_ne (Nat.le_of_lt_succ hlt) e, Nat.lt_succ_of_lt⟩
      rw [if_congr hmade rfl rfl, fresh_frags_of_ne e]
      exact heq
  · rw [hlinks]
    have heq := ho.tallied g
    by_cases e : g = h.asked
    · subst e
      rw [Heap.refs, hnone] at heq
      rw [refs_of hself, hr, List.count_cons_self]
      show 1 = tally h.slots h.asked + _ + _
      simp only [Option.elim] at heq
      omega
    · rw [refs_congr (fresh_frags_of_ne e n x), List.count_cons_of_ne (Ne.symm e)]
      exact heq
  · by_cases e : g = h.asked
    · subst e
      rw [hself] at hy
      cases hy
      omega
    · rw [fresh_frags_of_ne e] at hy
      exact ho.counted g y hy
  · by_cases e : g = h.asked
    · subst e
      refine ⟨[h.asked], ⟨rfl, (next_of hself).trans hn⟩, fun c hc => ?_⟩
      rw [List.mem_singleton.mp hc]
      exact ⟨x, hself⟩
    · rw [fresh_frags_of_ne e] at hy
      obtain ⟨l, hl⟩ := ho.grounded g y hy
      exact ⟨l, hl.fresh ho.sound n x⟩

/-- **A fragment loses a reference** of the running call. With the last one it is released, and what it led to is in the
hands of the running call instead. -/
theorem Heap.Owned.drop (ho : h.Owned (f :: T)) (hx : h.frags f = some x) :
    (h.drop f).Owned (if 0 < dec x.refcnt then T else x.next.toList ++ T) := by
  have hcount := ho.counted f x hx
  have hdec := dec_of_pos hcount
  split
  · rename_i hpos
    rw [Heap.drop, hx]
    simp only [if_pos hpos]
    apply ho.put (y := { x with refcnt := dec x.refcnt }) hx rfl hpos
    · rw [List.count_cons_self]
      show dec x.refcnt + _ = _
      omega
    · intro g hg
      exact (List.count_cons_of_ne (Ne.symm hg)).symm
  · rename_i hzero
    have hdrop : h.drop f = h.dealloc x.alloc f := by
      rw [Heap.drop, hx]
      exact if_neg hzero
    have hgone : (h.drop f).frags f = none := by rw [drop_frags hx, if_neg hzero]
    have hlinks : (h.drop f).next = Function.update h.next f none := by
      funext g
      by_cases e : g = f
      · subst e
        rw [Heap.next, hgone, Function.update_self]
        rfl
      · rw [drop_next_of_ne e, Function.update_of_ne e]
    -- Nothing else leads to the fragment.
    have hlast := ho.tallied f
    rw [refs_of hx, List.count_cons_self] at hlast
    refine ⟨by rw [drop_slots]; exact ho.handles, fun g => ?_, fun g => ?_, ho.counted.drop f, fun g y hy => ?_⟩
    · have heq := ho.settled g
      have hmade : (h.drop f).Made g ↔ h.Made g := by rw [hdrop]; exact Iff.rfl
      rw [if_congr hmade rfl rfl, ← heq]
      have hreleased : (h.drop f).deallocs g = h.deallocs g + [f].count g := by
        rw [hdrop, Heap.deallocs, Heap.dealloc, List.map_cons, List.count_cons, Heap.deallocs, List.count_singleton]
      rw [hreleased]
      by_cases e : g = f
      · subst e
        rw [hgone, hx, List.count_singleton_self]
        rfl
      · rw [drop_frags_of_ne e, List.count_singleton, if_neg (by simpa using Ne.symm e), Nat.add_zero]
    · have heq := ho.tallied g
      have hupd := tally_update ho.sound.finitary f none g
      rw [next_of hx, Option.toList_none, List.count_nil] at hupd
      rw [hlinks, drop_slots, List.count_append]
      by_cases e : g = f
      · subst e
        rw [Heap.refs, hgone]
        simp only [Option.elim]
        omega
      · rw [List.count_cons_of_ne (Ne.symm e)] at heq
        rw [refs_congr (drop_frags_of_ne e)]
        omega
    · have hne : g ≠ f := by
        rintro rfl
        rw [hgone] at hy
        cases hy
      rw [drop_frags_of_ne hne] at hy
      obtain ⟨l, hl⟩ := ho.grounded g y hy
      refine ⟨l, hl.drop fun hmem => ?_⟩
      obtain ⟨a, b, rfl⟩ := List.append_of_mem hmem
      rcases List.eq_nil_or_concat a with rfl | ⟨a, c, rfl⟩
      · exact hne (Option.some.inj hl.head)
      · rw [List.concat_eq_append, List.append_assoc] at hl
        obtain ⟨r, -, hr⟩ := path_append.mp hl.path
        have hpos := tally_pos ho.sound.finitary (show h.next c = some f from hr.2.1)
        omega

/-! ## Links -/

/-- **A buffer is released.** -/
theorem Heap.Owned.unref (ho : h.Owned (p.toList ++ T)) (hc : h.Chain p l) : (h.unref l).Owned T := by
  induction l generalizing h p with
  | nil =>
    obtain rfl : p = none := hc.head
    exact ho
  | cons f l ih =>
    obtain rfl : p = some f := hc.head
    obtain ⟨x, hx⟩ := hc.live f List.mem_cons_self
    have hdrop := Heap.Owned.drop (T := T) ho hx
    rw [Heap.unref, hx]
    simp only
    split
    · rename_i hpos
      rwa [if_pos hpos] at hdrop
    · rename_i hzero
      rw [if_neg hzero] at hdrop
      exact ih hdrop ((hc.tail hx).drop (List.nodup_cons.mp hc.path.nodup).1)

variable [DecidableEq ι]

/-- A handle variable is set: the running call gets what it has held. -/
theorem Heap.Owned.hold (ho : h.Owned (v.toList ++ T)) (i : ι) : (h.hold i v).Owned ((h.slots i).toList ++ T) := by
  refine ⟨ho.handles.update i v, ho.settled, fun f => ?_, ho.counted, fun f x hx => ?_⟩
  · have heq := ho.tallied f
    have hupd := tally_update ho.handles i v f
    rw [List.count_append] at heq ⊢
    show h.refs f = tally (Function.update h.slots i v) f + tally h.next f + _
    omega
  · obtain ⟨l, hl⟩ := ho.grounded f x hx
    exact ⟨l, hl.path, hl.live⟩

/-- A handle variable is no fragment. -/
theorem hold_unref (h : Heap ι) (i : ι) (v : Option Nat) (l : List Nat) :
    (h.unref l).hold i v = (h.hold i v).unref l := by
  induction l generalizing h with
  | nil => rfl
  | cons f l ih =>
    have hdrop : (h.drop f).hold i v = (h.hold i v).drop f := by
      cases hx : h.frags f with
      | none => simp only [Heap.drop, Heap.hold, hx]
      | some x =>
        simp only [Heap.drop, Heap.hold, hx]
        split
        · rfl
        · rfl
    cases hx : h.frags f with
    | none => simp only [Heap.unref, Heap.hold, hx]
    | some x =>
      have hx' : (h.hold i v).frags f = some x := hx
      simp only [Heap.unref, hx, hx']
      split
      · exact hdrop
      · rw [ih, hdrop]

/-- **The `next` of a fragment is written**, and leads to a chain without it. -/
theorem Heap.Owned.relink (ho : h.Owned (v.toList ++ T)) (hx : h.frags g = some x) (hm : h.Chain v m) (hg : g ∉ m) :
    (h.link (.next g) v).Owned (x.next.toList ++ T) := by
  refine ⟨ho.handles, fun f => ?_, fun f => ?_, ho.counted.link _ _, fun f y hy => ?_⟩
  · have hsame : ((h.link (.next g) v).frags f).isSome = (h.frags f).isSome := by
      rw [link_frags]
      split
      · exact Option.isSome_map ..
      · rfl
    rw [hsame]
    exact ho.settled f
  · have heq := ho.tallied f
    have hupd := tally_update ho.sound.finitary g v f
    rw [List.count_append] at heq ⊢
    rw [next_of hx] at hupd
    rw [link_refs, link_next hx]
    show h.refs f = tally h.slots f + _ + _
    omega
  · obtain ⟨z, hz⟩ : ∃ z, h.frags f = some z := by
      rw [link_frags] at hy
      split at hy
      · obtain ⟨z, hz, -⟩ := Option.map_eq_some_iff.mp hy
        exact ⟨z, hz⟩
      · exact ⟨y, hy⟩
    obtain ⟨l, hl⟩ := ho.grounded f z hz
    by_cases hmem : g ∈ l
    · obtain ⟨a, b, rfl⟩ := List.append_of_mem hmem
      exact ⟨_, hl.redirect hm hg⟩
    · exact ⟨l, hl.link fun c hc => by rintro ⟨⟩; exact hmem hc⟩

/-- **A position is redirected** to a chain that shares no fragment with what is before it. -/
theorem Heap.Owned.redirect (ho : h.Owned (p.toList ++ T)) (ha : h.At i l₁ l₂ it) (hm : h.Chain p m)
    (hd : ∀ f ∈ m, f ∉ l₁) : (h.link (lastp i l₁) p).Owned (l₂.head?.toList ++ T) := by
  rcases List.eq_nil_or_concat l₁ with rfl | ⟨a, g, rfl⟩
  · have hhead : h.slots i = l₂.head? := ha.chain.head
    rw [lastp_nil, ← hhead]
    exact ho.hold i
  · rw [List.concat_eq_append] at ha hd ⊢
    obtain ⟨⟨x, hx⟩, hnext⟩ := ha.leads
    rw [lastp_concat, ← hnext, next_of hx]
    exact ho.relink hx hm fun hg => hd g hg (by simp)

end Gabs.Pbuf
