import Gabs.Pbuf.Content
import Gabs.Pbuf.Fits

/-!
# Packet buffers: what the calls leave alone

- `Kept`: the fragments below `N` and the bytes at the addresses `A` are as in `h₀`, and the others fit and lead only to
  one another;
- what the writes of the iterators, and the loops of `gabs_pbuf_shrink`, make of it, when they start above `N`.

For `N = 0` and no address this is the representation invariant alone. The condition `S` is that of `Passes`: under it
no fragment is at the null address.
-/

namespace Gabs.Pbuf

open Gabs.Lib

variable {ι : Type} {S : Prop} {h₀ h : Heap ι} {N : Nat} {A : Ptr → Prop} {p v : Option Nat} {f n : Nat} {x z : Frag}
  {it : Ci ι}

/-- **What is kept.** -/
structure Kept (S : Prop) (h₀ : Heap ι) (N : Nat) (A : Ptr → Prop) (h : Heap ι) : Prop where
  fits : h.Fits
  based : S → ∀ f x, h.frags f = some x → x.base.block ≠ .null
  asked : N ≤ h.asked
  below : ∀ f, f < N → h.frags f = h₀.frags f
  above : ∀ f x g, N ≤ f → h.frags f = some x → x.next = some g → N ≤ g
  known : ∀ f x g, h.frags f = some x → x.base.block = .own g → g < h.asked
  plain : ∀ f x, N ≤ f → h.frags f = some x → x.readonly = false → x.base.block = .own f
  own : ∀ i, h₀.slots i = none → ∀ f, h.slots i = some f → N ≤ f
  mem : ∀ q, A q → h.byte q = h₀.byte q
  grants : h.grants = h₀.grants

/-- There is no fragment below `N` at `p`. -/
def Above (N : Nat) (p : Option Nat) : Prop := ∀ f, p = some f → N ≤ f

/-- The pointer is none of a fragment below `N`. -/
def Link.Above (N : Nat) (lp : Link ι) : Prop := ∀ f, lp = .next f → N ≤ f

theorem above_none (N : Nat) : Above N none := nofun

theorem Kept.next_above (hk : Kept S h₀ N A h) (hf : N ≤ f) (hx : h.frags f = some x) : Above N x.next :=
  fun g hg => hk.above f x g hf hx hg

/-- A fragment above `N` is written. -/
theorem Kept.put (hk : Kept S h₀ N A h) (hf : N ≤ f) (hz : h.frags f = some z) (hx : x.Fits) (hb : x.base = z.base)
    (hr : x.readonly = z.readonly) (hn : Above N x.next) : Kept S h₀ N A (h.put f x) := by
  refine ⟨fun g y hy => ?_, fun hs g y hy => ?_, hk.asked, fun g hg => ?_, fun g y c hg hy hc => ?_,
    fun g y c hy hc => ?_, fun g y hg hy hro => ?_, hk.own, hk.mem, hk.grants⟩
  · rw [put_frags] at hy
    by_cases e : g = f
    · subst e
      rw [Function.update_self] at hy
      cases hy
      exact ⟨hk.fits.sound g z hz, hx⟩
    · rw [Function.update_of_ne e] at hy
      exact hk.fits g y hy
  · rw [put_frags] at hy
    by_cases e : g = f
    · subst e
      rw [Function.update_self] at hy
      cases hy
      rw [hb]
      exact hk.based hs g z hz
    · rw [Function.update_of_ne e] at hy
      exact hk.based hs g y hy
  · rw [put_frags, Function.update_of_ne (by omega), hk.below g hg]
  · rw [put_frags] at hy
    by_cases e : g = f
    · subst e
      rw [Function.update_self] at hy
      cases hy
      exact hn c hc
    · rw [Function.update_of_ne e] at hy
      exact hk.above g y c hg hy hc
  · rw [put_frags] at hy
    by_cases e : g = f
    · subst e
      rw [Function.update_self] at hy
      cases hy
      rw [hb] at hc
      exact hk.known g z c hz hc
    · rw [Function.update_of_ne e] at hy
      exact hk.known g y c hy hc
  · rw [put_frags] at hy
    by_cases e : g = f
    · subst e
      rw [Function.update_self] at hy
      cases hy
      rw [hb]
      exact hk.plain g z hg hz (hr ▸ hro)
    · rw [Function.update_of_ne e] at hy
      exact hk.plain g y hg hy hro

/-- A fragment above `N` is released. -/
theorem Kept.dealloc (hk : Kept S h₀ N A h) (hf : N ≤ f) (a : Nat) : Kept S h₀ N A (h.dealloc a f) := by
  have hsub : ∀ g y, (h.dealloc a f).frags g = some y → h.frags g = some y := fun g y hy => by
    rw [dealloc_frags] at hy
    by_cases e : g = f
    · subst e
      rw [Function.update_self] at hy
      cases hy
    · rwa [Function.update_of_ne e] at hy
  refine ⟨fun g y hy => hk.fits g y (hsub g y hy), fun hs g y hy => hk.based hs g y (hsub g y hy), hk.asked,
    fun g hg => ?_, fun g y c hg hy hc => hk.above g y c hg (hsub g y hy) hc,
    fun g y c hy hc => hk.known g y c (hsub g y hy) hc, fun g y hg hy hro => hk.plain g y hg (hsub g y hy) hro, hk.own,
      hk.mem, hk.grants⟩
  rw [dealloc_frags, Function.update_of_ne (by omega), hk.below g hg]

/-- The `next` of a fragment above `N` is written, or its reference counter. -/
theorem Kept.relink (hk : Kept S h₀ N A h) (hf : N ≤ f) (hz : h.frags f = some z) (r : Nat) (hv : Above N v) :
    Kept S h₀ N A (h.put f { z with refcnt := r, next := v }) :=
  hk.put hf hz ((hk.fits.frag hz).relink r v) rfl rfl hv

theorem decrefLoop_kept (hk : Kept S h₀ N A h) (n : Nat) (hp : Above N p) :
    Passes S (decrefLoop n h p) (Kept S h₀ N A) := by
  induction n generalizing h p with
  | zero => exact nofun
  | succ n ih =>
    cases p with
    | none => exact hk
    | some cur =>
      have hcur : N ≤ cur := hp cur rfl
      rw [decrefLoop]
      refine (deref_passes h (some cur)).bind fun x hx => ?_
      obtain ⟨f, hf, hx⟩ := hx
      cases hf
      have hput := hk.relink hcur hx (dec x.refcnt) (hk.next_above hcur hx)
      exact upto_ite (fun _ => hput) fun _ => ih (hput.dealloc hcur _) (hk.next_above hcur hx)

/-- The last fragment of a chain above `N` is above it. -/
theorem lastLoop_kept (hk : Kept S h₀ N A h) (n : Nat) {last cur : Option Nat} (hl : Above N last) (hc : Above N cur) :
    Passes S (lastLoop n h last cur) (Above N) := by
  induction n generalizing last cur with
  | zero => exact nofun
  | succ n ih =>
    cases cur with
    | none => exact hl
    | some cur =>
      refine (deref_passes h (some cur)).bind fun x hx => ?_
      obtain ⟨f, hf, hx⟩ := hx
      cases hf
      exact ih hc (hk.next_above (hc cur rfl) hx)

/-- An iterator that goes on above `N`. -/
theorem ciNext_kept (hk : Kept S h₀ N A h) (hc : Above N it.cur) :
    Passes S (ciNext h it) fun it' => Above N it'.cur ∧ it'.lastp.Above N := by
  refine (ciNext_passes h it).mono fun it' hit' => ?_
  obtain ⟨f, x, hf, hx, rfl⟩ := hit'
  exact ⟨hk.next_above (hc f hf) hx, fun g hg => by cases hg; exact hc f hf⟩

theorem ciReleaseHead_kept (hk : Kept S h₀ N A h) (hc : Above N it.cur) (hcur : it.cur = some f)
    (hx : h.frags f = some x) (hn : n ≤ x.size) : Passes S (ciReleaseHead h it n) fun r => Kept S h₀ N A r.1 := by
  have hf : N ≤ f := hc f hcur
  rw [ciReleaseHead, hcur, deref_of hx]
  refine (assert_passes h fun _ => decide_eq_true hn).bind fun _ _ => ?_
  rw [modify_of hx]
  have hnext := hk.next_above hf hx
  exact hk.put hf hx ((hk.fits.frag hx).release_head hn) rfl rfl hnext

theorem ciReleaseTail_kept (hk : Kept S h₀ N A h) (hc : Above N it.cur) (hcur : it.cur = some f)
    (hx : h.frags f = some x) (hn : n ≤ x.size) : Passes S (ciReleaseTail h it n) fun r => Kept S h₀ N A r.1 := by
  have hf : N ≤ f := hc f hcur
  rw [ciReleaseTail, hcur, deref_of hx]
  refine (assert_passes h fun _ => decide_eq_true hn).bind fun _ _ => ?_
  rw [modify_of hx]
  have hnext := hk.next_above hf hx
  exact hk.put hf hx ((hk.fits.frag hx).release_tail hn) rfl rfl hnext

/-- Where the second loop of `gabs_pbuf_shrink` stops there are as many bytes as are kept. -/
theorem keepLoop_kept (hk : Kept S h₀ N A h) (n : Nat) (hc : Above N it.cur) (bytes rem : Nat) :
    Passes S (keepLoop h n it bytes rem) fun r => Above N r.1.cur ∧
      (ciEoi r.1 = false → ∃ f x, r.1.cur = some f ∧ h.frags f = some x ∧ r.2 ≤ x.size) := by
  induction n generalizing it bytes rem with
  | zero => exact nofun
  | succ n ih =>
    rw [keepLoop]
    refine upto_ite (fun heoi => ⟨hc, fun h => by rw [heoi] at h; cases h⟩) fun _ => ?_
    refine (ciSize_passes h it).bind fun s hs => ?_
    obtain ⟨f, x, hcur, hx, rfl⟩ := hs
    refine upto_ite (fun _ => ⟨hc, fun _ => ⟨f, x, hcur, hx, Nat.min_le_left _ _⟩⟩) fun _ => ?_
    exact (ciNext_kept hk hc).bind fun it' hit' => ih hit'.1 _ _

/-! ## Links -/

variable [DecidableEq ι]

theorem assign_kept (hk : Kept S h₀ N A h) {lp : Link ι} (hl : lp.Above N) (hv : Above N v) :
    Passes S (h.assign lp v) (Kept S h₀ N A) := by
  cases lp with
  | slot i =>
    refine ⟨hk.fits, hk.based, hk.asked, hk.below, hk.above, hk.known, hk.plain, fun j hj f hf => ?_, hk.mem, hk.grants⟩
    by_cases e : j = i
    · subst e
      exact hv f (by simpa using hf)
    · exact hk.own j hj f (by simpa [e] using hf)
  | param => exact hk
  | next f =>
    refine (modify_passes h (some f) _).mono fun h' hh' => ?_
    obtain ⟨g, x, hg, hx, rfl⟩ := hh'
    cases hg
    exact hk.relink (hl f rfl) hx x.refcnt hv

/-- The chain `buf` is inserted, where both it and the position are above `N`. -/
theorem ciInsert_kept (hk : Kept S h₀ N A h) (hc : Above N it.cur) (hl : it.lastp.Above N) (hb : Above N p) :
    Passes S (ciInsert h it p) fun r => Kept S h₀ N A r.1 ∧ Above N r.2.cur ∧ r.2.lastp.Above N := by
  refine (lastLoop_kept hk h.fuel (above_none N) hb).bind fun last hlast => ?_
  cases last with
  | none => exact (assign_kept hk hl hc).bind fun h' hk' => ⟨hk', hc, hl⟩
  | some last =>
    refine (assign_kept hk (show (Link.next last).Above N from fun f hf => ?_) hc).bind fun h' hk' => ?_
    · cases hf
      exact hlast last rfl
    · exact (assign_kept hk' hl hb).bind fun h'' hk'' => ⟨hk'', hb, hl⟩

theorem ciRemove_kept (hk : Kept S h₀ N A h) (hc : Above N it.cur) (hl : it.lastp.Above N) :
    Passes S (ciRemove h it) fun r => Kept S h₀ N A r.1 ∧ Above N r.2.cur ∧ r.2.lastp.Above N := by
  refine (deref_passes h it.cur).bind fun x hx => ?_
  obtain ⟨f, hcur, hx⟩ := hx
  have hnext : Above N x.next := hk.next_above (hc f hcur) hx
  refine (assign_kept hk hl hnext).bind fun h₁ hk₁ => ?_
  refine (modify_passes h₁ it.cur _).bind fun h₂ hh₂ => ?_
  obtain ⟨g, y, hg, hy, rfl⟩ := hh₂
  have hk₂ := hk₁.relink (hc g hg) hy y.refcnt (above_none N)
  exact (decrefLoop_kept hk₂ _ hc).bind fun h₃ hk₃ => ⟨hk₃, hnext, hl⟩

theorem ciDetach_kept (hk : Kept S h₀ N A h) (hc : Above N it.cur) (hl : it.lastp.Above N) :
    Passes S (ciDetach h it) (Kept S h₀ N A) :=
  (assign_kept hk hl (above_none N)).bind fun h' hk' => decrefLoop_kept hk' h'.fuel hc

/-! ## Shrinking -/

/-- Where the first loop stops: the fragment there, if there is one, has bytes beyond the offset. -/
def Straddles (h : Heap ι) (it : Ci ι) (offset bytes : Nat) : Prop :=
  bytes ≤ offset ∧ (ciEoi it = false → ∃ f x, it.cur = some f ∧ h.frags f = some x ∧ offset < wrap (bytes + x.size))

theorem dropLoop_kept (hk : Kept S h₀ N A h) (hc : Above N it.cur) (hl : it.lastp.Above N) {offset bytes : Nat}
    (hb : bytes ≤ offset) (n : Nat) : Passes S (dropLoop offset n h it bytes) fun r =>
      Kept S h₀ N A r.1 ∧ Above N r.2.1.cur ∧ Straddles r.1 r.2.1 offset r.2.2 := by
  induction n generalizing h it bytes with
  | zero => exact nofun
  | succ n ih =>
    rw [dropLoop]
    refine upto_ite (fun heoi => ⟨hk, hc, hb, fun h => by rw [heoi] at h; cases h⟩) fun _ => ?_
    refine (ciSize_passes h it).bind fun s hs => ?_
    obtain ⟨f, x, hcur, hx, rfl⟩ := hs
    refine upto_ite (fun hlt => ⟨hk, hc, hb, fun _ => ⟨f, x, hcur, hx, hlt⟩⟩) fun hge => ?_
    exact (ciRemove_kept hk hc hl).bind fun r ⟨hk', hc', hl'⟩ => ih hk' hc' hl' (Nat.le_of_not_lt hge)

theorem keep_kept (hk : Kept S h₀ N A h) (hc : Above N it.cur) (size : Nat) :
    Passes S (keep h it size) (Kept S h₀ N A) := by
  refine (keepLoop_kept hk h.fuel hc 0 size).bind fun r hr => ?_
  obtain ⟨it, bytes⟩ := r
  obtain ⟨hc, hr⟩ := hr
  refine upto_ite (fun _ => hk) fun hne => ?_
  obtain ⟨f, x, hcur, hx, hle⟩ := hr (Bool.eq_false_iff.mpr hne)
  refine (ciSize_passes h it).bind fun s hs => ?_
  obtain ⟨g, y, hcur', hy, rfl⟩ := hs
  rw [hcur] at hcur'
  cases hcur'
  rw [hx] at hy
  cases hy
  have hrest : ∀ h' : Heap ι, Kept S h₀ N A h' → Passes S (do
      let it ← ciNext h' it
      if ciEoi it then .ok h' else ciDetach h' it) (Kept S h₀ N A) := fun h' hk' =>
    (ciNext_kept hk' hc).bind fun it' ⟨hc', hl'⟩ => upto_ite (fun _ => hk') fun _ => ciDetach_kept hk' hc' hl'
  refine upto_ite (fun hlt => ?_) fun _ => hrest h hk
  have hle' : sub x.size bytes ≤ x.size := by
    rw [sub_of_le (Nat.le_of_lt hlt)]
    omega
  refine Upto.bind (Upto.bind (ciReleaseTail_kept hk hc hcur hx hle') fun r hr => ?_) hrest
  exact hr

/-- **`gabs_pbuf_shrink`** passes its assertions, and leaves alone what is below `N`. -/
theorem gabsPbufShrink_kept (hk : Kept S h₀ N A h) (i : ι) (hi : Above N (h.slots i)) (offset size : Nat) :
    Passes S (gabsPbufShrink h i offset size) (Kept S h₀ N A) := by
  refine upto_ite (fun _ => ?_) fun _ => keep_kept hk hi size
  refine (dropLoop_kept hk (show Above N (ciInit h (.slot i)).cur from hi) nofun (Nat.zero_le offset) h.fuel).bind
    fun r hr => ?_
  obtain ⟨h', it, bytes⟩ := r
  obtain ⟨hk', hc, hb, hcur⟩ := hr
  refine upto_ite (fun _ => hk') fun hne => ?_
  obtain ⟨f, x, hcur, hx, hlt⟩ := hcur (Bool.eq_false_iff.mpr hne)
  refine upto_ite (fun _ => ?_) fun _ => keep_kept hk' hc size
  have hle : sub offset bytes ≤ x.size := by
    have hsize := (hk'.fits.frag hx).size_lt
    simp only at hb hlt
    rw [sub_of_le hb]
    rw [wrap] at hlt
    omega
  exact (ciReleaseHead_kept hk' hc hcur hx hle).bind fun r hr => keep_kept hr hc size

theorem gabsPbufStripHead_kept (hk : Kept S h₀ N A h) (i : ι) (hi : Above N (h.slots i)) (size : Nat) :
    Passes S (gabsPbufStripHead h i size) (Kept S h₀ N A) :=
  (sizeLoop_passes h h.fuel _ 0).bind fun _ _ => gabsPbufShrink_kept hk i hi _ _

theorem gabsPbufStripTail_kept (hk : Kept S h₀ N A h) (i : ι) (hi : Above N (h.slots i)) (size : Nat) :
    Passes S (gabsPbufStripTail h i size) (Kept S h₀ N A) :=
  (sizeLoop_passes h h.fuel _ 0).bind fun _ _ => gabsPbufShrink_kept hk i hi _ _

end Gabs.Pbuf
